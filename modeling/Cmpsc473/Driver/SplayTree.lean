import Cmpsc473.Library.ParentTree
import Cmpsc473.Library.Total
import Mathlib.Algebra.Ring.Int.Defs
import Mathlib.Algebra.Order.Ring.Int

/-!
# The program `stree.c`

The functions of `stree.c`, statement by statement.  Memory holds the `tree_t` that they
are given and the nodes, each at an address, and whatever else their caller has.

A computation of type `Tm σ α` is undefined, `none`, where the C program has no defined
behaviour, where it walks for ever, and where it exits because there is no memory.
-/

namespace Cmpsc473
namespace Driver

open Total ParentTree

abbrev Ptr := UInt64

/-- What a node is about: `tkey_t` is a `long`. -/
structure Item where
  key : Int
  record : Ptr
deriving DecidableEq, Repr

/-- `node_t` -/
abbrev NodeT := Node Ptr Item

/-- `tree_t` -/
structure TreeObject where
  root : Ptr
  nodeCount : UInt64
  comparisonCount : UInt64
deriving DecidableEq, Repr

structure Memory (σ : Type) where
  node : Ptr → Option NodeT
  tree : TreeObject
  rest : σ

abbrev Tm (σ : Type) := StateT (Memory σ) Option

/-- What a call of `malloc` gives: an address, NULL when there is no room, and what the
memory there holds. -/
structure Malloc (α : Type) where
  addr : Ptr
  contents : α

variable {σ : Type}

def getNode (p : Ptr) : Tm σ NodeT := fun m =>
  if p = 0 then none else (m.node p).map fun n => (n, m)

/-- An assignment to a field of the node at `p`. -/
def modifyNode (p : Ptr) (f : NodeT → NodeT) : Tm σ Unit := fun m =>
  if p = 0 then none
  else (m.node p).map fun n => ((), { m with node := Function.update m.node p (some (f n)) })

/-- `malloc` never gives an address that is in use. -/
def mallocNode (r : Malloc NodeT) : Tm σ Ptr := fun m =>
  if r.addr = 0 then some (0, m)
  else if m.node r.addr = none then
    some (r.addr, { m with node := Function.update m.node r.addr (some r.contents) })
  else none

def freeNode (p : Ptr) : Tm σ Unit := fun m =>
  if p = 0 then some ((), m)
  else if m.node p = none then none
  else some ((), { m with node := Function.update m.node p none })

def getTree : Tm σ TreeObject := fun m => some (m.tree, m)

def modifyTree (f : TreeObject → TreeObject) : Tm σ Unit :=
  modify fun m => { m with tree := f m.tree }

def setRoot (p : Ptr) : Tm σ Unit := modifyTree fun t => { t with root := p }

/-- `tree->comparison_count++` -/
def countComparison : Tm σ Unit :=
  modifyTree fun t => { t with comparisonCount := t.comparisonCount + 1 }

/-- Rounds granted to a walk in a tree: there are no more nodes than addresses. -/
def walkRounds : Nat := 2 ^ 64

/-- `if (b) b->parent = p` -/
def adopt (b p : Ptr) : Tm σ Unit :=
  if b ≠ 0 then modifyNode b fun n => { n with parent := p } else pure ()

/-- `if (!x->parent) tree->root = y; else if (x == x->parent->left) x->parent->left = y;
else x->parent->right = y;` -/
def hang (x y : Ptr) : Tm σ Unit := do
  let p := (← getNode x).parent
  if p = 0 then setRoot y
  else if x = (← getNode p).left then modifyNode p fun n => { n with left := y }
  else modifyNode p fun n => { n with right := y }

/-- The part of a rotation that has a child `y`. -/
def rotateChild (s : Side) (x y : Ptr) : Tm σ Unit := do
  let yn ← getNode y
  modifyNode x fun n => n.setChild s (yn.child s.other)
  let yn ← getNode y
  adopt (yn.child s.other) x
  let xn ← getNode x
  modifyNode y fun n => { n with parent := xn.parent }

/-- The child `y` of `x` on a side comes up in the place of `x`. -/
def rotate (s : Side) (x : Ptr) : Tm σ Unit := do
  let y := (← getNode x).child s
  (if y ≠ 0 then rotateChild s x y else pure ())
  hang x y
  (if y ≠ 0 then modifyNode y fun n => n.setChild s.other x else pure ())
  modifyNode x fun n => { n with parent := y }

def leftRotate (x : Ptr) : Tm σ Unit := rotate .right x

def rightRotate (x : Ptr) : Tm σ Unit := rotate .left x

/-- One round of the loop of `splay`, for an `x` with a parent. -/
def splayRound (x : Ptr) : Tm σ Unit := do
  let p := (← getNode x).parent
  let pn ← getNode p
  let g := pn.parent
  if g = 0 then
    if pn.left = x then rightRotate p else leftRotate p
  else
    let gn ← getNode g
    if pn.left = x ∧ gn.left = p then
      rightRotate g
      rightRotate (← getNode x).parent
    else if pn.right = x ∧ gn.right = p then
      leftRotate g
      leftRotate (← getNode x).parent
    else if pn.left = x ∧ gn.right = p then
      rightRotate p
      leftRotate (← getNode x).parent
    else
      leftRotate p
      rightRotate (← getNode x).parent

def splayLoop (x : Ptr) : Nat → Tm σ Unit
  | 0 => fun _ => none
  | rounds + 1 => do
    if (← getNode x).parent ≠ 0 then
      splayRound x
      splayLoop x rounds
    else return ()

def splay (x : Ptr) : Tm σ Unit := splayLoop x walkRounds

def replace (u v : Ptr) : Tm σ Unit := do
  hang u v
  adopt v (← getNode u).parent

def subtreeMinimumLoop : Nat → Ptr → Tm σ Ptr
  | 0, _ => fun _ => none
  | rounds + 1, u => do
    let n ← getNode u
    if n.left ≠ 0 then subtreeMinimumLoop rounds n.left else return u

def subtreeMinimum (u : Ptr) : Tm σ Ptr := subtreeMinimumLoop walkRounds u

/-- `tree_new`, but for the memory of the `tree_t` itself. -/
def treeNew : Tm σ Unit := modifyTree fun _ => ⟨0, 0, 0⟩

/-- The loop of `tree_insert`: where it ends, or nothing if the key is in the tree. -/
def insertLoop (key : Int) : Nat → Ptr → Ptr → Tm σ (Option Ptr)
  | 0, _, _ => fun _ => none
  | rounds + 1, z, p => do
    if z ≠ 0 then
      let n ← getNode z
      countComparison
      if key = n.data.key then return none
      else
        countComparison
        if key > n.data.key then insertLoop key rounds n.right z
        else insertLoop key rounds n.left z
    else return some p

def treeInsert (r : Malloc NodeT) (key : Int) (record : Ptr) : Tm σ Bool := do
  match ← insertLoop key walkRounds (← getTree).root 0 with
  | none => return false
  | some p =>
    let z ← mallocNode r
    if z = 0 then fun _ => none
    else
      modifyNode z fun _ => ⟨0, 0, p, ⟨key, record⟩⟩
      (if p = 0 then setRoot z
      else do
        let pn ← getNode p
        let zn ← getNode z
        if pn.data.key < zn.data.key then modifyNode p fun n => { n with right := z }
        else modifyNode p fun n => { n with left := z })
      splay z
      modifyTree fun t => { t with nodeCount := t.nodeCount + 1 }
      return true

def findLoop (key : Int) : Nat → Ptr → Tm σ Ptr
  | 0, _ => fun _ => none
  | rounds + 1, z => do
    if z ≠ 0 then
      let n ← getNode z
      countComparison
      if key = n.data.key then return n.data.record
      else
        countComparison
        if key > n.data.key then findLoop key rounds n.right
        else findLoop key rounds n.left
    else return 0

def treeFind (key : Int) : Tm σ Ptr := do findLoop key walkRounds (← getTree).root

/-- `if (!n || n->key < z->key) n = z;` -/
def nearer (n z : Ptr) : Tm σ Ptr := do
  if n = 0 then return z
  else
    let nn ← getNode n
    let zn ← getNode z
    if nn.data.key < zn.data.key then return z else return n

def findNearestLoop (key : Int) : Nat → Ptr → Ptr → Tm σ Ptr
  | 0, _, _ => fun _ => none
  | rounds + 1, z, n => do
    if z ≠ 0 then
      let zn ← getNode z
      countComparison
      if key = zn.data.key then return zn.data.record
      else
        countComparison
        if key > zn.data.key then
          let n ← nearer n z
          findNearestLoop key rounds zn.right n
        else findNearestLoop key rounds zn.left n
    else if n ≠ 0 then return (← getNode n).data.record
    else return 0

def treeFindNearest (key : Int) : Tm σ Ptr := do
  findNearestLoop key walkRounds (← getTree).root 0

/-- The loop of `tree_remove`. -/
def removeLoop (key : Int) : Nat → Ptr → Tm σ Ptr
  | 0, _ => fun _ => none
  | rounds + 1, z => do
    if z ≠ 0 then
      let n ← getNode z
      if n.data.key ≠ key then
        countComparison
        if key > n.data.key then removeLoop key rounds n.right
        else removeLoop key rounds n.left
      else return z
    else return 0

/-- What `tree_remove` does with a `z` that has both children. -/
def removeInner (z : Ptr) : Tm σ Unit := do
  let y ← subtreeMinimum (← getNode z).right
  let yn ← getNode y
  (if yn.parent ≠ z then do
    replace y yn.right
    let zn ← getNode z
    modifyNode y fun n => { n with right := zn.right }
    let yn ← getNode y
    modifyNode yn.right fun n => { n with parent := y }
  else pure ())
  replace z y
  let zn ← getNode z
  modifyNode y fun n => { n with left := zn.left }
  let yn ← getNode y
  modifyNode yn.left fun n => { n with parent := y }

def treeRemove (key : Int) : Tm σ Ptr := do
  let z ← removeLoop key walkRounds (← getTree).root
  if z = 0 then return 0
  else
    splay z
    let zn ← getNode z
    (if zn.left = 0 then replace z zn.right
    else if zn.right = 0 then replace z zn.left
    else removeInner z)
    let r := (← getNode z).data.record
    modifyTree fun t => { t with nodeCount := t.nodeCount - 1 }
    freeNode z
    return r

/-- `free_subtree`, with what `free_fun` does to a record. -/
def freeSubtree (freeFun : Ptr → Tm σ Unit) : Nat → Ptr → Tm σ Unit
  | 0, _ => fun _ => none
  | depth + 1, x => do
    if x = 0 then return ()
    else
      let n ← getNode x
      freeSubtree freeFun depth n.left
      let n ← getNode x
      freeSubtree freeFun depth n.right
      let n ← getNode x
      freeFun n.data.record
      freeNode x

/-- A function on what else the caller has. -/
def onRest {α : Type} (g : StateT σ Option α) : Tm σ α := fun m =>
  (g m.rest).map fun (a, s) => (a, { m with rest := s })

/-- `tree_free`, but for the memory of the `tree_t` itself. -/
def treeFree (freeFun : Ptr → Tm σ Unit) : Tm σ Unit := do
  let root := (← getTree).root
  if root ≠ 0 then freeSubtree freeFun walkRounds root else return ()

end Driver
end Cmpsc473
