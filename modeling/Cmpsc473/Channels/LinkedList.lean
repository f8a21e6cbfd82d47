import Cmpsc473.Channels.Channel
import Cmpsc473.Library.Total

/-!
# The program `linked_list.c`

The functions of `linked_list.c`, statement by statement.  Memory holds list objects
and nodes, each at an address, and the semaphores that the nodes point to.

A computation of type `Lm A α` is undefined, `none`, where the C program has no defined
behaviour: it follows NULL or a pointer to memory that is not allocated, or walks for
ever.
-/

namespace Cmpsc473
namespace Channels

open Total

abbrev Ptr := UInt64

/-- `list_node_t` -/
structure ListNode (A : Type) where
  next : Ptr
  prev : Ptr
  data : A
deriving DecidableEq, Repr

/-- `list_t`.  The count is a `size_t`. -/
structure ListObject where
  head : Ptr
  count : UInt64
deriving DecidableEq, Repr

/-- `A` are the addresses of semaphores, which the nodes have as data. -/
structure Memory (A : Type) where
  node : Ptr → Option (ListNode A)
  list : Ptr → Option ListObject
  value : A → Nat

abbrev Lm (A : Type) := StateT (Memory A) Option

/-- What a call of `malloc` gives: an address, NULL when there is no room, and what the
memory there holds. -/
structure Malloc (α : Type) where
  addr : Ptr
  contents : α

variable {A : Type}

namespace Memory

def setNode (m : Memory A) (p : Ptr) (n : Option (ListNode A)) : Memory A :=
  { m with node := Function.update m.node p n }

def setList (m : Memory A) (p : Ptr) (l : Option ListObject) : Memory A :=
  { m with list := Function.update m.list p l }

/-- `sem_post(a)` -/
def post [DecidableEq A] (m : Memory A) (a : A) : Memory A :=
  { m with value := Function.update m.value a (semPost (m.value a)) }

end Memory

def getNode (p : Ptr) : Lm A (ListNode A) := fun m =>
  if p = 0 then none else (m.node p).map fun n => (n, m)

def putNode (p : Ptr) (n : ListNode A) : Lm A Unit := fun m =>
  if p = 0 ∨ m.node p = none then none else some ((), m.setNode p (some n))

def getList (p : Ptr) : Lm A ListObject := fun m =>
  if p = 0 then none else (m.list p).map fun l => (l, m)

def putList (p : Ptr) (l : ListObject) : Lm A Unit := fun m =>
  if p = 0 ∨ m.list p = none then none else some ((), m.setList p (some l))

/-- `malloc` never gives an address that is in use. -/
def mallocNode (r : Malloc (ListNode A)) : Lm A Ptr := fun m =>
  if r.addr = 0 then some (0, m)
  else if m.node r.addr = none then some (r.addr, m.setNode r.addr (some r.contents))
  else none

def mallocList (r : Malloc ListObject) : Lm A Ptr := fun m =>
  if r.addr = 0 then some (0, m)
  else if m.list r.addr = none then some (r.addr, m.setList r.addr (some r.contents))
  else none

def freeNode (p : Ptr) : Lm A Unit := fun m =>
  if p = 0 then some ((), m)
  else if m.node p = none then none
  else some ((), m.setNode p none)

def freeList (p : Ptr) : Lm A Unit := fun m =>
  if p = 0 then some ((), m)
  else if m.list p = none then none
  else some ((), m.setList p none)

def semPostAt [DecidableEq A] (a : A) : Lm A Unit := fun m => some ((), m.post a)

/-- Rounds granted to a walk along a list.  It changes no link, so with more rounds than
there are addresses it has come back to a node and goes on for ever. -/
def walkRounds : Nat := 2 ^ 64

def listCreate (r : Malloc ListObject) : Lm A Ptr := do
  let ll ← mallocList r
  if ll ≠ 0 then
    putList ll { (← getList ll) with head := 0 }
    putList ll { (← getList ll) with count := 0 }
  return ll

/-- The loop of `list_destroy`. -/
def listDestroyLoop : Nat → Ptr → Lm A Unit
  | 0, _ => fun _ => none
  | rounds + 1, current => do
    if current ≠ 0 then
      let next := (← getNode current).next
      freeNode current
      listDestroyLoop rounds next
    else return ()

def listDestroy (list : Ptr) : Lm A Unit := do
  let current := (← getList list).head
  listDestroyLoop walkRounds current
  freeList list

def listBegin (list : Ptr) : Lm A Ptr := do return (← getList list).head

def listNext (node : Ptr) : Lm A Ptr := do
  if node ≠ 0 then return (← getNode node).next else return 0

/-- The data of NULL is NULL, `none`. -/
def listData (node : Ptr) : Lm A (Option A) := do
  if node ≠ 0 then return some (← getNode node).data else return none

def listCount (list : Ptr) : Lm A UInt64 := do return (← getList list).count

/-- The loop of `list_find`. -/
def listFindLoop [DecidableEq A] (data : A) : Nat → Ptr → Lm A Ptr
  | 0, _ => fun _ => none
  | rounds + 1, current => do
    if current ≠ 0 then
      if (← getNode current).data = data then return current
      else listFindLoop data rounds (← getNode current).next
    else return 0

def listFind [DecidableEq A] (list : Ptr) (data : A) : Lm A Ptr := do
  if list = 0 then return 0
  else
    let current := (← getList list).head
    listFindLoop data walkRounds current

/-- `if (list->head) list->head->prev = new_node` -/
def setHeadPrev (list newNode : Ptr) : Lm A Unit := do
  if (← getList list).head ≠ 0 then
    let head := (← getList list).head
    putNode head { (← getNode head) with prev := newNode }

def listInsert (list : Ptr) (data : A) (r : Malloc (ListNode A)) : Lm A Unit := do
  if list = 0 then return ()
  else
    let newNode ← mallocNode r
    if newNode = 0 then return ()
    else
      putNode newNode { (← getNode newNode) with data := data }
      putNode newNode { (← getNode newNode) with next := (← getList list).head }
      putNode newNode { (← getNode newNode) with prev := 0 }
      setHeadPrev list newNode
      putList list { (← getList list) with head := newNode }
      putList list { (← getList list) with count := (← getList list).count + 1 }

/-- The first `if` of `list_remove`, on `node->prev`. -/
def setPrevNext (list node : Ptr) : Lm A Unit := do
  if (← getNode node).prev ≠ 0 then
    let prev := (← getNode node).prev
    putNode prev { (← getNode prev) with next := (← getNode node).next }
  else
    putList list { (← getList list) with head := (← getNode node).next }

/-- The second, on `node->next`. -/
def setNextPrev (node : Ptr) : Lm A Unit := do
  if (← getNode node).next ≠ 0 then
    let next := (← getNode node).next
    putNode next { (← getNode next) with prev := (← getNode node).prev }

def listRemove (list node : Ptr) : Lm A Unit := do
  if list = 0 ∨ node = 0 then return ()
  else
    setPrevNext list node
    setNextPrev node
    freeNode node
    putList list { (← getList list) with count := (← getList list).count - 1 }

/-- The loop of `list_foreach`. -/
def listForeachLoop [DecidableEq A] : Nat → Ptr → Lm A Unit
  | 0, _ => fun _ => none
  | rounds + 1, curr => do
    if curr ≠ 0 then
      semPostAt (← getNode curr).data
      listForeachLoop rounds (← getNode curr).next
    else return ()

def listForeach [DecidableEq A] (list : Ptr) : Lm A Unit := do
  let curr := (← getList list).head
  listForeachLoop walkRounds curr

section Rules

variable {m : Memory A} {p q : Ptr}

@[simp] theorem Memory.setNode_node (n : Option (ListNode A)) :
    (m.setNode p n).node q = if q = p then n else m.node q := by
  by_cases hqp : q = p
  · rw [if_pos hqp, hqp]
    exact Function.update_self p n m.node
  · rw [if_neg hqp]
    exact Function.update_of_ne hqp n m.node

@[simp] theorem Memory.setList_list (l : Option ListObject) :
    (m.setList p l).list q = if q = p then l else m.list q := by
  by_cases hqp : q = p
  · rw [if_pos hqp, hqp]
    exact Function.update_self p l m.list
  · rw [if_neg hqp]
    exact Function.update_of_ne hqp l m.list

@[simp] theorem Memory.setNode_setNode (n n' : Option (ListNode A)) :
    (m.setNode p n).setNode p n' = m.setNode p n' := by
  unfold Memory.setNode
  rw [Function.update_idem]

@[simp] theorem Memory.setList_setList (l l' : Option ListObject) :
    (m.setList p l).setList p l' = m.setList p l' := by
  unfold Memory.setList
  rw [Function.update_idem]

@[simp] theorem Memory.setNode_list (n : Option (ListNode A)) :
    (m.setNode p n).list = m.list := rfl
@[simp] theorem Memory.setList_node (l : Option ListObject) :
    (m.setList p l).node = m.node := rfl

theorem returns_getNode {n : ListNode A} (hp : p ≠ 0) (hn : m.node p = some n)
    {Q : ListNode A → Memory A → Prop} : Returns (getNode p) m Q ↔ Q n m :=
  returns_of_eq (by rw [getNode, if_neg hp, hn]; rfl)

theorem returns_putNode {n n' : ListNode A} (hp : p ≠ 0) (hn : m.node p = some n)
    {Q : Unit → Memory A → Prop} :
    Returns (putNode p n') m Q ↔ Q () (m.setNode p (some n')) := by
  refine returns_of_eq (if_neg ?_)
  rw [hn]
  exact not_or.mpr ⟨hp, nofun⟩

theorem returns_getList {l : ListObject} (hp : p ≠ 0) (hl : m.list p = some l)
    {Q : ListObject → Memory A → Prop} : Returns (getList p) m Q ↔ Q l m :=
  returns_of_eq (by rw [getList, if_neg hp, hl]; rfl)

theorem returns_putList {l l' : ListObject} (hp : p ≠ 0) (hl : m.list p = some l)
    {Q : Unit → Memory A → Prop} :
    Returns (putList p l') m Q ↔ Q () (m.setList p (some l')) := by
  refine returns_of_eq (if_neg ?_)
  rw [hl]
  exact not_or.mpr ⟨hp, nofun⟩

theorem returns_mallocNode {r : Malloc (ListNode A)} (hr : r.addr ≠ 0)
    (hn : m.node r.addr = none) {Q : Ptr → Memory A → Prop} :
    Returns (mallocNode r) m Q ↔ Q r.addr (m.setNode r.addr (some r.contents)) :=
  returns_of_eq (by rw [mallocNode, if_neg hr, if_pos hn])

theorem returns_freeNode {n : ListNode A} (hp : p ≠ 0) (hn : m.node p = some n)
    {Q : Unit → Memory A → Prop} : Returns (freeNode p) m Q ↔ Q () (m.setNode p none) :=
  returns_of_eq (by rw [freeNode, if_neg hp, hn, if_neg nofun])

end Rules

end Channels
end Cmpsc473
