import Cmpsc473.Driver.SplayTree

/-!
# The range set of `mdriver.c`

The functions on `range_set_t`, statement by statement.  Each live payload has a `range_t`.
The ranges are in the tree under their low addresses, and linked to their neighbours.
-/

namespace Cmpsc473
namespace Driver

open Total

/-- `range_t` -/
structure RangeT where
  lo : UInt64
  hi : UInt64
  index : Int
  next : Ptr
  prev : Ptr
deriving DecidableEq, Repr

/-- The `range_t` in memory, and the field `list` of the range set. -/
structure RangeHeap where
  range : Ptr → Option RangeT
  list : Ptr

/-- `debug_mode_t` -/
inductive DebugMode
  | none
  | cheap
  | expensive
deriving DecidableEq, Repr

/-- What the checks of a payload read: `mem_heap_lo()`, `mem_heap_hi()` and `debug_mode`. -/
structure Env where
  heapLo : UInt64
  heapHi : UInt64
  debugMode : DebugMode
deriving DecidableEq, Repr

/-- An address as a `tkey_t`, a signed number. -/
def tkey (lo : UInt64) : Int := lo.toBitVec.toInt

abbrev Rm := Tm RangeHeap

def getRange (p : Ptr) : Rm RangeT := onRest fun s =>
  if p = 0 then none else (s.range p).map fun n => (n, s)

/-- An assignment to a field of the range at `p`. -/
def modifyRange (p : Ptr) (f : RangeT → RangeT) : Rm Unit := onRest fun s =>
  if p = 0 then none
  else (s.range p).map fun n => ((), { s with range := Function.update s.range p (some (f n)) })

def mallocRange (r : Malloc RangeT) : Rm Ptr := onRest fun s =>
  if r.addr = 0 then some (0, s)
  else if s.range r.addr = none then
    some (r.addr, { s with range := Function.update s.range r.addr (some r.contents) })
  else none

def freeRange (p : Ptr) : StateT RangeHeap Option Unit := fun s =>
  if p = 0 then some ((), s)
  else if s.range p = none then none
  else some ((), { s with range := Function.update s.range p none })

def setList (p : Ptr) : Rm Unit := onRest fun s => some ((), { s with list := p })

/-- `new_range_set`, but for the memory of the `range_set_t` itself. -/
def newRangeSet : Rm Unit := do
  setList 0
  treeNew

/-- `prev ? prev->next : NULL` -/
def nextOf (prev : Ptr) : Rm Ptr :=
  if prev ≠ 0 then do return (← getRange prev).next else return 0

/-- `prev && lo <= prev->hi` -/
def overlapsPrev (prev : Ptr) (lo : UInt64) : Rm Bool :=
  if prev ≠ 0 then do return decide (lo ≤ (← getRange prev).hi) else return false

/-- `next && hi >= next->lo` -/
def overlapsNext (next : Ptr) (hi : UInt64) : Rm Bool :=
  if next ≠ 0 then do return decide (hi ≥ (← getRange next).lo) else return false

/-- The part of `add_range` that sets the fields of the new range, and the links to it. -/
def linkRange (p prev next : Ptr) (lo hi : UInt64) (index : Int) : Rm Unit := do
  modifyRange p fun n => { n with prev := prev }
  (if prev ≠ 0 then modifyRange prev fun n => { n with next := p } else setList p)
  modifyRange p fun n => { n with next := next }
  (if next ≠ 0 then modifyRange next fun n => { n with prev := p } else pure ())
  modifyRange p fun n => { n with lo := lo }
  modifyRange p fun n => { n with hi := hi }
  modifyRange p fun n => { n with index := index }

/-- `rm` and `nm` are what `malloc` gives for the range and for the node of the tree. -/
def addRange (e : Env) (rm : Malloc RangeT) (nm : Malloc NodeT) (lo size : UInt64) (index : Int) :
    Rm Bool := do
  let hi := lo + size - 1
  if size = 0 then fun _ => none
  else if lo % 16 ≠ 0 then return false
  else if lo < e.heapLo ∨ lo > e.heapHi ∨ hi < e.heapLo ∨ hi > e.heapHi then return false
  else if e.debugMode = .none then return true
  else
    let prev ← treeFindNearest (tkey lo)
    let next ← nextOf prev
    if ← overlapsPrev prev lo then return false
    else if ← overlapsNext next hi then return false
    else
      let p ← mallocRange rm
      if p = 0 then fun _ => none
      else
        linkRange p prev next lo hi index
        let _ ← treeInsert nm (tkey lo) p
        return true

/-- The part of `remove_range` for a range that is in the tree. -/
def unlinkRange (p : Ptr) : Rm Unit := do
  let prev := (← getRange p).prev
  let next := (← getRange p).next
  (if prev ≠ 0 then modifyRange prev fun n => { n with next := next } else setList next)
  (if next ≠ 0 then modifyRange next fun n => { n with prev := prev } else pure ())
  onRest (freeRange p)

def removeRange (lo : UInt64) : Rm Unit := do
  let p ← treeRemove (tkey lo)
  if p = 0 then return ()
  else unlinkRange p

/-- `free_range_set`, but for the memory of the `range_set_t` itself. -/
def freeRangeSet : Rm Unit := treeFree fun r => onRest (freeRange r)

end Driver
end Cmpsc473
