import Cmpsc473.Allocator.Program
import Cmpsc473.Library.Transition

/-!
# A client of the allocator

A session is a heap and the pointers that a client holds.  It starts with
`mem_reset_brk` and a successful `mm_init`.  The client calls `malloc`, `free`
and `realloc`, the last two on pointers that it holds, and between calls it
writes what it likes to the bytes that it asked for.

The end of the mapped area may move between calls, down to the break.  Moving it
is not a call of the program: it lets `mem_sbrk` refuse at any point.
-/

namespace Cmpsc473
namespace Allocator

open Transition

/-- The size in the header of `bp`. -/
def sizeAt (h : Heap) (bp : Nat) : Nat := h.word (bp - 8) &&& sizeMask

/-- The allocated bit in the header of `bp`. -/
def allocAt (h : Heap) (bp : Nat) : Nat := h.word (bp - 8) &&& 1

/-- `NEXT_BLKP` leads from `bp` through the payload pointers of a list to the
first block of size zero, `e`. -/
inductive Walk (h : Heap) : Nat → List Nat → Nat → Prop
  | stop {bp : Nat} : sizeAt h bp = 0 → Walk h bp [] bp
  | next {bp q e : Nat} {l : List Nat} : sizeAt h bp ≠ 0 → nextBlkp bp h = some (q, h) →
      Walk h q l e → Walk h bp (bp :: l) e

/-- The payload pointer of the prologue block, where a walk begins. -/
def Heap.prologue (h : Heap) : Nat := h.heap + 16

/-- The walk over the heap meets a block with this pointer, size and bit. -/
def HasBlock (h : Heap) (bp size alloc : Nat) : Prop :=
  ∃ l, Walk h h.prologue l h.memBrk ∧ bp ∈ l ∧ sizeAt h bp = size ∧ allocAt h bp = alloc

structure Session where
  heap : Heap
  /-- The number of bytes asked for, for each pointer that the client holds. -/
  live : Nat → Option Nat

inductive Call
  | malloc (size : Nat)
  | free (bp : Nat)
  | realloc (oldptr size : Nat)
  | limit (addr : Nat)
deriving DecidableEq, Repr

/-- `mm_realloc` keeps the block, frees it, or finds room for a new one. -/
def ReallocSucceeds (h : Heap) (oldptr size : Nat) : Prop :=
  size = 0 ∨ (if size ≤ dsize then 2 * dsize else align size) ≤ sizeAt h oldptr - alignment ∨
    ∃ newptr h', mmMalloc size h = some (newptr, h') ∧ newptr ≠ 0

namespace Call

def exec : Call → Mm Nat
  | malloc size => mmMalloc size
  | free bp => do
    mmFree bp
    return 0
  | realloc oldptr size => mmRealloc oldptr size
  | limit addr => fun h => some (0, { h with memMaxAddr := addr })

def Allowed (s : Session) : Call → Prop
  | malloc size => size + 31 < 2 ^ 64
  | free bp => s.live bp ≠ none
  | realloc oldptr size => s.live oldptr ≠ none ∧ size + 31 < 2 ^ 64 ∧
      ReallocSucceeds s.heap oldptr size
  | limit addr => s.heap.memBrk ≤ addr ∧ addr ≤ 2 ^ 63

/-- The pointers held after a call that returned `r`. -/
def hold (live : Nat → Option Nat) : Call → Nat → Nat → Option Nat
  | malloc size, r => if r = 0 then live else Function.update live r (some size)
  | free bp, _ => Function.update live bp none
  | realloc oldptr size, r =>
    if size = 0 then Function.update live oldptr none
    else Function.update (Function.update live oldptr none) r (some size)
  | limit _, _ => live

/-- The pointer that is given to a call, if any. -/
def arg : Call → Option Nat
  | free bp => some bp
  | realloc oldptr _ => some oldptr
  | _ => none

end Call

inductive Event
  | call (c : Call) (r : Nat)
  | write (bp i : Nat) (v : UInt8)

/-- What the allocator sees of an event. -/
def Event.seen : Event → Option (Call × Nat)
  | call c r => some (c, r)
  | write _ _ _ => none

inductive Step : Session → Event → Session → Prop
  | call {s : Session} {c : Call} {r : Nat} {h' : Heap} :
      c.Allowed s → c.exec s.heap = some (r, h') → Step s (.call c r) ⟨h', c.hold s.live r⟩
  | write {s : Session} {bp size i : Nat} {v : UInt8} : s.live bp = some size → i < size →
      Step s (.write bp i v)
        { s with heap := { s.heap with mem := Function.update s.heap.mem (bp + i) v } }

/-- The area that `mem_init` maps, whatever its bytes, the break and the globals. -/
structure Heap.Area (h : Heap) : Prop where
  pos : 0 < h.heap
  aligned : h.heap % 16 = 0
  le : h.heap ≤ h.memMaxAddr
  limit : h.memMaxAddr ≤ 2 ^ 63

/-- What the driver does before each trace. -/
def start : Mm Bool := do
  memResetBrk
  mmInit

def Started (s : Session) : Prop :=
  (∃ h : Heap, h.Area ∧ start h = some (true, s.heap)) ∧ s.live = fun _ => none

abbrev Session.Reachable (s : Session) : Prop := Transition.Reachable Started Step s

/-- A block whose pointer the client holds. -/
def Session.Live (s : Session) (bp size : Nat) : Prop :=
  HasBlock s.heap bp size 1 ∧ s.live bp ≠ none

end Allocator
end Cmpsc473
