import Cmpsc473.Allocator.Session

/-!
# The program `kernel_extra.c`

The allocator of the kernel is `mm.c` once more, over the `mem_sbrk` of
`kernel_malloc.c`.  The functions of the two files are the same, word for word, but
for `free`: so those that call `mem_sbrk`, themselves or through others, are given
here for any break routine, and those that do not are the ones of `mm.c`.
-/

namespace Cmpsc473
namespace Allocator

open ByteMemory Total

section BreakRoutine

variable (sbrk : Nat → Mm Nat)

/-- `extend_heap` of both files. -/
def extendHeapOver (words : Nat) : Mm Nat := do
  let size := if words % 2 ≠ 0 then (words + 1) % 2 ^ 64 * wsize % 2 ^ 64
    else words * wsize % 2 ^ 64
  let bp ← sbrk size
  if bp = sbrkFailed then
    return 0
  else
    put (hdrp bp) (pack size 0)
    put (← ftrp bp) (pack size 0)
    put (hdrp (← nextBlkp bp)) (pack 0 1)
    nodeAdd bp size
    coalesce bp

/-- `mm_init` of both files. -/
def mmInitOver : Mm Bool := do
  clearSegList maxLen 0
  let heapListp ← sbrk (4 * wsize)
  setHeapListp heapListp
  if heapListp = sbrkFailed then
    return false
  else
    put heapListp 0
    put (ptrAdd heapListp (1 * wsize)) (pack dsize 1)
    put (ptrAdd heapListp (2 * wsize)) (pack dsize 1)
    put (ptrAdd heapListp (3 * wsize)) (pack 0 1)
    setHeapListp (ptrAdd heapListp (2 * wsize))
    if (← extendHeapOver sbrk (chunkSize / wsize)) = 0 then
      return false
    else
      return true

/-- `malloc` of both files. -/
def mallocOver (size : Nat) : Mm Nat := do
  if size = 0 then
    return 0
  else
    let asize := if size ≤ dsize then 2 * dsize else align ((size + alignment) % 2 ^ 64)
    let bp ← findFit asize
    if bp = 0 then
      let extendsize := max64 asize chunkSize
      let bp ← extendHeapOver sbrk (extendsize / wsize)
      if bp = 0 then
        return 0
      else
        place bp asize
        return bp
    else
      place bp asize
      return bp

end BreakRoutine

theorem mmInitOver_memSbrk : mmInitOver memSbrk = mmInit := rfl

theorem mallocOver_memSbrk : mallocOver memSbrk = mmMalloc := rfl

namespace Kernel

/-- `mem_init` of `kernel_malloc.c`. -/
def memInit (heapMemory heapMemorySize : Nat) : Mm Unit := fun h => some ((), { h with
  heap := heapMemory
  memBrk := heapMemory
  memMaxAddr := ptrAdd heapMemory heapMemorySize })

/-- `mem_sbrk` of `kernel_malloc.c`, but for what it prints when it refuses.  The increment
is the bit pattern of an `intptr_t`, of which only the sum is looked at. -/
def memSbrk (incr : Nat) : Mm Nat := fun h =>
  let prevBrk := h.memBrk
  if ptrAdd prevBrk incr > h.memMaxAddr then some (sbrkFailed, h)
  else some (prevBrk, { h with memBrk := ptrAdd h.memBrk incr })

/-- `free` of `kernel_extra.c`. -/
def free (ptr : Nat) : Mm Unit := do
  let size ← getSize (hdrp ptr)
  put (hdrp ptr) (pack size 0)
  put (← ftrp ptr) (pack size 0)
  nodeAdd ptr size
  let _ ← coalesce ptr

end Kernel

inductive Request
  | init
  | malloc (size : Nat)
  | free (bp : Nat)
  | write (bp i : Nat) (v : UInt8)

/-- The interface of one of the two files, over some break routine. -/
structure Copy where
  init : Mm Bool
  malloc : Nat → Mm Nat
  free : Nat → Mm Unit

def mmCopy (sbrk : Nat → Mm Nat) : Copy := ⟨mmInitOver sbrk, mallocOver sbrk, mmFree⟩

def kernelCopy (sbrk : Nat → Mm Nat) : Copy := ⟨mmInitOver sbrk, mallocOver sbrk, Kernel.free⟩

/-- What a request does to the heap, and what it returns. -/
def Copy.serve (c : Copy) : Request → Mm Nat
  | .init => do return (← c.init).toNat
  | .malloc size => c.malloc size
  | .free bp => do
    c.free bp
    return 0
  | .write bp i v => fun h => some (0, { h with mem := Function.update h.mem (bp + i) v })

/-- The pointers held after a request that returned `r`.  `mm_init` starts all over. -/
def Request.hold (live : Nat → Option Nat) : Request → Nat → Nat → Option Nat
  | init, _ => fun _ => none
  | malloc size, r => if r = 0 then live else Function.update live r (some size)
  | free bp, _ => Function.update live bp none
  | write _ _ _, _ => live

/-- The client frees and writes to what it holds, all of a payload. -/
def Request.Allowed (s : Session) : Request → Prop
  | init => True
  | malloc size => size < 2 ^ 64
  | free bp => s.live bp ≠ none
  | write bp i _ => s.live bp ≠ none ∧ i < sizeAt s.heap bp - 16

/-- One request, with its result.  `ok` is what is asked of the request besides. -/
inductive CopyStep (c : Copy) (ok : Session → Request → Prop) :
    Session → Request × Nat → Session → Prop
  | serve {s : Session} {req : Request} {r : Nat} {h' : Heap} : req.Allowed s → ok s req →
      c.serve req s.heap = some (r, h') → CopyStep c ok s (req, r) ⟨h', req.hold s.live r⟩

end Allocator
end Cmpsc473
