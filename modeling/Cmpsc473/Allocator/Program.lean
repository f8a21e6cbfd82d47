import Cmpsc473.Allocator.Heap

/-!
# The program `mm.c`

The functions of `mm.c`, statement by statement, under their names there.
-/

namespace Cmpsc473
namespace Allocator

open ByteMemory Total

def getSize (p : Nat) : Mm Nat := do return (← get p) &&& sizeMask

def getAlloc (p : Nat) : Mm Nat := do return (← get p) &&& 1

def getTag (p : Nat) : Mm Nat := do return (← get p) &&& 2

def putTag (p val : Nat) : Mm Unit := do put p (val ||| (← getTag p))

def tagAdd (p : Nat) : Mm Unit := do put p ((← get p) ||| 2)

def tagRemove (p : Nat) : Mm Unit := do put p ((← get p) &&& untagMask)

def hdrp (bp : Nat) : Nat := ptrSub bp wsize

def ftrp (bp : Nat) : Mm Nat := do return ptrSub (ptrAdd bp (← getSize (hdrp bp))) dsize

def nextBlkp (bp : Nat) : Mm Nat := do return ptrAdd bp (← getSize (ptrSub bp wsize))

def prevBlkp (bp : Nat) : Mm Nat := do return ptrSub bp (← getSize (ptrSub bp dsize))

def nextPtr (bp : Nat) : Nat := ptrAdd bp wsize

def prevPtr (bp : Nat) : Nat := bp

def nextBlk (bp : Nat) : Mm Nat := get (nextPtr bp)

def prevBlk (bp : Nat) : Mm Nat := get bp

def setPtr (p ptr : Nat) : Mm Unit := put p ptr

/-- The loop of `node_add`: the pair `(curr_list, insert_loc)` at which it stops. -/
def nodeAddLoop (size : Nat) : Nat → Nat → Nat → Mm (Nat × Nat)
  | 0, _, _ => diverge
  | rounds + 1, currList, insertLoc => do
    if currList ≠ 0 then
      if size > (← getSize (hdrp currList)) then
        nodeAddLoop size rounds (← prevBlk currList) currList
      else return (currList, insertLoc)
    else return (currList, insertLoc)

def nodeAdd (ptr size : Nat) : Mm Unit := do
  let list := selectList size
  let (currList, insertLoc) ← nodeAddLoop size (← walkRounds) (← getSeg list) 0
  if currList ≠ 0 then
    if insertLoc ≠ 0 then
      setPtr (prevPtr ptr) currList
      setPtr (nextPtr currList) ptr
      setPtr (prevPtr insertLoc) ptr
      setPtr (nextPtr ptr) insertLoc
    else
      setPtr (prevPtr ptr) currList
      setPtr (nextPtr currList) ptr
      setPtr (nextPtr ptr) 0
      setSeg list ptr
  else
    if insertLoc ≠ 0 then
      setPtr (prevPtr ptr) 0
      setPtr (nextPtr ptr) insertLoc
      setPtr (prevPtr insertLoc) ptr
    else
      setPtr (prevPtr ptr) 0
      setPtr (nextPtr ptr) 0
      setSeg list ptr

def nodeRemove (ptr : Nat) : Mm Unit := do
  let size ← getSize (hdrp ptr)
  let list := selectList size
  if (← prevBlk ptr) ≠ 0 then
    if (← nextBlk ptr) ≠ 0 then
      setPtr (nextPtr (← prevBlk ptr)) (← nextBlk ptr)
      setPtr (prevPtr (← nextBlk ptr)) (← prevBlk ptr)
    else
      setPtr (nextPtr (← prevBlk ptr)) 0
      setSeg list (← prevBlk ptr)
  else
    if (← nextBlk ptr) ≠ 0 then
      setPtr (prevPtr (← nextBlk ptr)) 0
    else
      setSeg list 0

/-- Cases 2 to 4 of `coalesce`: the block pointer and the size with which
`node_add` is then called. -/
def coalesceMerge (bp size prevAlloc nextAlloc : Nat) : Mm (Nat × Nat) := do
  if prevAlloc ≠ 0 ∧ nextAlloc = 0 then
    nodeRemove bp
    nodeRemove (← nextBlkp bp)
    let size := (size + (← getSize (hdrp (← nextBlkp bp)))) % 2 ^ 64
    put (hdrp bp) (pack size 0)
    put (← ftrp bp) (pack size 0)
    return (bp, size)
  else if prevAlloc = 0 ∧ nextAlloc ≠ 0 then
    nodeRemove bp
    nodeRemove (← prevBlkp bp)
    let size := (size + (← getSize (hdrp (← prevBlkp bp)))) % 2 ^ 64
    put (← ftrp bp) (pack size 0)
    put (hdrp (← prevBlkp bp)) (pack size 0)
    return (← prevBlkp bp, size)
  else
    nodeRemove bp
    nodeRemove (← prevBlkp bp)
    nodeRemove (← nextBlkp bp)
    let size := (size + ((← getSize (hdrp (← prevBlkp bp))) +
      (← getSize (hdrp (← nextBlkp bp))))) % 2 ^ 64
    put (hdrp (← prevBlkp bp)) (pack size 0)
    put (← ftrp (← nextBlkp bp)) (pack size 0)
    return (← prevBlkp bp, size)

def coalesce (bp : Nat) : Mm Nat := do
  let prevAlloc ← getAlloc (hdrp (← prevBlkp bp))
  let nextAlloc ← getAlloc (hdrp (← nextBlkp bp))
  let size ← getSize (hdrp bp)
  if prevAlloc ≠ 0 ∧ nextAlloc ≠ 0 then
    return bp
  else
    let (bp, size) ← coalesceMerge bp size prevAlloc nextAlloc
    nodeAdd bp size
    return bp

def extendHeap (words : Nat) : Mm Nat := do
  let size := if words % 2 ≠ 0 then (words + 1) % 2 ^ 64 * wsize % 2 ^ 64
    else words * wsize % 2 ^ 64
  let bp ← memSbrk size
  if bp = sbrkFailed then
    return 0
  else
    put (hdrp bp) (pack size 0)
    put (← ftrp bp) (pack size 0)
    put (hdrp (← nextBlkp bp)) (pack 0 1)
    nodeAdd bp size
    coalesce bp

/-- The inner loop of `find_fit`. -/
def findFitWalk (asize : Nat) : Nat → Nat → Mm Nat
  | 0, _ => diverge
  | rounds + 1, listNode => do
    if listNode ≠ 0 then
      if asize ≤ (← getSize (hdrp listNode)) then return listNode
      else findFitWalk asize rounds (← prevBlk listNode)
    else return 0

/-- The outer loop of `find_fit`, with the number of lists that remain. -/
def findFitLists (asize : Nat) : Nat → Int → Mm Nat
  | 0, _ => return 0
  | lists + 1, list => do
    let listNode ← findFitWalk asize (← walkRounds) (← getSeg list)
    if listNode ≠ 0 then return listNode
    else findFitLists asize lists (list + 1)

def findFit (asize : Nat) : Mm Nat :=
  let listStart := selectList asize
  findFitLists asize (maxLen - listStart).toNat listStart

def place (bp asize : Nat) : Mm Unit := do
  let psize ← getSize (hdrp bp)
  let rem := (psize + (2 ^ 64 - asize)) % 2 ^ 64
  nodeRemove bp
  if rem ≤ dsize * 2 then
    put (hdrp bp) (pack psize 1)
    put (← ftrp bp) (pack psize 1)
  else
    put (hdrp bp) (pack asize 1)
    put (← ftrp bp) (pack asize 1)
    put (hdrp (← nextBlkp bp)) (pack rem 0)
    put (← ftrp (← nextBlkp bp)) (pack rem 0)
    nodeAdd (← nextBlkp bp) rem

/-- The loop of `mm_init` over `seg_list`. -/
def clearSegList : Nat → Int → Mm Unit
  | 0, _ => return ()
  | lists + 1, list => do
    setSeg list 0
    clearSegList lists (list + 1)

def mmInit : Mm Bool := do
  clearSegList maxLen 0
  let heapListp ← memSbrk (4 * wsize)
  setHeapListp heapListp
  if heapListp = sbrkFailed then
    return false
  else
    put heapListp 0
    put (ptrAdd heapListp (1 * wsize)) (pack dsize 1)
    put (ptrAdd heapListp (2 * wsize)) (pack dsize 1)
    put (ptrAdd heapListp (3 * wsize)) (pack 0 1)
    setHeapListp (ptrAdd heapListp (2 * wsize))
    if (← extendHeap (chunkSize / wsize)) = 0 then
      return false
    else
      return true

def mmMalloc (size : Nat) : Mm Nat := do
  if size = 0 then
    return 0
  else
    let asize := if size ≤ dsize then 2 * dsize else align ((size + alignment) % 2 ^ 64)
    let bp ← findFit asize
    if bp = 0 then
      let extendsize := max64 asize chunkSize
      let bp ← extendHeap (extendsize / wsize)
      if bp = 0 then
        return 0
      else
        place bp asize
        return bp
    else
      place bp asize
      return bp

def mmFree (bp : Nat) : Mm Unit := do
  let size ← getSize (hdrp bp)
  tagRemove (hdrp (← nextBlkp bp))
  putTag (hdrp bp) (pack size 0)
  putTag (← ftrp bp) (pack size 0)
  nodeAdd bp size
  let _ ← coalesce bp

def mmRealloc (oldptr size : Nat) : Mm Nat := do
  if size = 0 then
    mmFree oldptr
    return 0
  else if oldptr = 0 then
    return 0
  else
    let oldsize ← getSize (hdrp oldptr)
    let asize := if size ≤ dsize then 2 * dsize else align size
    let oldsize := (oldsize + (2 ^ 64 - alignment)) % 2 ^ 64
    if oldsize ≥ asize then
      return oldptr
    else
      let newptr ← mmMalloc size
      let oldsize := if asize < oldsize then asize else oldsize
      memMemcpy newptr oldptr oldsize
      mmFree oldptr
      return newptr

def mmCalloc (nmemb size : Nat) : Mm Nat := do
  let size := size * nmemb % 2 ^ 64
  let ptr ← mmMalloc size
  if ptr ≠ 0 then
    memMemset ptr 0 size
  return ptr

/-! ## The heap checker

`mm_checkheap` as it is when `DEBUG` is defined.  What it prints is the part of its
result behind the verdict. -/

def inHeap (p : Nat) : Mm Bool := do
  return decide (p ≤ (← memHeapHi) ∧ p ≥ (← memHeapLo))

def aligned (p : Nat) : Bool := align p = p

def checkFailed (lineno : Int) (text : String) : Bool × String :=
  (false, "Line " ++ toString lineno ++ ": Error: " ++ text ++ "\n")

/-- The walk of `mm_checkheap` along one list: the error at which it stops. -/
def checkList : Nat → Nat → Mm (Option String)
  | 0, _ => diverge
  | rounds + 1, block => do
    if block ≠ 0 then
      if ¬ aligned block then return some "Block not aligned"
      else if ¬ (← inHeap block) then return some "Block not in heap"
      else if (← getSize (hdrp block)) ≠ (← getSize (← ftrp block)) then
        return some "Header and footer size mismatch"
      else if (← getAlloc (hdrp block)) ≠ 0 then return some "Allocated block in free list"
      else if (← getAlloc (hdrp (← nextBlkp block))) = 0 ∧ (← getAlloc (hdrp block)) = 0 then
        return some "Coalescing failed"
      else if (← getTag (hdrp block)) ≠ 0 then return some "Block has tag"
      else checkList rounds (← prevBlk block)
    else return none

/-- Its loop over `seg_list`, with the number of lists that remain. -/
def checkLists : Nat → Int → Mm (Option String)
  | 0, _ => return none
  | lists + 1, list => do
    let error ← checkList (← walkRounds) (← getSeg list)
    if error.isSome then return error
    else checkLists lists (list + 1)

def mmCheckheap (lineno : Int) : Mm (Bool × String) := do
  let heapListp ← getHeapListp
  if (← getSize (hdrp heapListp)) ≠ dsize ∨ (← getAlloc (hdrp heapListp)) = 0 then
    return checkFailed lineno "Bad prologue header"
  else if (← getSize (← ftrp heapListp)) ≠ dsize ∨ (← getAlloc (← ftrp heapListp)) = 0 then
    return checkFailed lineno "Bad prologue footer"
  else if (← getSize (hdrp (← nextBlkp heapListp))) ≠ 0 ∨
      (← getAlloc (hdrp (← nextBlkp heapListp))) = 0 then
    return checkFailed lineno "Bad epilogue header"
  else
    match ← checkLists maxLen 0 with
    | some error => return checkFailed lineno error
    | none => return (true, "")

end Allocator
end Cmpsc473
