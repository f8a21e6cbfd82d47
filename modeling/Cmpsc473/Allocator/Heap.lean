import Cmpsc473.Allocator.Word
import Cmpsc473.Library.ByteMemory
import Cmpsc473.Library.Total

/-!
# The simulated heap

The state that `mm.c` and `memlib.c` share: the bytes of memory, the three
pointers of `memlib.c`, and the two globals of `mm.c`.

A computation of type `Mm α` is undefined, `none`, where the C program has no
defined behaviour to model: it touches bytes outside the area that `mem_init`
mapped, indexes `seg_list` outside its 61 entries, or loops for ever.
-/

namespace Cmpsc473
namespace Allocator

open ByteMemory Total

structure Heap where
  mem : Memory
  /-- Starting address of the heap, `heap`. -/
  heap : Nat
  /-- Current break, `mem_brk`. -/
  memBrk : Nat
  /-- Largest legal break, `mem_max_addr`. -/
  memMaxAddr : Nat
  heapListp : Nat
  segList : Nat → Nat

abbrev Mm := StateT Heap Option

/-- The `n` bytes from `p` on lie in the mapped area. -/
def Heap.Mapped (h : Heap) (p n : Nat) : Prop := h.heap ≤ p ∧ p + n ≤ h.memMaxAddr

instance (h : Heap) (p n : Nat) : Decidable (h.Mapped p n) :=
  inferInstanceAs (Decidable (_ ∧ _))

/-- The 64-bit word at `p`. -/
def Heap.word (h : Heap) (p : Nat) : Nat := read h.mem p 8

def Heap.store (h : Heap) (p n v : Nat) : Heap := { h with mem := write h.mem p n v }

/-- `seg_list[k]` set to `p`. -/
def Heap.setHead (h : Heap) (k p : Nat) : Heap :=
  { h with segList := Function.update h.segList k p }

def get (p : Nat) : Mm Nat := fun h =>
  if h.Mapped p 8 then some (h.word p, h) else none

def put (p v : Nat) : Mm Unit := fun h =>
  if h.Mapped p 8 then some ((), h.store p 8 v) else none

/-- Reads `seg_list[list]`. -/
def getSeg (list : Int) : Mm Nat := fun h =>
  if 0 ≤ list ∧ list < maxLen then some (h.segList list.toNat, h) else none

/-- Assigns `seg_list[list]`. -/
def setSeg (list : Int) (p : Nat) : Mm Unit := fun h =>
  if 0 ≤ list ∧ list < maxLen then
    some ((), h.setHead list.toNat p)
  else none

def getHeapListp : Mm Nat := fun h => some (h.heapListp, h)

def setHeapListp (p : Nat) : Mm Unit := fun h => some ((), { h with heapListp := p })

/-- Rounds granted to a walk along a free list.  Each round reads the header of
a node, at a mapped address, and writes nothing, so a walk with more rounds than
mapped bytes has come back to a node and goes on for ever. -/
def walkRounds : Mm Nat := fun h => some (h.memMaxAddr - h.heap + 1, h)

def diverge {α : Type} : Mm α := fun _ => none

/-- `mem_sbrk` of `memlib.c`.  The increment is the bit pattern of an `intptr_t`. -/
def memSbrk (incr : Nat) : Mm Nat := fun h =>
  if 2 ^ 63 ≤ incr then some (sbrkFailed, h)
  else if ptrAdd h.memBrk incr > h.memMaxAddr then some (sbrkFailed, h)
  else some (h.memBrk, { h with memBrk := ptrAdd h.memBrk incr })

/-- `mem_reset_brk` of `memlib.c`. -/
def memResetBrk : Mm Unit := fun h => some ((), { h with memBrk := h.heap })

/-- `mem_read` of `memlib.c`: a whole word is read, then masked. -/
def memRead (addr len : Nat) : Mm Nat := do
  let rdata ← get addr
  if len < 8 then return rdata &&& (2 ^ (8 * len) - 1)
  return rdata

/-- `mem_write` of `memlib.c`. -/
def memWrite (addr val len : Nat) : Mm Unit :=
  if len = 8 then put addr val
  else fun h => if h.Mapped addr len then some ((), h.store addr len val) else none

/-- The loop of `mem_memcpy`, which runs once for each whole word. -/
def copyWords : Nat → Nat → Nat → Mm Unit
  | 0, _, _ => return ()
  | words + 1, dst, src => do
    let data ← memRead src 8
    memWrite dst data 8
    copyWords words (ptrAdd dst 8) (ptrAdd src 8)

/-- `mem_memcpy` of `memlib.c`. -/
def memMemcpy (dst src n : Nat) : Mm Unit := do
  copyWords (n / 8) dst src
  if n % 8 ≠ 0 then
    let data ← memRead (ptrAdd src (8 * (n / 8))) (n % 8)
    memWrite (ptrAdd dst (8 * (n / 8))) data (n % 8)

/-- The word that `mem_memset` builds: the low byte of `c`, eight times. -/
def memsetData (c : Nat) : Nat :=
  (List.range 8).foldl (fun data i => data ||| (c &&& 0xFF) <<< (8 * i)) 0

/-- The loop of `mem_memset`, which runs once for each whole word. -/
def setWords (data : Nat) : Nat → Nat → Mm Unit
  | 0, _ => return ()
  | words + 1, dst => do
    memWrite dst data 8
    setWords data words (ptrAdd dst 8)

/-- `mem_memset` of `memlib.c`. -/
def memMemset (dst c n : Nat) : Mm Unit := do
  setWords (memsetData c) (n / 8) dst
  if n % 8 ≠ 0 then
    memWrite (ptrAdd dst (8 * (n / 8))) (memsetData c) (n % 8)

/-- `mem_heap_lo` of `memlib.c`. -/
def memHeapLo : Mm Nat := fun h => some (h.heap, h)

/-- `mem_heap_hi` of `memlib.c`. -/
def memHeapHi : Mm Nat := fun h => some (ptrSub h.memBrk 1, h)

section Rules

variable {h : Heap}

theorem returns_get {p : Nat} {Q : Nat → Heap → Prop} :
    Returns (get p) h Q ↔ h.Mapped p 8 ∧ Q (h.word p) h := by
  by_cases hm : h.Mapped p 8
  · rw [and_iff_right hm]
    exact returns_of_eq (if_pos hm)
  · exact iff_of_false (not_returns (if_neg hm)) (fun hQ => hm hQ.1)

theorem returns_put {p v : Nat} {Q : Unit → Heap → Prop} :
    Returns (put p v) h Q ↔ h.Mapped p 8 ∧ Q () (h.store p 8 v) := by
  by_cases hm : h.Mapped p 8
  · rw [and_iff_right hm]
    exact returns_of_eq (if_pos hm)
  · exact iff_of_false (not_returns (if_neg hm)) (fun hQ => hm hQ.1)

theorem returns_getSeg {k : Nat} (hk : k < maxLen) {Q : Nat → Heap → Prop} :
    Returns (getSeg (k : Int)) h Q ↔ Q (h.segList k) h :=
  returns_of_eq (if_pos (by omega))

theorem returns_setSeg {k p : Nat} (hk : k < maxLen) {Q : Unit → Heap → Prop} :
    Returns (setSeg (k : Int) p) h Q ↔
      Q () (h.setHead k p) :=
  returns_of_eq (if_pos (by omega))

theorem returns_setHeapListp {p : Nat} {Q : Unit → Heap → Prop} :
    Returns (setHeapListp p) h Q ↔ Q () { h with heapListp := p } :=
  returns_of_eq rfl

theorem returns_walkRounds {Q : Nat → Heap → Prop} :
    Returns walkRounds h Q ↔ Q (h.memMaxAddr - h.heap + 1) h :=
  returns_of_eq rfl

end Rules

theorem Heap.word_lt (h : Heap) (p : Nat) : h.word p < 2 ^ 64 := read_lt h.mem p 8

@[simp] theorem Heap.store_heap (h : Heap) (p n v : Nat) : (h.store p n v).heap = h.heap := rfl
@[simp] theorem Heap.store_memBrk (h : Heap) (p n v : Nat) :
    (h.store p n v).memBrk = h.memBrk := rfl
@[simp] theorem Heap.store_memMaxAddr (h : Heap) (p n v : Nat) :
    (h.store p n v).memMaxAddr = h.memMaxAddr := rfl
@[simp] theorem Heap.store_heapListp (h : Heap) (p n v : Nat) :
    (h.store p n v).heapListp = h.heapListp := rfl
@[simp] theorem Heap.store_segList (h : Heap) (p n v : Nat) :
    (h.store p n v).segList = h.segList := rfl

@[simp] theorem Heap.setHead_heap (h : Heap) (k p : Nat) : (h.setHead k p).heap = h.heap := rfl
@[simp] theorem Heap.setHead_memBrk (h : Heap) (k p : Nat) :
    (h.setHead k p).memBrk = h.memBrk := rfl
@[simp] theorem Heap.setHead_memMaxAddr (h : Heap) (k p : Nat) :
    (h.setHead k p).memMaxAddr = h.memMaxAddr := rfl
@[simp] theorem Heap.setHead_heapListp (h : Heap) (k p : Nat) :
    (h.setHead k p).heapListp = h.heapListp := rfl
@[simp] theorem Heap.setHead_mem (h : Heap) (k p : Nat) : (h.setHead k p).mem = h.mem := rfl
@[simp] theorem Heap.setHead_word (h : Heap) (k p q : Nat) :
    (h.setHead k p).word q = h.word q := rfl
@[simp] theorem Heap.setHead_segList (h : Heap) (k p : Nat) :
    (h.setHead k p).segList = Function.update h.segList k p := rfl

@[simp] theorem Heap.word_store_self (h : Heap) {p v : Nat} (hv : v < 2 ^ 64) :
    (h.store p 8 v).word p = v := by
  rw [Heap.word, Heap.store, read_write_self]
  exact Nat.mod_eq_of_lt hv

@[simp] theorem Heap.word_store_ne (h : Heap) {p q v : Nat} (hd : q + 8 ≤ p ∨ p + 8 ≤ q) :
    (h.store p 8 v).word q = h.word q :=
  read_write_of_disjoint hd

@[simp] theorem Heap.store_mapped (h : Heap) (p n v q k : Nat) :
    (h.store p n v).Mapped q k ↔ h.Mapped q k := Iff.rfl
@[simp] theorem Heap.setHead_mapped (h : Heap) (j p q k : Nat) :
    (h.setHead j p).Mapped q k ↔ h.Mapped q k := Iff.rfl

theorem Heap.mem_store_of_outside (h : Heap) {p n v x : Nat} (hd : x < p ∨ p + n ≤ x) :
    (h.store p n v).mem x = h.mem x :=
  write_of_outside hd

/-- Storing back the word that is there changes nothing. -/
theorem Heap.store_word (h : Heap) (p : Nat) : h.store p 8 (h.word p) = h := by
  have hmem : write h.mem p 8 (read h.mem p 8) = h.mem := by
    funext x
    by_cases hx : p ≤ x ∧ x < p + 8
    · rw [write_read_apply hx.1 hx.2, Nat.add_sub_cancel' hx.1]
    · rw [write_of_outside (by omega)]
  rw [Heap.store, Heap.word, hmem]

/-- Equal bytes make equal words. -/
theorem Heap.word_congr {h h' : Heap} {p : Nat}
    (hm : ∀ x, p ≤ x → x < p + 8 → h'.mem x = h.mem x) : h'.word p = h.word p :=
  read_congr hm

end Allocator
end Cmpsc473
