import Mathlib.Data.Nat.Bitwise

/-!
# Words of the allocator

Constants and pure functions of `mm.c`.  A `size_t`, a `uint64_t` or a pointer is
a number below `2 ^ 64`, and every operation that may leave that range is taken
modulo `2 ^ 64`, as the machine does.
-/

namespace Cmpsc473
namespace Allocator

/-- Number of segregated lists, `MAX_LEN`. -/
def maxLen : Nat := 61

def alignment : Nat := 16

/-- Word and header size in bytes, `WSIZE`. -/
def wsize : Nat := 8

def dsize : Nat := 16

def chunkSize : Nat := 2 ^ 14

/-- The pointer `(void *) -1`, by which `mem_sbrk` refuses. -/
def sbrkFailed : Nat := 2 ^ 64 - 1

def ptrAdd (p n : Nat) : Nat := (p + n) % 2 ^ 64

def ptrSub (p n : Nat) : Nat := (p + (2 ^ 64 - n)) % 2 ^ 64

/-- Rounds up to the nearest multiple of `alignment`, both steps unsigned. -/
def align (x : Nat) : Nat := alignment * ((x + alignment - 1) % 2 ^ 64 / alignment) % 2 ^ 64

/-- The function `MAX`. -/
def max64 (x y : Nat) : Nat := if x > y then x else y

def pack (size alloc : Nat) : Nat := size ||| alloc

/-- The constant `~0x7`, sign-extended to 64 bits. -/
def sizeMask : Nat := 0xFFFFFFFFFFFFFFF8

/-- The constant `~0x2`. -/
def untagMask : Nat := 0xFFFFFFFFFFFFFFFD

/-- The loop `while (size >>= 1) list++`.  A word is zero after 64 shifts, so 64
rounds are enough. -/
def selectLoop : Nat → Nat → Nat → Nat
  | 0, _, list => list
  | rounds + 1, size, list =>
    if size >>> 1 ≠ 0 then selectLoop rounds (size >>> 1) (list + 1) else list

/-- Index of the list for a size.  It is signed: the size 0 has index `-1`. -/
def selectList (size : Nat) : Int :=
  if size = 0 then -1
  else
    let list := selectLoop 64 size 0
    if list > maxLen - 1 then ((maxLen - 1 : Nat) : Int) else (list : Int)

theorem ptrAdd_eq {p n : Nat} (h : p + n < 2 ^ 64) : ptrAdd p n = p + n :=
  Nat.mod_eq_of_lt h

theorem ptrSub_eq {p n : Nat} (h : n ≤ p) (hp : p < 2 ^ 64) : ptrSub p n = p - n := by
  unfold ptrSub
  omega

theorem align_eq {x : Nat} (h : x + 15 < 2 ^ 64) : align x = 16 * ((x + 15) / 16) := by
  unfold align alignment
  omega

/-- The class of a size: `floor (log2 size)`, capped at the last list. -/
def sizeClass (size : Nat) : Nat := min (maxLen - 1) (Nat.log2 size)

theorem sizeClass_lt (size : Nat) : sizeClass size < maxLen := by
  unfold sizeClass maxLen
  omega

theorem selectLoop_eq (rounds size list : Nat) (h : size < 2 ^ rounds) :
    selectLoop rounds size list = list + Nat.log2 size := by
  induction rounds generalizing size list with
  | zero =>
    have : size = 0 := by simpa using h
    subst this
    simp [selectLoop]
  | succ rounds ih =>
    have hhalf : size >>> 1 = size / 2 := by
      rw [Nat.shiftRight_eq_div_pow, Nat.pow_one]
    have hpow : (2 : Nat) ^ (rounds + 1) = 2 ^ rounds * 2 := Nat.pow_succ ..
    rw [selectLoop, hhalf, Nat.log2_def]
    by_cases hs : 2 ≤ size
    · rw [if_pos (by omega), if_pos hs, ih _ _ (by omega)]
      omega
    · rw [if_neg (by omega), if_neg hs, Nat.add_zero]

theorem selectList_eq {size : Nat} (hpos : 0 < size) (h : size < 2 ^ 64) :
    selectList size = (sizeClass size : Int) := by
  unfold selectList sizeClass maxLen
  rw [if_neg (by omega), selectLoop_eq 64 size 0 h]
  simp only [Nat.zero_add]
  split <;> omega

/-- Larger sizes have larger classes. -/
theorem sizeClass_mono {a b : Nat} (h : a ≤ b) : sizeClass a ≤ sizeClass b := by
  have hlog : Nat.log2 a ≤ Nat.log2 b := by
    by_cases ha : a = 0
    · subst ha
      exact Nat.zero_le _
    · exact (Nat.le_log2 (by omega)).mpr (Nat.le_trans (Nat.log2_self_le ha) h)
  unfold sizeClass
  omega

/-! ## Tag words

A header or footer holds a size with the low three bits used as flags. -/

theorem and_sizeMask {w : Nat} (h : w < 2 ^ 64) : w &&& sizeMask = 8 * (w / 8) := by
  refine Nat.eq_of_testBit_eq (fun i => ?_)
  have hmask : sizeMask = 2 ^ 64 - (7 + 1) := rfl
  have hseven : (7 : Nat) = 2 ^ 3 - 1 := rfl
  rw [Nat.testBit_and, hmask, Nat.testBit_two_pow_sub_succ (by decide), hseven,
    Nat.testBit_two_pow_sub_one, show (8 : Nat) = 2 ^ 3 from rfl, Nat.testBit_two_pow_mul,
    Nat.testBit_div_two_pow]
  by_cases hi : i < 3
  · have : ¬ i ≥ 3 := by omega
    simp [hi, this]
  · have h3 : i ≥ 3 := by omega
    have hsub : i - 3 + 3 = i := by omega
    by_cases h64 : i < 64
    · simp [hi, h3, h64, hsub]
    · have hz : w.testBit i = false :=
        Nat.testBit_lt_two_pow (Nat.lt_of_lt_of_le h (Nat.pow_le_pow_right (by decide) (by omega)))
      simp [hz, hsub]

theorem and_two {w : Nat} (h : w / 2 % 2 = 0) : w &&& 2 = 0 := by
  refine Nat.eq_of_testBit_eq (fun i => ?_)
  rw [Nat.testBit_and, Nat.zero_testBit, show (2 : Nat) = 2 ^ 1 from rfl, Nat.testBit_two_pow]
  by_cases hi : 1 = i
  · subst hi
    have hbit : w.testBit 1 = false := by
      rw [Nat.testBit_eq_decide_div_mod_eq, Nat.pow_one, h]
      rfl
    rw [hbit, Bool.false_and]
  · simp [hi]

theorem and_untagMask {w : Nat} (h : w < 2 ^ 64) (ht : w / 2 % 2 = 0) :
    w &&& untagMask = w := by
  refine Nat.eq_of_testBit_eq (fun i => ?_)
  have hmask : untagMask = 2 ^ 64 - (2 + 1) := rfl
  rw [Nat.testBit_and, hmask, Nat.testBit_two_pow_sub_succ (by decide),
    show (2 : Nat) = 2 ^ 1 from rfl, Nat.testBit_two_pow]
  by_cases hi : 1 = i
  · subst hi
    have hbit : w.testBit 1 = false := by
      rw [Nat.testBit_eq_decide_div_mod_eq, Nat.pow_one, ht]
      rfl
    simp [hbit]
  · by_cases h64 : i < 64
    · simp [hi, h64]
    · have hz : w.testBit i = false :=
        Nat.testBit_lt_two_pow (Nat.lt_of_lt_of_le h (Nat.pow_le_pow_right (by decide) (by omega)))
      simp [hz]

theorem pack_zero (size : Nat) : pack size 0 = size := Nat.or_zero size

theorem pack_one {size : Nat} (h : size % 2 = 0) : pack size 1 = size + 1 := by
  unfold pack
  have heven : size = 2 ^ 1 * (size / 2) := by omega
  rw [heven, ← Nat.two_pow_add_eq_or_of_lt (by decide)]

end Allocator
end Cmpsc473
