import Mathlib.Algebra.GroupWithZero.Nat
import Mathlib.Data.Nat.Bits
import Mathlib.Tactic.Ring

/-!
# Bit fields of a word

A field is a range of bits of a number.  Assigning to a field keeps the bits
below and above it.  Once fields that lie side by side from bit 0 have all been
assigned, the bits that they cover are given by the values assigned: what the
word held before no longer shows (`assignAll_mod`).
-/

namespace BitField

structure Field where
  lo : Nat
  width : Nat

/-- The first bit above a field. -/
def Field.hi (f : Field) : Nat := f.lo + f.width

/-- The bits below the field, the low bits of `v`, and the bits above. -/
def Field.assign (f : Field) (w v : Nat) : Nat :=
  w % 2 ^ f.lo + v % 2 ^ f.width * 2 ^ f.lo + w / 2 ^ f.hi * 2 ^ f.hi

/-- Assignments in order. -/
def assignAll (w : Nat) (l : List (Field × Nat)) : Nat :=
  l.foldl (fun w fv => fv.1.assign w fv.2) w

@[simp] theorem assignAll_nil (w : Nat) : assignAll w [] = w := rfl

@[simp] theorem assignAll_cons (w : Nat) (fv : Field × Nat) (l : List (Field × Nat)) :
    assignAll w (fv :: l) = assignAll (fv.1.assign w fv.2) l := rfl

/-- The number whose fields hold the values of a list. -/
def value (l : List (Field × Nat)) : Nat :=
  (l.map fun fv => fv.2 % 2 ^ fv.1.width * 2 ^ fv.1.lo).sum

/-- The fields of a list lie side by side, from bit `lo` up to bit `hi`. -/
def Adjacent : Nat → List (Field × Nat) → Nat → Prop
  | lo, [], hi => lo = hi
  | lo, fv :: l, hi => fv.1.lo = lo ∧ Adjacent fv.1.hi l hi

instance decidableAdjacent : (lo : Nat) → (l : List (Field × Nat)) → (hi : Nat) →
    Decidable (Adjacent lo l hi)
  | lo, [], hi => inferInstanceAs (Decidable (lo = hi))
  | lo, fv :: l, hi =>
    have := decidableAdjacent fv.1.hi l hi
    inferInstanceAs (Decidable (fv.1.lo = lo ∧ Adjacent fv.1.hi l hi))

theorem Field.low_lt (f : Field) (w v : Nat) :
    w % 2 ^ f.lo + v % 2 ^ f.width * 2 ^ f.lo < 2 ^ f.hi := by
  have hw : w % 2 ^ f.lo < 2 ^ f.lo := Nat.mod_lt _ (Nat.two_pow_pos _)
  have hv : v % 2 ^ f.width + 1 ≤ 2 ^ f.width := Nat.mod_lt _ (Nat.two_pow_pos _)
  calc w % 2 ^ f.lo + v % 2 ^ f.width * 2 ^ f.lo
      < 2 ^ f.lo + v % 2 ^ f.width * 2 ^ f.lo := Nat.add_lt_add_right hw _
    _ = (v % 2 ^ f.width + 1) * 2 ^ f.lo := by ring
    _ ≤ 2 ^ f.width * 2 ^ f.lo := Nat.mul_le_mul_right _ hv
    _ = 2 ^ f.hi := by rw [Field.hi, Nat.pow_add, Nat.mul_comm]

/-- The bits up to the top of a field, after an assignment to it. -/
theorem Field.assign_mod (f : Field) (w v : Nat) :
    f.assign w v % 2 ^ f.hi = w % 2 ^ f.lo + v % 2 ^ f.width * 2 ^ f.lo := by
  rw [Field.assign, Nat.add_mul_mod_self_right]
  exact Nat.mod_eq_of_lt (f.low_lt w v)

/-- An assignment keeps the bits above the field. -/
theorem Field.assign_div (f : Field) (w v : Nat) :
    f.assign w v / 2 ^ f.hi = w / 2 ^ f.hi := by
  rw [Field.assign, Nat.add_mul_div_right _ _ (Nat.two_pow_pos _),
    Nat.div_eq_of_lt (f.low_lt w v), Nat.zero_add]

/-- An assignment to a field of a word that has no bit from the field on. -/
theorem Field.assign_of_lt {f : Field} {w v : Nat} (hw : w < 2 ^ f.lo) :
    f.assign w v = w + v % 2 ^ f.width * 2 ^ f.lo := by
  have hhi : w < 2 ^ f.hi :=
    lt_of_lt_of_le hw (Nat.pow_le_pow_right (by decide) (Nat.le_add_right _ _))
  rw [Field.assign, Nat.mod_eq_of_lt hw, Nat.div_eq_of_lt hhi, Nat.zero_mul, Nat.add_zero]

/-- An assignment to a field of an `n`-bit word gives an `n`-bit word. -/
theorem Field.assign_lt {f : Field} {w v n : Nat} (hf : f.hi ≤ n) (hw : w < 2 ^ n) :
    f.assign w v < 2 ^ n := by
  have hsplit : (2 : Nat) ^ n = 2 ^ (n - f.hi) * 2 ^ f.hi := by
    rw [← Nat.pow_add, Nat.sub_add_cancel hf]
  have hdiv : f.assign w v / 2 ^ f.hi < 2 ^ (n - f.hi) := by
    rw [f.assign_div]
    exact Nat.div_lt_of_lt_mul (by rw [Nat.mul_comm, ← hsplit]; exact hw)
  rw [hsplit]
  exact (Nat.div_lt_iff_lt_mul (Nat.two_pow_pos _)).mp hdiv

theorem assignAll_lt {w n : Nat} {l : List (Field × Nat)} (hf : ∀ fv ∈ l, fv.1.hi ≤ n)
    (hw : w < 2 ^ n) : assignAll w l < 2 ^ n := by
  induction l generalizing w with
  | nil => exact hw
  | cons fv l ih =>
    exact ih (fun gv hgv => hf gv (List.mem_cons_of_mem fv hgv))
      (Field.assign_lt (hf fv List.mem_cons_self) hw)

/-- Assigning adjacent fields in order keeps the bits below them and sets theirs. -/
theorem assignAll_mod {w lo hi : Nat} {l : List (Field × Nat)} (h : Adjacent lo l hi) :
    assignAll w l % 2 ^ hi = w % 2 ^ lo + value l := by
  induction l generalizing w lo with
  | nil =>
    have hlh : lo = hi := h
    rw [hlh]
    rfl
  | cons fv l ih =>
    obtain ⟨rfl, hl⟩ := h
    calc assignAll w (fv :: l) % 2 ^ hi
        = assignAll (fv.1.assign w fv.2) l % 2 ^ hi := rfl
      _ = fv.1.assign w fv.2 % 2 ^ fv.1.hi + value l := ih hl
      _ = w % 2 ^ fv.1.lo + (fv.2 % 2 ^ fv.1.width * 2 ^ fv.1.lo + value l) := by
        rw [fv.1.assign_mod, Nat.add_assoc]
      _ = w % 2 ^ fv.1.lo + value (fv :: l) := by rw [value, value, List.map_cons, List.sum_cons]

/-- A word whose adjacent fields, from bit 0 to the top, are all assigned. -/
theorem assignAll_eq {w n : Nat} {l : List (Field × Nat)} (h : Adjacent 0 l n)
    (hf : ∀ fv ∈ l, fv.1.hi ≤ n) (hw : w < 2 ^ n) : assignAll w l = value l := by
  have hmod := assignAll_mod (w := w) h
  rw [Nat.mod_eq_of_lt (assignAll_lt hf hw), Nat.pow_zero, Nat.mod_one, Nat.zero_add] at hmod
  exact hmod

end BitField
