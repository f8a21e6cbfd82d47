import Mathlib.Logic.Function.Basic
import Mathlib.Tactic.Ring

/-!
# Byte memories

A memory is a function from addresses to bytes.  `read m a n` is the
little-endian number held by the `n` bytes from `a` on, and `write m a n v`
stores the low `n` bytes of `v` there.  Everything a word-level proof needs is
here: a read sees the last write to the same place, is untouched by a write
elsewhere, and depends on its own bytes alone.
-/

namespace ByteMemory

abbrev Memory := Nat → UInt8

/-- The little-endian number in the `n` bytes from `a` on. -/
def read (m : Memory) : Nat → Nat → Nat
  | _, 0 => 0
  | a, n + 1 => (m a).toNat + 256 * read m (a + 1) n

/-- Store the low `n` bytes of `v` from `a` on. -/
def write (m : Memory) (a n v : Nat) : Memory := fun x =>
  if a ≤ x ∧ x < a + n then UInt8.ofNat (v / 256 ^ (x - a)) else m x

theorem read_lt (m : Memory) (a n : Nat) : read m a n < 256 ^ n := by
  induction n generalizing a with
  | zero => exact Nat.one_pos
  | succ n ih =>
    have hb : (m a).toNat < 256 := (m a).toNat_lt
    have hr := ih (a + 1)
    rw [read, Nat.pow_succ]
    omega

/-- A read depends on the bytes it covers and on no others. -/
theorem read_congr {m m' : Memory} {a n : Nat}
    (h : ∀ x, a ≤ x → x < a + n → m' x = m x) : read m' a n = read m a n := by
  induction n generalizing a with
  | zero => rfl
  | succ n ih =>
    rw [read, read, h a (Nat.le_refl a) (by omega),
      ih (fun x hx hx' => h x (by omega) (by omega))]

theorem write_of_outside {m : Memory} {a n v x : Nat} (h : x < a ∨ a + n ≤ x) :
    write m a n v x = m x := by
  rw [write, if_neg (by omega)]

theorem write_of_inside {m : Memory} {a n v x : Nat} (h : a ≤ x) (h' : x < a + n) :
    write m a n v x = UInt8.ofNat (v / 256 ^ (x - a)) := by
  rw [write, if_pos ⟨h, h'⟩]

theorem read_write_self (m : Memory) (a n v : Nat) :
    read (write m a n v) a n = v % 256 ^ n := by
  induction n generalizing m a v with
  | zero => simp [read, Nat.mod_one]
  | succ n ih =>
    have hlow : (write m a (n + 1) v a).toNat = v % 256 := by
      rw [write_of_inside (Nat.le_refl a) (by omega)]
      simp
    have hhigh : read (write m a (n + 1) v) (a + 1) n =
        read (write m (a + 1) n (v / 256)) (a + 1) n := by
      refine read_congr (fun x hx hx' => ?_)
      rw [write_of_inside (by omega) (by omega), write_of_inside hx hx',
        Nat.div_div_eq_div_mul, ← Nat.pow_succ', show x - a = x - (a + 1) + 1 by omega]
    rw [read, hlow, hhigh, ih, Nat.pow_succ', Nat.mod_mul]

theorem read_write_of_disjoint {m : Memory} {a n v b k : Nat} (h : b + k ≤ a ∨ a + n ≤ b) :
    read (write m a n v) b k = read m b k :=
  read_congr (fun _ _ _ => write_of_outside (by omega))

/-- Byte `i` of a number read from memory is the byte it was read from. -/
theorem ofNat_read_div (m : Memory) (a n i : Nat) (h : i < n) :
    UInt8.ofNat (read m a n / 256 ^ i) = m (a + i) := by
  induction n generalizing a i with
  | zero => omega
  | succ n ih =>
    have hb : (m a).toNat < 256 := (m a).toNat_lt
    cases i with
    | zero =>
      apply UInt8.toNat_inj.mp
      simp only [read, Nat.pow_zero, Nat.div_one, UInt8.toNat_ofNat', Nat.add_zero]
      omega
    | succ i =>
      have hdiv : read m a (n + 1) / 256 = read m (a + 1) n := by
        rw [read]
        omega
      rw [Nat.pow_succ', ← Nat.div_div_eq_div_mul, hdiv, ih (a + 1) i (by omega)]
      congr 1
      omega

/-- Storing at `a` what was read at `b` copies the bytes one by one. -/
theorem write_read_apply {m m' : Memory} {a b n x : Nat} (h : a ≤ x) (h' : x < a + n) :
    write m' a n (read m b n) x = m (b + (x - a)) := by
  rw [write_of_inside h h', ofNat_read_div m b n (x - a) (by omega)]

/-- Numbers of `n` bytes, one behind the other. -/
def Stacked (n : Nat) (m : Memory) : Nat → List Nat → Prop
  | _, [] => True
  | a, v :: vs => read m a n = v ∧ Stacked n m (a + n) vs

theorem Stacked.congr {n a : Nat} {m m' : Memory} {vs : List Nat} (h : Stacked n m a vs)
    (hm : ∀ x, a ≤ x → m' x = m x) : Stacked n m' a vs := by
  induction vs generalizing a with
  | nil => trivial
  | cons v vs ih =>
    refine ⟨?_, ih h.2 fun x hx => hm x (by omega)⟩
    rw [read_congr fun x hx _ => hm x hx]
    exact h.1

/-- A number is put on top. -/
theorem Stacked.push {n a v : Nat} {m : Memory} {vs : List Nat} (h : Stacked n m (a + n) vs)
    (hv : v < 256 ^ n) : Stacked n (write m a n v) a (v :: vs) := by
  refine ⟨?_, h.congr fun x hx => write_of_outside (Or.inr hx)⟩
  rw [read_write_self, Nat.mod_eq_of_lt hv]

end ByteMemory
