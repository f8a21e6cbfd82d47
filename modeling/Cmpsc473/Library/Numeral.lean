import Mathlib.Data.Nat.Digits.Lemmas

/-!
# Positional numerals

The numeral of a number in a base, most significant digit first, with one digit
for zero.  It is what a `do` loop writes that takes a digit off the number until
nothing is left of it, and puts each digit in front of those before it.
-/

namespace Numeral

variable {b n k : Nat}

def numeral (b n : Nat) : List Nat := if n = 0 then [0] else (Nat.digits b n).reverse

/-- The value of a string of digits. -/
def value (b : Nat) (ds : List Nat) : Nat := ds.foldl (fun v d => b * v + d) 0

theorem value_append_singleton (b : Nat) (ds : List Nat) (d : Nat) :
    value b (ds ++ [d]) = b * value b ds + d := by
  simp [value]

/-- The last round of the loop: the whole number is the digit. -/
theorem numeral_of_lt (hn : n < b) : numeral b n = [n] := by
  unfold numeral
  by_cases h : n = 0
  · rw [if_pos h, h]
  · rw [if_neg h, Nat.digits_of_lt b n h hn]
    rfl

/-- Any other round of the loop. -/
theorem numeral_of_le (hb : 1 < b) (hn : b ≤ n) :
    numeral b n = numeral b (n / b) ++ [n % b] := by
  have hdiv : n / b ≠ 0 := (Nat.div_pos hn (by omega)).ne'
  unfold numeral
  rw [if_neg (by omega), if_neg hdiv, Nat.digits_eq_cons_digits_div hb (by omega),
    List.reverse_cons]

theorem value_numeral (hb : 1 < b) (n : Nat) : value b (numeral b n) = n := by
  induction n using Nat.strong_induction_on with
  | _ n ih =>
    rcases Nat.lt_or_ge n b with hn | hn
    · rw [numeral_of_lt hn]
      simp [value]
    · rw [numeral_of_le hb hn, value_append_singleton, ih (n / b) (Nat.div_lt_self (by omega) hb)]
      exact Nat.div_add_mod n b

theorem numeral_ne_nil (hb : 1 < b) (n : Nat) : numeral b n ≠ [] := by
  rcases Nat.lt_or_ge n b with hn | hn
  · rw [numeral_of_lt hn]
    exact List.cons_ne_nil n []
  · rw [numeral_of_le hb hn]
    exact List.append_ne_nil_of_right_ne_nil _ (List.cons_ne_nil _ _)

theorem digit_lt (hb : 1 < b) {d : Nat} (hd : d ∈ numeral b n) : d < b := by
  induction n using Nat.strong_induction_on with
  | _ n ih =>
    rcases Nat.lt_or_ge n b with hn | hn
    · rw [numeral_of_lt hn, List.mem_singleton] at hd
      rw [hd]
      exact hn
    · rw [numeral_of_le hb hn, List.mem_append, List.mem_singleton] at hd
      rcases hd with hd | rfl
      · exact ih (n / b) (Nat.div_lt_self (by omega) hb) hd
      · exact Nat.mod_lt n (by omega)

/-- A number below a power of the base has no more digits than the exponent. -/
theorem length_le (hb : 1 < b) (hk : 0 < k) (hn : n < b ^ k) : (numeral b n).length ≤ k := by
  unfold numeral
  by_cases h : n = 0
  · rw [if_pos h]
    exact hk
  · rw [if_neg h, List.length_reverse]
    exact (Nat.digits_length_le_iff hb n).mpr hn

/-- **The loop.**  A function that takes the last digit off a number, puts it in front of
the string, and goes on if something is left, writes the numeral, in whatever room it
needs. -/
theorem loop_eq {α : Type} {f : List α → Nat → Option (List α)} {digit : Nat → α} {room : Nat}
    (hb : 1 < b) (hf : ∀ str n, str.length < room → f str n =
      if n / b ≠ 0 then f (digit (n % b) :: str) (n / b) else some (digit (n % b) :: str))
    {str : List α} (h : (numeral b n).length + str.length ≤ room) :
    f str n = some ((numeral b n).map digit ++ str) := by
  induction n using Nat.strong_induction_on generalizing str with
  | _ n ih =>
    rcases Nat.lt_or_ge n b with hlt | hle
    · rw [numeral_of_lt hlt, List.length_singleton] at h
      rw [hf str n (by omega), if_neg (not_not.mpr (Nat.div_eq_of_lt hlt)),
        numeral_of_lt hlt, Nat.mod_eq_of_lt hlt]
      rfl
    · rw [numeral_of_le hb hle, List.length_append, List.length_singleton] at h
      have hrest := ih (n / b) (Nat.div_lt_self (by omega) hb)
        (show _ + (digit (n % b) :: str).length ≤ room by rw [List.length_cons]; omega)
      rw [hf str n (by omega), if_pos (Nat.div_pos hle (by omega)).ne', hrest,
        numeral_of_le hb hle, List.map_append, List.append_assoc]
      rfl

end Numeral
