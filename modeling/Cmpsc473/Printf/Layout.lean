import Cmpsc473.Library.Sink
import Cmpsc473.Printf.Program

/-!
# What is output, apart from where it goes

Every function of `printf.c` that is given `fn` only writes through it.  Its output is
therefore one string, the same for the console and for a buffer.  For a field that
string is its layout: the sign, the text, and what fills the width that was asked for.
-/

namespace Cmpsc473
namespace Printf

open Total Sink

/-- What is put in front of the text of a field. -/
def sign (flags : Flags) : List UInt8 :=
  if flags.pointer then chars "0x" else if flags.negative then chars "-" else []

/-- A sign and a text, to the left of their width, or to the right of it behind zeroes or
behind spaces. -/
def justify (left zeroes : Bool) (width : Nat) (sign body : List UInt8) : List UInt8 :=
  let fill := width - (sign.length + body.length)
  if left then sign ++ body ++ List.replicate fill ' '.toUInt8
  else if zeroes then sign ++ List.replicate fill '0'.toUInt8 ++ body
  else List.replicate fill ' '.toUInt8 ++ sign ++ body

/-- They take the width that was asked for, or more if they are longer. -/
theorem length_justify (left zeroes : Bool) (width : Nat) (sign body : List UInt8) :
    (justify left zeroes width sign body).length = max width (sign.length + body.length) := by
  unfold justify
  split
  · simp only [List.length_append, List.length_replicate]
    omega
  · split
    · simp only [List.length_append, List.length_replicate]
      omega
    · simp only [List.length_append, List.length_replicate]
      omega

/-- The output of a field. -/
def layout (flags : Flags) (str : List UInt8) (givenWd : Nat) : List UInt8 :=
  justify flags.leftJust flags.padLeft0 givenWd (sign flags) str

section Sinks

variable {σ : Type} {fn : UInt8 → StateT σ Option Unit} {count : UInt64}

theorem putStr_nil : putStr fn [] count = pure count := rfl

theorem putStr_cons (c : UInt8) (str : List UInt8) :
    putStr fn (c :: str) count = put fn c count >>= putStr fn str := rfl

theorem putStr_append (l₁ l₂ : List UInt8) (count : UInt64) :
    putStr fn (l₁ ++ l₂) count = putStr fn l₁ count >>= putStr fn l₂ := by
  induction l₁ generalizing count with
  | nil =>
    rw [List.nil_append, putStr_nil, pure_bind]
  | cons c l₁ ih =>
    rw [List.cons_append, putStr_cons, putStr_cons, bind_assoc]
    congr 1
    funext count
    exact ih count

theorem putStr_singleton (c : UInt8) : putStr fn [c] count = put fn c count := by
  rw [putStr_cons]
  exact bind_pure _

/-- What is written is the output, and the count goes up by its length. -/
theorem putStr_eq (str : List UInt8) (count : UInt64) :
    putStr fn str count = str.forM fn >>= fun _ => pure (count + UInt64.ofNat str.length) := by
  induction str generalizing count with
  | nil =>
    have hcount : count + UInt64.ofNat 0 = count := UInt64.add_zero count
    rw [putStr_nil, List.length_nil, hcount]
    rfl
  | cons c str ih =>
    have hcount : count + 1 + UInt64.ofNat str.length = count + UInt64.ofNat (str.length + 1) := by
      rw [Nat.add_comm, UInt64.ofNat_add, UInt64.add_assoc]
      rfl
    rw [putStr_cons, put, bind_assoc, List.length_cons, ← hcount]
    show _ = (fn c >>= fun _ => str.forM fn) >>= _
    rw [bind_assoc]
    congr 1
    funext _
    rw [pure_bind, ih]

theorem padWhile_eq (c : UInt8) (limit givenWd : Nat) (count : UInt64) :
    padWhile fn c limit givenWd count =
      putStr fn (List.replicate (givenWd - limit) c) count >>= fun count =>
        pure (min givenWd limit, count) := by
  induction givenWd generalizing count with
  | zero => simp [padWhile, putStr_nil]
  | succ givenWd ih =>
    rw [padWhile]
    by_cases hgt : givenWd + 1 > limit
    · have hfill : givenWd + 1 - limit = givenWd - limit + 1 := by omega
      have hmin : min (givenWd + 1) limit = min givenWd limit := by omega
      rw [if_pos hgt, hfill, hmin, List.replicate_succ, putStr_cons, bind_assoc]
      congr 1
      funext count
      exact ih count
    · have hfill : givenWd + 1 - limit = 0 := by omega
      have hmin : min (givenWd + 1) limit = givenWd + 1 := by omega
      rw [if_neg hgt, hfill, hmin, List.replicate_zero, putStr_nil, pure_bind]

theorem putSign_eq {flags : Flags} (h : (flags.pointer || flags.negative) = true) :
    putSign fn flags count = putStr fn (sign flags) count := by
  rw [putSign, sign]
  by_cases hp : flags.pointer = true
  · rw [if_pos hp, if_pos hp]
    show _ = putStr fn ['0'.toUInt8, 'x'.toUInt8] count
    rw [putStr_cons]
    congr 1
    funext count
    exact (putStr_singleton _).symm
  · have hn : flags.negative = true := by simpa [hp] using h
    rw [if_neg hp, if_neg hp, if_pos hn]
    exact (putStr_singleton _).symm

theorem sign_none {flags : Flags} (h : (flags.pointer || flags.negative) = false) :
    sign flags = [] := by
  rw [Bool.or_eq_false_iff] at h
  simp [sign, h]

theorem length_sign (flags : Flags) :
    (if (flags.pointer || flags.negative) = true then 1 + (if flags.pointer = true then 1 else 0)
      else 0) = (sign flags).length := by
  unfold sign
  cases flags.pointer <;> cases flags.negative <;> rfl

/-- `if (flags & (PR_POINTER | PR_NEGATIVE))`, with the test on the padding. -/
theorem putSign_if {flags : Flags} (pad : Bool) :
    (if (flags.pointer || flags.negative) && pad then putSign fn flags count else pure count) =
      putStr fn (if pad then sign flags else []) count := by
  cases pad with
  | false => simp [putStr_nil]
  | true =>
    rw [Bool.and_true, if_pos rfl]
    by_cases h : (flags.pointer || flags.negative) = true
    · rw [if_pos h, putSign_eq h]
    · rw [if_neg h, sign_none (Bool.eq_false_iff.mpr h), putStr_nil]

/-- The padding on the left, and the width that is left over for the right. -/
theorem padLeft_eq (flags : Flags) (actualWd givenWd : Nat) (count : UInt64) :
    (if (!flags.leftJust) = true then
      padWhile fn (if flags.padLeft0 = true then '0'.toUInt8 else ' '.toUInt8) actualWd givenWd count
    else pure (givenWd, count)) =
      putStr fn (if flags.leftJust then [] else List.replicate (givenWd - actualWd)
        (if flags.padLeft0 then '0'.toUInt8 else ' '.toUInt8)) count >>= fun count =>
        pure (if flags.leftJust then givenWd else min givenWd actualWd, count) := by
  cases flags.leftJust with
  | false => exact padWhile_eq _ actualWd givenWd count
  | true => simp [putStr_nil]

theorem padRight_eq (givenWd : Nat) (count : UInt64) :
    (padWhile fn ' '.toUInt8 0 givenWd count >>= fun p => pure p.2) =
      putStr fn (List.replicate givenWd ' '.toUInt8) count := by
  rw [padWhile_eq, Nat.sub_zero, bind_assoc]
  simp only [pure_bind, bind_pure]

/-- **The output of a field** is its layout. -/
theorem emitField_eq (flags : Flags) (str : List UInt8) (givenWd : Nat) (count : UInt64) :
    emitField fn flags str givenWd count = putStr fn (layout flags str givenWd) count := by
  unfold emitField
  simp only [putSign_if, padLeft_eq, length_sign, padRight_eq, bind_assoc, pure_bind,
    ← putStr_append]
  congr 1
  rw [layout, justify, Nat.add_comm str.length]
  generalize (sign flags).length + str.length = actualWd
  -- on the right there is something to fill only where the left has not been filled
  have hright : (if min givenWd actualWd < actualWd then 0 else min givenWd actualWd - actualWd) =
      0 := by
    split <;> omega
  have hfill : (if givenWd < actualWd then 0 else givenWd - actualWd) = givenWd - actualWd := by
    split <;> omega
  cases flags.leftJust with
  | true =>
    cases flags.padLeft0 <;> simp [hfill]
  | false =>
    simp only [Bool.false_eq_true, if_false, hright]
    cases flags.padLeft0 <;> simp

end Sinks

end Printf
end Cmpsc473
