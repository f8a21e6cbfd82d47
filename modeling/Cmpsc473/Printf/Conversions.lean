import Cmpsc473.Library.Numeral
import Cmpsc473.Printf.Layout

/-!
# What the conversions show

A conversion takes one argument, cuts it to the size that the modifiers ask for, and
shows it as a sign and a numeral, or as a text.  `buf` is large enough for every
number, so a conversion of a number is only undefined for the one number of 64 bits
that has no opposite.
-/

namespace Cmpsc473
namespace Printf

open Numeral

def decimal (n : Nat) : List UInt8 := (numeral 10 n).map fun d => UInt8.ofNat (d + 48)

def shifted (lower : Bool) (shift n : Nat) : List UInt8 :=
  (numeral (2 ^ shift) n).map (hexDigits lower)

theorem pushFront_eq {c : UInt8} {str : List UInt8} (h : str.length < 63) :
    pushFront c str = some (c :: str) := if_pos h

theorem writeUwordBase10_eq {str : List UInt8} {num : Nat}
    (h : (decimal num).length + str.length ≤ 63) :
    writeUwordBase10 str num = some (decimal num ++ str) := by
  rw [decimal, List.length_map] at h
  refine loop_eq (by decide) (fun str n hstr => ?_) h
  rw [writeUwordBase10, pushFront_eq hstr]
  rfl

theorem writeShift_eq {lower : Bool} {shift : Nat} {hshift : 0 < shift} {str : List UInt8}
    {num : Nat} (h : (shifted lower shift num).length + str.length ≤ 63) :
    writeShift (hexDigits lower) shift hshift str num = some (shifted lower shift num ++ str) := by
  rw [shifted, List.length_map] at h
  refine loop_eq (Nat.one_lt_two_pow (by omega)) (fun str n hstr => ?_) h
  rw [writeShift, pushFront_eq hstr]
  rw [Nat.one_shiftLeft, Nat.and_two_pow_sub_one_eq_mod, Nat.shiftRight_eq_div_pow]
  rfl

theorem length_decimal {n : Nat} (h : n < 2 ^ 64) : (decimal n).length ≤ 20 := by
  rw [decimal, List.length_map]
  exact length_le (by decide) (by decide) (by omega)

theorem length_shifted {lower : Bool} {shift n : Nat} (hshift : 3 ≤ shift) (h : n < 2 ^ 64) :
    (shifted lower shift n).length ≤ 22 := by
  have hpow : 2 ^ 64 ≤ (2 ^ shift) ^ 22 := by
    rw [← Nat.pow_mul]
    exact Nat.pow_le_pow_right (by decide) (by omega)
  rw [shifted, List.length_map]
  exact length_le (Nat.one_lt_two_pow (by omega)) (by decide) (by omega)

/-- What a conversion shows, and whether zeroes may stand between the two parts. -/
structure Shown where
  sign : List UInt8
  body : List UInt8
  zeroes : Bool

inductive Conversion
  | pointer
  | hex (lower : Bool)
  | signed
  | unsigned
  | octal
  | char
  | string
deriving DecidableEq, Repr

/-- The conversion that a character asks for. -/
def Conversion.ofChar (c : UInt8) : Option Conversion :=
  if c = 'p'.toUInt8 then some pointer
  else if c = 'x'.toUInt8 then some (hex true)
  else if c = 'X'.toUInt8 then some (hex false)
  else if c = 'd'.toUInt8 ∨ c = 'i'.toUInt8 then some signed
  else if c = 'u'.toUInt8 then some unsigned
  else if c = 'o'.toUInt8 then some octal
  else if c = 'c'.toUInt8 then some char
  else if c = 's'.toUInt8 then some string
  else none

/-- The size of the number that is shown. -/
def Flags.bits (flags : Flags) : Nat :=
  if flags.pr64 then 64 else if flags.pr16 then 16 else if flags.pr8 then 8 else 32

def Flags.unsignedValue (flags : Flags) (arg : UInt64) : Nat := arg.toNat % 2 ^ flags.bits

def Flags.signedValue (flags : Flags) (arg : UInt64) : Int :=
  (arg.toNat : Int).bmod (2 ^ flags.bits)

namespace Conversion

def shown (text : Text) (flags : Flags) (arg : UInt64) : Conversion → Option Shown
  | pointer =>
    if arg = 0 then some ⟨[], chars "(nil)", false⟩
    else some ⟨chars "0x", shifted true 4 arg.toNat, flags.padLeft0⟩
  | hex lower => some ⟨[], shifted lower 4 (flags.unsignedValue arg), flags.padLeft0⟩
  | signed =>
    let value := flags.signedValue arg
    if value = -2 ^ 63 then none
    else some ⟨if value < 0 then chars "-" else [], decimal value.natAbs, flags.padLeft0⟩
  | unsigned => some ⟨[], decimal (flags.unsignedValue arg), flags.padLeft0⟩
  | octal => some ⟨[], shifted false 3 (flags.unsignedValue arg), flags.padLeft0⟩
  | char => some ⟨[], if arg.toUInt8 = 0 then [] else [arg.toUInt8], false⟩
  | string =>
    if arg = 0 then some ⟨[], chars "(null)", false⟩
    else (cString (text arg)).map fun str => ⟨[], str, false⟩

end Conversion

/-- The field has what is shown, and the arguments that are left. -/
structure Field.Shows (field : Field) (flags : Flags) (shown : Shown) (args : List UInt64) :
    Prop where
  str : field.str = shown.body
  sign : sign field.flags = shown.sign
  padLeft0 : field.flags.padLeft0 = shown.zeroes
  leftJust : field.flags.leftJust = flags.leftJust
  args : field.args = args

theorem signed_signed {w w' : Nat} (h : w' ≤ w) (n : Int) :
    signed w' (signed w n) = signed w' n := by
  have hdvd : ((2 ^ w' : Nat) : Int) ∣ ((2 ^ w : Nat) : Int) :=
    Int.natCast_dvd_natCast.mpr (Nat.pow_dvd_pow 2 h)
  exact Int.bmod_bmod_of_dvd (Int.natCast_dvd_natCast.mp hdvd)

theorem unsignedNum_eq (flags : Flags) (arg : UInt64) (args : List UInt64) :
    unsignedNum flags (arg :: args) = some (flags.unsignedValue arg, flags, args) := by
  have hvalue : (if flags.pr64 then arg.toNat
      else if flags.pr16 || flags.pr8 then
        if flags.pr16 then arg.toNat % 2 ^ 32 % 2 ^ 16 else arg.toNat % 2 ^ 32 % 2 ^ 8
      else arg.toNat % 2 ^ 32) = flags.unsignedValue arg := by
    have hlt : arg.toNat < 2 ^ 64 := arg.toNat_lt
    rw [Nat.mod_mod_of_dvd _ (by decide), Nat.mod_mod_of_dvd _ (by decide)]
    unfold Flags.unsignedValue Flags.bits
    cases flags.pr64 with
    | true => exact (Nat.mod_eq_of_lt hlt).symm
    | false => cases flags.pr16 <;> cases flags.pr8 <;> rfl
  show some (_, flags, args) = _
  rw [← hvalue]

theorem signedNum_eq (flags : Flags) (arg : UInt64) (args : List UInt64) :
    signedNum flags (arg :: args) =
      if flags.signedValue arg < 0 then
        if flags.signedValue arg = -2 ^ 63 then none
        else some ((-flags.signedValue arg).toNat, { flags with negative := true }, args)
      else some ((flags.signedValue arg).toNat, flags, args) := by
  have hvalue : (if flags.pr64 then signed 64 arg.toNat
      else if flags.pr16 || flags.pr8 then
        if flags.pr16 then signed 16 (signed 32 arg.toNat) else signed 8 (signed 32 arg.toNat)
      else signed 32 arg.toNat) = flags.signedValue arg := by
    rw [signed_signed (by decide), signed_signed (by decide)]
    show _ = signed flags.bits arg.toNat
    unfold Flags.bits
    cases flags.pr64 <;> cases flags.pr16 <;> cases flags.pr8 <;> simp
  rw [← hvalue]
  rfl

theorem unsignedValue_lt (flags : Flags) (arg : UInt64) : flags.unsignedValue arg < 2 ^ 64 :=
  lt_of_le_of_lt (Nat.mod_le _ _) arg.toNat_lt

theorem natAbs_signedValue_lt (flags : Flags) (arg : UInt64) :
    (flags.signedValue arg).natAbs < 2 ^ 64 := by
  have hbits : 2 ^ flags.bits ≤ 2 ^ 64 := by
    refine Nat.pow_le_pow_right (by decide) ?_
    unfold Flags.bits
    split
    · decide
    · split
      · decide
      · split <;> decide
  have hpos : 0 < 2 ^ flags.bits := Nat.two_pow_pos _
  have hlow : -((2 ^ flags.bits : Nat) : Int) ≤ 2 * flags.signedValue arg := by
    have := Int.le_bmod (x := (arg.toNat : Int)) hpos
    unfold Flags.signedValue
    omega
  have hhigh : 2 * flags.signedValue arg ≤ ((2 ^ flags.bits : Nat) : Int) := by
    have := Int.bmod_lt (x := (arg.toNat : Int)) hpos
    unfold Flags.signedValue
    omega
  omega

/-- The code of `case 4` for a conversion. -/
def Conversion.run (text : Text) (flags : Flags) (args : List UInt64) : Conversion → Option Field
  | pointer => convertPointer flags args
  | hex lower => doNum (hexDigits lower) 4 { flags with doSign := false } args
  | signed => doNum (hexDigits false) 0 { flags with doSign := true } args
  | unsigned => doNum (hexDigits false) 0 { flags with doSign := false } args
  | octal => doNum (hexDigits false) 3 { flags with doSign := false } args
  | char => convertChar flags args
  | string => convertString text flags args

theorem convert_eq (text : Text) (c : UInt8) (flags : Flags) (args : List UInt64) :
    convert text c flags args = match Conversion.ofChar c with
      | none => some none
      | some conv => some <$> conv.run text flags args := by
  unfold convert Conversion.ofChar
  by_cases hp : c = 'p'.toUInt8
  · rw [if_pos hp, if_pos hp]
    rfl
  by_cases hx : c = 'x'.toUInt8
  · rw [if_neg hp, if_neg hp, if_pos hx, if_pos hx]
    rfl
  by_cases hX : c = 'X'.toUInt8
  · rw [if_neg hp, if_neg hp, if_neg hx, if_neg hx, if_pos hX, if_pos hX]
    rfl
  rw [if_neg hp, if_neg hp, if_neg hx, if_neg hx, if_neg hX, if_neg hX]
  by_cases hd : c = 'd'.toUInt8 ∨ c = 'i'.toUInt8
  · rw [if_pos hd, if_pos hd]
    rfl
  by_cases hu : c = 'u'.toUInt8
  · rw [if_neg hd, if_neg hd, if_pos hu, if_pos hu]
    rfl
  rw [if_neg hd, if_neg hd, if_neg hu, if_neg hu]
  by_cases ho : c = 'o'.toUInt8
  · rw [if_pos ho, if_pos ho]
    rfl
  by_cases hchar : c = 'c'.toUInt8
  · rw [if_neg ho, if_neg ho, if_pos hchar, if_pos hchar]
    rfl
  rw [if_neg ho, if_neg ho, if_neg hchar, if_neg hchar]
  by_cases hs : c = 's'.toUInt8
  · rw [if_pos hs, if_pos hs]
    rfl
  · rw [if_neg hs, if_neg hs]

/-- What a conversion and its code have in common. -/
def Agree (flags : Flags) (args : List UInt64) (shown : Option Shown) (field : Option Field) :
    Prop :=
  (shown = none ∧ field = none) ∨
    ∃ s f, shown = some s ∧ field = some f ∧ f.Shows flags s args

section

variable {text : Text} {flags : Flags}

/-- Without an argument there is nothing to convert. -/
theorem Conversion.run_nil (conv : Conversion) : conv.run text flags [] = none := by
  cases conv <;> rfl

theorem doNum_decimal {digits : Nat → UInt8} (hs : flags.doSign = false) (arg : UInt64)
    (args : List UInt64) : doNum digits 0 flags (arg :: args) =
      some ⟨decimal (flags.unsignedValue arg), flags, args⟩ := by
  have hwrite : writeUwordBase10 [] (flags.unsignedValue arg) =
      some (decimal (flags.unsignedValue arg)) := by
    have hlen := length_decimal (unsignedValue_lt flags arg)
    rw [writeUwordBase10_eq (by rw [List.length_nil]; omega), List.append_nil]
  unfold doNum
  rw [hs, if_neg nofun, unsignedNum_eq]
  simp only [Option.bind_eq_bind, Option.bind_some]
  rw [dif_neg (Nat.lt_irrefl 0), hwrite]
  rfl

theorem doNum_shifted {lower : Bool} {shift : Nat} (hshift : 3 ≤ shift)
    (hs : flags.doSign = false) (arg : UInt64) (args : List UInt64) :
    doNum (hexDigits lower) shift flags (arg :: args) =
      some ⟨shifted lower shift (flags.unsignedValue arg), flags, args⟩ := by
  have hpos : 0 < shift := by omega
  have hwrite : writeShift (hexDigits lower) shift hpos [] (flags.unsignedValue arg) =
      some (shifted lower shift (flags.unsignedValue arg)) := by
    have hlen : (shifted lower shift (flags.unsignedValue arg)).length ≤ 22 :=
      length_shifted hshift (unsignedValue_lt flags arg)
    rw [writeShift_eq (by rw [List.length_nil]; omega), List.append_nil]
  unfold doNum
  rw [hs, if_neg nofun, unsignedNum_eq]
  simp only [Option.bind_eq_bind, Option.bind_some]
  rw [dif_pos hpos, hwrite]
  rfl

theorem doNum_signed {digits : Nat → UInt8} (hs : flags.doSign = true) (arg : UInt64)
    (args : List UInt64) : doNum digits 0 flags (arg :: args) =
      if flags.signedValue arg = -2 ^ 63 then none
      else some ⟨decimal (flags.signedValue arg).natAbs,
        if flags.signedValue arg < 0 then { flags with negative := true } else flags, args⟩ := by
  have hlen := length_decimal (natAbs_signedValue_lt flags arg)
  have hwrite : writeUwordBase10 [] (flags.signedValue arg).natAbs =
      some (decimal (flags.signedValue arg).natAbs) := by
    rw [writeUwordBase10_eq (by rw [List.length_nil]; omega), List.append_nil]
  unfold doNum
  rw [if_pos hs, signedNum_eq]
  by_cases hneg : flags.signedValue arg < 0
  · rw [if_pos hneg, if_pos hneg]
    by_cases hmin : flags.signedValue arg = -2 ^ 63
    · rw [if_pos hmin, if_pos hmin]
      rfl
    · have habs : (-flags.signedValue arg).toNat = (flags.signedValue arg).natAbs := by omega
      rw [if_neg hmin, if_neg hmin, habs]
      simp only [Option.bind_eq_bind, Option.bind_some]
      rw [dif_neg (Nat.lt_irrefl 0), hwrite]
      rfl
  · have habs : (flags.signedValue arg).toNat = (flags.signedValue arg).natAbs := by omega
    rw [if_neg hneg, if_neg hneg, if_neg (by omega), habs]
    simp only [Option.bind_eq_bind, Option.bind_some]
    rw [dif_neg (Nat.lt_irrefl 0), hwrite]
    rfl

theorem pointer_agree (hn : sign { flags with negative := false } = []) (arg : UInt64)
    (args : List UInt64) : Agree flags args (Conversion.pointer.shown text flags arg)
      (Conversion.pointer.run text flags (arg :: args)) := by
  by_cases h0 : arg = 0
  · have hrun : Conversion.pointer.run text flags (arg :: args) = some ⟨chars "(nil)",
        { flags with doSign := false, negative := false, pr8 := false, pr16 := false,
                     pr64 := true, padLeft0 := false }, args⟩ := if_pos h0
    exact Or.inr ⟨_, _, if_pos h0, hrun, rfl, hn, rfl, rfl, rfl⟩
  · have hwrite : writeShift (hexDigits true) 4 (by decide) [] arg.toNat =
        some (shifted true 4 arg.toNat) := by
      have hlen : (shifted true 4 arg.toNat).length ≤ 22 := length_shifted (by decide) arg.toNat_lt
      rw [writeShift_eq (by rw [List.length_nil]; omega), List.append_nil]
    have hrun : Conversion.pointer.run text flags (arg :: args) =
        some ⟨shifted true 4 arg.toNat,
          { flags with doSign := false, negative := false, pr8 := false, pr16 := false,
                       pr64 := true, pointer := true }, args⟩ := by
      show (if arg = 0 then _ else _) = _
      rw [if_neg h0, hwrite]
      rfl
    exact Or.inr ⟨_, _, if_neg h0, hrun, rfl, rfl, rfl, rfl, rfl⟩

/-- A number with a sign is shown as it is, but for the least one. -/
theorem signed_agree (hp : flags.pointer = false) (hn : flags.negative = false) (arg : UInt64)
    (args : List UInt64) : Agree flags args (Conversion.signed.shown text flags arg)
      (Conversion.signed.run text flags (arg :: args)) := by
  have hrun : Conversion.signed.run text flags (arg :: args) =
      if flags.signedValue arg = -2 ^ 63 then none
      else some ⟨decimal (flags.signedValue arg).natAbs,
        if flags.signedValue arg < 0 then { flags with doSign := true, negative := true }
        else { flags with doSign := true }, args⟩ := doNum_signed rfl arg args
  by_cases hmin : flags.signedValue arg = -2 ^ 63
  · rw [if_pos hmin] at hrun
    exact Or.inl ⟨if_pos hmin, hrun⟩
  · rw [if_neg hmin] at hrun
    refine Or.inr ⟨_, _, if_neg hmin, hrun, rfl, ?_, ?_, ?_, rfl⟩
    · by_cases hneg : flags.signedValue arg < 0
      · simp only [if_pos hneg]
        simp [sign, hp]
      · simp only [if_neg hneg]
        exact sign_none (by simp [hp, hn])
    · show Flags.padLeft0 (if _ then _ else _) = _
      split <;> rfl
    · show Flags.leftJust (if _ then _ else _) = _
      split <;> rfl

theorem string_agree (hplain : sign (plainFlags flags) = []) (arg : UInt64) (args : List UInt64) :
    Agree flags args (Conversion.string.shown text flags arg)
      (Conversion.string.run text flags (arg :: args)) := by
  by_cases h0 : arg = 0
  · have hrun : Conversion.string.run text flags (arg :: args) =
        some ⟨chars "(null)", plainFlags flags, args⟩ := by
      show (if arg = 0 then some (chars "(null)") else cString (text arg)).bind _ = _
      rw [if_pos h0]
      rfl
    exact Or.inr ⟨_, _, if_pos h0, hrun, rfl, hplain, rfl, rfl, rfl⟩
  · have hrun : Conversion.string.run text flags (arg :: args) =
        (cString (text arg)).map fun str => ⟨str, plainFlags flags, args⟩ := by
      show (if arg = 0 then some (chars "(null)") else cString (text arg)).bind _ = _
      rw [if_neg h0]
      cases cString (text arg) <;> rfl
    have hshown : Conversion.string.shown text flags arg =
        (cString (text arg)).map fun str => ⟨[], str, false⟩ := if_neg h0
    rw [hrun, hshown]
    cases cString (text arg) with
    | none => exact Or.inl ⟨rfl, rfl⟩
    | some str => exact Or.inr ⟨_, _, rfl, rfl, rfl, hplain, rfl, rfl, rfl⟩

/-- **A conversion** takes its argument and shows it. -/
theorem Conversion.run_agree (hp : flags.pointer = false) (hn : flags.negative = false)
    (conv : Conversion) (arg : UInt64) (args : List UInt64) :
    Agree flags args (conv.shown text flags arg) (conv.run text flags (arg :: args)) := by
  have hsign : ∀ flags' : Flags, flags'.pointer = false → flags'.negative = false →
      sign flags' = [] := fun flags' hp hn => sign_none (by rw [hp, hn]; rfl)
  cases conv with
  | pointer => exact pointer_agree (hsign _ hp rfl) arg args
  | hex lower =>
    exact Or.inr ⟨_, _, rfl, doNum_shifted (by decide) rfl arg args, rfl, hsign _ hp hn, rfl, rfl,
      rfl⟩
  | signed => exact signed_agree hp hn arg args
  | unsigned =>
    exact Or.inr ⟨_, _, rfl, doNum_decimal rfl arg args, rfl, hsign _ hp hn, rfl, rfl, rfl⟩
  | octal =>
    exact Or.inr ⟨_, _, rfl, doNum_shifted (by decide) rfl arg args, rfl, hsign _ hp hn, rfl, rfl,
      rfl⟩
  | char => exact Or.inr ⟨_, _, rfl, rfl, rfl, hsign _ hp rfl, rfl, rfl, rfl⟩
  | string => exact string_agree (hsign _ hp rfl) arg args

end

end Printf
end Cmpsc473
