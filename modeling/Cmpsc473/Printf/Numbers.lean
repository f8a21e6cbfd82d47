import Cmpsc473.Printf.Vprintf

/-!
# Numbers are read back

Whatever the options of a directive for a number are, the number that was printed can be
read from the output: behind the spaces, from its sign and its digits.
-/

namespace Cmpsc473
namespace Printf

open Numeral

/-- The value of a digit, and more than any digit has for any other character. -/
def digitValue (c : UInt8) : Nat :=
  if isDigit c then c.toNat - '0'.toUInt8.toNat
  else if 'a'.toUInt8 ≤ c ∧ c ≤ 'f'.toUInt8 then c.toNat - 'a'.toUInt8.toNat + 10
  else if 'A'.toUInt8 ≤ c ∧ c ≤ 'F'.toUInt8 then c.toNat - 'A'.toUInt8.toNat + 10
  else 36

/-- The value of the digits that a string begins with. -/
def readNat (base : Nat) (s : List UInt8) : Nat :=
  value base ((s.map digitValue).takeWhile (· < base))

/-- Spaces, a sign, and digits. -/
def readNumber (base : Nat) (s : List UInt8) : Int :=
  match s.dropWhile (· = ' '.toUInt8) with
  | [] => 0
  | c :: s => if c = '-'.toUInt8 then -(readNat base s : Int) else readNat base (c :: s)

section Reader

variable {base n : Nat} {body : List UInt8}

/-- The body is the numeral of `n`. -/
structure IsNumeral (base n : Nat) (body : List UInt8) : Prop where
  lt_base : 1 < base
  base_le : base ≤ 16
  digits : body.map digitValue = numeral base n

theorem IsNumeral.length (h : IsNumeral base n body) : body.length = (numeral base n).length := by
  rw [← h.digits, List.length_map]

theorem digitValue_zero : digitValue '0'.toUInt8 = 0 := by decide

theorem digitValue_space : digitValue ' '.toUInt8 = 36 := by decide

theorem digitValue_dash : digitValue '-'.toUInt8 = 36 := by decide

theorem IsNumeral.digit_lt (h : IsNumeral base n body) {c : UInt8} (hc : c ∈ body) :
    digitValue c < base := by
  have hmem : digitValue c ∈ numeral base n := h.digits ▸ List.mem_map_of_mem hc
  exact Numeral.digit_lt h.lt_base hmem

theorem IsNumeral.not_mem (h : IsNumeral base n body) {c : UInt8} (hc : 36 ≤ digitValue c) :
    c ∉ body := by
  intro hmem
  have hlt := h.digit_lt hmem
  have hle := h.base_le
  omega

theorem value_zeroes (b k : Nat) (ds : List Nat) :
    value b (List.replicate k 0 ++ ds) = value b ds := by
  induction k with
  | zero => rfl
  | succ k ih => exact ih

/-- Zeroes in front of a numeral and spaces behind it change nothing. -/
theorem IsNumeral.readNat (h : IsNumeral base n body) (zeroes spaces : Nat) :
    readNat base (List.replicate zeroes '0'.toUInt8 ++ body ++ List.replicate spaces ' '.toUInt8) =
      n := by
  have hall : ∀ d ∈ List.replicate zeroes 0 ++ numeral base n, decide (d < base) = true := by
    intro d hd
    rw [decide_eq_true_iff]
    rcases List.mem_append.mp hd with hd | hd
    · rw [List.eq_of_mem_replicate hd]
      exact Nat.lt_of_succ_lt h.lt_base
    · exact Numeral.digit_lt h.lt_base hd
  have hend : (List.replicate spaces 36).takeWhile (fun d => decide (d < base)) = [] := by
    have hle := h.base_le
    cases spaces with
    | zero => rfl
    | succ spaces =>
      rw [List.replicate_succ, List.takeWhile_cons_of_neg]
      simp
      omega
  rw [Printf.readNat, List.map_append, List.map_append, List.map_replicate, List.map_replicate,
    digitValue_zero, digitValue_space, h.digits, List.takeWhile_append_of_pos hall, hend,
    List.append_nil, value_zeroes, value_numeral h.lt_base]

theorem dropWhile_spaces (k : Nat) (s : List UInt8) :
    (List.replicate k ' '.toUInt8 ++ s).dropWhile (fun c => decide (c = ' '.toUInt8)) =
      s.dropWhile (fun c => decide (c = ' '.toUInt8)) := by
  induction k with
  | zero => rfl
  | succ k ih =>
    rw [List.replicate_succ, List.cons_append, List.dropWhile_cons_of_pos (by decide), ih]

/-- What begins with digits is read as a number without a sign. -/
theorem readNumber_digits {s : List UInt8} (hne : s ≠ [])
    (hs : ∀ c ∈ s.head?, c ≠ ' '.toUInt8 ∧ c ≠ '-'.toUInt8) (spaces : Nat) :
    readNumber base (List.replicate spaces ' '.toUInt8 ++ s) = readNat base s := by
  rw [readNumber, dropWhile_spaces]
  cases s with
  | nil => exact absurd rfl hne
  | cons c s =>
    obtain ⟨hspace, hdash⟩ := hs c rfl
    rw [List.dropWhile_cons_of_neg (by simpa using hspace)]
    exact if_neg hdash

theorem readNumber_dash (s : List UInt8) (spaces : Nat) :
    readNumber base (List.replicate spaces ' '.toUInt8 ++ '-'.toUInt8 :: s) =
      -(readNat base s : Int) := by
  rw [readNumber, dropWhile_spaces, List.dropWhile_cons_of_neg (by decide)]
  exact if_pos rfl

theorem IsNumeral.head (h : IsNumeral base n body) (zeroes spaces : Nat) :
    ∀ c ∈ (List.replicate zeroes '0'.toUInt8 ++ body ++
      List.replicate spaces ' '.toUInt8).head?, c ≠ ' '.toUInt8 ∧ c ≠ '-'.toUInt8 := by
  intro c hc
  cases zeroes with
  | succ zeroes =>
    cases hc
    decide
  | zero =>
    cases hb : body with
    | nil =>
      have hnil := h.length
      rw [hb, List.length_nil] at hnil
      exact absurd (List.eq_nil_of_length_eq_zero hnil.symm) (numeral_ne_nil h.lt_base n)
    | cons d body =>
      rw [hb] at hc h
      cases hc
      exact ⟨fun heq => h.not_mem (heq ▸ digitValue_space.ge) List.mem_cons_self,
        fun heq => h.not_mem (heq ▸ digitValue_dash.ge) List.mem_cons_self⟩

theorem IsNumeral.ne_nil (h : IsNumeral base n body) (zeroes spaces : Nat) :
    List.replicate zeroes '0'.toUInt8 ++ body ++ List.replicate spaces ' '.toUInt8 ≠ [] := by
  intro hnil
  have hbody : body = [] := (List.append_eq_nil_iff.mp (List.append_eq_nil_iff.mp hnil).1).2
  have hlen := h.length
  rw [hbody, List.length_nil] at hlen
  exact numeral_ne_nil h.lt_base n (List.eq_nil_of_length_eq_zero hlen.symm)

/-- **The reader** reads a numeral from anywhere in its field. -/
theorem IsNumeral.readNumber_justify (h : IsNumeral base n body) (left zeroes negative : Bool)
    (width : Nat) :
    readNumber base (justify left zeroes width (if negative then chars "-" else []) body) =
      if negative then -(n : Int) else n := by
  have hfield : ∃ spaces z r, justify left zeroes width (if negative then chars "-" else []) body =
      List.replicate spaces ' '.toUInt8 ++ ((if negative then chars "-" else []) ++
        (List.replicate z '0'.toUInt8 ++ body ++ List.replicate r ' '.toUInt8)) := by
    cases left with
    | true => exact ⟨0, 0, _, by simp [justify]; rfl⟩
    | false =>
      cases zeroes with
      | true => exact ⟨0, _, 0, by simp [justify]; rfl⟩
      | false => exact ⟨_, 0, 0, by simp [justify]; rfl⟩
  obtain ⟨spaces, z, r, hfield⟩ := hfield
  rw [hfield]
  cases negative with
  | true =>
    show readNumber base (_ ++ '-'.toUInt8 :: (List.replicate z '0'.toUInt8 ++ body ++
      List.replicate r ' '.toUInt8)) = -(n : Int)
    rw [readNumber_dash, h.readNat]
  | false =>
    show readNumber base (_ ++ (List.replicate z '0'.toUInt8 ++ body ++
      List.replicate r ' '.toUInt8)) = (n : Int)
    rw [readNumber_digits (h.ne_nil z r) (h.head z r), h.readNat]

end Reader

theorem isNumeral_decimal (n : Nat) : IsNumeral 10 n (decimal n) := by
  have hdigit : ∀ d < 10, digitValue (UInt8.ofNat (d + 48)) = d := by decide
  refine ⟨by decide, by decide, ?_⟩
  rw [decimal, List.map_map]
  exact (List.map_congr_left fun d hd => hdigit d (digit_lt (by decide) hd)).trans (List.map_id _)

theorem isNumeral_shifted (lower : Bool) (shift : Nat) (hpos : 0 < shift) (hle : shift ≤ 4)
    (n : Nat) : IsNumeral (2 ^ shift) n (shifted lower shift n) := by
  have hdigit : ∀ lower, ∀ d < 16, digitValue (hexDigits lower d) = d := by decide
  have hbase : 1 < 2 ^ shift := Nat.one_lt_two_pow hpos.ne'
  have hbound : 2 ^ shift ≤ 16 := Nat.pow_le_pow_right (by decide) hle
  refine ⟨hbase, hbound, ?_⟩
  rw [shifted, List.map_map]
  exact (List.map_congr_left fun d hd =>
    hdigit lower d ((digit_lt hbase hd).trans_le hbound)).trans (List.map_id _)

/-- The base of the numeral that a conversion writes. -/
def numberBase (c : UInt8) : Option Nat :=
  if c = 'd'.toUInt8 ∨ c = 'i'.toUInt8 ∨ c = 'u'.toUInt8 then some 10
  else if c = 'o'.toUInt8 then some 8
  else if c = 'x'.toUInt8 ∨ c = 'X'.toUInt8 then some 16
  else none

theorem numberBase_cases {c : UInt8} {base : Nat} (hc : numberBase c = some base) :
    (c = 'd'.toUInt8 ∨ c = 'i'.toUInt8) ∧ base = 10 ∨ c = 'u'.toUInt8 ∧ base = 10 ∨
      c = 'o'.toUInt8 ∧ base = 8 ∨ (c = 'x'.toUInt8 ∨ c = 'X'.toUInt8) ∧ base = 16 := by
  unfold numberBase at hc
  grind

/-- The number that a conversion shows. -/
def numberValue (c : UInt8) (flags : Flags) (arg : UInt64) : Int :=
  if c = 'd'.toUInt8 ∨ c = 'i'.toUInt8 then flags.signedValue arg else flags.unsignedValue arg

/-- What the conversion of a number shows is a sign and a numeral. -/
structure ShowsNumber (base : Nat) (value : Int) (s : Shown) : Prop where
  sign : s.sign = if decide (value < 0) then chars "-" else []
  body : IsNumeral base value.natAbs s.body

theorem shows_unsigned {base n : Nat} {body : List UInt8} (h : IsNumeral base n body)
    (zeroes : Bool) : ShowsNumber base (n : Int) ⟨[], body, zeroes⟩ := by
  have hpos : ¬ (n : Int) < 0 := by omega
  exact ⟨by rw [decide_eq_false hpos]; rfl, h⟩

/-- A conversion of a number is undefined for the least signed number only. -/
def Shows (base : Nat) (value : Int) (s : Option Shown) : Prop :=
  (s = none ∧ value = -2 ^ 63) ∨ ∃ t, s = some t ∧ value ≠ -2 ^ 63 ∧ ShowsNumber base value t

theorem shows_natural {base n : Nat} {s : Shown} (h : ShowsNumber base (n : Int) s) :
    Shows base (n : Int) (some s) :=
  Or.inr ⟨s, rfl, by omega, h⟩

theorem shown_number {c : UInt8} {base : Nat} (hc : numberBase c = some base) (text : Text)
    (flags : Flags) (arg : UInt64) : ∃ conv, Conversion.ofChar c = some conv ∧
      Shows base (numberValue c flags arg) (conv.shown text flags arg) := by
  obtain ⟨hd, rfl⟩ | ⟨rfl, rfl⟩ | ⟨rfl, rfl⟩ | ⟨rfl | rfl, rfl⟩ := numberBase_cases hc
  · have hvalue : numberValue c flags arg = flags.signedValue arg := if_pos hd
    refine ⟨.signed, by rcases hd with rfl | rfl <;> rfl, ?_⟩
    rw [hvalue]
    by_cases hmin : flags.signedValue arg = -2 ^ 63
    · exact Or.inl ⟨if_pos hmin, hmin⟩
    · refine Or.inr ⟨_, if_neg hmin, hmin, ?_, isNumeral_decimal _⟩
      by_cases hneg : flags.signedValue arg < 0
      · rw [if_pos hneg, decide_eq_true hneg]
        rfl
      · rw [if_neg hneg, decide_eq_false hneg]
        rfl
  · exact ⟨.unsigned, rfl, shows_natural (shows_unsigned (isNumeral_decimal _) _)⟩
  · exact ⟨.octal, rfl,
      shows_natural (shows_unsigned (isNumeral_shifted false 3 (by decide) (by decide) _) _)⟩
  · exact ⟨.hex true, rfl,
      shows_natural (shows_unsigned (isNumeral_shifted true 4 (by decide) (by decide) _) _)⟩
  · exact ⟨.hex false, rfl,
      shows_natural (shows_unsigned (isNumeral_shifted false 4 (by decide) (by decide) _) _)⟩

theorem Options.EndsAt.number {o : Options} {c : UInt8} {base : Nat}
    (hc : numberBase c = some base) : c ≠ 0 ∧ o.EndsAt c := by
  have hbyte : c ≠ 0 ∧ isModifier c = false ∧ isDigit c = false ∧ c ≠ '-'.toUInt8 := by
    obtain ⟨rfl | rfl, -⟩ | ⟨rfl, -⟩ | ⟨rfl, -⟩ | ⟨rfl | rfl, -⟩ := numberBase_cases hc <;> decide
  obtain ⟨hne, hmodifier, hdigit, hdash⟩ := hbyte
  exact ⟨hne, hmodifier, fun _ => hdigit, fun _ _ _ => hdash⟩

/-- **Numbers are read back.**  A directive for a number, with whatever options, is undefined
for the least signed number of 64 bits only.  For any other the number can be read from its
output, which is as long as its width, or as its sign and its numeral if that is more. -/
theorem number_reads_back {o : Options} (hok : o.Ok) {c : UInt8} {base : Nat}
    (hc : numberBase c = some base) (text : Text) (arg : UInt64) (args : List UInt64)
    (rest : List UInt8) :
    let value := numberValue c o.flags arg
    (value = -2 ^ 63 ∧ written text (o.bytes ++ c :: 0 :: rest) (arg :: args) = none) ∨
      value ≠ -2 ^ 63 ∧ ∃ out count,
        written text (o.bytes ++ c :: 0 :: rest) (arg :: args) = some (out, count) ∧
        readNumber base out = value ∧
        out.length = max o.givenWd
          ((if value < 0 then 1 else 0) + (numeral base value.natAbs).length) := by
  intro value
  obtain ⟨hne, hend⟩ := Options.EndsAt.number (o := o) hc
  have hreads : Reads (o.bytes ++ [c]) [.directive o c] [] := by
    refine ⟨fun p hp => ?_, Or.inl rfl, by simp [Piece.bytes]⟩
    rw [List.mem_singleton.mp hp]
    exact ⟨hok, hne, hend⟩
  obtain ⟨conv, hconv, hshows⟩ := shown_number hc text o.flags arg
  have hpiece : Piece.output text (.directive o c) (arg :: args) =
      (conv.shown text o.flags arg).map fun s =>
        (justify o.flags.leftJust s.zeroes o.givenWd s.sign s.body, args) := by
    rw [Piece.output, hconv]
  have hwritten : written text (o.bytes ++ c :: 0 :: rest) (arg :: args) =
      (output text [.directive o c] (arg :: args)).map fun p =>
        (p.1, UInt64.ofNat p.1.length) := by
    rw [← written_reads hreads, List.append_assoc]
    rfl
  rw [output, hpiece] at hwritten
  rcases hshows with ⟨hnone, hmin⟩ | ⟨s, hsome, hmin, hs⟩
  · rw [hnone] at hwritten
    exact Or.inl ⟨hmin, hwritten⟩
  · rw [hsome] at hwritten
    refine Or.inr ⟨hmin, _, _, hwritten, ?_, ?_⟩
    · show readNumber base (justify _ _ _ s.sign s.body ++ []) = value
      rw [List.append_nil, hs.sign, hs.body.readNumber_justify]
      by_cases hneg : value < 0
      · rw [if_pos (decide_eq_true hneg)]
        omega
      · rw [if_neg (by simpa using hneg)]
        omega
    · show (justify _ _ _ s.sign s.body ++ []).length = _
      rw [List.append_nil, length_justify, hs.sign, hs.body.length]
      by_cases hneg : value < 0
      · rw [if_pos (decide_eq_true hneg), if_pos hneg]
        rfl
      · rw [if_neg (by simpa using hneg), if_neg hneg]
        rfl

theorem number_reads_back_padded : ∃ out count,
    written (fun _ => []) (Options.bytes { zero := true, width := [5] } ++
      'd'.toUInt8 :: 0 :: []) [4294967254] = some (out, count) ∧
      readNumber 10 out = -42 ∧ out.length = 5 := by
  have hok : Options.Ok { zero := true, width := [5] } := ⟨nofun, List.isChain_nil⟩
  have hback := number_reads_back hok (c := 'd'.toUInt8) rfl (fun _ => []) 4294967254 [] []
  obtain ⟨-, out, count, hwritten, hread, hlen⟩ := hback.resolve_left fun h => absurd h.1 (by decide)
  exact ⟨out, count, hwritten, hread.trans (by decide), hlen.trans (by decide)⟩

end Printf
end Cmpsc473
