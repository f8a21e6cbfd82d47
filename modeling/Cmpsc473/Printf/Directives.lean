import Cmpsc473.Library.Numeral
import Cmpsc473.Printf.Scan

/-!
# The formats that the scan takes apart

A format is a string of pieces: characters that are copied, and directives
`%[-...][0][width][modifiers]c`.  The state machine of `_do_vprintf` does one piece
after the other.
-/

namespace Cmpsc473
namespace Printf

open Total

inductive Modifier
  | z
  | t
  | l
  | ll
  | L
  | h
  | hh
deriving DecidableEq, Repr

def Modifier.bytes : Modifier → List UInt8
  | z => chars "z"
  | t => chars "t"
  | l => chars "l"
  | ll => chars "ll"
  | L => chars "L"
  | h => chars "h"
  | hh => chars "hh"

def Modifier.apply (flags : Flags) : Modifier → Flags
  | h => { flags with pr16 := true }
  | hh => { flags with pr8 := true }
  | _ => { flags with pr64 := true }

def isModifier (c : UInt8) : Bool := c ∈ chars "ztlLh"

/-- Everything of a directive but its last character. -/
structure Options where
  dashes : Nat := 0
  zero : Bool := false
  width : List (Fin 10) := []
  modifiers : List Modifier := []

namespace Options

def digitBytes (width : List (Fin 10)) : List UInt8 := width.map fun d => UInt8.ofNat (48 + d.val)

def bytes (o : Options) : List UInt8 :=
  '%'.toUInt8 :: (List.replicate o.dashes '-'.toUInt8 ++
    ((if o.zero then chars "0" else []) ++ (digitBytes o.width ++
      o.modifiers.flatMap Modifier.bytes)))

def flags (o : Options) : Flags :=
  o.modifiers.foldl Modifier.apply { leftJust := 0 < o.dashes, padLeft0 := o.zero }

def givenWd (o : Options) : Nat := Numeral.value 10 (o.width.map Fin.val) % 2 ^ 64

/-- A zero in front of the width is a flag; `l` before `l` is one modifier, and so is `h`
before `h`. -/
structure Ok (o : Options) : Prop where
  width : o.zero = false → 0 ∉ o.width.head?
  modifiers : o.modifiers.IsChain fun m m' =>
    (m = .l → m' ≠ .l ∧ m' ≠ .ll) ∧ (m = .h → m' ≠ .h ∧ m' ≠ .hh)

/-- The characters that end a directive. -/
structure EndsAt (o : Options) (c : UInt8) : Prop where
  modifier : isModifier c = false
  digit : o.modifiers = [] → isDigit c = false
  dash : o.modifiers = [] → o.width = [] → o.zero = false → c ≠ '-'.toUInt8

end Options

section Rounds

variable {σ : Type} {text : Text} {fn : UInt8 → StateT σ Option Unit} {c d : UInt8}
  {fmt : List UInt8} {v : Vars} {flags : Flags} {givenWd : Nat} {count : UInt64}
  {args : List UInt64}

theorem scan_zero : scan text fn (0 :: fmt) v = pure v.count := by
  rw [scan_cons, if_pos rfl]

/-- A round that outputs nothing and leaves `fmt` where it is. -/
theorem scan_skip {v' : Vars} (hc : c ≠ 0)
    (h : switch text fn (c :: fmt) v = pure (c :: fmt, v')) :
    scan text fn (c :: fmt) v = scan text fn fmt v' := by
  rw [scan_cons, if_neg hc, h]
  rfl

/-- A round that goes on at a later state on the same character. -/
theorem scan_same {v' : Vars} (hc : c ≠ 0)
    (h : switch text fn (c :: fmt) v = switch text fn (c :: fmt) v') :
    scan text fn (c :: fmt) v = scan text fn (c :: fmt) v' := by
  rw [scan_cons, scan_cons, if_neg hc, if_neg hc, h]

/-- A character that is copied. -/
theorem scan_char (hc : c ≠ 0) (hp : c ≠ '%'.toUInt8) :
    scan text fn (c :: fmt) ⟨0, flags, givenWd, count, args⟩ =
      put fn c count >>= fun count => scan text fn fmt ⟨0, flags, givenWd, count, args⟩ := by
  have hround : switch text fn (c :: fmt) ⟨0, flags, givenWd, count, args⟩ =
      put fn c count >>= fun count => pure (c :: fmt, ⟨0, flags, givenWd, count, args⟩) := if_pos hp
  rw [scan_cons, if_neg hc, hround, bind_assoc]
  rfl

/-- The start of a directive. -/
theorem scan_percent (hd : d ≠ 0) :
    scan text fn ('%'.toUInt8 :: d :: fmt) ⟨0, flags, givenWd, count, args⟩ =
      scan text fn (d :: fmt) ⟨1, {}, givenWd, count, args⟩ := by
  rw [scan_cons, scan_cons, if_neg (by decide), if_neg hd]
  rfl

/-- A percent sign after a percent sign. -/
theorem scan_doubled : scan text fn ('%'.toUInt8 :: fmt) ⟨1, flags, givenWd, count, args⟩ =
    put fn '%'.toUInt8 count >>= fun count =>
      scan text fn fmt ⟨0, flags, givenWd, count, args⟩ := by
  have hround : switch text fn ('%'.toUInt8 :: fmt) ⟨1, flags, givenWd, count, args⟩ =
      put fn '%'.toUInt8 count >>= fun count =>
        pure ('%'.toUInt8 :: fmt, ⟨0, flags, givenWd, count, args⟩) := rfl
  rw [scan_cons, if_neg (by decide), hround, bind_assoc]
  rfl

theorem scan_dash : scan text fn ('-'.toUInt8 :: fmt) ⟨1, flags, givenWd, count, args⟩ =
    scan text fn fmt ⟨1, { flags with leftJust := true }, givenWd, count, args⟩ :=
  scan_skip (by decide) rfl

/-- The flag for zeroes.  What stands behind it is looked at in the same round. -/
theorem scan_flagZero (hd : d ≠ 0) :
    scan text fn ('0'.toUInt8 :: d :: fmt) ⟨1, flags, givenWd, count, args⟩ =
      scan text fn (d :: fmt) ⟨2, { flags with padLeft0 := true }, 0, count, args⟩ := by
  rw [scan_cons, scan_cons, if_neg (by decide), if_neg hd]
  rfl

theorem scan_noFlag (hc : c ≠ 0) (hp : c ≠ '%'.toUInt8) (hm : c ≠ '-'.toUInt8)
    (hz : c ≠ '0'.toUInt8) :
    scan text fn (c :: fmt) ⟨1, flags, givenWd, count, args⟩ =
      scan text fn (c :: fmt) ⟨2, flags, 0, count, args⟩ := by
  refine scan_same hc ?_
  show (if c = '%'.toUInt8 then _ else if c = '-'.toUInt8 then _
    else if c = '0'.toUInt8 then _ else _) = _
  rw [if_neg hp, if_neg hm, if_neg hz]
  rfl

theorem scan_digit (hc : c ≠ 0) (h : isDigit c = true) :
    scan text fn (c :: fmt) ⟨2, flags, givenWd, count, args⟩ =
      scan text fn fmt
        ⟨2, flags, (10 * givenWd + (c.toNat - '0'.toUInt8.toNat)) % 2 ^ 64, count, args⟩ :=
  scan_skip hc (if_pos h)

theorem scan_noDigit (hc : c ≠ 0) (h : isDigit c = false) :
    scan text fn (c :: fmt) ⟨2, flags, givenWd, count, args⟩ =
      scan text fn (c :: fmt) ⟨3, flags, givenWd, count, args⟩ :=
  scan_same hc (if_neg (Bool.eq_false_iff.mp h))

theorem scan_noModifier (hc : c ≠ 0) (h : isModifier c = false) :
    scan text fn (c :: fmt) ⟨3, flags, givenWd, count, args⟩ =
      scan text fn (c :: fmt) ⟨4, flags, givenWd, count, args⟩ := by
  have hne : ∀ d ∈ chars "ztlLh", c ≠ d := by
    intro d hd heq
    rw [heq, isModifier, decide_eq_false_iff_not] at h
    exact h hd
  have hz := hne 'z'.toUInt8 (by decide)
  have ht := hne 't'.toUInt8 (by decide)
  have hl := hne 'l'.toUInt8 (by decide)
  have hL := hne 'L'.toUInt8 (by decide)
  have hh := hne 'h'.toUInt8 (by decide)
  refine scan_same hc ?_
  show (if c = 'z'.toUInt8 ∨ c = 't'.toUInt8 then _ else if c = 'l'.toUInt8 then _
    else if c = 'L'.toUInt8 then _ else if c = 'h'.toUInt8 then _ else _) = _
  rw [if_neg (not_or.mpr ⟨hz, ht⟩), if_neg hl, if_neg hL, if_neg hh]
  rfl

/-- What stands behind a modifier is not the rest of another modifier. -/
def Modifier.before (c : UInt8) : Modifier → Bool
  | .l => c != 'l'.toUInt8
  | .h => c != 'h'.toUInt8
  | _ => true

theorem Modifier.before_bytes {m m' : Modifier} (hl : m = .l → m' ≠ .l ∧ m' ≠ .ll)
    (hh : m = .h → m' ≠ .h ∧ m' ≠ .hh) : m.before (m'.bytes.headD 0) = true := by
  cases m with
  | l =>
    obtain ⟨h₁, h₂⟩ := hl rfl
    cases m' <;> first | rfl | exact absurd rfl h₁ | exact absurd rfl h₂
  | h =>
    obtain ⟨h₁, h₂⟩ := hh rfl
    cases m' <;> first | rfl | exact absurd rfl h₁ | exact absurd rfl h₂
  | _ => rfl

theorem scan_modifier (m : Modifier) (h : m.before c = true) :
    scan text fn (m.bytes ++ c :: fmt) ⟨3, flags, givenWd, count, args⟩ =
      scan text fn (c :: fmt) ⟨3, m.apply flags, givenWd, count, args⟩ := by
  cases m with
  | z => exact scan_skip (by decide) rfl
  | t => exact scan_skip (by decide) rfl
  | L => exact scan_skip (by decide) rfl
  | l =>
    have hround : switch text fn ('l'.toUInt8 :: c :: fmt) ⟨3, flags, givenWd, count, args⟩ =
        pure ('l'.toUInt8 :: c :: fmt, ⟨3, { flags with pr64 := true }, givenWd, count, args⟩) :=
      if_neg (bne_iff_ne.mp h)
    exact scan_skip (by decide) hround
  | h =>
    have hround : switch text fn ('h'.toUInt8 :: c :: fmt) ⟨3, flags, givenWd, count, args⟩ =
        pure ('h'.toUInt8 :: c :: fmt, ⟨3, { flags with pr16 := true }, givenWd, count, args⟩) :=
      if_neg (bne_iff_ne.mp h)
    exact scan_skip (by decide) hround
  | ll =>
    have hround : switch text fn (chars "ll" ++ c :: fmt) ⟨3, flags, givenWd, count, args⟩ =
        pure ('l'.toUInt8 :: c :: fmt, ⟨3, { flags with pr64 := true }, givenWd, count, args⟩) :=
      rfl
    show scan text fn ('l'.toUInt8 :: 'l'.toUInt8 :: c :: fmt) _ = _
    rw [scan_cons, if_neg (by decide)]
    exact congrArg (· >>= _) hround
  | hh =>
    have hround : switch text fn (chars "hh" ++ c :: fmt) ⟨3, flags, givenWd, count, args⟩ =
        pure ('h'.toUInt8 :: c :: fmt, ⟨3, { flags with pr8 := true }, givenWd, count, args⟩) :=
      rfl
    show scan text fn ('h'.toUInt8 :: 'h'.toUInt8 :: c :: fmt) _ = _
    rw [scan_cons, if_neg (by decide)]
    exact congrArg (· >>= _) hround

/-- The flags only matter inside a directive. -/
theorem scan_flags : scan text fn fmt ⟨0, flags, givenWd, count, args⟩ =
    scan text fn fmt ⟨0, {}, givenWd, count, args⟩ := by
  induction fmt generalizing count with
  | nil => rfl
  | cons c fmt ih =>
    by_cases hc : c = 0
    · rw [hc, scan_zero, scan_zero]
    · by_cases hp : c = '%'.toUInt8
      · have hround : switch text fn (c :: fmt) ⟨0, flags, givenWd, count, args⟩ =
            switch text fn (c :: fmt) ⟨0, {}, givenWd, count, args⟩ := by
          show (if c ≠ '%'.toUInt8 then _ else _) = (if c ≠ '%'.toUInt8 then _ else _)
          rw [if_neg (not_not.mpr hp), if_neg (not_not.mpr hp)]
        exact scan_same hc hround
      · rw [scan_char hc hp, scan_char hc hp]
        congr 1
        funext count
        exact ih

theorem lift_some_bind {α β : Type} (a : α) (f : α → StateT σ Option β) :
    (liftM (some a) : StateT σ Option α) >>= f = f a := rfl

/-- The last round of a directive. -/
theorem scan_convert (hc : c ≠ 0) :
    scan text fn (c :: fmt) ⟨4, flags, givenWd, count, args⟩ =
      match convert text c flags args with
      | none => fun _ => none
      | some none => put fn c count >>= fun count => scan text fn fmt ⟨0, {}, 0, count, args⟩
      | some (some field) => putStr fn (layout field.flags field.str givenWd) count >>= fun count =>
          scan text fn fmt ⟨0, {}, 0, count, field.args⟩ := by
  have hround : switch text fn (c :: fmt) ⟨4, flags, givenWd, count, args⟩ =
      case4 text fn (c :: fmt) ⟨4, flags, givenWd, count, args⟩ := rfl
  rw [scan_cons, if_neg hc, hround, case4, List.head?_cons, lift_some_bind]
  cases convert text c flags args with
  | none => rfl
  | some field =>
    cases field with
    | none =>
      rw [lift_some_bind, bind_assoc]
      rfl
    | some field =>
      rw [lift_some_bind]
      show (emitField fn field.flags field.str givenWd count >>= _) >>= _ = _
      rw [emitField_eq, bind_assoc]
      rfl

theorem scan_dashes (k : Nat) : scan text fn (List.replicate k '-'.toUInt8 ++ fmt)
    ⟨1, flags, givenWd, count, args⟩ = scan text fn fmt
      ⟨1, { flags with leftJust := flags.leftJust || decide (0 < k) }, givenWd, count, args⟩ := by
  induction k generalizing flags with
  | zero =>
    have hflags : { flags with leftJust := flags.leftJust || decide (0 < 0) } = flags := by
      cases flags
      simp
    rw [hflags]
    rfl
  | succ k ih =>
    have hflags : { flags with leftJust := flags.leftJust || decide (0 < k + 1) } =
        { flags with leftJust := true } := by
      simp
    rw [List.replicate_succ, List.cons_append, scan_dash, ih, hflags]
    simp

theorem scan_width (width : List (Fin 10)) :
    scan text fn (Options.digitBytes width ++ fmt) ⟨2, flags, givenWd, count, args⟩ =
      scan text fn fmt ⟨2, flags, width.foldl (fun w d => (10 * w + d.val) % 2 ^ 64) givenWd,
        count, args⟩ := by
  induction width generalizing givenWd with
  | nil => rfl
  | cons d width ih =>
    have hbyte : ∀ d : Fin 10, UInt8.ofNat (48 + d.val) ≠ 0 ∧
        isDigit (UInt8.ofNat (48 + d.val)) = true ∧
        (UInt8.ofNat (48 + d.val)).toNat - '0'.toUInt8.toNat = d.val := by
      decide
    obtain ⟨hne, hdigit, hval⟩ := hbyte d
    show scan text fn (UInt8.ofNat (48 + d.val) :: (Options.digitBytes width ++ fmt)) _ = _
    rw [scan_digit hne hdigit, hval, ih]
    rfl

/-- Taking remainders on the way changes nothing but the last remainder. -/
theorem foldl_mod (m : Nat) (ds : List Nat) (w : Nat) :
    ds.foldl (fun w d => (10 * w + d) % m) (w % m) =
      ds.foldl (fun w d => 10 * w + d) w % m := by
  induction ds generalizing w with
  | nil => rfl
  | cons d ds ih =>
    have hstep : (10 * (w % m) + d) % m = (10 * w + d) % m := by
      rw [Nat.add_mod, Nat.mul_mod, Nat.mod_mod, ← Nat.mul_mod, ← Nat.add_mod]
    rw [List.foldl_cons, List.foldl_cons, hstep]
    exact ih (10 * w + d)

theorem Options.foldl_width (o : Options) :
    o.width.foldl (fun w d => (10 * w + d.val) % 2 ^ 64) 0 = o.givenWd := by
  rw [Options.givenWd, Numeral.value, ← foldl_mod, List.foldl_map]
  rfl

theorem scan_modifiers {ms : List Modifier}
    (hms : ms.IsChain fun m m' =>
      (m = .l → m' ≠ .l ∧ m' ≠ .ll) ∧ (m = .h → m' ≠ .h ∧ m' ≠ .hh))
    (hc : isModifier c = false) :
    scan text fn (ms.flatMap Modifier.bytes ++ c :: fmt) ⟨3, flags, givenWd, count, args⟩ =
      scan text fn (c :: fmt) ⟨3, ms.foldl Modifier.apply flags, givenWd, count, args⟩ := by
  induction ms generalizing flags with
  | nil => rfl
  | cons m ms ih =>
    rw [List.flatMap_cons, List.append_assoc, List.foldl_cons, ← ih hms.tail]
    cases ms with
    | nil =>
      refine scan_modifier m ?_
      rw [isModifier, decide_eq_false_iff_not] at hc
      cases m with
      | l => exact bne_iff_ne.mpr fun heq => hc (heq ▸ (by decide))
      | h => exact bne_iff_ne.mpr fun heq => hc (heq ▸ (by decide))
      | _ => rfl
    | cons m' ms =>
      obtain ⟨hl, hh⟩ := (List.isChain_cons_cons.mp hms).1
      have hbefore := Modifier.before_bytes hl hh
      obtain ⟨d, ds, hd⟩ : ∃ d ds, m'.bytes = d :: ds := by cases m' <;> exact ⟨_, _, rfl⟩
      rw [hd] at hbefore
      rw [List.flatMap_cons, hd]
      exact scan_modifier m hbefore

end Rounds

end Printf
end Cmpsc473
