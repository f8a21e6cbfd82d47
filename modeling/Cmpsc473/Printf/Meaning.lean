import Cmpsc473.Printf.Conversions
import Cmpsc473.Printf.Directives

/-!
# What a format means

The output of a format is that of its pieces, one after the other.  A format can end
inside of a directive.  If no more than the flags of it are there, and the last of them
is not a dash, the scan copies the NUL as if it were a conversion character and goes on
behind it.
-/

namespace Cmpsc473
namespace Printf

open Total Sink

namespace Options

/-- The flags in front of the modifiers. -/
def start (o : Options) : Flags := { leftJust := 0 < o.dashes, padLeft0 := o.zero }

/-- What follows the flags. -/
def rest (o : Options) (fmt : List UInt8) : List UInt8 :=
  digitBytes o.width ++ (o.modifiers.flatMap Modifier.bytes ++ fmt)

theorem bytes_append (o : Options) (fmt : List UInt8) :
    o.bytes ++ fmt = '%'.toUInt8 :: (List.replicate o.dashes '-'.toUInt8 ++
      ((if o.zero then chars "0" else []) ++ o.rest fmt)) := by
  simp only [bytes, rest, List.cons_append, List.append_assoc]

/-- The scan reads the NUL behind these options as a conversion character. -/
def Open (o : Options) : Prop :=
  o.width = [] ∧ o.modifiers = [] ∧ (o.zero = true ∨ o.dashes = 0)

instance (o : Options) : Decidable o.Open := by
  unfold Open
  infer_instance

/-- A character that `case 1` leaves to `case 2`. -/
def Starts (o : Options) (d : UInt8) : Prop :=
  d ≠ 0 ∧ (o.zero = false → d ≠ '%'.toUInt8 ∧ d ≠ '-'.toUInt8 ∧ d ≠ '0'.toUInt8)

theorem Ok.starts {o : Options} (h : o.Ok) (hne : o.width ≠ [] ∨ o.modifiers ≠ [])
    (fmt : List UInt8) : ∃ d ds, o.rest fmt = d :: ds ∧ o.Starts d := by
  cases hw : o.width with
  | cons d width =>
    have hbyte : ∀ d : Fin 10, UInt8.ofNat (48 + d.val) ≠ 0 ∧
        UInt8.ofNat (48 + d.val) ≠ '%'.toUInt8 ∧ UInt8.ofNat (48 + d.val) ≠ '-'.toUInt8 ∧
        (UInt8.ofNat (48 + d.val) = '0'.toUInt8 → d = 0) := by
      decide
    obtain ⟨hne, hpercent, hdash, hzero⟩ := hbyte d
    refine ⟨_, _, by rw [rest, hw]; rfl, hne, fun hz => ⟨hpercent, hdash, fun heq => ?_⟩⟩
    have hfirst := h.width hz
    rw [hw, hzero heq] at hfirst
    exact hfirst rfl
  | nil =>
    cases hm : o.modifiers with
    | nil => exact absurd hm (hne.resolve_left (not_not.mpr hw))
    | cons m ms =>
      have hbyte : m.bytes.headD 0 ≠ 0 ∧ m.bytes.headD 0 ≠ '%'.toUInt8 ∧
          m.bytes.headD 0 ≠ '-'.toUInt8 ∧ m.bytes.headD 0 ≠ '0'.toUInt8 := by
        cases m <;> decide
      obtain ⟨d, ds, hd⟩ : ∃ d ds, m.bytes = d :: ds := by cases m <;> exact ⟨_, _, rfl⟩
      rw [hd] at hbyte
      refine ⟨d, ds ++ (ms.flatMap Modifier.bytes ++ fmt), ?_, hbyte.1, fun _ => hbyte.2⟩
      rw [rest, hw, hm, List.flatMap_cons, hd]
      simp [digitBytes]

end Options

section Rounds

variable {σ : Type} {text : Text} {fn : UInt8 → StateT σ Option Unit} {c d : UInt8}
  {fmt fmt' : List UInt8} {o : Options} {count : UInt64} {args : List UInt64}

/-- Up to the end of the dashes. -/
theorem scan_toFlags {k : Nat} (h : 0 < k ∨ d ≠ 0) :
    scan text fn ('%'.toUInt8 :: (List.replicate k '-'.toUInt8 ++ d :: fmt))
      ⟨0, {}, 0, count, args⟩ =
        scan text fn (d :: fmt) ⟨1, { leftJust := decide (0 < k) }, 0, count, args⟩ := by
  cases k with
  | zero =>
    have hd : d ≠ 0 := h.resolve_left (Nat.lt_irrefl 0)
    exact scan_percent hd
  | succ k =>
    rw [List.replicate_succ, List.cons_append, scan_percent (by decide), scan_dash, scan_dashes]
    simp

/-- Up to the width. -/
theorem scan_toWidth (hd : o.Starts d) :
    scan text fn ('%'.toUInt8 :: (List.replicate o.dashes '-'.toUInt8 ++
      ((if o.zero then chars "0" else []) ++ d :: fmt))) ⟨0, {}, 0, count, args⟩ =
        scan text fn (d :: fmt) ⟨2, o.start, 0, count, args⟩ := by
  obtain ⟨hne, hflag⟩ := hd
  unfold Options.start
  cases hz : o.zero with
  | true =>
    show scan text fn ('%'.toUInt8 :: (List.replicate o.dashes '-'.toUInt8 ++
      '0'.toUInt8 :: d :: fmt)) _ = _
    rw [scan_toFlags (Or.inr (by decide)), scan_flagZero hne]
  | false =>
    obtain ⟨hpercent, hdash, hzero⟩ := hflag hz
    show scan text fn ('%'.toUInt8 :: (List.replicate o.dashes '-'.toUInt8 ++ d :: fmt)) _ = _
    rw [scan_toFlags (Or.inr hne), scan_noFlag hne hpercent hdash hzero]

/-- Up to the end of the modifiers. -/
theorem scan_toEnd (hok : o.Ok) (hc : isModifier c = false) (hd : o.rest (c :: fmt) = d :: fmt')
    (hstart : o.Starts d) : ∃ state, (state = 2 ∧ o.modifiers = [] ∨ state = 3) ∧
      scan text fn (o.bytes ++ c :: fmt) ⟨0, {}, 0, count, args⟩ =
        scan text fn (c :: fmt) ⟨state, o.flags, o.givenWd, count, args⟩ := by
  have hwidth : scan text fn (o.bytes ++ c :: fmt) ⟨0, {}, 0, count, args⟩ =
      scan text fn (o.modifiers.flatMap Modifier.bytes ++ c :: fmt)
        ⟨2, o.start, o.givenWd, count, args⟩ := by
    rw [o.bytes_append, hd, scan_toWidth hstart, ← hd, Options.rest, scan_width, o.foldl_width]
  cases hm : o.modifiers with
  | nil =>
    have hflags : o.flags = o.start := by
      rw [Options.flags, hm]
      rfl
    rw [hm] at hwidth
    exact ⟨2, Or.inl ⟨rfl, rfl⟩, by rw [hwidth, hflags]; rfl⟩
  | cons m ms =>
    have hbyte : m.bytes.headD 0 ≠ 0 ∧ isDigit (m.bytes.headD 0) = false := by
      cases m <;> decide
    obtain ⟨b, bs, hb⟩ : ∃ b bs, m.bytes = b :: bs := by cases m <;> exact ⟨_, _, rfl⟩
    have hhead : o.modifiers.flatMap Modifier.bytes ++ c :: fmt =
        b :: (bs ++ (ms.flatMap Modifier.bytes ++ c :: fmt)) := by
      rw [hm, List.flatMap_cons, hb]
      simp
    rw [hb, List.headD_cons] at hbyte
    refine ⟨3, Or.inr rfl, ?_⟩
    rw [hwidth, hhead, scan_noDigit hbyte.1 hbyte.2, ← hhead, scan_modifiers hok.modifiers hc]
    rfl

/-- **A directive**: the scan comes to its last character with its options in the
variables. -/
theorem scan_directive (hok : o.Ok) (hc : c ≠ 0) (hend : o.EndsAt c) :
    scan text fn (o.bytes ++ c :: fmt) ⟨0, {}, 0, count, args⟩ =
      scan text fn (c :: fmt) ⟨4, o.flags, o.givenWd, count, args⟩ := by
  have hlast : ∀ state, state = 2 ∧ o.modifiers = [] ∨ state = 3 →
      scan text fn (c :: fmt) ⟨state, o.flags, o.givenWd, count, args⟩ =
        scan text fn (c :: fmt) ⟨4, o.flags, o.givenWd, count, args⟩ := by
    rintro state (⟨rfl, hm⟩ | rfl)
    · rw [scan_noDigit hc (hend.digit hm), scan_noModifier hc hend.modifier]
    · exact scan_noModifier hc hend.modifier
  have hthrough : ∀ d ds, o.rest (c :: fmt) = d :: ds → o.Starts d →
      scan text fn (o.bytes ++ c :: fmt) ⟨0, {}, 0, count, args⟩ =
        scan text fn (c :: fmt) ⟨4, o.flags, o.givenWd, count, args⟩ := by
    intro d ds hd hstart
    obtain ⟨state, hstate, hscan⟩ := scan_toEnd hok hend.modifier hd hstart
    rw [hscan, hlast state hstate]
  by_cases hne : o.width ≠ [] ∨ o.modifiers ≠ []
  · obtain ⟨d, ds, hd, hstart⟩ := hok.starts hne (c :: fmt)
    exact hthrough d ds hd hstart
  · rw [not_or, not_not, not_not] at hne
    obtain ⟨hw, hm⟩ := hne
    have hrest : o.rest (c :: fmt) = c :: fmt := by
      rw [Options.rest, hw, hm]
      rfl
    by_cases hspecial : o.zero = false ∧ c = '%'.toUInt8
    · -- `case 1` has already copied the character
      obtain ⟨hz, rfl⟩ := hspecial
      rw [o.bytes_append, hrest, hz]
      show scan text fn ('%'.toUInt8 :: (List.replicate o.dashes '-'.toUInt8 ++
        '%'.toUInt8 :: fmt)) _ = _
      rw [scan_toFlags (Or.inr hc), scan_doubled, scan_convert hc]
      simp only [scan_flags]
      rfl
    · refine hthrough c fmt hrest ⟨hc, fun hz => ⟨fun hp => hspecial ⟨hz, hp⟩,
        hend.dash hm hw hz, ?_⟩⟩
      rintro rfl
      exact absurd (hend.digit hm) (by decide)

/-- **A directive without its last character** outputs nothing, if it is not open. -/
theorem scan_unfinished (hok : o.Ok) (hclosed : ¬ o.Open) :
    scan text fn (o.bytes ++ 0 :: fmt) ⟨0, {}, 0, count, args⟩ = pure count := by
  by_cases hne : o.width ≠ [] ∨ o.modifiers ≠ []
  · obtain ⟨d, ds, hd, hstart⟩ := hok.starts hne (0 :: fmt)
    obtain ⟨state, -, hscan⟩ := scan_toEnd hok (by decide) hd hstart
    rw [hscan, scan_zero]
  · rw [not_or, not_not, not_not] at hne
    obtain ⟨hw, hm⟩ := hne
    have hflags : ¬ (o.zero = true ∨ o.dashes = 0) := fun h => hclosed ⟨hw, hm, h⟩
    rw [not_or, Bool.not_eq_true] at hflags
    have hrest : o.rest (0 :: fmt) = 0 :: fmt := by
      rw [Options.rest, hw, hm]
      rfl
    rw [o.bytes_append, hrest, hflags.1]
    show scan text fn ('%'.toUInt8 :: (List.replicate o.dashes '-'.toUInt8 ++ 0 :: fmt)) _ = _
    rw [scan_toFlags (Or.inl (Nat.pos_of_ne_zero hflags.2)), scan_zero]

/-- **An open one** copies the NUL, and the scan goes on behind it. -/
theorem scan_open (hopen : o.Open) :
    scan text fn (o.bytes ++ 0 :: fmt) ⟨0, {}, 0, count, args⟩ =
      put fn 0 count >>= fun count => scan text fn fmt ⟨0, {}, 0, count, args⟩ := by
  obtain ⟨hw, hm, hflags⟩ := hopen
  have hrest : o.rest (0 :: fmt) = 0 :: fmt := by
    rw [Options.rest, hw, hm]
    rfl
  rw [o.bytes_append, hrest]
  cases hz : o.zero with
  | true =>
    have hround : ∀ flags, switch text fn ('0'.toUInt8 :: 0 :: fmt) ⟨1, flags, 0, count, args⟩ =
        put fn 0 count >>= fun count => pure (0 :: fmt, ⟨0, {}, 0, count, args⟩) := fun _ => rfl
    show scan text fn ('%'.toUInt8 :: (List.replicate o.dashes '-'.toUInt8 ++
      '0'.toUInt8 :: 0 :: fmt)) _ = _
    rw [scan_toFlags (Or.inr (by decide)), scan_cons, if_neg (by decide), hround, bind_assoc]
    rfl
  | false =>
    have hround : switch text fn ('%'.toUInt8 :: 0 :: fmt) ⟨0, {}, 0, count, args⟩ =
        put fn 0 count >>= fun count => pure (0 :: fmt, ⟨0, {}, 0, count, args⟩) := rfl
    have hdashes : o.dashes = 0 := hflags.resolve_left (by rw [hz]; nofun)
    rw [hdashes]
    show scan text fn ('%'.toUInt8 :: 0 :: fmt) _ = _
    rw [scan_cons, if_neg (by decide), hround, bind_assoc]
    rfl

end Rounds

inductive Piece
  | char (c : UInt8)
  | directive (o : Options) (c : UInt8)

namespace Piece

def bytes : Piece → List UInt8
  | char c => [c]
  | directive o c => o.bytes ++ [c]

def Ok : Piece → Prop
  | char c => c ≠ 0 ∧ c ≠ '%'.toUInt8
  | directive o c => o.Ok ∧ c ≠ 0 ∧ o.EndsAt c

end Piece

/-- What a piece outputs, and the arguments that it leaves.  A character that is no
conversion is copied; a conversion takes an argument. -/
def Piece.output (text : Text) : Piece → List UInt64 → Option (List UInt8 × List UInt64)
  | char c, args => some ([c], args)
  | directive o c, args =>
    match Conversion.ofChar c with
    | none => some ([c], args)
    | some conv =>
      match args with
      | [] => none
      | arg :: args => (conv.shown text o.flags arg).map fun s =>
          (justify o.flags.leftJust s.zeroes o.givenWd s.sign s.body, args)

/-- The output of a format. -/
def output (text : Text) : List Piece → List UInt64 → Option (List UInt8 × List UInt64)
  | [], args => some ([], args)
  | p :: ps, args => do
    let (out, args) ← p.output text args
    let (out', args) ← output text ps args
    return (out ++ out', args)

theorem Options.flags_plain (o : Options) :
    o.flags.pointer = false ∧ o.flags.negative = false ∧ o.flags.leftJust = o.start.leftJust := by
  have hfold : ∀ (ms : List Modifier) (flags : Flags),
      (ms.foldl Modifier.apply flags).pointer = flags.pointer ∧
      (ms.foldl Modifier.apply flags).negative = flags.negative ∧
      (ms.foldl Modifier.apply flags).leftJust = flags.leftJust := by
    intro ms
    induction ms with
    | nil => exact fun _ => ⟨rfl, rfl, rfl⟩
    | cons m ms ih =>
      intro flags
      obtain ⟨hp, hn, hl⟩ := ih (m.apply flags)
      rw [List.foldl_cons, hp, hn, hl]
      cases m <;> exact ⟨rfl, rfl, rfl⟩
  exact hfold o.modifiers o.start

theorem Field.Shows.layout_eq {field : Field} {flags : Flags} {shown : Shown}
    {args : List UInt64} (h : field.Shows flags shown args) (givenWd : Nat) :
    layout field.flags field.str givenWd =
      justify flags.leftJust shown.zeroes givenWd shown.sign shown.body := by
  rw [layout, h.sign, h.str, h.leftJust, h.padLeft0]

section Pieces

variable {σ : Type} {text : Text} {fn : UInt8 → StateT σ Option Unit} {fmt : List UInt8}
  {count : UInt64} {args : List UInt64}

/-- What the scan does with an output, or where there is none. -/
def emit (text : Text) (fn : UInt8 → StateT σ Option Unit) (fmt : List UInt8) (count : UInt64) :
    Option (List UInt8 × List UInt64) → StateT σ Option UInt64
  | none => fun _ => none
  | some (out, args) => putStr fn out count >>= fun count =>
      scan text fn fmt ⟨0, {}, 0, count, args⟩

theorem scan_piece {p : Piece} (hp : p.Ok) :
    scan text fn (p.bytes ++ fmt) ⟨0, {}, 0, count, args⟩ =
      emit text fn fmt count (p.output text args) := by
  cases p with
  | char c =>
    obtain ⟨hne, hpercent⟩ := hp
    show scan text fn (c :: fmt) _ = putStr fn [c] count >>= _
    rw [scan_char hne hpercent, putStr_singleton]
  | directive o c =>
    obtain ⟨hok, hne, hend⟩ := hp
    have hbytes : (Piece.directive o c).bytes ++ fmt = o.bytes ++ c :: fmt := by
      rw [Piece.bytes, List.append_assoc]
      rfl
    rw [hbytes, scan_directive hok hne hend, scan_convert hne, convert_eq, Piece.output]
    cases Conversion.ofChar c with
    | none =>
      show put fn c count >>= _ = putStr fn [c] count >>= _
      rw [putStr_singleton]
    | some conv =>
      cases args with
      | nil =>
        simp only [conv.run_nil]
        rfl
      | cons arg args =>
        obtain ⟨hpointer, hnegative, -⟩ := o.flags_plain
        have hagree : Agree o.flags args (conv.shown text o.flags arg)
            (conv.run text o.flags (arg :: args)) :=
          Conversion.run_agree hpointer hnegative conv arg args
        obtain ⟨hs, hf⟩ | ⟨s, f, hs, hf, hshows⟩ := hagree
        · simp only [hs, hf]
          rfl
        · simp only [hs, hf]
          show putStr fn (layout f.flags f.str o.givenWd) count >>= _ =
            putStr fn (justify _ _ _ _ _) count >>= _
          rw [hshows.layout_eq, hshows.args]

theorem scan_pieces {ps : List Piece} (hps : ∀ p ∈ ps, p.Ok) :
    scan text fn (ps.flatMap Piece.bytes ++ fmt) ⟨0, {}, 0, count, args⟩ =
      emit text fn fmt count (output text ps args) := by
  induction ps generalizing count args with
  | nil =>
    show _ = putStr fn [] count >>= _
    rw [putStr_nil, pure_bind]
    rfl
  | cons p ps ih =>
    have hrest : ∀ count args, scan text fn (ps.flatMap Piece.bytes ++ fmt) ⟨0, {}, 0, count, args⟩ =
        emit text fn fmt count (output text ps args) :=
      fun _ _ => ih fun q hq => hps q (List.mem_cons_of_mem p hq)
    rw [List.flatMap_cons, List.append_assoc, scan_piece (hps p List.mem_cons_self), output]
    cases p.output text args with
    | none => rfl
    | some r =>
      obtain ⟨out, args⟩ := r
      show (putStr fn out count >>= fun count => scan text fn _ _) = _
      simp only [hrest]
      show _ = emit text fn fmt count ((output text ps args).bind _)
      cases output text ps args with
      | none => exact bind_undefined _
      | some r =>
        obtain ⟨out', args⟩ := r
        show (putStr fn out count >>= fun count => putStr fn out' count >>= _) =
          putStr fn (out ++ out') count >>= _
        rw [putStr_append, bind_assoc]

end Pieces

end Printf
end Cmpsc473
