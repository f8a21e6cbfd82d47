import Cmpsc473.Printf.Meaning

/-!
# Every format

Every format is a string of pieces and the beginning of one more directive, or
nothing.  So the scan of a format does not read what stands behind its NUL, unless
that beginning is open.
-/

namespace Cmpsc473
namespace Printf

open Total Sink

theorem exists_dashes (s : List UInt8) :
    ∃ k r, s = List.replicate k '-'.toUInt8 ++ r ∧ '-'.toUInt8 ∉ r.head? := by
  induction s with
  | nil => exact ⟨0, [], rfl, nofun⟩
  | cons c s ih =>
    by_cases hc : c = '-'.toUInt8
    · obtain ⟨k, r, hs, hr⟩ := ih
      refine ⟨k + 1, r, ?_, hr⟩
      rw [hs, hc, List.replicate_succ]
      rfl
    · refine ⟨0, c :: s, rfl, fun h => hc ?_⟩
      simpa using h

theorem exists_width (s : List UInt8) :
    ∃ width r, s = Options.digitBytes width ++ r ∧ ∀ c ∈ r.head?, isDigit c = false := by
  induction s with
  | nil => exact ⟨[], [], rfl, nofun⟩
  | cons c s ih =>
    cases hc : isDigit c with
    | false => exact ⟨[], c :: s, rfl, fun d hd => by rw [← Option.some.inj hd]; exact hc⟩
    | true =>
      obtain ⟨width, r, hs, hr⟩ := ih
      have hdigit : ∃ d : Fin 10, UInt8.ofNat (48 + d.val) = c := by
        rw [isDigit, Bool.and_eq_true, decide_eq_true_eq, decide_eq_true_eq] at hc
        have hlow : 48 ≤ c.toNat := UInt8.le_iff_toNat_le.mp hc.1
        have hhigh : c.toNat ≤ 57 := UInt8.le_iff_toNat_le.mp hc.2
        refine ⟨⟨c.toNat - 48, by omega⟩, ?_⟩
        show UInt8.ofNat (48 + (c.toNat - 48)) = c
        rw [Nat.add_sub_cancel' hlow, UInt8.ofNat_toNat]
      obtain ⟨d, hd⟩ := hdigit
      refine ⟨d :: width, r, ?_, hr⟩
      rw [hs, ← hd]
      rfl

/-- The longest modifier that stands at the front. -/
theorem exists_modifier {c : UInt8} (s : List UInt8) (hc : isModifier c = true) :
    ∃ (m : Modifier) (r : List UInt8), c :: s = m.bytes ++ r ∧ ∀ d ∈ r.head?, m.before d = true := by
  -- `l` and `h` look at the next character
  have hlook : ∀ (b : UInt8) (m m' : Modifier), m.bytes = [b] → m'.bytes = [b, b] →
      (∀ d, m'.before d = true) → (∀ d, d ≠ b → m.before d = true) →
      ∃ (m : Modifier) (r : List UInt8), b :: s = m.bytes ++ r ∧ ∀ d ∈ r.head?, m.before d = true := by
    intro b m m' hm hm' hall hother
    by_cases hnext : b ∈ s.head?
    · obtain ⟨r, rfl⟩ : ∃ r, s = b :: r := ⟨s.tail, (List.cons_head?_tail hnext).symm⟩
      exact ⟨m', r, by rw [hm']; rfl, fun d _ => hall d⟩
    · refine ⟨m, s, by rw [hm]; rfl, fun d hd => hother d ?_⟩
      rintro rfl
      exact hnext hd
  rw [isModifier, decide_eq_true_eq] at hc
  have hcases : c = 'z'.toUInt8 ∨ c = 't'.toUInt8 ∨ c = 'l'.toUInt8 ∨ c = 'L'.toUInt8 ∨
      c = 'h'.toUInt8 := by
    simpa [chars] using hc
  rcases hcases with rfl | rfl | rfl | rfl | rfl
  · exact ⟨.z, s, rfl, fun _ _ => rfl⟩
  · exact ⟨.t, s, rfl, fun _ _ => rfl⟩
  · exact hlook _ .l .ll rfl rfl (fun _ => rfl) fun d hd => bne_iff_ne.mpr hd
  · exact ⟨.L, s, rfl, fun _ _ => rfl⟩
  · exact hlook _ .h .hh rfl rfl (fun _ => rfl) fun d hd => bne_iff_ne.mpr hd

theorem Modifier.apart {m m' : Modifier} (h : m.before (m'.bytes.headD 0) = true) :
    (m = .l → m' ≠ .l ∧ m' ≠ .ll) ∧ (m = .h → m' ≠ .h ∧ m' ≠ .hh) := by
  refine ⟨?_, ?_⟩
  · rintro rfl
    exact ⟨fun h' => absurd h (by rw [h']; decide), fun h' => absurd h (by rw [h']; decide)⟩
  · rintro rfl
    exact ⟨fun h' => absurd h (by rw [h']; decide), fun h' => absurd h (by rw [h']; decide)⟩

theorem exists_modifiers (s : List UInt8) : ∃ (ms : List Modifier) (r : List UInt8),
    s = ms.flatMap Modifier.bytes ++ r ∧ (∀ c ∈ r.head?, isModifier c = false) ∧
      ms.IsChain fun m m' =>
        (m = .l → m' ≠ .l ∧ m' ≠ .ll) ∧ (m = .h → m' ≠ .h ∧ m' ≠ .hh) := by
  induction hn : s.length using Nat.strong_induction_on generalizing s with
  | _ n ih =>
    cases s with
    | nil => exact ⟨[], [], rfl, nofun, List.isChain_nil⟩
    | cons c s =>
      cases hc : isModifier c with
      | false =>
        exact ⟨[], c :: s, rfl, fun d hd => by rw [← Option.some.inj hd]; exact hc,
          List.isChain_nil⟩
      | true =>
        obtain ⟨m, r₁, hm, hbefore⟩ := exists_modifier s hc
        have hlen : r₁.length < n := by
          have hsplit := congrArg List.length hm
          have hpos : 0 < m.bytes.length := by cases m <;> decide
          rw [List.length_append] at hsplit
          omega
        obtain ⟨ms, r, hr₁, hlast, hchain⟩ := ih r₁.length hlen r₁ rfl
        refine ⟨m :: ms, r, ?_, hlast, ?_⟩
        · rw [hm, hr₁, List.flatMap_cons, List.append_assoc]
        · cases ms with
          | nil => exact List.isChain_singleton m
          | cons m' ms =>
            refine List.isChain_cons_cons.mpr ⟨Modifier.apart (hbefore _ ?_), hchain⟩
            rw [hr₁, List.flatMap_cons]
            cases m' <;> rfl

/-- What follows a percent sign: the options of a directive, and then its last character,
if the format does not end first. -/
theorem exists_options (s : List UInt8) : ∃ (o : Options) (r : List UInt8), o.Ok ∧
    '%'.toUInt8 :: s = o.bytes ++ r ∧ ∀ c ∈ r.head?, o.EndsAt c := by
  obtain ⟨dashes, s₁, rfl, hdash⟩ := exists_dashes s
  obtain ⟨zero, s₂, hs₁, hzero⟩ : ∃ (zero : Bool) (s₂ : List UInt8),
      s₁ = (if zero then chars "0" else []) ++ s₂ ∧
      (zero = false → s₂ = s₁ ∧ '0'.toUInt8 ∉ s₁.head?) := by
    by_cases hhead : '0'.toUInt8 ∈ s₁.head?
    · exact ⟨true, s₁.tail, (List.cons_head?_tail hhead).symm, nofun⟩
    · exact ⟨false, s₁, rfl, fun _ => ⟨rfl, hhead⟩⟩
  obtain ⟨width, s₃, rfl, hwidth⟩ := exists_width s₂
  obtain ⟨modifiers, r, rfl, hmod, hchain⟩ := exists_modifiers s₃
  refine ⟨⟨dashes, zero, width, modifiers⟩, r, ⟨?_, hchain⟩, ?_, ?_⟩
  · intro hz hfirst
    cases width with
    | nil => cases hfirst
    | cons d width =>
      obtain ⟨heq, hne⟩ := hzero hz
      refine hne ?_
      rw [← heq, Option.some.inj hfirst]
      rfl
  · rw [Options.bytes_append, hs₁]
    rfl
  · intro c hc
    refine ⟨hmod c hc, ?_, ?_⟩
    · rintro rfl
      exact hwidth c hc
    · rintro rfl rfl hz rfl
      refine hdash ?_
      rw [← (hzero hz).1]
      exact hc

/-- **Every format** is a string of pieces and the options of one more directive, or
nothing. -/
theorem exists_pieces (s : List UInt8) (hs : 0 ∉ s) :
    ∃ (ps : List Piece) (tail : List UInt8), (∀ p ∈ ps, p.Ok) ∧
      s = ps.flatMap Piece.bytes ++ tail ∧
      (tail = [] ∨ ∃ o : Options, o.Ok ∧ tail = o.bytes) := by
  induction hn : s.length using Nat.strong_induction_on generalizing s with
  | _ n ih =>
    have hmore : ∀ (p : Piece) (r : List UInt8), p.Ok → s = p.bytes ++ r → p.bytes ≠ [] →
        ∃ (ps : List Piece) (tail : List UInt8), (∀ p ∈ ps, p.Ok) ∧
          s = ps.flatMap Piece.bytes ++ tail ∧
          (tail = [] ∨ ∃ o : Options, o.Ok ∧ tail = o.bytes) := by
      intro p r hp hsplit hne
      have hlen : r.length < n := by
        have hpos := List.length_pos_iff.mpr hne
        rw [← hn, hsplit, List.length_append]
        omega
      obtain ⟨ps, tail, hps, hr, htail⟩ :=
        ih r.length hlen r (fun h => hs (hsplit ▸ List.mem_append_right _ h)) rfl
      refine ⟨p :: ps, tail, List.forall_mem_cons.mpr ⟨hp, hps⟩, ?_, htail⟩
      rw [hsplit, hr, List.flatMap_cons, List.append_assoc]
    cases s with
    | nil => exact ⟨[], [], nofun, rfl, Or.inl rfl⟩
    | cons c s =>
      have hc : c ≠ 0 := fun h => hs (h ▸ List.mem_cons_self)
      by_cases hpercent : c = '%'.toUInt8
      · obtain ⟨o, r, hok, hsplit, hend⟩ := exists_options s
        rw [← hpercent] at hsplit
        cases r with
        | nil =>
          rw [List.append_nil] at hsplit
          exact ⟨[], c :: s, nofun, rfl, Or.inr ⟨o, hok, hsplit⟩⟩
        | cons d r =>
          have hd : d ≠ 0 := by
            rintro rfl
            exact hs (hsplit ▸ List.mem_append_right _ List.mem_cons_self)
          refine hmore (.directive o d) r ⟨hok, hd, hend d rfl⟩ ?_ ?_
          · rw [hsplit, Piece.bytes, List.append_assoc]
            rfl
          · exact List.append_ne_nil_of_right_ne_nil _ (List.cons_ne_nil d [])
      · exact hmore (.char c) s ⟨hc, hpercent⟩ rfl (List.cons_ne_nil c [])

end Printf
end Cmpsc473
