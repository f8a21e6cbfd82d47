import Cmpsc473.Printf.Buffers
import Cmpsc473.Printf.Formats

/-!
# What printing a format outputs

A format that does not end inside of the flags of a directive is a string of pieces,
and printing it puts their output and a NUL to `fn`.  The scan of any other format goes
on behind its NUL.
-/

namespace Cmpsc473
namespace Printf

open Total Sink

/-- Nothing, or a directive that the NUL breaks off. -/
def BrokenOff (tail : List UInt8) : Prop :=
  tail = [] ∨ ∃ o : Options, o.Ok ∧ ¬ o.Open ∧ tail = o.bytes

/-- The format is these pieces, up to a directive that the NUL breaks off. -/
structure Reads (fmt : List UInt8) (ps : List Piece) (tail : List UInt8) : Prop where
  pieces : ∀ p ∈ ps, p.Ok
  brokenOff : BrokenOff tail
  eq : fmt = ps.flatMap Piece.bytes ++ tail

/-- The format ends where the scan takes its NUL for a conversion character. -/
def EndsOpen (fmt : List UInt8) : Prop :=
  ∃ (ps : List Piece) (o : Options), (∀ p ∈ ps, p.Ok) ∧ o.Open ∧
    fmt = ps.flatMap Piece.bytes ++ o.bytes

theorem exists_reads {fmt : List UInt8} (h0 : 0 ∉ fmt) (hopen : ¬ EndsOpen fmt) :
    ∃ ps tail, Reads fmt ps tail := by
  obtain ⟨ps, tail, hps, heq, htail⟩ := exists_pieces fmt h0
  refine ⟨ps, tail, hps, ?_, heq⟩
  rcases htail with htail | ⟨o, hok, rfl⟩
  · exact Or.inl htail
  · exact Or.inr ⟨o, hok, fun ho => hopen ⟨ps, o, hps, ho, heq⟩, rfl⟩

/-- The last byte of an open format is a percent sign or the flag for zeroes. -/
theorem EndsOpen.getLast? {fmt : List UInt8} (h : EndsOpen fmt) :
    fmt.getLast? = some '%'.toUInt8 ∨ fmt.getLast? = some '0'.toUInt8 := by
  obtain ⟨ps, o, -, ⟨hw, hm, hflags⟩, rfl⟩ := h
  rw [List.getLast?_append, Options.bytes, hw, hm]
  cases hz : o.zero with
  | true =>
    right
    simp [chars, Options.digitBytes, List.getLast?_cons]
  | false =>
    left
    have hdashes : o.dashes = 0 := hflags.resolve_left (by simp [hz])
    simp [hdashes, Options.digitBytes]

section Written

variable {text : Text} {fmt : List UInt8} {ps : List Piece} {tail rest : List UInt8}
  {o : Options} {args : List UInt64}

theorem scan_brokenOff {σ : Type} {fn : UInt8 → StateT σ Option Unit} (h : BrokenOff tail)
    (count : UInt64) (args : List UInt64) :
    scan text fn (tail ++ 0 :: rest) ⟨0, {}, 0, count, args⟩ = pure count := by
  rcases h with rfl | ⟨o, hok, hclosed, rfl⟩
  · exact scan_zero
  · exact scan_unfinished hok hclosed

theorem written_emit {r : Option (List UInt8 × List UInt64)}
    (h : scan text collect fmt ⟨0, {}, 0, 0, args⟩ = emit text collect rest 0 r) :
    written text fmt args = r.bind fun p =>
      (scan text collect rest ⟨0, {}, 0, UInt64.ofNat p.1.length, p.2⟩ p.1).map fun q =>
        (q.2, q.1) := by
  show ((scan text collect fmt ⟨0, {}, 0, 0, args⟩) []).map _ = _
  rw [h]
  cases r with
  | none => rfl
  | some p =>
    show ((putStr collect p.1 0 >>= fun count => scan text collect rest ⟨0, {}, 0, count, p.2⟩)
      []).map _ = _
    rw [putStr_eq, bind_assoc, bind_of_some (forM_collect p.1 []), pure_bind, UInt64.zero_add]
    rfl

/-- What is written are the outputs of the pieces. -/
theorem written_reads (h : Reads fmt ps tail) (rest : List UInt8) (args : List UInt64) :
    written text (fmt ++ 0 :: rest) args =
      (output text ps args).map fun p => (p.1, UInt64.ofNat p.1.length) := by
  rw [h.eq, List.append_assoc, written_emit (scan_pieces h.pieces)]
  simp only [scan_brokenOff h.brokenOff]
  cases output text ps args <;> rfl

/-- Behind an open directive the scan reads on, with a NUL in its output. -/
theorem written_open (hps : ∀ p ∈ ps, p.Ok) (ho : o.Open) (rest : List UInt8)
    (args : List UInt64) :
    written text (ps.flatMap Piece.bytes ++ o.bytes ++ 0 :: rest) args =
      (output text ps args).bind fun p =>
        (scan text collect rest ⟨0, {}, 0, UInt64.ofNat p.1.length + 1, p.2⟩
          (p.1 ++ [0])).map fun q => (q.2, q.1) := by
  rw [List.append_assoc, written_emit (scan_pieces hps)]
  simp only [scan_open ho]
  rfl

end Written

/-- **What printing outputs.**  Every format that does not end open is read as pieces, and
whatever `fn` does, it is given their outputs, in their order, and a NUL.  Their length is
returned.  Nothing is defined if a piece has nothing to output. -/
theorem format_output {fmt : List UInt8} (h0 : 0 ∉ fmt) (hopen : ¬ EndsOpen fmt) :
    (∃ ps tail, Reads fmt ps tail) ∧ ∀ ps tail, Reads fmt ps tail →
      ∀ (σ : Type) (text : Text) (fn : UInt8 → StateT σ Option Unit) (rest : List UInt8)
        (args : List UInt64) (s : σ),
        doVprintf text fn (fmt ++ 0 :: rest) args s = (output text ps args).bind fun p =>
          (((p.1 ++ [0]).forM fn) s).map fun q : PUnit × σ => (signed 32 p.1.length, q.2) := by
  refine ⟨exists_reads h0 hopen, fun ps tail h σ text fn rest args s => ?_⟩
  rw [doVprintf_eq, written_reads h]
  cases output text ps args with
  | none => rfl
  | some p =>
    have hcount := signed_count p.1
    show (((p.1 ++ [0]).forM fn) s).map _ = _
    simp only [hcount]
    rfl

theorem format_output_line :
    doVprintf (fun _ => []) collect (chars "%-3c\n" ++ 0 :: []) [65] [] =
      some (4, chars "A  \n" ++ [0]) := by
  have hopen : ¬ EndsOpen (chars "%-3c\n") := fun h => absurd h.getLast? (by decide)
  have hok : Options.Ok { dashes := 1, width := [3] } := ⟨by decide, List.isChain_nil⟩
  have hreads : Reads (chars "%-3c\n")
      [.directive { dashes := 1, width := [3] } 'c'.toUInt8, .char '\n'.toUInt8] [] := by
    refine ⟨?_, Or.inl rfl, by decide⟩
    simp only [List.forall_mem_cons, List.not_mem_nil, false_imp_iff, implies_true, and_true]
    exact ⟨⟨hok, by decide, ⟨by decide, by decide, nofun⟩⟩, ⟨by decide, by decide⟩⟩
  have hrun := (format_output (by decide) hopen).2 _ _ hreads _ (fun _ => []) collect [] [65] []
  rw [hrun]
  decide

/-- **What is read.**  What stands behind the NUL of a format makes no difference exactly if
the format does not end open, or printing it is undefined before its end. -/
theorem reads_behind_iff {fmt : List UInt8} (h0 : 0 ∉ fmt) (text : Text) (args : List UInt64) :
    (∀ rest, written text (fmt ++ 0 :: rest) args = written text (fmt ++ [0]) args) ↔
      ¬ EndsOpen fmt ∨ written text (fmt ++ [0, 0]) args = none := by
  constructor
  · intro h
    by_cases hopen : EndsOpen fmt
    · obtain ⟨ps, o, hps, ho, heq⟩ := hopen
      right
      rw [h, heq, written_open hps ho]
      cases output text ps args <;> rfl
    · exact Or.inl hopen
  · intro h rest
    by_cases hopen : EndsOpen fmt
    · have hnone := h.resolve_left (not_not.mpr hopen)
      obtain ⟨ps, o, hps, ho, heq⟩ := hopen
      rw [heq, written_open hps ho] at hnone
      rw [heq, written_open hps ho, written_open hps ho]
      cases hout : output text ps args with
      | none => rfl
      | some p =>
        rw [hout] at hnone
        cases hnone
    · obtain ⟨ps, tail, hreads⟩ := exists_reads h0 hopen
      rw [written_reads hreads, written_reads hreads]

theorem reads_behind_iff_percent : ¬ ∀ rest,
    written (fun _ => []) (chars "%" ++ 0 :: rest) [] =
      written (fun _ => []) (chars "%" ++ [0]) [] := by
  have hopen : EndsOpen (chars "%") :=
    ⟨[], {}, fun _ h => absurd h List.not_mem_nil, ⟨rfl, rfl, Or.inr rfl⟩, by decide⟩
  refine (reads_behind_iff (by decide) _ _).not.mpr ?_
  exact fun h => h.elim (fun hclosed => hclosed hopen) (by decide)

end Printf
end Cmpsc473
