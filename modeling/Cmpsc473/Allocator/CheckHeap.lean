import Cmpsc473.Allocator.Wrap

/-!
# The heap checker

`mm_checkheap` looks for the epilogue behind the prologue, and finds the first block
of the heap there.  `mm_init` makes that block, and it never goes away.

The clients here may do more than those of a session: they write to all of a payload,
and ask `realloc` for any size.
-/

namespace Cmpsc473
namespace Allocator

open ByteMemory Total Tiling Transition

variable {h h' : Heap} {s s' : Session} {P : Pool} {b : Block}

/-- What a client may call, whatever comes of it. -/
def Call.Requested (s : Session) : Call → Prop
  | malloc size => size + 31 < 2 ^ 64
  | free bp => s.live bp ≠ none
  | realloc oldptr size => s.live oldptr ≠ none ∧ size < 2 ^ 64
  | limit addr => s.heap.memBrk ≤ addr ∧ addr ≤ 2 ^ 63

inductive PayloadStep : Session → Event → Session → Prop
  | call {s : Session} {c : Call} {r : Nat} {h' : Heap} : c.Requested s →
      c.exec s.heap = some (r, h') → PayloadStep s (.call c r) ⟨h', c.hold s.live r⟩
  | write {s : Session} {bp i : Nat} {v : UInt8} : s.live bp ≠ none →
      i < sizeAt s.heap bp - 16 → PayloadStep s (.write bp i v)
        { s with heap := { s.heap with mem := Function.update s.heap.mem (bp + i) v } }

/-- The session holds the pool, but for the numbers of bytes asked for. -/
def HoldsPayloads (s : Session) (P : Pool) : Prop :=
  ∃ live, (∀ p, live p = none ↔ s.live p = none) ∧ Holds ⟨s.heap, live⟩ P

/-- Which pointers a call leaves held depends on which were held before. -/
theorem hold_none_congr {live live' : Nat → Option Nat} (hl : ∀ p, live p = none ↔ live' p = none)
    (c : Call) (r p : Nat) : c.hold live r p = none ↔ c.hold live' r p = none := by
  have hupdate : ∀ {f g : Nat → Option Nat} (q : Nat) (v : Option Nat),
      (∀ p, f p = none ↔ g p = none) → ∀ p,
      Function.update f q v p = none ↔ Function.update g q v p = none := by
    intro f g q v hfg p
    by_cases hpq : p = q
    · rw [hpq, Function.update_self, Function.update_self]
    · rw [Function.update_of_ne hpq, Function.update_of_ne hpq]
      exact hfg p
  cases c with
  | malloc size =>
    by_cases hr : r = 0
    · rw [Call.hold, Call.hold, if_pos hr, if_pos hr]
      exact hl p
    · rw [Call.hold, Call.hold, if_neg hr, if_neg hr]
      exact hupdate r (some size) hl p
  | free bp => exact hupdate bp none hl p
  | realloc oldptr size =>
    by_cases hn : size = 0
    · rw [Call.hold, Call.hold, if_pos hn, if_pos hn]
      exact hupdate oldptr none hl p
    · rw [Call.hold, Call.hold, if_neg hn, if_neg hn]
      exact hupdate r (some size) (hupdate oldptr none hl) p
  | limit addr => exact hl p

/-- A reallocation that returns keeps the block, or succeeds. -/
theorem Holds.realloc_returned (hh : Holds s P) {oldptr n r : Nat} (hlive : s.live oldptr ≠ none)
    (hn : n < 2 ^ 64) (hx : mmRealloc oldptr n s.heap = some (r, h')) :
    (n ≠ 0 ∧ r = oldptr ∧ h' = s.heap) ∨ (n + 31 < 2 ^ 64 ∧ ReallocSucceeds s.heap oldptr n) := by
  have hr := hh.represents
  have hv := hh.valid
  obtain ⟨b, hb, rfl⟩ := hh.block hlive
  by_cases h0 : n = 0
  · exact Or.inr ⟨by omega, Or.inl h0⟩
  rw [hr.mmRealloc_eq hv hb h0] at hx
  by_cases hkeep : keepAsk n ≤ b.size - 16
  · rw [if_pos hkeep] at hx
    cases hx
    exact Or.inl ⟨h0, rfl, rfl⟩
  rw [if_neg hkeep, hr.copySize_eq hv hb hkeep] at hx
  obtain ⟨h₁, h₂, hmalloc, hcopy, _⟩ := reallocMove_eq_some hx
  by_cases hlt : n + 31 < 2 ^ 64
  · obtain ⟨a, h₃, rfl, hm⟩ := hh.moved hb hlt hkeep hmalloc hcopy
    refine Or.inr ⟨hlt, Or.inr (Or.inr ⟨a.bp, h₁, hmalloc, ?_⟩)⟩
    have := (hm.stored.bounds hm.allocated.valid ((hm.allocated.live a).mpr (Or.inl rfl)).1).1
    omega
  · -- the size wraps to 0, and `find_fit` leaves `seg_list`
    have hask : requestSize n = 0 := by
      rcases requestSize_wraps (by omega) hn with ⟨hask, _⟩ | ⟨_, hhi⟩
      · exact hask
      · unfold keepAsk align dsize alignment at hkeep
        rw [if_neg (by omega)] at hkeep
        omega
    rw [mmMalloc_eq (by omega), hask, bind_of_none (findFit_zero _)] at hmalloc
    cases hmalloc

theorem holdsPayloads_call (hh : HoldsPayloads s P) {c : Call} {r : Nat} (hc : c.Requested s)
    (hx : c.exec s.heap = some (r, h')) : ∃ P', HoldsPayloads ⟨h', c.hold s.live r⟩ P' := by
  obtain ⟨live, hl, hh⟩ := hh
  have hsame := hold_none_congr hl c r
  cases c with
  | malloc n => exact ⟨_, _, hsame, (holds_malloc hh hc hx).2⟩
  | free bp =>
    obtain ⟨rfl, hfree⟩ := exec_free_eq.mp hx
    exact ⟨_, _, hsame, holds_free hh (mt (hl bp).mp hc) hfree⟩
  | realloc oldptr n =>
    have hlive : live oldptr ≠ none := mt (hl oldptr).mp hc.1
    rcases hh.realloc_returned hlive hc.2 hx with ⟨h0, rfl, rfl⟩ | ⟨hn, hok⟩
    · refine ⟨P, live, fun p => (hl p).trans ?_, hh⟩
      show _ ↔ (Call.realloc r n).hold s.live r p = none
      rw [Call.hold, if_neg h0, Function.update_idem]
      by_cases hp : p = r
      · rw [hp, Function.update_self]
        exact iff_of_false hc.1 (Option.some_ne_none n)
      · rw [Function.update_of_ne hp]
    · obtain ⟨P', _, hh'⟩ := holds_realloc hh hlive hn hok hx
      exact ⟨P', _, hsame, hh'⟩
  | limit addr =>
    cases hx
    exact ⟨_, live, hl, holds_limit hh hc.1 hc.2⟩

theorem holdsPayloads_write (hh : HoldsPayloads s P) {bp i : Nat} {v : UInt8}
    (hbp : s.live bp ≠ none) (hi : i < sizeAt s.heap bp - 16) : HoldsPayloads
      { s with heap := { s.heap with mem := Function.update s.heap.mem (bp + i) v } } P := by
  obtain ⟨live, hl, hh⟩ := hh
  obtain ⟨b, hb, rfl⟩ := hh.block (p := bp) (mt (hl bp).mp hbp)
  rw [hh.represents.sizeAt_eq hh.valid hb.1] at hi
  have hc : ChangedIn b.bp (b.bp + b.size - 16) s.heap
      { s.heap with mem := Function.update s.heap.mem (b.bp + i) v } :=
    ⟨rfl, rfl, rfl, rfl, rfl, fun x hx => Function.update_of_ne (by omega) _ _⟩
  exact ⟨live, hl, { hh with represents := (hh.represents.payload hh.valid hb hc).1 }⟩

theorem holdsPayloads_step {e : Event} (hh : HoldsPayloads s P) (hstep : PayloadStep s e s') :
    ∃ P', HoldsPayloads s' P' := by
  cases hstep with
  | call hc hx => exact holdsPayloads_call hh hc hx
  | write hbp hi => exact ⟨P, holdsPayloads_write hh hbp hi⟩

theorem exists_holdsPayloads (hs : Transition.Reachable Started PayloadStep s) :
    ∃ P, HoldsPayloads s P := by
  apply hs.invariant
  · rintro s ⟨⟨h, ha, hx⟩, hlive⟩
    exact ⟨_, s.live, fun _ => Iff.rfl, start_holds ha hx hlive⟩
  · intro s e s' hex hstep
    obtain ⟨P, hh⟩ := hex
    exact holdsPayloads_step hh hstep

theorem getSize_eq {p : Nat} (hm : h.Mapped p 8) : getSize p h = some (h.word p &&& sizeMask, h) := by
  have hget : get p h = some (h.word p, h) := if_pos hm
  rw [getSize, bind_of_some hget]
  rfl

theorem getAlloc_eq {p : Nat} (hm : h.Mapped p 8) : getAlloc p h = some (h.word p &&& 1, h) := by
  have hget : get p h = some (h.word p, h) := if_pos hm
  rw [getAlloc, bind_of_some hget]
  rfl

theorem Head.ftrp_eq {bp size : Nat} (hh : Head h bp size) :
    ftrp bp h = some (bp + size - 16, h) := by
  obtain ⟨q, h', hx, hq, hh'⟩ :=
    (hh.returns_ftrp (Q := fun q h' => q = bp + size - 16 ∧ h' = h)).mpr ⟨rfl, rfl⟩
  rw [hx, hq, hh']

/-- A pool that is not empty has a block at its base. -/
theorem Pool.Valid.exists_first (hv : P.Valid) (hne : P.base < P.brk) :
    ∃ b ∈ P.blocks, b.bp = P.base := by
  have htiles := hv.tiles
  cases hbs : P.blocks with
  | nil =>
    rw [hbs] at htiles
    exact absurd htiles (Nat.ne_of_lt hne)
  | cons b bs =>
    rw [hbs] at htiles
    exact ⟨b, List.mem_cons_self, htiles.1⟩

/-- What follows the prologue is the first block, whose size is not that of the
epilogue. -/
theorem Represents.checkheap_eq (hr : Represents h P) (hv : P.Valid) (hne : P.base < P.brk)
    (lineno : Int) : mmCheckheap lineno h =
      some (checkFailed lineno "Bad epilogue header", h) := by
  obtain ⟨b, hb, hbase⟩ := hv.exists_first hne
  have hbounds := hr.bounds hv hb
  have hbp : h.prologue + 16 = b.bp := (hbase.trans hr.base).symm
  have hhead := hr.prologue_head hv
  have hfirst := hr.head hv hb
  have hfoot : h.Mapped (h.prologue + 16 - 16) 8 := by
    unfold Heap.Mapped Heap.prologue
    omega
  have hfooter : h.word (h.prologue + 16 - 16) = 17 := hr.prologueFooter
  have hsize : h.word (h.prologue - 8) &&& sizeMask = dsize := hr.prologue_eq.1
  have halloc : h.word (h.prologue - 8) &&& 1 = 1 := hr.prologue_eq.2
  have hlistp : getHeapListp h = some (h.prologue, h) := by
    rw [show h.prologue = h.heapListp from hr.heapListp.symm]
    rfl
  have hbsize : h.word (b.bp - 8) &&& sizeMask = b.size := hfirst.size
  unfold mmCheckheap
  rw [bind_of_some hlistp, hhead.hdrp, bind_of_some (getSize_eq hhead.mapped),
    bind_of_some (getAlloc_eq hhead.mapped), hsize, halloc,
    if_neg (by decide), bind_of_some hhead.ftrp_eq, bind_of_some (getSize_eq hfoot),
    bind_of_some hhead.ftrp_eq, bind_of_some (getAlloc_eq hfoot), hfooter, if_neg (by decide),
    bind_of_some (nextBlkp_eq hhead), hbp, hfirst.hdrp, bind_of_some (getSize_eq hfirst.mapped),
    bind_of_some (nextBlkp_eq hhead), hbp, hfirst.hdrp, bind_of_some (getAlloc_eq hfirst.mapped),
    hbsize, if_pos (Or.inl (by omega))]
  rfl

theorem HoldsPayloads.checkheap_eq (hh : HoldsPayloads s P) (lineno : Int) :
    mmCheckheap lineno s.heap = some (checkFailed lineno "Bad epilogue header", s.heap) := by
  obtain ⟨live, _, hh⟩ := hh
  exact hh.represents.checkheap_eq hh.valid hh.nonempty lineno

theorem HoldsPayloads.not_accepted (hh : HoldsPayloads s P) (lineno : Int) :
    ¬ ∃ text h', mmCheckheap lineno s.heap = some ((true, text), h') := by
  rintro ⟨text, h', htrue⟩
  rw [hh.checkheap_eq, Option.some.injEq, Prod.mk.injEq] at htrue
  have hfst : false = true := congrArg Prod.fst htrue.1
  cases hfst

/-- **The checker rejects every heap.** Prologue header and footer pass, and then it
takes the first block for the epilogue. -/
theorem checkheap_rejects (hs : Transition.Reachable Started PayloadStep s) (lineno : Int) :
    mmCheckheap lineno s.heap = some (checkFailed lineno "Bad epilogue header", s.heap) := by
  obtain ⟨P, hh⟩ := exists_holdsPayloads hs
  exact hh.checkheap_eq lineno

theorem checkheap_rejects_zeroSession : mmCheckheap 473 zeroSession.heap =
    some (checkFailed 473 "Bad epilogue header", zeroSession.heap) :=
  checkheap_rejects (.of_init ⟨⟨zeroHeap, zeroHeap_area, zeroSession_start⟩, rfl⟩) 473

/-- The heap that `mm_init` makes is rejected. -/
theorem checkheap_rejects_initial : ¬ ∀ s, Transition.Reachable Started PayloadStep s →
    ∀ lineno, ∃ text h', mmCheckheap lineno s.heap = some ((true, text), h') := by
  intro haccepts
  have hz : Transition.Reachable Started PayloadStep zeroSession :=
    .of_init ⟨⟨zeroHeap, zeroHeap_area, zeroSession_start⟩, rfl⟩
  obtain ⟨P, hh⟩ := exists_holdsPayloads hz
  exact hh.not_accepted 1 (haccepts zeroSession hz 1)

end Allocator
end Cmpsc473
