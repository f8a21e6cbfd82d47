import Cmpsc473.Allocator.HeapShape

/-!
# Safety of allocation

What a client relies on: the bytes it gets are its own, and stay so.
-/

namespace Cmpsc473
namespace Allocator

open ByteMemory Total Tiling Transition

variable {s s' : Session} {P P' : Pool}

/-- How the blocks in use change by a call that was given `arg` and returned `r`. -/
structure Pool.Called (P : Pool) (arg : Option Nat) (r : Nat) (P' : Pool) : Prop where
  others : ∀ b, arg ≠ some b.bp → b.bp ≠ r → (P'.Live b ↔ P.Live b)
  given : r ≠ 0 → arg ≠ some r → (∃ b, P'.Live b ∧ b.bp = r) ∧ ∀ b, P.Live b → b.bp ≠ r
  taken : ∀ q, arg = some q → q ≠ r → ∀ b, P'.Live b → b.bp ≠ q
  kept : arg = some r → ∀ b, P'.Live b ↔ P.Live b

theorem Pool.called_same {r : Nat} (P : Pool) (hr : r = 0) : P.Called none r P where
  others := fun _ _ _ => Iff.rfl
  given := fun hne => absurd hr hne
  taken := fun _ hq => nomatch hq
  kept := fun hq => nomatch hq

theorem Pool.Allocated.called {asize : Nat} {a : Block} {Q : Pool} (hA : P.Allocated asize a Q) :
    P.Called none a.bp Q where
  others := by
    intro b _ hba
    rw [hA.live]
    constructor
    · rintro (rfl | hb)
      · exact absurd rfl hba
      · exact hb
    · exact Or.inr
  given := fun _ _ => ⟨⟨a, (hA.live a).mpr (Or.inl rfl), rfl⟩, hA.fresh⟩
  taken := fun _ hq => nomatch hq
  kept := fun hq => nomatch hq

theorem Pool.Released.called {b : Block} {Q : Pool} (hR : P.Released b Q) (hv : P.Valid)
    (hb : P.Live b) {r : Nat} (hr : r = 0) : P.Called (some b.bp) r Q where
  others := by
    intro c hc _
    rw [hR.live]
    exact and_iff_left (fun he => hc (congrArg (fun d => some d.bp) he.symm))
  given := fun hne => absurd hr hne
  taken := by
    rintro q hq _ c hc rfl
    obtain ⟨hcP, hcb⟩ := (hR.live c).mp hc
    exact hcb (hv.live_inj hcP hb (Option.some.inj hq).symm)
  kept := by
    intro hq
    have hbp := (hv.tiles.bounds b hb.1).1
    have := hv.base_pos
    have := Option.some.inj hq
    omega

theorem Pool.Realloc.called {b : Block} {n r : Nat} (hR : P.Realloc b n r P') (hv : P.Valid)
    (hc : P.Coalesced) (hb : P.Live b) : P.Called (some b.bp) r P' := by
  cases hR with
  | free _ => exact (released hv hc hb).called hv hb rfl
  | keep _ _ =>
    exact {
      others := fun _ _ _ => Iff.rfl
      given := fun _ hne => absurd rfl hne
      taken := fun q hq hqr => absurd (Option.some.inj hq).symm hqr
      kept := fun _ _ => Iff.rfl }
  | @move a Q _ hA hbQ =>
    have hRel := released hA.valid hA.coalesced hbQ
    have hba := hA.fresh b hb
    refine {
      others := fun c hcb hca => ?_
      given := fun _ _ => ⟨⟨a, ?_, rfl⟩, hA.fresh⟩
      taken := ?_
      kept := fun hq => absurd (Option.some.inj hq) hba }
    · rw [hRel.live, hA.live]
      constructor
      · rintro ⟨rfl | hcP, _⟩
        · exact absurd rfl hca
        · exact hcP
      · exact fun hcP => ⟨Or.inr hcP, fun he => hcb (he ▸ rfl)⟩
    · exact (hRel.live a).mpr ⟨(hA.live a).mpr (Or.inl rfl), fun he => hba (he ▸ rfl)⟩
    · rintro q hq _ c hc rfl
      obtain ⟨hcQ, hcb⟩ := (hRel.live c).mp hc
      exact hcb (hA.valid.live_inj hcQ hbQ (Option.some.inj hq).symm)

theorem Call.run_called (hh : Holds s P) {c : Call} (hc : c.Allowed s) {r : Nat}
    (hrun : c.run P = some (r, P')) : P.Called c.arg r P' := by
  cases c with
  | malloc n =>
    simp only [Call.run, Option.some.injEq] at hrun
    rcases Pool.malloc_spec hh.valid hh.coalesced hc with hfail | ⟨a, ha, hA⟩
    · rw [hfail] at hrun
      cases hrun
      exact Pool.called_same P rfl
    · rw [hrun] at ha hA
      cases ha
      exact hA.called
  | free bp =>
    cases hrun
    obtain ⟨b, hb, rfl⟩ := hh.block hc
    rw [Pool.free_eq hh.valid hb.1]
    exact (Pool.released hh.valid hh.coalesced hb).called hh.valid hb rfl
  | realloc oldptr n =>
    obtain ⟨b, hb, rfl⟩ := hh.block hc.1
    exact (Pool.realloc_spec hh.valid hh.coalesced hb hc.2.1 hrun).called hh.valid hh.coalesced hb
  | limit addr =>
    cases hrun
    exact {
      others := fun _ _ _ => Iff.rfl
      given := fun hne => absurd rfl hne
      taken := fun _ hq => nomatch hq
      kept := fun hq => nomatch hq }

/-- A call leaves the payloads that it was not given alone. -/
theorem Holds.payloads_kept (hh : Holds s P) {c : Call} (hc : c.Allowed s) {r : Nat} {h' : Heap}
    (hx : c.exec s.heap = some (r, h')) {b : Block} (hb : P.Live b) (harg : c.arg ≠ some b.bp) :
    Kept s.heap h' b := by
  cases c with
  | malloc n =>
    exact ((returns_of_eq hx).mp (mmMalloc_returns hh.represents hh.valid hc)).2.2.1 b hb
  | free bp =>
    obtain ⟨d, hd, rfl⟩ := hh.block hc
    obtain ⟨_, hf⟩ := exec_free_eq.mp hx
    exact ((returns_of_eq hf).mp (mmFree_returns hh.represents hh.valid hd)).2 b hb
      (fun he => harg (he ▸ rfl))
  | realloc oldptr n =>
    obtain ⟨hold, hn, hok⟩ := hc
    obtain ⟨d, hd, rfl⟩ := hh.block hold
    obtain ⟨_, _, hre⟩ := realloc_isSome hh hd hn hok
    exact ((returns_of_eq hx).mp
      (mmRealloc_returns hh.represents hh.valid hh.coalesced hd hn hre)).2.2.1 b hb
      (fun he => harg (he ▸ rfl))
  | limit addr =>
    cases hx
    exact fun _ _ _ => rfl

/-- The bytes that `mm_malloc` returns are aligned, and lie in one block of the right size. -/
theorem mmMalloc_gives (hs : s.Reachable) {size p : Nat} {h' : Heap} (hn : size + 31 < 2 ^ 64)
    (hx : mmMalloc size s.heap = some (p, h')) (hp : p ≠ 0) :
    p % 16 = 0 ∧ h'.heap ≤ p ∧ p + size ≤ h'.memBrk ∧
      (∃ bsize, HasBlock h' p bsize 1 ∧ p + size ≤ p + bsize - 16 ∧
        (if size ≤ dsize then 2 * dsize else align (size + alignment)) ≤ bsize ∧
        bsize ≤ (if size ≤ dsize then 2 * dsize else align (size + alignment)) + 32) ∧
      (∀ bp bsize alloc, HasBlock h' bp bsize alloc → (p + size ≤ bp - 8 ∨ bp ≤ p) ∧
        (p + size ≤ bp + bsize - 16 ∨ bp + bsize - 8 ≤ p)) ∧
      p + size ≤ h'.memBrk - 8 ∧
      ∀ bp bsize, s.Live bp bsize → p + size ≤ bp ∨ bp + bsize - 16 ≤ p := by
  obtain ⟨P, hh⟩ := hs.holds
  obtain ⟨rfl, hr', _⟩ := (returns_of_eq hx).mp (mmMalloc_returns hh.represents hh.valid hn)
  rcases Pool.malloc_spec hh.valid hh.coalesced hn with hfail | ⟨a, ha, hA⟩
  · rw [hfail] at hp
    exact absurd rfl hp
  have haL := (hA.live a).mpr (Or.inl rfl)
  have hbounds := hr'.bounds hA.valid haL.1
  obtain ⟨_, _, hfit, _⟩ := Pool.blockSize_spec hn
  have hge := hA.size_ge
  have hasize : (if size ≤ dsize then 2 * dsize else align (size + alignment)) =
      Pool.blockSize size := by
    rw [← blockSize_eq hn]
    unfold alignment
    rw [Nat.mod_eq_of_lt (by omega)]
  have hapart : ∀ b ∈ (P.malloc size).2.blocks,
      b = a ∨ a.bp + a.size ≤ b.bp ∨ b.bp + b.size ≤ a.bp := by
    intro b hb
    rcases hA.valid.tiles.ordered haL.1 hb with he | he | he
    · exact Or.inl he.symm
    · exact Or.inr (Or.inl he)
    · exact Or.inr (Or.inr he)
  rw [ha, hasize]
  refine ⟨by omega, by omega, by omega, ⟨a.size, ?_, by omega, hge, hA.size_le⟩, ?_, by omega, ?_⟩
  · exact (hr'.hasBlock_iff hA.valid).mpr (Or.inr ⟨a, haL.1, rfl, rfl, by rw [haL.2]; rfl⟩)
  · intro bp bsize alloc hblock
    rcases (hr'.hasBlock_iff hA.valid).mp hblock with ⟨rfl, rfl, _⟩ | ⟨b, hb, rfl, rfl, _⟩
    · unfold Heap.prologue
      omega
    · have := hr'.bounds hA.valid hb
      rcases hapart b hb with rfl | he | he <;> omega
  · intro bp bsize hlive
    obtain ⟨b, hb, rfl, rfl⟩ := hh.live_iff.mp hlive
    rcases hapart b ((hA.live b).mpr (Or.inr hb)).1 with rfl | he | he
    · exact absurd rfl (hA.fresh _ hb)
    · omega
    · omega

/-- A call changes no payload that it was not given, and the blocks in use by the one
taken and the one given only. -/
theorem call_frame (hs : s.Reachable) {c : Call} {r : Nat} {s' : Session}
    (hstep : Step s (.call c r) s') :
    (∀ bp size, s.Live bp size → c.arg ≠ some bp →
      ∀ x, bp ≤ x → x < bp + size - 16 → s'.heap.mem x = s.heap.mem x) ∧
    (∀ bp size, c.arg ≠ some bp → bp ≠ r → (s'.Live bp size ↔ s.Live bp size)) ∧
    (r ≠ 0 → c.arg ≠ some r → (∃ size, s'.Live r size) ∧ ∀ size, ¬ s.Live r size) ∧
    (∀ q, c.arg = some q → q ≠ r → ∀ size, ¬ s'.Live q size) ∧
    (c.arg = some r → ∀ bp size, s'.Live bp size ↔ s.Live bp size) := by
  obtain ⟨P, hh⟩ := hs.holds
  obtain ⟨P', hrun, hh'⟩ := refines.visible s P _ s' c r hh hstep rfl
  cases hstep with
  | call hc hx =>
    have hcall := Call.run_called hh hc hrun
    refine ⟨?_, ?_, ?_, ?_, ?_⟩
    · intro bp size hlive harg
      obtain ⟨b, hb, rfl, rfl⟩ := hh.live_iff.mp hlive
      exact hh.payloads_kept hc hx hb harg
    · intro bp size harg hbr
      rw [hh.live_iff, hh'.live_iff]
      constructor
      · rintro ⟨b, hb, rfl, rfl⟩
        exact ⟨b, (hcall.others b harg hbr).mp hb, rfl, rfl⟩
      · rintro ⟨b, hb, rfl, rfl⟩
        exact ⟨b, (hcall.others b harg hbr).mpr hb, rfl, rfl⟩
    · intro hr0 harg
      obtain ⟨⟨b, hb, hbr⟩, hfresh⟩ := hcall.given hr0 harg
      refine ⟨⟨b.size, hh'.live_iff.mpr ⟨b, hb, hbr, rfl⟩⟩, fun size hlive => ?_⟩
      obtain ⟨d, hd, hdr, _⟩ := hh.live_iff.mp hlive
      exact hfresh d hd hdr
    · intro q harg hqr size hlive
      obtain ⟨b, hb, hbq, _⟩ := hh'.live_iff.mp hlive
      exact hcall.taken q harg hqr b hb hbq
    · intro harg bp size
      rw [hh.live_iff, hh'.live_iff]
      constructor
      · rintro ⟨b, hb, hbp⟩
        exact ⟨b, (hcall.kept harg b).mp hb, hbp⟩
      · rintro ⟨b, hb, hbp⟩
        exact ⟨b, (hcall.kept harg b).mpr hb, hbp⟩

/-- **Allocation is safe.** The bytes that `malloc` returns are aligned and lie
in one block of the right size, clear of every tag and of every payload in use.
No call changes a payload that it was not given, and the blocks in use change by
the block taken and the block given only. -/
theorem allocation_safety (hs : s.Reachable) :
    (∀ size p h', 1 ≤ size → size + 31 < 2 ^ 64 → mmMalloc size s.heap = some (p, h') → p ≠ 0 →
      p % 16 = 0 ∧ h'.heap ≤ p ∧ p + size ≤ h'.memBrk ∧
      (∃ bsize, HasBlock h' p bsize 1 ∧ p + size ≤ p + bsize - 16 ∧
        (if size ≤ dsize then 2 * dsize else align (size + alignment)) ≤ bsize ∧
        bsize ≤ (if size ≤ dsize then 2 * dsize else align (size + alignment)) + 32) ∧
      (∀ bp bsize alloc, HasBlock h' bp bsize alloc → (p + size ≤ bp - 8 ∨ bp ≤ p) ∧
        (p + size ≤ bp + bsize - 16 ∨ bp + bsize - 8 ≤ p)) ∧
      p + size ≤ h'.memBrk - 8 ∧
      ∀ bp bsize, s.Live bp bsize → p + size ≤ bp ∨ bp + bsize - 16 ≤ p) ∧
    ∀ c r s', Step s (.call c r) s' →
      (∀ bp size, s.Live bp size → c.arg ≠ some bp →
        ∀ x, bp ≤ x → x < bp + size - 16 → s'.heap.mem x = s.heap.mem x) ∧
      (∀ bp size, c.arg ≠ some bp → bp ≠ r → (s'.Live bp size ↔ s.Live bp size)) ∧
      (r ≠ 0 → c.arg ≠ some r → (∃ size, s'.Live r size) ∧ ∀ size, ¬ s.Live r size) ∧
      (∀ q, c.arg = some q → q ≠ r → ∀ size, ¬ s'.Live q size) ∧
      (c.arg = some r → ∀ bp size, s'.Live bp size ↔ s.Live bp size) := by
  constructor
  · exact fun size p h' _ hn hx hp => mmMalloc_gives hs hn hx hp
  · exact fun c r s' hstep => call_frame hs hstep

/-- The first `malloc` of a session is served from the first chunk. -/
theorem first_malloc (hh : Holds s (Pool.initial zeroHeap.heap zeroHeap.memMaxAddr)) :
    ∃ h', mmMalloc 24 s.heap = some (4128, h') ∧ Step s (.call (.malloc 24) 4128)
      ⟨h', Function.update s.live 4128 (some 24)⟩ := by
  obtain ⟨r, h', hx, hr, _⟩ := mmMalloc_returns hh.represents hh.valid (n := 24) (by decide)
  have hr' : r = 4128 := hr.trans (by decide)
  subst hr'
  exact ⟨h', hx, .call (c := .malloc 24) (by decide : 24 + 31 < 2 ^ 64) hx⟩

theorem allocation_safety_zeroSession :
    ∃ h', mmMalloc 24 zeroSession.heap = some (4128, h') ∧
      (∃ bsize, HasBlock h' 4128 bsize 1 ∧ 48 ≤ bsize) ∧
      ∀ size, ¬ zeroSession.Live 4128 size := by
  obtain ⟨h', hx, hstep⟩ := first_malloc zeroSession_holds
  obtain ⟨hmalloc, hcalls⟩ := allocation_safety zeroSession_reachable
  obtain ⟨_, _, _, ⟨bsize, hblock, _, hge, _⟩, _⟩ :=
    hmalloc 24 4128 h' (by decide) (by decide) hx (by decide)
  obtain ⟨_, _, hgiven, _⟩ := hcalls (.malloc 24) 4128 _ hstep
  exact ⟨h', hx, ⟨bsize, hblock, hge⟩, (hgiven (by decide) (by decide)).2⟩

end Allocator
end Cmpsc473
