import Cmpsc473.Allocator.Safety

/-!
# Independence of the contents of memory

The pool that a session holds is a function of the area and of the calls.  So
what memory held before `mm_init`, and what the client writes, cannot show in
any pointer, tag or link.
-/

namespace Cmpsc473
namespace Allocator

open ByteMemory Total LinkedSegment Transition

variable {P : Pool}

/-- Equal words wherever the allocator keeps its data. -/
structure SameMetadata (h g : Heap) : Prop where
  brk : h.memBrk = g.memBrk
  blocks : ∀ bp size alloc, HasBlock h bp size alloc ↔ HasBlock g bp size alloc
  headers : ∀ bp size alloc, HasBlock h bp size alloc → h.word (bp - 8) = g.word (bp - 8)
  footers : ∀ bp size alloc, HasBlock h bp size alloc →
    h.word (bp + size - 16) = g.word (bp + size - 16)
  epilogue : h.word (h.memBrk - 8) = g.word (g.memBrk - 8)
  heads : ∀ k < maxLen, h.segList k = g.segList k
  links : ∀ bp size, HasBlock h bp size 0 →
    h.word bp = g.word bp ∧ h.word (bp + 8) = g.word (bp + 8)

/-- One pool is represented in one way, payloads apart. -/
theorem Represents.sameMetadata {h g : Heap} (hh : Represents h P) (hg : Represents g P)
    (hv : P.Valid) : SameMetadata h g := by
  have hheap : h.heap = g.heap := by
    have h₁ := hh.base
    have h₂ := hg.base
    omega
  have hprologue : h.prologue = g.prologue := by
    unfold Heap.prologue
    rw [hheap]
  refine {
    brk := hh.brk.symm.trans hg.brk
    blocks := ?_
    headers := ?_
    footers := ?_
    epilogue := hh.epilogue.trans hg.epilogue.symm
    heads := fun k hk => (hh.listed.heads k hk).trans (hg.listed.heads k hk).symm
    links := ?_ }
  · intro bp size alloc
    rw [hh.hasBlock_iff hv, hg.hasBlock_iff hv, hprologue]
  · intro bp size alloc hblock
    rcases (hh.hasBlock_iff hv).mp hblock with ⟨rfl, _⟩ | ⟨b, hb, rfl, _⟩
    · have := hg.prologueHeader
      rw [← hheap] at this
      exact hh.prologueHeader.trans this.symm
    · exact (hh.tags b hb).1.trans (hg.tags b hb).1.symm
  · intro bp size alloc hblock
    rcases (hh.hasBlock_iff hv).mp hblock with ⟨rfl, rfl, _⟩ | ⟨b, hb, rfl, rfl, _⟩
    · have := hg.prologueFooter
      rw [← hheap] at this
      exact hh.prologueFooter.trans this.symm
    · exact (hh.tags b hb).2.trans (hg.tags b hb).2.symm
  · intro bp size hblock
    obtain ⟨b, hb, hf, rfl, _⟩ := (hh.hasBlock_free hv).mp hblock
    have hk := sizeClass_lt b.size
    have hmem := (hv.mem_bins (sizeClass b.size) b).mpr ⟨hb, hf, rfl⟩
    exact (hh.listed.links _ hk).links_eq (hg.listed.links _ hk) b.bp (List.mem_map_of_mem hmem)

/-- **Independence.** Two sessions on the same area that make the same calls get
the same results, and come to the same break, tags, list heads and links,
whatever memory and globals held before and whatever the clients write. -/
theorem independent_of_contents {h₁ h₂ g₁ g₂ : Heap} {ok₁ ok₂ : Bool} (ha : h₁.Area)
    (hheap : h₁.heap = h₂.heap) (hlimit : h₁.memMaxAddr = h₂.memMaxAddr)
    (hx₁ : start h₁ = some (ok₁, g₁)) (hx₂ : start h₂ = some (ok₂, g₂)) :
    ok₁ = ok₂ ∧ (ok₁ = true → ∀ es₁ es₂ s₁ s₂,
      Run Step ⟨g₁, fun _ => none⟩ es₁ s₁ → Run Step ⟨g₂, fun _ => none⟩ es₂ s₂ →
      inputs Event.seen es₁ = inputs Event.seen es₂ →
      outputs Event.seen es₁ = outputs Event.seen es₂ ∧ SameMetadata s₁.heap s₂.heap) := by
  have ha₂ : h₂.Area :=
    ⟨hheap ▸ ha.pos, hheap ▸ ha.aligned, by rw [← hheap, ← hlimit]; exact ha.le, hlimit ▸ ha.limit⟩
  have hok : ok₁ = ok₂ := by
    have hp₁ := (returns_of_eq hx₁).mp (start_returns ha)
    have hp₂ := (returns_of_eq hx₂).mp (start_returns ha₂)
    rw [← hheap, ← hlimit] at hp₂
    by_cases hroom : h₁.heap + 32 + chunkSize ≤ h₁.memMaxAddr
    · rw [if_pos hroom] at hp₁ hp₂
      rw [hp₁.1, hp₂.1]
    · rw [if_neg hroom] at hp₁ hp₂
      rw [hp₁, hp₂]
  refine ⟨hok, ?_⟩
  rintro rfl es₁ es₂ s₁ s₂ hrun₁ hrun₂ hin
  subst hok
  have hs₁ := start_holds (s := ⟨g₁, fun _ => none⟩) ha hx₁ rfl
  have hs₂ := start_holds (s := ⟨g₂, fun _ => none⟩) ha₂ hx₂ rfl
  rw [← hheap, ← hlimit] at hs₂
  obtain ⟨hout, P, hP₁, hP₂⟩ := refines.deterministic hrun₁ hrun₂ hs₁ hs₂ hin
  exact ⟨hout, hP₁.represents.sameMetadata hP₂.represents hP₁.valid⟩

/-- The area of `zeroHeap`, with garbage in memory and in the globals. -/
def staleHeap : Heap where
  mem := fun x => UInt8.ofNat (3 * x + 1)
  heap := 4096
  memBrk := 5000
  memMaxAddr := 4096 + 2 ^ 20
  heapListp := 7
  segList := fun k => 16 * k

/-- A client may write to what it has just been given. -/
theorem write_held {h : Heap} {p n i : Nat} {v : UInt8} (live : Nat → Option Nat) (hi : i < n) :
    Step ⟨h, Function.update live p (some n)⟩ (.write p i v)
      ⟨{ h with mem := Function.update h.mem (p + i) v }, Function.update live p (some n)⟩ := by
  have hlive : Function.update live p (some n) p = some n := Function.update_self ..
  exact .write hlive hi

/-- A client that writes to its first block sees what one that does not sees. -/
theorem independent_of_contents_stale :
    ∃ g₁ g₂ s₁ s₂, start zeroHeap = some (true, g₁) ∧ start staleHeap = some (true, g₂) ∧
      Run Step ⟨g₁, fun _ => none⟩ [.call (.malloc 24) 4128, .write 4128 5 255] s₁ ∧
      Run Step ⟨g₂, fun _ => none⟩ [.call (.malloc 24) 4128] s₂ ∧
      SameMetadata s₁.heap s₂.heap := by
  have ha : staleHeap.Area := ⟨by decide, by decide, by decide, by decide⟩
  obtain ⟨g₁, hg₁⟩ := start_isSome zeroHeap_area (by decide)
  obtain ⟨g₂, hg₂⟩ := start_isSome ha (by decide)
  have hs₁ := start_holds (s := ⟨g₁, fun _ => none⟩) zeroHeap_area hg₁ rfl
  have hs₂ := start_holds (s := ⟨g₂, fun _ => none⟩) ha hg₂ rfl
  have hheap : zeroHeap.heap = staleHeap.heap := rfl
  have hlimit : zeroHeap.memMaxAddr = staleHeap.memMaxAddr := rfl
  rw [← hheap, ← hlimit] at hs₂
  obtain ⟨h₁, _, hstep₁⟩ := first_malloc hs₁
  obtain ⟨h₂, _, hstep₂⟩ := first_malloc hs₂
  have hwrite := write_held (h := h₁) (p := 4128) (i := 5) (v := 255) (fun _ => none)
    (by decide : 5 < 24)
  have hrun₁ := ((Run.nil _).snoc hstep₁).snoc hwrite
  have hrun₂ := (Run.nil _).snoc hstep₂
  obtain ⟨_, hruns⟩ := independent_of_contents zeroHeap_area hheap hlimit hg₁ hg₂
  have hin : inputs Event.seen [.call (.malloc 24) 4128, .write 4128 5 255] =
      inputs Event.seen [.call (.malloc 24) 4128] := by simp [inputs, Event.seen]
  exact ⟨g₁, g₂, _, _, hg₁, hg₂, hrun₁, hrun₂, (hruns rfl _ _ _ _ hrun₁ hrun₂ hin).2⟩

end Allocator
end Cmpsc473
