import Cmpsc473.Allocator.Safety

/-!
# The canonical shape of the heap

Since no two neighbours are free, the free blocks are the maximal gaps between
the blocks in use.  So two heaps of one extent with the same blocks in use are
the same map of blocks, by whatever calls each has come about.
-/

namespace Cmpsc473
namespace Allocator

open ByteMemory Total Tiling Transition

variable {s : Session} {P Q : Pool}

namespace Pool

/-- The free blocks of a pool are the gaps between the blocks in use. -/
theorem isGap_iff_free (hv : P.Valid) (hc : P.Coalesced) (lo hi : Nat) :
    IsGap (fun a n => ∃ b, P.Live b ∧ b.bp - 8 = a ∧ b.size = n) (P.base - 8) (P.brk - 8) lo hi ↔
      ∃ b ∈ P.blocks, b.alloc = false ∧ b.bp - 8 = lo ∧ b.bp - 8 + b.size = hi := by
  have hbase := hv.base_pos
  have hchain : P.blocks.IsChain (fun b c => ¬ (b.alloc = false ∧ c.alloc = false)) := hc
  rw [← isGap_iff (hv.tiles.sub (d := 8) (by omega)) hv.size_pos hchain]
  have htaken : (fun a n => ∃ b, P.Live b ∧ b.bp - 8 = a ∧ b.size = n) =
      fun a n => ∃ b ∈ P.blocks, ¬ b.alloc = false ∧ b.bp - 8 = a ∧ b.size = n := by
    funext a n
    simp only [Live, Bool.not_eq_false, and_assoc]
  rw [htaken]

theorem mem_of_same_live (hP : P.Valid) (hPc : P.Coalesced) (hQ : Q.Valid) (hQc : Q.Coalesced)
    (hbase : P.base = Q.base) (hbrk : P.brk = Q.brk) (hlive : ∀ b, P.Live b ↔ Q.Live b) {b : Block}
    (hb : b ∈ P.blocks) : b ∈ Q.blocks := by
  cases ha : b.alloc with
  | true => exact ((hlive b).mp ⟨hb, ha⟩).1
  | false =>
    have hgap := (isGap_iff_free hP hPc (b.bp - 8) (b.bp - 8 + b.size)).mpr ⟨b, hb, ha, rfl, rfl⟩
    simp only [hlive, hbase, hbrk] at hgap
    obtain ⟨c, hc, hca, hbp, hsize⟩ := (isGap_iff_free hQ hQc _ _).mp hgap
    have hcb := (hQ.tiles.bounds c hc).1
    have hbb := (hP.tiles.bounds b hb).1
    have hpos := hQ.base_pos
    have hcb : c = b := Block.ext (by omega) (by omega) (hca.trans ha.symm)
    exact hcb ▸ hc

/-- **Canonicity.** The row is given by the extent and the blocks in use. -/
theorem mem_iff_of_same_live (hP : P.Valid) (hPc : P.Coalesced) (hQ : Q.Valid)
    (hQc : Q.Coalesced) (hbase : P.base = Q.base) (hbrk : P.brk = Q.brk)
    (hlive : ∀ b, P.Live b ↔ Q.Live b) (b : Block) : b ∈ P.blocks ↔ b ∈ Q.blocks :=
  ⟨mem_of_same_live hP hPc hQ hQc hbase hbrk hlive,
    mem_of_same_live hQ hQc hP hPc hbase.symm hbrk.symm (fun b => (hlive b).symm)⟩

/-- With nothing in use a pool that is not empty is one free block. -/
theorem single_of_no_live (hv : P.Valid) (hc : P.Coalesced) (hne : P.base < P.brk)
    (hno : ∀ b, ¬ P.Live b) (b : Block) :
    b ∈ P.blocks ↔ b = ⟨P.base, P.brk - P.base, false⟩ := by
  have hpos := hv.base_pos
  have hgap : IsGap (fun a n => ∃ b, P.Live b ∧ b.bp - 8 = a ∧ b.size = n) (P.base - 8)
      (P.brk - 8) (P.base - 8) (P.brk - 8) := by
    refine ⟨Nat.le_refl _, by omega, Nat.le_refl _, ?_, Or.inl rfl, Or.inl rfl⟩
    rintro a n ⟨c, hcl, _⟩
    exact absurd hcl (hno c)
  obtain ⟨c, hcm, hca, hcbp, hcsize⟩ := (isGap_iff_free hv hc _ _).mp hgap
  have hcb := hv.tiles.bounds c hcm
  have hceq : c = ⟨P.base, P.brk - P.base, false⟩ :=
    Block.ext (by simp only; omega) (by simp only; omega) hca
  constructor
  · intro hb
    have hbb := hv.tiles.bounds b hb
    have hbpos := hv.size_pos b hb
    rcases hv.tiles.ordered hb hcm with he | he | he
    · exact he.trans hceq
    · omega
    · omega
  · rintro rfl
    exact hceq ▸ hcm

end Pool

theorem hasBlock_congr {h g : Heap} (hP : Row h P) (hPv : P.Valid) (hQ : Row g Q) (hQv : Q.Valid)
    (hheap : h.heap = g.heap) (hmem : ∀ b, b ∈ P.blocks ↔ b ∈ Q.blocks) (bp size alloc : Nat) :
    HasBlock h bp size alloc ↔ HasBlock g bp size alloc := by
  rw [hP.hasBlock_iff hPv, hQ.hasBlock_iff hQv]
  unfold Heap.prologue
  simp only [hheap, hmem]

/-- The free blocks are the maximal gaps between the blocks in use. -/
theorem isGap_iff {s : Session} (hs : s.Reachable) (lo hi : Nat) :
    IsGap (fun a n => ∃ bp, s.Live bp n ∧ bp - 8 = a) (s.heap.heap + 24) (s.heap.memBrk - 8)
      lo hi ↔ ∃ bp size, HasBlock s.heap bp size 0 ∧ bp - 8 = lo ∧ bp - 8 + size = hi := by
  obtain ⟨P, hh⟩ := hs.holds
  have hr := hh.represents.toRow
  have htaken : (fun a n => ∃ bp, s.Live bp n ∧ bp - 8 = a) =
      fun a n => ∃ b, P.Live b ∧ b.bp - 8 = a ∧ b.size = n := by
    funext a n
    apply propext
    constructor
    · rintro ⟨bp, hlive, ha⟩
      obtain ⟨b, hb, rfl, hn⟩ := hh.live_iff.mp hlive
      exact ⟨b, hb, ha, hn⟩
    · rintro ⟨b, hb, ha, hn⟩
      exact ⟨b.bp, hh.live_iff.mpr ⟨b, hb, rfl, hn⟩, ha⟩
  rw [htaken, show s.heap.heap + 24 = P.base - 8 by have := hr.base; omega, ← hr.brk,
    Pool.isGap_iff_free hh.valid hh.coalesced]
  constructor
  · rintro ⟨b, hb, ha, hlo, hhi⟩
    exact ⟨b.bp, b.size, (hr.hasBlock_free hh.valid).mpr ⟨b, hb, ha, rfl, rfl⟩, hlo, hhi⟩
  · rintro ⟨bp, size, hblock, hlo, hhi⟩
    obtain ⟨b, hb, ha, rfl, rfl⟩ := (hr.hasBlock_free hh.valid).mp hblock
    exact ⟨b, hb, ha, hlo, hhi⟩

/-- A block in use of one session is in use in another that has all of its blocks. -/
theorem Holds.live_mono {s t : Session} {P Q : Pool} {b : Block} (hP : Holds s P) (hQ : Holds t Q)
    (himp : ∀ bp size, s.Live bp size → t.Live bp size) (hb : P.Live b) : Q.Live b := by
  obtain ⟨c, hc, hbp, hsize⟩ := hQ.live_iff.mp
    (himp b.bp b.size (hP.live_iff.mpr ⟨b, hb, rfl, rfl⟩))
  have hcb : c = b := Block.ext hbp hsize (hc.2.trans hb.2.symm)
  exact hcb ▸ hc

/-- The blocks in use and the extent of the heap determine all blocks. -/
theorem hasBlock_of_same_live {s t : Session} (hs : s.Reachable) (ht : t.Reachable)
    (hheap : s.heap.heap = t.heap.heap) (hbrk : s.heap.memBrk = t.heap.memBrk)
    (hlive : ∀ bp size, s.Live bp size ↔ t.Live bp size) :
    ∀ bp size alloc, HasBlock s.heap bp size alloc ↔ HasBlock t.heap bp size alloc := by
  obtain ⟨P, hP⟩ := hs.holds
  obtain ⟨Q, hQ⟩ := ht.holds
  refine hasBlock_congr hP.represents.toRow hP.valid hQ.represents.toRow hQ.valid hheap ?_
  refine Pool.mem_iff_of_same_live hP.valid hP.coalesced hQ.valid hQ.coalesced ?_ ?_ ?_
  · rw [hP.represents.base, hQ.represents.base, hheap]
  · rw [hP.represents.brk, hQ.represents.brk, hbrk]
  · exact fun b => ⟨hP.live_mono hQ (fun bp size => (hlive bp size).mp),
      hQ.live_mono hP (fun bp size => (hlive bp size).mpr)⟩

/-- Frees commute. -/
theorem mmFree_comm {s : Session} (hs : s.Reachable) {p q : Nat} (hp : s.live p ≠ none)
    (hq : s.live q ≠ none) (hpq : p ≠ q) :
    ∃ hp hpq hq hqp, mmFree p s.heap = some ((), hp) ∧ mmFree q hp = some ((), hpq) ∧
      mmFree q s.heap = some ((), hq) ∧ mmFree p hq = some ((), hqp) ∧
      ∀ bp size alloc, HasBlock hpq bp size alloc ↔ HasBlock hqp bp size alloc := by
  obtain ⟨P, hh⟩ := hs.holds
  obtain ⟨b, hb, rfl⟩ := hh.block hp
  obtain ⟨c, hc, rfl⟩ := hh.block hq
  have hbc : b ≠ c := fun he => hpq (he ▸ rfl)
  have hRb := Pool.released hh.valid hh.coalesced hb
  have hRc := Pool.released hh.valid hh.coalesced hc
  have hcb := (hRb.live c).mpr ⟨hc, hbc.symm⟩
  have hbc' := (hRc.live b).mpr ⟨hb, hbc⟩
  have hRbc := Pool.released hRb.valid hRb.coalesced hcb
  have hRcb := Pool.released hRc.valid hRc.coalesced hbc'
  obtain ⟨_, h₁, hx₁, hr₁, _⟩ := mmFree_returns hh.represents hh.valid hb
  obtain ⟨_, h₁₂, hx₁₂, hr₁₂, _⟩ := mmFree_returns hr₁ hRb.valid hcb
  obtain ⟨_, h₂, hx₂, hr₂, _⟩ := mmFree_returns hh.represents hh.valid hc
  obtain ⟨_, h₂₁, hx₂₁, hr₂₁, _⟩ := mmFree_returns hr₂ hRc.valid hbc'
  refine ⟨h₁, h₁₂, h₂, h₂₁, hx₁, hx₁₂, hx₂, hx₂₁, ?_⟩
  have hheap : h₁₂.heap = h₂₁.heap := by
    have hb₁ := hr₁₂.base
    have hb₂ := hr₂₁.base
    rw [hRbc.base, hRb.base] at hb₁
    rw [hRcb.base, hRc.base] at hb₂
    omega
  refine hasBlock_congr hr₁₂.toRow hRbc.valid hr₂₁.toRow hRcb.valid hheap ?_
  refine Pool.mem_iff_of_same_live hRbc.valid hRbc.coalesced hRcb.valid hRcb.coalesced
    (by rw [hRbc.base, hRb.base, hRcb.base, hRc.base])
    (by rw [hRbc.brk, hRb.brk, hRcb.brk, hRc.brk]) (fun d => ?_)
  rw [hRbc.live, hRb.live, hRcb.live, hRc.live]
  exact and_right_comm

/-- Freeing what `mm_malloc` has returned without growing the heap undoes the call. -/
theorem mmFree_mmMalloc {s : Session} (hs : s.Reachable) {n p : Nat} {h' : Heap}
    (hn : n + 31 < 2 ^ 64) (hx : mmMalloc n s.heap = some (p, h')) (hp : p ≠ 0)
    (hbrk : h'.memBrk = s.heap.memBrk) : ∃ h'', mmFree p h' = some ((), h'') ∧
      ∀ bp size alloc, HasBlock h'' bp size alloc ↔ HasBlock s.heap bp size alloc := by
  obtain ⟨P, hh⟩ := hs.holds
  obtain ⟨rfl, hr', _⟩ := (returns_of_eq hx).mp (mmMalloc_returns hh.represents hh.valid hn)
  rcases Pool.malloc_spec hh.valid hh.coalesced hn with hfail | ⟨a, ha, hA⟩
  · rw [hfail] at hp
    exact absurd rfl hp
  have haL := (hA.live a).mpr (Or.inl rfl)
  have hR := Pool.released hA.valid hA.coalesced haL
  obtain ⟨_, h'', hx'', hr'', _⟩ := mmFree_returns hr' hA.valid haL
  rw [ha]
  refine ⟨h'', hx'', ?_⟩
  have hb'' := hr''.base
  have hbase := hh.represents.base
  have hbrk' := hr'.brk
  have hbrk₀ := hh.represents.brk
  rw [hR.base, hA.base] at hb''
  refine hasBlock_congr hr''.toRow hR.valid hh.represents.toRow hh.valid (by omega) ?_
  refine Pool.mem_iff_of_same_live hR.valid hR.coalesced hh.valid hh.coalesced
    (by rw [hR.base, hA.base]) (by rw [hR.brk]; omega) (fun d => ?_)
  rw [hR.live, hA.live]
  constructor
  · rintro ⟨rfl | hd, hda⟩
    · exact absurd rfl hda
    · exact hd
  · exact fun hd => ⟨Or.inr hd, fun he => hA.fresh d hd (he ▸ rfl)⟩

/-- With everything freed, one free block is left between prologue and epilogue. -/
theorem hasBlock_of_no_live {s : Session} (hs : s.Reachable) (hno : ∀ p, s.live p = none)
    (bp size alloc : Nat) :
    HasBlock s.heap bp size alloc ↔ (bp = s.heap.prologue ∧ size = 16 ∧ alloc = 1) ∨
      (bp = s.heap.heap + 32 ∧ size = s.heap.memBrk - s.heap.heap - 32 ∧ alloc = 0) := by
  obtain ⟨P, hh⟩ := hs.holds
  have hr := hh.represents.toRow
  have hlive : ∀ b, ¬ P.Live b := fun b hb => hh.held b hb (hno b.bp)
  have hbase := hr.base
  have hbrk := hr.brk
  have hgt := hh.nonempty
  rw [hr.hasBlock_iff hh.valid]
  simp only [Pool.single_of_no_live hh.valid hh.coalesced hgt hlive]
  constructor
  · rintro (h | ⟨b, rfl, rfl, rfl, rfl⟩)
    · exact Or.inl h
    · refine Or.inr ⟨?_, ?_, rfl⟩ <;> simp only <;> omega
  · rintro (h | ⟨rfl, rfl, rfl⟩)
    · exact Or.inl h
    · refine Or.inr ⟨_, rfl, ?_, ?_, rfl⟩ <;> simp only <;> omega

/-- **Canonical shape.** The free blocks of a reachable session are the maximal
gaps between the blocks in use, so the map of blocks is a function of the extent
of the heap and the blocks in use.  Hence frees commute, freeing what a `malloc`
within the heap has returned undoes it, and with everything freed one block is
left. -/
theorem canonical_shape :
    (∀ s : Session, s.Reachable → ∀ lo hi,
      IsGap (fun a n => ∃ bp, s.Live bp n ∧ bp - 8 = a) (s.heap.heap + 24) (s.heap.memBrk - 8) lo hi ↔
        ∃ bp size, HasBlock s.heap bp size 0 ∧ bp - 8 = lo ∧ bp - 8 + size = hi) ∧
    (∀ s t : Session, s.Reachable → t.Reachable → s.heap.heap = t.heap.heap →
      s.heap.memBrk = t.heap.memBrk → (∀ bp size, s.Live bp size ↔ t.Live bp size) →
      ∀ bp size alloc, HasBlock s.heap bp size alloc ↔ HasBlock t.heap bp size alloc) ∧
    (∀ s : Session, s.Reachable → ∀ p q, s.live p ≠ none → s.live q ≠ none → p ≠ q →
      ∃ hp hpq hq hqp, mmFree p s.heap = some ((), hp) ∧ mmFree q hp = some ((), hpq) ∧
        mmFree q s.heap = some ((), hq) ∧ mmFree p hq = some ((), hqp) ∧
        ∀ bp size alloc, HasBlock hpq bp size alloc ↔ HasBlock hqp bp size alloc) ∧
    (∀ s : Session, s.Reachable → ∀ n p h', n + 31 < 2 ^ 64 →
      mmMalloc n s.heap = some (p, h') → p ≠ 0 → h'.memBrk = s.heap.memBrk →
      ∃ h'', mmFree p h' = some ((), h'') ∧
        ∀ bp size alloc, HasBlock h'' bp size alloc ↔ HasBlock s.heap bp size alloc) ∧
    ∀ s : Session, s.Reachable → (∀ p, s.live p = none) → ∀ bp size alloc,
      HasBlock s.heap bp size alloc ↔ (bp = s.heap.prologue ∧ size = 16 ∧ alloc = 1) ∨
        (bp = s.heap.heap + 32 ∧ size = s.heap.memBrk - s.heap.heap - 32 ∧ alloc = 0) := by
  refine ⟨?_, ?_, ?_, ?_, ?_⟩
  · exact fun s hs lo hi => isGap_iff hs lo hi
  · exact fun s t hs ht hheap hbrk hlive => hasBlock_of_same_live hs ht hheap hbrk hlive
  · exact fun s hs p q hp hq hpq => mmFree_comm hs hp hq hpq
  · exact fun s hs n p h' hn hx hp hbrk => mmFree_mmMalloc hs hn hx hp hbrk
  · exact fun s hs hno => hasBlock_of_no_live hs hno

/-- A gap between blocks in use, and two blocks that are freed in either order. -/
theorem canonical_shape_mixed :
    (∃ s : Session, s.Live 4176 48 ∧
      IsGap (fun a n => ∃ bp, s.Live bp n ∧ bp - 8 = a) (s.heap.heap + 24) (s.heap.memBrk - 8)
        4120 4168) ∧
    ∃ (s : Session) (hp hpq hq hqp : Heap), s.Live 4128 48 ∧ s.Live 4176 48 ∧
      mmFree 4128 s.heap = some ((), hp) ∧ mmFree 4176 hp = some ((), hpq) ∧
      mmFree 4176 s.heap = some ((), hq) ∧ mmFree 4128 hq = some ((), hqp) ∧
      ∀ bp size alloc, HasBlock hpq bp size alloc ↔ HasBlock hqp bp size alloc := by
  obtain ⟨hgap, -, hcomm, -⟩ := canonical_shape
  constructor
  · obtain ⟨s, hs, hlive, hfree⟩ := exists_mixedSession
    exact ⟨s, hlive, (hgap s hs 4120 4168).mpr ⟨4128, 48, hfree, rfl, rfl⟩⟩
  · obtain ⟨s, hs, hh⟩ := exists_pairPool
    obtain ⟨hlive, hlive'⟩ := hh.pair_live
    obtain ⟨hp, hpq, hq, hqp, hxp, hxpq, hxq, hxqp, hsame⟩ :=
      hcomm s hs 4128 4176 hlive.2 hlive'.2 (by decide)
    exact ⟨s, hp, hpq, hq, hqp, hlive, hlive', hxp, hxpq, hxq, hxqp, hsame⟩

end Allocator
end Cmpsc473
