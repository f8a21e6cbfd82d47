import Cmpsc473.Allocator.Outcome
import Cmpsc473.Allocator.Safety

/-!
# Reallocation

What `realloc` does with the data of a block: it stays, or all of it is copied
before the block is freed.
-/

namespace Cmpsc473
namespace Allocator

open ByteMemory Total Tiling Transition

variable {h h' : Heap} {s : Session} {P : Pool} {b : Block}

namespace Pool

/-- No free block of a coalesced pool ends where another begins. -/
theorem Coalesced.apart (hc : P.Coalesced) (hv : P.Valid) {c : Block} (hb : b ∈ P.blocks)
    (hbf : b.alloc = false) (hcm : c ∈ P.blocks) (hcf : c.alloc = false) :
    b.bp + b.size ≠ c.bp := by
  intro he
  have hchain : P.blocks.IsChain (fun b c => ¬ (b.alloc = false ∧ c.alloc = false)) := hc
  rcases hv.tiles.after_free hchain hb hbf with hend | ⟨d, hd, hdf, hdb⟩
  · have := hv.bp_lt_brk hcm
    omega
  · exact hdf (hv.eq_of_bp hd hcm (hdb.trans he) ▸ hcf)

/-- Freeing makes the block part of a free one. -/
theorem mem_release_free (hv : P.Valid) (hb : P.Live b) :
    ∃ f ∈ (P.release b).blocks, f.alloc = false ∧ f.bp ≤ b.bp ∧ b.bp + b.size ≤ f.bp + f.size := by
  have hvf := hv.freed hb.1 hb.2
  obtain ⟨hmem, hfree, _⟩ := coalesce_fst hvf (mem_freed P b) rfl
  exact ⟨_, hmem, hfree, coalesce_covers hvf (mem_freed P b) rfl⟩

end Pool

/-- A block in use is a block with the bit set. -/
theorem Represents.hasBlock_live (hr : Represents h P) (hv : P.Valid) (hb : P.Live b) :
    HasBlock h b.bp b.size 1 :=
  (hr.hasBlock_iff hv).mpr (Or.inr ⟨b, hb.1, rfl, rfl, by rw [hb.2]; rfl⟩)

/-- What a block in use has room for. -/
theorem Represents.oldsize (hr : Represents h P) (hv : P.Valid) (hb : P.Live b) :
    (b.size + (2 ^ 64 - alignment)) % 2 ^ 64 = b.size - 16 := by
  have := hr.bounds hv hb.1
  unfold alignment
  omega

/-- `realloc` of a block in use keeps it or moves it. -/
theorem Represents.mmRealloc_eq (hr : Represents h P) (hv : P.Valid) (hb : P.Live b) {n : Nat}
    (hn : n ≠ 0) : mmRealloc b.bp n h =
      if keepAsk n ≤ b.size - 16 then some (b.bp, h)
      else reallocMove b.bp n (copySize b.size n) h := by
  have hbp : b.bp ≠ 0 := by
    have := hr.bounds hv hb.1
    omega
  rw [(hr.head hv hb.1).mmRealloc_eq hbp hn, hr.oldsize hv hb]

/-- A block that cannot stay is copied whole. -/
theorem Represents.copySize_eq (hr : Represents h P) (hv : P.Valid) (hb : P.Live b) {n : Nat}
    (hkeep : ¬ keepAsk n ≤ b.size - 16) : copySize b.size n = b.size - 16 := by
  unfold copySize
  rw [hr.oldsize hv hb, if_neg (by omega)]

theorem Moved.realloc_eq {n : Nat} {a : Block} {h₁ h₂ h₃ : Heap} (hm : Moved h P b n a h₁ h₂ h₃) :
    reallocMove b.bp n (b.size - 16) h = some (a.bp, h₃) := by
  rw [reallocMove, bind_of_some hm.malloc, bind_of_some hm.copy, bind_of_some hm.free]
  rfl

theorem keepSize_ge (n : Nat) : n ≤ Pool.keepSize n := by
  unfold Pool.keepSize
  split <;> omega

/-- **`realloc` keeps the data.** Where the block can stay or there is room for
another, the result is aligned and has the capacity, and it begins with the bytes
of the old block.  The copy reads the old payload and writes the new one, which
are apart.  Other payloads in use do not change, and a block that has moved is
part of a free block, which has no free neighbour. -/
theorem realloc_keeps_data (hs : s.Reachable) {oldptr bsize size : Nat}
    (hlive : s.Live oldptr bsize) (h1 : 1 ≤ size) (hn : size + 31 < 2 ^ 64)
    (hok : ReallocSucceeds s.heap oldptr size) :
    ∃ r h', mmRealloc oldptr size s.heap = some (r, h') ∧ r % 16 = 0 ∧
      (∃ rsize, HasBlock h' r rsize 1 ∧ size ≤ rsize - 16) ∧
      (∀ i < min (bsize - 16) size, h'.mem (r + i) = s.heap.mem (oldptr + i)) ∧
      (r ≠ oldptr → ∃ h₁ h₂ rsize n, n = copySize bsize size ∧
        mmMalloc size s.heap = some (r, h₁) ∧ memMemcpy r oldptr n h₁ = some ((), h₂) ∧
        mmFree oldptr h₂ = some ((), h') ∧
        HasBlock h₁ oldptr bsize 1 ∧ n ≤ bsize - 16 ∧ n % 8 = 0 ∧
        HasBlock h₁ r rsize 1 ∧ n ≤ rsize - 16 ∧
        (∀ x, x < r ∨ r + n ≤ x → h₂.mem x = h₁.mem x) ∧
        (r + n ≤ oldptr ∨ oldptr + n ≤ r)) ∧
      (∀ bp bsize', s.Live bp bsize' → bp ≠ oldptr → HasBlock h' bp bsize' 1 ∧
        ∀ x, bp ≤ x → x < bp + bsize' - 16 → h'.mem x = s.heap.mem x) ∧
      (r ≠ oldptr → ∃ fp fsize, HasBlock h' fp fsize 0 ∧ fp ≤ oldptr ∧
        oldptr + bsize ≤ fp + fsize ∧
        ∀ bp bsize', HasBlock h' bp bsize' 0 → bp + bsize' ≠ fp ∧ fp + fsize ≠ bp) ∧
      (r = oldptr → h' = s.heap) := by
  obtain ⟨P, hh⟩ := hs.holds
  have hv := hh.valid
  have hr := hh.represents
  obtain ⟨b, hb, rfl, rfl⟩ := hh.live_iff.mp hlive
  have hbounds := hr.bounds hv hb.1
  have heq := hr.mmRealloc_eq hv hb (n := size) (by omega)
  by_cases hkeep : keepAsk size ≤ b.size - 16
  · -- the block stays
    have hge := keepSize_ge size
    rw [keepSize_eq hn] at hkeep
    rw [keepSize_eq hn, if_pos hkeep] at heq
    refine ⟨b.bp, s.heap, heq, by omega, ⟨b.size, hr.hasBlock_live hv hb, by omega⟩,
      fun _ _ => rfl, fun hne => absurd rfl hne, fun bp bsize' hl _ => ⟨hl.1, fun _ _ _ => rfl⟩,
      fun hne => absurd rfl hne, fun _ => rfl⟩
  · -- the block moves
    rw [if_neg hkeep, hr.copySize_eq hv hb hkeep] at heq
    have hcopy := hr.copySize_eq hv hb hkeep
    have hsize : ¬ Pool.keepSize size ≤ b.size - 16 := by rwa [← keepSize_eq hn]
    have hz : (P.malloc size).1 ≠ 0 := by
      rcases hok with h0 | hk | ⟨p, h', hx, hp⟩
      · omega
      · have hk : keepAsk size ≤ sizeAt s.heap b.bp - 16 := hk
        rw [hr.sizeAt_eq hv hb.1] at hk
        exact absurd hk hkeep
      · obtain ⟨rfl, _⟩ := (returns_of_eq hx).mp (mmMalloc_returns hr hv hn)
        exact hp
    obtain ⟨a, h₁, h₂, h₃, hm⟩ := exists_moved hr hv hh.coalesced hb hn hsize hz
    have hA := hm.allocated
    have haL := (hA.live a).mpr (Or.inl rfl)
    have hbL := (hA.live b).mpr (Or.inr hb)
    have hba := hA.fresh b hb
    have habounds := hm.stored.bounds hA.valid haL.1
    obtain ⟨hroom, hdisj⟩ := hA.copy_room hb hsize
    obtain ⟨_, _, hask, _⟩ := Pool.blockSize_spec hn
    have hge := hA.size_ge
    have hR := Pool.released hA.valid hA.coalesced hbL
    have hfree := @Row.hasBlock_free _ _ hm.released.toRow hR.valid
    rw [hm.realloc_eq] at heq
    refine ⟨a.bp, h₃, heq, by omega, ⟨a.size, ?_, by omega⟩, fun i hi => hm.copied i (by omega),
      fun _ => ⟨h₁, h₂, a.size, b.size - 16, hcopy.symm, hm.malloc, hm.copy, hm.free,
        hm.stored.hasBlock_live hA.valid hbL, Nat.le_refl _, by omega,
        hm.stored.hasBlock_live hA.valid haL, hroom, hm.changed.mem, hdisj⟩,
      ?_, fun _ => ?_, fun he => absurd he.symm hba⟩
    · exact hm.released.hasBlock_live hR.valid ((hR.live a).mpr ⟨haL, fun he => hba (he ▸ rfl)⟩)
    · intro bp bsize' hl hne
      obtain ⟨c, hc, rfl, rfl⟩ := hh.live_iff.mp hl
      have hcb : c ≠ b := fun he => hne (he ▸ rfl)
      exact ⟨hm.released.hasBlock_live hR.valid
        ((hR.live c).mpr ⟨(hA.live c).mpr (Or.inr hc), hcb⟩), hm.kept c hc hcb⟩
    · obtain ⟨f, hf, hff, hlo, hhi⟩ := Pool.mem_release_free hA.valid hbL
      refine ⟨f.bp, f.size, hfree.mpr ⟨f, hf, hff, rfl, rfl⟩, hlo, hhi, fun bp bsize' hblock => ?_⟩
      obtain ⟨c, hc, hcf, rfl, rfl⟩ := hfree.mp hblock
      exact ⟨hR.coalesced.apart hR.valid hc hcf hf hff, hR.coalesced.apart hR.valid hf hff hc hcf⟩

/-- A session with one block in use. -/
theorem exists_oneBlock : ∃ (s : Session) (bsize : Nat), s.Reachable ∧ s.Live 4128 bsize ∧
    48 ≤ bsize ∧ s.heap.memMaxAddr = 4096 + 2 ^ 20 := by
  have hh := zeroSession_holds
  obtain ⟨h', hx, hstep⟩ := first_malloc hh
  obtain ⟨hr, hh'⟩ := holds_malloc hh (n := 24) (by decide) hx
  rcases Pool.malloc_spec hh.valid hh.coalesced (n := 24) (by decide) with hfail | ⟨a, ha, hA⟩
  · rw [hfail] at hr
    exact absurd hr (by decide)
  have hlive := hh'.live_iff.mpr ⟨a, (hA.live a).mpr (Or.inl rfl), rfl, rfl⟩
  rw [← ha, ← hr] at hlive
  refine ⟨_, a.size, zeroSession_reachable.step hstep, hlive, hA.size_ge, ?_⟩
  calc h'.memMaxAddr = ((Pool.initial zeroHeap.heap zeroHeap.memMaxAddr).malloc 24).2.limit :=
        hh'.represents.limit.symm
    _ = (Pool.initial zeroHeap.heap zeroHeap.memMaxAddr).limit := hA.limit
    _ = 4096 + 2 ^ 20 := by
      rw [Pool.initial, Pool.grow_eq, Pool.coalesce_limit]
      rfl

/-- The first of two blocks is reallocated: to 8 bytes it stays, to 100 bytes it moves. -/
theorem realloc_keeps_data_pair : ∃ s : Session, s.Live 4128 48 ∧ s.Live 4176 48 ∧
    (∃ (r : Nat) (h' : Heap), mmRealloc 4128 8 s.heap = some (r, h') ∧ r % 16 = 0 ∧
      ∀ i < 8, h'.mem (r + i) = s.heap.mem (4128 + i)) ∧
    ∃ (r : Nat) (h' : Heap), mmRealloc 4128 100 s.heap = some (r, h') ∧ r ≠ 4128 ∧
      (∃ rsize, HasBlock h' r rsize 1 ∧ 100 ≤ rsize - 16) ∧
      (∀ i < 32, h'.mem (r + i) = s.heap.mem (4128 + i)) ∧
      (∃ fp fsize, HasBlock h' fp fsize 0 ∧ fp ≤ 4128 ∧ 4128 + 48 ≤ fp + fsize) ∧
      HasBlock h' 4176 48 1 := by
  obtain ⟨s, hs, hh⟩ := exists_pairPool
  obtain ⟨hlive, hlive'⟩ := hh.pair_live
  obtain ⟨_, _, _, hsize, _⟩ := hlive.1
  have hkept : ReallocSucceeds s.heap 4128 8 := by
    refine Or.inr (Or.inl ?_)
    show 32 ≤ sizeAt s.heap 4128 - 16
    omega
  have hmoved : ReallocSucceeds s.heap 4128 100 := by
    obtain ⟨r, h', hx, hr, -⟩ := mmMalloc_returns hh.represents hh.valid (n := 100) (by decide)
    have hr' : r = 4224 := hr.trans (by decide)
    exact Or.inr (Or.inr ⟨r, h', hx, by omega⟩)
  obtain ⟨r, h', hx, halign, -, hdata, -⟩ :=
    realloc_keeps_data hs hlive (by decide) (by decide) hkept
  obtain ⟨q, g, hy, -, hblock, hcopied, -, hothers, hgone, hsame⟩ :=
    realloc_keeps_data hs hlive (by decide) (by decide) hmoved
  have hne : q ≠ 4128 := by
    intro he
    obtain ⟨qsize, ⟨_, _, _, hqsize, _⟩, hge⟩ := hblock
    rw [he, hsame he] at hqsize
    omega
  obtain ⟨fp, fsize, hfree, hlo, hhi, -⟩ := hgone hne
  exact ⟨s, hlive, hlive', ⟨r, h', hx, halign, hdata⟩, q, g, hy, hne, hblock, hcopied,
    ⟨fp, fsize, hfree, hlo, hhi⟩, (hothers 4176 48 hlive' (by decide)).1⟩

end Allocator
end Cmpsc473
