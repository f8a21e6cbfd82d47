import Cmpsc473.Allocator.Failure

/-!
# Requests near the end of the address space

`size + 16` and the rounding in `align` are unsigned and not checked.  The last
31 sizes wrap: `malloc` then looks for a block of size 16 or 0, and `realloc`
keeps a block that is too small.
-/

namespace Cmpsc473
namespace Allocator

open ByteMemory Total Tiling Transition

variable {h₀ h h' : Heap} {s : Session} {P : Pool} {b : Block}

/-- A block that is not split is placed whole, whatever the size asked for. -/
theorem place_whole (hr : Row h P) (hv : P.Valid) (hb : b ∈ P.blocks) {asize : Nat}
    (hfit : asize ≤ b.size) (hsmall : b.size - asize ≤ 32) :
    place b.bp asize h = place b.bp b.size h := by
  have hsize := (hr.head hv hb).getSize_eq
  have hbounds := hr.bounds hv hb
  have hrem : (b.size + (2 ^ 64 - asize)) % 2 ^ 64 ≤ dsize * 2 := by
    unfold dsize
    omega
  have hrem' : (b.size + (2 ^ 64 - b.size)) % 2 ^ 64 ≤ dsize * 2 := by
    unfold dsize
    omega
  unfold place
  rw [bind_of_some hsize, bind_of_some hsize, if_pos hrem, if_pos hrem']

/-- Sixteen bytes are split off a larger block. -/
theorem place_sixteen_split (hs : Stage h₀ P P.bins h) (hv : P.Valid) (hb : b ∈ P.blocks)
    (hf : b.alloc = false) (hlarge : 48 < b.size) :
    Returns (place b.bp 16) h (fun _ h' => sizeAt h' b.bp ≤ 48) := by
  have hbounds := hs.row.bounds hv hb
  refine place_split hs hv hb hf (Nat.le_refl _) (by decide) (by omega) (fun h₁ hs₁ => ?_)
  have hothers := eraseBin_others (b := b) hv
  have htagged := splitTags_tagged (b := b) (Nat.le_refl 16) (by omega) (by omega)
    (by omega) h₁
  obtain ⟨_, hl, _⟩ := hs₁.retag hv hb hothers (splitTags h₁ b 16) (splitBlocks b 16)
    (splitTags_changed (Nat.le_refl _) (by omega) h₁) htagged P.bins
  have hok := (hs₁.row.binsOk hv).sub (hv.among.erase b).1 (hv.among.erase b).2
  have hok' : BinsOk (splitTags h₁ b 16) (eraseBin P.bins b) :=
    hok.moved rfl rfl
  have hapart : ∀ k, ∀ c ∈ eraseBin P.bins b k,
      c.bp + 32 ≤ b.bp ∨ b.bp + b.size ≤ c.bp := by
    intro k c hc
    obtain ⟨hcb, hne⟩ := hothers k c hc
    have hcm := ((hv.mem_bins k c).mp hcb).1
    have := (hv.sizes c hcm).1
    rcases hv.tiles.ordered hb hcm with he | he | he
    · exact absurd he.symm hne
    · exact Or.inr he
    · exact Or.inl (by omega)
  have hnew := htagged ⟨b.bp + 16, b.size - 16, false⟩ (by simp [splitBlocks])
  have hhead := htagged ⟨b.bp, 16, true⟩ (by simp [splitBlocks])
  have hbounds₁ := hs₁.row.bounds hv hb
  have hfits : Fits (splitTags h₁ b 16) ⟨b.bp + 16, b.size - 16, false⟩ := by
    refine ⟨?_, ?_, ?_, ?_, ?_⟩
    · show (b.bp + 16) % 16 = 0
      omega
    · show h₁.heap + 8 ≤ b.bp + 16
      omega
    · show b.bp + 16 + 16 ≤ h₁.memMaxAddr
      omega
    · show 0 < b.size - 16
      omega
    · show b.size - 16 < 2 ^ 64
      omega
  have hfar : ∀ k, ∀ c ∈ eraseBin P.bins b k, b.bp + 48 ≤ c.bp ∨ c.bp + 32 ≤ b.bp := by
    intro k c hc
    rcases hapart k c hc with he | he
    · exact Or.inr he
    · exact Or.inl (by omega)
  have hu : Unlisted (eraseBin P.bins b) ⟨b.bp + 16, b.size - 16, false⟩ := by
    refine ⟨fun k hk => ?_, fun k c hc => ?_⟩
    · have := hfar k _ hk
      simp only at this
      omega
    · rcases hfar k c hc with he | he
      · exact Or.inr (Or.inl (by show b.bp + 16 + 32 ≤ c.bp; omega))
      · exact Or.inr (Or.inr (by show c.bp + 32 ≤ b.bp + 16; omega))
  have hword : (splitTags h₁ b 16).word (b.bp + 16 - 8) &&& sizeMask = b.size - 16 := by
    rw [hnew.1, Block.tag_size]
    · show (b.size - 16) % 16 = 0
      omega
    · show b.size - 16 < 2 ^ 63
      omega
  refine (nodeAdd_returns hl hok' hfits hu hword).mono (fun _ h' hpost => ?_)
  have hkept : h'.word (b.bp - 8) = (splitTags h₁ b 16).word (b.bp - 8) := by
    refine hpost.2.word (fun k c hc => ?_)
    rcases mem_insertBin.mp hc with ⟨rfl, _⟩ | hc
    · exact Or.inl (by show b.bp - 8 + 8 ≤ b.bp + 16; omega)
    · rcases hfar k c hc with he | he <;> omega
  have htag : (splitTags h₁ b 16).word (b.bp - 8) = 17 := hhead.1
  unfold sizeAt
  rw [hkept, htag]
  decide

/-- Sixteen bytes are placed in any free block, in sixteen bytes of it or in all
of a small one. -/
theorem place_sixteen (hs : Stage h₀ P P.bins h) (hv : P.Valid) (hb : b ∈ P.blocks)
    (hf : b.alloc = false) :
    Returns (place b.bp 16) h (fun _ h' => sizeAt h' b.bp ≤ 48) := by
  have hbounds := hs.row.bounds hv hb
  by_cases hsmall : b.size ≤ 48
  · have hplace := place_returns hs hv hb hf (Nat.le_refl _) (by omega) (by omega)
    have hwhole := place_whole hs.row hv hb (by omega : 16 ≤ b.size) (by omega)
    obtain ⟨⟨⟩, h', hx, hr', _⟩ := hplace
    refine ⟨(), h', hwhole.trans hx, ?_⟩
    have hmem := (Pool.mem_place_alloc hv hb hf b.size (c := Pool.placed b b.size) rfl).mpr
      (Or.inl rfl)
    have hsize := hr'.sizeAt_eq (Pool.valid_place hv hb (Nat.le_refl _) (by omega) (by omega)) hmem
    show sizeAt h' (Pool.placed b b.size).bp ≤ 48
    rw [hsize]
    unfold Pool.placed
    simp only [Nat.sub_self, Nat.zero_le, if_true]
    exact hsmall
  · exact place_sixteen_split hs hv hb hf (by omega)

theorem requestSize_wraps {size : Nat} (hlo : 2 ^ 64 ≤ size + 31) (hlt : size < 2 ^ 64) :
    requestSize size = 0 ∧ size + 16 ≤ 2 ^ 64 ∨ requestSize size = 16 ∧ 2 ^ 64 < size + 16 := by
  unfold requestSize align dsize alignment
  rw [if_neg (by omega)]
  omega

/-- A size that wraps to 16 gets a block of at most 48 bytes. -/
theorem Represents.malloc_sixteen (hr : Represents h P) (hv : P.Valid) {size : Nat} (h1 : 1 ≤ size)
    (hask : requestSize size = 16) (hroom : ¬ NoRoom h size) :
    ∃ r h', mmMalloc size h = some (r, h') ∧ r ≠ 0 ∧ sizeAt h' r ≤ 48 := by
  have hfree := @Row.hasBlock_free _ _ hr.toRow hv
  have hplace : ∀ {Q : Pool} {h₁ : Heap} {c : Block}, Stage h Q Q.bins h₁ → Q.Valid →
      c ∈ Q.blocks → c.alloc = false →
      ∃ r h', (do place c.bp 16; return c.bp : Mm Nat) h₁ = some (r, h') ∧ r ≠ 0 ∧
        sizeAt h' r ≤ 48 := by
    intro Q h₁ c hs₁ hQ hc hcf
    obtain ⟨⟨⟩, h', hx, hsize⟩ := place_sixteen hs₁ hQ hc hcf
    have := (hs₁.row.bounds hQ hc).1
    exact ⟨c.bp, h', bind_of_some hx, by omega, hsize⟩
  obtain ⟨r, h₁, hx, hh₁, hspec⟩ := hv.findFit_spec hr (by decide : 0 < 16) (by decide)
  subst hh₁
  rw [mmMalloc_eq h1, hask, bind_of_some hx]
  cases hfit : P.fit 16 with
  | some b =>
    rw [hfit] at hspec
    obtain ⟨rfl, hne, ⟨hb, hf⟩, _⟩ := hspec
    rw [if_neg hne]
    exact hplace hr.stage hv hb hf
  | none =>
    rw [hfit] at hspec
    obtain ⟨rfl, hnone⟩ := hspec
    have hmax : max 16 chunkSize = chunkSize := by decide
    have hgrow : P.brk + chunkSize ≤ P.limit := by
      by_contra hno
      refine hroom ⟨by omega, ?_, ?_⟩
      · rintro ⟨bp, bsize, hblock, hle⟩
        obtain ⟨c, hc, hcf, _, rfl⟩ := hfree.mp hblock
        have := hnone c hc hcf
        omega
      · rwa [hask, hmax, ← hr.brk, ← hr.limit]
    obtain ⟨r, h₂, hx₂, hpost⟩ := extendHeap_returns hr hv chunkSize (by decide) (by decide)
      (by decide)
    rw [if_pos hgrow] at hpost
    obtain ⟨rfl, hs₂⟩ := hpost
    have hvg := Pool.valid_grow hv (by decide) (by decide) hgrow
    obtain ⟨hbg, hfg, _⟩ := Pool.grow_fst hv (by decide) (by decide) hgrow
    have hne : (P.grow chunkSize).1.bp ≠ 0 := by
      have := (hs₂.row.bounds hvg hbg).1
      omega
    rw [if_pos rfl, max64_eq, hmax, bind_of_some hx₂, if_neg hne]
    exact hplace hs₂ hvg hbg hfg

/-- `malloc(size)` uses `seg_list` within its 61 entries: `find_fit` begins at a
list that exists, and the call is defined, which it is not where an index is out
of range. -/
def MallocIndexed (h : Heap) (size : Nat) : Prop :=
  size = 0 ∨ (0 ≤ selectList (requestSize size) ∧ (mmMalloc size h).isSome)

/-- If `malloc(size)` returns a block, it has the capacity. -/
structure MallocFits (h : Heap) (size : Nat) : Prop where
  room : ∀ p h', mmMalloc size h = some (p, h') → p ≠ 0 → size ≤ sizeAt h' p - 16
  indexed : MallocIndexed h size

/-- If `realloc(oldptr, size)` returns a block, it has the capacity; and the calls
of `malloc` and `free` in it use `seg_list` within its entries. -/
structure ReallocFits (h : Heap) (oldptr size : Nat) : Prop where
  room : ∀ p h', mmRealloc oldptr size h = some (p, h') → p ≠ 0 → size ≤ sizeAt h' p - 16
  indexedFree : size = 0 → (mmFree oldptr h).isSome
  indexed : size ≠ 0 → ¬ keepAsk size ≤ (sizeAt h oldptr + (2 ^ 64 - alignment)) % 2 ^ 64 →
    MallocIndexed h size ∧ ∀ newptr h₁ h₂, mmMalloc size h = some (newptr, h₁) →
      memMemcpy newptr oldptr (copySize (sizeAt h oldptr) size) h₁ = some ((), h₂) →
      (mmFree oldptr h₂).isSome

theorem isSome_of_returns {α : Type} {x : Mm α} {Q : α → Heap → Prop} (hx : Returns x h Q) :
    (x h).isSome := by
  obtain ⟨a, h', hx, _⟩ := hx
  rw [hx]
  rfl

theorem Holds.malloc_fits (hh : Holds s P) {size : Nat} (hn : size + 31 < 2 ^ 64) :
    MallocFits s.heap size := by
  obtain ⟨hmin, _, hask, hlt⟩ := Pool.blockSize_spec hn
  have hreturns := mmMalloc_returns hh.represents hh.valid hn
  refine ⟨fun p h' hx hp => ?_, Or.inr ⟨?_, isSome_of_returns hreturns⟩⟩
  · obtain ⟨rfl, hr', _⟩ := (returns_of_eq hx).mp hreturns
    rcases Pool.malloc_spec hh.valid hh.coalesced hn with hfail | ⟨a, ha, hA⟩
    · rw [hfail] at hp
      exact absurd rfl hp
    · have := hA.size_ge
      rw [ha, hr'.sizeAt_eq hA.valid ((hA.live a).mpr (Or.inl rfl)).1]
      omega
  · rw [show requestSize size = Pool.blockSize size from blockSize_eq hn,
      selectList_eq (by omega) hlt]
    exact Int.natCast_nonneg _

theorem Represents.malloc_fits_iff (hr : Represents h P) (hv : P.Valid) {size : Nat}
    (hlo : 2 ^ 64 ≤ size + 31) (hlt : size < 2 ^ 64) : MallocFits h size ↔ NoRoom h size := by
  have h1 : 1 ≤ size := by omega
  constructor
  · rintro ⟨hroom, hindexed⟩
    by_contra hno
    rcases requestSize_wraps hlo hlt with ⟨hask, _⟩ | ⟨hask, _⟩
    · rcases hindexed with h0 | ⟨hsel, _⟩
      · omega
      · rw [hask] at hsel
        exact absurd hsel (by decide)
    · obtain ⟨r, h', hx, hne, hsize⟩ := hr.malloc_sixteen hv h1 hask hno
      have := hroom r h' hx hne
      omega
  · intro hno
    have hx := (hr.malloc_null hv h1).1 hno
    refine ⟨fun p h' hx' hp => ?_, Or.inr ⟨?_, ?_⟩⟩
    · rw [hx] at hx'
      cases hx'
      exact absurd rfl hp
    · rw [selectList_eq hno.1 (requestSize_spec size).2]
      exact Int.natCast_nonneg _
    · rw [hx]
      rfl

theorem reallocMove_eq_some {oldptr size n p : Nat}
    (hx : reallocMove oldptr size n h = some (p, h')) :
    ∃ h₁ h₂, mmMalloc size h = some (p, h₁) ∧ memMemcpy p oldptr n h₁ = some ((), h₂) ∧
      mmFree oldptr h₂ = some ((), h') := by
  obtain ⟨q, h₁, hmalloc, hx⟩ := bind_eq_some.mp hx
  obtain ⟨⟨⟩, h₂, hcopy, hx⟩ := bind_eq_some.mp hx
  obtain ⟨⟨⟩, h₃, hfree, hret⟩ := bind_eq_some.mp hx
  cases hret
  exact ⟨h₁, h₂, hmalloc, hcopy, hfree⟩

/-- Where `realloc` has got past its copy, it moves the block. -/
theorem Holds.moved (hh : Holds s P) (hb : P.Live b) {size p : Nat} {h₁ h₂ : Heap}
    (hn : size + 31 < 2 ^ 64) (hkeep : ¬ keepAsk size ≤ b.size - 16)
    (hx : mmMalloc size s.heap = some (p, h₁))
    (hcopy : memMemcpy p b.bp (b.size - 16) h₁ = some ((), h₂)) :
    ∃ a h₃, p = a.bp ∧ Moved s.heap P b size a h₁ h₂ h₃ := by
  have hr := hh.represents
  have hv := hh.valid
  obtain ⟨rfl, hr₁, _, _⟩ := (returns_of_eq hx).mp (mmMalloc_returns hr hv hn)
  have hz : (P.malloc size).1 ≠ 0 := by
    intro h0
    rw [h0] at hcopy
    rcases Pool.malloc_spec hv hh.coalesced hn with hfail | ⟨a, ha, hA⟩
    · rw [hfail] at hr₁
      have hbounds := hr₁.bounds hv hb.1
      have hm : h₁.Mapped b.bp 8 := by
        unfold Heap.Mapped
        omega
      rw [hr₁.memMemcpy_null hv (by omega) hm] at hcopy
      cases hcopy
    · have := (hr₁.bounds hA.valid ((hA.live a).mpr (Or.inl rfl)).1).1
      omega
  obtain ⟨a, h₁', h₂', h₃, hm⟩ := exists_moved hr hv hh.coalesced hb hn
    (by rwa [← keepSize_eq hn]) hz
  have he₁ := hm.malloc.symm.trans hx
  simp only [Option.some.injEq, Prod.mk.injEq] at he₁
  obtain ⟨ha, rfl⟩ := he₁
  have he₂ := hm.copy
  rw [ha, hcopy] at he₂
  cases he₂
  exact ⟨a, h₃, ha.symm, hm⟩

theorem Holds.realloc_fits (hh : Holds s P) (hb : P.Live b) {size : Nat}
    (hn : size + 31 < 2 ^ 64) : ReallocFits s.heap b.bp size := by
  have hr := hh.represents
  have hv := hh.valid
  have hsizeAt := hr.sizeAt_eq hv hb.1
  have hbounds := hr.bounds hv hb.1
  refine ⟨fun p h' hx hp => ?_, fun _ => isSome_of_returns (mmFree_returns hr hv hb), ?_⟩
  · by_cases h0 : size = 0
    · omega
    rw [hr.mmRealloc_eq hv hb h0] at hx
    by_cases hkeep : keepAsk size ≤ b.size - 16
    · rw [if_pos hkeep] at hx
      cases hx
      have hge := keepSize_ge size
      rw [keepSize_eq hn] at hkeep
      omega
    · rw [if_neg hkeep, hr.copySize_eq hv hb hkeep] at hx
      obtain ⟨h₁, h₂, hmalloc, hcopy, hfree⟩ := reallocMove_eq_some hx
      obtain ⟨a, h₃, rfl, hm⟩ := hh.moved hb hn hkeep hmalloc hcopy
      have hA := hm.allocated
      have hbL := (hA.live b).mpr (Or.inr hb)
      have hR := Pool.released hA.valid hA.coalesced hbL
      have haL := (hR.live a).mpr ⟨(hA.live a).mpr (Or.inl rfl), fun he =>
        hA.fresh b hb (he ▸ rfl)⟩
      have heq := hm.free.symm.trans hfree
      simp only [Option.some.injEq, Prod.mk.injEq, true_and] at heq
      subst heq
      have := hA.size_ge
      have := Pool.blockSize_spec hn
      rw [hm.released.sizeAt_eq hR.valid haL.1]
      omega
  · intro h0 hkeep
    rw [hsizeAt, hr.oldsize hv hb] at hkeep
    rw [hsizeAt, hr.copySize_eq hv hb hkeep]
    refine ⟨(hh.malloc_fits hn).indexed, fun p h₁ h₂ hmalloc hcopy => ?_⟩
    obtain ⟨a, h₃, _, hm⟩ := hh.moved hb hn hkeep hmalloc hcopy
    rw [hm.free]
    rfl

/-- A block is never large enough for a size that wraps. -/
theorem Represents.realloc_wraps (hr : Represents h P) (hv : P.Valid) (hb : P.Live b) {size : Nat}
    (hlo : 2 ^ 64 ≤ size + 31) (hlt : size < 2 ^ 64) : ¬ ReallocFits h b.bp size := by
  rintro ⟨hroom, _, hindexed⟩
  have hbounds := hr.bounds hv hb.1
  have h0 : size ≠ 0 := by omega
  have hx := hr.mmRealloc_eq hv hb h0
  by_cases hkeep : keepAsk size ≤ b.size - 16
  · -- the block is kept, although it is too small
    rw [if_pos hkeep] at hx
    have := hroom b.bp h hx (by omega)
    rw [hr.sizeAt_eq hv hb.1] at this
    omega
  · -- `malloc` is reached, with a size that wraps to 0
    have hask : requestSize size = 0 := by
      rcases requestSize_wraps hlo hlt with ⟨hask, _⟩ | ⟨_, hhi⟩
      · exact hask
      · unfold keepAsk align dsize alignment at hkeep
        rw [if_neg (by omega)] at hkeep
        omega
    have hold := hr.oldsize hv hb
    rw [← hold, ← hr.sizeAt_eq hv hb.1] at hkeep
    obtain ⟨h0' | ⟨hsel, _⟩, _⟩ := hindexed h0 hkeep
    · exact h0 h0'
    · rw [hask] at hsel
      exact absurd hsel (by decide)

/-- **Which sizes wrap.** `malloc` is right about every size below 2 ^ 64 - 31.
About a larger one it is right only where it finds no room even for the size that
it wraps to, and `realloc` is never right about it. -/
theorem no_size_wraps_iff (hs : s.Reachable) {size : Nat} (hlt : size < 2 ^ 64) :
    (MallocFits s.heap size ↔ size + 31 < 2 ^ 64 ∨ NoRoom s.heap size) ∧
      ∀ oldptr bsize, s.Live oldptr bsize →
        (ReallocFits s.heap oldptr size ↔ size + 31 < 2 ^ 64) := by
  obtain ⟨P, hh⟩ := hs.holds
  constructor
  · by_cases hn : size + 31 < 2 ^ 64
    · exact iff_of_true (hh.malloc_fits hn) (Or.inl hn)
    · rw [hh.represents.malloc_fits_iff hh.valid (by omega) hlt]
      exact ⟨Or.inr, fun hor => hor.resolve_left hn⟩
  · intro oldptr bsize hlive
    obtain ⟨b, hb, rfl, rfl⟩ := hh.live_iff.mp hlive
    by_cases hn : size + 31 < 2 ^ 64
    · exact iff_of_true (hh.realloc_fits hb hn) hn
    · exact iff_of_false (hh.represents.realloc_wraps hh.valid hb (by omega) hlt) hn

theorem no_size_wraps_iff_zeroSession :
    MallocFits zeroSession.heap (2 ^ 64 - 16) ↔
      2 ^ 64 - 16 + 31 < 2 ^ 64 ∨ NoRoom zeroSession.heap (2 ^ 64 - 16) :=
  (no_size_wraps_iff zeroSession_reachable (by decide)).1

/-- A request of 2 ^ 64 - 1 bytes gets a block of at most 48 bytes, one of
2 ^ 64 - 16 bytes indexes `seg_list` with -1, and a block of any size is large
enough for a reallocation to 2 ^ 64 - 1 bytes. -/
theorem size_wraps :
    zeroSession.Reachable ∧
    (∃ r h', mmMalloc (2 ^ 64 - 1) zeroSession.heap = some (r, h') ∧ r ≠ 0 ∧
      ¬ 2 ^ 64 - 1 ≤ sizeAt h' r - 16) ∧
    ¬ MallocIndexed zeroSession.heap (2 ^ 64 - 16) ∧
    ∃ (s : Session) (bsize : Nat), s.Reachable ∧ s.Live 4128 bsize ∧
      ¬ ReallocFits s.heap 4128 (2 ^ 64 - 1) := by
  have hz := zeroSession_holds
  refine ⟨zeroSession_reachable, ?_, ?_, ?_⟩
  · have hroom : ¬ NoRoom zeroSession.heap (2 ^ 64 - 1) := by
      -- room for sixteen bytes is lacking only where room for 24 is
      rintro ⟨_, hnone, hgrow⟩
      have hask : requestSize (2 ^ 64 - 1) = 16 := by decide
      have hask' : requestSize 24 = 48 := by decide
      have hmax : max 16 chunkSize = chunkSize := by decide
      have hmax' : max 48 chunkSize = chunkSize := by decide
      rw [hask, hmax] at hgrow
      have hno : NoRoom zeroSession.heap 24 := by
        refine ⟨by omega, fun ⟨bp, bsize, hblock, hle⟩ => hnone ⟨bp, bsize, hblock, by omega⟩, ?_⟩
        rwa [hask', hmax']
      obtain ⟨h', hx, _⟩ := first_malloc hz
      rw [(hz.represents.malloc_null hz.valid (by decide)).1 hno] at hx
      exact absurd (congrArg Prod.fst (Option.some.inj hx)) (show (0 : Nat) ≠ 4128 by decide)
    obtain ⟨r, h', hx, hne, hsize⟩ :=
      hz.represents.malloc_sixteen hz.valid (by decide : 1 ≤ 2 ^ 64 - 1) (by decide) hroom
    exact ⟨r, h', hx, hne, by omega⟩
  · rintro (h0 | ⟨hsel, _⟩)
    · exact absurd h0 (by decide)
    · exact absurd hsel (by decide)
  · obtain ⟨s, bsize, hs, hlive, _⟩ := exists_oneBlock
    obtain ⟨P, hh⟩ := hs.holds
    obtain ⟨b, hb, hbp, rfl⟩ := hh.live_iff.mp hlive
    refine ⟨s, b.size, hs, hlive, ?_⟩
    rw [← hbp]
    exact hh.represents.realloc_wraps hh.valid hb (by decide) (by decide)

end Allocator
end Cmpsc473
