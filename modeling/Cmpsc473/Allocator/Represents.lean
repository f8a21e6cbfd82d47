import Cmpsc473.Allocator.FreeListRemove
import Cmpsc473.Allocator.PoolCalls

/-!
# A pool in memory

`Represents h P` says that the memory of `h` holds the pool `P`: its tags lay
out the row and its links the bins.  The words that the allocator reads as tags
are read here once, and the two ways in which it writes are shown to respect the
row: changes to links, and changes within the extents of some blocks.
-/

namespace Cmpsc473
namespace Allocator

open ByteMemory Total LinkedSegment Tiling

/-- Header and footer hold the tag of the block. -/
def Tagged (h : Heap) (b : Block) : Prop :=
  h.word (b.bp - 8) = b.tag ∧ h.word (b.bp + b.size - 16) = b.tag

/-- The tags in memory lay out the row of `P`, between prologue and epilogue. -/
structure Row (h : Heap) (P : Pool) : Prop where
  heap_pos : 0 < h.heap
  base : P.base = h.heap + 32
  brk : P.brk = h.memBrk
  limit : P.limit = h.memMaxAddr
  heapListp : h.heapListp = h.heap + 16
  tags : ∀ b ∈ P.blocks, Tagged h b
  prologueHeader : h.word (h.heap + 8) = 17
  prologueFooter : h.word (h.heap + 16) = 17
  epilogue : h.word (h.memBrk - 8) = 1

structure Represents (h : Heap) (P : Pool) : Prop extends Row h P where
  listed : Listed h P.bins

/-- The payload of `c` is the same in both. -/
def Kept (h h' : Heap) (c : Block) : Prop :=
  ∀ x, c.bp ≤ x → x < c.bp + c.size - 16 → h'.mem x = h.mem x

theorem Kept.refl (h : Heap) (c : Block) : Kept h h c := fun _ _ _ => rfl

theorem Kept.trans {h₁ h₂ h₃ : Heap} {c : Block} (h12 : Kept h₁ h₂ c) (h23 : Kept h₂ h₃ c) :
    Kept h₁ h₃ c :=
  fun x hx hx' => (h23 x hx hx').trans (h12 x hx hx')

variable {h h' : Heap} {P : Pool} {b c : Block}

theorem Block.tag_size (hs : b.size % 16 = 0) (hlt : b.size < 2 ^ 63) :
    b.tag &&& sizeMask = b.size := by
  have := b.alloc.toNat_le
  unfold Block.tag
  rw [and_sizeMask (by omega)]
  omega

/-- Bit 1 of a tag is not used. -/
theorem Block.tag_bit (hs : b.size % 16 = 0) : b.tag / 2 % 2 = 0 := by
  have := b.alloc.toNat_le
  unfold Block.tag
  omega

theorem Block.tag_alloc (hs : b.size % 16 = 0) : b.tag &&& 1 = b.alloc.toNat := by
  have := b.alloc.toNat_le
  unfold Block.tag
  rw [Nat.and_one_is_mod]
  omega

/-- The word before `bp` is a header with the size `s`. -/
structure Head (h : Heap) (bp s : Nat) : Prop where
  lo : 8 ≤ bp
  end_ge : 16 ≤ bp + s
  end_lt : bp + s < 2 ^ 64
  mapped : h.Mapped (bp - 8) 8
  size : h.word (bp - 8) &&& sizeMask = s

/-- The word two before `bp` is a footer with the size `s`. -/
structure Foot (h : Heap) (bp s : Nat) : Prop where
  lo : 16 ≤ bp
  size_le : s ≤ bp
  lt : bp < 2 ^ 64
  mapped : h.Mapped (bp - 16) 8
  size : h.word (bp - 16) &&& sizeMask = s

section Reading

variable {bp s : Nat} {Q : Nat → Heap → Prop}

theorem Head.hdrp (hh : Head h bp s) : hdrp bp = bp - 8 := by
  have := hh.lo
  have := hh.end_lt
  exact hdrp_eq (by omega) (by omega)

theorem Head.returns_size (hh : Head h bp s) :
    Returns (getSize (Allocator.hdrp bp)) h Q ↔ Q s h := by
  rw [hh.hdrp, returns_getSize, hh.size, and_iff_right hh.mapped]

theorem Head.returns_nextBlkp (hh : Head h bp s) : Returns (nextBlkp bp) h Q ↔ Q (bp + s) h := by
  have := hh.lo
  have hend := hh.end_lt
  unfold nextBlkp
  simp only [returns_bind, ptrSub_eq (p := bp) (n := wsize) hh.lo (by omega), returns_getSize,
    returns_pure]
  rw [show bp - wsize = bp - 8 from rfl, hh.size, ptrAdd_eq hend, and_iff_right hh.mapped]

theorem Head.returns_ftrp (hh : Head h bp s) : Returns (ftrp bp) h Q ↔ Q (bp + s - 16) h := by
  have hge := hh.end_ge
  have hend := hh.end_lt
  unfold ftrp
  simp only [returns_bind, hh.returns_size, returns_pure]
  rw [ptrAdd_eq hend, ptrSub_eq (n := dsize) hge hend]
  rfl

theorem Foot.returns_prevBlkp (hf : Foot h bp s) : Returns (prevBlkp bp) h Q ↔ Q (bp - s) h := by
  unfold prevBlkp
  simp only [returns_bind, ptrSub_eq (p := bp) (n := dsize) hf.lo hf.lt, returns_getSize,
    returns_pure]
  rw [show bp - dsize = bp - 16 from rfl, hf.size, ptrSub_eq hf.size_le hf.lt,
    and_iff_right hf.mapped]

theorem returns_getAlloc {p : Nat} :
    Returns (getAlloc p) h Q ↔ h.Mapped p 8 ∧ Q (h.word p &&& 1) h := by
  unfold getAlloc
  rw [returns_bind, returns_get]
  simp only [returns_pure]

end Reading

/-- Where the blocks of a represented pool are. -/
theorem Row.bounds (hr : Row h P) (hv : P.Valid) (hb : b ∈ P.blocks) :
    h.heap + 32 ≤ b.bp ∧ b.bp + b.size ≤ h.memBrk ∧ h.memBrk ≤ h.memMaxAddr ∧
      h.memMaxAddr ≤ 2 ^ 63 ∧ 32 ≤ b.size ∧ b.size % 16 = 0 ∧ b.bp % 16 = 0 := by
  obtain ⟨hlo, hhi⟩ := hv.tiles.bounds b hb
  obtain ⟨hs, hs16⟩ := hv.sizes b hb
  have hlim := hv.limit_le
  have hbrk := hv.brk_le
  have hal := hv.bp_aligned b hb
  rw [hr.base] at hlo
  rw [hr.brk] at hhi hbrk
  rw [hr.limit] at hlim hbrk
  exact ⟨hlo, hhi, hbrk, hlim, hs, hs16, hal⟩

theorem Row.head (hr : Row h P) (hv : P.Valid) (hb : b ∈ P.blocks) : Head h b.bp b.size := by
  obtain ⟨hlo, hhi, hbrk, hlim, hs, hs16, _⟩ := hr.bounds hv hb
  refine ⟨by omega, by omega, by omega, ?_, ?_⟩
  · unfold Heap.Mapped
    omega
  · rw [(hr.tags b hb).1, Block.tag_size hs16 (by omega)]

theorem Row.header (hr : Row h P) (hv : P.Valid) (hb : b ∈ P.blocks) :
    h.Mapped (b.bp - 8) 8 ∧ h.word (b.bp - 8) &&& 1 = b.alloc.toNat := by
  refine ⟨(hr.head hv hb).mapped, ?_⟩
  rw [(hr.tags b hb).1, Block.tag_alloc (hr.bounds hv hb).2.2.2.2.2.1]

/-- What lies below a block of the row: a block, or the prologue, which is taken. -/
theorem Row.lower (hr : Row h P) (hv : P.Valid) (hb : b ∈ P.blocks) :
    ∃ c : Block, c.bp + c.size = b.bp ∧ h.heap + 16 ≤ c.bp ∧ Head h c.bp c.size ∧
      Foot h b.bp c.size ∧ h.word (c.bp - 8) &&& 1 = c.alloc.toNat ∧
      lowerFree b P.blocks = if c.alloc then [] else [c] := by
  obtain ⟨hlo, hhi, hbrk, hlim, hs, hs16, _⟩ := hr.bounds hv hb
  have htiles := hv.tiles
  rw [hv.split hb, tiles_mid] at htiles
  have hmem : ∀ c ∈ before b P.blocks, c ∈ P.blocks := by
    intro c hc
    rw [hv.split hb]
    exact List.mem_append_left _ hc
  unfold lowerFree
  rcases List.eq_nil_or_concat (before b P.blocks) with hnil | ⟨init, c, hcons⟩
  · rw [hnil] at htiles ⊢
    have hbp : b.bp = h.heap + 32 := by rw [← hr.base]; exact htiles.1.symm
    have hsize : (17 : Nat) &&& sizeMask = 16 := by decide
    refine ⟨⟨h.heap + 16, 16, true⟩, ?_, Nat.le_refl _, ?_, ?_, ?_, rfl⟩
    · simp only
      omega
    · refine ⟨by simp only; omega, by simp only; omega, by simp only; omega, ?_, ?_⟩
      · unfold Heap.Mapped
        simp only
        omega
      · exact hr.prologueHeader ▸ hsize
    · refine ⟨by omega, by simp only; omega, by omega, ?_, ?_⟩
      · unfold Heap.Mapped
        omega
      · rw [hbp]
        exact hr.prologueFooter ▸ hsize
    · show h.word (h.heap + 8) &&& 1 = _
      rw [hr.prologueHeader]
      rfl
  · rw [hcons, List.concat_eq_append] at htiles hmem ⊢
    have hc : c ∈ P.blocks := hmem c (by simp)
    have hend : c.bp + c.size = b.bp := (tiles_mid.mp htiles.1).2
    obtain ⟨hclo, _, _, _, hcs, hcs16, _⟩ := hr.bounds hv hc
    refine ⟨c, hend, by omega, hr.head hv hc, ?_, (hr.header hv hc).2, ?_⟩
    · refine ⟨by omega, by omega, by omega, ?_, ?_⟩
      · unfold Heap.Mapped
        omega
      · rw [← hend, (hr.tags c hc).2, Block.tag_size hcs16 (by omega)]
    · rw [List.getLast?_concat]
      cases hca : c.alloc <;> simp [Option.filter, hca]

/-- What lies above a block of the row: a block, or the epilogue, which is taken. -/
theorem Row.upper (hr : Row h P) (hv : P.Valid) (hb : b ∈ P.blocks) :
    ∃ c : Block, c.bp = b.bp + b.size ∧ Head h c.bp c.size ∧
      h.word (c.bp - 8) &&& 1 = c.alloc.toNat ∧ h.word (c.bp - 8) / 2 % 2 = 0 ∧
      upperFree b P.blocks = if c.alloc then [] else [c] := by
  obtain ⟨hlo, hhi, hbrk, hlim, hs, hs16, _⟩ := hr.bounds hv hb
  have htiles := hv.tiles
  rw [hv.split hb, tiles_mid] at htiles
  have hmem : ∀ c ∈ after b P.blocks, c ∈ P.blocks := by
    intro c hc
    rw [hv.split hb]
    exact List.mem_append_right _ (List.mem_cons_of_mem b hc)
  unfold upperFree
  cases hcase : after b P.blocks with
  | nil =>
    rw [hcase] at htiles
    have hend : b.bp + b.size = h.memBrk := by rw [← hr.brk]; exact htiles.2
    refine ⟨⟨h.memBrk, 0, true⟩, hend.symm, ?_, ?_, ?_, rfl⟩
    · refine ⟨by simp only; omega, by simp only; omega, by simp only; omega, ?_, ?_⟩
      · unfold Heap.Mapped
        simp only
        omega
      · simp only [hr.epilogue]
        decide
    · simp only [hr.epilogue]
      rfl
    · simp only [hr.epilogue]
  | cons c cs =>
    rw [hcase] at htiles hmem
    have hc : c ∈ P.blocks := hmem c List.mem_cons_self
    refine ⟨c, htiles.2.1, hr.head hv hc, (hr.header hv hc).2, ?_, ?_⟩
    · rw [(hr.tags c hc).1, Block.tag_bit (hv.sizes c hc).2]
    · cases hca : c.alloc <;> simp [Option.filter, hca]

/-- The listed blocks of a represented pool can be listed. -/
theorem Row.binsOk (hr : Row h P) (hv : P.Valid) : BinsOk h P.bins := by
  refine { limit := hr.limit ▸ hv.limit_le, fits := ?_, cls := hv.bin_cls, nodup := hv.nodup
           apart := ?_ }
  · intro k b hb
    obtain ⟨hlo, hhi, hbrk, hlim, hs, hs16, hal⟩ := hr.bounds hv ((hv.mem_bins k b).mp hb).1
    exact ⟨hal, by omega, by omega, by omega, by omega⟩
  · intro j k b hb c hc
    have hb := ((hv.mem_bins j b).mp hb).1
    have hc := ((hv.mem_bins k c).mp hc).1
    have := (hv.sizes b hb).1
    have := (hv.sizes c hc).1
    rcases hv.tiles.ordered hb hc with he | he | he
    · exact Or.inl he
    · exact Or.inr (Or.inl (by omega))
    · exact Or.inr (Or.inr (by omega))

variable {bins : Nat → List Block}

/-- No tag lies in the links of a block of the row. -/
theorem Row.linkFrame (hr : Row h P) (hv : P.Valid) (hsub : ∀ k, ∀ b ∈ bins k, b ∈ P.blocks)
    (hf : LinkFrame bins h h') : Row h' P := by
  have hword : ∀ p, (∀ b ∈ P.blocks, p + 8 ≤ b.bp ∨ b.bp + 16 ≤ p) → h'.word p = h.word p :=
    fun p hp => hf.word (fun k b hb => hp b (hsub k b hb))
  refine {
    heap_pos := hf.heap ▸ hr.heap_pos
    base := hf.heap ▸ hr.base
    brk := hf.memBrk ▸ hr.brk
    limit := hf.memMaxAddr ▸ hr.limit
    heapListp := by rw [hf.heapListp, hf.heap, hr.heapListp]
    tags := ?_
    prologueHeader := ?_
    prologueFooter := ?_
    epilogue := ?_ }
  · intro c hc
    have hcs := (hv.sizes c hc).1
    unfold Tagged
    rw [hword, hword]
    · exact hr.tags c hc
    · intro b hb
      have := (hv.sizes b hb).1
      rcases hv.tiles.ordered hb hc with rfl | he | he <;> omega
    · intro b hb
      have := (hr.bounds hv hc).1
      have := (hv.sizes b hb).1
      rcases hv.tiles.ordered hb hc with rfl | he | he <;> omega
  · rw [hf.heap, hword _ (fun b hb => by have := (hr.bounds hv hb).1; omega)]
    exact hr.prologueHeader
  · rw [hf.heap, hword _ (fun b hb => by have := (hr.bounds hv hb).1; omega)]
    exact hr.prologueFooter
  · rw [hf.memBrk, hword _ (fun b hb => by have := hr.bounds hv hb; omega)]
    exact hr.epilogue

/-- Links lie in free blocks, so payloads in use keep their bytes. -/
theorem LinkFrame.kept (hf : LinkFrame bins h h') (hv : P.Valid)
    (hsub : ∀ k, ∀ b ∈ bins k, b ∈ P.blocks ∧ b.alloc = false) (hc : P.Live c) :
    Kept h h' c := by
  intro x hx hx'
  refine hf.mem x (fun k b hb => ?_)
  obtain ⟨hbm, hba⟩ := hsub k b hb
  have := (hv.sizes b hbm).1
  rcases hv.tiles.ordered hbm hc.1 with rfl | he | he
  · rw [hc.2] at hba
    cases hba
  · omega
  · omega

/-- `h'` differs from `h` in the bytes of `[lo, hi)` only. -/
structure ChangedIn (lo hi : Nat) (h h' : Heap) : Prop where
  heap : h'.heap = h.heap
  memBrk : h'.memBrk = h.memBrk
  memMaxAddr : h'.memMaxAddr = h.memMaxAddr
  heapListp : h'.heapListp = h.heapListp
  segList : h'.segList = h.segList
  mem : ∀ x, x < lo ∨ hi ≤ x → h'.mem x = h.mem x

theorem ChangedIn.refl (lo hi : Nat) (h : Heap) : ChangedIn lo hi h h :=
  ⟨rfl, rfl, rfl, rfl, rfl, fun _ _ => rfl⟩

/-- One more store in the same bytes. -/
theorem ChangedIn.store {lo hi p n v : Nat} (hc : ChangedIn lo hi h h') (hlo : lo ≤ p)
    (hhi : p + n ≤ hi) : ChangedIn lo hi h (h'.store p n v) :=
  ⟨hc.heap, hc.memBrk, hc.memMaxAddr, hc.heapListp, hc.segList, fun x hx => by
    rw [h'.mem_store_of_outside (by omega), hc.mem x hx]⟩

theorem ChangedIn.mono {lo hi lo' hi' : Nat} (hc : ChangedIn lo hi h h') (hlo : lo' ≤ lo)
    (hhi : hi ≤ hi') : ChangedIn lo' hi' h h' :=
  ⟨hc.heap, hc.memBrk, hc.memMaxAddr, hc.heapListp, hc.segList, fun x hx => hc.mem x (by omega)⟩

theorem ChangedIn.trans {lo hi : Nat} {h₁ h₂ h₃ : Heap} (h12 : ChangedIn lo hi h₁ h₂)
    (h23 : ChangedIn lo hi h₂ h₃) : ChangedIn lo hi h₁ h₃ :=
  ⟨h23.heap.trans h12.heap, h23.memBrk.trans h12.memBrk, h23.memMaxAddr.trans h12.memMaxAddr,
    h23.heapListp.trans h12.heapListp, h23.segList.trans h12.segList,
    fun x hx => (h23.mem x hx).trans (h12.mem x hx)⟩

theorem ChangedIn.word {lo hi p : Nat} (hc : ChangedIn lo hi h h') (hp : p + 8 ≤ lo ∨ hi ≤ p) :
    h'.word p = h.word p :=
  Heap.word_congr (fun x hx hx' => hc.mem x (by omega))

section Replace

variable {l mid r : List Block} {lo hi : Nat} (hr : Row h P) (hv : P.Valid)
  (hP : P.blocks = l ++ mid ++ r) (hl : Tiles Block.bp Block.size P.base l lo)
  (hm : Tiles Block.bp Block.size lo mid hi) (hrt : Tiles Block.bp Block.size hi r P.brk)
  (hc : ChangedIn (lo - 8) (hi - 8) h h')

include hP hl hrt in
/-- A block on either side ends before the changed bytes or begins after them. -/
theorem beside (b : Block) (hb : b ∈ l ∨ b ∈ r) :
    b ∈ P.blocks ∧ (b.bp + b.size ≤ lo ∨ hi ≤ b.bp) := by
  rcases hb with hb | hb
  · exact ⟨by rw [hP]; simp [hb], Or.inl (hl.bounds b hb).2⟩
  · exact ⟨by rw [hP]; simp [hb], Or.inr (hrt.bounds b hb).1⟩

include hr hv hP hl hm hrt hc

/-- Blocks whose tags are written within the extents of `mid` take its place. -/
theorem Row.replace (mid' : List Block) (hmid : ∀ b ∈ mid', Tagged h' b) (bins : Nat → List Block) :
    Row h' { P with blocks := l ++ mid' ++ r, bins := bins } := by
  have hlo := hl.le
  have hmle := hm.le
  have hrle := hrt.le
  have hbase := hr.base
  have hbrk := hr.brk
  refine {
    heap_pos := hc.heap ▸ hr.heap_pos
    base := hc.heap ▸ hr.base
    brk := hc.memBrk ▸ hr.brk
    limit := hc.memMaxAddr ▸ hr.limit
    heapListp := by rw [hc.heapListp, hc.heap, hr.heapListp]
    tags := ?_
    prologueHeader := ?_
    prologueFooter := ?_
    epilogue := ?_ }
  · have hside : ∀ b, b ∈ l ∨ b ∈ r → Tagged h' b := by
      intro b hb
      obtain ⟨hbP, hbs⟩ := beside hP hl hrt b hb
      have := hr.bounds hv hbP
      unfold Tagged
      rw [hc.word (by omega), hc.word (by omega)]
      exact hr.tags b hbP
    intro b hb
    simp only [List.mem_append] at hb
    rcases hb with (hb | hb) | hb
    · exact hside b (Or.inl hb)
    · exact hmid b hb
    · exact hside b (Or.inr hb)
  · rw [hc.heap, hc.word (by omega)]
    exact hr.prologueHeader
  · rw [hc.heap, hc.word (by omega)]
    exact hr.prologueFooter
  · rw [hc.memBrk, hc.word (by omega)]
    exact hr.epilogue

omit hm in
/-- Lists whose blocks lie on either side are not changed. -/
theorem Listed.replace (hlist : Listed h bins) (hside : ∀ k, ∀ b ∈ bins k, b ∈ l ∨ b ∈ r) :
    Listed h' bins := by
  have hword : ∀ k, ∀ b ∈ bins k, h'.word b.bp = h.word b.bp ∧
      h'.word (b.bp + 8) = h.word (b.bp + 8) ∧ h'.word (b.bp - 8) = h.word (b.bp - 8) := by
    intro k b hb
    obtain ⟨hbP, hbs⟩ := beside hP hl hrt b (hside k b hb)
    have := hr.bounds hv hbP
    refine ⟨hc.word ?_, hc.word ?_, hc.word ?_⟩ <;> omega
  refine { heads := fun k hk => ?_, links := fun k hk => ?_, sizes := fun k b hb => ?_ }
  · rw [hc.segList, hlist.heads k hk]
  · refine (hlist.links k hk).congr (fun x hx => ?_) (fun x hx => ?_)
    · obtain ⟨b, hb, rfl⟩ := List.mem_map.mp hx
      exact (hword k b hb).1
    · obtain ⟨b, hb, rfl⟩ := List.mem_map.mp hx
      exact (hword k b hb).2.1
  · rw [(hword k b hb).2.2, hlist.sizes k b hb]

omit hm in
theorem ChangedIn.kept (hb : b ∈ l ∨ b ∈ r) : Kept h h' b := by
  obtain ⟨hbP, hbs⟩ := beside hP hl hrt b hb
  have := hr.bounds hv hbP
  exact fun x hx hx' => hc.mem x (by omega)

end Replace

end Allocator
end Cmpsc473
