import Cmpsc473.Allocator.HeapShape
import Cmpsc473.Allocator.NodeLists

/-!
# What merging restores

The invariant of the heap in terms of its bytes: the blocks of a row, by their payload
pointers, tile the heap, and the lists hold the free ones.  A heap that satisfies it is a
valid pool in memory, and the other way round, so what `Pool.coalesce` does to a pool is
what `coalesce` does to the bytes, also from a heap that no run of calls has led to.
-/

namespace Cmpsc473
namespace Allocator

open ByteMemory Total LinkedSegment Tiling

/-- The blocks of `row` tile the heap between prologue and epilogue, header and footer of
each hold its size and its bit. -/
structure Tiled (h : Heap) (row : List Nat) : Prop where
  heap_pos : 0 < h.heap
  aligned : h.heap % 16 = 0
  brk_le : h.memBrk ≤ h.memMaxAddr
  limit : h.memMaxAddr ≤ 2 ^ 63
  heapListp : h.heapListp = h.heap + 16
  prologueHeader : h.word (h.heap + 8) = pack dsize 1
  prologueFooter : h.word (h.heap + 16) = pack dsize 1
  epilogue : h.word (h.memBrk - 8) = pack 0 1
  tiles : Tiles id (sizeAt h) (h.heap + 32) row h.memBrk
  sizes : ∀ bp ∈ row, 32 ≤ sizeAt h bp ∧ sizeAt h bp % 16 = 0
  header : ∀ bp ∈ row, h.word (bp - 8) = pack (sizeAt h bp) (allocAt h bp)
  footer : ∀ bp ∈ row, h.word (bp + sizeAt h bp - 16) = pack (sizeAt h bp) (allocAt h bp)

/-- The lists are well formed, and hold exactly the free blocks of the row. -/
structure FreeLists (h : Heap) (row : List Nat) (lists : Nat → List Nat) : Prop where
  family : Family h lists
  exact : ∀ bp, (∃ k, bp ∈ lists k) ↔ bp ∈ row ∧ allocAt h bp = 0

/-- No two neighbours are free. -/
def Spread (h : Heap) (row : List Nat) : Prop :=
  row.IsChain fun p q => ¬ (allocAt h p = 0 ∧ allocAt h q = 0)

/-- Of two neighbours that are free, one is `bp`. -/
def SpreadBut (h : Heap) (row : List Nat) (bp : Nat) : Prop :=
  row.IsChain fun p q => allocAt h p = 0 ∧ allocAt h q = 0 → p = bp ∨ q = bp

variable {h h' : Heap} {row : List Nat} {lists : Nat → List Nat} {P : Pool} {bp k : Nat}

/-- The block at `bp`. -/
def blockOf (h : Heap) (bp : Nat) : Block := ⟨bp, sizeAt h bp, allocAt h bp = 1⟩

/-- The pool that memory holds. -/
def poolOf (h : Heap) (row : List Nat) (lists : Nat → List Nat) : Pool where
  base := h.heap + 32
  brk := h.memBrk
  limit := h.memMaxAddr
  blocks := row.map (blockOf h)
  bins := binsOf h lists

@[simp] theorem bps_map_blockOf (l : List Nat) : bps (l.map (blockOf h)) = l := by
  rw [bps, List.map_map]
  exact List.map_id l

theorem allocAt_le (h : Heap) (bp : Nat) : allocAt h bp ≤ 1 := Nat.and_le_right

theorem blockOf_free : (blockOf h bp).alloc = false ↔ allocAt h bp = 0 := by
  have := allocAt_le h bp
  unfold blockOf
  rw [decide_eq_false_iff_not]
  omega

theorem blockOf_toNat : (blockOf h bp).alloc.toNat = allocAt h bp := by
  have hle := allocAt_le h bp
  unfold blockOf
  by_cases ha : allocAt h bp = 1
  · simp [ha]
  · have h0 : allocAt h bp = 0 := by omega
    simp [h0]

/-- The tag of a block, as the program packs it. -/
theorem Block.tag_eq {b : Block} (hs : b.size % 16 = 0) : b.tag = pack b.size b.alloc.toNat := by
  unfold Block.tag
  cases b.alloc with
  | false => exact (pack_zero b.size).symm
  | true => exact (pack_one (by omega)).symm

theorem blockOf_tag (hs : sizeAt h bp % 16 = 0) :
    (blockOf h bp).tag = pack (sizeAt h bp) (allocAt h bp) := by
  rw [Block.tag_eq hs, blockOf_toNat]
  rfl

theorem nodeAt_eq (ha : allocAt h bp = 0) : nodeAt h bp = blockOf h bp :=
  Block.ext rfl rfl (blockOf_free.mpr ha).symm

namespace Tiled

theorem valid (ht : Tiled h row) (hf : FreeLists h row lists) : (poolOf h row lists).Valid where
  base_pos := Nat.le_add_left 32 h.heap
  base_aligned := by
    have := ht.aligned
    show (h.heap + 32) % 16 = 0
    omega
  limit_le := ht.limit
  brk_le := ht.brk_le
  tiles := (tiles_map (fun _ _ => rfl) (fun _ _ => rfl)).mpr ht.tiles
  sizes := by
    intro b hb
    obtain ⟨p, hp, rfl⟩ := List.mem_map.mp hb
    exact ht.sizes p hp
  mem_bins := by
    intro k b
    constructor
    · intro hb
      obtain ⟨p, hp, rfl⟩ := List.mem_map.mp hb
      obtain ⟨hrow, ha⟩ := (hf.exact p).mp ⟨k, hp⟩
      refine ⟨?_, rfl, class_eq (hf.family.cls k p hp) (sizeAt_lt h p)⟩
      rw [nodeAt_eq ha]
      exact List.mem_map_of_mem hrow
    · rintro ⟨hb, ha, hk⟩
      obtain ⟨p, hp, rfl⟩ := List.mem_map.mp hb
      have ha := blockOf_free.mp ha
      obtain ⟨j, hj⟩ := (hf.exact p).mpr ⟨hp, ha⟩
      have hjk : sizeClass (sizeAt h p) = j := class_eq (hf.family.cls j p hj) (sizeAt_lt h p)
      rw [← hk, ← nodeAt_eq ha]
      show nodeAt h p ∈ binsOf h lists (sizeClass (sizeAt h p))
      rw [hjk]
      exact List.mem_map_of_mem hj
  nodup := fun k => (hf.family.nodup k).map (nodeAt_injective h)
  sorted := hf.family.sorted

theorem represents (ht : Tiled h row) (hf : FreeLists h row lists) :
    Represents h (poolOf h row lists) where
  heap_pos := ht.heap_pos
  base := rfl
  brk := rfl
  limit := rfl
  heapListp := ht.heapListp
  tags := by
    intro b hb
    obtain ⟨p, hp, rfl⟩ := List.mem_map.mp hb
    have htag := blockOf_tag (ht.sizes p hp).2
    exact ⟨(ht.header p hp).trans htag.symm, (ht.footer p hp).trans htag.symm⟩
  prologueHeader := ht.prologueHeader
  prologueFooter := ht.prologueFooter
  epilogue := ht.epilogue
  listed := hf.family.listed

end Tiled

/-- A pool in memory tiles it. -/
theorem Row.tiled (hr : Row h P) (hv : P.Valid) : Tiled h (bps P.blocks) where
  heap_pos := hr.heap_pos
  aligned := by
    have := hv.base_aligned
    have := hr.base
    omega
  brk_le := hr.brk ▸ hr.limit ▸ hv.brk_le
  limit := hr.limit ▸ hv.limit_le
  heapListp := hr.heapListp
  prologueHeader := hr.prologueHeader
  prologueFooter := hr.prologueFooter
  epilogue := hr.epilogue
  tiles := by
    rw [← hr.base, ← hr.brk]
    exact (tiles_map (fun _ _ => rfl) (fun b hb => hr.sizeAt_eq hv hb)).mpr hv.tiles
  sizes := by
    intro p hp
    obtain ⟨b, hb, rfl⟩ := List.mem_map.mp hp
    rw [hr.sizeAt_eq hv hb]
    exact hv.sizes b hb
  header := by
    intro p hp
    obtain ⟨b, hb, rfl⟩ := List.mem_map.mp hp
    rw [hr.sizeAt_eq hv hb, hr.allocAt_eq hv hb, ← Block.tag_eq (hv.sizes b hb).2]
    exact (hr.tags b hb).1
  footer := by
    intro p hp
    obtain ⟨b, hb, rfl⟩ := List.mem_map.mp hp
    rw [hr.sizeAt_eq hv hb, hr.allocAt_eq hv hb, ← Block.tag_eq (hv.sizes b hb).2]
    exact (hr.tags b hb).2

theorem Represents.freeLists (hr : Represents h P) (hv : P.Valid) :
    FreeLists h (bps P.blocks) (fun k => bps (P.bins k)) where
  family := .of_listed hr.listed (hr.toRow.binsOk hv) hv.sorted
  exact := by
    intro bp
    constructor
    · rintro ⟨k, hbp⟩
      obtain ⟨b, hb, rfl⟩ := List.mem_map.mp hbp
      obtain ⟨hbP, ha, _⟩ := (hv.mem_bins k b).mp hb
      exact ⟨List.mem_map_of_mem hbP, (hr.toRow.allocAt_free hv hbP).mpr ha⟩
    · rintro ⟨hbp, ha⟩
      obtain ⟨b, hb, rfl⟩ := List.mem_map.mp hbp
      have ha := (hr.toRow.allocAt_free hv hb).mp ha
      exact ⟨_, List.mem_map_of_mem ((hv.mem_bins _ b).mpr ⟨hb, ha, rfl⟩)⟩

/-- Every reachable session satisfies the whole invariant. -/
theorem reachable_tiled {s : Session} (hs : s.Reachable) : ∃ row lists, Tiled s.heap row ∧
    FreeLists s.heap row lists ∧ Spread s.heap row := by
  obtain ⟨P, hh⟩ := hs.holds
  have hv := hh.valid
  have hr := hh.represents
  exact ⟨_, _, hr.toRow.tiled hv, hr.freeLists hv, hr.toRow.spread hv hh.coalesced⟩

section Entries

variable {bins : Nat → List Block} {m : Block} {keep : Nat → Bool}

theorem filter_insertBin (hm : keep m.bp = false) (k : Nat) :
    (bps (insertBin bins m k)).filter keep = (bps (bins k)).filter keep := by
  unfold insertBin
  by_cases hk : k = sizeClass m.size
  · subst hk
    rw [Function.update_self, List.orderedInsert_eq_take_drop, bps, List.map_append,
      List.map_cons, List.filter_append, List.filter_cons_of_neg (by simp [hm]),
      ← List.filter_append, ← List.map_append, List.takeWhile_append_dropWhile]
  · rw [Function.update_of_ne hk]

theorem filter_eraseBin (hm : keep m.bp = false) (k : Nat) :
    (bps (eraseBin bins m k)).filter keep = (bps (bins k)).filter keep := by
  unfold eraseBin
  by_cases hk : k = sizeClass m.size
  · subst hk
    rw [Function.update_self]
    by_cases hmem : m ∈ bins (sizeClass m.size)
    · obtain ⟨l, r, _, hl, herase⟩ := List.exists_erase_eq hmem
      rw [herase, hl]
      show ((l ++ r).map Block.bp).filter keep = ((l ++ m :: r).map Block.bp).filter keep
      rw [List.map_append, List.map_append, List.map_cons, List.filter_append,
        List.filter_append, List.filter_cons_of_neg (by simp [hm])]
    · rw [List.erase_of_not_mem hmem]
  · rw [Function.update_of_ne hk]

theorem filter_eraseBins {ms : List Block} (hm : ∀ m ∈ ms, keep m.bp = false) (k : Nat) :
    (bps (ms.foldl eraseBin bins k)).filter keep = (bps (bins k)).filter keep := by
  induction ms generalizing bins with
  | nil => rfl
  | cons m ms ih =>
    rw [List.foldl_cons, ih (fun c hc => hm c (List.mem_cons_of_mem m hc)),
      filter_eraseBin (hm m List.mem_cons_self)]

/-- Merging touches the entries of the run, and no others. -/
theorem Pool.filter_coalesce {b : Block}
    (hrun : ∀ c ∈ lowerFree b P.blocks ++ b :: upperFree b P.blocks, keep c.bp = false) (k : Nat) :
    (bps ((P.coalesce b).2.bins k)).filter keep = (bps (P.bins k)).filter keep := by
  have hhead : keep (merged (lowerFree b P.blocks) b (upperFree b P.blocks)).bp = false := by
    cases hlow : lowerFree b P.blocks with
    | nil => exact hrun b (by simp)
    | cons c l => exact hrun c (by simp [hlow])
  unfold Pool.coalesce
  split
  · rfl
  · show (bps (insertBin _ _ k)).filter keep = _
    rw [filter_insertBin hhead, filter_eraseBins]
    intro c hc
    refine hrun c ?_
    rcases List.mem_cons.mp hc with rfl | hc
    · exact List.mem_append_right _ List.mem_cons_self
    · rcases List.mem_append.mp hc with hc | hc
      · exact List.mem_append_left _ hc
      · exact List.mem_append_right _ (List.mem_cons_of_mem b hc)

/-- An entry that is there once. -/
theorem filter_eq_once {l : List Nat} {a : Nat} (hnd : l.Nodup) :
    l.filter (fun p => p = a) = if a ∈ l then [a] else [] := by
  rw [List.filter_eq a]
  by_cases ha : a ∈ l
  · rw [if_pos ha, List.count_eq_one_of_mem hnd ha]
    rfl
  · rw [if_neg ha, List.count_eq_zero_of_not_mem ha]
    rfl

end Entries

/-! ## The merge -/

/-- What there is after the free blocks `run`, between `l` and `r`, have become one. -/
structure MergedRun (h h' : Heap) (l run r : List Nat) (lists lists' : Nat → List Nat) :
    Prop where
  tiled : Tiled h' (l ++ run.headD 0 :: r)
  freeLists : FreeLists h' (l ++ run.headD 0 :: r) lists'
  spread : Spread h' (l ++ run.headD 0 :: r)
  header : h'.word (run.headD 0 - 8) = pack (run.map (sizeAt h)).sum 0
  footer : h'.word (run.headD 0 + (run.map (sizeAt h)).sum - 16) = pack (run.map (sizeAt h)).sum 0
  /-- Of the blocks of the run, the lists have the first one, once, in the class of the sum. -/
  entry : ∀ k, (lists' k).filter (fun p => p ∈ run) =
    if selectList (run.map (sizeAt h)).sum = (k : Int) then [run.headD 0] else []
  others : ∀ k, (lists' k).filter (fun p => p ∉ run) = (lists k).filter (fun p => p ∉ run)
  tags : ∀ p ∈ l ++ r, h'.word (p - 8) = h.word (p - 8) ∧
    h'.word (p + sizeAt h p - 16) = h.word (p + sizeAt h p - 16)
  payload : ∀ p ∈ l ++ r, ∀ x, p ≤ x → x < p + sizeAt h p - 16 →
    allocAt h p = 1 ∨ p + 16 ≤ x → h'.mem x = h.mem x
  outside : ∀ x, (x < run.headD 0 - 8 ∨ run.headD 0 + (run.map (sizeAt h)).sum - 8 ≤ x) →
    (∀ k, ∀ p ∈ lists k, x < p ∨ p + 16 ≤ x) → h'.mem x = h.mem x
  heap : h'.heap = h.heap
  memBrk : h'.memBrk = h.memBrk
  memMaxAddr : h'.memMaxAddr = h.memMaxAddr

theorem headD_run (ps ns : List Block) (b : Block) :
    (bps (ps ++ b :: ns)).headD 0 = (merged ps b ns).bp := by
  cases ps with
  | nil => rfl
  | cons p ps => rfl

/-- Where free blocks touch only at `b`, they do so neither below it nor above. -/
theorem SpreadBut.sides (hs : SpreadBut h row bp) (hv : (poolOf h row lists).Valid)
    (hb : blockOf h bp ∈ (poolOf h row lists).blocks) :
    (before (blockOf h bp) (poolOf h row lists).blocks).IsChain notBothFree ∧
      (after (blockOf h bp) (poolOf h row lists).blocks).IsChain notBothFree := by
  have hchain : (poolOf h row lists).blocks.IsChain
      (fun b c => b.alloc = false ∧ c.alloc = false → b.bp = bp ∨ c.bp = bp) := by
    refine List.isChain_map _ |>.mpr (hs.imp fun p q hpq hfree => hpq ?_)
    exact ⟨blockOf_free.mp hfree.1, blockOf_free.mp hfree.2⟩
  have hnd := hv.nodup_blocks
  have hsplit := hv.split hb
  have hother : ∀ c ∈ (poolOf h row lists).blocks, c ≠ blockOf h bp → c.bp ≠ bp :=
    fun c hc hne he => hne (hv.eq_of_bp hc hb he)
  generalize (poolOf h row lists).blocks = blocks at *
  generalize before (blockOf h bp) blocks = l at *
  generalize after (blockOf h bp) blocks = r at *
  rw [hsplit] at hchain hnd hother
  obtain ⟨_, hndr, hdisj⟩ := List.nodup_append.mp hnd
  have hlow : ∀ c ∈ l, c.bp ≠ bp := fun c hc =>
    hother c (List.mem_append_left _ hc) (hdisj c hc _ List.mem_cons_self)
  have hup : ∀ c ∈ r, c.bp ≠ bp := by
    intro c hc
    refine hother c (List.mem_append_right _ (List.mem_cons_of_mem _ hc)) ?_
    rintro rfl
    exact (List.nodup_cons.mp hndr).1 hc
  constructor
  · refine List.IsChain.imp_of_mem_imp (fun c d hc hd hcd hfree => ?_) hchain.left_of_append
    rcases hcd hfree with he | he
    · exact hlow c hc he
    · exact hlow d hd he
  · refine List.IsChain.imp_of_mem_imp (fun c d hc hd hcd hfree => ?_)
      (List.isChain_cons.mp hchain.right_of_append).2
    rcases hcd hfree with he | he
    · exact hup c hc he
    · exact hup d hd he

section Run

variable {b c : Block} (hr : Represents h P) (hv : P.Valid) (hb : b ∈ P.blocks)
  (hf : b.alloc = false)

/-- The payload pointers of the run of `b`. -/
abbrev runOf (P : Pool) (b : Block) : List Nat :=
  bps (lowerFree b P.blocks ++ b :: upperFree b P.blocks)

include hv hb

theorem mem_run (hc : c ∈ lowerFree b P.blocks ++ b :: upperFree b P.blocks) : c ∈ P.blocks := by
  rw [hv.split_run hb]
  exact List.mem_append_left _ (List.mem_append_right _ hc)

include hf

theorem run_head : (runOf P b).headD 0 = (P.coalesce b).1.bp := by
  rw [(Pool.coalesce_blocks hv hb hf).2]
  exact headD_run _ _ b

include hr in
theorem run_sum : ((runOf P b).map (sizeAt h)).sum = (P.coalesce b).1.size := by
  rw [(Pool.coalesce_blocks hv hb hf).2]
  show _ = ((lowerFree b P.blocks ++ b :: upperFree b P.blocks).map Block.size).sum
  rw [runOf, bps, List.map_map]
  congr 1
  exact List.map_congr_left fun c hc => hr.toRow.sizeAt_eq hv (mem_run hv hb hc)

theorem run_row : bps (P.coalesce b).2.blocks =
    bps (below b P.blocks) ++ (runOf P b).headD 0 :: bps (above b P.blocks) := by
  rw [run_head hv hb hf, (Pool.coalesce_blocks hv hb hf).1, (Pool.coalesce_blocks hv hb hf).2,
    List.append_assoc]
  exact List.map_append

/-- A block beside the run is in both rows, and apart from what the run becomes. -/
theorem run_beside {p : Nat} (hp : p ∈ bps (below b P.blocks) ++ bps (above b P.blocks)) :
    ∃ c ∈ P.blocks, c.bp = p ∧ c ∈ (P.coalesce b).2.blocks ∧ c ≠ (P.coalesce b).1 ∧
      p ∉ runOf P b := by
  obtain ⟨hblocks, hfst⟩ := Pool.coalesce_blocks hv hb hf
  have hv' := Pool.valid_coalesce hv hb
  rw [← List.map_append] at hp
  obtain ⟨c, hc, rfl⟩ := List.mem_map.mp hp
  have hcP : c ∈ P.blocks := by
    rw [hv.split_run hb]
    rcases List.mem_append.mp hc with hc | hc
    · exact List.mem_append_left _ (List.mem_append_left _ hc)
    · exact List.mem_append_right _ hc
  have hnd := hv'.nodup_blocks
  have hnd₀ := hv.nodup_blocks
  rw [hblocks] at hnd
  rw [hv.split_run hb] at hnd₀
  refine ⟨c, hcP, rfl, ?_, ?_, ?_⟩
  · rw [hblocks]
    rcases List.mem_append.mp hc with hc | hc
    · exact List.mem_append_left _ (List.mem_append_left _ hc)
    · exact List.mem_append_right _ hc
  · rw [hfst]
    rintro rfl
    obtain ⟨hndl, _, hdisj⟩ := List.nodup_append.mp hnd
    rcases List.mem_append.mp hc with hc | hc
    · exact (List.nodup_append.mp hndl).2.2 _ hc _ List.mem_cons_self rfl
    · exact hdisj _ (List.mem_append_right _ List.mem_cons_self) _ hc rfl
  · intro hrun
    obtain ⟨d, hd, hdc⟩ := List.mem_map.mp hrun
    obtain rfl := hv.eq_of_bp (mem_run hv hb hd) hcP hdc
    obtain ⟨hndl, _, hdisj⟩ := List.nodup_append.mp hnd₀
    rcases List.mem_append.mp hc with hc | hc
    · exact (List.nodup_append.mp hndl).2.2 _ hc _ hd rfl
    · exact hdisj _ (List.mem_append_right _ hd) _ hc rfl

variable (hs : Stage h (P.coalesce b).2 (P.coalesce b).2.bins h')
  (hframe : MergeFrame P (P.coalesce b).1 h h')

include hr hs

/-- Blocks beside the run keep their tags. -/
theorem run_tags {p : Nat} (hp : p ∈ bps (below b P.blocks) ++ bps (above b P.blocks)) :
    h'.word (p - 8) = h.word (p - 8) ∧
      h'.word (p + sizeAt h p - 16) = h.word (p + sizeAt h p - 16) := by
  obtain ⟨c, hc, rfl, hc', _⟩ := run_beside hv hb hf hp
  obtain ⟨hhead, hfoot⟩ := hr.tags c hc
  obtain ⟨hhead', hfoot'⟩ := hs.row.tags c hc'
  rw [hr.toRow.sizeAt_eq hv hc]
  exact ⟨hhead'.trans hhead.symm, hfoot'.trans hfoot.symm⟩

/-- The lists have one entry of the run. -/
theorem run_entry (k : Nat) :
    (bps ((P.coalesce b).2.bins k)).filter (fun p => p ∈ runOf P b) =
      if selectList ((runOf P b).map (sizeAt h)).sum = (k : Int) then [(runOf P b).headD 0]
      else [] := by
  have hv' := Pool.valid_coalesce hv hb
  obtain ⟨hmem, hfree, _⟩ := Pool.coalesce_fst hv hb hf
  have hlists := hs.represents.freeLists hv'
  have hhead := run_head hv hb hf
  have hbounds := hs.row.bounds hv' hmem
  have hself : (P.coalesce b).1.bp ∈ runOf P b := by
    rw [← hhead]
    exact headD_mem (by omega)
  have hclass : selectList (P.coalesce b).1.size = (sizeClass (P.coalesce b).1.size : Int) :=
    selectList_eq (by omega) (by omega)
  -- an entry of the run is the merged block
  have honly : ∀ p ∈ bps ((P.coalesce b).2.bins k),
      decide (p ∈ runOf P b) = decide (p = (P.coalesce b).1.bp) := by
    intro p hp
    refine decide_eq_decide.mpr ⟨fun hrun => ?_, fun he => he ▸ hself⟩
    have hrow := ((hlists.exact p).mp ⟨k, hp⟩).1
    rw [run_row hv hb hf, hhead] at hrow
    rcases List.mem_append.mp hrow with hl | hr'
    · obtain ⟨_, _, _, _, _, hnot⟩ := run_beside hv hb hf (List.mem_append_left _ hl)
      exact absurd hrun hnot
    · rcases List.mem_cons.mp hr' with he | hr'
      · exact he
      · obtain ⟨_, _, _, _, _, hnot⟩ := run_beside hv hb hf (List.mem_append_right _ hr')
        exact absurd hrun hnot
  have hin : (P.coalesce b).1.bp ∈ bps ((P.coalesce b).2.bins k) ↔
      selectList (P.coalesce b).1.size = (k : Int) := by
    rw [hclass, Int.ofNat_inj]
    constructor
    · intro hm
      obtain ⟨c, hc, hcm⟩ := List.mem_map.mp hm
      obtain ⟨hcP, _, hck⟩ := (hv'.mem_bins k c).mp hc
      rwa [hv'.eq_of_bp hcP hmem hcm] at hck
    · exact fun hk => List.mem_map_of_mem ((hv'.mem_bins k _).mpr ⟨hmem, hfree, hk⟩)
  rw [List.filter_congr honly, filter_eq_once (hlists.family.nodup k), run_sum hr hv hb hf, hhead]
  exact if_congr hin rfl rfl

include hframe

omit hs in
/-- So do their payloads, but for the links of those that are free. -/
theorem run_payload {p x : Nat} (hp : p ∈ bps (below b P.blocks) ++ bps (above b P.blocks))
    (hx : p ≤ x) (hx' : x < p + sizeAt h p - 16) (hlinks : allocAt h p = 1 ∨ p + 16 ≤ x) :
    h'.mem x = h.mem x := by
  obtain ⟨c, hc, rfl, hc', hne, _⟩ := run_beside hv hb hf hp
  have hv' := Pool.valid_coalesce hv hb
  have hmem := (Pool.coalesce_fst hv hb hf).1
  rw [hr.toRow.sizeAt_eq hv hc] at hx'
  refine hframe x ?_ fun k d hd => ?_
  · rcases hv'.tiles.ordered hc' hmem with he | hlt | hgt
    · exact absurd he hne
    · omega
    · omega
  · obtain ⟨hdP, hdf, _⟩ := (hv.mem_bins k d).mp hd
    have hsize := (hv.sizes d hdP).1
    rcases hv.tiles.ordered hc hdP with rfl | hlt | hgt
    · have hfree := (hr.toRow.allocAt_free hv hc).mpr hdf
      omega
    · omega
    · omega

/-- What `coalesce` does to a pool in memory. -/
theorem mergedRun (hc : (P.coalesce b).2.Coalesced) :
    MergedRun h h' (bps (below b P.blocks)) (runOf P b) (bps (above b P.blocks))
      (fun k => bps (P.bins k)) (fun k => bps ((P.coalesce b).2.bins k)) := by
  have hv' := Pool.valid_coalesce hv hb
  have hrow := run_row hv hb hf
  have hhead := run_head hv hb hf
  have hsum := run_sum hr hv hb hf
  have hmem := (Pool.coalesce_fst hv hb hf).1
  obtain ⟨hheader, hfooter⟩ := hs.row.tags _ hmem
  have htag : (P.coalesce b).1.tag = pack (P.coalesce b).1.size 0 := by
    rw [Block.tag_eq (hv'.sizes _ hmem).2, (Pool.coalesce_fst hv hb hf).2.1]
    rfl
  refine { tiled := hrow ▸ hs.row.tiled hv', freeLists := hrow ▸ hs.represents.freeLists hv'
           spread := hrow ▸ hs.row.spread hv' hc, header := ?_, footer := ?_
           entry := run_entry hr hv hb hf hs, others := ?_
           tags := fun _ hp => run_tags hr hv hb hf hs hp
           payload := fun _ hp _ => run_payload hr hv hb hf hframe hp
           outside := ?_, heap := ?_, memBrk := ?_, memMaxAddr := ?_ }
  · rw [hhead, hsum, hheader, htag]
  · rw [hhead, hsum, hfooter, htag]
  · intro k
    refine Pool.filter_coalesce (fun c hc => ?_) k
    exact decide_eq_false (not_not.mpr (List.mem_map_of_mem hc))
  · rw [hhead, hsum]
    intro x hx hlinks
    exact hframe x hx fun k c hc => hlinks k c.bp (List.mem_map_of_mem hc)
  · have hbase := hs.row.base
    rw [Pool.coalesce_base, hr.base] at hbase
    omega
  · rw [← hs.row.brk, Pool.coalesce_brk, hr.brk]
  · rw [← hs.row.limit, Pool.coalesce_limit, hr.limit]

end Run

/-- **Merging restores the invariant.** From a heap that satisfies it, but that the listed
block `bp` may have free neighbours, `coalesce` returns the start of the maximal run of
free blocks around `bp`, and the run is one free block, listed once, in a heap that
satisfies the invariant. -/
theorem coalesce_restores (ht : Tiled h row) (hl : FreeLists h row lists)
    (hs : SpreadBut h row bp) (hbp : bp ∈ lists k) :
    ∃ l run r lists' h', row = l ++ run ++ r ∧ bp ∈ run ∧ (∀ p ∈ run, allocAt h p = 0) ∧
      (∀ p ∈ l.getLast?, allocAt h p = 1) ∧ (∀ p ∈ r.head?, allocAt h p = 1) ∧
      coalesce bp h = some (run.headD 0, h') ∧ MergedRun h h' l run r lists lists' := by
  obtain ⟨hrow, hfree⟩ := (hl.exact bp).mp ⟨k, hbp⟩
  have hv := ht.valid hl
  have hr := ht.represents hl
  have hb : blockOf h bp ∈ (poolOf h row lists).blocks := List.mem_map_of_mem hrow
  have hf : (blockOf h bp).alloc = false := blockOf_free.mpr hfree
  obtain ⟨hlow, hup⟩ := hs.sides hv hb
  obtain ⟨_, h', hx, rfl, hstage, hframe⟩ := coalesce_framed hv hb hf hr.stage
  have hmerged := mergedRun hr hv hb hf hstage hframe (Pool.coalesced_coalesce hv hb hf hlow hup)
  have hlists : (fun k => bps ((poolOf h row lists).bins k)) = lists :=
    funext fun k => bps_map_nodeAt (lists k)
  rw [hlists] at hmerged
  have hsplit := hv.split_run hb
  have hblocks : bps (poolOf h row lists).blocks = row := bps_map_blockOf row
  have htaken : ∀ c ∈ (poolOf h row lists).blocks, c.alloc = true → allocAt h c.bp = 1 := by
    intro c hc ha
    rw [hr.toRow.allocAt_eq hv hc, ha]
    rfl
  refine ⟨_, _, _, _, h', ?_, ?_, ?_, ?_, ?_, ?_, hmerged⟩
  · rw [← List.map_append, ← List.map_append, ← hsplit]
    exact hblocks.symm
  · exact List.mem_map_of_mem (List.mem_append_right _ List.mem_cons_self)
  · intro p hp
    obtain ⟨c, hc, rfl⟩ := List.mem_map.mp hp
    refine (hr.toRow.allocAt_free hv (mem_run hv hb hc)).mpr ?_
    rcases List.mem_append.mp hc with hc | hc
    · exact lowerFree_free _ _ c hc
    · rcases List.mem_cons.mp hc with rfl | hc
      · exact hf
      · exact upperFree_free _ _ c hc
  · intro p hp
    rw [List.getLast?_map] at hp
    obtain ⟨c, hc, rfl⟩ := Option.map_eq_some_iff.mp hp
    refine htaken c ?_ (getLast?_below _ _ hlow c hc)
    rw [hsplit]
    exact List.mem_append_left _ (List.mem_append_left _ (List.mem_of_mem_getLast? hc))
  · intro p hp
    rw [List.head?_map] at hp
    obtain ⟨c, hc, rfl⟩ := Option.map_eq_some_iff.mp hp
    refine htaken c ?_ (head?_above _ _ hup c hc)
    rw [hsplit]
    exact List.mem_append_right _ (List.mem_of_mem_head? hc)
  · rw [run_head hv hb hf]
    exact hx

theorem pairHeap_tags : pairHeap.word 24 = 17 ∧ pairHeap.word 32 = 17 ∧ pairHeap.word 120 = 1 ∧
    pairHeap.word 40 = 32 ∧ pairHeap.word 64 = 32 ∧ pairHeap.word 72 = 48 ∧
    pairHeap.word 112 = 48 := by
  decide +kernel

theorem pairHeap_allocs : allocAt pairHeap 48 = 0 ∧ allocAt pairHeap 80 = 0 := by
  decide +kernel

theorem pairHeap_tiled : Tiled pairHeap [48, 80] := by
  obtain ⟨hs₁, hs₂, _⟩ := pairHeap_sizes
  obtain ⟨ha₁, ha₂⟩ := pairHeap_allocs
  obtain ⟨h24, h32, h120, h40, h64, h72, h112⟩ := pairHeap_tags
  refine { heap_pos := by decide, aligned := by decide, brk_le := by decide, limit := by decide
           heapListp := rfl, prologueHeader := h24, prologueFooter := h32, epilogue := h120
           tiles := ?_, sizes := ?_, header := ?_, footer := ?_ }
  · refine ⟨rfl, ?_, ?_⟩
    · rw [hs₁]
      rfl
    · rw [hs₁, hs₂]
      rfl
  · simp [hs₁, hs₂]
  · simp [hs₁, hs₂, ha₁, ha₂, h40, h72, pack_zero]
  · simp [hs₁, hs₂, ha₁, ha₂, h64, h112, pack_zero]

theorem pairHeap_freeLists : FreeLists pairHeap [48, 80] pairLists where
  family := pairHeap_family
  exact := by
    obtain ⟨ha₁, ha₂⟩ := pairHeap_allocs
    intro bp
    constructor
    · rintro ⟨k, hk⟩
      obtain ⟨_, rfl | rfl⟩ := mem_pairLists hk
      · exact ⟨by decide, ha₁⟩
      · exact ⟨by decide, ha₂⟩
    · exact fun hbp => ⟨5, hbp.1⟩

/-- The two blocks become one of 80 bytes, in list 6. -/
theorem coalesce_restores_pair : ∃ h', coalesce 80 pairHeap = some (48, h') ∧
    h'.word 40 = 80 ∧ h'.word 112 = 80 ∧ h'.segList 5 = 0 ∧ h'.segList 6 = 48 := by
  obtain ⟨ha₁, ha₂⟩ := pairHeap_allocs
  obtain ⟨hs₁, hs₂, _⟩ := pairHeap_sizes
  have hspread : SpreadBut pairHeap [48, 80] 80 := by
    unfold SpreadBut
    simp
  obtain ⟨l, run, r, lists', h', hrow, hmem, hrun, hlow, hup, hx, hm⟩ :=
    coalesce_restores pairHeap_tiled pairHeap_freeLists hspread (by decide : 80 ∈ pairLists 5)
  have hall : ∀ p ∈ l ++ run ++ r, allocAt pairHeap p = 0 := by
    rw [← hrow]
    simp [ha₁, ha₂]
  have hl : l = [] := by
    refine List.getLast?_eq_none_iff.mp (Option.eq_none_iff_forall_ne_some.mpr fun p hp => ?_)
    have hpl := List.mem_of_mem_getLast? hp
    have h0 := hall p (List.mem_append_left _ (List.mem_append_left _ hpl))
    rw [hlow p hp] at h0
    cases h0
  have hr : r = [] := by
    refine List.head?_eq_none_iff.mp (Option.eq_none_iff_forall_ne_some.mpr fun p hp => ?_)
    have h0 := hall p (List.mem_append_right _ (List.mem_of_mem_head? hp))
    rw [hup p hp] at h0
    cases h0
  rw [hl, hr, List.nil_append, List.append_nil] at hrow
  subst hl hr hrow
  have hsum : ([48, 80].map (sizeAt pairHeap)).sum = 80 := by simp [hs₁, hs₂]
  have hlists : ∀ k, lists' k = if selectList 80 = (k : Int) then [48] else [] := by
    intro k
    have hentry := hm.entry k
    rw [hsum, List.filter_eq_self.mpr] at hentry
    · exact hentry
    · intro p hp
      have hp48 := ((hm.freeLists.exact p).mp ⟨k, hp⟩).1
      rw [List.mem_singleton.mp hp48]
      rfl
  have hheader := hm.header
  have hfooter := hm.footer
  rw [hsum] at hheader hfooter
  refine ⟨h', hx, hheader, hfooter, ?_, ?_⟩
  · rw [hm.freeLists.family.heads 5 (by decide), hlists 5]
    rfl
  · rw [hm.freeLists.family.heads 6 (by decide), hlists 6]
    rfl

end Allocator
end Cmpsc473
