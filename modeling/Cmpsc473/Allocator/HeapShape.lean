import Cmpsc473.Allocator.SessionRefines

/-!
# The shape of the heap

What every reachable session has in memory: blocks that tile the heap between
prologue and epilogue, and free lists that hold exactly the free blocks.
-/

namespace Cmpsc473
namespace Allocator

open ByteMemory Total LinkedSegment Tiling Transition

variable {h : Heap} {s : Session} {P : Pool}

theorem nextBlkp_eq {bp size : Nat} (hh : Head h bp size) : nextBlkp bp h = some (bp + size, h) := by
  obtain ⟨q, h', hx, hq, hh'⟩ :=
    (hh.returns_nextBlkp (Q := fun q h' => q = bp + size ∧ h' = h)).mpr ⟨rfl, rfl⟩
  rw [hx, hq, hh']

/-- A walk goes one way only. -/
theorem Walk.unique {p e e' : Nat} {l l' : List Nat} (h₁ : Walk h p l e) (h₂ : Walk h p l' e') :
    l = l' ∧ e = e' := by
  induction h₁ generalizing l' with
  | stop hz =>
    cases h₂ with
    | stop _ => exact ⟨rfl, rfl⟩
    | next hnz => exact absurd hz hnz
  | next hnz hq _ ih =>
    cases h₂ with
    | stop hz => exact absurd hz hnz
    | next _ hq' hw =>
      rw [hq] at hq'
      cases hq'
      obtain ⟨rfl, rfl⟩ := ih hw
      exact ⟨rfl, rfl⟩

theorem Row.sizeAt_eq (hr : Row h P) (hv : P.Valid) {b : Block} (hb : b ∈ P.blocks) :
    sizeAt h b.bp = b.size :=
  (hr.head hv hb).size

theorem Row.allocAt_eq (hr : Row h P) (hv : P.Valid) {b : Block} (hb : b ∈ P.blocks) :
    allocAt h b.bp = b.alloc.toNat :=
  (hr.header hv hb).2

theorem Row.prologue_eq (hr : Row h P) :
    sizeAt h h.prologue = 16 ∧ allocAt h h.prologue = 1 := by
  unfold sizeAt allocAt Heap.prologue
  rw [show h.heap + 16 - 8 = h.heap + 8 from rfl, hr.prologueHeader]
  exact ⟨by decide, by decide⟩

theorem Row.epilogue_eq (hr : Row h P) : sizeAt h h.memBrk = 0 ∧ allocAt h h.memBrk = 1 := by
  unfold sizeAt allocAt
  rw [hr.epilogue]
  exact ⟨by decide, by decide⟩

theorem Row.walk_from (hr : Row h P) (hv : P.Valid) {l : List Block} {a : Nat}
    (hl : ∀ b ∈ l, b ∈ P.blocks) (ht : Tiles Block.bp Block.size a l P.brk) :
    Walk h a (bps l) h.memBrk := by
  induction l generalizing a with
  | nil =>
    have ha : a = h.memBrk := ht.trans hr.brk
    rw [ha]
    exact .stop hr.epilogue_eq.1
  | cons b l ih =>
    obtain ⟨rfl, ht⟩ := ht
    have hb := hl b List.mem_cons_self
    have hpos := hv.size_pos b hb
    refine .next ?_ (nextBlkp_eq (hr.head hv hb))
      (ih (fun c hc => hl c (List.mem_cons_of_mem b hc)) ht)
    rw [hr.sizeAt_eq hv hb]
    omega

theorem Row.prologue_head (hr : Row h P) (hv : P.Valid) : Head h h.prologue 16 := by
  have hbase := hr.base
  have hlim := hv.limit_le
  have hbrk := hv.brk_le
  have hle := hv.tiles.le
  have hlimit := hr.limit
  refine ⟨?_, ?_, ?_, ?_, hr.prologue_eq.1⟩
  · unfold Heap.prologue
    omega
  · omega
  · unfold Heap.prologue
    omega
  · unfold Heap.Mapped Heap.prologue
    omega

/-- The walk meets the prologue and then the blocks of the row. -/
theorem Row.walk (hr : Row h P) (hv : P.Valid) :
    Walk h h.prologue (h.prologue :: bps P.blocks) h.memBrk := by
  refine .next (by rw [hr.prologue_eq.1]; decide) (nextBlkp_eq (hr.prologue_head hv))
    (hr.walk_from hv (fun _ hb => hb) ?_)
  rw [show h.prologue + 16 = P.base from hr.base.symm]
  exact hv.tiles

theorem Row.hasBlock_iff (hr : Row h P) (hv : P.Valid) {bp size alloc : Nat} :
    HasBlock h bp size alloc ↔ (bp = h.prologue ∧ size = 16 ∧ alloc = 1) ∨
      ∃ b ∈ P.blocks, b.bp = bp ∧ b.size = size ∧ b.alloc.toNat = alloc := by
  have hwalk := hr.walk hv
  obtain ⟨hpsize, hpalloc⟩ := hr.prologue_eq
  constructor
  · rintro ⟨l, hl, hbp, hsize, halloc⟩
    obtain ⟨rfl, _⟩ := hl.unique hwalk
    rcases List.mem_cons.mp hbp with rfl | hbp
    · exact Or.inl ⟨rfl, hsize.symm.trans hpsize, halloc.symm.trans hpalloc⟩
    · obtain ⟨b, hb, rfl⟩ := List.mem_map.mp hbp
      exact Or.inr ⟨b, hb, rfl, (hr.sizeAt_eq hv hb).symm.trans hsize,
        (hr.allocAt_eq hv hb).symm.trans halloc⟩
  · rintro (⟨rfl, rfl, rfl⟩ | ⟨b, hb, rfl, rfl, rfl⟩)
    · exact ⟨_, hwalk, List.mem_cons_self, hpsize, hpalloc⟩
    · exact ⟨_, hwalk, List.mem_cons_of_mem _ (List.mem_map_of_mem hb), hr.sizeAt_eq hv hb,
        hr.allocAt_eq hv hb⟩

theorem Row.hasBlock_free (hr : Row h P) (hv : P.Valid) {bp size : Nat} :
    HasBlock h bp size 0 ↔ ∃ b ∈ P.blocks, b.alloc = false ∧ b.bp = bp ∧ b.size = size := by
  rw [hr.hasBlock_iff hv]
  constructor
  · rintro (⟨_, _, h01⟩ | ⟨b, hb, hbp, hsize, ha⟩)
    · cases h01
    · exact ⟨b, hb, Bool.toNat_eq_zero.mp ha, hbp, hsize⟩
  · rintro ⟨b, hb, ha, hbp, hsize⟩
    exact Or.inr ⟨b, hb, hbp, hsize, by rw [ha]; rfl⟩

/-- The blocks that a client holds are the blocks in use. -/
theorem Holds.live_iff (hh : Holds s P) {bp size : Nat} :
    s.Live bp size ↔ ∃ b, P.Live b ∧ b.bp = bp ∧ b.size = size := by
  unfold Session.Live
  rw [hh.represents.hasBlock_iff hh.valid]
  constructor
  · rintro ⟨⟨rfl, _, _⟩ | ⟨b, hb, rfl, hsize, ha⟩, hlive⟩
    · obtain ⟨b, hb, hbp⟩ := hh.block hlive
      have := (hh.represents.bounds hh.valid hb.1).1
      unfold Heap.prologue at hbp
      omega
    · exact ⟨b, ⟨hb, Bool.toNat_eq_one.mp ha⟩, rfl, hsize⟩
  · rintro ⟨b, hb, rfl, hsize⟩
    exact ⟨Or.inr ⟨b, hb.1, rfl, hsize, by rw [hb.2]; rfl⟩, hh.held b hb⟩

theorem tiles_extents {l : List Block} {a e : Nat} (hl : ∀ b ∈ l, sizeAt h b.bp = b.size)
    (ha : 8 ≤ a) (ht : Tiles Block.bp Block.size a l e) :
    Tiles (fun bp => bp - 8) (sizeAt h) (a - 8) (bps l) (e - 8) :=
  (tiles_map (fun _ _ => rfl) hl).mpr (ht.sub ha)

theorem Row.allocAt_free (hr : Row h P) (hv : P.Valid) {b : Block} (hb : b ∈ P.blocks) :
    allocAt h b.bp = 0 ↔ b.alloc = false := by
  rw [hr.allocAt_eq hv hb]
  exact Bool.toNat_eq_zero

/-- The bits in memory show no two neighbours free. -/
theorem Row.spread (hr : Row h P) (hv : P.Valid) (hc : P.Coalesced) :
    (bps P.blocks).IsChain (fun p q => ¬ (allocAt h p = 0 ∧ allocAt h q = 0)) := by
  rw [List.isChain_map]
  refine List.IsChain.imp_of_mem_imp (fun b c hb hc hbc hfree => ?_) hc
  exact hbc ⟨(hr.allocAt_free hv hb).mp hfree.1, (hr.allocAt_free hv hc).mp hfree.2⟩

/-- A mapped megabyte of zeros. -/
def zeroHeap : Heap where
  mem := fun _ => 0
  heap := 4096
  memBrk := 4096
  memMaxAddr := 4096 + 2 ^ 20
  heapListp := 0
  segList := fun _ => 0

theorem zeroHeap_area : zeroHeap.Area :=
  ⟨by decide, by decide, by decide, by decide⟩

/-- Where the area has room for the first chunk, a session can start in it. -/
theorem start_isSome {h : Heap} (ha : h.Area) (hroom : h.heap + 32 + chunkSize ≤ h.memMaxAddr) :
    ∃ h', start h = some (true, h') := by
  obtain ⟨r, h', hx, hpost⟩ := start_returns ha
  rw [if_pos hroom] at hpost
  rw [hpost.1] at hx
  exact ⟨h', hx⟩

/-- A session on `zeroHeap` in which nothing has been called yet. -/
def zeroSession : Session := ⟨((start zeroHeap).getD (false, zeroHeap)).2, fun _ => none⟩

theorem zeroSession_start : start zeroHeap = some (true, zeroSession.heap) := by
  obtain ⟨h', hx⟩ := start_isSome zeroHeap_area (by decide)
  simp only [zeroSession, hx, Option.getD_some]

theorem zeroSession_reachable : zeroSession.Reachable :=
  Reachable.of_init ⟨⟨zeroHeap, zeroHeap_area, zeroSession_start⟩, rfl⟩

theorem zeroSession_holds :
    Holds zeroSession (Pool.initial zeroHeap.heap zeroHeap.memMaxAddr) :=
  start_holds zeroHeap_area zeroSession_start rfl

/-- The pool of `zeroSession` after two allocations of 24 bytes. -/
def pairPool : Pool :=
  ((Pool.initial zeroHeap.heap zeroHeap.memMaxAddr).malloc 24).2.malloc 24 |>.2

theorem pairPool_blocks : pairPool.blocks =
    [⟨4128, 48, true⟩, ⟨4176, 48, true⟩, ⟨4224, 16288, false⟩] := by decide

theorem pairPool_free : (pairPool.free 4128).blocks =
    [⟨4128, 48, false⟩, ⟨4176, 48, true⟩, ⟨4224, 16288, false⟩] := by decide

/-- `malloc` in a session that holds a pool. -/
theorem Holds.malloc_step (hh : Holds s P) (hs : s.Reachable) {n : Nat} (hn : n + 31 < 2 ^ 64) :
    ∃ t : Session, t.Reachable ∧ Holds t (P.malloc n).2 := by
  obtain ⟨r, h', hx, -⟩ := mmMalloc_returns hh.represents hh.valid hn
  exact ⟨_, hs.step (.call (c := .malloc n) hn hx), (holds_malloc hh hn hx).2⟩

theorem exists_pairPool : ∃ s : Session, s.Reachable ∧ Holds s pairPool := by
  obtain ⟨s, hs, hh⟩ := zeroSession_holds.malloc_step zeroSession_reachable
    (n := 24) (by decide)
  exact hh.malloc_step hs (by decide)

theorem Holds.hasBlock (hh : Holds s P) {b : Block} (hb : b ∈ P.blocks) :
    HasBlock s.heap b.bp b.size b.alloc.toNat :=
  (hh.represents.toRow.hasBlock_iff hh.valid).mpr (Or.inr ⟨b, hb, rfl, rfl, rfl⟩)

/-- Two blocks are in use, side by side. -/
theorem Holds.pair_live (hh : Holds s pairPool) : s.Live 4128 48 ∧ s.Live 4176 48 := by
  refine ⟨hh.live_iff.mpr ⟨⟨4128, 48, true⟩, ⟨?_, rfl⟩, rfl, rfl⟩,
    hh.live_iff.mpr ⟨⟨4176, 48, true⟩, ⟨?_, rfl⟩, rfl, rfl⟩⟩ <;>
  · rw [pairPool_blocks]
    simp

/-- A session with a block in use between two that are free. -/
theorem exists_mixedSession : ∃ s : Session, s.Reachable ∧ s.Live 4176 48 ∧
    HasBlock s.heap 4128 48 0 := by
  obtain ⟨s, hs, hh⟩ := exists_pairPool
  have hlive : s.live 4128 ≠ none := hh.pair_live.1.2
  obtain ⟨r, h', hx⟩ := hh.returns (c := .free 4128) hlive
  obtain ⟨_, _, hfree, hret⟩ := bind_eq_some.mp hx
  cases hret
  have hh' := holds_free hh hlive hfree
  refine ⟨_, hs.step (.call (c := .free 4128) hlive hx),
    hh'.live_iff.mpr ⟨⟨4176, 48, true⟩, ⟨?_, rfl⟩, rfl, rfl⟩,
    hh'.hasBlock (b := ⟨4128, 48, false⟩) ?_⟩ <;>
  · rw [pairPool_free]
    simp

/-- **The heap is tiled.** In every reachable session the walk from the prologue
ends at the epilogue, and the blocks that it meets tile the bytes between.
Header and footer agree, sizes and pointers are aligned, prologue and epilogue
are taken, and no two neighbours are free. -/
theorem heap_tiling (hs : s.Reachable) :
    ∃ l, Walk s.heap s.heap.prologue (s.heap.prologue :: l) s.heap.memBrk ∧
      Tiles (fun bp => bp - 8) (sizeAt s.heap) (s.heap.heap + 8) (s.heap.prologue :: l)
        (s.heap.memBrk - 8) ∧
      (∀ bp ∈ s.heap.prologue :: l,
        s.heap.word (bp - 8) = s.heap.word (bp + sizeAt s.heap bp - 16)) ∧
      (∀ bp ∈ l, 32 ≤ sizeAt s.heap bp ∧ sizeAt s.heap bp % 16 = 0 ∧ bp % 16 = 0) ∧
      (sizeAt s.heap s.heap.prologue = 16 ∧ allocAt s.heap s.heap.prologue = 1) ∧
      (sizeAt s.heap s.heap.memBrk = 0 ∧ allocAt s.heap s.heap.memBrk = 1) ∧
      (s.heap.prologue :: l).IsChain
        (fun p q => ¬ (allocAt s.heap p = 0 ∧ allocAt s.heap q = 0)) := by
  obtain ⟨P, hh⟩ := hs.holds
  have hv := hh.valid
  have hr := hh.represents.toRow
  have hbase := hr.base
  refine ⟨bps P.blocks, hr.walk hv, ⟨rfl, ?_⟩, ?_, ?_, hr.prologue_eq, hr.epilogue_eq, ?_⟩
  · rw [hr.prologue_eq.1, show s.heap.heap + 8 + 16 = P.base - 8 by omega, ← hr.brk]
    exact tiles_extents (fun b hb => hr.sizeAt_eq hv hb) (by omega) hv.tiles
  · intro bp hbp
    rcases List.mem_cons.mp hbp with rfl | hbp
    · rw [hr.prologue_eq.1]
      exact hr.prologueHeader.trans hr.prologueFooter.symm
    · obtain ⟨b, hb, rfl⟩ := List.mem_map.mp hbp
      rw [hr.sizeAt_eq hv hb, (hr.tags b hb).1, (hr.tags b hb).2]
  · intro bp hbp
    obtain ⟨b, hb, rfl⟩ := List.mem_map.mp hbp
    rw [hr.sizeAt_eq hv hb]
    exact ⟨(hv.sizes b hb).1, (hv.sizes b hb).2, hv.bp_aligned b hb⟩
  · rw [List.isChain_cons]
    refine ⟨fun q _ hpq => ?_, hr.spread hv hh.coalesced⟩
    rw [hr.prologue_eq.2] at hpq
    cases hpq.1

theorem heap_tiling_mixed : ∃ (s : Session) (l : List Nat),
    s.Live 4176 48 ∧ HasBlock s.heap 4128 48 0 ∧
    Walk s.heap s.heap.prologue (s.heap.prologue :: l) s.heap.memBrk ∧
    (s.heap.prologue :: l).IsChain
      (fun p q => ¬ (allocAt s.heap p = 0 ∧ allocAt s.heap q = 0)) := by
  obtain ⟨s, hs, hlive, hfree⟩ := exists_mixedSession
  obtain ⟨l, hl, -, -, -, -, -, hchain⟩ := heap_tiling hs
  exact ⟨s, l, hlive, hfree, hl, hchain⟩

theorem sorted_sizes {l : List Block} (hl : ∀ b ∈ l, sizeAt h b.bp = b.size)
    (hs : l.Pairwise sizeLe) : ((bps l).map (sizeAt h)).Pairwise (· ≤ ·) := by
  rw [List.map_map, List.pairwise_map]
  refine hs.imp_of_mem (fun {b c} hb hc hbc => ?_)
  show sizeAt h b.bp ≤ sizeAt h c.bp
  rw [hl b hb, hl c hc]
  exact hbc

/-- **The free lists hold the free blocks.** In every reachable session list `k`
is a finite chain without repetition, in which `PREV_BLK` leads to the next node
and `NEXT_BLK` back; its sizes ascend, and its members are the free blocks of
class `k`.  All walks along the lists end, and so does every call. -/
theorem free_lists (hs : s.Reachable) :
    (∀ k < maxLen, ∃ l : List Nat, s.heap.segList k = l.headD 0 ∧ l.Nodup ∧ 0 ∉ l ∧
      Seg s.heap.word (fun bp => s.heap.word (bp + 8)) 0 l 0 ∧
      (l.map (sizeAt s.heap)).Pairwise (· ≤ ·) ∧
      ∀ bp, bp ∈ l ↔ ∃ size, HasBlock s.heap bp size 0 ∧ selectList size = (k : Int)) ∧
    (∀ bp size, HasBlock s.heap bp size 0 →
      selectList size = ((min 60 (Nat.log2 size) : Nat) : Int)) ∧
    (∀ k < maxLen, ∀ size, ∃ r, nodeAddLoop size (s.heap.memMaxAddr - s.heap.heap + 1)
      (s.heap.segList k) 0 s.heap = some (r, s.heap)) ∧
    (∀ asize, 0 < asize → asize < 2 ^ 64 → ∃ r, findFit asize s.heap = some (r, s.heap)) ∧
    ∀ c : Call, c.Allowed s → ∃ r h', c.exec s.heap = some (r, h') := by
  obtain ⟨P, hh⟩ := hs.holds
  have hv := hh.valid
  have hr := hh.represents.toRow
  have hl := hh.represents.listed
  have hok := hr.binsOk hv
  have hclass : ∀ b ∈ P.blocks, selectList b.size = (sizeClass b.size : Int) := by
    intro b hb
    have := hr.bounds hv hb
    exact selectList_eq (by omega) (by omega)
  refine ⟨fun k hk => ?_, ?_, ?_, ?_, fun c hc => hh.returns hc⟩
  · have hmem : ∀ b ∈ P.bins k, b ∈ P.blocks := fun b hb => ((hv.mem_bins k b).mp hb).1
    refine ⟨bps (P.bins k), hl.heads k hk, hok.nodup_bps k, ?_, hl.links k hk,
      sorted_sizes (fun b hb => hr.sizeAt_eq hv (hmem b hb)) (hv.sorted k), fun bp => ?_⟩
    · intro h0
      obtain ⟨b, hb, hb0⟩ := List.mem_map.mp h0
      have := (hr.bounds hv (hmem b hb)).1
      omega
    · constructor
      · intro hbp
        obtain ⟨b, hb, rfl⟩ := List.mem_map.mp hbp
        obtain ⟨hbP, hbf, hbk⟩ := (hv.mem_bins k b).mp hb
        exact ⟨b.size, (hr.hasBlock_free hv).mpr ⟨b, hbP, hbf, rfl, rfl⟩, by rw [hclass b hbP, hbk]⟩
      · rintro ⟨size, hblock, hsel⟩
        obtain ⟨b, hbP, hbf, rfl, rfl⟩ := (hr.hasBlock_free hv).mp hblock
        rw [hclass b hbP] at hsel
        exact List.mem_map_of_mem ((hv.mem_bins k b).mpr ⟨hbP, hbf, by omega⟩)
  · intro bp size hblock
    obtain ⟨b, hbP, _, _, rfl⟩ := (hr.hasBlock_free hv).mp hblock
    exact hclass b hbP
  · intro k hk size
    rw [hl.heads k hk]
    obtain ⟨r, h', hx, rfl, _⟩ := nodeAddLoop_returns size hok.limit 0
      (hok.length_lt k) (hok.fits k) (hl.sizes k) (hl.links k hk)
    exact ⟨r, hx⟩
  · intro asize hpos hlt
    obtain ⟨r, h', hx, rfl, _⟩ := findFit_returns hl hok hpos hlt
    exact ⟨r, hx⟩

theorem free_lists_mixed : ∃ (s : Session) (l : List Nat),
    s.Live 4176 48 ∧ 4128 ∈ l ∧ s.heap.segList 5 = l.headD 0 ∧
    Seg s.heap.word (fun bp => s.heap.word (bp + 8)) 0 l 0 ∧
    ∃ r, findFit 48 s.heap = some (r, s.heap) := by
  obtain ⟨s, hs, hlive, hfree⟩ := exists_mixedSession
  obtain ⟨hlists, _, _, hfind, _⟩ := free_lists hs
  obtain ⟨l, hhead, _, _, hseg, _, hmem⟩ := hlists 5 (by decide)
  have hclass : selectList 48 = ((5 : Nat) : Int) := by decide
  exact ⟨s, l, hlive, (hmem 4128).mpr ⟨48, hfree, hclass⟩, hhead, hseg,
    hfind 48 (by decide) (by decide)⟩

end Allocator
end Cmpsc473
