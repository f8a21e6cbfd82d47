import Cmpsc473.Allocator.FreeList

/-!
# Removal from a free list, and the search for a fit

`node_remove` does to memory what `eraseBin` does to the lists, and `find_fit`
finds what `Pool.fit` finds.
-/

namespace Cmpsc473
namespace Allocator

open ByteMemory Total LinkedSegment

/-- `h'` is `h` with the nodes `x` and `y`, either of which may be null, linked to
each other, and `y` the first of list `k` when there is no `x`. -/
structure Joined (h h' : Heap) (k x y : Nat) : Prop where
  heap : h'.heap = h.heap
  memBrk : h'.memBrk = h.memBrk
  memMaxAddr : h'.memMaxAddr = h.memMaxAddr
  heapListp : h'.heapListp = h.heapListp
  segList : h'.segList = if x = 0 then Function.update h.segList k y else h.segList
  fwd_x : x ≠ 0 → h'.word x = y
  bwd_y : y ≠ 0 → h'.word (y + 8) = x
  mem : ∀ z, (x ≠ 0 → z < x ∨ x + 8 ≤ z) → (y ≠ 0 → z < y + 8 ∨ y + 16 ≤ z) →
    h'.mem z = h.mem z

variable {h h' : Heap} {bins : Nat → List Block}

theorem nodeRemove_links {p size k x y : Nat}
    (hsize : h.word (p - 8) &&& sizeMask = size) (hsel : selectList size = (k : Int))
    (hk : k < maxLen) (hfwd : h.word p = y) (hbwd : h.word (p + 8) = x)
    (hp : p % 16 = 0) (hpm : h.heap + 8 ≤ p ∧ p + 16 ≤ h.memMaxAddr)
    (hx : x ≠ 0 → x % 16 = 0 ∧ x ≠ p ∧ h.heap ≤ x ∧ x + 16 ≤ h.memMaxAddr)
    (hy : y ≠ 0 → y % 16 = 0 ∧ y ≠ p ∧ h.heap ≤ y ∧ y + 16 ≤ h.memMaxAddr)
    (hlimit : h.memMaxAddr ≤ 2 ^ 63) :
    Returns (nodeRemove p) h (fun _ h' => Joined h h' k x y) := by
  have hm1 : h.Mapped (p - 8) 8 ∧ h.Mapped p 8 ∧ h.Mapped (p + 8) 8 := by
    unfold Heap.Mapped
    omega
  obtain ⟨hm1, hm2, hm3⟩ := hm1
  have hmx : x ≠ 0 → h.Mapped x 8 := by
    intro hx0
    have := hx hx0
    unfold Heap.Mapped
    omega
  have hmy : y ≠ 0 → h.Mapped (y + 8) 8 := by
    intro hy0
    have := hy hy0
    unfold Heap.Mapped
    omega
  unfold nodeRemove
  simp only [returns_bind, returns_getSize, hdrp_eq (p := p) (by omega) (by omega), hm1, hsize,
    hsel, prevBlk, nextBlk, setPtr, prevPtr, nextPtr_eq (p := p) (by omega), returns_get,
    hm2, hfwd, true_and]
  by_cases hy0 : y = 0
  · by_cases hx0 : x = 0
    · simp only [hy0, hx0, ne_eq, not_true_eq_false, if_false, returns_setSeg hk, returns_bind,
        returns_get, hm3, hbwd, true_and]
      exact { heap := rfl, memBrk := rfl, memMaxAddr := rfl, heapListp := rfl, segList := rfl
              fwd_x := fun hx => absurd rfl hx, bwd_y := fun hy => absurd rfl hy
              mem := fun _ _ _ => rfl }
    · simp only [hy0, hx0, ne_eq, not_true_eq_false, not_false_eq_true, if_true, if_false,
        returns_bind, returns_get, returns_put, hm3, hbwd, true_and, hmx hx0]
      refine { heap := rfl, memBrk := rfl, memMaxAddr := rfl, heapListp := rfl
               segList := by rw [if_neg hx0]; rfl, fwd_x := fun _ => ?_
               bwd_y := fun hy => absurd rfl hy, mem := ?_ }
      · simp (disch := omega)
      · intro z hzx _
        have hzx := hzx hx0
        rw [Heap.mem_store_of_outside _ (by omega)]
  · obtain ⟨hy16, hyp, hylo, hyhi⟩ := hy hy0
    by_cases hx0 : x = 0
    · have hfwd' : (h.store (y + 8) 8 0).word p = y := by
        rw [Heap.word_store_ne _ (by omega), hfwd]
      simp only [hy0, hx0, ne_eq, not_true_eq_false, not_false_eq_true, if_true, if_false,
        returns_bind, returns_get, returns_put, hm2, hm3, hfwd, hbwd, true_and, hmy hy0,
        nextPtr_eq (p := y) (by omega), Heap.store_mapped, hfwd', returns_setSeg hk]
      refine { heap := rfl, memBrk := rfl, memMaxAddr := rfl, heapListp := rfl, segList := rfl
               fwd_x := fun hx => absurd rfl hx, bwd_y := fun _ => ?_, mem := ?_ }
      · simp (disch := omega)
      · intro z _ hzy
        have hzy := hzy hy0
        rw [Heap.setHead_mem, Heap.mem_store_of_outside _ (by omega)]
    · obtain ⟨hx16, hxp, hxlo, hxhi⟩ := hx hx0
      have hfwd' : (h.store (y + 8) 8 x).word p = y := by
        rw [Heap.word_store_ne _ (by omega), hfwd]
      have hbwd' : (h.store (y + 8) 8 x).word (p + 8) = x := by
        rw [Heap.word_store_ne _ (by omega), hbwd]
      simp only [hy0, hx0, ne_eq, not_false_eq_true, if_true, returns_bind, returns_get,
        returns_put, hm2, hm3, hfwd, hbwd, true_and, hmy hy0, hmx hx0,
        nextPtr_eq (p := y) (by omega), Heap.store_mapped, hfwd', hbwd']
      refine { heap := rfl, memBrk := rfl, memMaxAddr := rfl, heapListp := rfl
               segList := by rw [if_neg hx0]; rfl, fwd_x := fun _ => ?_
               bwd_y := fun _ => ?_, mem := ?_ }
      · simp (disch := omega)
      · simp (disch := omega)
      · intro z hzx hzy
        have hzx := hzx hx0
        have hzy := hzy hy0
        rw [Heap.mem_store_of_outside _ (by omega), Heap.mem_store_of_outside _ (by omega)]

theorem Joined.word {k x y q : Nat} (hj : Joined h h' k x y)
    (hx : x ≠ 0 → q + 8 ≤ x ∨ x + 8 ≤ q) (hy : y ≠ 0 → q ≤ y ∨ y + 16 ≤ q) :
    h'.word q = h.word q :=
  Heap.word_congr (fun z hz hz' => hj.mem z
    (fun hx0 => by have := hx hx0; omega) (fun hy0 => by have := hy hy0; omega))

theorem BinsOk.sub {bins' : Nat → List Block} (hok : BinsOk h bins)
    (hsub : ∀ k, ∀ b ∈ bins' k, b ∈ bins k) (hnd : ∀ k, (bins' k).Nodup) : BinsOk h bins' where
  limit := hok.limit
  fits := fun k b hb => hok.fits k b (hsub k b hb)
  cls := fun k b hb => hok.cls k b (hsub k b hb)
  nodup := hnd
  apart := fun j k b hb c hc => hok.apart j k b (hsub j b hb) c (hsub k c hc)

theorem BinsOk.erase (hok : BinsOk h bins) (b : Block) : BinsOk h (eraseBin bins b) :=
  hok.sub (fun _ _ hc => ((mem_eraseBin hok.nodup).mp hc).1) (nodup_eraseBin hok.nodup b)

/-- Joining the neighbours of a listed block takes it off its list. -/
theorem Listed.erase (hl : Listed h bins) (hok : BinsOk h bins) {b : Block} {l r : List Block}
    (hbin : bins (sizeClass b.size) = l ++ b :: r)
    (hj : Joined h h' (sizeClass b.size) ((bps l).getLastD 0) ((bps r).headD 0)) :
    Listed h' (eraseBin bins b) := by
  have hlm : ∀ c ∈ l, c ∈ bins (sizeClass b.size) := fun c hc => by simp [hbin, hc]
  have hrm : ∀ c ∈ r, c ∈ bins (sizeClass b.size) := fun c hc => by simp [hbin, hc]
  have hother : ∀ k, k ≠ sizeClass b.size → eraseBin bins b k = bins k :=
    fun k hk => Function.update_of_ne hk _ _
  have hndb := hok.nodup (sizeClass b.size)
  rw [hbin] at hndb
  have hself : eraseBin bins b (sizeClass b.size) = l ++ r := by
    have hbl : b ∉ l := fun hm => (List.nodup_append.mp hndb).2.2 b hm b List.mem_cons_self rfl
    rw [eraseBin, Function.update_self, hbin, List.erase_append_right _ hbl, List.erase_cons_head]
  have hnd := (hok.erase b).nodup_bps (sizeClass b.size)
  rw [hself, bps, List.map_append] at hnd
  have hkeep := hok.keepsLinks hlm hrm (fun _ _ _ _ _ hx hy => hj.word hx hy)
  refine { heads := hl.heads_update (fun c hc => hok.bp_ne_zero (hlm c hc)) hbin hself hother hj.segList
           links := ?_, sizes := ?_ }
  · intro k hk
    by_cases hkb : k = sizeClass b.size
    · subst hkb
      have hseg := hl.links _ hk
      rw [hbin, bps, List.map_append, List.map_cons] at hseg
      obtain ⟨hlast, hfirst, hfwd, hbwd⟩ := hkeep.ends hok hlm hrm hj.fwd_x hj.bwd_y
      rw [hself, bps, List.map_append]
      exact hseg.remove hnd hlast hfirst hfwd hbwd
    · rw [hother k hkb]
      exact hkeep.other hok hlm hrm hkb (hl.links k hk)
  · intro k c hc
    have hc := ((mem_eraseBin hok.nodup).mp hc).1
    have hlo := (hok.fits k c hc).lo
    have hhead : h'.word (c.bp - 8) = h.word (c.bp - 8) := by
      refine hj.word ?_ ?_
      · intro hx0
        obtain ⟨d, hd, hdx⟩ := getLastD_bps hx0
        rcases hok.apart k _ c hc d (hlm d hd) with rfl | h | h <;> omega
      · intro hy0
        obtain ⟨d, hd, hdy⟩ := headD_bps hy0
        rcases hok.apart k _ c hc d (hrm d hd) with rfl | h | h <;> omega
    rw [hhead, hl.sizes k c hc]

/-- `node_remove` takes a listed block off its list. -/
theorem nodeRemove_returns (hl : Listed h bins) (hok : BinsOk h bins) {b : Block}
    (hb : b ∈ bins (sizeClass b.size)) :
    Returns (nodeRemove b.bp) h (fun _ h' =>
      Listed h' (eraseBin bins b) ∧ LinkFrame bins h h') := by
  have hk := sizeClass_lt b.size
  obtain ⟨l, r, hbin⟩ := List.append_of_mem hb
  have hlm : ∀ c ∈ l, c ∈ bins (sizeClass b.size) := fun c hc => by simp [hbin, hc]
  have hrm : ∀ c ∈ r, c ∈ bins (sizeClass b.size) := fun c hc => by simp [hbin, hc]
  have hseg := hl.links _ hk
  rw [hbin, bps, List.map_append, List.map_cons] at hseg
  have hnode : h.word (b.bp + 8) = (bps l).getLastD 0 ∧ h.word b.bp = (bps r).headD 0 :=
    hseg.at_mid
  obtain ⟨hbwd, hfwd⟩ := hnode
  have hnd := hok.nodup_bps (sizeClass b.size)
  rw [hbin, bps, List.map_append, List.map_cons] at hnd
  obtain ⟨_, hndr, hdisj⟩ := List.nodup_append.mp hnd
  obtain ⟨hba, hblo, hbhi, hbpos, hblt⟩ := hok.fits _ b hb
  have hnear : ∀ c ∈ bins (sizeClass b.size), c.bp ≠ b.bp → c.bp % 16 = 0 ∧ c.bp ≠ b.bp ∧
      h.heap ≤ c.bp ∧ c.bp + 16 ≤ h.memMaxAddr := by
    intro c hc hne
    obtain ⟨ha, hlo, hhi, _, _⟩ := hok.fits _ c hc
    omega
  have hjoin := nodeRemove_links (hl.sizes _ b hb) (selectList_eq hbpos hblt) hk hfwd hbwd hba
    ⟨hblo, hbhi⟩
    (fun hx0 => by
      obtain ⟨c, hc, hcx⟩ := getLastD_bps hx0
      refine hcx ▸ hnear c (hlm c hc) (fun he => ?_)
      exact hdisj c.bp (List.mem_map_of_mem hc) b.bp List.mem_cons_self he)
    (fun hy0 => by
      obtain ⟨c, hc, hcy⟩ := headD_bps hy0
      refine hcy ▸ hnear c (hrm c hc) (fun he => ?_)
      exact (List.nodup_cons.mp hndr).1 (he ▸ List.mem_map_of_mem hc))
    hok.limit
  refine hjoin.mono (fun _ h' hj => ⟨hl.erase hok hbin hj, ?_⟩)
  refine ⟨hj.heap, hj.memBrk, hj.memMaxAddr, hj.heapListp, fun z hz => hj.mem z ?_ ?_⟩
  · intro hx0
    obtain ⟨c, hc, hcx⟩ := getLastD_bps hx0
    have := hz _ c (hlm c hc)
    omega
  · intro hy0
    obtain ⟨c, hc, hcy⟩ := headD_bps hy0
    have := hz _ c (hrm c hc)
    omega

/-- The walk finds the first block of a list that is large enough. -/
theorem findFitWalk_returns {asize : Nat} (hlimit : h.memMaxAddr ≤ 2 ^ 63) {l : List Block}
    {p rounds : Nat} (hlen : l.length < rounds) (hfits : ∀ b ∈ l, Fits h b)
    (hsizes : ∀ b ∈ l, h.word (b.bp - 8) &&& sizeMask = b.size)
    (hseg : Seg h.word (fun p => h.word (p + 8)) p (bps l) 0) :
    Returns (findFitWalk asize rounds ((bps l).headD 0)) h (fun r h' => h' = h ∧
      r = ((l.find? (fun b => asize ≤ b.size)).map Block.bp).getD 0) := by
  induction l generalizing p rounds with
  | nil =>
    obtain ⟨rounds, rfl⟩ := Nat.exists_eq_succ_of_ne_zero (Nat.ne_zero_of_lt hlen)
    simp [findFitWalk]
  | cons b l ih =>
    obtain ⟨rounds, rfl⟩ := Nat.exists_eq_succ_of_ne_zero (Nat.ne_zero_of_lt hlen)
    have hb := hfits b List.mem_cons_self
    have hlo := hb.lo
    have hhi := hb.hi
    obtain ⟨hm1, hm2, _⟩ := hb.mapped
    obtain ⟨_, hfwd, hrest⟩ := hseg
    have hne : b.bp ≠ 0 := by omega
    have hsize := hsizes b List.mem_cons_self
    rw [findFitWalk]
    simp only [List.map_cons, List.headD_cons, hne, ne_eq, not_false_eq_true, if_true,
      returns_bind, returns_getSize, hdrp_eq (p := b.bp) (by omega) (by omega), hsize, hm1,
      true_and, returns_ite]
    by_cases hle : asize ≤ b.size
    · rw [if_pos hle, returns_pure]
      simp [hle]
    · rw [if_neg hle, prevBlk, returns_get]
      refine ⟨hm2, ?_⟩
      rw [hfwd, List.find?_cons_of_neg (by simpa using hle)]
      exact ih (by simpa using hlen) (fun c hc => hfits c (List.mem_cons_of_mem b hc))
        (fun c hc => hsizes c (List.mem_cons_of_mem b hc)) hrest

theorem findFitLists_returns {asize : Nat} (hl : Listed h bins) (hok : BinsOk h bins)
    (lists k : Nat) (hk : k + lists ≤ maxLen) :
    Returns (findFitLists asize lists k) h (fun r h' => h' = h ∧
      r = (((List.range' k lists).findSome? (fun j =>
        (bins j).find? (fun b => asize ≤ b.size))).map Block.bp).getD 0) := by
  induction lists generalizing k with
  | zero => simp [findFitLists]
  | succ lists ih =>
    have hklt : k < maxLen := by omega
    rw [findFitLists]
    simp only [returns_bind, returns_walkRounds, returns_getSeg hklt]
    rw [hl.heads k hklt]
    refine (findFitWalk_returns hok.limit (hok.length_lt k) (hok.fits k)
       (hl.sizes k) (hl.links k hklt)).mono ?_
    rintro r h' ⟨rfl, rfl⟩
    rw [List.range'_succ, List.findSome?_cons]
    cases hf : (bins k).find? (fun b => asize ≤ b.size) with
    | none => simpa using ih (k + 1) (by omega)
    | some b =>
      have := (hok.fits k b (List.mem_of_find?_eq_some hf)).lo
      have hne : b.bp ≠ 0 := by omega
      simp [hne]

theorem findFit_returns {P : Pool} {asize : Nat} (hl : Listed h P.bins) (hok : BinsOk h P.bins)
    (hpos : 0 < asize) (hlt : asize < 2 ^ 64) :
    Returns (findFit asize) h (fun r h' => h' = h ∧ r = ((P.fit asize).map Block.bp).getD 0) := by
  have hk := sizeClass_lt asize
  have hcount : ((maxLen : Int) - selectList asize).toNat = maxLen - sizeClass asize := by
    rw [selectList_eq hpos hlt]
    omega
  unfold findFit Pool.fit
  simp only [hcount]
  rw [selectList_eq hpos hlt]
  exact findFitLists_returns hl hok _ _ (by omega)

end Allocator
end Cmpsc473
