import Cmpsc473.Allocator.Represents

/-!
# Merging in memory

`coalesce` does to memory what `Pool.coalesce` does to the pool.  In each of its
cases the blocks of the run are first taken off their lists, while their tags
still tell their sizes, and only then are the outer tags of the run rewritten.
-/

namespace Cmpsc473
namespace Allocator

open ByteMemory Total Tiling

variable {h₀ h h' : Heap} {P : Pool} {b : Block} {bins : Nat → List Block}

/-- A run that has come to `h`: the row of `P` stands, the lists are `bins`, and
no payload in use has changed since `h₀`. -/
structure Stage (h₀ : Heap) (P : Pool) (bins : Nat → List Block) (h : Heap) : Prop where
  row : Row h P
  listed : Listed h bins
  kept : ∀ c, P.Live c → Kept h₀ h c

theorem Represents.stage (hr : Represents h P) : Stage h P P.bins h :=
  ⟨hr.toRow, hr.listed, fun c _ => Kept.refl h c⟩

theorem Stage.represents (hs : Stage h₀ P P.bins h) : Represents h P :=
  ⟨hs.row, hs.listed⟩

/-- Lists of free blocks of the pool, as they are while blocks are taken off. -/
def Among (bins bins' : Nat → List Block) : Prop :=
  (∀ k, ∀ b ∈ bins k, b ∈ bins' k) ∧ ∀ k, (bins k).Nodup

theorem Pool.Valid.among (hv : P.Valid) : Among P.bins P.bins :=
  ⟨fun _ _ hb => hb, hv.nodup⟩

theorem Among.erase {bins' : Nat → List Block} (ha : Among bins bins') (b : Block) :
    Among (eraseBin bins b) bins' :=
  ⟨fun k c hc => ha.1 k c ((mem_eraseBin ha.2).mp hc).1, nodup_eraseBin ha.2 b⟩

theorem nodeRemove_framed (hs : Stage h₀ P bins h) (hv : P.Valid) (ha : Among bins P.bins)
    (hb : b ∈ bins (sizeClass b.size)) :
    Returns (nodeRemove b.bp) h (fun _ h' =>
      Stage h₀ P (eraseBin bins b) h' ∧ LinkFrame P.bins h h') := by
  have hok := (hs.row.binsOk hv).sub ha.1 ha.2
  have hfree : ∀ k, ∀ c ∈ bins k, c ∈ P.blocks ∧ c.alloc = false := fun k c hc =>
    have hm := (hv.mem_bins k c).mp (ha.1 k c hc)
    ⟨hm.1, hm.2.1⟩
  refine (nodeRemove_returns hs.listed hok hb).mono (fun _ h' hpost => ?_)
  obtain ⟨hl, hf⟩ := hpost
  exact ⟨⟨hs.row.linkFrame hv (fun k c hc => (hfree k c hc).1) hf, hl,
    fun c hc => (hs.kept c hc).trans (hf.kept hv hfree hc)⟩, hf.mono fun k c hc => ⟨k, ha.1 k c hc⟩⟩

theorem nodeRemove_stage (hs : Stage h₀ P bins h) (hv : P.Valid) (ha : Among bins P.bins)
    (hb : b ∈ bins (sizeClass b.size)) :
    Returns (nodeRemove b.bp) h (fun _ h' => Stage h₀ P (eraseBin bins b) h') :=
  (nodeRemove_framed hs hv ha hb).mono fun _ _ hpost => hpost.1

/-- Listing the last block that the bins of a valid pool have and memory has not. -/
theorem nodeAdd_framed (hs : Stage h₀ P bins h) (hv : P.Valid) (hb : b ∈ P.blocks)
    (hbins : P.bins = insertBin bins b) (hnot : ∀ k, b ∉ bins k) (hnd : ∀ k, (bins k).Nodup) :
    Returns (nodeAdd b.bp b.size) h (fun _ h' => Stage h₀ P P.bins h' ∧ LinkFrame P.bins h h') := by
  have hsub : ∀ k, ∀ c ∈ bins k, c ∈ P.bins k := by
    intro k c hc
    rw [hbins]
    exact mem_insertBin.mpr (Or.inr hc)
  have hself : b ∈ P.bins (sizeClass b.size) := by
    rw [hbins]
    exact mem_insertBin.mpr (Or.inl ⟨rfl, rfl⟩)
  have hok := hs.row.binsOk hv
  have hfree : ∀ k, ∀ c ∈ P.bins k, c ∈ P.blocks ∧ c.alloc = false := fun k c hc =>
    have hm := (hv.mem_bins k c).mp hc
    ⟨hm.1, hm.2.1⟩
  have hu : Unlisted bins b :=
    ⟨hnot, fun k c hc => hok.apart _ k b hself c (hsub k c hc)⟩
  refine (nodeAdd_returns hs.listed (hok.sub hsub hnd) (hok.fits _ b hself) hu
    (hs.row.head hv hb).size).mono (fun _ h' hpost => ?_)
  rw [← hbins] at hpost
  obtain ⟨hl, hf⟩ := hpost
  exact ⟨⟨hs.row.linkFrame hv (fun k c hc => (hfree k c hc).1) hf, hl,
    fun c hc => (hs.kept c hc).trans (hf.kept hv hfree hc)⟩, hf⟩

theorem nodeAdd_stage (hs : Stage h₀ P bins h) (hv : P.Valid) (hb : b ∈ P.blocks)
    (hbins : P.bins = insertBin bins b) (hnot : ∀ k, b ∉ bins k) (hnd : ∀ k, (bins k).Nodup) :
    Returns (nodeAdd b.bp b.size) h (fun _ h' => Stage h₀ P P.bins h') :=
  (nodeAdd_framed hs hv hb hbins hnot hnd).mono fun _ _ hpost => hpost.1

theorem Head.store {bp s p v : Nat} (hh : Head h bp s) (hd : p + 8 ≤ bp - 8 ∨ bp ≤ p) :
    Head (h.store p 8 v) bp s :=
  { hh with
    mapped := hh.mapped
    size := by
      have := hh.lo
      rw [h.word_store_ne (by omega)]
      exact hh.size }

theorem Foot.store {bp s p v : Nat} (hf : Foot h bp s) (hd : p + 8 ≤ bp - 16 ∨ bp ≤ p + 8) :
    Foot (h.store p 8 v) bp s :=
  { hf with
    mapped := hf.mapped
    size := by
      have := hf.lo
      rw [h.word_store_ne (by omega)]
      exact hf.size }

/-- A size written to the header is read back from it. -/
theorem Head.written (bp s : Nat) (hlo : 16 ≤ bp) (hend : bp + s < 2 ^ 64)
    (hs : s % 16 = 0) (hm : h.Mapped (bp - 8) 8) : Head (h.store (bp - 8) 8 s) bp s := by
  refine ⟨by omega, by omega, by omega, hm, ?_⟩
  rw [h.word_store_self (by omega), and_sizeMask (by omega)]
  omega

/-- The state between the rewriting of the tags and `node_add`. -/
def MergeDone (h₀ : Heap) (P : Pool) (b : Block) (r : Nat × Nat) (h' : Heap) : Prop :=
  r = ((P.coalesce b).1.bp, (P.coalesce b).1.size) ∧
    Stage h₀ (P.coalesce b).2
      ((b :: (lowerFree b P.blocks ++ upperFree b P.blocks)).foldl eraseBin P.bins) h'

/-- Rewriting the outer tags of a run whose blocks are off their lists. -/
theorem mergeDone (hv : P.Valid) (hb : b ∈ P.blocks) (hf : b.alloc = false)
    (hne : ¬ (lowerFree b P.blocks = [] ∧ upperFree b P.blocks = []))
    (hs : Stage h₀ P
      ((b :: (lowerFree b P.blocks ++ upperFree b P.blocks)).foldl eraseBin P.bins) h)
    {m : Block} (hm : merged (lowerFree b P.blocks) b (upperFree b P.blocks) = m)
    (hc : ChangedIn (m.bp - 8) (m.bp + m.size - 8) h h') (ht : Tagged h' m) :
    MergeDone h₀ P b (m.bp, m.size) h' := by
  have hsplit := hv.split_run hb
  have heq : P.coalesce b = (m, { P with
      blocks := below b P.blocks ++ m :: above b P.blocks
      bins := insertBin
        ((b :: (lowerFree b P.blocks ++ upperFree b P.blocks)).foldl eraseBin P.bins) m }) := by
    unfold Pool.coalesce
    rw [if_neg hne, hm]
  have htiles := hv.tiles
  have hlow := lowerFree_free b P.blocks
  have hup := upperFree_free b P.blocks
  have hmem := fun k c => mem_eraseBins hv.nodup hv.bin_cls
    (l := b :: (lowerFree b P.blocks ++ upperFree b P.blocks)) (c := c) (k := k)
  unfold MergeDone
  rw [heq]
  refine ⟨rfl, ?_⟩
  generalize (b :: (lowerFree b P.blocks ++ upperFree b P.blocks)).foldl eraseBin P.bins = bins
    at hs hmem ⊢
  generalize lowerFree b P.blocks = ps at *
  generalize upperFree b P.blocks = ns at *
  generalize below b P.blocks = l at *
  generalize above b P.blocks = r at *
  rw [hsplit, tiles_append] at htiles
  obtain ⟨hi, htlm, htr⟩ := htiles
  obtain ⟨lo, htl, htm⟩ := tiles_append.mp htlm
  have htmm := tiles_merged htm
  rw [hm] at htmm
  obtain ⟨rfl, rfl⟩ := htmm
  have hside : ∀ c, c ∈ P.blocks → c ∉ ps ++ b :: ns → c ∈ l ∨ c ∈ r := by
    intro c hcP hcm
    rw [hsplit, List.mem_append, List.mem_append] at hcP
    rcases hcP with (hcl | hc') | hcr
    · exact Or.inl hcl
    · exact absurd hc' hcm
    · exact Or.inr hcr
  have hnotMid : ∀ c, c.alloc = true → c ∉ ps ++ b :: ns := by
    intro c hca hcm
    simp only [List.mem_append, List.mem_cons] at hcm
    rcases hcm with hcm | rfl | hcm
    · simp [hlow c hcm] at hca
    · simp [hf] at hca
    · simp [hup c hcm] at hca
  refine ⟨?_, ?_, ?_⟩
  · have := hs.row.replace hv hsplit htl htm htr hc
      [m] (fun c hcm => List.mem_singleton.mp hcm ▸ ht) (insertBin bins m)
    simpa using this
  · refine Listed.replace hs.row hv hsplit htl htr hc hs.listed (fun k c hck => ?_)
    obtain ⟨hcb, hcm⟩ := (hmem k c).mp hck
    refine hside c ((hv.mem_bins k c).mp hcb).1 (fun hc' => hcm ?_)
    rcases List.mem_append.mp hc' with hc' | hc'
    · exact List.mem_cons_of_mem b (List.mem_append_left ns hc')
    · rcases List.mem_cons.mp hc' with rfl | hc'
      · exact List.mem_cons_self
      · exact List.mem_cons_of_mem b (List.mem_append_right ps hc')
  · intro c hlive
    have hcP : c ∈ P.blocks := by
      rw [hsplit, List.mem_append, List.mem_append]
      rcases List.mem_append.mp hlive.1 with hcl | hcr
      · exact Or.inl (Or.inl hcl)
      · rcases List.mem_cons.mp hcr with rfl | hcr
        · rw [← hm] at hlive
          cases hlive.2
        · exact Or.inr hcr
    exact (hs.kept c ⟨hcP, hlive.2⟩).trans
      (ChangedIn.kept hs.row hv hsplit htl htr hc (hside c hcP (hnotMid c hlive.2)))

/-- The bytes that a merge into `m` leaves alone. -/
def MergeFrame (P : Pool) (m : Block) (h h' : Heap) : Prop :=
  ∀ x, (x < m.bp - 8 ∨ m.bp + m.size - 8 ≤ x) →
    (∀ k, ∀ c ∈ P.bins k, x < c.bp ∨ c.bp + 16 ≤ x) → h'.mem x = h.mem x

theorem mergeDone_framed (hv : P.Valid) (hb : b ∈ P.blocks) (hf : b.alloc = false)
    (hne : ¬ (lowerFree b P.blocks = [] ∧ upperFree b P.blocks = [])) {h₁ : Heap}
    (hframe : LinkFrame P.bins h₁ h)
    (hs : Stage h₀ P
      ((b :: (lowerFree b P.blocks ++ upperFree b P.blocks)).foldl eraseBin P.bins) h)
    {m : Block} (hm : merged (lowerFree b P.blocks) b (upperFree b P.blocks) = m)
    (hc : ChangedIn (m.bp - 8) (m.bp + m.size - 8) h h') (ht : Tagged h' m) :
    MergeDone h₀ P b (m.bp, m.size) h' ∧ MergeFrame P (P.coalesce b).1 h₁ h' := by
  refine ⟨mergeDone hv hb hf hne hs hm hc ht, ?_⟩
  rw [(Pool.coalesce_blocks hv hb hf).2, hm]
  exact fun x hx hlinks => (hc.mem x hx).trans (hframe.mem x hlinks)

section Cases

variable {n p : Block} (hv : P.Valid) (hb : b ∈ P.blocks) (hf : b.alloc = false)
  (hs : Stage h₀ P P.bins h)

include hv hb hf hs

omit hs in
/-- The neighbours in the run of `b`. -/
theorem run_mem {c : Block} (hc : c ∈ lowerFree b P.blocks ++ upperFree b P.blocks) :
    c ∈ P.blocks ∧ c.alloc = false ∧ c ≠ b := by
  have hsplit := hv.split_run hb
  have hnd := hv.nodup_blocks
  rw [hsplit] at hnd
  have hrun := (List.nodup_append.mp (List.nodup_append.mp hnd).1).2.1
  obtain ⟨_, hndr, hdisj⟩ := List.nodup_append.mp hrun
  rcases List.mem_append.mp hc with hc | hc
  · refine ⟨?_, lowerFree_free b _ c hc, ?_⟩
    · rw [hsplit]
      simp [hc]
    · exact hdisj c hc b List.mem_cons_self
  · refine ⟨?_, upperFree_free b _ c hc, ?_⟩
    · rw [hsplit]
      simp [hc]
    · rintro rfl
      exact (List.nodup_cons.mp hndr).1 hc

/-- Case 2: the block above is free. -/
theorem coalesceMerge_upper (hlow : lowerFree b P.blocks = []) (hup : upperFree b P.blocks = [n])
    (hn : n.bp = b.bp + b.size) {pa : Nat} (hpa : pa ≠ 0) :
    Returns (coalesceMerge b.bp b.size pa 0) h (fun r h' =>
      MergeDone h₀ P b r h' ∧ MergeFrame P (P.coalesce b).1 h h') := by
  obtain ⟨hnP, hnf, hnb⟩ := run_mem hv hb hf (c := n) (by simp [hup])
  have hbb := hs.row.bounds hv hb
  have hnn := hs.row.bounds hv hnP
  unfold coalesceMerge
  simp only [hpa, ne_eq, not_false_eq_true, and_self, if_true, returns_bind]
  refine (nodeRemove_framed hs hv hv.among ((hv.mem_bins _ b).mpr ⟨hb, hf, rfl⟩)).mono ?_
  rintro _ h₁ ⟨hs₁, hf₁⟩
  simp only [(hs₁.row.head hv hb).returns_nextBlkp, ← hn]
  have hn₁ : n ∈ eraseBin P.bins b (sizeClass n.size) :=
    (mem_eraseBin hv.nodup).mpr ⟨(hv.mem_bins _ n).mpr ⟨hnP, hnf, rfl⟩, fun he => hnb he.1⟩
  refine (nodeRemove_framed hs₁ hv (hv.among.erase b) hn₁).mono ?_
  rintro _ h₂ ⟨hs₂, hf₂⟩
  have hbounds := hs₂.row.bounds hv hb
  have hbounds' := hs₂.row.bounds hv hnP
  simp only [(hs₂.row.head hv hb).returns_nextBlkp, ← hn, (hs₂.row.head hv hnP).returns_size]
  rw [Nat.mod_eq_of_lt (by omega), pack_zero]
  have hm : merged (lowerFree b P.blocks) b (upperFree b P.blocks) =
      ⟨b.bp, b.size + n.size, false⟩ := by
    rw [hlow, hup]
    rfl
  have hmap := (hs₂.row.head hv hb).mapped
  have hwr := Head.written (h := h₂) b.bp (b.size + n.size) (by omega) (by omega)
    (by omega) hmap
  have hmap2 : h₂.Mapped (b.bp + (b.size + n.size) - 16) 8 := by
    unfold Heap.Mapped
    omega
  simp only [(hs₂.row.head hv hb).hdrp, returns_put, hmap, true_and, hwr.returns_ftrp,
    Heap.store_mapped, hmap2, returns_pure]
  refine mergeDone_framed hv hb hf (by rw [hup]; simp) (hf₁.trans hf₂)
    (by rw [hlow, hup]; exact hs₂) hm ?_ ?_
  · refine ((ChangedIn.refl _ _ h₂).store ?_ ?_).store ?_ ?_ <;> simp only <;> omega
  · constructor
    · simp only [Block.tag, Bool.toNat_false, Nat.add_zero]
      rw [Heap.word_store_ne _ (by omega), Heap.word_store_self _ (by omega)]
    · exact Heap.word_store_self _ (by omega)

/-- Case 3: the block below is free. -/
theorem coalesceMerge_lower (hlow : lowerFree b P.blocks = [p]) (hup : upperFree b P.blocks = [])
    (hp : p.bp + p.size = b.bp) (hfoot : ∀ h, Row h P → Foot h b.bp p.size) {na : Nat}
    (hna : na ≠ 0) :
    Returns (coalesceMerge b.bp b.size 0 na) h (fun r h' =>
      MergeDone h₀ P b r h' ∧ MergeFrame P (P.coalesce b).1 h h') := by
  obtain ⟨hpP, hpf, hpb⟩ := run_mem hv hb hf (c := p) (by simp [hlow])
  have hbb := hs.row.bounds hv hb
  have hpp := hs.row.bounds hv hpP
  have hpbp : b.bp - p.size = p.bp := by omega
  unfold coalesceMerge
  simp only [hna, ne_eq, not_false_eq_true, not_true_eq_false, and_self, if_true,
    if_false, returns_bind]
  refine (nodeRemove_framed hs hv hv.among ((hv.mem_bins _ b).mpr ⟨hb, hf, rfl⟩)).mono ?_
  rintro _ h₁ ⟨hs₁, hf₁⟩
  simp only [(hfoot h₁ hs₁.row).returns_prevBlkp, hpbp]
  have hp₁ : p ∈ eraseBin P.bins b (sizeClass p.size) :=
    (mem_eraseBin hv.nodup).mpr ⟨(hv.mem_bins _ p).mpr ⟨hpP, hpf, rfl⟩, fun he => hpb he.1⟩
  refine (nodeRemove_framed hs₁ hv (hv.among.erase b) hp₁).mono ?_
  rintro _ h₂ ⟨hs₂, hf₂⟩
  have hbounds := hs₂.row.bounds hv hb
  have hfoot₂ := hfoot h₂ hs₂.row
  simp only [hfoot₂.returns_prevBlkp, hpbp, (hs₂.row.head hv hpP).returns_size,
    (hs₂.row.head hv hb).returns_ftrp]
  rw [Nat.mod_eq_of_lt (by omega), pack_zero]
  have hm : merged (lowerFree b P.blocks) b (upperFree b P.blocks) =
      ⟨p.bp, p.size + b.size, false⟩ := by
    rw [hlow, hup]
    rfl
  have hmap := (hs₂.row.head hv hpP).mapped
  have hmap2 : h₂.Mapped (b.bp + b.size - 16) 8 := by
    unfold Heap.Mapped
    omega
  have hfoot₃ := hfoot₂.store (p := b.bp + b.size - 16) (v := b.size + p.size) (by omega)
  have hfoot₄ := hfoot₃.store (p := p.bp - 8) (v := b.size + p.size) (by omega)
  simp only [returns_put, hmap, hmap2, true_and, hfoot₃.returns_prevBlkp, hpbp,
    (hs₂.row.head hv hpP).hdrp, Heap.store_mapped, hfoot₄.returns_prevBlkp, returns_pure]
  rw [Nat.add_comm b.size p.size]
  refine mergeDone_framed hv hb hf (by rw [hlow]; simp) (hf₁.trans hf₂)
    (by rw [hlow, hup]; exact hs₂) hm ?_ ?_
  · refine ((ChangedIn.refl _ _ h₂).store ?_ ?_).store ?_ ?_ <;> simp only <;> omega
  · constructor
    · exact Heap.word_store_self _ (by omega)
    · simp only [Block.tag, Bool.toNat_false, Nat.add_zero]
      rw [Heap.word_store_ne _ (by omega), show p.bp + (p.size + b.size) - 16 = b.bp + b.size - 16
        by omega, Heap.word_store_self _ (by omega)]

/-- Case 4: both neighbours are free. -/
theorem coalesceMerge_both (hlow : lowerFree b P.blocks = [p]) (hup : upperFree b P.blocks = [n])
    (hp : p.bp + p.size = b.bp) (hfoot : ∀ h, Row h P → Foot h b.bp p.size)
    (hn : n.bp = b.bp + b.size) :
    Returns (coalesceMerge b.bp b.size 0 0) h (fun r h' =>
      MergeDone h₀ P b r h' ∧ MergeFrame P (P.coalesce b).1 h h') := by
  obtain ⟨hpP, hpf, hpb⟩ := run_mem hv hb hf (c := p) (by simp [hlow])
  obtain ⟨hnP, hnf, hnb⟩ := run_mem hv hb hf (c := n) (by simp [hup])
  have hbb := hs.row.bounds hv hb
  have hpp := hs.row.bounds hv hpP
  have hnn := hs.row.bounds hv hnP
  have hpbp : b.bp - p.size = p.bp := by omega
  have hpn : n ≠ p := by
    rintro rfl
    omega
  unfold coalesceMerge
  simp only [ne_eq, not_true_eq_false, and_false, false_and, if_false, returns_bind]
  refine (nodeRemove_framed hs hv hv.among ((hv.mem_bins _ b).mpr ⟨hb, hf, rfl⟩)).mono ?_
  rintro _ h₁ ⟨hs₁, hf₁⟩
  simp only [(hfoot h₁ hs₁.row).returns_prevBlkp, hpbp]
  have hp₁ : p ∈ eraseBin P.bins b (sizeClass p.size) :=
    (mem_eraseBin hv.nodup).mpr ⟨(hv.mem_bins _ p).mpr ⟨hpP, hpf, rfl⟩, fun he => hpb he.1⟩
  refine (nodeRemove_framed hs₁ hv (hv.among.erase b) hp₁).mono ?_
  rintro _ h₂ ⟨hs₂, hf₂⟩
  simp only [(hs₂.row.head hv hb).returns_nextBlkp, ← hn]
  have hn₂ : n ∈ eraseBin (eraseBin P.bins b) p (sizeClass n.size) :=
    (mem_eraseBin (nodup_eraseBin hv.nodup b)).mpr
      ⟨(mem_eraseBin hv.nodup).mpr ⟨(hv.mem_bins _ n).mpr ⟨hnP, hnf, rfl⟩, fun he => hnb he.1⟩,
        fun he => hpn he.1⟩
  refine (nodeRemove_framed hs₂ hv ((hv.among.erase b).erase p) hn₂).mono ?_
  rintro _ h₃ ⟨hs₃, hf₃⟩
  have hbounds := hs₃.row.bounds hv hb
  have hbounds' := hs₃.row.bounds hv hnP
  have hfoot₃ := hfoot h₃ hs₃.row
  have hhead₃ := hs₃.row.head hv hb
  simp only [hfoot₃.returns_prevBlkp, hpbp, (hs₃.row.head hv hpP).returns_size,
    hhead₃.returns_nextBlkp, ← hn, (hs₃.row.head hv hnP).returns_size]
  rw [Nat.mod_eq_of_lt (by omega), pack_zero]
  have hm : merged (lowerFree b P.blocks) b (upperFree b P.blocks) =
      ⟨p.bp, p.size + (b.size + n.size), false⟩ := by
    rw [hlow, hup]
    rfl
  have hmap := (hs₃.row.head hv hpP).mapped
  have hmap2 : h₃.Mapped (n.bp + n.size - 16) 8 := by
    unfold Heap.Mapped
    omega
  have hhead₄ := hhead₃.store (p := p.bp - 8) (v := b.size + (p.size + n.size)) (by omega)
  have hhead₄' := (hs₃.row.head hv hnP).store (p := p.bp - 8)
    (v := b.size + (p.size + n.size)) (by omega)
  have hfoot₄ := hfoot₃.store (p := p.bp - 8) (v := b.size + (p.size + n.size)) (by omega)
  have hfoot₅ := hfoot₄.store (p := n.bp + n.size - 16) (v := b.size + (p.size + n.size))
    (by omega)
  simp only [(hs₃.row.head hv hpP).hdrp, returns_put, hmap, hmap2, true_and,
    hhead₄.returns_nextBlkp, ← hn, hhead₄'.returns_ftrp, Heap.store_mapped,
    hfoot₅.returns_prevBlkp, hpbp, returns_pure]
  rw [show b.size + (p.size + n.size) = p.size + (b.size + n.size) by omega]
  refine mergeDone_framed hv hb hf (by rw [hlow]; simp) ((hf₁.trans hf₂).trans hf₃)
    (by rw [hlow, hup]; exact hs₃) hm ?_ ?_
  · refine ((ChangedIn.refl _ _ h₃).store ?_ ?_).store ?_ ?_ <;> simp only <;> omega
  · constructor
    · simp only [Block.tag, Bool.toNat_false, Nat.add_zero]
      rw [Heap.word_store_ne _ (by omega), Heap.word_store_self _ (by omega)]
    · simp only [Block.tag, Bool.toNat_false, Nat.add_zero]
      rw [show p.bp + (p.size + (b.size + n.size)) - 16 = n.bp + n.size - 16 by omega,
        Heap.word_store_self _ (by omega)]

end Cases

/-- `coalesce` on a listed free block merges it with its free neighbours. -/
theorem coalesce_framed (hv : P.Valid) (hb : b ∈ P.blocks) (hf : b.alloc = false)
    (hs : Stage h₀ P P.bins h) :
    Returns (coalesce b.bp) h (fun r h' =>
      r = (P.coalesce b).1.bp ∧ Stage h₀ (P.coalesce b).2 (P.coalesce b).2.bins h' ∧
        MergeFrame P (P.coalesce b).1 h h') := by
  obtain ⟨p, hp, hplo, hphead, hpfoot, hpalloc, hlow⟩ := hs.row.lower hv hb
  obtain ⟨n, hn, hnhead, hnalloc, _, hup⟩ := hs.row.upper hv hb
  have hhead := hs.row.head hv hb
  have hpbp : b.bp - p.size = p.bp := by omega
  have hfoot : ∀ h, p.alloc = false → Row h P → Foot h b.bp p.size := by
    intro h' hpa hr'
    obtain ⟨p', _, _, _, hfoot', _, hlow'⟩ := hr'.lower hv hb
    rw [hlow, hpa] at hlow'
    cases hpa' : p'.alloc with
    | true => simp [hpa'] at hlow'
    | false =>
      simp only [hpa', Bool.false_eq_true, if_false, List.cons.injEq, and_true] at hlow'
      rwa [hlow']
  unfold coalesce
  simp only [returns_bind, hpfoot.returns_prevBlkp, hpbp, returns_getAlloc, hphead.hdrp,
    hphead.mapped, hpalloc, true_and, hhead.returns_nextBlkp, ← hn, hnhead.hdrp, hnhead.mapped,
    hnalloc, hhead.returns_size, returns_ite, returns_pure]
  split
  · -- Case 1: both neighbours are taken.
    rename_i htaken
    have hpa : p.alloc = true :=
      Bool.eq_true_of_not_eq_false fun h => htaken.1 (Bool.toNat_eq_zero.mpr h)
    have hna : n.alloc = true :=
      Bool.eq_true_of_not_eq_false fun h => htaken.2 (Bool.toNat_eq_zero.mpr h)
    have heq : P.coalesce b = (b, P) := by
      unfold Pool.coalesce
      rw [if_pos (by simp [hlow, hup, hpa, hna])]
    rw [heq]
    exact ⟨rfl, hs, fun _ _ _ => rfl⟩
  · rename_i hfree
    have hne : ¬ (lowerFree b P.blocks = [] ∧ upperFree b P.blocks = []) := by
      rw [hlow, hup]
      cases hpa : p.alloc <;> cases hna : n.alloc <;> simp_all
    have hmerge : Returns (coalesceMerge b.bp b.size p.alloc.toNat n.alloc.toNat) h (fun r h' =>
        MergeDone h₀ P b r h' ∧ MergeFrame P (P.coalesce b).1 h h') := by
      cases hpa : p.alloc with
      | true =>
        cases hna : n.alloc with
        | true => simp [hlow, hup, hpa, hna] at hne
        | false =>
          exact coalesceMerge_upper hv hb hf hs (by rw [hlow, hpa]; rfl) (by rw [hup, hna]; rfl)
            hn (by decide)
      | false =>
        cases hna : n.alloc with
        | true =>
          exact coalesceMerge_lower hv hb hf hs (by rw [hlow, hpa]; rfl) (by rw [hup, hna]; rfl)
            hp (fun h' => hfoot h' hpa) (by decide)
        | false =>
          exact coalesceMerge_both hv hb hf hs (by rw [hlow, hpa]; rfl) (by rw [hup, hna]; rfl)
            hp (fun h' => hfoot h' hpa) hn
    refine hmerge.mono ?_
    rintro r h' ⟨⟨rfl, hs'⟩, hframe⟩
    have hm := Pool.merged_notMem hv hb hne
    have hnotBin : ∀ k, (P.coalesce b).1 ∉
        (b :: (lowerFree b P.blocks ++ upperFree b P.blocks)).foldl eraseBin P.bins k := by
      intro k hk
      unfold Pool.coalesce at hk
      rw [if_neg hne] at hk
      have hk := ((mem_eraseBins hv.nodup hv.bin_cls).mp hk).1
      exact hm ((hv.mem_bins _ _).mp hk).1
    have hbins : (P.coalesce b).2.bins = insertBin
        ((b :: (lowerFree b P.blocks ++ upperFree b P.blocks)).foldl eraseBin P.bins)
        (P.coalesce b).1 := by
      unfold Pool.coalesce
      rw [if_neg hne]
    have hfst := Pool.coalesce_fst hv hb hf
    have hsize := ((Pool.valid_coalesce hv hb).sizes _ hfst.1).1
    refine (nodeAdd_framed hs' (Pool.valid_coalesce hv hb) hfst.1 hbins hnotBin
      (nodup_eraseBins hv.nodup _)).mono (fun _ h'' hs'' => ⟨rfl, hs''.1, fun x hx hlinks => ?_⟩)
    refine (hs''.2.mem x fun k c hc => ?_).trans (hframe x hx hlinks)
    rw [hbins] at hc
    rcases mem_insertBin.mp hc with ⟨rfl, _⟩ | hc
    · omega
    · exact hlinks k c ((mem_eraseBins hv.nodup hv.bin_cls).mp hc).1

theorem coalesce_stage (hv : P.Valid) (hb : b ∈ P.blocks) (hf : b.alloc = false)
    (hs : Stage h₀ P P.bins h) :
    Returns (coalesce b.bp) h (fun r h' =>
      r = (P.coalesce b).1.bp ∧ Stage h₀ (P.coalesce b).2 (P.coalesce b).2.bins h') :=
  (coalesce_framed hv hb hf hs).mono fun _ _ hpost => ⟨hpost.1, hpost.2.1⟩

end Allocator
end Cmpsc473
