import Cmpsc473.Allocator.RefinesCoalesce

/-!
# The calls in memory

Each function of the interface does to memory what the operation of the same
name does to the pool, and changes no payload in use but the one it is given.
-/

namespace Cmpsc473
namespace Allocator

open ByteMemory Total Tiling

variable {h₀ h h' : Heap} {P : Pool} {b : Block} {bins : Nat → List Block}

/-- The heap after `mem_sbrk` and the three tags that `extend_heap` writes. -/
def extendTags (h : Heap) (size : Nat) : Heap :=
  ((({ h with memBrk := h.memBrk + size }.store (h.memBrk - 8) 8 size).store
    (h.memBrk + size - 16) 8 size).store (h.memBrk + size - 8) 8 1)

theorem extendTags_stage (hr : Represents h P) (hv : P.Valid) {size : Nat} (hsize : 32 ≤ size)
    (hlimit : P.brk + size ≤ P.limit) :
    Stage h (P.extended size) P.bins (extendTags h size) := by
  have hle := hv.tiles.le
  have hlim := hv.limit_le
  have hbase := hr.base
  have hbrk := hr.brk
  have hword : ∀ p, p + 8 ≤ h.memBrk - 8 → (extendTags h size).word p = h.word p := by
    intro p hp
    unfold extendTags
    rw [Heap.word_store_ne _ (by omega), Heap.word_store_ne _ (by omega),
      Heap.word_store_ne _ (by omega)]
    rfl
  refine { row := ?_, listed := ?_, kept := ?_ }
  · refine {
      heap_pos := hr.heap_pos
      base := hr.base
      brk := by show P.brk + size = h.memBrk + size; omega
      limit := hr.limit
      heapListp := hr.heapListp
      tags := ?_
      prologueHeader := ?_
      prologueFooter := ?_
      epilogue := ?_ }
    · intro c hc
      rcases List.mem_append.mp hc with hc | hc
      · have := hr.bounds hv hc
        unfold Tagged
        rw [hword _ (by omega), hword _ (by omega)]
        exact hr.tags c hc
      · rw [List.mem_singleton.mp hc]
        unfold Tagged extendTags
        simp only [Block.tag, Bool.toNat_false, Nat.add_zero, hbrk]
        constructor
        · rw [Heap.word_store_ne _ (by omega), Heap.word_store_ne _ (by omega),
            Heap.word_store_self _ (by omega)]
        · rw [Heap.word_store_ne _ (by omega), Heap.word_store_self _ (by omega)]
    · exact (hword (h.heap + 8) (by omega)).trans hr.prologueHeader
    · exact (hword (h.heap + 16) (by omega)).trans hr.prologueFooter
    · exact Heap.word_store_self _ (by omega)
  · have hlinks : ∀ k, ∀ c ∈ P.bins k, (extendTags h size).word c.bp = h.word c.bp ∧
        (extendTags h size).word (c.bp + 8) = h.word (c.bp + 8) ∧
        (extendTags h size).word (c.bp - 8) = h.word (c.bp - 8) := by
      intro k c hc
      have := hr.bounds hv ((hv.mem_bins k c).mp hc).1
      exact ⟨hword _ (by omega), hword _ (by omega), hword _ (by omega)⟩
    refine { heads := hr.listed.heads, links := fun k hk => ?_, sizes := fun k c hc => ?_ }
    · refine (hr.listed.links k hk).congr (fun x hx => ?_) (fun x hx => ?_)
      · obtain ⟨c, hc, rfl⟩ := List.mem_map.mp hx
        exact (hlinks k c hc).1
      · obtain ⟨c, hc, rfl⟩ := List.mem_map.mp hx
        exact (hlinks k c hc).2.1
    · rw [(hlinks k c hc).2.2, hr.listed.sizes k c hc]
  · rintro c ⟨hc, hca⟩ x hx hx'
    rcases List.mem_append.mp hc with hc | hc
    · have := hr.bounds hv hc
      unfold extendTags
      rw [Heap.mem_store_of_outside _ (by omega), Heap.mem_store_of_outside _ (by omega),
        Heap.mem_store_of_outside _ (by omega)]
    · rw [List.mem_singleton.mp hc] at hca
      cases hca

theorem memSbrk_refused (size : Nat) (hlim : h.memMaxAddr ≤ 2 ^ 63) (hbrk : h.memBrk ≤ h.memMaxAddr)
    (hroom : ¬ h.memBrk + size ≤ h.memMaxAddr) :
    memSbrk size h = some (sbrkFailed, h) := by
  unfold memSbrk
  by_cases hneg : 2 ^ 63 ≤ size
  · rw [if_pos hneg]
  · rw [if_neg hneg, if_pos (by rw [ptrAdd_eq (by omega)]; omega)]

theorem memSbrk_granted (size : Nat) (hlim : h.memMaxAddr ≤ 2 ^ 63) (hpos : 0 < h.memBrk)
    (hroom : h.memBrk + size ≤ h.memMaxAddr) :
    memSbrk size h = some (h.memBrk, { h with memBrk := h.memBrk + size }) := by
  unfold memSbrk
  rw [if_neg (by omega), ptrAdd_eq (by omega), if_neg (by omega)]

/-- The size that `extend_heap` computes from an even number of words. -/
theorem extendSize_eq {size : Nat} (halign : size % 16 = 0) (hlt : size < 2 ^ 64) :
    (if size / wsize % 2 ≠ 0 then (size / wsize + 1) % 2 ^ 64 * wsize % 2 ^ 64
      else size / wsize * wsize % 2 ^ 64) = size := by
  unfold wsize
  rw [if_neg (by omega)]
  omega

/-- `extend_heap`, given an even number of words. -/
theorem extendHeap_returns (hr : Represents h P) (hv : P.Valid) (size : Nat) (hsize : 32 ≤ size)
    (halign : size % 16 = 0) (hlt : size < 2 ^ 64) :
    Returns (extendHeap (size / wsize)) h (fun r h' =>
      if P.brk + size ≤ P.limit then
        r = (P.grow size).1.bp ∧ Stage h (P.grow size).2 (P.grow size).2.bins h'
      else r = 0 ∧ h' = h) := by
  have hle := hv.tiles.le
  have hlim := hv.limit_le
  have hbase := hr.base
  have hbrk := hr.brk
  have hlimit := hr.limit
  have hbl := hv.brk_le
  unfold extendHeap
  simp only [extendSize_eq halign hlt, returns_bind]
  by_cases hroom : P.brk + size ≤ P.limit
  · simp only [hroom, if_true]
    rw [returns_of_eq (memSbrk_granted (h := h) size (by omega) (by omega) (by omega))]
    have hne : h.memBrk ≠ sbrkFailed := by
      unfold sbrkFailed
      omega
    have hmap : h.Mapped (h.memBrk - 8) 8 ∧ h.Mapped (h.memBrk + size - 16) 8 ∧
        h.Mapped (h.memBrk + size - 8) 8 := by
      unfold Heap.Mapped
      omega
    obtain ⟨hm1, hm2, hm3⟩ := hmap
    have hset : ∀ p n, ({ h with memBrk := h.memBrk + size } : Heap).Mapped p n ↔ h.Mapped p n :=
      fun _ _ => Iff.rfl
    have hhead := Head.written (h := { h with memBrk := h.memBrk + size }) h.memBrk size
      (by omega) (by omega) halign hm1
    have hhead' := hhead.store (p := h.memBrk + size - 16) (v := size) (by omega)
    have hstage := extendTags_stage hr hv hsize hroom
    have hvext := hv.extended hsize halign hroom
    have hnot : ∀ k, (⟨P.brk, size, false⟩ : Block) ∉ P.bins k :=
      fun k hk => Nat.lt_irrefl _ (hv.bp_lt_brk ((hv.mem_bins k _).mp hk).1)
    simp only [hne, if_false, returns_bind, pack_zero, hdrp_eq (p := h.memBrk) (by omega)
      (by omega), returns_put, hset, hm1, hm2, hm3, true_and, hhead.returns_ftrp,
      Heap.store_mapped, hhead'.returns_nextBlkp, hdrp_eq (p := h.memBrk + size) (by omega)
      (by omega), show pack 0 1 = 1 from rfl]
    have hadd := nodeAdd_stage hstage hvext (Pool.mem_extended P size) rfl hnot hv.nodup
    rw [show (⟨P.brk, size, false⟩ : Block).bp = h.memBrk from hbrk] at hadd
    refine hadd.mono (fun _ h₁ hs₁ => ?_)
    have hco := coalesce_stage hvext (Pool.mem_extended P size) rfl hs₁
    rw [show (⟨P.brk, size, false⟩ : Block).bp = h.memBrk from hbrk] at hco
    exact hco
  · simp only [hroom, if_false]
    rw [returns_of_eq (memSbrk_refused (h := h) size (by omega) (by omega) (by omega))]
    rw [if_pos rfl, returns_pure]
    exact ⟨rfl, rfl⟩

/-- Tags written within the extent of a block that is on no list. -/
theorem Stage.retag (hs : Stage h₀ P bins h) (hv : P.Valid) (hb : b ∈ P.blocks)
    (hbins : ∀ k c, c ∈ bins k → c ∈ P.bins k ∧ c ≠ b) (h' : Heap) (mid' : List Block)
    (hc : ChangedIn (b.bp - 8) (b.bp + b.size - 8) h h')
    (ht : ∀ c ∈ mid', Tagged h' c) (bins' : Nat → List Block) :
    Row h' { P with blocks := before b P.blocks ++ mid' ++ after b P.blocks, bins := bins' } ∧
      Listed h' bins ∧ ∀ c, P.Live c → c ≠ b → Kept h₀ h' c := by
  have hsplit : P.blocks = before b P.blocks ++ [b] ++ after b P.blocks := by
    simpa using hv.split hb
  have htiles := hv.tiles
  rw [hv.split hb, tiles_mid] at htiles
  obtain ⟨htl, htr⟩ := htiles
  have htm : Tiles Block.bp Block.size b.bp [b] (b.bp + b.size) := ⟨rfl, rfl⟩
  have hside : ∀ c ∈ P.blocks, c ≠ b → c ∈ before b P.blocks ∨ c ∈ after b P.blocks := by
    intro c hcP hcb
    rw [hv.split hb] at hcP
    rcases List.mem_append.mp hcP with hcl | hcr
    · exact Or.inl hcl
    · rcases List.mem_cons.mp hcr with rfl | hcr
      · exact absurd rfl hcb
      · exact Or.inr hcr
  refine ⟨hs.row.replace hv hsplit htl htm htr hc mid' ht bins', ?_, ?_⟩
  · refine Listed.replace hs.row hv hsplit htl htr hc hs.listed (fun k c hck => ?_)
    obtain ⟨hcb, hcne⟩ := hbins k c hck
    exact hside c ((hv.mem_bins k c).mp hcb).1 hcne
  · rintro c ⟨hcP, hca⟩ hcb
    exact (hs.kept c ⟨hcP, hca⟩).trans
      (ChangedIn.kept hs.row hv hsplit htl htr hc (hside c hcP hcb))

/-- The heap after the four tags that `place` writes when it splits a block. -/
def splitTags (h : Heap) (b : Block) (asize : Nat) : Heap :=
  (((h.store (b.bp - 8) 8 (asize + 1)).store (b.bp + asize - 16) 8 (asize + 1)).store
    (b.bp + asize - 8) 8 (b.size - asize)).store (b.bp + b.size - 16) 8 (b.size - asize)

/-- The two blocks that `place` makes of `b`. -/
def splitBlocks (b : Block) (asize : Nat) : List Block :=
  [⟨b.bp, asize, true⟩, ⟨b.bp + asize, b.size - asize, false⟩]

section Split

variable {asize : Nat} (hs : Stage h₀ P P.bins h) (hv : P.Valid) (hb : b ∈ P.blocks)
  (hf : b.alloc = false) (hmin : 16 ≤ asize) (halign : asize % 16 = 0)
  (hlarge : asize + 32 < b.size)

include hmin hlarge in
theorem splitTags_changed (h : Heap) :
    ChangedIn (b.bp - 8) (b.bp + b.size - 8) h (splitTags h b asize) :=
  ((((ChangedIn.refl _ _ h).store (by omega) (by omega)).store (by omega) (by omega)).store
    (by omega) (by omega)).store (by omega) (by omega)

include hmin hlarge in
theorem splitTags_tagged (hbp : 8 ≤ b.bp) (hlt : b.size < 2 ^ 63) (h : Heap) :
    ∀ c ∈ splitBlocks b asize, Tagged (splitTags h b asize) c := by
  have hend : b.bp + asize + (b.size - asize) - 16 = b.bp + b.size - 16 := by omega
  intro c hc
  unfold Tagged Block.tag splitTags
  simp only [splitBlocks, List.mem_cons, List.not_mem_nil, or_false] at hc
  rcases hc with rfl | rfl
  · simp only [Bool.toNat_true]
    constructor
    · rw [Heap.word_store_ne _ (by omega), Heap.word_store_ne _ (by omega),
        Heap.word_store_ne _ (by omega), Heap.word_store_self _ (by omega)]
    · rw [Heap.word_store_ne _ (by omega), Heap.word_store_ne _ (by omega),
        Heap.word_store_self _ (by omega)]
  · simp only [Bool.toNat_false, Nat.add_zero, hend]
    constructor
    · rw [Heap.word_store_ne _ (by omega), Heap.word_store_self _ (by omega)]
    · rw [Heap.word_store_self _ (by omega)]

include hv in
/-- The bins without `b` are bins of other blocks. -/
theorem eraseBin_others : ∀ k c, c ∈ eraseBin P.bins b k → c ∈ P.bins k ∧ c ≠ b := by
  intro k c hc
  obtain ⟨hcb, hne⟩ := (mem_eraseBin hv.nodup).mp hc
  exact ⟨hcb, fun he => hne ⟨he, by rw [← hv.bin_cls k c hcb, he]⟩⟩

include hs hv hb hf hmin halign hlarge in
/-- `place` splits a block: it takes it off its list, writes the four tags, and
lists the remainder. -/
theorem place_split {Q : Unit → Heap → Prop}
    (hadd : ∀ h₁, Stage h₀ P (eraseBin P.bins b) h₁ →
      Returns (nodeAdd (b.bp + asize) (b.size - asize)) (splitTags h₁ b asize) Q) :
    Returns (place b.bp asize) h Q := by
  have hbin := (hv.mem_bins _ b).mpr ⟨hb, hf, rfl⟩
  have hbounds := hs.row.bounds hv hb
  have hrem : (b.size + (2 ^ 64 - asize)) % 2 ^ 64 = b.size - asize := by omega
  have hsmall : ¬ b.size - asize ≤ dsize * 2 := by
    unfold dsize
    omega
  unfold Allocator.place
  simp only [returns_bind, (hs.row.head hv hb).returns_size, hrem]
  refine (nodeRemove_stage hs hv hv.among hbin).mono (fun _ h₁ hs₁ => ?_)
  have hbounds₁ := hs₁.row.bounds hv hb
  have hhead := hs₁.row.head hv hb
  have hm1 := hhead.mapped
  have htag : pack asize 1 = asize + 1 := pack_one (by omega)
  obtain ⟨h₂, hh₂⟩ : ∃ h₂, h₂ = h₁.store (b.bp - 8) 8 (asize + 1) := ⟨_, rfl⟩
  obtain ⟨h₃, hh₃⟩ : ∃ h₃, h₃ = h₂.store (b.bp + asize - 16) 8 (asize + 1) := ⟨_, rfl⟩
  obtain ⟨h₄, hh₄⟩ : ∃ h₄, h₄ = h₃.store (b.bp + asize - 8) 8 (b.size - asize) := ⟨_, rfl⟩
  obtain ⟨h₅, hh₅⟩ : ∃ h₅, h₅ = h₄.store (b.bp + b.size - 16) 8 (b.size - asize) := ⟨_, rfl⟩
  have hmap : h₁.Mapped (b.bp + asize - 16) 8 ∧ h₁.Mapped (b.bp + asize - 8) 8 ∧
      h₁.Mapped (b.bp + b.size - 16) 8 := by
    unfold Heap.Mapped
    omega
  obtain ⟨hm2, hm3, hm4⟩ := hmap
  have hhead₂ : Head h₂ b.bp asize := by
    subst hh₂
    refine ⟨by omega, by omega, by omega, hm1, ?_⟩
    rw [Heap.word_store_self _ (by omega), and_sizeMask (by omega)]
    omega
  have hhead₃ : Head h₃ b.bp asize := hh₃ ▸ hhead₂.store (by omega)
  have hhead₄ : Head h₄ b.bp asize := hh₄ ▸ hhead₃.store (by omega)
  have hhead₅ : Head h₅ b.bp asize := hh₅ ▸ hhead₄.store (by omega)
  have hnew : Head h₄ (b.bp + asize) (b.size - asize) := by
    subst hh₄ hh₃ hh₂
    exact Head.written _ _ (by omega) (by omega) (by omega) hm3
  have hend : b.bp + asize + (b.size - asize) - 16 = b.bp + b.size - 16 := by omega
  rw [if_neg hsmall]
  simp only [returns_bind, hhead.hdrp, returns_put, hm1, true_and, htag, pack_zero, ← hh₂,
    hhead₂.returns_ftrp, show h₂.Mapped (b.bp + asize - 16) 8 from hh₂ ▸ hm2, ← hh₃,
    hhead₃.returns_nextBlkp, hnew.hdrp,
    show h₃.Mapped (b.bp + asize - 8) 8 from hh₃ ▸ hh₂ ▸ hm3, ← hh₄, hhead₄.returns_nextBlkp,
    hnew.returns_ftrp, hend, show h₄.Mapped (b.bp + b.size - 16) 8 from hh₄ ▸ hh₃ ▸ hh₂ ▸ hm4,
    ← hh₅, hhead₅.returns_nextBlkp]
  have htags : h₅ = splitTags h₁ b asize := by
    subst hh₅ hh₄ hh₃ hh₂
    rfl
  rw [htags]
  exact hadd h₁ hs₁

end Split

/-- A block that is not split is taken as it is. -/
theorem place_whole_returns (hs : Stage h₀ P P.bins h) (hv : P.Valid) (hb : b ∈ P.blocks)
    (hf : b.alloc = false) {asize : Nat} (hfit : asize ≤ b.size) (hsmall : b.size - asize ≤ 32) :
    Returns (place b.bp asize) h (fun _ h' =>
      Represents h' (P.place b asize) ∧ ∀ c, P.Live c → Kept h₀ h' c) := by
  have hbounds := hs.row.bounds hv hb
  have hbins := eraseBin_others (b := b) hv
  have hbin := (hv.mem_bins _ b).mpr ⟨hb, hf, rfl⟩
  have hrem : (b.size + (2 ^ 64 - asize)) % 2 ^ 64 = b.size - asize := by omega
  unfold Allocator.place
  simp only [returns_bind, (hs.row.head hv hb).returns_size, hrem]
  refine (nodeRemove_stage hs hv hv.among hbin).mono (fun _ h₁ hs₁ => ?_)
  have hbounds₁ := hs₁.row.bounds hv hb
  have hhead := hs₁.row.head hv hb
  have hm1 := hhead.mapped
  have htag : pack b.size 1 = b.size + 1 := pack_one (by omega)
  have hhead' : Head (h₁.store (b.bp - 8) 8 (b.size + 1)) b.bp b.size := by
    refine { hhead with mapped := hm1, size := ?_ }
    rw [Heap.word_store_self _ (by omega), and_sizeMask (by omega)]
    omega
  have hm2 : h₁.Mapped (b.bp + b.size - 16) 8 := by
    unfold Heap.Mapped
    omega
  rw [if_pos (show b.size - asize ≤ dsize * 2 from hsmall)]
  simp only [returns_bind, hhead.hdrp, returns_put, hm1, true_and, htag, hhead'.returns_ftrp,
    Heap.store_mapped, hm2]
  have hplace : P.place b asize = { P with
      blocks := before b P.blocks ++ [{ b with alloc := true }] ++ after b P.blocks
      bins := eraseBin P.bins b } := by
    unfold Pool.place
    rw [if_pos hsmall]
    simp
  rw [hplace]
  obtain ⟨hrow, hl, hk⟩ := hs₁.retag hv hb hbins
    ((h₁.store (b.bp - 8) 8 (b.size + 1)).store (b.bp + b.size - 16) 8 (b.size + 1))
    [{ b with alloc := true }] (((ChangedIn.refl _ _ h₁).store (by omega) (by omega)).store
      (by omega) (by omega))
    (fun c hc => by
      rw [List.mem_singleton.mp hc]
      unfold Tagged Block.tag
      simp only [Bool.toNat_true]
      constructor
      · rw [Heap.word_store_ne _ (by omega), Heap.word_store_self _ (by omega)]
      · rw [Heap.word_store_self _ (by omega)])
    (eraseBin P.bins b)
  exact ⟨⟨hrow, hl⟩, fun c hc => hk c hc (hc.ne_of_free hf)⟩

/-- A larger block is split, and the rest of it goes back to the lists. -/
theorem place_split_returns (hs : Stage h₀ P P.bins h) (hv : P.Valid) (hb : b ∈ P.blocks)
    (hf : b.alloc = false) {asize : Nat} (hmin : 32 ≤ asize) (halign : asize % 16 = 0)
    (hlarge : asize + 32 < b.size) :
    Returns (place b.bp asize) h (fun _ h' =>
      Represents h' (P.place b asize) ∧ ∀ c, P.Live c → Kept h₀ h' c) := by
  have hbounds := hs.row.bounds hv hb
  have hfit : asize ≤ b.size := by omega
  have hsmall : ¬ b.size - asize ≤ 32 := by omega
  have hbins := eraseBin_others (b := b) hv
  refine place_split hs hv hb hf (by omega) halign hlarge (fun h₁ hs₁ => ?_)
  have hplace : P.place b asize = { P with
      blocks := before b P.blocks ++ splitBlocks b asize ++ after b P.blocks
      bins := insertBin (eraseBin P.bins b) ⟨b.bp + asize, b.size - asize, false⟩ } := by
    unfold Pool.place splitBlocks
    rw [if_neg hsmall]
    simp
  have hvp := Pool.valid_place hv hb hfit hmin halign
  obtain ⟨hrow, hl, hk⟩ := hs₁.retag hv hb hbins _ (splitBlocks b asize)
    (splitTags_changed (by omega) hlarge h₁)
    (splitTags_tagged (by omega) hlarge (by omega) (by omega) h₁)
    (insertBin (eraseBin P.bins b) ⟨b.bp + asize, b.size - asize, false⟩)
  rw [← hplace] at hrow
  have hst : Stage (splitTags h₁ b asize) (P.place b asize) (eraseBin P.bins b)
      (splitTags h₁ b asize) :=
    ⟨hrow, hl, fun c _ => Kept.refl _ c⟩
  have hnot : ∀ k, (⟨b.bp + asize, b.size - asize, false⟩ : Block) ∉ eraseBin P.bins b k := by
    intro k hk
    have hm := ((hv.mem_bins k _).mp (hbins k _ hk).1).1
    have hn := hv.tiles.ordered hb hm
    simp only at hn
    rcases hn with he | he | he
    · rw [he] at hfit
      have := congrArg Block.bp he
      simp only at this
      omega
    · omega
    · omega
  have hadd := nodeAdd_stage hst hvp (b := ⟨b.bp + asize, b.size - asize, false⟩)
    (by rw [hplace]; simp [splitBlocks]) (by rw [hplace]) hnot (nodup_eraseBin hv.nodup b)
  refine hadd.mono (fun _ h₆ hs₆ => ⟨hs₆.represents, fun c hc => ?_⟩)
  exact (hk c hc (hc.ne_of_free hf)).trans (hs₆.kept c
    ⟨(Pool.mem_place_alloc hv hb hf asize hc.2).mpr (Or.inr hc.1), hc.2⟩)

theorem place_returns (hs : Stage h₀ P P.bins h) (hv : P.Valid) (hb : b ∈ P.blocks)
    (hf : b.alloc = false) {asize : Nat} (hfit : asize ≤ b.size) (hmin : 32 ≤ asize)
    (halign : asize % 16 = 0) :
    Returns (place b.bp asize) h (fun _ h' =>
      Represents h' (P.place b asize) ∧ ∀ c, P.Live c → Kept h₀ h' c) := by
  by_cases hsmall : b.size - asize ≤ 32
  · exact place_whole_returns hs hv hb hf hfit hsmall
  · exact place_split_returns hs hv hb hf hmin halign (by omega)

end Allocator
end Cmpsc473
