import Cmpsc473.Allocator.RefinesCalls

/-!
# The interface in memory

`malloc`, `free`, `realloc` and `mm_init` refine the operations of the pool.
-/

namespace Cmpsc473
namespace Allocator

open ByteMemory Total Tiling

variable {h h' : Heap} {P : Pool} {b : Block}

theorem blockSize_eq {n : Nat} (hn : n + 31 < 2 ^ 64) :
    (if n ≤ dsize then 2 * dsize else align ((n + alignment) % 2 ^ 64)) = Pool.blockSize n := by
  unfold Pool.blockSize dsize alignment
  split
  · rfl
  · rw [Nat.mod_eq_of_lt (by omega), align_eq (by omega)]

theorem max64_eq (x y : Nat) : max64 x y = max x y := by
  unfold max64
  split <;> omega

theorem mmMalloc_returns (hr : Represents h P) (hv : P.Valid) {n : Nat} (hn : n + 31 < 2 ^ 64) :
    Returns (mmMalloc n) h (fun r h' => r = (P.malloc n).1 ∧ Represents h' (P.malloc n).2 ∧
      (∀ c, P.Live c → Kept h h' c) ∧ (P.malloc n = (0, P) → h' = h)) := by
  obtain ⟨hmin, halign, _, hlt⟩ := Pool.blockSize_spec hn
  have hpos : ∀ {Q : Pool} {c : Block}, Q.Valid → c ∈ Q.blocks → c.bp ≠ 0 := by
    intro Q c hQ hc
    have := hQ.base_pos
    have := (hQ.tiles.bounds c hc).1
    omega
  unfold mmMalloc Pool.malloc
  by_cases hn0 : n = 0
  · simp only [hn0, if_true, returns_pure]
    exact ⟨trivial, hr, fun c _ => Kept.refl h c, fun _ => trivial⟩
  simp only [hn0, if_false, blockSize_eq hn, returns_bind, max64_eq]
  refine (findFit_returns hr.listed (hr.binsOk hv) (by omega) hlt).mono ?_
  rintro r h' ⟨rfl, rfl⟩
  cases hfit : P.fit (Pool.blockSize n) with
  | some b =>
    obtain ⟨⟨k, hk⟩, hsize⟩ := Pool.fit_some hfit
    obtain ⟨hb, hf, _⟩ := (hv.mem_bins k b).mp hk
    simp only [Option.map_some, Option.getD_some, hpos hv hb, if_false, returns_bind, returns_pure]
    refine (place_returns hr.stage hv hb hf hsize hmin halign).mono ?_
    rintro _ h₁ ⟨hr₁, hk₁⟩
    exact ⟨trivial, hr₁, hk₁, fun he => absurd (congrArg Prod.fst he) (hpos hv hb)⟩
  | none =>
    simp only [Option.map_none, Option.getD_none, if_true, returns_bind]
    have hext : 32 ≤ max (Pool.blockSize n) chunkSize := by omega
    have halign' : max (Pool.blockSize n) chunkSize % 16 = 0 := by
      unfold chunkSize
      omega
    have hlt' : max (Pool.blockSize n) chunkSize < 2 ^ 64 := by
      unfold chunkSize
      omega
    refine (extendHeap_returns hr hv _ hext halign' hlt').mono (fun r h₁ hpost => ?_)
    by_cases hroom : P.brk + max (Pool.blockSize n) chunkSize ≤ P.limit
    · simp only [hroom, if_true] at hpost ⊢
      obtain ⟨rfl, hs₁⟩ := hpost
      have hvg := Pool.valid_grow hv hext halign' hroom
      obtain ⟨hbg, hfg, hsg⟩ := Pool.grow_fst hv hext halign' hroom
      simp only [hpos hvg hbg, if_false, returns_bind, returns_pure]
      refine (place_returns hs₁ hvg hbg hfg (by omega) hmin halign).mono ?_
      rintro _ h₂ ⟨hr₂, hk₂⟩
      refine ⟨trivial, hr₂, fun c hc => hk₂ c ?_,
        fun he => absurd (congrArg Prod.fst he) (hpos hvg hbg)⟩
      exact ⟨(Pool.mem_grow_alloc hv hext halign' hroom hc.2).mpr hc.1, hc.2⟩
    · simp only [hroom, if_false] at hpost ⊢
      obtain ⟨rfl, rfl⟩ := hpost
      simp only [if_true, returns_pure]
      exact ⟨trivial, hr, fun c _ => Kept.refl h₁ c, fun _ => trivial⟩

theorem returns_getTag {p : Nat} {Q : Nat → Heap → Prop} :
    Returns (getTag p) h Q ↔ h.Mapped p 8 ∧ Q (h.word p &&& 2) h := by
  unfold getTag
  rw [returns_bind, returns_get]
  simp only [returns_pure]

/-- Where bit 1 is clear, `TAG_REMOVE` changes nothing. -/
theorem returns_tagRemove {p : Nat} (hm : h.Mapped p 8) (ht : h.word p / 2 % 2 = 0)
    {Q : Unit → Heap → Prop} : Returns (tagRemove p) h Q ↔ Q () h := by
  unfold tagRemove
  rw [returns_bind, returns_get, and_iff_right hm, returns_put, and_iff_right hm,
    and_untagMask (h.word_lt p) ht, h.store_word]

/-- Where bit 1 is clear, `PUT_TAG` is `PUT`. -/
theorem returns_putTag {p v : Nat} (hm : h.Mapped p 8) (ht : h.word p / 2 % 2 = 0)
    {Q : Unit → Heap → Prop} : Returns (putTag p v) h Q ↔ Q () (h.store p 8 v) := by
  unfold putTag
  rw [returns_bind, returns_getTag, and_iff_right hm, returns_put, and_iff_right hm, and_two ht,
    Nat.or_zero]

theorem mmFree_returns (hr : Represents h P) (hv : P.Valid) (hb : P.Live b) :
    Returns (mmFree b.bp) h (fun _ h' => Represents h' (P.release b) ∧
      ∀ c, P.Live c → c ≠ b → Kept h h' c) := by
  obtain ⟨hb, ha⟩ := hb
  obtain ⟨n, hn, hnhead, _, hntag, _⟩ := hr.upper hv hb
  have hbounds := hr.bounds hv hb
  have hhead := hr.head hv hb
  have htag := Block.tag_bit (b := b) (by omega)
  have hmap := hhead.mapped
  have hmap2 : h.Mapped (b.bp + b.size - 16) 8 := by
    unfold Heap.Mapped
    omega
  have hhead' := Head.written (h := h) b.bp b.size (by omega) (by omega) (by omega)
    hmap
  have htag1 : h.word (b.bp - 8) / 2 % 2 = 0 := by rw [(hr.tags b hb).1, htag]
  have htag2 : (h.store (b.bp - 8) 8 b.size).word (b.bp + b.size - 16) / 2 % 2 = 0 := by
    rw [Heap.word_store_ne _ (by omega), (hr.tags b hb).2, htag]
  unfold mmFree
  simp only [returns_bind, hhead.returns_size, hhead.returns_nextBlkp, ← hn, hnhead.hdrp,
    returns_tagRemove hnhead.mapped hntag, pack_zero]
  simp only [hhead.hdrp, returns_putTag hmap htag1, hhead'.returns_ftrp,
    returns_putTag (h := h.store (b.bp - 8) 8 b.size) (by simpa using hmap2) htag2]
  have hsplit : (P.freed b).blocks =
      before b P.blocks ++ [{ b with alloc := false }] ++ after b P.blocks := by
    simp [Pool.freed]
  have hnotBin : ∀ k c, c ∈ P.bins k → c ∈ P.bins k ∧ c ≠ b := by
    refine fun k c hck => ⟨hck, ?_⟩
    rintro rfl
    simp [((hv.mem_bins k c).mp hck).2.1] at ha
  obtain ⟨hrow, hl, hk⟩ := hr.stage.retag hv hb hnotBin
    ((h.store (b.bp - 8) 8 b.size).store (b.bp + b.size - 16) 8 b.size)
    [{ b with alloc := false }]
    (((ChangedIn.refl _ _ h).store (by omega) (by omega)).store (by omega) (by omega))
    (fun c hc => by
      rw [List.mem_singleton.mp hc]
      unfold Tagged Block.tag
      simp only [Bool.toNat_false, Nat.add_zero]
      constructor
      · rw [Heap.word_store_ne _ (by omega), Heap.word_store_self _ (by omega)]
      · rw [Heap.word_store_self _ (by omega)])
    (insertBin P.bins { b with alloc := false })
  rw [← hsplit] at hrow
  have hvf := hv.freed hb ha
  have hne : ∀ c, (P.freed b).Live c → P.Live c ∧ c ≠ b := by
    rintro c ⟨hc, hca⟩
    rw [hsplit, List.mem_append, List.mem_append, List.mem_singleton] at hc
    have hnd := hv.nodup_blocks
    rw [hv.split hb] at hnd
    obtain ⟨_, hndr, hdisj⟩ := List.nodup_append.mp hnd
    rcases hc with (hc | rfl) | hc
    · refine ⟨⟨?_, hca⟩, hdisj c hc b List.mem_cons_self⟩
      rw [hv.split hb]
      exact List.mem_append_left _ hc
    · cases hca
    · refine ⟨⟨?_, hca⟩, ?_⟩
      · rw [hv.split hb]
        exact List.mem_append_right _ (List.mem_cons_of_mem b hc)
      · rintro rfl
        exact (List.nodup_cons.mp hndr).1 hc
  have hs : Stage h (P.freed b) P.bins _ :=
    ⟨hrow, hl, fun c hc => hk c (hne c hc).1 (hne c hc).2⟩
  have hnot : ∀ k, ({ b with alloc := false } : Block) ∉ P.bins k := fun k hk =>
    hv.freed_notMem hb ha ((hv.mem_bins k _).mp hk).1
  refine (nodeAdd_stage hs hvf (Pool.mem_freed P b) rfl hnot hv.nodup).mono (fun _ h₁ hs₁ => ?_)
  refine (coalesce_stage hvf (Pool.mem_freed P b) rfl hs₁).mono (fun _ h₂ hpost => ?_)
  rw [returns_pure]
  refine ⟨hpost.2.represents, fun c hc hcb => hpost.2.kept c ?_⟩
  exact ⟨(Pool.mem_release_alloc hv hb ha hc.2).mpr ⟨hc.1, hcb⟩, hc.2⟩

/-- Writing to a payload leaves the pool and the other payloads as they are. -/
theorem Represents.payload (hr : Represents h P) (hv : P.Valid) (hb : P.Live b)
    (hc : ChangedIn b.bp (b.bp + b.size - 16) h h') :
    Represents h' P ∧ ∀ c, P.Live c → c ≠ b → Kept h h' c := by
  obtain ⟨hb, ha⟩ := hb
  have hbounds := hr.bounds hv hb
  have hsplit : before b P.blocks ++ [b] ++ after b P.blocks = P.blocks := by
    simpa using (hv.split hb).symm
  have hnotBin : ∀ k c, c ∈ P.bins k → c ∈ P.bins k ∧ c ≠ b := by
    refine fun k c hck => ⟨hck, ?_⟩
    rintro rfl
    simp [((hv.mem_bins k c).mp hck).2.1] at ha
  obtain ⟨hrow, hl, hk⟩ := hr.stage.retag hv hb hnotBin h' [b]
    (hc.mono (by omega) (by omega))
    (fun c hcb => by
      rw [List.mem_singleton.mp hcb]
      unfold Tagged
      rw [hc.word (by omega), hc.word (by omega)]
      exact hr.tags b hb)
    P.bins
  rw [hsplit] at hrow
  exact ⟨⟨hrow, hl⟩, hk⟩

theorem copyWords_returns (words dst src : Nat) (hlim : h.memMaxAddr ≤ 2 ^ 63)
    (hdst : h.Mapped dst (8 * words)) (hsrc : h.Mapped src (8 * words))
    (hd : dst + 8 * words ≤ src ∨ src + 8 * words ≤ dst) :
    Returns (copyWords words dst src) h (fun _ h' =>
      ChangedIn dst (dst + 8 * words) h h' ∧
        ∀ i < 8 * words, h'.mem (dst + i) = h.mem (src + i)) := by
  induction words generalizing h dst src with
  | zero =>
    rw [copyWords, returns_pure]
    exact ⟨ChangedIn.refl _ _ h, fun i hi => absurd hi (Nat.not_lt_zero i)⟩
  | succ words ih =>
    have hmap : h.Mapped src 8 ∧ h.Mapped dst 8 ∧ h.Mapped (dst + 8) (8 * words) ∧
        h.Mapped (src + 8) (8 * words) := by
      unfold Heap.Mapped at *
      omega
    obtain ⟨hm1, hm2, hm3, hm4⟩ := hmap
    have hb1 : dst + 8 < 2 ^ 64 ∧ src + 8 < 2 ^ 64 := by
      unfold Heap.Mapped at *
      omega
    rw [copyWords]
    simp only [memRead, memWrite, returns_bind, returns_get, returns_put, hm1, hm2, true_and,
      Nat.lt_irrefl, if_false, if_true, returns_pure, ptrAdd_eq hb1.1, ptrAdd_eq hb1.2]
    refine (ih (h := h.store dst 8 (h.word src)) _ _ hlim hm3 hm4 (by omega)).mono ?_
    rintro _ h' ⟨hc, hcopy⟩
    refine ⟨?_, fun i hi => ?_⟩
    · exact ((ChangedIn.refl dst _ h).store (Nat.le_refl dst) (by omega)).trans
        (hc.mono (by omega) (by omega))
    · by_cases hi8 : i < 8
      · rw [hc.mem _ (by omega)]
        show write h.mem dst 8 (read h.mem src 8) (dst + i) = _
        rw [write_read_apply (by omega) (by omega), Nat.add_sub_cancel_left]
      · have := hcopy (i - 8) (by omega)
        rw [show dst + 8 + (i - 8) = dst + i by omega,
          show src + 8 + (i - 8) = src + i by omega] at this
        rw [this, Heap.mem_store_of_outside _ (by omega)]

theorem memMemcpy_returns (dst src n : Nat) (hlim : h.memMaxAddr ≤ 2 ^ 63) (hn : n % 8 = 0)
    (hdst : h.Mapped dst n) (hsrc : h.Mapped src n) (hd : dst + n ≤ src ∨ src + n ≤ dst) :
    Returns (memMemcpy dst src n) h (fun _ h' => ChangedIn dst (dst + n) h h' ∧
      ∀ i < n, h'.mem (dst + i) = h.mem (src + i)) := by
  have hwords : 8 * (n / 8) = n := by omega
  have hcopy := copyWords_returns (n / 8) dst src hlim (by rwa [hwords]) (by rwa [hwords])
    (by rwa [hwords])
  rw [hwords] at hcopy
  unfold memMemcpy
  simp only [returns_bind, hn, ne_eq, not_true_eq_false, if_false, returns_pure]
  exact hcopy

/-! ## Reallocating -/

/-- The size with which `realloc` decides whether a block can stay, `asize`. -/
def keepAsk (size : Nat) : Nat := if size ≤ dsize then 2 * dsize else align size

/-- The number of bytes that `realloc` copies out of a block of size `bsize`. -/
def copySize (bsize size : Nat) : Nat :=
  if keepAsk size < (bsize + (2 ^ 64 - alignment)) % 2 ^ 64 then keepAsk size
  else (bsize + (2 ^ 64 - alignment)) % 2 ^ 64

/-- What `realloc` does with a block that cannot stay. -/
def reallocMove (oldptr size n : Nat) : Mm Nat := do
  let newptr ← mmMalloc size
  memMemcpy newptr oldptr n
  mmFree oldptr
  return newptr

theorem Head.getSize_eq {p bsize : Nat} (hh : Head h p bsize) :
    getSize (Allocator.hdrp p) h = some (bsize, h) := by
  obtain ⟨r, h', hx, hr, hh'⟩ :=
    (hh.returns_size (Q := fun r h' => r = bsize ∧ h' = h)).mpr ⟨rfl, rfl⟩
  rw [hx, hr, hh']

theorem Head.mmRealloc_eq {p bsize n : Nat} (hh : Head h p bsize) (hp : p ≠ 0) (hn : n ≠ 0) :
    mmRealloc p n h = if keepAsk n ≤ (bsize + (2 ^ 64 - alignment)) % 2 ^ 64 then some (p, h)
      else reallocMove p n (copySize bsize n) h := by
  unfold mmRealloc
  rw [if_neg hn, if_neg hp, bind_of_some hh.getSize_eq]
  show (if (bsize + (2 ^ 64 - alignment)) % 2 ^ 64 ≥ keepAsk n then pure p
    else reallocMove p n (copySize bsize n) : Mm Nat) h = _
  by_cases hkeep : keepAsk n ≤ (bsize + (2 ^ 64 - alignment)) % 2 ^ 64
  · rw [if_pos hkeep, if_pos hkeep]
    rfl
  · rw [if_neg hkeep, if_neg hkeep]

theorem keepSize_eq {n : Nat} (hn : n + 31 < 2 ^ 64) : keepAsk n = Pool.keepSize n := by
  unfold keepAsk Pool.keepSize dsize
  split
  · rfl
  · rw [align_eq (by omega)]

/-- Where a block is too small to be kept, its payload fits into the new one, and
the two are apart. -/
theorem Pool.Allocated.copy_room {a : Block} {Q : Pool} {n : Nat}
    (hA : P.Allocated (Pool.blockSize n) a Q) (hb : P.Live b)
    (hkeep : ¬ Pool.keepSize n ≤ b.size - 16) :
    b.size - 16 ≤ a.size - 16 ∧
      (a.bp + (b.size - 16) ≤ b.bp ∨ b.bp + (b.size - 16) ≤ a.bp) := by
  have haL := (hA.live a).mpr (Or.inl rfl)
  have hbL := (hA.live b).mpr (Or.inr hb)
  have halign := (hA.valid.sizes b hbL.1).2
  have hroom : b.size - 16 ≤ a.size - 16 := by
    have := hA.size_ge
    unfold Pool.keepSize at hkeep
    unfold Pool.blockSize at this
    by_cases hsmall : n ≤ 16
    · rw [if_pos hsmall] at hkeep this
      omega
    · rw [if_neg hsmall] at hkeep this
      omega
  refine ⟨hroom, ?_⟩
  rcases hA.valid.tiles.ordered haL.1 hbL.1 with he | he | he
  · exact absurd (congrArg Block.bp he.symm) (hA.fresh b hb)
  · omega
  · omega

/-- The steps of a reallocation that moves `b` to `a`: room is found, the payload
is copied, and `b` is freed. -/
structure Moved (h : Heap) (P : Pool) (b : Block) (n : Nat) (a : Block) (h₁ h₂ h₃ : Heap) :
    Prop where
  malloc : mmMalloc n h = some (a.bp, h₁)
  copy : memMemcpy a.bp b.bp (b.size - 16) h₁ = some ((), h₂)
  free : mmFree b.bp h₂ = some ((), h₃)
  result : (P.malloc n).1 = a.bp
  allocated : P.Allocated (Pool.blockSize n) a (P.malloc n).2
  stored : Represents h₁ (P.malloc n).2
  changed : ChangedIn a.bp (a.bp + (b.size - 16)) h₁ h₂
  released : Represents h₃ ((P.malloc n).2.release b)
  kept : ∀ c, P.Live c → c ≠ b → Kept h h₃ c
  copied : ∀ i < b.size - 16, h₃.mem (a.bp + i) = h.mem (b.bp + i)

theorem exists_moved (hr : Represents h P) (hv : P.Valid) (hco : P.Coalesced) (hb : P.Live b)
    {n : Nat} (hn : n + 31 < 2 ^ 64) (hkeep : ¬ Pool.keepSize n ≤ b.size - 16)
    (hz : (P.malloc n).1 ≠ 0) : ∃ a h₁ h₂ h₃, Moved h P b n a h₁ h₂ h₃ := by
  rcases Pool.malloc_spec hv hco hn with hfail | ⟨a, ha, hA⟩
  · rw [hfail] at hz
    exact absurd rfl hz
  obtain ⟨r, h₁, hx₁, rfl, hr₁, hk₁, _⟩ := mmMalloc_returns hr hv hn
  have haL := (hA.live a).mpr (Or.inl rfl)
  have hbL := (hA.live b).mpr (Or.inr hb)
  have hba := hA.fresh b hb
  have habounds := hr₁.bounds hA.valid haL.1
  have hbbounds := hr₁.bounds hA.valid hbL.1
  obtain ⟨hroom, hdisj⟩ := hA.copy_room hb hkeep
  obtain ⟨⟨⟩, h₂, hx₂, hc₂, hcopied⟩ := memMemcpy_returns (h := h₁) a.bp b.bp (b.size - 16)
    (by omega) (by omega) (by unfold Heap.Mapped; omega) (by unfold Heap.Mapped; omega) hdisj
  obtain ⟨hr₂, hk₂⟩ := hr₁.payload hA.valid haL (hc₂.mono (Nat.le_refl _) (by omega))
  obtain ⟨⟨⟩, h₃, hx₃, hr₃, hk₃⟩ := mmFree_returns hr₂ hA.valid hbL
  refine ⟨a, h₁, h₂, h₃, {
    malloc := by rw [hx₁, ha]
    copy := hx₂
    free := hx₃
    result := ha
    allocated := hA
    stored := hr₁
    changed := hc₂
    released := hr₃
    kept := fun c hc hcb => ?_
    copied := fun i hi => ?_ }⟩
  · have hcL := (hA.live c).mpr (Or.inr hc)
    have hca : c ≠ a := fun he => hA.fresh c hc (congrArg Block.bp he)
    exact ((hk₁ c hc).trans (hk₂ c hcL hca)).trans (hk₃ c hcL hcb)
  · rw [hk₃ a haL (fun he => hba (congrArg Block.bp he.symm)) _ (by omega) (by omega),
      hcopied i hi, hk₁ b hb _ (by omega) (by omega)]

/-- `realloc` of a block in use, where it finds room.  The block that it returns
begins with the bytes of the old one. -/
theorem mmRealloc_returns (hr : Represents h P) (hv : P.Valid) (hco : P.Coalesced)
    (hb : P.Live b) {n : Nat} (hn : n + 31 < 2 ^ 64) {r : Nat} {P' : Pool}
    (hre : P.realloc b.bp n = some (r, P')) :
    Returns (mmRealloc b.bp n) h (fun r' h' => r' = r ∧ Represents h' P' ∧
      (∀ c, P.Live c → c ≠ b → Kept h h' c) ∧
      (n ≠ 0 → ∀ i < b.size - 16, h'.mem (r + i) = h.mem (b.bp + i)) ∧
      (r = b.bp → h' = h)) := by
  have hbounds := hr.bounds hv hb.1
  have hbp : b.bp ≠ 0 := by omega
  by_cases hn0 : n = 0
  · simp only [Pool.realloc, hn0, if_true, Option.some.injEq, Prod.mk.injEq,
      Pool.free_eq hv hb.1] at hre
    obtain ⟨rfl, rfl⟩ := hre
    unfold mmRealloc
    simp only [hn0, if_true, returns_bind, returns_pure]
    refine (mmFree_returns hr hv hb).mono (fun _ h' hpost => ?_)
    exact ⟨trivial, hpost.1, hpost.2, fun hne => absurd rfl hne, fun he => absurd he.symm hbp⟩
  have hold : (b.size + (2 ^ 64 - alignment)) % 2 ^ 64 = b.size - 16 := by
    unfold alignment
    omega
  have heq := (hr.head hv hb.1).mmRealloc_eq hbp hn0
  rw [copySize, keepSize_eq hn, hold] at heq
  simp only [Pool.realloc, hn0, if_false, Pool.blockAt_eq hv hb.1] at hre
  by_cases hkeep : Pool.keepSize n ≤ b.size - 16
  · rw [if_pos hkeep] at hre heq
    simp only [Option.some.injEq, Prod.mk.injEq] at hre
    obtain ⟨rfl, rfl⟩ := hre
    exact ⟨_, _, heq, rfl, hr, fun c _ _ => Kept.refl h c, fun _ _ _ => rfl, fun _ => rfl⟩
  rw [if_neg hkeep] at hre heq
  by_cases hz : (P.malloc n).1 = 0
  · rw [if_pos hz] at hre
    cases hre
  rw [if_neg hz] at hre
  simp only [Option.some.injEq, Prod.mk.injEq] at hre
  obtain ⟨rfl, rfl⟩ := hre
  obtain ⟨a, h₁, h₂, h₃, hm⟩ := exists_moved hr hv hco hb hn hkeep hz
  have hbL := (hm.allocated.live b).mpr (Or.inr hb)
  have hba := hm.allocated.fresh b hb
  rw [if_neg (by omega), reallocMove, bind_of_some hm.malloc, bind_of_some hm.copy,
    bind_of_some hm.free] at heq
  rw [hm.result, Pool.free_eq hm.allocated.valid hbL.1]
  exact ⟨_, _, heq, rfl, hm.released, hm.kept, fun _ => hm.copied, fun he => absurd he.symm hba⟩

/-- The pool between prologue and epilogue, before the heap is first extended. -/
def Pool.empty (base limit : Nat) : Pool := ⟨base, base, limit, [], fun _ => []⟩

theorem Pool.valid_empty (base limit : Nat) (hpos : 32 ≤ base) (halign : base % 16 = 0)
    (hle : base ≤ limit) (hlim : limit ≤ 2 ^ 63) : (Pool.empty base limit).Valid where
  base_pos := hpos
  base_aligned := halign
  limit_le := hlim
  brk_le := hle
  tiles := rfl
  sizes := fun _ hb => absurd hb List.not_mem_nil
  mem_bins := by simp [Pool.empty]
  nodup := fun _ => List.nodup_nil
  sorted := fun _ => List.Pairwise.nil

/-- The pool that `mm_init` makes. -/
def Pool.initial (heap limit : Nat) : Pool := ((Pool.empty (heap + 32) limit).grow chunkSize).2

theorem clearSegList_returns (lists k : Nat) (hk : k + lists ≤ maxLen) :
    Returns (clearSegList lists k) h (fun _ h' =>
      ∃ segs, h' = { h with segList := segs } ∧ (∀ j, k ≤ j → j < k + lists → segs j = 0) ∧
        ∀ j < k, segs j = h.segList j) := by
  induction lists generalizing k h with
  | zero =>
    rw [clearSegList, returns_pure]
    exact ⟨h.segList, rfl, fun j hj hj' => absurd hj' (by omega), fun _ _ => rfl⟩
  | succ lists ih =>
    rw [clearSegList]
    simp only [returns_bind, returns_setSeg (h := h) (k := k) (by omega)]
    have hstep := ih (h := h.setHead k 0) (k + 1) (by omega)
    push_cast at hstep
    refine hstep.mono (fun _ h' hpost => ?_)
    obtain ⟨segs, rfl, hzero, hkeep⟩ := hpost
    refine ⟨segs, rfl, fun j hj hj' => ?_, fun j hj => ?_⟩
    · by_cases hjk : j = k
      · rw [hjk, hkeep k (by omega), Heap.setHead_segList, Function.update_self]
      · exact hzero j (by omega) (by omega)
    · rw [hkeep j (by omega), Heap.setHead_segList, Function.update_of_ne (by omega)]

/-- A heap on which `mm_init` may be called: nothing is allocated, and nothing is
known of the bytes and of the globals. -/
structure Heap.Fresh (h : Heap) : Prop where
  pos : 0 < h.heap
  aligned : h.heap % 16 = 0
  brk : h.memBrk = h.heap
  le : h.heap ≤ h.memMaxAddr
  limit : h.memMaxAddr ≤ 2 ^ 63

/-- The heap when `mm_init` has written prologue and epilogue. -/
def initTags (h : Heap) (segs : Nat → Nat) : Heap :=
  { ((({ h with segList := segs, memBrk := h.memBrk + 32, heapListp := h.memBrk }.store
      h.memBrk 8 0).store (h.memBrk + 8) 8 17).store (h.memBrk + 16) 8 17).store
      (h.memBrk + 24) 8 1 with heapListp := h.memBrk + 16 }

theorem initTags_represents (hf : h.Fresh) {segs : Nat → Nat}
    (hzero : ∀ j < maxLen, segs j = 0) :
    Represents (initTags h segs) (Pool.empty (h.heap + 32) h.memMaxAddr) := by
  have hbrk := hf.brk
  refine { toRow := ?_, listed := ?_ }
  · refine {
      heap_pos := hf.pos
      base := rfl
      brk := by show h.heap + 32 = h.memBrk + 32; omega
      limit := rfl
      heapListp := by show h.memBrk + 16 = h.heap + 16; omega
      tags := fun b hb => absurd hb List.not_mem_nil
      prologueHeader := ?_
      prologueFooter := ?_
      epilogue := ?_ }
    · show ((Heap.store _ _ _ _).store _ _ _).word (h.heap + 8) = 17
      rw [← hbrk, Heap.word_store_ne _ (by omega), Heap.word_store_ne _ (by omega),
        Heap.word_store_self _ (by decide)]
    · show ((Heap.store _ _ _ _).store _ _ _).word (h.heap + 16) = 17
      rw [← hbrk, Heap.word_store_ne _ (by omega), Heap.word_store_self _ (by decide)]
    · exact Heap.word_store_self _ (by decide)
  · exact { heads := hzero, links := fun _ _ => trivial
            sizes := fun _ b hb => absurd hb List.not_mem_nil }

/-- `mm_init` on a heap of any size: it makes a pool, or only prologue and epilogue, or
nothing. -/
theorem mmInit_spec (hf : h.Fresh) :
    Returns mmInit h (fun r h' =>
      if h.heap + 32 + chunkSize ≤ h.memMaxAddr then
        r = true ∧ Represents h' (Pool.initial h.heap h.memMaxAddr)
      else r = false ∧ (∀ k < maxLen, h'.segList k = 0) ∧
        if h.heap + 32 ≤ h.memMaxAddr then
          Represents h' (Pool.empty (h.heap + 32) h.memMaxAddr)
        else h'.heapListp = sbrkFailed ∧ h'.memBrk = h.memBrk) := by
  have hbrk := hf.brk
  have hlim := hf.limit
  have hpos := hf.pos
  unfold mmInit
  simp only [returns_bind]
  refine (clearSegList_returns (h := h) maxLen 0 (by omega)).mono (fun _ h₁ hpost => ?_)
  obtain ⟨segs, rfl, hzero, _⟩ := hpost
  by_cases hroom : h.memBrk + 4 * wsize ≤ h.memMaxAddr
  · have hroom' : h.memBrk + 32 ≤ h.memMaxAddr := hroom
    rw [returns_of_eq (memSbrk_granted (h := { h with segList := segs }) (4 * wsize)
      hlim (by simp only; omega) hroom)]
    have hne : h.memBrk ≠ sbrkFailed := by
      unfold sbrkFailed
      omega
    have hmap : h.Mapped h.memBrk 8 ∧ h.Mapped (h.memBrk + 8) 8 ∧ h.Mapped (h.memBrk + 16) 8 ∧
        h.Mapped (h.memBrk + 24) 8 := by
      unfold Heap.Mapped
      omega
    obtain ⟨hm0, hm1, hm2, hm3⟩ := hmap
    have hset : ∀ s b l p n,
        ({ h with segList := s, memBrk := b, heapListp := l } : Heap).Mapped p n ↔
        h.Mapped p n := fun _ _ _ _ _ => Iff.rfl
    simp only [returns_setHeapListp, hne, if_false, returns_bind, returns_put, hset, hm0, hm1, hm2,
      hm3, true_and, show 1 * wsize = 8 from rfl, show 2 * wsize = 16 from rfl,
      show 3 * wsize = 24 from rfl, show 4 * wsize = 32 from rfl,
      ptrAdd_eq (p := h.memBrk) (n := 8) (by omega), ptrAdd_eq (p := h.memBrk) (n := 16) (by omega),
      ptrAdd_eq (p := h.memBrk) (n := 24) (by omega), Heap.store_mapped,
      show pack dsize 1 = 17 from rfl, show pack 0 1 = 1 from rfl]
    have hv := Pool.valid_empty (h.heap + 32) h.memMaxAddr (by omega)
      (by have := hf.aligned; omega) (by omega) hlim
    have hr := initTags_represents hf (fun j hj => hzero j (Nat.zero_le j) (by omega))
    have hext := extendHeap_returns hr hv chunkSize (by decide) (by decide) (by decide)
    refine hext.mono (fun r h₂ hpost => ?_)
    have hcond : (Pool.empty (h.heap + 32) h.memMaxAddr).brk + chunkSize ≤
        (Pool.empty (h.heap + 32) h.memMaxAddr).limit ↔
        h.heap + 32 + chunkSize ≤ h.memMaxAddr := Iff.rfl
    by_cases hgrow : h.heap + 32 + chunkSize ≤ h.memMaxAddr
    · rw [if_pos (hcond.mpr hgrow)] at hpost
      obtain ⟨rfl, hs⟩ := hpost
      have hvg := Pool.valid_grow hv (by decide) (by decide) (hcond.mpr hgrow)
      have hbg := (Pool.grow_fst hv (by decide) (by decide)
        (hcond.mpr hgrow)).1
      have hbase := hvg.base_pos
      have hlo := (hvg.tiles.bounds _ hbg).1
      rw [if_neg (by omega), returns_pure, if_pos hgrow]
      exact ⟨rfl, hs.represents⟩
    · rw [if_neg (fun hc => hgrow (hcond.mp hc))] at hpost
      obtain ⟨rfl, rfl⟩ := hpost
      rw [if_pos rfl, returns_pure, if_neg hgrow, if_pos (by omega)]
      exact ⟨rfl, fun j hj => hzero j (Nat.zero_le j) (by omega), hr⟩
  · unfold wsize at hroom
    rw [returns_of_eq (memSbrk_refused (h := { h with segList := segs }) (4 * wsize)
      hlim (by have := hf.le; simp only; omega) hroom)]
    rw [returns_setHeapListp, if_pos rfl, returns_pure, if_neg (by omega), if_neg (by omega)]
    exact ⟨rfl, fun j hj => hzero j (Nat.zero_le j) (by omega), rfl, rfl⟩

theorem mmInit_returns (hf : h.Fresh) :
    Returns mmInit h (fun r h' =>
      if h.heap + 32 + chunkSize ≤ h.memMaxAddr then
        r = true ∧ Represents h' (Pool.initial h.heap h.memMaxAddr)
      else r = false) := by
  refine (mmInit_spec hf).mono fun r h' hpost => ?_
  by_cases hroom : h.heap + 32 + chunkSize ≤ h.memMaxAddr
  · rw [if_pos hroom] at hpost ⊢
    exact hpost
  · rw [if_neg hroom] at hpost ⊢
    exact hpost.1

end Allocator
end Cmpsc473
