import Cmpsc473.Allocator.Pool

/-!
# The pool operations keep the invariant

Every operation replaces a part of the row by another that tiles the same
interval, and edits the bins to match.  `Valid.replace` says this once.
-/

namespace Cmpsc473
namespace Allocator

open Tiling

/-- Next to a free block both neighbours are taken. -/
theorem notBothFree.lower {b c : Block} (h : notBothFree b c) (hc : c.alloc = false) :
    b.alloc = true :=
  Bool.eq_true_of_not_eq_false fun hb => h ⟨hb, hc⟩

theorem notBothFree.upper {b c : Block} (h : notBothFree b c) (hb : b.alloc = false) :
    c.alloc = true :=
  Bool.eq_true_of_not_eq_false fun hc => h ⟨hb, hc⟩

section Rows

variable (b : Block) (l : List Block)

theorem below_append_lowerFree : below b l ++ lowerFree b l = before b l := by
  unfold below lowerFree
  rcases List.eq_nil_or_concat (before b l) with h | ⟨init, c, h⟩
  · rw [h]
    rfl
  · rw [h, List.concat_eq_append]
    cases hc : c.alloc
    · simp [Option.filter, hc]
    · simp [Option.filter, hc, -List.length_append]

theorem upperFree_append_above : upperFree b l ++ above b l = after b l := by
  unfold above upperFree
  cases h : after b l with
  | nil => rfl
  | cons c cs => cases hc : c.alloc <;> simp [Option.filter, hc]

theorem lowerFree_free : ∀ c ∈ lowerFree b l, c.alloc = false := by
  intro c hc
  rw [lowerFree, Option.mem_toList] at hc
  simpa using (Option.filter_eq_some_iff.mp hc).2

theorem upperFree_free : ∀ c ∈ upperFree b l, c.alloc = false := by
  intro c hc
  rw [upperFree, Option.mem_toList] at hc
  simpa using (Option.filter_eq_some_iff.mp hc).2

/-- In a row without neighbouring free blocks, what is left below `b` does not
end in a free block. -/
theorem getLast?_below (h : (before b l).IsChain notBothFree) :
    ∀ c ∈ (below b l).getLast?, c.alloc = true := by
  intro c hc
  rcases List.eq_nil_or_concat (before b l) with hl | ⟨init, d, hl⟩
  · simp [below, hl] at hc
  · rw [List.concat_eq_append] at hl
    cases hd : d.alloc
    · have hlow : lowerFree b l = [d] := by simp [lowerFree, hl, Option.filter, hd]
      have hbel : below b l = init := by
        have := below_append_lowerFree b l
        rw [hlow, hl] at this
        exact List.append_cancel_right this
      rw [hbel] at hc
      rw [hl, List.isChain_append] at h
      exact notBothFree.lower (h.2.2 c hc d rfl) hd
    · have hlow : lowerFree b l = [] := by simp [lowerFree, hl, Option.filter, hd]
      have hbel : below b l = init ++ [d] := by
        have := below_append_lowerFree b l
        rwa [hlow, hl, List.append_nil] at this
      rw [hbel, List.getLast?_concat] at hc
      cases hc
      exact hd

theorem head?_above (h : (after b l).IsChain notBothFree) :
    ∀ c ∈ (above b l).head?, c.alloc = true := by
  intro c hc
  cases hl : after b l with
  | nil => simp [above, hl] at hc
  | cons d rest =>
    cases hd : d.alloc
    · have hup : upperFree b l = [d] := by simp [upperFree, hl, Option.filter, hd]
      have habv : above b l = rest := by simp [above, hup, hl]
      rw [habv] at hc
      rw [hl, List.isChain_cons] at h
      exact notBothFree.upper (h.1 c hc) hd
    · have hup : upperFree b l = [] := by simp [upperFree, hl, Option.filter, hd]
      have habv : above b l = d :: rest := by simp [above, hup, hl]
      rw [habv] at hc
      cases hc
      exact hd

end Rows

theorem merged_size (ps : List Block) (b : Block) (ns : List Block) :
    (merged ps b ns).size = (ps.map Block.size).sum + (b.size + (ns.map Block.size).sum) := by
  simp [merged]

theorem sum_sizes_aligned {l : List Block} (h : ∀ c ∈ l, c.size % 16 = 0) :
    (l.map Block.size).sum % 16 = 0 := by
  induction l with
  | nil => rfl
  | cons c l ih =>
    have hc := h c List.mem_cons_self
    have hl := ih (fun d hd => h d (List.mem_cons_of_mem c hd))
    rw [List.map_cons, List.sum_cons]
    omega

/-- The merged block covers what the blocks in it covered. -/
theorem tiles_merged {ps ns : List Block} {b : Block} {a e : Nat}
    (h : Tiles Block.bp Block.size a (ps ++ b :: ns) e) :
    Tiles Block.bp Block.size a [merged ps b ns] e := by
  have hsum := h.sum_len
  refine ⟨?_, hsum⟩
  cases ps with
  | nil => exact h.1
  | cons p ps => exact h.1

theorem nodup_eraseBins {bins : Nat → List Block} (hnd : ∀ k, (bins k).Nodup) (l : List Block)
    (k : Nat) : (l.foldl eraseBin bins k).Nodup := by
  induction l generalizing bins with
  | nil => exact hnd k
  | cons b l ih => exact ih (nodup_eraseBin hnd b)

theorem sorted_eraseBins {bins : Nat → List Block} (hs : ∀ k, (bins k).Pairwise sizeLe)
    (l : List Block) (k : Nat) : (l.foldl eraseBin bins k).Pairwise sizeLe := by
  induction l generalizing bins with
  | nil => exact hs k
  | cons b l ih => exact ih (sorted_eraseBin hs b)

theorem mem_eraseBins {bins : Nat → List Block} (hnd : ∀ k, (bins k).Nodup)
    (hcls : ∀ k, ∀ b ∈ bins k, sizeClass b.size = k) {l : List Block} {c : Block} {k : Nat} :
    c ∈ l.foldl eraseBin bins k ↔ c ∈ bins k ∧ c ∉ l := by
  induction l generalizing bins with
  | nil => simp
  | cons b l ih =>
    have hcls' : ∀ k, ∀ d ∈ eraseBin bins b k, sizeClass d.size = k :=
      fun k d hd => hcls k d ((mem_eraseBin hnd).mp hd).1
    rw [List.foldl_cons, ih (nodup_eraseBin hnd b) hcls', mem_eraseBin hnd, List.mem_cons]
    constructor
    · rintro ⟨⟨hc, hne⟩, hl⟩
      refine ⟨hc, ?_⟩
      rintro (rfl | hcl)
      · exact hne ⟨rfl, (hcls k c hc).symm⟩
      · exact hl hcl
    · rintro ⟨hc, hne⟩
      exact ⟨⟨hc, fun h => hne (Or.inl h.1)⟩, fun h => hne (Or.inr h)⟩

namespace Pool

variable {P : Pool}

theorem Valid.size_pos (h : P.Valid) : ∀ b ∈ P.blocks, 0 < b.size := fun b hb =>
  Nat.lt_of_lt_of_le (by decide) (h.sizes b hb).1

theorem Valid.eq_of_bp (h : P.Valid) {b c : Block} (hb : b ∈ P.blocks) (hc : c ∈ P.blocks)
    (hbc : b.bp = c.bp) : b = c :=
  h.tiles.start_inj h.size_pos hb hc hbc

theorem Valid.nodup_blocks (h : P.Valid) : P.blocks.Nodup := by
  refine List.Pairwise.imp_of_mem ?_ h.tiles.pairwise
  rintro b c hb _ hbc rfl
  have := h.size_pos b hb
  omega

theorem Valid.split (h : P.Valid) {b : Block} (hb : b ∈ P.blocks) :
    P.blocks = before b P.blocks ++ b :: after b P.blocks := by
  obtain ⟨l, r, hlr⟩ := List.append_of_mem hb
  have hnd := h.nodup_blocks
  rw [hlr] at hnd
  have hbl : b ∉ l := fun hbl => (List.nodup_append.mp hnd).2.2 b hbl b List.mem_cons_self rfl
  rw [hlr, before_eq hbl, after_eq hbl]

/-- A row opened around a block, its free neighbours set apart. -/
theorem Valid.split_run (h : P.Valid) {b : Block} (hb : b ∈ P.blocks) :
    P.blocks = below b P.blocks ++
      (lowerFree b P.blocks ++ b :: upperFree b P.blocks) ++ above b P.blocks := by
  calc P.blocks = before b P.blocks ++ b :: after b P.blocks := h.split hb
    _ = _ := by
      rw [← below_append_lowerFree, ← upperFree_append_above]
      simp only [List.append_assoc, List.cons_append]

theorem Valid.bp_aligned (h : P.Valid) : ∀ b ∈ P.blocks, b.bp % 16 = 0 :=
  (h.tiles.aligned (fun b hb => (h.sizes b hb).2) h.base_aligned).1

theorem Valid.bin_cls (h : P.Valid) : ∀ k, ∀ b ∈ P.bins k, sizeClass b.size = k :=
  fun k b hb => ((h.mem_bins k b).mp hb).2.2

/-- Replacing `mid` by blocks that tile the same interval keeps the invariant,
if the bins lose the free blocks of the one and gain those of the other. -/
theorem Valid.replace (h : P.Valid) {l mid r : List Block} (mid' : List Block)
    (bins : Nat → List Block) (hP : P.blocks = l ++ mid ++ r)
    (htile : ∀ a e, Tiles Block.bp Block.size a mid e → Tiles Block.bp Block.size a mid' e)
    (hsize : ∀ b ∈ mid', 32 ≤ b.size ∧ b.size % 16 = 0)
    (hmem : ∀ k b, b ∈ bins k ↔
      (b ∈ P.bins k ∧ b ∉ mid) ∨ (b ∈ mid' ∧ b.alloc = false ∧ sizeClass b.size = k))
    (hnd : ∀ k, (bins k).Nodup) (hs : ∀ k, (bins k).Pairwise sizeLe) :
    Valid { P with blocks := l ++ mid' ++ r, bins := bins } := by
  have hdisj : ∀ b, b ∈ l ∨ b ∈ r → b ∉ mid := by
    have hn := h.nodup_blocks
    rw [hP] at hn
    obtain ⟨hlm, _, hlmr⟩ := List.nodup_append.mp hn
    obtain ⟨_, _, hlm'⟩ := List.nodup_append.mp hlm
    rintro b (hb | hb) hmid
    · exact hlm' b hb b hmid rfl
    · exact hlmr b (List.mem_append_right _ hmid) b hb rfl
  have htiles := h.tiles
  rw [hP, tiles_append] at htiles
  obtain ⟨y, hlm, hr⟩ := htiles
  obtain ⟨x, hl, hm⟩ := tiles_append.mp hlm
  refine { h with
    tiles := tiles_append.mpr ⟨y, tiles_append.mpr ⟨x, hl, htile x y hm⟩, hr⟩
    sizes := ?_
    mem_bins := ?_
    nodup := hnd
    sorted := hs }
  · intro b hb
    rcases List.mem_append.mp hb with hb | hb
    · rcases List.mem_append.mp hb with hb | hb
      · exact h.sizes b (by rw [hP]; simp [hb])
      · exact hsize b hb
    · exact h.sizes b (by rw [hP]; simp [hb])
  · intro k b
    have hold := h.mem_bins k b
    rw [hP] at hold
    rw [hmem, hold]
    have := hdisj b
    simp only [List.mem_append] at this ⊢
    tauto

/-! ## Coalescing -/

@[simp] theorem coalesce_base (P : Pool) (b : Block) : (P.coalesce b).2.base = P.base := by
  unfold coalesce
  split <;> rfl

@[simp] theorem coalesce_brk (P : Pool) (b : Block) : (P.coalesce b).2.brk = P.brk := by
  unfold coalesce
  split <;> rfl

@[simp] theorem coalesce_limit (P : Pool) (b : Block) : (P.coalesce b).2.limit = P.limit := by
  unfold coalesce
  split <;> rfl

theorem merged_nil {b : Block} (hb : b.alloc = false) : merged [] b [] = b := by
  cases b
  simp_all [merged]

/-- The row after a merge, whether or not there was a free neighbour. -/
theorem coalesce_blocks (h : P.Valid) {b : Block} (hb : b ∈ P.blocks) (hf : b.alloc = false) :
    (P.coalesce b).2.blocks = below b P.blocks ++
        [merged (lowerFree b P.blocks) b (upperFree b P.blocks)] ++ above b P.blocks ∧
      (P.coalesce b).1 = merged (lowerFree b P.blocks) b (upperFree b P.blocks) := by
  have hsplit := h.split_run hb
  unfold coalesce
  split
  · rename_i he
    rw [he.1, he.2] at hsplit ⊢
    rw [merged_nil hf]
    exact ⟨by simpa using hsplit, rfl⟩
  · exact ⟨by simp, rfl⟩

theorem merged_notMem (h : P.Valid) {b : Block} (hb : b ∈ P.blocks)
    (hne : ¬ (lowerFree b P.blocks = [] ∧ upperFree b P.blocks = [])) :
    merged (lowerFree b P.blocks) b (upperFree b P.blocks) ∉ P.blocks := by
  have hsplit := h.split_run hb
  generalize lowerFree b P.blocks = ps at *
  generalize upperFree b P.blocks = ns at *
  have hpos : ∀ c ∈ ps ++ b :: ns, 0 < c.size := by
    intro c hc
    refine h.size_pos c ?_
    rw [hsplit, List.mem_append, List.mem_append]
    exact Or.inl (Or.inr hc)
  -- The merged block starts where a block of the row does, and is longer.
  have hlt : ∃ c ∈ P.blocks, c.bp = (merged ps b ns).bp ∧ c.size < (merged ps b ns).size := by
    rw [merged_size]
    cases ps with
    | nil =>
      cases ns with
      | nil => exact absurd ⟨rfl, rfl⟩ hne
      | cons n ns =>
        have := hpos n (by simp)
        refine ⟨b, hb, rfl, ?_⟩
        simp only [List.map_cons, List.sum_cons]
        omega
    | cons p ps =>
      have := hpos b (by simp)
      refine ⟨p, by rw [hsplit]; simp, rfl, ?_⟩
      simp only [List.map_cons, List.sum_cons]
      omega
  obtain ⟨c, hc, hbp, hsize⟩ := hlt
  intro hm
  rw [h.eq_of_bp hc hm hbp] at hsize
  exact Nat.lt_irrefl _ hsize

theorem valid_coalesce (h : P.Valid) {b : Block} (hb : b ∈ P.blocks) :
    (P.coalesce b).2.Valid := by
  have hsplit := h.split_run hb
  have hmem := merged_notMem h hb
  unfold coalesce
  split
  · exact h
  · rename_i hne
    have hm := hmem hne
    have hlow := lowerFree_free b P.blocks
    have hup := upperFree_free b P.blocks
    simp only
    generalize lowerFree b P.blocks = ps at *
    generalize upperFree b P.blocks = ns at *
    have hsz : ∀ c ∈ ps ++ b :: ns, 32 ≤ c.size ∧ c.size % 16 = 0 := by
      intro c hc
      refine h.sizes c ?_
      rw [hsplit, List.mem_append, List.mem_append]
      exact Or.inl (Or.inr hc)
    have hnd := nodup_eraseBins h.nodup (b :: (ps ++ ns))
    have hs := sorted_eraseBins h.sorted (b :: (ps ++ ns))
    have hmb : ∀ k c, c ∈ (b :: (ps ++ ns)).foldl eraseBin P.bins k ↔
        c ∈ P.bins k ∧ c ∉ ps ++ b :: ns := by
      intro k c
      rw [mem_eraseBins h.nodup h.bin_cls]
      simp only [List.mem_append, List.mem_cons]
      tauto
    have := h.replace [merged ps b ns]
      (insertBin ((b :: (ps ++ ns)).foldl eraseBin P.bins) (merged ps b ns)) hsplit
      (fun a e => tiles_merged) ?_ ?_ (nodup_insertBin hnd ?_) (sorted_insertBin hs _)
    · simpa using this
    · intro c hc
      rw [List.mem_singleton] at hc
      subst hc
      have hps := sum_sizes_aligned (fun c hc => (hsz c (List.mem_append_left _ hc)).2)
      have hns := sum_sizes_aligned
        (fun c hc => (hsz c (List.mem_append_right _ (List.mem_cons_of_mem b hc))).2)
      have := h.sizes b hb
      rw [merged_size]
      omega
    · intro k c
      rw [mem_insertBin, hmb, List.mem_singleton]
      constructor
      · rintro (⟨rfl, rfl⟩ | hc)
        · exact Or.inr ⟨rfl, rfl, rfl⟩
        · exact Or.inl hc
      · rintro (hc | ⟨rfl, _, rfl⟩)
        · exact Or.inr hc
        · exact Or.inl ⟨rfl, rfl⟩
    · intro hc
      exact hm ((h.mem_bins _ _).mp ((hmb _ _).mp hc).1).1

/-- Merging changes no allocated block. -/
theorem mem_coalesce_alloc (h : P.Valid) {b : Block} (hb : b ∈ P.blocks) (hf : b.alloc = false)
    {c : Block} (hc : c.alloc = true) : c ∈ (P.coalesce b).2.blocks ↔ c ∈ P.blocks := by
  rw [(coalesce_blocks h hb hf).1]
  have hsplit := h.split_run hb
  have hlow : c ∉ lowerFree b P.blocks := fun hl => by
    simp [lowerFree_free b P.blocks c hl] at hc
  have hup : c ∉ upperFree b P.blocks := fun hl => by
    simp [upperFree_free b P.blocks c hl] at hc
  have hcb : c ≠ b := by
    rintro rfl
    simp [hf] at hc
  have hcm : c ≠ merged (lowerFree b P.blocks) b (upperFree b P.blocks) := by
    rintro rfl
    simp [merged] at hc
  constructor
  · intro hm
    simp only [List.mem_append, List.mem_singleton] at hm
    rw [hsplit]
    simp only [List.mem_append]
    tauto
  · intro hm
    rw [hsplit] at hm
    simp only [List.mem_append, List.mem_cons] at hm ⊢
    tauto

theorem coalesce_fst (h : P.Valid) {b : Block} (hb : b ∈ P.blocks) (hf : b.alloc = false) :
    (P.coalesce b).1 ∈ (P.coalesce b).2.blocks ∧ (P.coalesce b).1.alloc = false ∧
      b.size ≤ (P.coalesce b).1.size := by
  obtain ⟨hblocks, hfst⟩ := coalesce_blocks h hb hf
  rw [hblocks, hfst]
  refine ⟨by simp, rfl, ?_⟩
  rw [merged_size]
  omega

/-- What is merged contains the block that was to be merged. -/
theorem coalesce_covers (h : P.Valid) {b : Block} (hb : b ∈ P.blocks) (hf : b.alloc = false) :
    (P.coalesce b).1.bp ≤ b.bp ∧
      b.bp + b.size ≤ (P.coalesce b).1.bp + (P.coalesce b).1.size := by
  have htiles := h.tiles
  rw [h.split_run hb] at htiles
  obtain ⟨e, hleft, _⟩ := tiles_append.mp htiles
  obtain ⟨a, _, hrun⟩ := tiles_append.mp hleft
  have hin := hrun.bounds b (by simp)
  obtain ⟨hlo, hhi⟩ := tiles_merged hrun
  rw [(coalesce_blocks h hb hf).2]
  simp only [Tiles] at hlo hhi
  omega

theorem isChain_insert {l r : List Block} {m : Block}
    (hl : l.IsChain notBothFree)
    (hr : r.IsChain notBothFree)
    (hlm : m.alloc = false → ∀ c ∈ l.getLast?, c.alloc = true)
    (hrm : m.alloc = false → ∀ c ∈ r.head?, c.alloc = true) :
    (l ++ [m] ++ r).IsChain notBothFree := by
  rw [List.isChain_append, List.isChain_append]
  refine ⟨⟨hl, List.isChain_singleton m, ?_⟩, hr, ?_⟩
  · intro c hc d hd
    cases hd
    rintro ⟨hcf, hmf⟩
    simp [hlm hmf c hc] at hcf
  · intro c hc d hd
    rw [List.getLast?_concat] at hc
    cases hc
    rintro ⟨hmf, hdf⟩
    simp [hrm hmf d hd] at hdf

/-- Merging at the only place where free blocks may touch leaves no such place. -/
theorem coalesced_coalesce (h : P.Valid) {b : Block} (hb : b ∈ P.blocks) (hf : b.alloc = false)
    (hlow : (before b P.blocks).IsChain notBothFree)
    (hup : (after b P.blocks).IsChain notBothFree) :
    (P.coalesce b).2.Coalesced := by
  unfold Coalesced
  rw [(coalesce_blocks h hb hf).1]
  refine isChain_insert ?_ ?_ (fun _ => getLast?_below b _ hlow) (fun _ => head?_above b _ hup)
  · rw [← below_append_lowerFree] at hlow
    exact hlow.left_of_append
  · rw [← upperFree_append_above] at hup
    exact hup.right_of_append

/-- The pool with a free block appended, before it is merged. -/
def extended (P : Pool) (size : Nat) : Pool :=
  { P with
    brk := P.brk + size
    blocks := P.blocks ++ [⟨P.brk, size, false⟩]
    bins := insertBin P.bins ⟨P.brk, size, false⟩ }

theorem Valid.bp_lt_brk (h : P.Valid) {b : Block} (hb : b ∈ P.blocks) : b.bp < P.brk := by
  have := h.tiles.bounds b hb
  have := h.size_pos b hb
  omega

theorem Valid.extended (h : P.Valid) {size : Nat} (hsize : 32 ≤ size) (halign : size % 16 = 0)
    (hlimit : P.brk + size ≤ P.limit) : (P.extended size).Valid := by
  have hnew : ∀ b ∈ P.blocks, b ≠ ⟨P.brk, size, false⟩ := by
    rintro b hb rfl
    exact Nat.lt_irrefl _ (h.bp_lt_brk hb)
  refine {
    base_pos := h.base_pos
    base_aligned := h.base_aligned
    limit_le := h.limit_le
    brk_le := hlimit
    tiles := tiles_append.mpr ⟨P.brk, h.tiles, rfl, rfl⟩
    sizes := ?_
    mem_bins := ?_
    nodup := ?_
    sorted := sorted_insertBin h.sorted _ }
  · intro b hb
    rcases List.mem_append.mp hb with hb | hb
    · exact h.sizes b hb
    · rw [List.mem_singleton.mp hb]
      exact ⟨hsize, halign⟩
  · intro k b
    show b ∈ insertBin _ _ _ ↔ b ∈ _ ++ _ ∧ _
    rw [mem_insertBin, h.mem_bins, List.mem_append, List.mem_singleton]
    constructor
    · rintro (⟨rfl, rfl⟩ | ⟨hb, hbf, hbk⟩)
      · exact ⟨Or.inr rfl, rfl, rfl⟩
      · exact ⟨Or.inl hb, hbf, hbk⟩
    · rintro ⟨hb | rfl, hbf, hbk⟩
      · exact Or.inr ⟨hb, hbf, hbk⟩
      · exact Or.inl ⟨rfl, hbk.symm⟩
  · refine nodup_insertBin h.nodup (fun hb => ?_)
    exact hnew _ ((h.mem_bins _ _).mp hb).1 rfl

theorem grow_eq (P : Pool) (size : Nat) :
    P.grow size = (P.extended size).coalesce ⟨P.brk, size, false⟩ := rfl

section Grow

variable {size : Nat}

theorem mem_extended (P : Pool) (size : Nat) :
    (⟨P.brk, size, false⟩ : Block) ∈ (P.extended size).blocks := by
  simp [extended]

theorem before_extended (h : P.Valid) :
    before ⟨P.brk, size, false⟩ (P.extended size).blocks = P.blocks := by
  refine before_eq (r := []) (fun hb => ?_)
  exact Nat.lt_irrefl _ (h.bp_lt_brk hb)

theorem after_extended (h : P.Valid) :
    after ⟨P.brk, size, false⟩ (P.extended size).blocks = [] := by
  refine after_eq (l := P.blocks) (fun hb => ?_)
  exact Nat.lt_irrefl _ (h.bp_lt_brk hb)

variable (h : P.Valid) (hsize : 32 ≤ size) (halign : size % 16 = 0)
  (hlimit : P.brk + size ≤ P.limit)

include h hsize halign hlimit

theorem valid_grow : (P.grow size).2.Valid :=
  valid_coalesce (h.extended hsize halign hlimit) (mem_extended P size)

theorem coalesced_grow (hc : P.Coalesced) : (P.grow size).2.Coalesced := by
  refine coalesced_coalesce (h.extended hsize halign hlimit) (mem_extended P size) rfl ?_ ?_
  · rw [before_extended h]
    exact hc
  · rw [after_extended h]
    exact List.IsChain.nil

theorem grow_fst : (P.grow size).1 ∈ (P.grow size).2.blocks ∧ (P.grow size).1.alloc = false ∧
    size ≤ (P.grow size).1.size :=
  coalesce_fst (h.extended hsize halign hlimit) (mem_extended P size) rfl

theorem mem_grow_alloc {c : Block} (hc : c.alloc = true) :
    c ∈ (P.grow size).2.blocks ↔ c ∈ P.blocks := by
  refine (mem_coalesce_alloc (h.extended hsize halign hlimit) (mem_extended P size) rfl hc).trans ?_
  show c ∈ _ ++ _ ↔ _
  rw [List.mem_append, List.mem_singleton]
  constructor
  · rintro (hb | rfl)
    · exact hb
    · cases hc
  · exact Or.inl

end Grow

/-- The allocated block that placing leaves at `b`. -/
def placed (b : Block) (asize : Nat) : Block :=
  ⟨b.bp, if b.size - asize ≤ 32 then b.size else asize, true⟩

theorem coalesced_sides (hc : P.Coalesced) {l r : List Block} {b : Block}
    (hP : P.blocks = l ++ b :: r) (hf : b.alloc = false) :
    (∀ c ∈ l.getLast?, c.alloc = true) ∧ (∀ c ∈ r.head?, c.alloc = true) := by
  unfold Coalesced at hc
  rw [hP, List.isChain_append, List.isChain_cons] at hc
  obtain ⟨_, ⟨hr, _⟩, hl⟩ := hc
  constructor
  · exact fun c hcl => notBothFree.lower (hl c hcl b rfl) hf
  · exact fun c hcr => notBothFree.upper (hr c hcr) hf

theorem valid_place (h : P.Valid) {b : Block} {asize : Nat} (hb : b ∈ P.blocks)
    (hfit : asize ≤ b.size) (hmin : 32 ≤ asize) (halign : asize % 16 = 0) :
    (P.place b asize).Valid := by
  have hsplit : P.blocks = before b P.blocks ++ [b] ++ after b P.blocks := by
    simpa using h.split hb
  have hbs := h.sizes b hb
  have hmem : ∀ k c, c ∈ eraseBin P.bins b k ↔ c ∈ P.bins k ∧ c ∉ [b] := by
    intro k c
    have := mem_eraseBins h.nodup h.bin_cls (l := [b]) (c := c) (k := k)
    simpa using this
  unfold place
  by_cases hrem : b.size - asize ≤ 32
  · rw [if_pos hrem]
    have := h.replace [{ b with alloc := true }] (eraseBin P.bins b) hsplit
      (fun a e ht => ht) ?_ ?_ (nodup_eraseBin h.nodup b) (sorted_eraseBin h.sorted b)
    · simpa using this
    · intro c hc
      rw [List.mem_singleton.mp hc]
      exact hbs
    · intro k c
      rw [hmem, List.mem_singleton (a := c) (b := { b with alloc := true })]
      constructor
      · exact Or.inl
      · rintro (hc | ⟨rfl, hc, _⟩)
        · exact hc
        · cases hc
  · rw [if_neg hrem]
    have hnew : ∀ k, (⟨b.bp + asize, b.size - asize, false⟩ : Block) ∉ P.bins k := by
      intro k hr
      have hrm := ((h.mem_bins k _).mp hr).1
      rcases h.tiles.ordered hb hrm with he | he | he
      · have := congrArg Block.bp he
        simp only at this
        omega
      · simp only at he
        omega
      · simp only at he
        omega
    have := h.replace [⟨b.bp, asize, true⟩, ⟨b.bp + asize, b.size - asize, false⟩]
      (insertBin (eraseBin P.bins b) ⟨b.bp + asize, b.size - asize, false⟩) hsplit
      ?_ ?_ ?_ (nodup_insertBin (nodup_eraseBin h.nodup b) ?_)
      (sorted_insertBin (sorted_eraseBin h.sorted b) _)
    · simpa using this
    · rintro a e ⟨hba, he⟩
      have he : a + b.size = e := he
      refine ⟨hba, ?_, ?_⟩
      · simp only
        omega
      · show a + asize + (b.size - asize) = e
        omega
    · intro c hc
      simp only [List.mem_cons, List.not_mem_nil, or_false] at hc
      rcases hc with rfl | rfl
      · exact ⟨hmin, halign⟩
      · simp only
        omega
    · intro k c
      rw [mem_insertBin, hmem]
      simp only [List.mem_cons, List.not_mem_nil, or_false]
      constructor
      · rintro (⟨rfl, rfl⟩ | hc)
        · exact Or.inr ⟨Or.inr rfl, rfl, rfl⟩
        · exact Or.inl hc
      · rintro (hc | ⟨rfl | rfl, hcf, hk⟩)
        · exact Or.inr hc
        · cases hcf
        · exact Or.inl ⟨rfl, hk.symm⟩
    · exact fun hr => hnew _ ((hmem _ _).mp hr).1

theorem coalesced_place (h : P.Valid) (hc : P.Coalesced) {b : Block} (hb : b ∈ P.blocks)
    (hf : b.alloc = false) (asize : Nat) : (P.place b asize).Coalesced := by
  have hsplit := h.split hb
  obtain ⟨hl, hr⟩ := coalesced_sides hc hsplit hf
  have hall := hc
  unfold Coalesced at hall
  rw [hsplit] at hall
  have hlow := hall.left_of_append
  have hup := (List.isChain_cons.mp hall.right_of_append).2
  unfold place Coalesced
  split
  · have := isChain_insert (m := { b with alloc := true }) hlow hup
      (fun hm => by cases hm) (fun hm => by cases hm)
    simpa using this
  · have hrest : ([(⟨b.bp + asize, b.size - asize, false⟩ : Block)] ++
        after b P.blocks).IsChain notBothFree :=
      isChain_insert (l := []) List.IsChain.nil hup (fun _ _ hc => nomatch hc) (fun _ => hr)
    have := isChain_insert (m := ⟨b.bp, asize, true⟩) hlow hrest
      (fun hm => by cases hm) (fun hm => by cases hm)
    simpa using this

/-- Placing adds its block to the allocated ones. -/
theorem mem_place_alloc (h : P.Valid) {b c : Block} (hb : b ∈ P.blocks) (hf : b.alloc = false)
    (asize : Nat) (hc : c.alloc = true) :
    c ∈ (P.place b asize).blocks ↔ c = placed b asize ∨ c ∈ P.blocks := by
  have hsplit := h.split hb
  have hcb : c ≠ b := by
    rintro rfl
    simp [hf] at hc
  have hcr : c ≠ ⟨b.bp + asize, b.size - asize, false⟩ := by
    rintro rfl
    cases hc
  have hold : c ∈ P.blocks ↔ c ∈ before b P.blocks ∨ c ∈ after b P.blocks := by
    rw [hsplit, List.mem_append, List.mem_cons, ← hsplit]
    tauto
  rw [hold]
  unfold place placed
  split
  · simp only [List.mem_append, List.mem_cons]
    tauto
  · simp only [List.mem_append, List.mem_cons]
    tauto

end Pool
end Allocator
end Cmpsc473
