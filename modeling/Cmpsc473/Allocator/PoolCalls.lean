import Cmpsc473.Allocator.PoolInvariant
import Cmpsc473.Library.Segregated

/-!
# The calls on a pool

What `malloc`, `free` and `realloc` do to the allocated blocks of a pool, and
that they keep the invariant.
-/

namespace Cmpsc473
namespace Allocator
namespace Pool

open Tiling

variable {P : Pool}

/-- The pool with `b` marked free and listed, before it is merged. -/
def freed (P : Pool) (b : Block) : Pool :=
  { P with
    blocks := before b P.blocks ++ { b with alloc := false } :: after b P.blocks
    bins := insertBin P.bins { b with alloc := false } }

theorem release_eq (P : Pool) (b : Block) :
    P.release b = ((P.freed b).coalesce { b with alloc := false }).2 := rfl

section Release

variable {b : Block}

theorem mem_freed (P : Pool) (b : Block) : { b with alloc := false } ∈ (P.freed b).blocks := by
  simp [freed]

theorem Valid.freed_notMem (h : P.Valid) (hb : b ∈ P.blocks) (ha : b.alloc = true) :
    { b with alloc := false } ∉ P.blocks := by
  intro hf
  have := congrArg Block.alloc (h.eq_of_bp hf hb rfl)
  simp [ha] at this

theorem Valid.freed (h : P.Valid) (hb : b ∈ P.blocks) (ha : b.alloc = true) :
    (P.freed b).Valid := by
  have hnot := h.freed_notMem hb ha
  have hsplit : P.blocks = before b P.blocks ++ [b] ++ after b P.blocks := by
    simpa using h.split hb
  have hnotBin : ∀ k, b ∉ P.bins k := by
    intro k hk
    simp [((h.mem_bins k b).mp hk).2.1] at ha
  have := h.replace [{ b with alloc := false }]
    (insertBin P.bins { b with alloc := false }) hsplit
    (fun a e ht => ht) ?_ ?_ (nodup_insertBin h.nodup ?_) (sorted_insertBin h.sorted _)
  · simpa [Pool.freed] using this
  · intro c hc
    rw [List.mem_singleton.mp hc]
    exact h.sizes b hb
  · intro k c
    rw [mem_insertBin, List.mem_singleton, List.mem_singleton]
    constructor
    · rintro (⟨rfl, rfl⟩ | hc)
      · exact Or.inr ⟨rfl, rfl, rfl⟩
      · refine Or.inl ⟨hc, ?_⟩
        rintro rfl
        exact hnotBin k hc
    · rintro (⟨hc, _⟩ | ⟨rfl, _, rfl⟩)
      · exact Or.inr hc
      · exact Or.inl ⟨rfl, rfl⟩
  · exact fun hf => hnot ((h.mem_bins _ _).mp hf).1

theorem before_freed (h : P.Valid) (hb : b ∈ P.blocks) (ha : b.alloc = true) :
    before { b with alloc := false } (P.freed b).blocks = before b P.blocks := by
  refine before_eq (fun hf => h.freed_notMem hb ha ?_)
  rw [h.split hb]
  exact List.mem_append_left _ hf

theorem after_freed (h : P.Valid) (hb : b ∈ P.blocks) (ha : b.alloc = true) :
    after { b with alloc := false } (P.freed b).blocks = after b P.blocks := by
  refine after_eq (fun hf => h.freed_notMem hb ha ?_)
  rw [h.split hb]
  exact List.mem_append_left _ hf

theorem valid_release (h : P.Valid) (hb : b ∈ P.blocks) (ha : b.alloc = true) :
    (P.release b).Valid :=
  valid_coalesce (h.freed hb ha) (mem_freed P b)

theorem coalesced_release (h : P.Valid) (hc : P.Coalesced) (hb : b ∈ P.blocks)
    (ha : b.alloc = true) : (P.release b).Coalesced := by
  have hrow := hc
  unfold Coalesced at hrow
  rw [h.split hb] at hrow
  refine coalesced_coalesce (h.freed hb ha) (mem_freed P b) rfl ?_ ?_
  · rw [before_freed h hb ha]
    exact hrow.left_of_append
  · rw [after_freed h hb ha]
    exact (List.isChain_cons.mp hrow.right_of_append).2

/-- Freeing takes its block from the allocated ones. -/
theorem mem_release_alloc (h : P.Valid) (hb : b ∈ P.blocks) (ha : b.alloc = true) {c : Block}
    (hc : c.alloc = true) : c ∈ (P.release b).blocks ↔ c ∈ P.blocks ∧ c ≠ b := by
  refine (mem_coalesce_alloc (h.freed hb ha) (mem_freed P b) rfl hc).trans ?_
  have hcf : c ≠ { b with alloc := false } := by
    rintro rfl
    cases hc
  have hnd := h.nodup_blocks
  have hsplit := h.split hb
  rw [hsplit] at hnd
  obtain ⟨_, hnd', hdisj⟩ := List.nodup_append.mp hnd
  have hbl : b ∉ before b P.blocks := fun hl => hdisj b hl b List.mem_cons_self rfl
  have hbr : b ∉ after b P.blocks := (List.nodup_cons.mp hnd').1
  have hold : c ∈ P.blocks ↔ c ∈ before b P.blocks ∨ c = b ∨ c ∈ after b P.blocks := by
    conv_lhs => rw [hsplit]
    rw [List.mem_append, List.mem_cons]
  rw [hold]
  simp only [freed, List.mem_append, List.mem_cons]
  constructor
  · rintro (hl | rfl | hr)
    · exact ⟨Or.inl hl, fun e => hbl (e ▸ hl)⟩
    · exact absurd rfl hcf
    · exact ⟨Or.inr (Or.inr hr), fun e => hbr (e ▸ hr)⟩
  · rintro ⟨hl | rfl | hr, hne⟩
    · exact Or.inl hl
    · exact absurd rfl hne
    · exact Or.inr (Or.inr hr)

end Release

theorem blockAt_eq (h : P.Valid) {b : Block} (hb : b ∈ P.blocks) : P.blockAt b.bp = some b := by
  unfold blockAt
  cases hf : P.blocks.find? (fun c => c.bp = b.bp) with
  | none =>
    have := List.find?_eq_none.mp hf b hb
    simp at this
  | some c =>
    have hbp := List.find?_some hf
    rw [h.eq_of_bp (List.mem_of_find?_eq_some hf) hb (by simpa using hbp)]

theorem free_eq (h : P.Valid) {b : Block} (hb : b ∈ P.blocks) : P.free b.bp = P.release b := by
  rw [free, blockAt_eq h hb]

/-- The bins of a valid pool are segregated by size. -/
theorem Valid.segregated (h : P.Valid) : Segregated.Sorted P.bins Block.size sizeClass :=
  ⟨fun _ _ => sizeClass_mono, h.bin_cls, h.sorted⟩

theorem fit_some {asize : Nat} {b : Block} (h : P.fit asize = some b) :
    (∃ k, b ∈ P.bins k) ∧ asize ≤ b.size :=
  Segregated.mem_of_search h

/-- A free block lies in a class that a search can reach. -/
theorem Valid.mem_class (h : P.Valid) {b : Block} (hb : b ∈ P.blocks) (hf : b.alloc = false)
    (asize : Nat) : b ∈ P.bins (sizeClass b.size) ∧
      sizeClass b.size < sizeClass asize + (maxLen - sizeClass asize) := by
  have := sizeClass_lt b.size
  exact ⟨(h.mem_bins (sizeClass b.size) b).mpr ⟨hb, hf, rfl⟩, by omega⟩

/-- No free block is overlooked. -/
theorem fit_none (h : P.Valid) {asize : Nat} (hn : P.fit asize = none) :
    ∀ b ∈ P.blocks, b.alloc = false → b.size < asize := by
  intro b hb hf
  obtain ⟨hbin, hk⟩ := h.mem_class hb hf asize
  exact Segregated.search_eq_none h.segregated hn hk hbin

/-- What is found is the smallest free block that is large enough. -/
theorem fit_le (h : P.Valid) {asize : Nat} {b : Block} (hfit : P.fit asize = some b) :
    ∀ c ∈ P.blocks, c.alloc = false → asize ≤ c.size → b.size ≤ c.size := by
  intro c hc hf hle
  exact Segregated.search_le h.segregated hfit (h.mem_class hc hf asize).1 hle

theorem blockSize_spec {n : Nat} (hn : n + 31 < 2 ^ 64) :
    32 ≤ blockSize n ∧ blockSize n % 16 = 0 ∧ n + 16 ≤ blockSize n ∧ blockSize n < 2 ^ 64 := by
  unfold blockSize
  split <;> omega

/-- The blocks of a pool that are in use. -/
def Live (P : Pool) (b : Block) : Prop := b ∈ P.blocks ∧ b.alloc = true

theorem Live.ne_of_free {P : Pool} {b c : Block} (h : P.Live c) (hf : b.alloc = false) : c ≠ b := by
  intro he
  rw [← he, h.2] at hf
  cases hf

/-- `Q` is `P` with one more block in use, `a`, which has room for `asize` bytes. -/
structure Allocated (P : Pool) (asize : Nat) (a : Block) (Q : Pool) : Prop where
  valid : Q.Valid
  coalesced : Q.Coalesced
  base : Q.base = P.base
  limit : Q.limit = P.limit
  brk_le : P.brk ≤ Q.brk
  size_ge : asize ≤ a.size
  size_le : a.size ≤ asize + 32
  live : ∀ c, Q.Live c ↔ c = a ∨ P.Live c
  fresh : ∀ c, P.Live c → c.bp ≠ a.bp

theorem allocated_place (h : P.Valid) (hc : P.Coalesced) {b : Block} {asize : Nat}
    (hb : b ∈ P.blocks) (hf : b.alloc = false) (hfit : asize ≤ b.size) (hmin : 32 ≤ asize)
    (halign : asize % 16 = 0) : P.Allocated asize (placed b asize) (P.place b asize) := by
  refine {
    valid := valid_place h hb hfit hmin halign
    coalesced := coalesced_place h hc hb hf asize
    base := by unfold place; split <;> rfl
    limit := by unfold place; split <;> rfl
    brk_le := by unfold place; split <;> exact Nat.le_refl _
    size_ge := ?_
    size_le := ?_
    live := ?_
    fresh := ?_ }
  · unfold placed
    split <;> simp only <;> omega
  · unfold placed
    split <;> simp only <;> omega
  · intro c
    unfold Live
    constructor
    · rintro ⟨hcm, hca⟩
      rcases (mem_place_alloc h hb hf asize hca).mp hcm with rfl | hcm
      · exact Or.inl rfl
      · exact Or.inr ⟨hcm, hca⟩
    · rintro (rfl | ⟨hcm, hca⟩)
      · exact ⟨(mem_place_alloc h hb hf asize rfl).mpr (Or.inl rfl), rfl⟩
      · exact ⟨(mem_place_alloc h hb hf asize hca).mpr (Or.inr hcm), hca⟩
  · rintro c ⟨hcm, hca⟩ hbp
    rw [h.eq_of_bp hcm hb hbp, hf] at hca
    cases hca

theorem malloc_spec (h : P.Valid) (hc : P.Coalesced) {n : Nat} (hn : n + 31 < 2 ^ 64) :
    P.malloc n = (0, P) ∨
      ∃ a, (P.malloc n).1 = a.bp ∧ P.Allocated (blockSize n) a (P.malloc n).2 := by
  obtain ⟨hmin, halign, _, _⟩ := blockSize_spec hn
  unfold malloc
  by_cases hn0 : n = 0
  · rw [if_pos hn0]
    exact Or.inl rfl
  rw [if_neg hn0]
  cases hfit : P.fit (blockSize n) with
  | some b =>
    obtain ⟨⟨k, hk⟩, hsize⟩ := fit_some hfit
    obtain ⟨hb, hf, _⟩ := (h.mem_bins k b).mp hk
    exact Or.inr ⟨placed b (blockSize n), rfl, allocated_place h hc hb hf hsize hmin halign⟩
  | none =>
    simp only
    split
    · rename_i hroom
      have hext : 32 ≤ max (blockSize n) chunkSize := by omega
      have halign' : max (blockSize n) chunkSize % 16 = 0 := by
        unfold chunkSize
        omega
      have hg := valid_grow h hext halign' hroom
      have hgc := coalesced_grow h hext halign' hroom hc
      obtain ⟨hb, hf, hsize⟩ := grow_fst h hext halign' hroom
      have hlive : ∀ c, (P.grow (max (blockSize n) chunkSize)).2.Live c ↔ P.Live c :=
        fun c => and_congr_left fun hca => mem_grow_alloc h hext halign' hroom hca
      have hA := allocated_place hg hgc hb hf (by omega) hmin halign
      refine Or.inr ⟨placed (P.grow (max (blockSize n) chunkSize)).1 (blockSize n), rfl, ?_⟩
      exact {
        hA with
        base := hA.base.trans (by rw [grow_eq]; simp [extended])
        limit := hA.limit.trans (by rw [grow_eq]; simp [extended])
        brk_le := Nat.le_trans (by rw [grow_eq]; simp [extended]) hA.brk_le
        live := fun c => (hA.live c).trans (by rw [hlive])
        fresh := fun c hcl => hA.fresh c ((hlive c).mpr hcl) }
    · exact Or.inl rfl

end Pool
end Allocator
end Cmpsc473
