import Cmpsc473.Allocator.HeapShape

/-!
# The outcome of a request

`find_fit` finds the smallest block that will do, and `malloc` fails only where
no free block will do and the heap cannot grow.
-/

namespace Cmpsc473
namespace Allocator

open Total Tiling Transition

variable {h h' : Heap} {s : Session} {P : Pool}

/-- What `find_fit` returns, told by the free blocks. -/
theorem Pool.Valid.findFit_spec (hv : P.Valid) (hr : Represents h P) {asize : Nat}
    (hpos : 0 < asize) (hlt : asize < 2 ^ 64) :
    Returns (findFit asize) h (fun r h' => h' = h ∧
      match P.fit asize with
      | none => r = 0 ∧ ∀ b ∈ P.blocks, b.alloc = false → b.size < asize
      | some b => r = b.bp ∧ r ≠ 0 ∧ (b ∈ P.blocks ∧ b.alloc = false) ∧ asize ≤ b.size ∧
          ∀ c ∈ P.blocks, c.alloc = false → asize ≤ c.size → b.size ≤ c.size) := by
  refine (findFit_returns hr.listed (hr.binsOk hv) hpos hlt).mono ?_
  rintro r h' ⟨rfl, rfl⟩
  refine ⟨rfl, ?_⟩
  cases hfit : P.fit asize with
  | none => exact ⟨rfl, Pool.fit_none hv hfit⟩
  | some b =>
    obtain ⟨⟨k, hk⟩, hsize⟩ := Pool.fit_some hfit
    obtain ⟨hb, hf, _⟩ := (hv.mem_bins k b).mp hk
    have hlo := (hr.bounds hv hb).1
    refine ⟨rfl, ?_, ⟨hb, hf⟩, hsize, Pool.fit_le hv hfit⟩
    show b.bp ≠ 0
    omega

/-- **`find_fit` is best fit.** It returns the smallest of all free blocks that
are large enough, and fails only if there is none. -/
theorem best_fit (hs : s.Reachable) {asize : Nat} (hpos : 1 ≤ asize) (hlt : asize < 2 ^ 64) :
    ∃ r, findFit asize s.heap = some (r, s.heap) ∧
      (r = 0 ↔ ∀ bp size, HasBlock s.heap bp size 0 → ¬ asize ≤ size) ∧
      (r ≠ 0 → ∃ size, HasBlock s.heap r size 0 ∧ asize ≤ size ∧
        ∀ bp' size', HasBlock s.heap bp' size' 0 → asize ≤ size' → size ≤ size') := by
  obtain ⟨P, hh⟩ := hs.holds
  have hfree := @Row.hasBlock_free _ _ hh.represents.toRow hh.valid
  obtain ⟨r, h', hx, rfl, hspec⟩ := hh.valid.findFit_spec hh.represents hpos hlt
  refine ⟨r, hx, ?_⟩
  cases hfit : P.fit asize with
  | none =>
    rw [hfit] at hspec
    obtain ⟨rfl, hnone⟩ := hspec
    refine ⟨⟨fun _ bp size hblock => ?_, fun _ => rfl⟩, fun hne => absurd rfl hne⟩
    obtain ⟨b, hb, hf, _, rfl⟩ := hfree.mp hblock
    have := hnone b hb hf
    omega
  | some b =>
    rw [hfit] at hspec
    obtain ⟨rfl, hne, ⟨hb, hf⟩, hsize, hleast⟩ := hspec
    have hblock := hfree.mpr ⟨b, hb, hf, rfl, rfl⟩
    refine ⟨⟨fun h0 => absurd h0 hne, fun hnone => absurd hsize (hnone _ _ hblock)⟩, fun _ => ?_⟩
    refine ⟨b.size, hblock, hsize, fun bp' size' hblock' hle => ?_⟩
    obtain ⟨c, hc, hcf, _, rfl⟩ := hfree.mp hblock'
    exact hleast c hc hcf hle

/-- Of the two free blocks the one of 48 bytes is found. -/
theorem best_fit_mixed : ∃ (s : Session) (r : Nat), s.Live 4176 48 ∧
    findFit 48 s.heap = some (r, s.heap) ∧ r ≠ 0 ∧ HasBlock s.heap r 48 0 := by
  obtain ⟨s, hs, hlive, hfree⟩ := exists_mixedSession
  obtain ⟨r, hx, hnone, hleast⟩ := best_fit hs (by decide : 1 ≤ 48) (by decide)
  have hr : r ≠ 0 := fun h0 => hnone.mp h0 4128 48 hfree (Nat.le_refl 48)
  obtain ⟨size, hblock, hge, hle⟩ := hleast hr
  obtain rfl : size = 48 := Nat.le_antisymm (hle 4128 48 hfree (Nat.le_refl 48)) hge
  exact ⟨s, r, hlive, hx, hr, hblock⟩

/-- The block size that `malloc` computes for a request, `asize`. -/
def requestSize (size : Nat) : Nat :=
  if size ≤ dsize then 2 * dsize else align ((size + alignment) % 2 ^ 64)

/-- In a call of `malloc(size)` on `h`, `place(bp, asize)` is called on `h'`. -/
inductive PlaceCall (size : Nat) (h : Heap) : Nat → Heap → Prop
  | found {bp : Nat} {h' : Heap} : findFit (requestSize size) h = some (bp, h') → bp ≠ 0 →
      PlaceCall size h bp h'
  | extended {bp : Nat} {h₁ h' : Heap} : findFit (requestSize size) h = some (0, h₁) →
      extendHeap (max64 (requestSize size) chunkSize / wsize) h₁ = some (bp, h') → bp ≠ 0 →
      PlaceCall size h bp h'

/-- Such a call is the last that `malloc` makes. -/
theorem PlaceCall.mmMalloc_eq {size bp : Nat} (h0 : size ≠ 0) (hp : PlaceCall size h bp h') :
    mmMalloc size h = (do place bp (requestSize size); return bp : Mm Nat) h' := by
  unfold mmMalloc
  rw [if_neg h0]
  cases hp with
  | found hx hne => exact (bind_of_some hx).trans (by rw [if_neg hne]; rfl)
  | extended hx hext hne =>
    refine (bind_of_some hx).trans ?_
    rw [if_pos rfl]
    exact (bind_of_some hext).trans (by rw [if_neg hne]; rfl)

/-- `malloc` returns no block without it. -/
theorem exists_placeCall {size r : Nat} (hx : mmMalloc size h = some (r, h')) (hr : r ≠ 0) :
    ∃ h₁, PlaceCall size h r h₁ := by
  unfold mmMalloc at hx
  by_cases h0 : size = 0
  · rw [if_pos h0] at hx
    cases hx
    exact absurd rfl hr
  rw [if_neg h0] at hx
  obtain ⟨bp, h₁, hfit, hx⟩ := bind_eq_some.mp hx
  by_cases hbp : bp = 0
  · rw [if_pos hbp] at hx
    obtain ⟨bp', h₂, hext, hx⟩ := bind_eq_some.mp hx
    by_cases hbp' : bp' = 0
    · rw [if_pos hbp'] at hx
      cases hx
      exact absurd rfl hr
    · rw [if_neg hbp'] at hx
      obtain ⟨_, _, -, hret⟩ := bind_eq_some.mp hx
      cases hret
      rw [hbp] at hfit
      exact ⟨h₂, .extended hfit hext hr⟩
  · rw [if_neg hbp] at hx
    obtain ⟨_, _, -, hret⟩ := bind_eq_some.mp hx
    cases hret
    exact ⟨h₁, .found hfit hr⟩

namespace Pool

theorem place_brk (P : Pool) (b : Block) (asize : Nat) : (P.place b asize).brk = P.brk := by
  unfold place
  split <;> rfl

theorem grow_brk (P : Pool) (size : Nat) : (P.grow size).2.brk = P.brk + size := by
  rw [grow_eq, coalesce_brk]
  rfl

/-- `malloc` returns a block, or leaves the pool as it is. -/
theorem malloc_brk (hv : P.Valid) {n : Nat} (h1 : 1 ≤ n) (hn : n + 31 < 2 ^ 64) :
    match P.fit (blockSize n) with
    | some _ => (P.malloc n).1 ≠ 0 ∧ (P.malloc n).2.brk = P.brk
    | none =>
      if P.brk + max (blockSize n) chunkSize ≤ P.limit then
        (P.malloc n).1 ≠ 0 ∧ (P.malloc n).2.brk = P.brk + max (blockSize n) chunkSize
      else P.malloc n = (0, P) := by
  obtain ⟨hmin, halign, _, _⟩ := blockSize_spec hn
  have hpos : ∀ {Q : Pool} {c : Block}, Q.Valid → c ∈ Q.blocks → c.bp ≠ 0 := by
    intro Q c hQ hc
    have := hQ.base_pos
    have := (hQ.tiles.bounds c hc).1
    omega
  unfold malloc
  rw [if_neg (by omega : ¬ n = 0)]
  cases hfit : P.fit (blockSize n) with
  | some b =>
    obtain ⟨⟨k, hk⟩, _⟩ := fit_some hfit
    exact ⟨hpos hv ((hv.mem_bins k b).mp hk).1, place_brk P b _⟩
  | none =>
    simp only
    by_cases hroom : P.brk + max (blockSize n) chunkSize ≤ P.limit
    · have halign' : max (blockSize n) chunkSize % 16 = 0 := by
        unfold chunkSize
        omega
      have hvg := valid_grow hv (by omega) halign' hroom
      have hbg := (grow_fst hv (by omega) halign' hroom).1
      rw [if_pos hroom, if_pos hroom]
      exact ⟨hpos hvg hbg, by rw [place_brk, grow_brk]⟩
    · rw [if_neg hroom, if_neg hroom]

end Pool

/-- The block that `place` is given has room for what is placed. -/
theorem Represents.placeCall (hr : Represents h P) (hv : P.Valid) {size bp : Nat}
    (hn : size + 31 < 2 ^ 64) (hp : PlaceCall size h bp h') :
    requestSize size ≤ sizeAt h' bp := by
  have hask : requestSize size = Pool.blockSize size := blockSize_eq hn
  obtain ⟨hmin, halign, _, hlt⟩ := Pool.blockSize_spec hn
  rw [hask]
  cases hp with
  | found hx hne =>
    rw [hask] at hx
    obtain ⟨rfl, hspec⟩ := (returns_of_eq hx).mp (hv.findFit_spec hr (by omega) hlt)
    cases hfit : P.fit (Pool.blockSize size) with
    | none =>
      rw [hfit] at hspec
      exact absurd hspec.1 hne
    | some b =>
      rw [hfit] at hspec
      obtain ⟨rfl, _, ⟨hb, _⟩, hsize, _⟩ := hspec
      rw [hr.sizeAt_eq hv hb]
      exact hsize
  | extended hx hext hne =>
    rw [hask] at hx hext
    obtain ⟨rfl, _⟩ := (returns_of_eq hx).mp (hv.findFit_spec hr (by omega) hlt)
    have halign' : max (Pool.blockSize size) chunkSize % 16 = 0 := by
      unfold chunkSize
      omega
    have hlt' : max (Pool.blockSize size) chunkSize < 2 ^ 64 := by
      unfold chunkSize
      omega
    rw [max64_eq] at hext
    have hpost := (returns_of_eq hext).mp
      (extendHeap_returns hr hv _ (by omega) halign' hlt')
    by_cases hroom : P.brk + max (Pool.blockSize size) chunkSize ≤ P.limit
    · rw [if_pos hroom] at hpost
      obtain ⟨rfl, hstage⟩ := hpost
      obtain ⟨hb, _, hsize⟩ := Pool.grow_fst hv (by omega) halign' hroom
      rw [hstage.row.sizeAt_eq (Pool.valid_grow hv (by omega) halign' hroom) hb]
      omega
    · rw [if_neg hroom] at hpost
      exact absurd hpost.1 hne

/-- **The outcome of `malloc`.** A free block that is large enough is used, and
the break stays.  If there is none the heap grows by the block size, or by one
chunk if that is more; where the mapped area has no room for it, `malloc` returns
the null pointer and nothing has changed.  `place` never gets a block that is
smaller than what it places. -/
theorem malloc_outcome (hs : s.Reachable) {size : Nat} (h1 : 1 ≤ size) (hn : size + 31 < 2 ^ 64) :
    (∃ r h', mmMalloc size s.heap = some (r, h') ∧
      ((∃ bp bsize, HasBlock s.heap bp bsize 0 ∧ requestSize size ≤ bsize) →
        r ≠ 0 ∧ h'.memBrk = s.heap.memBrk) ∧
      ((¬ ∃ bp bsize, HasBlock s.heap bp bsize 0 ∧ requestSize size ≤ bsize) →
        (s.heap.memBrk + max (requestSize size) chunkSize ≤ s.heap.memMaxAddr →
          r ≠ 0 ∧ h'.memBrk = s.heap.memBrk + max (requestSize size) chunkSize) ∧
        (¬ s.heap.memBrk + max (requestSize size) chunkSize ≤ s.heap.memMaxAddr →
          r = 0 ∧ h' = s.heap))) ∧
    (∀ bp h', PlaceCall size s.heap bp h' → requestSize size ≤ sizeAt h' bp ∧
      mmMalloc size s.heap = (do place bp (requestSize size); return bp : Mm Nat) h') ∧
    ∀ r h', mmMalloc size s.heap = some (r, h') → r ≠ 0 → ∃ h₁, PlaceCall size s.heap r h₁ := by
  obtain ⟨P, hh⟩ := hs.holds
  have hask : requestSize size = Pool.blockSize size := blockSize_eq hn
  have hfree := @Row.hasBlock_free _ _ hh.represents.toRow hh.valid
  obtain ⟨r, h', hx, rfl, hr', _, hsame⟩ := mmMalloc_returns hh.represents hh.valid hn
  have hbrk := hh.represents.brk
  have hbrk' := hr'.brk
  have hlimit := hh.represents.limit
  refine ⟨⟨_, h', hx, ?_⟩, 
    fun bp h₁ hp => ⟨hh.represents.placeCall hh.valid hn hp, hp.mmMalloc_eq (by omega)⟩,
    fun _ _ => exists_placeCall⟩
  have hcases := Pool.malloc_brk hh.valid h1 hn
  rw [hask, ← hbrk, ← hlimit, ← hbrk']
  cases hfit : P.fit (Pool.blockSize size) with
  | some b =>
    rw [hfit] at hcases
    obtain ⟨⟨k, hk⟩, hsize⟩ := Pool.fit_some hfit
    obtain ⟨hb, hf, _⟩ := (hh.valid.mem_bins k b).mp hk
    exact ⟨fun _ => hcases, fun hno =>
      absurd ⟨_, _, hfree.mpr ⟨b, hb, hf, rfl, rfl⟩, hsize⟩ hno⟩
  | none =>
    rw [hfit] at hcases
    refine ⟨fun ⟨bp, bsize, hblock, hle⟩ => ?_, fun _ => ⟨fun hroom => ?_, fun hroom => ?_⟩⟩
    · obtain ⟨b, hb, hf, _, rfl⟩ := hfree.mp hblock
      have := Pool.fit_none hh.valid hfit b hb hf
      omega
    · rwa [if_pos hroom] at hcases
    · rw [if_neg hroom] at hcases
      exact ⟨congrArg Prod.fst hcases, hsame hcases⟩

theorem malloc_outcome_mixed : ∃ (s : Session) (r : Nat) (h' : Heap), s.Live 4176 48 ∧
    mmMalloc 24 s.heap = some (r, h') ∧ r ≠ 0 ∧ h'.memBrk = s.heap.memBrk := by
  obtain ⟨s, hs, hlive, hfree⟩ := exists_mixedSession
  obtain ⟨⟨r, h', hx, hfit, _⟩, _⟩ := malloc_outcome hs (by decide : 1 ≤ 24) (by decide)
  obtain ⟨hr, hbrk⟩ := hfit ⟨4128, 48, hfree, by decide⟩
  exact ⟨s, r, h', hlive, hx, hr, hbrk⟩

end Allocator
end Cmpsc473
