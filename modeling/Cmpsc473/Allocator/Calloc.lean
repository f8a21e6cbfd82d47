import Cmpsc473.Allocator.Area
import Cmpsc473.Allocator.Wrap

/-!
# Allocation of zeroed memory

`calloc` multiplies in 64 bits and does not look for an overflow: it then asks
`malloc` for the wrapped product, and zeroes that many bytes.
-/

namespace Cmpsc473
namespace Allocator

open ByteMemory Total Tiling Transition

variable {h h' : Heap} {s : Session} {P : Pool} {b : Block}

theorem Heap.mem_store_zero (h : Heap) {p n x : Nat} (hlo : p ≤ x) (hhi : x < p + n) :
    (h.store p n 0).mem x = 0 := by
  show write h.mem p n 0 x = 0
  rw [write_of_inside hlo hhi, Nat.zero_div]
  rfl

theorem setWords_returns (words dst : Nat) (hlim : h.memMaxAddr ≤ 2 ^ 63)
    (hdst : h.Mapped dst (8 * words)) :
    Returns (setWords 0 words dst) h (fun _ h' => ChangedIn dst (dst + 8 * words) h h' ∧
      ∀ i < 8 * words, h'.mem (dst + i) = 0) := by
  induction words generalizing h dst with
  | zero =>
    rw [setWords, returns_pure]
    exact ⟨ChangedIn.refl _ _ h, fun i hi => absurd hi (Nat.not_lt_zero i)⟩
  | succ words ih =>
    have hmap : h.Mapped dst 8 ∧ h.Mapped (dst + 8) (8 * words) ∧ dst + 8 < 2 ^ 64 := by
      unfold Heap.Mapped at *
      omega
    obtain ⟨hm, hm', hlt⟩ := hmap
    rw [setWords]
    simp only [memWrite, if_true, returns_bind, returns_put, hm, true_and, ptrAdd_eq hlt]
    refine (ih (h := h.store dst 8 0) _ hlim hm').mono (fun _ h' hpost => ?_)
    obtain ⟨hc, hzero⟩ := hpost
    constructor
    · exact ((ChangedIn.refl dst _ h).store (Nat.le_refl dst) (by omega)).trans
        (hc.mono (by omega) (by omega))
    · intro i hi
      by_cases hi8 : i < 8
      · rw [hc.mem _ (by omega)]
        exact h.mem_store_zero (by omega) (by omega)
      · have := hzero (i - 8) (by omega)
        rwa [show dst + 8 + (i - 8) = dst + i by omega] at this

theorem memMemset_returns (dst n : Nat) (hlim : h.memMaxAddr ≤ 2 ^ 63) (hdst : h.Mapped dst n) :
    Returns (memMemset dst 0 n) h (fun _ h' => ChangedIn dst (dst + n) h h' ∧
      ∀ i < n, h'.mem (dst + i) = 0) := by
  have hdata : memsetData 0 = 0 := by decide
  have hwords : h.Mapped dst (8 * (n / 8)) := by
    unfold Heap.Mapped at *
    omega
  unfold memMemset
  rw [hdata, returns_bind]
  refine (setWords_returns (n / 8) dst hlim hwords).mono (fun _ h₁ hpost => ?_)
  obtain ⟨hc, hzero⟩ := hpost
  by_cases hrest : n % 8 = 0
  · have hn : 8 * (n / 8) = n := by omega
    rw [if_neg (not_not.mpr hrest), returns_pure]
    rw [hn] at hc hzero
    exact ⟨hc, hzero⟩
  · have hlt : dst + 8 * (n / 8) < 2 ^ 64 := by
      unfold Heap.Mapped at hdst
      omega
    have hmap : h₁.Mapped (dst + 8 * (n / 8)) (n % 8) := by
      unfold Heap.Mapped at *
      rw [hc.heap, hc.memMaxAddr]
      omega
    rw [if_pos hrest, ptrAdd_eq hlt]
    have hwrite : memWrite (dst + 8 * (n / 8)) 0 (n % 8) h₁ =
        some ((), h₁.store (dst + 8 * (n / 8)) (n % 8) 0) := by
      unfold memWrite
      rw [if_neg (by omega : ¬ n % 8 = 8)]
      exact if_pos hmap
    rw [returns_of_eq hwrite]
    constructor
    · exact (hc.mono (Nat.le_refl _) (by omega)).store (by omega) (by omega)
    · intro i hi
      by_cases hword : i < 8 * (n / 8)
      · rw [h₁.mem_store_of_outside (by omega)]
        exact hzero i hword
      · exact h₁.mem_store_zero (by omega) (by omega)

/-- Every word that `mem_memset` reaches without a wrap is mapped. -/
theorem setWords_mapped {data words dst : Nat} {r : Unit × Heap}
    (hx : setWords data words dst h = some r) :
    ∀ k < words, (k = 0 ∨ dst + 8 * k < 2 ^ 64) → h.Mapped (dst + 8 * k) 8 := by
  induction words generalizing h dst with
  | zero => exact fun k hk => absurd hk (Nat.not_lt_zero k)
  | succ words ih =>
    intro k hk hlt
    obtain ⟨⟨⟩, h₁, hput, hx⟩ := bind_eq_some.mp hx
    have hput : put dst data h = some ((), h₁) := hput
    unfold put at hput
    split at hput
    · rename_i hm
      cases hput
      cases k with
      | zero => exact hm
      | succ k =>
        rw [ptrAdd_eq (by omega)] at hx
        have hmap := ih hx k (by omega) (by omega)
        rwa [show dst + 8 + 8 * k = dst + 8 * (k + 1) by omega] at hmap
    · cases hput

/-- More bytes than the address space has room for cannot be zeroed. -/
theorem memMemset_huge {dst n : Nat} (hlim : h.memMaxAddr ≤ 2 ^ 63) (hn : 2 ^ 63 + 8 ≤ n) :
    memMemset dst 0 n h = none := by
  cases hx : memMemset dst 0 n h with
  | none => rfl
  | some r =>
    obtain ⟨_, h₁, hwords, _⟩ := bind_eq_some.mp hx
    have hfirst := setWords_mapped hwords 0 (by omega) (Or.inl rfl)
    unfold Heap.Mapped at hfirst
    have hmap := setWords_mapped hwords (2 ^ 60) (by omega) (by omega)
    unfold Heap.Mapped at hmap
    omega

/-- What a client may expect of the `n` bytes at `p` that a call left in `h'`: they
are zero, and lie in one block.  The zeroing stays in the payload of that block, since
it is defined where only the payload is mapped. -/
structure CallocGives (s : Session) (n p : Nat) (h' : Heap) : Prop where
  room : n ≤ sizeAt h' p - 16
  zero : ∀ i < n, h'.mem (p + i) = 0
  inside : ∃ h₁, mmMalloc (n % 2 ^ 64) s.heap = some (p, h₁) ∧
    (memMemset p 0 (n % 2 ^ 64) (h₁.within p (p + (sizeAt h' p - 16)))).isSome ∧
    ∀ x, x < p ∨ p + (sizeAt h' p - 16) ≤ x → h'.mem x = h₁.mem x
  others : ∀ bp bsize, s.Live bp bsize → HasBlock h' bp bsize 1 ∧
    ∀ x, bp ≤ x → x < bp + bsize - 16 → h'.mem x = s.heap.mem x

/-- The call is defined, and gives all the memory asked for if it gives any. -/
structure CallocFits (s : Session) (nmemb size : Nat) : Prop where
  defined : (mmCalloc nmemb size s.heap).isSome
  gives : ∀ p h', mmCalloc nmemb size s.heap = some (p, h') → p ≠ 0 →
    CallocGives s (nmemb * size) p h'

variable {nmemb size : Nat}

theorem mmCalloc_eq (nmemb size : Nat) (h : Heap) : mmCalloc nmemb size h = (do
    let ptr ← mmMalloc (nmemb * size % 2 ^ 64)
    if ptr ≠ 0 then
      memMemset ptr 0 (nmemb * size % 2 ^ 64)
    return ptr : Mm Nat) h := by
  rw [Nat.mul_comm]
  rfl

theorem mmCalloc_null (hx : mmMalloc (nmemb * size % 2 ^ 64) h = some (0, h')) :
    mmCalloc nmemb size h = some (0, h') := by
  rw [mmCalloc_eq, bind_of_some hx]
  rfl

theorem mmCalloc_block {p : Nat} {h₁ : Heap}
    (hx : mmMalloc (nmemb * size % 2 ^ 64) h = some (p, h₁)) (hp : p ≠ 0) :
    mmCalloc nmemb size h = (memMemset p 0 (nmemb * size % 2 ^ 64) h₁).map
      (fun r => (p, r.2)) := by
  rw [mmCalloc_eq, bind_of_some hx, if_pos hp]
  cases hset : memMemset p 0 (nmemb * size % 2 ^ 64) h₁ with
  | none => rw [bind_of_none hset, Option.map_none]
  | some r =>
    rw [bind_of_some hset, Option.map_some]
    rfl

/-- A call that returns the null pointer is right. -/
theorem callocFits_null (hx : mmMalloc (nmemb * size % 2 ^ 64) s.heap = some (0, h')) :
    CallocFits s nmemb size := by
  have hnull : mmCalloc nmemb size s.heap = some (0, h') := mmCalloc_null hx
  refine ⟨by rw [hnull]; rfl, fun p h₁ hx₁ hp => ?_⟩
  rw [hnull] at hx₁
  cases hx₁
  exact absurd rfl hp

/-- Where the product and its rounding do not wrap, `calloc` is right. -/
theorem Holds.calloc_fits (hh : Holds s P) (hn : nmemb * size + 31 < 2 ^ 64) :
    CallocFits s nmemb size := by
  have hr := hh.represents
  have hv := hh.valid
  have hmod : nmemb * size % 2 ^ 64 = nmemb * size := Nat.mod_eq_of_lt (by omega)
  obtain ⟨p, h₁, hx, hp, hr₁, hk₁, _⟩ := mmMalloc_returns hr hv hn
  subst hp
  rcases Pool.malloc_spec hv hh.coalesced hn with hfail | ⟨a, ha, hA⟩
  · rw [hfail] at hx
    exact callocFits_null (by rw [hmod]; exact hx)
  rw [ha] at hx
  have haL := (hA.live a).mpr (Or.inl rfl)
  have habounds := hr₁.bounds hA.valid haL.1
  obtain ⟨_, _, hfit, _⟩ := Pool.blockSize_spec hn
  have hge := hA.size_ge
  have hsize₁ := hr₁.sizeAt_eq hA.valid haL.1
  obtain ⟨⟨⟩, h₂, hset, hc, hzero⟩ := memMemset_returns (h := h₁) a.bp (nmemb * size)
    (by omega) (by unfold Heap.Mapped; omega)
  obtain ⟨hr₂, hk₂⟩ := hr₁.payload hA.valid haL (hc.mono (Nat.le_refl _) (by omega))
  have hsize₂ := hr₂.sizeAt_eq hA.valid haL.1
  have hcall : mmCalloc nmemb size s.heap = some (a.bp, h₂) := by
    rw [mmCalloc_block (by rw [hmod]; exact hx) (by omega), hmod, hset]
    rfl
  refine ⟨by rw [hcall]; rfl, fun p h' hx' _ => ?_⟩
  rw [hcall] at hx'
  cases hx'
  refine { room := ?_, zero := hzero, inside := ⟨h₁, by rw [hmod]; exact hx, ?_, ?_⟩, others := ?_ }
  · omega
  · rw [hmod, hsize₂]
    refine isSome_of_returns (memMemset_returns a.bp (nmemb * size) ?_ ?_)
    · rw [Heap.within_memMaxAddr]
      omega
    · unfold Heap.Mapped
      rw [Heap.within_heap, Heap.within_memMaxAddr]
      omega
  · rw [hsize₂]
    exact fun x hx => hc.mem x (by omega)
  · intro bp bsize hlive
    obtain ⟨c, hc, rfl, rfl⟩ := hh.live_iff.mp hlive
    have hcL := (hA.live c).mpr (Or.inr hc)
    have hca : c ≠ a := fun he => hA.fresh c hc (he ▸ rfl)
    exact ⟨hr₂.hasBlock_live hA.valid hcL, (hk₁ c hc).trans (hk₂ c hcL hca)⟩

/-- A size that wraps is not right, unless nothing is asked for or found. -/
theorem Holds.calloc_wraps (hh : Holds s P) (hn : 2 ^ 64 ≤ nmemb * size + 31)
    (hpos : nmemb * size % 2 ^ 64 ≠ 0) (hroom : ¬ NoRoom s.heap (nmemb * size % 2 ^ 64)) :
    ¬ CallocFits s nmemb size := by
  have hr := hh.represents
  have hv := hh.valid
  have hlt : nmemb * size % 2 ^ 64 < 2 ^ 64 := Nat.mod_lt _ (by decide)
  have hlim := hv.limit_le
  rintro ⟨hdef, hgives⟩
  by_cases hask : nmemb * size % 2 ^ 64 + 31 < 2 ^ 64
  · -- the wrapped product is served, and the block is too small
    obtain ⟨p, h₁, hx, hp, _⟩ := mmMalloc_returns hr hv hask
    have hne : p ≠ 0 := by
      rintro rfl
      exact hroom ((hr.malloc_null hv (by omega)).2 ⟨h₁, hx⟩)
    rw [mmCalloc_block hx hne, Option.isSome_map] at hdef
    obtain ⟨⟨⟨⟩, h₂⟩, hset⟩ := Option.isSome_iff_exists.mp hdef
    have hcall := mmCalloc_block hx hne
    rw [hset] at hcall
    have hcap := (hgives p h₂ hcall hne).room
    have hword := h₂.word_lt (p - 8)
    have hle : sizeAt h₂ p ≤ h₂.word (p - 8) := Nat.and_le_left
    omega
  · rcases requestSize_wraps (by omega) hlt with ⟨hzero, _⟩ | ⟨hsixteen, _⟩
    · -- the block size is 0, which has no list
      have hnone : mmMalloc (nmemb * size % 2 ^ 64) s.heap = none := by
        rw [mmMalloc_eq (by omega), hzero]
        exact bind_of_none (findFit_zero _)
      rw [mmCalloc_eq, bind_of_none hnone] at hdef
      cases hdef
    · -- the block has 16 bytes, and the zeroing leaves the mapped area
      obtain ⟨p, h₁, hx, hne, _⟩ := hr.malloc_sixteen hv (by omega) hsixteen hroom
      have harea := (confined_mmMalloc _).area hx
      have hmap : h₁.memMaxAddr ≤ 2 ^ 63 := by
        rw [harea.2, ← hr.limit]
        exact hlim
      rw [mmCalloc_block hx hne, Option.isSome_map, memMemset_huge hmap (by omega)] at hdef
      cases hdef

/-- **Which products wrap.** `calloc` is right exactly where the product and its
rounding stay below 2 ^ 64, and where it returns the null pointer: the wrapped product
is zero, or there is no room for it. -/
theorem calloc_iff (hs : s.Reachable) (nmemb size : Nat) :
    CallocFits s nmemb size ↔ nmemb * size + 31 < 2 ^ 64 ∨ nmemb * size % 2 ^ 64 = 0 ∨
      NoRoom s.heap (nmemb * size % 2 ^ 64) := by
  obtain ⟨P, hh⟩ := hs.holds
  constructor
  · intro hfits
    by_contra hno
    obtain ⟨hn, hno⟩ := not_or.mp hno
    obtain ⟨hpos, hroom⟩ := not_or.mp hno
    exact hh.calloc_wraps (by omega) hpos hroom hfits
  · intro hor
    by_cases hzero : nmemb * size % 2 ^ 64 = 0
    · have hnull : mmMalloc (nmemb * size % 2 ^ 64) s.heap = some (0, s.heap) := by
        rw [hzero]
        rfl
      exact callocFits_null hnull
    · rcases hor with hn | hzero' | hroom
      · exact hh.calloc_fits hn
      · exact absurd hzero' hzero
      · exact callocFits_null ((hh.represents.malloc_null hh.valid (by omega)).1 hroom)

theorem calloc_iff_zeroSession :
    CallocFits zeroSession 3 8 ↔ 3 * 8 + 31 < 2 ^ 64 ∨ 3 * 8 % 2 ^ 64 = 0 ∨
      NoRoom zeroSession.heap (3 * 8 % 2 ^ 64) :=
  calloc_iff zeroSession_reachable 3 8

/-- Eight elements of 2 ^ 61 + 3 bytes are 24 bytes too many for 64 bits, and 24 bytes
are what `calloc` allocates. -/
theorem calloc_short : zeroSession.Reachable ∧ ∃ p h',
    mmCalloc 8 (2 ^ 61 + 3) zeroSession.heap = some (p, h') ∧ p ≠ 0 ∧
      ¬ 8 * (2 ^ 61 + 3) ≤ sizeAt h' p - 16 := by
  have hz := zeroSession_holds
  have hwrap : 8 * (2 ^ 61 + 3) % 2 ^ 64 = 24 := by decide
  have hsmall : 1 * 24 % 2 ^ 64 = 24 := by decide
  obtain ⟨h₁, hx, _⟩ := first_malloc hz
  have hdef := (hz.calloc_fits (by decide : 1 * 24 + 31 < 2 ^ 64)).defined
  rw [mmCalloc_block (by rw [hsmall]; exact hx) (by decide), Option.isSome_map,
    hsmall] at hdef
  obtain ⟨⟨⟨⟩, h₂⟩, hset⟩ := Option.isSome_iff_exists.mp hdef
  have hcall : mmCalloc 8 (2 ^ 61 + 3) zeroSession.heap = _ :=
    mmCalloc_block (by rw [hwrap]; exact hx) (by decide)
  rw [hwrap, hset, Option.map_some] at hcall
  have hword := h₂.word_lt (4128 - 8)
  have hle : sizeAt h₂ 4128 ≤ h₂.word (4128 - 8) := Nat.and_le_left
  exact ⟨zeroSession_reachable, 4128, h₂, hcall, by decide, by omega⟩

end Allocator
end Cmpsc473
