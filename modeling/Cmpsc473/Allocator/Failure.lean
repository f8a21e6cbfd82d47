import Cmpsc473.Allocator.Reallocate

/-!
# Off the main path

What the interface does where there is no room, and with the null pointer.
`realloc` does not look at what its inner `malloc` returned, and copies to the
null pointer; `free` reads the header of the null pointer; and `realloc` of the
null pointer allocates nothing.
-/

namespace Cmpsc473
namespace Allocator

open ByteMemory Total Tiling Transition

variable {h h' : Heap} {s : Session} {P : Pool} {b : Block}

/-- No free block will do for the request, and the heap cannot grow enough. -/
def NoRoom (h : Heap) (size : Nat) : Prop :=
  0 < requestSize size ∧ (¬ ∃ bp bsize, HasBlock h bp bsize 0 ∧ requestSize size ≤ bsize) ∧
    ¬ h.memBrk + max (requestSize size) chunkSize ≤ h.memMaxAddr

theorem requestSize_spec (size : Nat) :
    requestSize size % 16 = 0 ∧ requestSize size < 2 ^ 64 := by
  unfold requestSize align dsize alignment
  split <;> omega

/-- `align` can wrap to the size 0, which has no list. -/
theorem findFit_zero (h : Heap) : findFit 0 h = none := rfl

/-- What `malloc` does when it has computed the block size. -/
theorem mmMalloc_eq {size : Nat} (h1 : 1 ≤ size) (h : Heap) :
    mmMalloc size h = (do
      let bp ← findFit (requestSize size)
      if bp = 0 then
        let bp ← extendHeap (max64 (requestSize size) chunkSize / wsize)
        if bp = 0 then
          return 0
        else
          place bp (requestSize size)
          return bp
      else
        place bp (requestSize size)
        return bp : Mm Nat) h := by
  unfold mmMalloc
  rw [if_neg (by omega)]
  rfl

/-- A block pointer that is returned after `place` is not null. -/
theorem place_result {bp asize r : Nat} (hbp : bp ≠ 0)
    (hx : (do place bp asize; return bp : Mm Nat) h = some (r, h')) : r ≠ 0 := by
  obtain ⟨_, h₁, _, hret⟩ := bind_eq_some.mp hx
  cases hret
  exact hbp

/-- `malloc` returns the null pointer where there is no room, and only there.
Nothing has changed then. -/
theorem Represents.malloc_null (hr : Represents h P) (hv : P.Valid) {size : Nat} (h1 : 1 ≤ size) :
    (NoRoom h size → mmMalloc size h = some (0, h)) ∧
      ((∃ h', mmMalloc size h = some (0, h')) → NoRoom h size) := by
  obtain ⟨halign, hasize⟩ := requestSize_spec size
  have hfree := @Row.hasBlock_free _ _ hr.toRow hv
  rw [mmMalloc_eq h1]
  by_cases hpos : requestSize size = 0
  · -- the size has wrapped, and there is no list to begin with
    refine ⟨fun hno => absurd hno.1 (by omega), fun ⟨h', hx⟩ => ?_⟩
    rw [hpos, bind_of_none (findFit_zero h)] at hx
    cases hx
  have halign' : max (requestSize size) chunkSize % 16 = 0 := by
    unfold chunkSize
    omega
  have hlt' : max (requestSize size) chunkSize < 2 ^ 64 := by
    unfold chunkSize
    omega
  have hchunk : 32 ≤ max (requestSize size) chunkSize := by
    unfold chunkSize
    omega
  obtain ⟨r, h₁, hx, hh₁, hspec⟩ := hv.findFit_spec hr (Nat.pos_of_ne_zero hpos) hasize
  subst hh₁
  rw [bind_of_some hx]
  cases hfit : P.fit (requestSize size) with
  | some b =>
    rw [hfit] at hspec
    obtain ⟨rfl, hne, ⟨hb, hf⟩, hsize, _⟩ := hspec
    rw [if_neg hne]
    refine ⟨fun hno => absurd ⟨_, _, hfree.mpr ⟨b, hb, hf, rfl, rfl⟩, hsize⟩ hno.2.1, ?_⟩
    rintro ⟨h', hx'⟩
    exact absurd rfl (place_result hne hx')
  | none =>
    rw [hfit] at hspec
    obtain ⟨rfl, hnone⟩ := hspec
    have hnofit : ¬ ∃ bp bsize, HasBlock h₁ bp bsize 0 ∧ requestSize size ≤ bsize := by
      rintro ⟨bp, bsize, hblock, hle⟩
      obtain ⟨c, hc, hcf, _, rfl⟩ := hfree.mp hblock
      have := hnone c hc hcf
      omega
    obtain ⟨r, h₂, hx₂, hpost⟩ := extendHeap_returns hr hv _ hchunk halign' hlt'
    rw [if_pos rfl, max64_eq, bind_of_some hx₂]
    rw [hr.brk, hr.limit] at hpost
    by_cases hroom : h₁.memBrk + max (requestSize size) chunkSize ≤ h₁.memMaxAddr
    · rw [if_pos hroom] at hpost
      obtain ⟨rfl, hstage⟩ := hpost
      have hroom' : P.brk + max (requestSize size) chunkSize ≤ P.limit := by
        rw [hr.brk, hr.limit]
        exact hroom
      have hvg := Pool.valid_grow hv hchunk halign' hroom'
      have hlo := (hstage.row.bounds hvg (Pool.grow_fst hv hchunk halign' hroom').1).1
      have hne : (P.grow (max (requestSize size) chunkSize)).1.bp ≠ 0 := by omega
      rw [if_neg hne]
      refine ⟨fun hno => absurd hroom hno.2.2, ?_⟩
      rintro ⟨h', hx'⟩
      exact absurd rfl (place_result hne hx')
    · rw [if_neg hroom] at hpost
      obtain ⟨rfl, rfl⟩ := hpost
      rw [if_pos rfl]
      exact ⟨fun _ => rfl, fun _ => ⟨by omega, hnofit, hroom⟩⟩

/-- Nothing is mapped near the null pointer. -/
theorem Represents.null_unmapped (hr : Represents h P) (hv : P.Valid) {p : Nat}
    (hp : p < 8 ∨ 2 ^ 64 - 8 ≤ p) : ¬ h.Mapped p 8 := by
  have hbase := hr.base
  have halign := hv.base_aligned
  have hlim := hv.limit_le
  have hlimit := hr.limit
  have hpos := hr.heap_pos
  unfold Heap.Mapped
  omega

theorem get_eq_none {p : Nat} (hp : ¬ h.Mapped p 8) : Allocator.get p h = none := if_neg hp

theorem put_eq_none {p v : Nat} (hp : ¬ h.Mapped p 8) : put p v h = none := if_neg hp

theorem Represents.mmFree_null (hr : Represents h P) (hv : P.Valid) : mmFree 0 h = none := by
  have hget : getSize (hdrp 0) h = none :=
    bind_of_none (get_eq_none (hr.null_unmapped hv (Or.inr (by decide))))
  exact bind_of_none hget

/-- Copying a word to the null pointer is undefined. -/
theorem Represents.memMemcpy_null (hr : Represents h P) (hv : P.Valid) {src n : Nat} (hn : 8 ≤ n)
    (hm : h.Mapped src 8) : memMemcpy 0 src n h = none := by
  obtain ⟨words, hwords⟩ : ∃ words, n / 8 = words + 1 := ⟨n / 8 - 1, by omega⟩
  have hread : memRead src 8 h = some (h.word src, h) := bind_of_some (if_pos hm)
  have hwrite : memWrite 0 (h.word src) 8 h = none :=
    put_eq_none (hr.null_unmapped hv (Or.inl (by decide)))
  have hcopy : copyWords (n / 8) 0 src h = none := by
    rw [hwords, copyWords, bind_of_some hread]
    exact bind_of_none hwrite
  exact bind_of_none hcopy

theorem mmRealloc_null {size : Nat} (h1 : 1 ≤ size) (h : Heap) :
    mmRealloc 0 size h = some (0, h) := by
  unfold mmRealloc
  rw [if_neg (by omega), if_pos rfl]
  rfl

theorem Represents.mmRealloc_null_zero (hr : Represents h P) (hv : P.Valid) :
    mmRealloc 0 0 h = none :=
  bind_of_none (hr.mmFree_null hv)

/-- `realloc` cannot keep the block, and its inner `malloc` returns the null pointer. -/
def InnerNull (h : Heap) (oldptr size : Nat) : Prop :=
  ¬ keepAsk size ≤ (sizeAt h oldptr + (2 ^ 64 - alignment)) % 2 ^ 64 ∧
    ∃ h', mmMalloc size h = some (0, h')

/-- If its inner `malloc` fails, `realloc` returns the null pointer and changes nothing. -/
def FailsCleanly (h : Heap) (oldptr size : Nat) : Prop :=
  InnerNull h oldptr size → mmRealloc oldptr size h = some (0, h)

/-- Where its inner `malloc` fails, `realloc` copies to the null pointer. -/
theorem Represents.realloc_innerNull (hr : Represents h P) (hv : P.Valid) (hb : P.Live b)
    {size : Nat} (h1 : 1 ≤ size) (hno : NoRoom h size) (hkeep : ¬ keepAsk size ≤ b.size - 16) :
    InnerNull h b.bp size ∧ mmRealloc b.bp size h = none := by
  have hbounds := hr.bounds hv hb.1
  have hnull := (hr.malloc_null hv h1).1 hno
  constructor
  · refine ⟨?_, h, hnull⟩
    rwa [hr.sizeAt_eq hv hb.1, hr.oldsize hv hb]
  · have hm : h.Mapped b.bp 8 := by
      unfold Heap.Mapped
      omega
    rw [hr.mmRealloc_eq hv hb (by omega), if_neg hkeep, hr.copySize_eq hv hb hkeep, reallocMove,
      bind_of_some hnull, bind_of_none (hr.memMemcpy_null hv (by omega) hm)]

/-- **Off the main path.** `realloc` fails cleanly unless the block is too small
and there is no room: then it copies to the null pointer.  `realloc` of the null
pointer does what `malloc` does only where `malloc` fails.  `free` of the null
pointer, also through `realloc`, is never without effect. -/
theorem off_main_path (hs : s.Reachable) :
    (∀ oldptr bsize size, s.Live oldptr bsize → 1 ≤ size → size < 2 ^ 64 →
      (FailsCleanly s.heap oldptr size ↔
        ¬ (bsize - 16 < keepAsk size ∧ NoRoom s.heap size))) ∧
    (∀ size, 1 ≤ size → size < 2 ^ 64 →
      (mmRealloc 0 size s.heap = mmMalloc size s.heap ↔ NoRoom s.heap size)) ∧
    mmFree 0 s.heap ≠ some ((), s.heap) ∧
    ∀ r, mmRealloc 0 0 s.heap ≠ some (r, s.heap) := by
  obtain ⟨P, hh⟩ := hs.holds
  have hv := hh.valid
  have hr := hh.represents
  refine ⟨fun oldptr bsize size hlive h1 _ => ?_, fun size h1 _ => ?_, ?_, fun r => ?_⟩
  · obtain ⟨b, hb, rfl, rfl⟩ := hh.live_iff.mp hlive
    constructor
    · rintro hclean ⟨hsmall, hno⟩
      obtain ⟨hinner, hnone⟩ := hr.realloc_innerNull hv hb h1 hno (by omega)
      have hx := hclean hinner
      rw [hnone] at hx
      cases hx
    · rintro hok ⟨hkeep, hnull⟩
      rw [hr.sizeAt_eq hv hb.1, hr.oldsize hv hb] at hkeep
      exact absurd ⟨by omega, (hr.malloc_null hv h1).2 hnull⟩ hok
  · rw [mmRealloc_null h1]
    constructor
    · exact fun he => (hr.malloc_null hv h1).2 ⟨s.heap, he.symm⟩
    · exact fun hno => ((hr.malloc_null hv h1).1 hno).symm
  · rw [hr.mmFree_null hv]
    exact nofun
  · rw [hr.mmRealloc_null_zero hv]
    exact nofun

/-- A request beyond the mapped area finds no room. -/
theorem Represents.noRoom (hr : Represents h P) (hv : P.Valid) (size : Nat)
    (hsize : h.memMaxAddr < requestSize size) : NoRoom h size := by
  refine ⟨by omega, ?_, by omega⟩
  rintro ⟨bp, bsize, hblock, hle⟩
  obtain ⟨c, hc, _, rfl, rfl⟩ := (hr.hasBlock_free hv).mp hblock
  have := hr.bounds hv hc
  omega

/-- A request of 2 ^ 40 bytes, with a block in use in a mapped megabyte, and the
null pointer in a new session. -/
theorem off_main_path_fails :
    (∃ (s : Session) (bsize : Nat), s.Reachable ∧ s.Live 4128 bsize ∧
      ¬ FailsCleanly s.heap 4128 (2 ^ 40)) ∧
    zeroSession.Reachable ∧ mmRealloc 0 24 zeroSession.heap ≠ mmMalloc 24 zeroSession.heap ∧
    mmFree 0 zeroSession.heap ≠ some ((), zeroSession.heap) ∧
    ∀ r, mmRealloc 0 0 zeroSession.heap ≠ some (r, zeroSession.heap) := by
  have hz := zeroSession_holds
  refine ⟨?_, zeroSession_reachable, ?_, ?_, fun r => ?_⟩
  · obtain ⟨s, bsize, hs, hlive, _, hlimit⟩ := exists_oneBlock
    obtain ⟨P, hh⟩ := hs.holds
    obtain ⟨b, hb, hbp, rfl⟩ := hh.live_iff.mp hlive
    have hbounds := hh.represents.bounds hh.valid hb.1
    have hask : requestSize (2 ^ 40) = 2 ^ 40 + 16 := by decide
    have hkeep : keepAsk (2 ^ 40) = 2 ^ 40 := by decide
    have hno := hh.represents.noRoom hh.valid (2 ^ 40) (by omega)
    obtain ⟨hinner, hnone⟩ :=
      hh.represents.realloc_innerNull hh.valid hb (by decide) hno (by omega)
    rw [hbp] at hinner hnone
    refine ⟨s, b.size, hs, hlive, fun hclean => ?_⟩
    have hx := hclean hinner
    rw [hnone] at hx
    cases hx
  · obtain ⟨h', hx, _⟩ := first_malloc hz
    rw [mmRealloc_null (by decide), hx]
    exact fun he => absurd (congrArg Prod.fst (Option.some.inj he)) (show (0 : Nat) ≠ 4128 by decide)
  · rw [hz.represents.mmFree_null hz.valid]
    exact nofun
  · rw [hz.represents.mmRealloc_null_zero hz.valid]
    exact nofun

theorem off_main_path_pair : ∃ s : Session, s.Live 4128 48 ∧ s.Live 4176 48 ∧
    (FailsCleanly s.heap 4128 100 ↔ ¬ (48 - 16 < keepAsk 100 ∧ NoRoom s.heap 100)) ∧
    FailsCleanly s.heap 4128 8 ∧
    (mmRealloc 0 24 s.heap = mmMalloc 24 s.heap ↔ NoRoom s.heap 24) := by
  obtain ⟨s, hs, hh⟩ := exists_pairPool
  obtain ⟨hlive, hlive'⟩ := hh.pair_live
  obtain ⟨hclean, hnull, -⟩ := off_main_path hs
  have hkept := (hclean 4128 48 8 hlive (by decide) (by decide)).mpr (fun hsmall =>
    absurd hsmall.1 (by decide))
  exact ⟨s, hlive, hlive', hclean 4128 48 100 hlive (by decide) (by decide), hkept,
    hnull 24 (by decide) (by decide)⟩

end Allocator
end Cmpsc473
