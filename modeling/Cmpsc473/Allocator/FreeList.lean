import Cmpsc473.Allocator.Program
import Cmpsc473.Allocator.Pool
import Cmpsc473.Library.LinkedSegment
import Mathlib.Order.Interval.Finset.Nat

/-!
# Free lists in memory

`Listed h bins` says that memory and `seg_list` hold the lists `bins`: the words
at the payload pointers are the links, and the headers hold the sizes.  Under it
`node_add` and `node_remove` do to memory what `insertBin` and `eraseBin` do to
the lists, and write nowhere but in the first 16 bytes of listed blocks.
-/

namespace Cmpsc473
namespace Allocator

open ByteMemory Total LinkedSegment

/-- Payload pointers of the blocks of a list. -/
abbrev bps (l : List Block) : List Nat := l.map Block.bp

structure Listed (h : Heap) (bins : Nat → List Block) : Prop where
  heads : ∀ k < maxLen, h.segList k = (bps (bins k)).headD 0
  links : ∀ k < maxLen, Seg h.word (fun p => h.word (p + 8)) 0 (bps (bins k)) 0
  sizes : ∀ k, ∀ b ∈ bins k, h.word (b.bp - 8) &&& sizeMask = b.size

/-- A block that can be listed: aligned, inside the mapped area, of a size with a
class. -/
structure Fits (h : Heap) (b : Block) : Prop where
  aligned : b.bp % 16 = 0
  lo : h.heap + 8 ≤ b.bp
  hi : b.bp + 16 ≤ h.memMaxAddr
  size_pos : 0 < b.size
  size_lt : b.size < 2 ^ 64

/-- Blocks that start at one place or at least 32 bytes apart. -/
def Apart (b c : Block) : Prop := b = c ∨ b.bp + 32 ≤ c.bp ∨ c.bp + 32 ≤ b.bp

theorem Apart.symm {b c : Block} (h : Apart b c) : Apart c b := by
  rcases h with rfl | h | h
  · exact Or.inl rfl
  · exact Or.inr (Or.inr h)
  · exact Or.inr (Or.inl h)

structure BinsOk (h : Heap) (bins : Nat → List Block) : Prop where
  limit : h.memMaxAddr ≤ 2 ^ 63
  fits : ∀ k, ∀ b ∈ bins k, Fits h b
  cls : ∀ k, ∀ b ∈ bins k, sizeClass b.size = k
  nodup : ∀ k, (bins k).Nodup
  apart : ∀ j k, ∀ b ∈ bins j, ∀ c ∈ bins k, Apart b c

/-- `h'` differs from `h` in `seg_list` and in the link words of listed blocks. -/
structure LinkFrame (bins : Nat → List Block) (h h' : Heap) : Prop where
  heap : h'.heap = h.heap
  memBrk : h'.memBrk = h.memBrk
  memMaxAddr : h'.memMaxAddr = h.memMaxAddr
  heapListp : h'.heapListp = h.heapListp
  mem : ∀ x, (∀ k, ∀ b ∈ bins k, x < b.bp ∨ b.bp + 16 ≤ x) → h'.mem x = h.mem x

theorem hdrp_eq {p : Nat} (h : 8 ≤ p) (hp : p < 2 ^ 64) : hdrp p = p - 8 := ptrSub_eq h hp

theorem nextPtr_eq {p : Nat} (h : p + 8 < 2 ^ 64) : nextPtr p = p + 8 := ptrAdd_eq h

theorem returns_getSize {h : Heap} {p : Nat} {Q : Nat → Heap → Prop} :
    Returns (getSize p) h Q ↔ h.Mapped p 8 ∧ Q (h.word p &&& sizeMask) h := by
  unfold getSize
  rw [returns_bind, returns_get]
  simp only [returns_pure]

/-- Distinct addresses from an interval are no more than it is long. -/
theorem length_le_of_nodup {l : List Nat} (lo hi : Nat) (hnd : l.Nodup)
    (hl : ∀ x ∈ l, lo ≤ x ∧ x < hi) : l.length ≤ hi - lo := by
  have hsub : l.toFinset ⊆ Finset.Ico lo hi := by
    intro x hx
    exact Finset.mem_Ico.mpr (hl x (List.mem_toFinset.mp hx))
  calc l.length = l.toFinset.card := (List.toFinset_card_of_nodup hnd).symm
    _ ≤ (Finset.Ico lo hi).card := Finset.card_le_card hsub
    _ = hi - lo := Nat.card_Ico lo hi

section Bins

variable {h h' : Heap} {bins : Nat → List Block}

theorem BinsOk.inj (hok : BinsOk h bins) {j k : Nat} {b c : Block} (hb : b ∈ bins j)
    (hc : c ∈ bins k) (hbc : b.bp = c.bp) : b = c := by
  rcases hok.apart j k b hb c hc with he | he | he
  · exact he
  · omega
  · omega

theorem BinsOk.bp_ne_zero (hok : BinsOk h bins) {k : Nat} {b : Block} (hb : b ∈ bins k) :
    b.bp ≠ 0 := by
  have := (hok.fits k b hb).lo
  omega

/-- What can be listed depends on the area only. -/
theorem BinsOk.moved (hok : BinsOk h bins) (hheap : h'.heap = h.heap)
    (hmax : h'.memMaxAddr = h.memMaxAddr) : BinsOk h' bins where
  limit := hmax ▸ hok.limit
  fits := by
    intro k b hb
    obtain ⟨hal, hlo, hhi, hpos, hlt⟩ := hok.fits k b hb
    exact ⟨hal, hheap ▸ hlo, hmax ▸ hhi, hpos, hlt⟩
  cls := hok.cls
  nodup := hok.nodup
  apart := hok.apart

theorem BinsOk.nodup_bps (hok : BinsOk h bins) (k : Nat) : (bps (bins k)).Nodup :=
  List.Nodup.map_on (fun _ hb _ hc hbc => hok.inj hb hc hbc) (hok.nodup k)

/-- A walk has enough rounds for any list. -/
theorem BinsOk.length_lt (hok : BinsOk h bins) (k : Nat) :
    (bins k).length < h.memMaxAddr - h.heap + 1 := by
  have := length_le_of_nodup h.heap h.memMaxAddr (hok.nodup_bps k) (by
    intro x hx
    obtain ⟨b, hb, rfl⟩ := List.mem_map.mp hx
    have := (hok.fits k b hb).lo
    have := (hok.fits k b hb).hi
    omega)
  rw [List.length_map] at this
  omega

theorem Fits.mapped (hb : Fits h b) : h.Mapped (b.bp - 8) 8 ∧ h.Mapped b.bp 8 ∧
    h.Mapped (b.bp + 8) 8 := by
  have := hb.lo
  have := hb.hi
  unfold Heap.Mapped
  omega

/-- Words off the listed blocks survive changes to links. -/
theorem LinkFrame.word (hf : LinkFrame bins h h') {p : Nat}
    (hp : ∀ k, ∀ b ∈ bins k, p + 8 ≤ b.bp ∨ b.bp + 16 ≤ p) : h'.word p = h.word p :=
  Heap.word_congr (fun x hx hx' => hf.mem x (fun k b hb => by
    have := hp k b hb
    omega))

theorem LinkFrame.refl (bins : Nat → List Block) (h : Heap) : LinkFrame bins h h :=
  ⟨rfl, rfl, rfl, rfl, fun _ _ => rfl⟩

theorem LinkFrame.trans {h₁ h₂ h₃ : Heap} (h12 : LinkFrame bins h₁ h₂)
    (h23 : LinkFrame bins h₂ h₃) : LinkFrame bins h₁ h₃ where
  heap := h23.heap.trans h12.heap
  memBrk := h23.memBrk.trans h12.memBrk
  memMaxAddr := h23.memMaxAddr.trans h12.memMaxAddr
  heapListp := h23.heapListp.trans h12.heapListp
  mem := fun x hx => (h23.mem x hx).trans (h12.mem x hx)

theorem LinkFrame.mono {bins bins' : Nat → List Block} {h h' : Heap} (hf : LinkFrame bins h h')
    (hsub : ∀ k, ∀ b ∈ bins k, ∃ j, b ∈ bins' j) : LinkFrame bins' h h' where
  heap := hf.heap
  memBrk := hf.memBrk
  memMaxAddr := hf.memMaxAddr
  heapListp := hf.heapListp
  mem := fun x hx => hf.mem x (fun k b hb => by
    obtain ⟨j, hj⟩ := hsub k b hb
    exact hx j b hj)

/-- The loop stops at the first block that is not smaller than `size`, and
remembers the one before. -/
theorem nodeAddLoop_returns (size : Nat) (hlimit : h.memMaxAddr ≤ 2 ^ 63) {l : List Block}
    {p rounds : Nat} (ins : Nat) (hlen : l.length < rounds)
    (hfits : ∀ b ∈ l, Fits h b) (hsizes : ∀ b ∈ l, h.word (b.bp - 8) &&& sizeMask = b.size)
    (hseg : Seg h.word (fun p => h.word (p + 8)) p (bps l) 0) :
    Returns (nodeAddLoop size rounds ((bps l).headD 0) ins) h (fun r h' => h' = h ∧
      r = ((bps (l.dropWhile (fun c => ¬ size ≤ c.size))).headD 0,
        (bps (l.takeWhile (fun c => ¬ size ≤ c.size))).getLastD ins)) := by
  induction l generalizing p rounds ins with
  | nil =>
    obtain ⟨rounds, rfl⟩ := Nat.exists_eq_succ_of_ne_zero (Nat.ne_zero_of_lt hlen)
    simp [nodeAddLoop]
  | cons b l ih =>
    obtain ⟨rounds, rfl⟩ := Nat.exists_eq_succ_of_ne_zero (Nat.ne_zero_of_lt hlen)
    have hb := hfits b List.mem_cons_self
    have hlo := hb.lo
    have hhi := hb.hi
    obtain ⟨hm1, hm2, _⟩ := hb.mapped
    obtain ⟨_, hfwd, hrest⟩ := hseg
    have hne : b.bp ≠ 0 := by omega
    have hsize := hsizes b List.mem_cons_self
    rw [nodeAddLoop]
    simp only [List.map_cons, List.headD_cons, hne, ne_eq, not_false_eq_true, if_true,
      returns_bind, returns_getSize, hdrp_eq (p := b.bp) (by omega) (by omega), hsize, hm1,
      true_and, returns_ite]
    by_cases hlt : size > b.size
    · rw [if_pos hlt, prevBlk, returns_get]
      refine ⟨hm2, ?_⟩
      rw [hfwd]
      have hstep := ih (p := b.bp) b.bp (by simpa using hlen)
        (fun c hc => hfits c (List.mem_cons_of_mem b hc))
        (fun c hc => hsizes c (List.mem_cons_of_mem b hc)) hrest
      have hcond : ¬ size ≤ b.size := by omega
      simp only [List.dropWhile_cons, List.takeWhile_cons, hcond, not_false_eq_true, decide_true,
        if_true, List.map_cons, List.getLastD_cons]
      exact hstep
    · rw [if_neg hlt, returns_pure]
      have hcond : size ≤ b.size := by omega
      simp [hcond]

/-! ## Insertion -/

/-- `h'` is `h` with the node `a` linked in between `x` and `y`, either of which
may be null, as the first of list `k` when there is no `x`. -/
structure LinkedIn (h h' : Heap) (k x a y : Nat) : Prop where
  heap : h'.heap = h.heap
  memBrk : h'.memBrk = h.memBrk
  memMaxAddr : h'.memMaxAddr = h.memMaxAddr
  heapListp : h'.heapListp = h.heapListp
  segList : h'.segList = if x = 0 then Function.update h.segList k a else h.segList
  fwd : h'.word a = y
  bwd : h'.word (a + 8) = x
  fwd_x : x ≠ 0 → h'.word x = a
  bwd_y : y ≠ 0 → h'.word (y + 8) = a
  mem : ∀ z, (z < a ∨ a + 16 ≤ z) → (x ≠ 0 → z < x ∨ x + 8 ≤ z) →
    (y ≠ 0 → z < y + 8 ∨ y + 16 ≤ z) → h'.mem z = h.mem z

/-- What `node_add` does after its search. -/
theorem nodeAdd_links {size k x a y : Nat} (hsel : selectList size = (k : Int)) (hk : k < maxLen)
    (hloop : Returns (nodeAddLoop size (h.memMaxAddr - h.heap + 1) (h.segList k) 0) h
      (fun r h' => h' = h ∧ r = (y, x)))
    (ha : a % 16 = 0) (ham : h.heap ≤ a ∧ a + 16 ≤ h.memMaxAddr)
    (hx : x ≠ 0 → x % 16 = 0 ∧ x ≠ a ∧ h.heap ≤ x ∧ x + 16 ≤ h.memMaxAddr)
    (hy : y ≠ 0 → y % 16 = 0 ∧ y ≠ a ∧ h.heap ≤ y ∧ y + 16 ≤ h.memMaxAddr)
    (hxy : x ≠ 0 → x ≠ y) (hlimit : h.memMaxAddr ≤ 2 ^ 63) :
    Returns (nodeAdd a size) h (fun _ h' => LinkedIn h h' k x a y) := by
  unfold nodeAdd
  simp only [hsel, returns_bind, returns_walkRounds, returns_getSeg hk]
  refine hloop.mono ?_
  rintro r h' ⟨hh, hr⟩
  rw [hh, hr]
  by_cases hy0 : y = 0
  · by_cases hx0 : x = 0
    · simp only [hy0, hx0, ne_eq, not_true_eq_false, if_false, returns_bind, setPtr, returns_put,
        prevPtr, nextPtr_eq (p := a) (by omega), Heap.Mapped, Heap.store_heap,
        Heap.store_memMaxAddr, returns_setSeg hk]
      refine ⟨by omega, by omega, ?_⟩
      refine { heap := rfl, memBrk := rfl, memMaxAddr := rfl, heapListp := rfl, segList := rfl
               fwd := ?_, bwd := ?_, fwd_x := fun hx => absurd rfl hx
               bwd_y := fun hy => absurd rfl hy, mem := ?_ }
      · simp (disch := omega)
      · simp (disch := omega)
      · intro z hza _ _
        rw [Heap.setHead_mem, Heap.mem_store_of_outside _ (by omega),
          Heap.mem_store_of_outside _ (by omega)]
    · obtain ⟨hx16, hxa, hxlo, hxhi⟩ := hx hx0
      simp only [hy0, hx0, ne_eq, not_true_eq_false, not_false_eq_true, if_true, if_false,
        returns_bind, setPtr, returns_put, prevPtr, nextPtr_eq (p := a) (by omega), Heap.Mapped,
        Heap.store_heap, Heap.store_memMaxAddr]
      refine ⟨by omega, by omega, by omega, ?_⟩
      refine { heap := rfl, memBrk := rfl, memMaxAddr := rfl, heapListp := rfl
               segList := by rw [if_neg hx0]; rfl, fwd := ?_, bwd := ?_, fwd_x := fun _ => ?_
               bwd_y := fun hy => absurd rfl hy, mem := ?_ }
      · simp (disch := omega)
      · simp (disch := omega)
      · simp (disch := omega)
      · intro z hza hzx _
        have hzx := hzx hx0
        rw [Heap.mem_store_of_outside _ (by omega), Heap.mem_store_of_outside _ (by omega),
          Heap.mem_store_of_outside _ (by omega)]
  · obtain ⟨hy16, hya, hylo, hyhi⟩ := hy hy0
    by_cases hx0 : x = 0
    · simp only [hy0, hx0, ne_eq, not_true_eq_false, not_false_eq_true, if_true, if_false,
        returns_bind, setPtr, returns_put, prevPtr, nextPtr_eq (p := a) (by omega),
        nextPtr_eq (p := y) (by omega), Heap.Mapped, Heap.store_heap, Heap.store_memMaxAddr,
        returns_setSeg hk]
      refine ⟨by omega, by omega, by omega, ?_⟩
      refine { heap := rfl, memBrk := rfl, memMaxAddr := rfl, heapListp := rfl, segList := rfl
               fwd := ?_, bwd := ?_, fwd_x := fun hx => absurd rfl hx, bwd_y := fun _ => ?_
               mem := ?_ }
      · simp (disch := omega)
      · simp (disch := omega)
      · simp (disch := omega)
      · intro z hza _ hzy
        have hzy := hzy hy0
        rw [Heap.setHead_mem, Heap.mem_store_of_outside _ (by omega),
          Heap.mem_store_of_outside _ (by omega), Heap.mem_store_of_outside _ (by omega)]
    · obtain ⟨hx16, hxa, hxlo, hxhi⟩ := hx hx0
      have hxy := hxy hx0
      simp only [hy0, hx0, ne_eq, not_false_eq_true, if_true, returns_bind, setPtr, returns_put,
        prevPtr, nextPtr_eq (p := a) (by omega), nextPtr_eq (p := y) (by omega), Heap.Mapped,
        Heap.store_heap, Heap.store_memMaxAddr]
      refine ⟨by omega, by omega, by omega, by omega, ?_⟩
      refine { heap := rfl, memBrk := rfl, memMaxAddr := rfl, heapListp := rfl
               segList := by rw [if_neg hx0]; rfl, fwd := ?_, bwd := ?_, fwd_x := fun _ => ?_
               bwd_y := fun _ => ?_, mem := ?_ }
      · simp (disch := omega)
      · simp (disch := omega)
      · simp (disch := omega)
      · simp (disch := omega)
      · intro z hza hzx hzy
        have hzx := hzx hx0
        have hzy := hzy hy0
        rw [Heap.mem_store_of_outside _ (by omega), Heap.mem_store_of_outside _ (by omega),
          Heap.mem_store_of_outside _ (by omega), Heap.mem_store_of_outside _ (by omega)]

/-- A block that is apart from all listed ones. -/
structure Unlisted (bins : Nat → List Block) (b : Block) : Prop where
  notMem : ∀ k, b ∉ bins k
  apart : ∀ k, ∀ c ∈ bins k, Apart b c

theorem Unlisted.far (hu : Unlisted bins b) {k : Nat} {c : Block} (hc : c ∈ bins k) :
    b.bp + 32 ≤ c.bp ∨ c.bp + 32 ≤ b.bp := by
  rcases hu.apart k c hc with rfl | h
  · exact absurd hc (hu.notMem k)
  · exact h

theorem BinsOk.insert (hok : BinsOk h bins) {b : Block} (hb : Fits h b) (hu : Unlisted bins b) :
    BinsOk h (insertBin bins b) := by
  refine {
    limit := hok.limit
    fits := ?_
    cls := ?_
    nodup := nodup_insertBin hok.nodup (hu.notMem _)
    apart := ?_ }
  · intro k c hc
    rcases mem_insertBin.mp hc with ⟨rfl, _⟩ | hc
    · exact hb
    · exact hok.fits k c hc
  · intro k c hc
    rcases mem_insertBin.mp hc with ⟨rfl, rfl⟩ | hc
    · rfl
    · exact hok.cls k c hc
  · intro j k c hc d hd
    rcases mem_insertBin.mp hc with ⟨rfl, _⟩ | hc'
    · rcases mem_insertBin.mp hd with ⟨rfl, _⟩ | hd'
      · exact Or.inl rfl
      · exact hu.apart k d hd'
    · rcases mem_insertBin.mp hd with ⟨rfl, _⟩ | hd'
      · exact (hu.apart j c hc').symm
      · exact hok.apart j k c hc' d hd'

theorem getLastD_bps {l : List Block} (hx : (bps l).getLastD 0 ≠ 0) :
    ∃ c ∈ l, c.bp = (bps l).getLastD 0 := by
  rcases List.eq_nil_or_concat l with rfl | ⟨init, c, rfl⟩
  · exact absurd rfl hx
  · exact ⟨c, by simp, by simp⟩

theorem headD_bps {l : List Block} (hy : (bps l).headD 0 ≠ 0) :
    ∃ c ∈ l, c.bp = (bps l).headD 0 := by
  cases l with
  | nil => exact absurd rfl hy
  | cons c l => exact ⟨c, by simp, by simp⟩

theorem getLastD_bps_ne {l : List Block} (hpos : ∀ c ∈ l, c.bp ≠ 0) (hl : l ≠ []) :
    (bps l).getLastD 0 ≠ 0 := by
  rcases List.eq_nil_or_concat l with rfl | ⟨init, c, rfl⟩
  · exact absurd rfl hl
  · simpa using hpos c (by simp)

/-- A block listed elsewhere is none of the blocks of this list. -/
theorem BinsOk.ne_of_class (hok : BinsOk h bins) {j k : Nat} (hjk : j ≠ k) {b c : Block}
    (hb : b ∈ bins j) (hc : c ∈ bins k) : b.bp ≠ c.bp := by
  intro hbc
  have he := hok.inj hb hc hbc
  rw [he] at hb
  exact hjk ((hok.cls j c hb).symm.trans (hok.cls k c hc))

theorem LinkedIn.word {k x a y q : Nat} (hl : LinkedIn h h' k x a y)
    (ha : q + 8 ≤ a ∨ a + 16 ≤ q) (hx : x ≠ 0 → q + 8 ≤ x ∨ x + 8 ≤ q)
    (hy : y ≠ 0 → q ≤ y ∨ y + 16 ≤ q) : h'.word q = h.word q :=
  Heap.word_congr (fun z hz hz' => hl.mem z (by omega)
    (fun hx0 => by have := hx hx0; omega) (fun hy0 => by have := hy hy0; omega))

/-- The links of the listed blocks are kept, but for the one from `x` to the next block
and the one from `y` to the one before. -/
structure KeepsLinks (h h' : Heap) (bins : Nat → List Block) (x y : Nat) : Prop where
  fwd : ∀ k, ∀ c ∈ bins k, c.bp ≠ x → h'.word c.bp = h.word c.bp
  bwd : ∀ k, ∀ c ∈ bins k, c.bp ≠ y → h'.word (c.bp + 8) = h.word (c.bp + 8)

/-- What is written at the last block of `l` and at the first of `r` hits no other link. -/
theorem BinsOk.keepsLinks (hok : BinsOk h bins) {j : Nat} {l r : List Block}
    (hlm : ∀ c ∈ l, c ∈ bins j) (hrm : ∀ c ∈ r, c ∈ bins j)
    (hword : ∀ k, ∀ c ∈ bins k, ∀ q, q = c.bp ∨ q = c.bp + 8 →
      ((bps l).getLastD 0 ≠ 0 → q + 8 ≤ (bps l).getLastD 0 ∨ (bps l).getLastD 0 + 8 ≤ q) →
      ((bps r).headD 0 ≠ 0 → q ≤ (bps r).headD 0 ∨ (bps r).headD 0 + 16 ≤ q) →
      h'.word q = h.word q) :
    KeepsLinks h h' bins ((bps l).getLastD 0) ((bps r).headD 0) := by
  have hx : (bps l).getLastD 0 ≠ 0 → (bps l).getLastD 0 % 16 = 0 := by
    intro hx0
    obtain ⟨d, hd, hdx⟩ := getLastD_bps hx0
    exact hdx ▸ (hok.fits _ d (hlm d hd)).aligned
  have hy : (bps r).headD 0 ≠ 0 → (bps r).headD 0 % 16 = 0 := by
    intro hy0
    obtain ⟨d, hd, hdy⟩ := headD_bps hy0
    exact hdy ▸ (hok.fits _ d (hrm d hd)).aligned
  constructor
  · intro k c hc hne
    have hca := (hok.fits k c hc).aligned
    refine hword k c hc _ (Or.inl rfl) (fun hx0 => ?_) (fun hy0 => ?_)
    · have := hx hx0
      omega
    · have := hy hy0
      omega
  · intro k c hc hne
    have hca := (hok.fits k c hc).aligned
    refine hword k c hc _ (Or.inr rfl) (fun hx0 => ?_) (fun hy0 => ?_)
    · have := hx hx0
      omega
    · have := hy hy0
      omega

/-- The lists of other classes stay linked. -/
theorem KeepsLinks.other {j k : Nat} {l r : List Block} (hok : BinsOk h bins)
    (hkeep : KeepsLinks h h' bins ((bps l).getLastD 0) ((bps r).headD 0))
    (hlm : ∀ c ∈ l, c ∈ bins j) (hrm : ∀ c ∈ r, c ∈ bins j) (hkj : k ≠ j)
    (hseg : Seg h.word (fun p => h.word (p + 8)) 0 (bps (bins k)) 0) :
    Seg h'.word (fun p => h'.word (p + 8)) 0 (bps (bins k)) 0 := by
  refine hseg.congr ?_ ?_
  · intro x hx
    obtain ⟨c, hc, rfl⟩ := List.mem_map.mp hx
    refine hkeep.fwd k c hc (fun he => ?_)
    obtain ⟨d, hd, hdx⟩ := getLastD_bps (l := l) (he ▸ hok.bp_ne_zero hc)
    exact hok.ne_of_class hkj hc (hlm d hd) (he.trans hdx.symm)
  · intro x hx
    obtain ⟨c, hc, rfl⟩ := List.mem_map.mp hx
    refine hkeep.bwd k c hc (fun he => ?_)
    obtain ⟨d, hd, hdy⟩ := headD_bps (l := r) (he ▸ hok.bp_ne_zero hc)
    exact hok.ne_of_class hkj hc (hrm d hd) (he.trans hdy.symm)

/-- The links of list `j` itself: the two that are set, and all the others. -/
theorem KeepsLinks.ends {j v w : Nat} {l r : List Block} (hok : BinsOk h bins)
    (hkeep : KeepsLinks h h' bins ((bps l).getLastD 0) ((bps r).headD 0))
    (hlm : ∀ c ∈ l, c ∈ bins j) (hrm : ∀ c ∈ r, c ∈ bins j)
    (hfwd : (bps l).getLastD 0 ≠ 0 → h'.word ((bps l).getLastD 0) = v)
    (hbwd : (bps r).headD 0 ≠ 0 → h'.word ((bps r).headD 0 + 8) = w) :
    (∀ x ∈ (bps l).getLast?, h'.word x = v) ∧ (∀ y ∈ (bps r).head?, h'.word (y + 8) = w) ∧
      (∀ x ∈ bps l ++ bps r, x ∉ (bps l).getLast? → h'.word x = h.word x) ∧
      ∀ x ∈ bps l ++ bps r, x ∉ (bps r).head? → h'.word (x + 8) = h.word (x + 8) := by
  have hmem : ∀ x ∈ bps l ++ bps r, ∃ c ∈ bins j, c.bp = x := by
    intro x hx
    rcases List.mem_append.mp hx with hx | hx
    · obtain ⟨c, hc, rfl⟩ := List.mem_map.mp hx
      exact ⟨c, hlm c hc, rfl⟩
    · obtain ⟨c, hc, rfl⟩ := List.mem_map.mp hx
      exact ⟨c, hrm c hc, rfl⟩
  refine ⟨?_, ?_, ?_, ?_⟩
  · intro x hx
    obtain ⟨c, hc, rfl⟩ := List.mem_map.mp (List.mem_of_mem_getLast? hx)
    have hcx := eq_getLastD 0 hx
    rw [hcx]
    exact hfwd (hcx ▸ hok.bp_ne_zero (hlm c hc))
  · intro y hy
    obtain ⟨c, hc, rfl⟩ := List.mem_map.mp (List.mem_of_mem_head? hy)
    have hcy := eq_headD 0 hy
    rw [hcy]
    exact hbwd (hcy ▸ hok.bp_ne_zero (hrm c hc))
  · intro x hx hnot
    obtain ⟨c, hc, rfl⟩ := hmem x hx
    exact hkeep.fwd j c hc (fun he => hnot (getLast?_of_eq (hok.bp_ne_zero hc) he))
  · intro x hx hnot
    obtain ⟨c, hc, rfl⟩ := hmem x hx
    exact hkeep.bwd j c hc (fun he => hnot (head?_of_eq (hok.bp_ne_zero hc) he))

/-- The heads, when list `j` changes behind `l`. -/
theorem Listed.heads_update (hl : Listed h bins) {bins' : Nat → List Block} {j : Nat}
    {l r r' : List Block} (hpos : ∀ c ∈ l, c.bp ≠ 0) (hbin : bins j = l ++ r)
    (hbin' : bins' j = l ++ r') (hother : ∀ k, k ≠ j → bins' k = bins k)
    (hseg : h'.segList = if (bps l).getLastD 0 = 0 then
      Function.update h.segList j ((bps r').headD 0) else h.segList) :
    ∀ k < maxLen, h'.segList k = (bps (bins' k)).headD 0 := by
  intro k hk
  rw [hseg]
  by_cases hkj : k = j
  · subst hkj
    rw [hbin']
    cases l with
    | nil => simp
    | cons c l =>
      have hx0 := getLastD_bps_ne hpos (List.cons_ne_nil c l)
      rw [if_neg hx0, hl.heads _ hk, hbin]
      rfl
  · rw [hother k hkj, ← hl.heads k hk]
    split
    · exact Function.update_of_ne hkj _ _
    · rfl

/-- Linking a block in where the order puts it lists it. -/
theorem Listed.insert (hl : Listed h bins) (hok : BinsOk h bins) {b : Block} {l r : List Block}
    (hb : Fits h b) (hu : Unlisted bins b) (hsize : h.word (b.bp - 8) &&& sizeMask = b.size)
    (hbin : bins (sizeClass b.size) = l ++ r)
    (hins : insertBin bins b (sizeClass b.size) = l ++ b :: r)
    (hlink : LinkedIn h h' (sizeClass b.size) ((bps l).getLastD 0) b.bp ((bps r).headD 0)) :
    Listed h' (insertBin bins b) := by
  have hlm : ∀ c ∈ l, c ∈ bins (sizeClass b.size) := fun c hc => by simp [hbin, hc]
  have hrm : ∀ c ∈ r, c ∈ bins (sizeClass b.size) := fun c hc => by simp [hbin, hc]
  have hother : ∀ k, k ≠ sizeClass b.size → insertBin bins b k = bins k :=
    fun k hk => Function.update_of_ne hk _ _
  have hnd := hok.nodup_bps (sizeClass b.size)
  rw [hbin, bps, List.map_append] at hnd
  have hkeep := hok.keepsLinks hlm hrm (fun k c hc q hq hx hy => hlink.word (by
    rcases hu.far hc with h | h <;> omega) hx hy)
  refine { heads := hl.heads_update (fun c hc => hok.bp_ne_zero (hlm c hc)) hbin hins hother hlink.segList
           links := ?_, sizes := ?_ }
  · intro k hk
    by_cases hkb : k = sizeClass b.size
    · subst hkb
      have hseg := hl.links _ hk
      rw [hbin, bps, List.map_append] at hseg
      rw [hins, bps, List.map_append, List.map_cons]
      obtain ⟨hlast, hfirst, hfwd, hbwd⟩ := hkeep.ends hok hlm hrm hlink.fwd_x hlink.bwd_y
      exact hseg.insert hnd hlink.fwd hlink.bwd hlast hfirst hfwd hbwd
    · rw [hother k hkb]
      exact hkeep.other hok hlm hrm hkb (hl.links k hk)
  · have hhead : ∀ c : Block, Fits h c → Apart b c → (∀ k, ∀ d ∈ bins k, Apart c d) →
        h'.word (c.bp - 8) = h.word (c.bp - 8) := by
      intro c hc hbc hcd
      have := hc.lo
      refine hlink.word ?_ ?_ ?_
      · rcases hbc with rfl | h | h <;> omega
      · intro hx0
        obtain ⟨d, hd, hdx⟩ := getLastD_bps hx0
        rcases hcd _ d (hlm d hd) with rfl | h | h <;> omega
      · intro hy0
        obtain ⟨d, hd, hdy⟩ := headD_bps hy0
        rcases hcd _ d (hrm d hd) with rfl | h | h <;> omega
    intro k c hc
    rcases mem_insertBin.mp hc with ⟨rfl, _⟩ | hc
    · rw [hhead c hb (Or.inl rfl) hu.apart, hsize]
    · rw [hhead c (hok.fits k c hc) (hu.apart k c hc) (fun j d hd => hok.apart k j c hc d hd),
        hl.sizes k c hc]

/-- `node_add` lists a block whose header holds its size. -/
theorem nodeAdd_returns (hl : Listed h bins) (hok : BinsOk h bins) {b : Block} (hb : Fits h b)
    (hu : Unlisted bins b) (hsize : h.word (b.bp - 8) &&& sizeMask = b.size) :
    Returns (nodeAdd b.bp b.size) h (fun _ h' =>
      Listed h' (insertBin bins b) ∧ LinkFrame (insertBin bins b) h h') := by
  have hk := sizeClass_lt b.size
  generalize hlr : (bins (sizeClass b.size)).takeWhile (fun c => ¬ b.size ≤ c.size) = l
  generalize hrr : (bins (sizeClass b.size)).dropWhile (fun c => ¬ b.size ≤ c.size) = r
  have hbin : bins (sizeClass b.size) = l ++ r := by
    rw [← hlr, ← hrr, List.takeWhile_append_dropWhile]
  have hins : insertBin bins b (sizeClass b.size) = l ++ b :: r := by
    rw [insertBin, Function.update_self, List.orderedInsert_eq_take_drop, ← hlr, ← hrr]
  have hlm : ∀ c ∈ l, c ∈ bins (sizeClass b.size) := fun c hc => by simp [hbin, hc]
  have hrm : ∀ c ∈ r, c ∈ bins (sizeClass b.size) := fun c hc => by simp [hbin, hc]
  have hloop : Returns (nodeAddLoop b.size (h.memMaxAddr - h.heap + 1)
      (h.segList (sizeClass b.size)) 0) h (fun p h' => h' = h ∧
        p = ((bps r).headD 0, (bps l).getLastD 0)) := by
    rw [hl.heads _ hk, ← hlr, ← hrr]
    exact nodeAddLoop_returns b.size hok.limit 0 (hok.length_lt _) (hok.fits _) (hl.sizes _)
      (hl.links _ hk)
  have hnear : ∀ c ∈ bins (sizeClass b.size), c.bp % 16 = 0 ∧ c.bp ≠ b.bp ∧ h.heap ≤ c.bp ∧
      c.bp + 16 ≤ h.memMaxAddr := by
    intro c hc
    obtain ⟨ha, hlo, hhi, _, _⟩ := hok.fits _ c hc
    have := hu.far hc
    omega
  have hblo := hb.lo
  have hlinked := nodeAdd_links (selectList_eq hb.size_pos hb.size_lt) hk hloop hb.aligned
    ⟨by omega, hb.hi⟩
    (fun hx0 => by
      obtain ⟨c, hc, hcx⟩ := getLastD_bps hx0
      exact hcx ▸ hnear c (hlm c hc))
    (fun hy0 => by
      obtain ⟨c, hc, hcy⟩ := headD_bps hy0
      exact hcy ▸ hnear c (hrm c hc))
    (fun hx0 hxy => by
      obtain ⟨c, hc, hcx⟩ := getLastD_bps hx0
      obtain ⟨d, hd, hdy⟩ := headD_bps (hxy ▸ hx0)
      have hcd := hok.inj (hlm c hc) (hrm d hd) (by rw [hcx, hdy, hxy])
      have hnd := hok.nodup (sizeClass b.size)
      rw [hbin] at hnd
      exact (List.nodup_append.mp hnd).2.2 c hc d hd hcd)
    hok.limit
  refine hlinked.mono (fun _ h' hlink => ⟨hl.insert hok hb hu hsize hbin hins hlink, ?_⟩)
  refine ⟨hlink.heap, hlink.memBrk, hlink.memMaxAddr, hlink.heapListp, fun z hz => ?_⟩
  refine hlink.mem z (hz _ b (mem_insertBin.mpr (Or.inl ⟨rfl, rfl⟩))) ?_ ?_
  · intro hx0
    obtain ⟨c, hc, hcx⟩ := getLastD_bps hx0
    have := hz _ c (mem_insertBin.mpr (Or.inr (hlm c hc)))
    omega
  · intro hy0
    obtain ⟨c, hc, hcy⟩ := headD_bps hy0
    have := hz _ c (mem_insertBin.mpr (Or.inr (hrm c hc)))
    omega

end Bins

end Allocator
end Cmpsc473
