import Cmpsc473.Driver.RangeSet
import Cmpsc473.Library.ListMap

/-!
# The calls on a range set

`add_range` refuses a payload only for a reason, and `remove_range` takes out the payload
that starts at an address.
-/

namespace Cmpsc473
namespace Driver

open Total ParentTree Transition ListMap

variable {m m' : Memory RangeHeap} {R A B : List Live} {r x : Live} {p : Ptr} {f : Int → Option Ptr}
  {lo lo' size : UInt64}

theorem tkey_eq (h : lo.toNat < 2 ^ 63) : tkey lo = lo.toNat := by
  rw [tkey, BitVec.toInt_eq_toNat_of_lt]
  · rfl
  · show 2 * lo.toNat < 2 ^ 64
    omega

theorem tkey_inj (h : tkey lo = tkey lo') : lo = lo' :=
  UInt64.toBitVec_inj.mp (BitVec.toInt_inj.mp h)

theorem tkey_le (h : lo.toNat < 2 ^ 63) (h' : lo'.toNat < 2 ^ 63) :
    tkey lo ≤ tkey lo' ↔ lo ≤ lo' := by
  rw [tkey_eq h, tkey_eq h', UInt64.le_iff_toNat_le]
  omega

/-- The map of the tree has the range of each payload, under its low address. -/
def Indexed (f : Int → Option Ptr) (R : List Live) : Prop :=
  Represents (fun r => tkey r.lo) Live.addr f R

/-- The live payloads in the order of their addresses, each with its range. -/
structure IsRangeSet (m : Memory RangeHeap) (R : List Live) : Prop where
  records : Records m.rest R
  tree : ∃ t, IsTree m t ∧ Indexed (mapOf t) R
  sorted : R.Pairwise fun r s => r.lo < s.lo
  bounds : ∀ r ∈ R, r.lo ≤ r.hi ∧ r.hi.toNat < 2 ^ 63

theorem IsRangeSet.ne (h : IsRangeSet m (A ++ x :: B)) : ∀ r ∈ A ++ B, r.lo ≠ x.lo := by
  obtain ⟨-, hxB, hcross⟩ := List.pairwise_append.mp h.sorted
  intro r hr heq
  rcases List.mem_append.mp hr with hr | hr
  · exact UInt64.ne_of_lt (hcross r hr x List.mem_cons_self) heq
  · exact UInt64.ne_of_lt ((List.pairwise_cons.mp hxB).1 r hr) heq.symm

theorem IsRangeSet.lo_lt (h : IsRangeSet m R) (hr : r ∈ R) : r.lo.toNat < 2 ^ 63 := by
  have hb := h.bounds r hr
  have hle := UInt64.le_iff_toNat_le.mp hb.1
  omega

/-- The payload below an address that is nearest to it. -/
theorem IsRangeSet.nearest (h : IsRangeSet m R) (hf : Indexed f R) (hlo : lo.toNat < 2 ^ 63)
    (hn : Nearest f (tkey lo) p) :
    (p = 0 ∧ ∀ r ∈ R, lo < r.lo) ∨
      ∃ A x B, R = A ++ x :: B ∧ p = x.addr ∧ x.lo ≤ lo ∧ ∀ y ∈ B, lo < y.lo := by
  rcases hn with ⟨k, hk, hp, hmax⟩ | ⟨rfl, hnone⟩
  · obtain ⟨x, hx, rfl, rfl⟩ := (hf k p).mp hp
    obtain ⟨A, B, rfl⟩ := List.append_of_mem hx
    refine Or.inr ⟨A, x, B, rfl, rfl, (tkey_le (h.lo_lt hx) hlo).mp hk, fun y hy => ?_⟩
    have hymem : y ∈ A ++ x :: B := by simp [hy]
    by_contra hle
    have hyle : tkey y.lo ≤ tkey lo := (tkey_le (h.lo_lt hymem) hlo).mpr (UInt64.not_lt.mp hle)
    have hyx := hmax (tkey y.lo) hyle (by
      rw [(hf _ y.addr).mpr ⟨y, hymem, rfl, rfl⟩]
      nofun)
    have hxy : x.lo < y.lo :=
      (List.pairwise_cons.mp (List.pairwise_append.mp h.sorted).2.1).1 y hy
    exact UInt64.not_lt.mpr ((tkey_le (h.lo_lt hymem) (h.lo_lt hx)).mp hyx) hxy
  · refine Or.inl ⟨rfl, fun r hr => ?_⟩
    by_contra hle
    have hrle : tkey r.lo ≤ tkey lo := (tkey_le (h.lo_lt hr) hlo).mpr (UInt64.not_lt.mp hle)
    exact (Represents.eq_none hf).mp (hnone _ hrle) r hr rfl

theorem IsTree.congr {t : TreeT} (h : IsTree m t) (hnode : m'.node = m.node)
    (htree : m'.tree = m.tree) : IsTree m' t :=
  ⟨h.place.congr (fun v _ => congrFun hnode v.1) (congrArg TreeObject.root htree), h.sorted,
    (congrArg TreeObject.nodeCount htree).trans h.count,
    fun a ha => (congrFun hnode a).trans (h.all a ha)⟩

/-- Memory from `malloc` is not in use. -/
def Fresh (rm : Malloc RangeT) (nm : Malloc NodeT) (m : Memory RangeHeap) : Prop :=
  (rm.addr ≠ 0 ∧ m.rest.range rm.addr = none) ∧ nm.addr ≠ 0 ∧ m.node nm.addr = none

/-- The part of `add_range` behind the checks. -/
def keepRange (rm : Malloc RangeT) (nm : Malloc NodeT) (prev next : Ptr) (lo hi : UInt64)
    (index : Int) : Rm Bool := do
  let p ← mallocRange rm
  if p = 0 then fun _ => none
  else
    linkRange p prev next lo hi index
    let _ ← treeInsert nm (tkey lo) p
    return true

theorem mallocRange_eq {rm : Malloc RangeT} (h0 : rm.addr ≠ 0)
    (hfresh : m.rest.range rm.addr = none) :
    mallocRange rm m = some (rm.addr, { m with
      rest := { m.rest with range := Function.update m.rest.range rm.addr (some rm.contents) } }) := by
  rw [mallocRange, onRest, if_neg h0, if_pos hfresh]
  rfl

section Keep

variable {rm : Malloc RangeT} {nm : Malloc NodeT} {prev next : Ptr} {hi : UInt64} {index : Int}

theorem keepRange_returns {Q : RangeHeap → Prop} (h : IsRangeSet m (A ++ B))
    (hfresh : Fresh rm nm m)
    (hprev : prev ≠ 0 → HasRange m prev) (hnext : next ≠ 0 → HasRange m next)
    (hlink : ∀ m₁ m₂ : Memory RangeHeap,
      (∀ a, a ≠ rm.addr → m₁.rest.range a = m.rest.range a) → m₁.rest.list = m.rest.list →
      Linked m₁ m₂ rm.addr prev next ⟨lo, hi, index, next, prev⟩ →
        Records m₂.rest (A ++ ⟨rm.addr, lo, hi, index⟩ :: B) ∧ Q m₂.rest)
    (hA : ∀ r ∈ A, r.lo < lo) (hB : ∀ r ∈ B, lo < r.lo) (hle : lo ≤ hi) (hhi : hi.toNat < 2 ^ 63) :
    Returns (keepRange rm nm prev next lo hi index) m fun b m' =>
      b = true ∧ IsRangeSet m' (A ++ ⟨rm.addr, lo, hi, index⟩ :: B) ∧ Q m'.rest := by
  obtain ⟨⟨hr0, hrfresh⟩, hn0, hnfresh⟩ := hfresh
  obtain ⟨t, htree, hf⟩ := h.tree
  rw [keepRange, returns_bind, returns_of_eq (mallocRange_eq hr0 hrfresh), if_neg hr0, returns_bind]
  generalize hm₁ : ({ m with
    rest := { m.rest with
      range := Function.update m.rest.range rm.addr (some rm.contents) } } : Memory RangeHeap) = m₁
  have hself : m₁.rest.range rm.addr = some rm.contents := by
    rw [← hm₁]
    exact Function.update_self ..
  have hsame : ∀ a, a ≠ rm.addr → m₁.rest.range a = m.rest.range a := by
    intro a ha
    rw [← hm₁]
    exact Function.update_of_ne ha _ _
  have hne : ∀ a, HasRange m a → rm.addr ≠ a := fun a ha heq => ha.2 (heq ▸ hrfresh)
  have hkept : ∀ a, HasRange m a → HasRange m₁ a := fun a ha =>
    ⟨ha.1, by rw [hsame a (hne a ha).symm]; exact ha.2⟩
  have hapart : ∀ a, (a ≠ 0 → HasRange m a) → rm.addr ≠ a := by
    intro a ha heq
    by_cases ha0 : a = 0
    · exact hr0 (heq.trans ha0)
    · exact hne a (ha ha0) heq
  refine (linkRange_returns ⟨hr0, by rw [hself]; nofun⟩ (fun h0 => hkept _ (hprev h0))
    (fun h0 => hkept _ (hnext h0)) (hapart prev hprev) (hapart next hnext)).mono ?_
  rintro _ m₂ hlinked
  obtain ⟨hrecords, hQ⟩ := hlink m₁ m₂ hsame (by rw [← hm₁]) hlinked
  have hnode : m₂.node = m.node := hlinked.node.trans (by rw [← hm₁])
  have htree₂ : IsTree m₂ t := htree.congr hnode (hlinked.tree.trans (by rw [← hm₁]))
  have hnone : mapOf t (tkey lo) = none := by
    refine (Represents.eq_none hf).mpr fun r hr hk => ?_
    have hrlo := tkey_inj hk
    rcases List.mem_append.mp hr with hr | hr
    · exact UInt64.lt_irrefl lo (hrlo ▸ hA r hr)
    · exact UInt64.lt_irrefl lo (hrlo ▸ hB r hr)
  rw [returns_bind]
  refine (treeInsert_maps htree₂ (tkey lo) rm.addr hn0 (by rw [hnode]; exact hnfresh)).mono ?_
  rintro _ m' ⟨hrest, t', htree', -, hmap⟩
  rw [hnone, if_pos rfl] at hmap
  have hindexed := Represents.insert (x := ⟨rm.addr, lo, hi, index⟩) hf hnone List.perm_middle
  refine returns_pure.mpr ⟨rfl, ⟨hrest ▸ hrecords, ⟨t', htree', hmap ▸ hindexed⟩, ?_, fun r hr => ?_⟩,
    hrest ▸ hQ⟩
  · obtain ⟨hsA, hsB, hcross⟩ := List.pairwise_append.mp h.sorted
    refine List.pairwise_append.mpr ⟨hsA, List.pairwise_cons.mpr ⟨hB, hsB⟩, fun r hr s hs => ?_⟩
    rcases List.mem_cons.mp hs with rfl | hs
    · exact hA r hr
    · exact hcross r hr s hs
  · rcases List.mem_cons.mp (List.perm_middle.mem_iff.mp hr) with rfl | hr
    · exact ⟨hle, hhi⟩
    · exact h.bounds r hr

/-- What `add_range` requires of a payload: it lies in the heap. -/
def Inside (e : Env) (lo hi : UInt64) : Prop :=
  e.heapLo ≤ lo ∧ lo ≤ e.heapHi ∧ e.heapLo ≤ hi ∧ hi ≤ e.heapHi

theorem not_inside {e : Env} :
    (lo < e.heapLo ∨ lo > e.heapHi ∨ hi < e.heapLo ∨ hi > e.heapHi) ↔ ¬Inside e lo hi := by
  simp only [Inside, not_and_or, UInt64.not_le, gt_iff_lt]

/-- A payload in the address space. -/
structure Fits (lo size : UInt64) : Prop where
  pos : size ≠ 0
  le : lo.toNat + size.toNat ≤ 2 ^ 64

theorem Fits.toNat_hi (h : Fits lo size) : (lo + size - 1).toNat = lo.toNat + size.toNat - 1 := by
  have hpos : size.toNat ≠ 0 := fun h0 => h.pos (UInt64.toNat_inj.mp h0)
  have hle := h.le
  rw [UInt64.toNat_sub, UInt64.toNat_add]
  have hone : (1 : UInt64).toNat = 1 := rfl
  omega

theorem Fits.lo_le (h : Fits lo size) : lo ≤ lo + size - 1 := by
  have hpos : size.toNat ≠ 0 := fun h0 => h.pos (UInt64.toNat_inj.mp h0)
  rw [UInt64.le_iff_toNat_le, h.toNat_hi]
  omega

/-- A payload overlaps a live one, and one is looked at: there is one below. -/
def Overlaps (R : List Live) (lo hi : UInt64) : Prop :=
  (∃ r ∈ R, r.lo ≤ hi ∧ lo ≤ r.hi) ∧ ∃ r ∈ R, r.lo ≤ lo

/-- A reason to refuse a payload. -/
def Faulty (e : Env) (R : List Live) (lo hi : UInt64) : Prop :=
  lo % 16 ≠ 0 ∨ ¬Inside e lo hi ∨ Overlaps R lo hi

/-- The place of a new payload between the others. -/
structure Placed (A B : List Live) (lo : UInt64) : Prop where
  before : ∀ r ∈ A, r.lo < lo
  after : ∀ r ∈ B, lo < r.lo
  clear : ∀ r ∈ A.getLast?, r.hi < lo

theorem IsTree.node_eq_none {t : TreeT} (h : IsTree m t) {a : Ptr} :
    m.node a = none ↔ ∀ v ∈ inorder t, v.1 ≠ a := by
  refine ⟨fun hnone v hv heq => ?_, h.all a⟩
  obtain ⟨n, hn, -⟩ := h.place.holds.data hv
  rw [heq, hnone] at hn
  cases hn

theorem Fresh.congr {t : TreeT} (h : Fresh rm nm m) (ht : IsTree m t) (ht' : IsTree m' t)
    (hrest : m'.rest = m.rest) : Fresh rm nm m' :=
  ⟨hrest ▸ h.1, h.2.1, ht'.node_eq_none.mpr (ht.node_eq_none.mp h.2.2)⟩

theorem IsRangeSet.congr (h : IsRangeSet m R) (hrest : m'.rest = m.rest)
    (ht : ∃ t, IsTree m' t ∧ Indexed (mapOf t) R) : IsRangeSet m' R :=
  ⟨hrest ▸ h.records, ht, h.sorted, h.bounds⟩

/-- The part of `add_range` behind `debug_mode`. -/
def placeRange (rm : Malloc RangeT) (nm : Malloc NodeT) (lo hi : UInt64) (index : Int) :
    Rm Bool := do
  let prev ← treeFindNearest (tkey lo)
  let next ← nextOf prev
  if ← overlapsPrev prev lo then return false
  else if ← overlapsNext next hi then return false
  else keepRange rm nm prev next lo hi index

theorem overlapsNext_returns (h : Records m.rest (A ++ x :: B)) :
    Returns (overlapsNext (fwd m.rest x.addr) hi) m fun b m' => m' = m ∧
      ((b = true ∧ ∃ y ∈ B, y.lo ≤ hi) ∨
        b = false ∧ ∀ y ∈ B.head?, fwd m.rest x.addr = y.addr → hi < y.lo) := by
  rw [overlapsNext]
  by_cases hnext : fwd m.rest x.addr = 0
  · rw [if_neg (not_not.mpr hnext), returns_pure]
    refine ⟨rfl, Or.inr ⟨rfl, fun y hy heq => ?_⟩⟩
    exact absurd (heq.symm.trans hnext) (h.ne_zero y (by simp [List.mem_of_mem_head? hy]))
  · obtain ⟨y, hy, hyx⟩ := h.fwd_head hnext
    obtain ⟨n, hn, hnlo, -⟩ := h.extent y (by simp [List.mem_of_mem_head? hy])
    rw [if_pos hnext, ← hyx, returns_bind, returns_of_eq (getRange_eq (hyx ▸ hnext) hn),
      returns_pure, hnlo]
    refine ⟨rfl, ?_⟩
    by_cases hover : y.lo ≤ hi
    · exact Or.inl ⟨decide_eq_true hover, y, List.mem_of_mem_head? hy, hover⟩
    · refine Or.inr ⟨decide_eq_false hover, fun z hz _ => ?_⟩
      rw [Option.mem_unique hz hy]
      exact UInt64.not_le.mp hover

/-- What `add_range` does with a payload that it checks. -/
structure Kept (m m' : Memory RangeHeap) (A B : List Live) (new : Live) : Prop where
  placed : Placed A B new.lo
  set : IsRangeSet m' (A ++ new :: B)
  whole : Whole m.rest (A ++ B) → (B = [] ∨ A ≠ []) →
    Whole m'.rest (A ++ new :: B) ∧ ∀ r ∈ B.head?, new.hi < r.lo

theorem Kept.congr {m₁ : Memory RangeHeap} {new : Live} (h : Kept m₁ m' A B new)
    (hrest : m₁.rest = m.rest) : Kept m m' A B new :=
  ⟨h.placed, h.set, hrest ▸ h.whole⟩

/-- With nothing below it the new range is linked to no other. -/
theorem keepFirst_returns (h : IsRangeSet m R) (hfresh : Fresh rm nm m) (hall : ∀ r ∈ R, lo < r.lo)
    (hle : lo ≤ hi) (hhi : hi.toNat < 2 ^ 63) :
    Returns (keepRange rm nm 0 0 lo hi index) m fun b m' =>
      b = true ∧ Kept m m' [] R ⟨rm.addr, lo, hi, index⟩ := by
  have hkeep : Returns (keepRange rm nm 0 0 lo hi index) m fun b m' => b = true ∧
      IsRangeSet m' ([] ++ ⟨rm.addr, lo, hi, index⟩ :: R) ∧
      (R = [] → Whole m'.rest [⟨rm.addr, lo, hi, index⟩]) := by
    refine keepRange_returns (A := []) (B := R)
      (Q := fun s => R = [] → Whole s [⟨rm.addr, lo, hi, index⟩]) h hfresh (fun hne => absurd rfl hne)
      (fun hne => absurd rfl hne) (fun m₁ m₂ hsame _ hlinked => ⟨?_, ?_⟩) nofun hall hle hhi
    · exact h.records.cons hfresh.1.1 hfresh.1.2 hsame hlinked
    · exact fun _ => List.isChain_singleton _
  refine hkeep.mono ?_
  rintro _ m' ⟨rfl, hset, hwhole⟩
  refine ⟨rfl, ⟨nofun, hall, nofun⟩, hset, fun _ hR => ?_⟩
  obtain rfl := hR.resolve_right (fun hne => hne rfl)
  exact ⟨hwhole rfl, nofun⟩

/-- With `x` below it, it comes between `x` and the range that `x` is linked to. -/
theorem keepBehind_returns (h : IsRangeSet m (A ++ x :: B)) (hfresh : Fresh rm nm m)
    (hx : x.hi < lo) (hall : ∀ r ∈ B, lo < r.lo)
    (hclear : ∀ r ∈ B.head?, fwd m.rest x.addr = r.addr → hi < r.lo)
    (hle : lo ≤ hi) (hhi : hi.toNat < 2 ^ 63) :
    Returns (keepRange rm nm x.addr (fwd m.rest x.addr) lo hi index) m fun b m' =>
      b = true ∧ Kept m m' (A ++ [x]) B ⟨rm.addr, lo, hi, index⟩ := by
  have hxmem : x ∈ A ++ x :: B := by simp
  have hsplit : ∀ l : List Live, A ++ x :: l = (A ++ [x]) ++ l := List.append_cons A x
  have hbelow : ∀ r ∈ A ++ [x], r.lo < lo := by
    intro r hr
    have hxlo : x.lo < lo := UInt64.lt_of_le_of_lt (h.bounds x hxmem).1 hx
    rcases List.mem_append.mp hr with hr | hr
    · exact UInt64.lt_trans ((List.pairwise_append.mp h.sorted).2.2 r hr x
        List.mem_cons_self) hxlo
    · rw [List.mem_singleton.mp hr]
      exact hxlo
  have hkeep : Returns (keepRange rm nm x.addr (fwd m.rest x.addr) lo hi index) m
      fun b m' => b = true ∧ IsRangeSet m' ((A ++ [x]) ++ ⟨rm.addr, lo, hi, index⟩ :: B) ∧
        (Whole m.rest (A ++ x :: B) →
          Whole m'.rest (A ++ x :: ⟨rm.addr, lo, hi, index⟩ :: B)) := by
    refine keepRange_returns (A := A ++ [x]) (B := B) (Q := fun s => Whole m.rest (A ++ x :: B) →
        Whole s (A ++ x :: ⟨rm.addr, lo, hi, index⟩ :: B)) (hsplit B ▸ h) hfresh
      (fun _ => h.records.hasRange hxmem) (fun hne => ?_)
      (fun m₁ m₂ hsame hlist hlinked => ⟨?_, fun hw => ?_⟩) hbelow hall hle hhi
    · obtain ⟨y, hy, heq⟩ := h.records.fwd_hasRange hne
      rw [← heq]
      exact h.records.hasRange (by simp [hy])
    · rw [← hsplit]
      exact h.records.insert hfresh.1.1 hfresh.1.2 hsame hlist hlinked
    · exact hw.insert h.records hfresh.1.2 hsame hlinked
  refine hkeep.mono ?_
  rintro _ m' ⟨rfl, hset, hwhole⟩
  refine ⟨rfl, ⟨hbelow, hall, fun r hr => ?_⟩, hset, fun hw _ => ?_⟩
  · have hrx : r = x := by simpa [eq_comm] using hr
    rw [hrx]
    exact hx
  · rw [← hsplit] at hw
    refine ⟨?_, fun r hr => hclear r hr ?_⟩
    · rw [← hsplit]
      exact hwhole hw
    · cases B with
      | nil => cases hr
      | cons y B =>
        obtain rfl : y = r := Option.some.inj hr
        exact hw.fwd_eq

theorem placeRange_returns (h : IsRangeSet m R) (hfresh : Fresh rm nm m) (hle : lo ≤ hi)
    (hhi : hi.toNat < 2 ^ 63) :
    Returns (placeRange rm nm lo hi index) m fun b m' =>
      (b = false ∧ m'.rest = m.rest ∧ IsRangeSet m' R ∧ Overlaps R lo hi) ∨
        b = true ∧ ∃ A B, R = A ++ B ∧ Kept m m' A B ⟨rm.addr, lo, hi, index⟩ := by
  obtain ⟨t, htree, hf⟩ := h.tree
  have hlo : lo.toNat < 2 ^ 63 := by
    have hle := UInt64.le_iff_toNat_le.mp hle
    omega
  rw [placeRange, returns_bind]
  refine (treeFindNearest_returns htree (tkey lo)).mono ?_
  rintro p m₁ ⟨hrest, htree₁, hnear⟩
  have h₁ : IsRangeSet m₁ R := h.congr hrest ⟨t, htree₁, hf⟩
  have hfresh₁ := hfresh.congr htree htree₁ hrest
  rcases h₁.nearest hf hlo hnear with ⟨rfl, hall⟩ | ⟨A, x, B, rfl, rfl, hx, hall⟩
  · -- There is nothing below, and the links of the others are not looked at.
    refine (keepFirst_returns h₁ hfresh₁ hall hle hhi).mono ?_
    rintro _ m' ⟨rfl, hkept⟩
    exact Or.inr ⟨rfl, [], R, rfl, hkept.congr hrest⟩
  · have hxmem : x ∈ A ++ x :: B := by simp
    have hx0 := h₁.records.ne_zero x hxmem
    obtain ⟨n, hn, hnlo, hnhi, -⟩ := h₁.records.extent x hxmem
    have hnext : n.next = fwd m₁.rest x.addr := (fwd_eq hn).symm
    rw [nextOf, if_pos hx0, returns_bind, returns_bind, returns_of_eq (getRange_eq hx0 hn),
      returns_pure, overlapsPrev, if_pos hx0, returns_bind, returns_bind,
      returns_of_eq (getRange_eq hx0 hn), returns_pure, hnhi, hnext]
    by_cases hprev : lo ≤ x.hi
    · rw [if_pos (decide_eq_true hprev), returns_pure]
      have hxhi : x.lo ≤ hi := UInt64.le_trans hx hle
      exact Or.inl ⟨rfl, hrest, h₁, ⟨x, hxmem, hxhi, hprev⟩, x, hxmem, hx⟩
    · rw [if_neg (by simpa using hprev), returns_bind]
      refine (overlapsNext_returns h₁.records).mono ?_
      rintro _ m₂ ⟨hm₂, ⟨rfl, y, hy, hyhi⟩ | ⟨rfl, hclear⟩⟩ <;> obtain rfl := hm₂.symm
      · rw [if_pos rfl, returns_pure]
        have hymem : y ∈ A ++ x :: B := by simp [hy]
        have hlohi : lo ≤ y.hi :=
          UInt64.le_trans (UInt64.le_of_lt (hall y hy)) (h.bounds y hymem).1
        exact Or.inl ⟨rfl, hrest, h₁, ⟨y, hymem, hyhi, hlohi⟩, x, hxmem, hx⟩
      · rw [if_neg (by simp)]
        have hxlo : x.hi < lo := UInt64.not_le.mp hprev
        refine (keepBehind_returns h₁ hfresh₁ hxlo hall hclear hle hhi).mono ?_
        rintro _ m' ⟨rfl, hkept⟩
        exact Or.inr ⟨rfl, A ++ [x], B, List.append_cons A x B, hkept.congr hrest⟩

/-- **Adding** a payload: it is refused for a reason, or it is kept. -/
theorem addRange_returns {e : Env} (h : IsRangeSet m R) (hfresh : Fresh rm nm m)
    (he : e.heapHi.toNat < 2 ^ 63) (hfits : Fits lo size) (hmode : e.debugMode ≠ .none) :
    Returns (addRange e rm nm lo size index) m fun b m' =>
      (b = false ∧ m'.rest = m.rest ∧ IsRangeSet m' R ∧ Faulty e R lo (lo + size - 1)) ∨
        b = true ∧ lo % 16 = 0 ∧ Inside e lo (lo + size - 1) ∧
          ∃ A B, R = A ++ B ∧ Kept m m' A B ⟨rm.addr, lo, lo + size - 1, index⟩ := by
  rw [addRange]
  show Returns (if size = 0 then fun _ => none
    else if lo % 16 ≠ 0 then pure false
    else if lo < e.heapLo ∨ lo > e.heapHi ∨ lo + size - 1 < e.heapLo ∨ lo + size - 1 > e.heapHi then
      pure false
    else if e.debugMode = .none then pure true
    else placeRange rm nm lo (lo + size - 1) index : Rm Bool) m _
  rw [if_neg hfits.pos]
  by_cases halign : lo % 16 ≠ 0
  · rw [if_pos halign, returns_pure]
    exact Or.inl ⟨rfl, rfl, h, Or.inl halign⟩
  · rw [if_neg halign]
    by_cases hin : Inside e lo (lo + size - 1)
    · rw [if_neg fun hout => not_inside.mp hout hin, if_neg hmode]
      have hhi : (lo + size - 1).toNat < 2 ^ 63 := by
        have hle := UInt64.le_iff_toNat_le.mp hin.2.2.2
        omega
      refine (placeRange_returns h hfresh hfits.lo_le hhi).mono ?_
      rintro b m' (⟨rfl, hrest, hset, hover⟩ | ⟨rfl, hkept⟩)
      · exact Or.inl ⟨rfl, hrest, hset, Or.inr (Or.inr hover)⟩
      · exact Or.inr ⟨rfl, not_not.mp halign, hin, hkept⟩
    · rw [if_pos (not_inside.mpr hin), returns_pure]
      exact Or.inl ⟨rfl, rfl, h, Or.inr (Or.inl hin)⟩

end Keep

/-- **Removing** takes out the payload that starts at the address, if there is one. -/
theorem removeRange_returns (h : IsRangeSet m R) (lo : UInt64) :
    Returns (removeRange lo) m fun _ m' =>
      (m'.rest = m.rest ∧ IsRangeSet m' R ∧ ∀ r ∈ R, r.lo ≠ lo) ∨
        ∃ A x B, R = A ++ x :: B ∧ x.lo = lo ∧ IsRangeSet m' (A ++ B) ∧
          (Whole m.rest R → Whole m'.rest (A ++ B)) := by
  obtain ⟨t, htree, hf⟩ := h.tree
  rw [removeRange, returns_bind]
  refine (treeRemove_maps htree (tkey lo)).mono ?_
  rintro _ m₁ ⟨hrest, t₁, htree₁, rfl, hmap⟩
  cases hp : mapOf t (tkey lo) with
  | none =>
    rw [Option.getD_none, if_pos rfl, returns_pure]
    rw [← hp, Function.update_eq_self] at hmap
    exact Or.inl ⟨hrest, h.congr hrest ⟨t₁, htree₁, hmap ▸ hf⟩,
      fun r hr heq => (Represents.eq_none hf).mp hp r hr (by rw [heq])⟩
  | some p =>
    obtain ⟨x, hx, hk, rfl⟩ := (hf _ p).mp hp
    obtain rfl := tkey_inj hk
    obtain ⟨A, B, rfl⟩ := List.append_of_mem hx
    have hx0 := h.records.ne_zero x hx
    have hrecords : Records m₁.rest (A ++ x :: B) := hrest ▸ h.records
    obtain ⟨n, hn, -⟩ := hrecords.extent x hx
    have hprev : n.prev = bwd m₁.rest x.addr := (bwd_eq hn).symm
    have hnext : n.next = fwd m₁.rest x.addr := (fwd_eq hn).symm
    rw [Option.getD_some, if_neg hx0]
    refine (unlinkRange_returns hx0 hn (fun hne => ?_) fun hne => ?_).mono ?_
    · rw [hprev] at hne ⊢
      obtain ⟨y, hy, heq⟩ := hrecords.bwd_hasRange hne
      rw [← heq]
      exact hrecords.hasRange (by simp [hy])
    · rw [hnext] at hne ⊢
      obtain ⟨y, hy, heq⟩ := hrecords.fwd_hasRange hne
      rw [← heq]
      exact hrecords.hasRange (by simp [hy])
    · rintro _ m' hu
      rw [hprev, hnext] at hu
      have hsorted : (A ++ B).Pairwise fun r s => r.lo < s.lo :=
        h.sorted.sublist ((List.sublist_cons_self x B).append_left A)
      have ht : IsTree m' t₁ := htree₁.congr hu.node hu.tree
      have hindexed := Represents.remove hf fun r hr hk => h.ne r hr (tkey_inj hk)
      refine Or.inr ⟨A, x, B, rfl, rfl, ⟨hrecords.remove hu, ⟨t₁, ht, hmap ▸ hindexed⟩, hsorted,
        fun r hr => h.bounds r (mem_middle r hr)⟩, fun hw => ?_⟩
      rw [← hrest] at hw
      exact hw.remove hrecords hu

end Driver
end Cmpsc473
