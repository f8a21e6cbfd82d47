import Cmpsc473.Driver.Ranges
import Cmpsc473.Driver.FiniteMap
import Cmpsc473.Library.GappedList

/-!
# The range set keeps the live payloads

The ranges are exactly the live payloads, in the tree and in memory.  Their links follow
the order of the addresses, with gaps where a payload was added below all the others.
-/

namespace Cmpsc473
namespace Driver

open Total ParentTree Transition GappedList

/-- A live payload, with the address of its range. -/
structure Live where
  addr : Ptr
  lo : UInt64
  hi : UInt64
  index : Int
deriving DecidableEq, Repr

variable {m m' : Memory RangeHeap} {s s' : RangeHeap} {R A B : List Live} {r x : Live} {p : Ptr}
  {n : RangeT}

def fwd (s : RangeHeap) (a : Ptr) : Ptr := ((s.range a).map RangeT.next).getD 0

def bwd (s : RangeHeap) (a : Ptr) : Ptr := ((s.range a).map RangeT.prev).getD 0

theorem fwd_eq (h : s.range p = some n) : fwd s p = n.next := by rw [fwd, h]; rfl

theorem bwd_eq (h : s.range p = some n) : bwd s p = n.prev := by rw [bwd, h]; rfl

/-- The ranges in memory are those of the payloads. -/
structure Records (s : RangeHeap) (R : List Live) : Prop where
  extent : ∀ r ∈ R, ∃ n, s.range r.addr = some n ∧ n.lo = r.lo ∧ n.hi = r.hi ∧ n.index = r.index
  links : Gapped 0 (fwd s) (bwd s) 0 (R.map Live.addr) 0
  nodup : (R.map Live.addr).Nodup
  ne_zero : ∀ r ∈ R, r.addr ≠ 0
  only : ∀ a, a ≠ 0 → (∀ r ∈ R, r.addr ≠ a) → s.range a = none
  list : s.list = 0 ∨ ∃ r ∈ R, r.addr = s.list ∧ bwd s r.addr = 0

/-- Memory after an assignment to a field of a range. -/
def modified (m : Memory RangeHeap) (p : Ptr) (f : RangeT → RangeT) : Memory RangeHeap :=
  { m with rest := { m.rest with range := Function.update m.rest.range p ((m.rest.range p).map f) } }

/-- There is a range at an address. -/
def HasRange (m : Memory RangeHeap) (p : Ptr) : Prop := p ≠ 0 ∧ m.rest.range p ≠ none

theorem getRange_eq (hp : p ≠ 0) (h : m.rest.range p = some n) : getRange p m = some (n, m) := by
  rw [getRange, onRest, if_neg hp, h]
  rfl

theorem modifyRange_eq (h : HasRange m p) (f : RangeT → RangeT) :
    modifyRange p f m = some ((), modified m p f) := by
  obtain ⟨n, hn⟩ := Option.ne_none_iff_exists'.mp h.2
  rw [modifyRange, onRest, if_neg h.1, modified, hn]
  rfl

theorem modified_self (m : Memory RangeHeap) (p : Ptr) (f : RangeT → RangeT) :
    (modified m p f).rest.range p = (m.rest.range p).map f := Function.update_self ..

theorem modified_of_ne {a : Ptr} {f : RangeT → RangeT} (h : a ≠ p) :
    (modified m p f).rest.range a = m.rest.range a := Function.update_of_ne h _ _

theorem hasRange_modified {a : Ptr} {f : RangeT → RangeT} :
    HasRange (modified m p f) a ↔ HasRange m a := by
  refine and_congr_right fun _ => not_congr ?_
  by_cases ha : a = p
  · rw [ha, modified_self, Option.map_eq_none_iff]
  · rw [modified_of_ne ha]

/-- The link from the range before, or from the range set. -/
def setNext (prev p : Ptr) : Rm Unit :=
  if prev ≠ 0 then modifyRange prev fun n => { n with next := p } else setList p

/-- The link from the range behind. -/
def setPrev (next p : Ptr) : Rm Unit :=
  if next ≠ 0 then modifyRange next fun n => { n with prev := p } else pure ()

/-- Two states whose ranges differ in their links at most. -/
structure Relinked (m m' : Memory RangeHeap) (next : Ptr → Ptr → Ptr) (prev : Ptr → Ptr → Ptr) :
    Prop where
  node : m'.node = m.node
  tree : m'.tree = m.tree
  range : ∀ a, a ≠ 0 → m'.rest.range a =
    (m.rest.range a).map fun n => { n with next := next a n.next, prev := prev a n.prev }

theorem setNext_returns {prev : Ptr} (h : prev ≠ 0 → HasRange m prev) (p : Ptr) :
    Returns (setNext prev p) m fun _ m' =>
      Relinked m m' (fun a q => if a = prev then p else q) (fun _ q => q) ∧
        m'.rest.list = if prev = 0 then p else m.rest.list := by
  rw [setNext]
  by_cases hprev : prev ≠ 0
  · rw [if_pos hprev, returns_of_eq (modifyRange_eq (h hprev) _)]
    refine ⟨⟨rfl, rfl, fun a _ => ?_⟩, (if_neg hprev).symm⟩
    by_cases ha : a = prev
    · rw [ha, modified_self]
      simp
    · rw [modified_of_ne ha]
      simp [ha]
  · rw [if_neg hprev]
    obtain rfl := not_not.mp hprev
    refine ⟨(), _, rfl, ⟨rfl, rfl, fun a ha => ?_⟩, (if_pos rfl).symm⟩
    simp [ha]

theorem setPrev_returns {next : Ptr} (h : next ≠ 0 → HasRange m next) (p : Ptr) :
    Returns (setPrev next p) m fun _ m' =>
      Relinked m m' (fun _ q => q) (fun a q => if a = next then p else q) ∧
        m'.rest.list = m.rest.list := by
  rw [setPrev]
  by_cases hnext : next ≠ 0
  · rw [if_pos hnext, returns_of_eq (modifyRange_eq (h hnext) _)]
    refine ⟨⟨rfl, rfl, fun a _ => ?_⟩, rfl⟩
    by_cases ha : a = next
    · rw [ha, modified_self]
      simp
    · rw [modified_of_ne ha]
      simp [ha]
  · rw [if_neg hnext, returns_pure]
    obtain rfl := not_not.mp hnext
    refine ⟨⟨rfl, rfl, fun a ha => ?_⟩, rfl⟩
    simp [ha]

theorem Relinked.hasRange {next prev : Ptr → Ptr → Ptr} (h : Relinked m m' next prev) {a : Ptr} :
    HasRange m' a ↔ HasRange m a := by
  refine and_congr_right fun ha => not_congr ?_
  rw [h.range a ha, Option.map_eq_none_iff]

/-- A range with its links redirected: the one of `prev` to `x`, and that of `next` to `y`. -/
def redirect (prev x next y a : Ptr) (n : RangeT) : RangeT :=
  { n with next := if a = prev then x else n.next, prev := if a = next then y else n.prev }

/-- What has become of memory when a range has been put in between two others. -/
structure Linked (m m' : Memory RangeHeap) (p prev next : Ptr) (n : RangeT) : Prop where
  node : m'.node = m.node
  tree : m'.tree = m.tree
  self : m'.rest.range p = some n
  other : ∀ a, a ≠ 0 → a ≠ p →
    m'.rest.range a = (m.rest.range a).map (redirect prev p next p a)
  list : m'.rest.list = if prev = 0 then p else m.rest.list

theorem linkRange_returns {prev next : Ptr} {lo hi : UInt64} {index : Int} (hp : HasRange m p)
    (hprev : prev ≠ 0 → HasRange m prev) (hnext : next ≠ 0 → HasRange m next) (hpp : p ≠ prev)
    (hpn : p ≠ next) : Returns (linkRange p prev next lo hi index) m fun _ m' =>
      Linked m m' p prev next ⟨lo, hi, index, next, prev⟩ := by
  obtain ⟨n, hn⟩ := Option.ne_none_iff_exists'.mp hp.2
  have hp₁ : HasRange (modified m p fun n => { n with prev := prev }) p := hasRange_modified.mpr hp
  show Returns (do
    modifyRange p fun n => { n with prev := prev }
    setNext prev p
    modifyRange p fun n => { n with next := next }
    setPrev next p
    modifyRange p fun n => { n with lo := lo }
    modifyRange p fun n => { n with hi := hi }
    modifyRange p fun n => { n with index := index }) m _
  rw [returns_bind, returns_of_eq (modifyRange_eq hp _), returns_bind]
  refine (setNext_returns (fun h => hasRange_modified.mpr (hprev h)) p).mono ?_
  rintro _ m₂ ⟨hm₂, hlist₂⟩
  have hp₂ : HasRange m₂ p := hm₂.hasRange.mpr hp₁
  rw [returns_bind, returns_of_eq (modifyRange_eq hp₂ _), returns_bind]
  refine (setPrev_returns (fun h => hasRange_modified.mpr (hm₂.hasRange.mpr
    (hasRange_modified.mpr (hnext h)))) p).mono ?_
  rintro _ m₄ ⟨hm₄, hlist₄⟩
  have hp₄ : HasRange m₄ p := hm₄.hasRange.mpr (hasRange_modified.mpr hp₂)
  rw [returns_bind, returns_of_eq (modifyRange_eq hp₄ _), returns_bind,
    returns_of_eq (modifyRange_eq (hasRange_modified.mpr hp₄) _),
    returns_of_eq (modifyRange_eq (hasRange_modified.mpr (hasRange_modified.mpr hp₄)) _)]
  refine ⟨?_, ?_, ?_, fun a ha hap => ?_, ?_⟩
  · exact hm₄.node.trans hm₂.node
  · exact hm₄.tree.trans hm₂.tree
  · rw [modified_self, modified_self, modified_self, hm₄.range p hp.1, modified_self,
      hm₂.range p hp.1, modified_self, hn]
    simp [hpp, hpn]
  · rw [modified_of_ne hap, modified_of_ne hap, modified_of_ne hap, hm₄.range a ha,
      modified_of_ne hap, hm₂.range a ha, modified_of_ne hap, Option.map_map]
    rfl
  · exact hlist₄.trans hlist₂

/-- What has become of memory when a range has been taken out. -/
structure Unlinked (m m' : Memory RangeHeap) (p prev next : Ptr) : Prop where
  node : m'.node = m.node
  tree : m'.tree = m.tree
  self : m'.rest.range p = none
  other : ∀ a, a ≠ 0 → a ≠ p →
    m'.rest.range a = (m.rest.range a).map (redirect prev next next prev a)
  list : m'.rest.list = if prev = 0 then next else m.rest.list

theorem freeRange_eq (hp : p ≠ 0) (h : m.rest.range p ≠ none) :
    onRest (freeRange p) m = some ((), { m with
      rest := { m.rest with range := Function.update m.rest.range p none } }) := by
  rw [onRest, freeRange, if_neg hp, if_neg h]
  rfl

theorem unlinkRange_returns (hp : p ≠ 0) (hn : m.rest.range p = some n)
    (hprev : n.prev ≠ 0 → HasRange m n.prev) (hnext : n.next ≠ 0 → HasRange m n.next) :
    Returns (unlinkRange p) m fun _ m' => Unlinked m m' p n.prev n.next := by
  show Returns (do
    let prev := (← getRange p).prev
    let next := (← getRange p).next
    setNext prev next
    setPrev next prev
    onRest (freeRange p)) m _
  rw [returns_bind, returns_of_eq (getRange_eq hp hn), returns_bind,
    returns_of_eq (getRange_eq hp hn), returns_bind]
  refine (setNext_returns hprev n.next).mono ?_
  rintro _ m₂ ⟨hm₂, hlist₂⟩
  rw [returns_bind]
  refine (setPrev_returns (fun h => hm₂.hasRange.mpr (hnext h)) n.prev).mono ?_
  rintro _ m₃ ⟨hm₃, hlist₃⟩
  have hp₃ : HasRange m₃ p := hm₃.hasRange.mpr (hm₂.hasRange.mpr ⟨hp, by rw [hn]; nofun⟩)
  rw [returns_of_eq (freeRange_eq hp hp₃.2)]
  refine ⟨?_, ?_, Function.update_self .., fun a ha hap => ?_, ?_⟩
  · exact hm₃.node.trans hm₂.node
  · exact hm₃.tree.trans hm₂.tree
  · refine (Function.update_of_ne hap _ _).trans ?_
    rw [hm₃.range a ha, hm₂.range a ha, Option.map_map]
    rfl
  · exact hlist₃.trans hlist₂

/-! ## The records after a change -/

section Redirect

variable {prev next x y a : Ptr}

theorem fwd_redirect (h : s'.range a = (s.range a).map (redirect prev x next y a))
    (ha : s.range a ≠ none) : fwd s' a = if a = prev then x else fwd s a := by
  obtain ⟨n, hn⟩ := Option.ne_none_iff_exists'.mp ha
  rw [hn] at h
  rw [fwd_eq h, fwd_eq hn, redirect]

theorem bwd_redirect (h : s'.range a = (s.range a).map (redirect prev x next y a))
    (ha : s.range a ≠ none) : bwd s' a = if a = next then y else bwd s a := by
  obtain ⟨n, hn⟩ := Option.ne_none_iff_exists'.mp ha
  rw [hn] at h
  rw [bwd_eq h, bwd_eq hn, redirect]

theorem extent_redirect (h : s'.range a = (s.range a).map (redirect prev x next y a)) {r : Live}
    (ha : ∃ n, s.range a = some n ∧ n.lo = r.lo ∧ n.hi = r.hi ∧ n.index = r.index) :
    ∃ n, s'.range a = some n ∧ n.lo = r.lo ∧ n.hi = r.hi ∧ n.index = r.index := by
  obtain ⟨n, hn, hextent⟩ := ha
  rw [hn] at h
  exact ⟨_, h, hextent⟩

end Redirect

theorem Records.mem_ne_none (h : Records s R) (hr : r ∈ R) : s.range r.addr ≠ none := by
  obtain ⟨n, hn, -⟩ := h.extent r hr
  rw [hn]
  nofun

theorem Records.hasRange (h : Records m.rest R) (hr : r ∈ R) : HasRange m r.addr :=
  ⟨h.ne_zero r hr, h.mem_ne_none hr⟩

/-- The links lead to ranges of the set. -/
theorem Records.fwd_head (h : Records m.rest (A ++ x :: B)) (hne : fwd m.rest x.addr ≠ 0) :
    ∃ y ∈ B.head?, y.addr = fwd m.rest x.addr := by
  have hlinks := h.links
  rw [List.map_append, List.map_cons] at hlinks
  obtain ⟨-, -, hfwd, -⟩ := gapped_append.mp hlinks
  have hhead := hfwd.resolve_left hne
  cases B with
  | nil => exact absurd hhead hne
  | cons y B => exact ⟨y, rfl, hhead.symm⟩

theorem Records.fwd_hasRange (h : Records m.rest (A ++ x :: B)) (hne : fwd m.rest x.addr ≠ 0) :
    ∃ y ∈ B, y.addr = fwd m.rest x.addr := by
  obtain ⟨y, hy, heq⟩ := h.fwd_head hne
  exact ⟨y, List.mem_of_mem_head? hy, heq⟩

theorem Records.bwd_hasRange (h : Records m.rest (A ++ x :: B)) (hne : bwd m.rest x.addr ≠ 0) :
    ∃ y ∈ A, y.addr = bwd m.rest x.addr := by
  have hlinks := h.links
  rw [List.map_append, List.map_cons] at hlinks
  obtain ⟨-, hbwd, -⟩ := gapped_append.mp hlinks
  rcases List.eq_nil_or_concat A with rfl | ⟨A, y, rfl⟩
  · exact absurd hbwd hne
  · refine ⟨y, by simp, ?_⟩
    rw [List.concat_eq_append, List.map_append, List.map_singleton, backOf_snoc, back] at hbwd
    split at hbwd
    · exact absurd hbwd hne
    · exact hbwd.symm

/-- The link back from where a link leads. -/
theorem Records.bwd_fwd (h : Records s (A ++ x :: B)) (hne : fwd s x.addr ≠ 0) :
    bwd s (fwd s x.addr) = x.addr := by
  have hlinks := h.links
  rw [List.map_append, List.map_cons] at hlinks
  obtain ⟨-, -, hfwd, hright⟩ := gapped_append.mp hlinks
  have hhead := hfwd.resolve_left hne
  cases B with
  | nil => exact absurd hhead hne
  | cons y B =>
    have hy : fwd s x.addr = y.addr := hhead
    rw [hy]
    exact hright.1.trans (if_neg hne)

/-- The addresses of a set, without the one of a member. -/
theorem Records.ne (h : Records s (A ++ x :: B)) : ∀ y ∈ A ++ B, y.addr ≠ x.addr := by
  have hnd := h.nodup
  rw [List.map_append, List.map_cons, (List.perm_middle).nodup_iff, List.nodup_cons,
    ← List.map_append] at hnd
  exact fun y hy heq => hnd.1 (heq ▸ List.mem_map_of_mem hy)

/-- The first range is not the one that another is linked to. -/
theorem Records.first_ne_fwd (h : Records s (A ++ x :: B)) {y : Live} (hy : y ∈ A ++ x :: B)
    (hy0 : bwd s y.addr = 0) : y.addr ≠ fwd s x.addr := by
  intro heq
  have hback := h.bwd_fwd (heq ▸ h.ne_zero y hy)
  rw [← heq, hy0] at hback
  exact h.ne_zero x (by simp) hback.symm

theorem Records.zero_notMem (h : Records s R) : (0 : Ptr) ∉ R.map Live.addr := by
  intro hmem
  obtain ⟨y, hy, heq⟩ := List.mem_map.mp hmem
  exact h.ne_zero y hy heq

section Linked

variable {m₁ : Memory RangeHeap} {prev next : Ptr}

theorem Records.ne_fresh (h : Records s R) (hfresh : s.range p = none) : ∀ y ∈ R, y.addr ≠ p :=
  fun _ hy heq => h.mem_ne_none hy (heq ▸ hfresh)

theorem Records.nodup_fresh (h : Records s R) (hfresh : s.range p = none) :
    (p :: R.map Live.addr).Nodup := by
  refine List.nodup_cons.mpr ⟨fun hmem => ?_, h.nodup⟩
  obtain ⟨y, hy, heq⟩ := List.mem_map.mp hmem
  exact h.ne_fresh hfresh y hy heq

/-- The other ranges when one has been put in. -/
theorem Records.linked (h : Records m.rest R) (hfresh : m.rest.range p = none)
    (hm₁ : ∀ a, a ≠ p → m₁.rest.range a = m.rest.range a) (hl : Linked m₁ m' p prev next n) :
    ∀ y ∈ R, m'.rest.range y.addr = (m.rest.range y.addr).map (redirect prev p next p y.addr) := by
  intro y hy
  have hne := h.ne_fresh hfresh y hy
  rw [hl.other y.addr (h.ne_zero y hy) hne, hm₁ _ hne]

theorem Records.fwd_linked (h : Records m.rest R) (hfresh : m.rest.range p = none)
    (hm₁ : ∀ a, a ≠ p → m₁.rest.range a = m.rest.range a) (hl : Linked m₁ m' p prev next n) :
    ∀ y ∈ R, fwd m'.rest y.addr = if y.addr = prev then p else fwd m.rest y.addr := fun y hy =>
  fwd_redirect (h.linked hfresh hm₁ hl y hy) (h.mem_ne_none hy)

theorem Records.bwd_linked (h : Records m.rest R) (hfresh : m.rest.range p = none)
    (hm₁ : ∀ a, a ≠ p → m₁.rest.range a = m.rest.range a) (hl : Linked m₁ m' p prev next n) :
    ∀ y ∈ R, bwd m'.rest y.addr = if y.addr = next then p else bwd m.rest y.addr := fun y hy =>
  bwd_redirect (h.linked hfresh hm₁ hl y hy) (h.mem_ne_none hy)

end Linked

/-- **A range is put in** behind another. -/
theorem Records.insert (h : Records m.rest (A ++ x :: B)) {lo hi : UInt64} {index : Int}
    {m₁ : Memory RangeHeap} (hp : p ≠ 0) (hfresh : m.rest.range p = none)
    (hm₁ : ∀ a, a ≠ p → m₁.rest.range a = m.rest.range a) (hlist : m₁.rest.list = m.rest.list)
    (hl : Linked m₁ m' p x.addr (fwd m.rest x.addr) ⟨lo, hi, index, fwd m.rest x.addr, x.addr⟩) :
    Records m'.rest (A ++ x :: ⟨p, lo, hi, index⟩ :: B) := by
  have hother := h.linked hfresh hm₁ hl
  have hfwd := h.fwd_linked hfresh hm₁ hl
  have hbwd := h.bwd_linked hfresh hm₁ hl
  have hxmem : x ∈ A ++ x :: B := by simp
  have hperm : (A ++ x :: (⟨p, lo, hi, index⟩ : Live) :: B).Perm
      (⟨p, lo, hi, index⟩ :: (A ++ x :: B)) := by
    rw [List.append_cons A x (_ :: B), List.append_cons A x B]
    exact List.perm_middle
  have hzero : (0 : Ptr) ∉ p :: (A ++ x :: B).map Live.addr :=
    List.not_mem_cons_of_ne_of_not_mem hp.symm h.zero_notMem
  have hnodup := h.nodup_fresh hfresh
  refine ⟨fun y hy => ?_, ?_, ?_, fun y hy => ?_, fun a ha0 ha => ?_, ?_⟩
  · rcases List.mem_cons.mp (hperm.mem_iff.mp hy) with rfl | hy
    · exact ⟨_, hl.self, rfl, rfl, rfl⟩
    · exact extent_redirect (hother y hy) (h.extent y hy)
  · have hlinks := h.links
    have hmember : ∀ a ∈ (A ++ x :: B).map Live.addr, ∃ y ∈ A ++ x :: B, y.addr = a :=
      fun a => List.mem_map.mp
    rw [List.map_append, List.map_cons] at hlinks hnodup hzero hmember
    rw [List.map_append, List.map_cons, List.map_cons]
    refine hlinks.insert hnodup hzero ?_ (fwd_eq hl.self) (bwd_eq hl.self) (fun hne => ?_)
      (fun a ha hax => ?_) fun a ha hax => ?_
    · rw [hfwd x hxmem, if_pos rfl]
    · obtain ⟨y, hy, heq⟩ := h.fwd_hasRange hne
      rw [← heq, hbwd y (by simp [hy]), if_pos heq]
    · obtain ⟨y, hy, rfl⟩ := hmember a ha
      rw [hfwd y hy, if_neg hax]
    · obtain ⟨y, hy, rfl⟩ := hmember a ha
      rw [hbwd y hy, if_neg hax]
  · exact (hperm.map Live.addr).nodup_iff.mpr hnodup
  · rcases List.mem_cons.mp (hperm.mem_iff.mp hy) with rfl | hy
    · exact hp
    · exact h.ne_zero y hy
  · have hap : a ≠ p := (ha ⟨p, lo, hi, index⟩ (by simp)).symm
    have hold : m.rest.range a = none := h.only a ha0 fun y hy =>
      ha y (hperm.mem_iff.mpr (List.mem_cons_of_mem _ hy))
    rw [hl.other a ha0 hap, hm₁ a hap, hold]
    rfl
  · have hlist' : m'.rest.list = m.rest.list := by
      rw [hl.list, if_neg (h.ne_zero x hxmem), hlist]
    rw [hlist']
    refine h.list.imp_right fun hlist => ?_
    obtain ⟨y, hy, hyl, hy0⟩ := hlist
    refine ⟨y, hperm.mem_iff.mpr (List.mem_cons_of_mem _ hy), hyl, ?_⟩
    rw [hbwd y hy, if_neg (h.first_ne_fwd hy hy0), hy0]

/-- **A range is put in** below all the others, with no link to them. -/
theorem Records.cons (h : Records m.rest R) {lo hi : UInt64} {index : Int}
    {m₁ : Memory RangeHeap} (hp : p ≠ 0) (hfresh : m.rest.range p = none)
    (hm₁ : ∀ a, a ≠ p → m₁.rest.range a = m.rest.range a)
    (hl : Linked m₁ m' p 0 0 ⟨lo, hi, index, 0, 0⟩) :
    Records m'.rest (⟨p, lo, hi, index⟩ :: R) := by
  have hother := h.linked hfresh hm₁ hl
  have hfwd : ∀ y ∈ R, fwd m'.rest y.addr = fwd m.rest y.addr := fun y hy =>
    (h.fwd_linked hfresh hm₁ hl y hy).trans (if_neg (h.ne_zero y hy))
  have hbwd : ∀ y ∈ R, bwd m'.rest y.addr = bwd m.rest y.addr := fun y hy =>
    (h.bwd_linked hfresh hm₁ hl y hy).trans (if_neg (h.ne_zero y hy))
  refine ⟨fun y hy => ?_, ?_, ?_, fun y hy => ?_, fun a ha0 ha => ?_, ?_⟩
  · rcases List.mem_cons.mp hy with rfl | hy
    · exact ⟨_, hl.self, rfl, rfl, rfl⟩
    · exact extent_redirect (hother y hy) (h.extent y hy)
  · refine h.links.cons (fwd_eq hl.self) (bwd_eq hl.self) (fun a ha => ?_) fun a ha => ?_
    · obtain ⟨y, hy, rfl⟩ := List.mem_map.mp ha
      exact hfwd y hy
    · obtain ⟨y, hy, rfl⟩ := List.mem_map.mp ha
      exact hbwd y hy
  · exact h.nodup_fresh hfresh
  · rcases List.mem_cons.mp hy with rfl | hy
    · exact hp
    · exact h.ne_zero y hy
  · have hap : a ≠ p := (ha _ List.mem_cons_self).symm
    have hold : m.rest.range a = none := h.only a ha0 fun y hy => ha y (List.mem_cons_of_mem _ hy)
    rw [hl.other a ha0 hap, hm₁ a hap, hold]
    rfl
  · refine Or.inr ⟨_, List.mem_cons_self, hl.list.symm, bwd_eq hl.self⟩

theorem mem_middle : ∀ y ∈ A ++ B, y ∈ A ++ x :: B := fun _ hy =>
  List.perm_middle.mem_iff.mpr (List.mem_cons_of_mem x hy)

/-- The other ranges when one has been taken out. -/
theorem Records.unlinked (h : Records m.rest (A ++ x :: B))
    (hu : Unlinked m m' x.addr (bwd m.rest x.addr) (fwd m.rest x.addr)) :
    ∀ y ∈ A ++ B, m'.rest.range y.addr = (m.rest.range y.addr).map
      (redirect (bwd m.rest x.addr) (fwd m.rest x.addr) (fwd m.rest x.addr) (bwd m.rest x.addr)
        y.addr) := fun y hy => hu.other y.addr (h.ne_zero y (mem_middle y hy)) (h.ne y hy)

theorem Records.fwd_unlinked (h : Records m.rest (A ++ x :: B))
    (hu : Unlinked m m' x.addr (bwd m.rest x.addr) (fwd m.rest x.addr)) :
    ∀ y ∈ A ++ B, fwd m'.rest y.addr =
      if y.addr = bwd m.rest x.addr then fwd m.rest x.addr else fwd m.rest y.addr := fun y hy =>
  fwd_redirect (h.unlinked hu y hy) (h.mem_ne_none (mem_middle y hy))

/-- **A range is taken out.** -/
theorem Records.remove (h : Records m.rest (A ++ x :: B))
    (hu : Unlinked m m' x.addr (bwd m.rest x.addr) (fwd m.rest x.addr)) :
    Records m'.rest (A ++ B) := by
  have hold : ∀ y ∈ A ++ B, y ∈ A ++ x :: B := mem_middle
  have hother := h.unlinked hu
  have hfwd := h.fwd_unlinked hu
  have hbwd : ∀ y ∈ A ++ B, bwd m'.rest y.addr =
      if y.addr = fwd m.rest x.addr then bwd m.rest x.addr else bwd m.rest y.addr := fun y hy =>
    bwd_redirect (hother y hy) (h.mem_ne_none (hold y hy))
  refine ⟨fun y hy => extent_redirect (hother y hy) (h.extent y (hold y hy)), ?_, ?_,
    fun y hy => h.ne_zero y (hold y hy), fun a ha0 ha => ?_, ?_⟩
  · have hlinks := h.links
    have hnodup := h.nodup
    have hmember : ∀ a ∈ (A ++ B).map Live.addr, ∃ y ∈ A ++ B, y.addr = a := fun a => List.mem_map.mp
    have hzero := h.zero_notMem
    rw [List.map_append, List.map_cons] at hlinks hnodup hzero
    rw [List.map_append] at hmember ⊢
    refine hlinks.remove hnodup hzero (fun hprev => ?_) (fun hnext => ?_) (fun a ha hax => ?_)
      fun a ha hax => ?_
    · obtain ⟨y, hy, heq⟩ := h.bwd_hasRange hprev
      rw [← heq, hfwd y (by simp [hy]), if_pos heq]
    · obtain ⟨y, hy, heq⟩ := h.fwd_hasRange hnext
      rw [← heq, hbwd y (by simp [hy]), if_pos heq]
    · obtain ⟨y, hy, rfl⟩ := hmember a ha
      rw [hfwd y hy, if_neg hax]
    · obtain ⟨y, hy, rfl⟩ := hmember a ha
      rw [hbwd y hy, if_neg hax]
  · have hnodup := h.nodup
    rw [(List.perm_middle.map Live.addr).nodup_iff, List.map_cons] at hnodup
    exact (List.nodup_cons.mp hnodup).2
  · by_cases hax : a = x.addr
    · rw [hax]
      exact hu.self
    · rw [hu.other a ha0 hax, h.only a ha0 fun y hy => ?_]
      · rfl
      · rcases List.mem_cons.mp (List.perm_middle.mem_iff.mp hy) with rfl | hy
        · exact fun heq => hax heq.symm
        · exact ha y hy
  · rw [hu.list]
    split
    · rename_i hprev
      by_cases hnext : fwd m.rest x.addr = 0
      · exact Or.inl hnext
      · obtain ⟨y, hy, heq⟩ := h.fwd_hasRange hnext
        refine Or.inr ⟨y, List.mem_append_right _ hy, heq, ?_⟩
        rw [hbwd y (List.mem_append_right _ hy), if_pos heq, hprev]
    · rename_i hprev
      refine h.list.imp_right ?_
      rintro ⟨y, hy, hyl, hy0⟩
      have hyx : y ≠ x := fun heq => hprev (heq ▸ hy0)
      have hmem : y ∈ A ++ B := (List.mem_cons.mp (List.perm_middle.mem_iff.mp hy)).resolve_left hyx
      refine ⟨y, hmem, hyl, ?_⟩
      rw [hbwd y hmem, if_neg (h.first_ne_fwd hy hy0), hy0]

/-- Every range is linked to the next. -/
def Whole (s : RangeHeap) (R : List Live) : Prop := Unbroken (fwd s) (R.map Live.addr)

/-- The link of a range in such a set. -/
theorem Whole.fwd_eq (h : Whole s (A ++ x :: r :: B)) : fwd s x.addr = r.addr := by
  rw [Whole, List.map_append, List.map_cons, List.map_cons] at h
  exact (List.isChain_cons_cons.mp (List.isChain_append.mp h).2.1).1

theorem Whole.insert (hw : Whole m.rest (A ++ x :: B)) (h : Records m.rest (A ++ x :: B))
    {lo hi : UInt64} {index : Int} {m₁ : Memory RangeHeap} {next : Ptr}
    (hfresh : m.rest.range p = none) (hm₁ : ∀ a, a ≠ p → m₁.rest.range a = m.rest.range a)
    (hl : Linked m₁ m' p x.addr next ⟨lo, hi, index, fwd m.rest x.addr, x.addr⟩) :
    Whole m'.rest (A ++ x :: ⟨p, lo, hi, index⟩ :: B) := by
  have hfwd := h.fwd_linked hfresh hm₁ hl
  rw [Whole, List.map_append, List.map_cons] at hw
  rw [Whole, List.map_append, List.map_cons, List.map_cons]
  refine Unbroken.insert hw ?_ (Driver.fwd_eq hl.self) fun a ha => ?_
  · rw [hfwd x (by simp), if_pos rfl]
  · rw [← List.map_append] at ha
    obtain ⟨y, hy, rfl⟩ := List.mem_map.mp ha
    rw [hfwd y (mem_middle y hy), if_neg (h.ne y hy)]

theorem Whole.remove (hw : Whole m.rest (A ++ x :: B)) (h : Records m.rest (A ++ x :: B))
    (hu : Unlinked m m' x.addr (bwd m.rest x.addr) (fwd m.rest x.addr)) :
    Whole m'.rest (A ++ B) := by
  have hfwd := h.fwd_unlinked hu
  have hlast : ∀ a ∈ A.getLast?, a.addr = bwd m.rest x.addr := by
    intro a ha
    obtain ⟨A, rfl⟩ := List.getLast?_eq_some_iff.mp ha
    rw [List.append_assoc] at hw h
    have hax : fwd m.rest a.addr = x.addr := Whole.fwd_eq hw
    rw [← hax]
    exact (Records.bwd_fwd h (hax ▸ h.ne_zero x (by simp))).symm
  have hnodup := h.nodup
  rw [Whole, List.map_append, List.map_cons] at hw
  rw [List.map_append, List.map_cons] at hnodup
  rw [Whole, List.map_append]
  refine Unbroken.remove hw (fun b hb => ?_) (fun b hb hb' => ?_) hnodup
  · rw [List.getLast?_map] at hb
    obtain ⟨a, ha, rfl⟩ := Option.map_eq_some_iff.mp hb
    rw [hfwd a (List.mem_append_left _ (List.mem_of_getLast? ha)), if_pos (hlast a ha)]
  · rw [← List.map_append] at hb
    obtain ⟨y, hy, rfl⟩ := List.mem_map.mp hb
    rw [hfwd y hy, if_neg]
    intro heq
    obtain ⟨a, ha, hax⟩ := h.bwd_hasRange (heq ▸ h.ne_zero y (mem_middle y hy))
    have hc := List.getLast?_eq_some_getLast (List.ne_nil_of_mem ha)
    refine hb' ?_
    rw [List.getLast?_map, hc, heq, ← hlast _ hc]
    rfl

end Driver
end Cmpsc473
