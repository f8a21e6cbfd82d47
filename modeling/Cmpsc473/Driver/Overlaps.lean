import Cmpsc473.Driver.RangeCalls

/-!
# Runs of calls on a range set

Whatever payloads the driver adds and removes, every call comes to an end, the ranges in
memory are those of the live payloads, and no payload is refused without a reason.  Every
overlap is found as long as no payload is added below all the live ones: a payload there is
not compared with any other.
-/

namespace Cmpsc473
namespace Driver

open Total ParentTree Transition ListMap

variable {m m' : Memory RangeHeap} {R A B : List Live} {r x : Live} {p : Ptr} {lo hi size : UInt64}

/-- The live payloads: the end and the index for each low address. -/
abbrev LiveMap := UInt64 → Option (UInt64 × Int)

def Overlap (live : LiveMap) (lo hi : UInt64) : Prop :=
  ∃ l h i, live l = some (h, i) ∧ l ≤ hi ∧ lo ≤ h

/-- The payload below an address that is nearest to it ends below it. -/
def ClearBelow (live : LiveMap) (lo : UInt64) : Prop :=
  ∀ l h i, live l = some (h, i) → l ≤ lo → (∀ l' ≤ lo, live l' ≠ none → l' ≤ l) → h < lo

inductive RangeCall
  | add (e : Env) (rm : Malloc RangeT) (nm : Malloc NodeT) (lo size : UInt64) (index : Int)
  | remove (lo : UInt64)

namespace RangeCall

def exec : RangeCall → Rm (Option Bool)
  | add e rm nm lo size index => do return some (← addRange e rm nm lo size index)
  | remove lo => do
    removeRange lo
    return none

/-- The driver checks payloads, in the lower half of the address space, and `malloc` gives it
memory that is not in use. -/
def Allowed (m : Memory RangeHeap) : RangeCall → Prop
  | add e rm nm lo size _ =>
    Fresh rm nm m ∧ e.heapHi.toNat < 2 ^ 63 ∧ Fits lo size ∧ e.debugMode ≠ .none
  | remove _ => True

/-- What a call and its answer are to the live payloads. -/
def Reports (live : LiveMap) : RangeCall × Option Bool → LiveMap → Prop
  | (add e _ _ lo size index, a), live' =>
    (a = some false ∧ live' = live ∧
      (lo % 16 ≠ 0 ∨ ¬Inside e lo (lo + size - 1) ∨ Overlap live lo (lo + size - 1))) ∨
      a = some true ∧ lo % 16 = 0 ∧ Inside e lo (lo + size - 1) ∧ live lo = none ∧
        ClearBelow live lo ∧ live' = Function.update live lo (some (lo + size - 1, index))
  | (remove lo, a), live' => a = none ∧ live' = Function.update live lo none

end RangeCall

def RangeStep (m : Memory RangeHeap) (c : RangeCall × Option Bool) (m' : Memory RangeHeap) :
    Prop := c.1.Allowed m ∧ c.1.exec m = some (c.2, m')

/-- The map has the payloads of a list. -/
abbrev Payloads (live : LiveMap) (R : List Live) : Prop :=
  Represents Live.lo (fun r => (r.hi, r.index)) live R

section Calls

variable {live : LiveMap}

theorem overlap_iff (hl : Payloads live R) : Overlap live lo hi ↔ ∃ r ∈ R, r.lo ≤ hi ∧ lo ≤ r.hi := by
  constructor
  · rintro ⟨l, h, i, hlive, hlo, hhi⟩
    obtain ⟨r, hr, rfl, heq⟩ := (hl l (h, i)).mp hlive
    obtain ⟨rfl, rfl⟩ := Prod.mk.inj heq
    exact ⟨r, hr, hlo, hhi⟩
  · rintro ⟨r, hr, hlo, hhi⟩
    exact ⟨r.lo, r.hi, r.index, (hl _ _).mpr ⟨r, hr, rfl, rfl⟩, hlo, hhi⟩

/-- The last payload in front of a place is the nearest one below it. -/
theorem Placed.clearBelow (hp : Placed A B lo) (hs : (A ++ B).Pairwise fun r s => r.lo < s.lo)
    (hl : Payloads live (A ++ B)) : ClearBelow live lo := by
  intro l h i hlive hle hmax
  obtain ⟨r, hr, rfl, heq⟩ := (hl l (h, i)).mp hlive
  obtain ⟨rfl, rfl⟩ := Prod.mk.inj heq
  rcases List.mem_append.mp hr with hr | hr
  · rcases List.eq_nil_or_concat A with rfl | ⟨A, a, rfl⟩
    · cases hr
    · rw [List.concat_eq_append] at *
      have ha : a.hi < lo := hp.clear a (by simp)
      rcases List.mem_append.mp hr with hr | hr
      · have hra : r.lo < a.lo := (List.pairwise_append.mp (List.pairwise_append.mp hs).1).2.2 r hr a
          List.mem_cons_self
        have har := hmax a.lo (UInt64.le_of_lt (hp.before a (by simp)))
          (hl.ne_none.mpr ⟨a, by simp, rfl⟩)
        exact absurd hra (UInt64.not_lt.mpr har)
      · rw [List.mem_singleton.mp hr]
        exact ha
  · exact absurd hle (UInt64.not_le.mpr (hp.after r hr))

theorem Placed.eq_none (hp : Placed A B lo) (hl : Payloads live (A ++ B)) : live lo = none := by
  refine hl.eq_none.mpr fun r hr heq => ?_
  rcases List.mem_append.mp hr with hr | hr
  · exact UInt64.ne_of_lt (hp.before r hr) heq
  · exact UInt64.ne_of_lt (hp.after r hr) heq.symm

/-- **One call** on a range set is one on the live payloads. -/
theorem RangeCall.exec_reports (h : IsRangeSet m R) (hl : Payloads live R) {c : RangeCall}
    (hallowed : c.Allowed m) : Returns c.exec m fun a m' =>
      ∃ R' live', IsRangeSet m' R' ∧ Payloads live' R' ∧ Reports live (c, a) live' := by
  cases c with
  | add e rm nm lo size index =>
    obtain ⟨hfresh, he, hfits, hmode⟩ := hallowed
    rw [exec, returns_bind]
    refine (addRange_returns h hfresh he hfits hmode).mono ?_
    rintro _ m' (⟨rfl, -, hset, hfault⟩ | ⟨rfl, halign, hin, A, B, rfl, hkept⟩)
    · refine returns_pure.mpr ⟨R, live, hset, hl, Or.inl ⟨rfl, rfl, ?_⟩⟩
      rw [overlap_iff hl]
      exact hfault.imp_right (Or.imp_right And.left)
    · have hp : Placed A B lo := hkept.placed
      have hnone := hp.eq_none hl
      exact returns_pure.mpr ⟨_, _, hkept.set,
        hl.insert (x := ⟨rm.addr, lo, lo + size - 1, index⟩) hnone List.perm_middle,
        Or.inr ⟨rfl, halign, hin, hnone, hp.clearBelow h.sorted hl, rfl⟩⟩
  | remove lo =>
    rw [exec, returns_bind]
    refine (removeRange_returns h lo).mono ?_
    rintro _ m' (⟨-, hset, hne⟩ | ⟨A, x, B, rfl, rfl, hset, -⟩)
    · refine returns_pure.mpr ⟨R, live, hset, hl, rfl, ?_⟩
      rw [← hl.eq_none.mpr hne, Function.update_eq_self]
    · exact returns_pure.mpr ⟨A ++ B, _, hset, hl.remove h.ne, rfl, rfl⟩

end Calls

/-- A list of ranges is freed, each of them once. -/
theorem freeRanges_returns {s : RangeHeap} {l : List Ptr} (hnd : l.Nodup)
    (hl : ∀ p ∈ l, p ≠ 0 ∧ s.range p ≠ none) :
    Returns (forM l freeRange) s fun _ s' =>
      (∀ p ∈ l, s'.range p = none) ∧ ∀ p, p ∉ l → s'.range p = s.range p := by
  induction l generalizing s with
  | nil => exact returns_pure.mpr ⟨nofun, fun _ _ => rfl⟩
  | cons p l ih =>
    obtain ⟨hp, hnd⟩ := List.nodup_cons.mp hnd
    obtain ⟨hp0, hne⟩ := hl p List.mem_cons_self
    have hfree : freeRange p s =
        some ((), { s with range := Function.update s.range p none }) := by
      rw [freeRange, if_neg hp0, if_neg hne]
    have hsame : ∀ q, q ≠ p → Function.update s.range p none q = s.range q := fun q hq =>
      Function.update_of_ne hq _ _
    rw [List.forM_cons, returns_bind, returns_of_eq hfree]
    refine (ih hnd fun q hq => ?_).mono ?_
    · have hqp : q ≠ p := fun heq => hp (heq ▸ hq)
      show q ≠ 0 ∧ Function.update s.range p none q ≠ none
      rw [hsame q hqp]
      exact hl q (List.mem_cons_of_mem p hq)
    · rintro _ s' ⟨hfreed, hkept⟩
      refine ⟨fun q hq => ?_, fun q hq => ?_⟩
      · by_cases hql : q ∈ l
        · exact hfreed q hql
        · obtain rfl := (List.mem_cons.mp hq).resolve_right hql
          rw [hkept q hql]
          exact Function.update_self ..
      · rw [hkept q fun hql => hq (List.mem_cons_of_mem p hql)]
        exact hsame q fun heq => hq (heq ▸ List.mem_cons_self)

/-- The records of the nodes are the ranges, each in one node. -/
theorem IsRangeSet.records_nodup {t : TreeT} (h : IsRangeSet m R) (ht : IsTree m t)
    (hf : Indexed (mapOf t) R) : ((inorder t).map fun v => v.2.record).Nodup ∧
      ∀ p, p ∈ (inorder t).map (fun v => v.2.record) ↔ ∃ r ∈ R, r.addr = p := by
  have hentry : ∀ v ∈ inorder t, ∃ r ∈ R, tkey r.lo = v.2.key ∧ r.addr = v.2.record :=
    fun v hv => (hf _ _).mp ((mapOf_eq_some ht.sorted).mpr ⟨v, hv, rfl⟩)
  constructor
  · refine List.pairwise_map.mpr (ht.sorted.imp_of_mem fun {v w} hv hw hlt heq => ?_)
    obtain ⟨r, hr, hrk, hra⟩ := hentry v hv
    obtain ⟨x, hx, hxk, hxa⟩ := hentry w hw
    have hrx : r = x :=
      List.inj_on_of_nodup_map h.records.nodup hr hx (hra.trans (heq.trans hxa.symm))
    rw [← hrk, ← hxk, hrx] at hlt
    exact absurd hlt (lt_irrefl _)
  · intro p
    rw [List.mem_map]
    constructor
    · rintro ⟨v, hv, rfl⟩
      obtain ⟨r, hr, -, hra⟩ := hentry v hv
      exact ⟨r, hr, hra⟩
    · rintro ⟨r, hr, rfl⟩
      obtain ⟨v, hv, hd⟩ :=
        (mapOf_eq_some ht.sorted).mp ((hf (tkey r.lo) r.addr).mpr ⟨r, hr, rfl, rfl⟩)
      exact ⟨v, hv, by rw [hd]⟩

/-- **Freeing the range set** frees all of its memory. -/
theorem freeRangeSet_returns (h : IsRangeSet m R) :
    Returns freeRangeSet m fun _ m' =>
      (m'.node = fun _ => none) ∧ ∀ a, a ≠ 0 → m'.rest.range a = none := by
  obtain ⟨t, ht, hf⟩ := h.tree
  obtain ⟨hnd, hmem⟩ := h.records_nodup ht hf
  have hperm := (postorder_perm t).map fun v : Ptr × Item => v.2.record
  have hall : ∀ p ∈ (postorder t).map (fun v => v.2.record), p ≠ 0 ∧ m.rest.range p ≠ none := by
    intro p hp
    obtain ⟨r, hr, rfl⟩ := (hmem p).mp (hperm.mem_iff.mp hp)
    exact h.records.hasRange hr
  have hfree := freeRanges_returns (hperm.nodup_iff.mpr hnd) hall
  rw [List.forM_map] at hfree
  refine (treeFree_returns ht hfree).mono ?_
  rintro _ m' ⟨hnode, hfreed, hkept⟩
  refine ⟨hnode, fun a ha => ?_⟩
  by_cases hin : a ∈ (postorder t).map fun v => v.2.record
  · exact hfreed a hin
  · rw [hkept a hin]
    refine h.records.only a ha fun r hr heq => hin ?_
    exact hperm.mem_iff.mpr ((hmem a).mpr ⟨r, hr, heq⟩)

/-- The ranges in memory are those of the live payloads, one each. -/
structure HoldsLive (m : Memory RangeHeap) (live : LiveMap) : Prop where
  ranges : ∀ l h i, live l = some (h, i) ↔
    ∃ a n, a ≠ 0 ∧ m.rest.range a = some n ∧ n.lo = l ∧ n.hi = h ∧ n.index = i
  unique : ∀ a b n n', a ≠ 0 → b ≠ 0 → m.rest.range a = some n → m.rest.range b = some n' →
    n.lo = n'.lo → a = b

theorem IsRangeSet.range_mem (h : IsRangeSet m R) {a : Ptr} {n : RangeT} (ha : a ≠ 0)
    (hn : m.rest.range a = some n) :
    ∃ r ∈ R, r.addr = a ∧ n.lo = r.lo ∧ n.hi = r.hi ∧ n.index = r.index := by
  have hmem : ∃ r ∈ R, r.addr = a := by
    by_contra hnot
    have hnone := h.records.only a ha fun r hr heq => hnot ⟨r, hr, heq⟩
    rw [hn] at hnone
    cases hnone
  obtain ⟨r, hr, rfl⟩ := hmem
  obtain ⟨n', hn', hextent⟩ := h.records.extent r hr
  rw [hn, Option.some.injEq] at hn'
  exact ⟨r, hr, rfl, hn' ▸ hextent⟩

theorem IsRangeSet.holdsLive {live : LiveMap} (h : IsRangeSet m R) (hl : Payloads live R) :
    HoldsLive m live := by
  refine ⟨fun l hi i => ?_, fun a b n n' ha hb hn hn' heq => ?_⟩
  · rw [hl l (hi, i)]
    constructor
    · rintro ⟨r, hr, rfl, heq⟩
      obtain ⟨rfl, rfl⟩ := Prod.mk.inj heq
      obtain ⟨n, hn, hextent⟩ := h.records.extent r hr
      exact ⟨r.addr, n, h.records.ne_zero r hr, hn, hextent⟩
    · rintro ⟨a, n, ha, hn, rfl, rfl, rfl⟩
      obtain ⟨r, hr, -, hlo, hhi, hindex⟩ := h.range_mem ha hn
      exact ⟨r, hr, hlo.symm, by rw [hhi, hindex]⟩
  · obtain ⟨r, hr, rfl, hlo, -⟩ := h.range_mem ha hn
    obtain ⟨x, hx, rfl, hlo', -⟩ := h.range_mem hb hn'
    by_contra hne
    rw [hlo, hlo'] at heq
    have hrx : r ≠ x := fun hrx => hne (congrArg Live.addr hrx)
    obtain ⟨A, B, rfl⟩ := List.append_of_mem hx
    have hmem := (List.mem_cons.mp (List.perm_middle.mem_iff.mp hr)).resolve_left hrx
    exact h.ne r hmem heq

/-- Memory before `new_range_set`. -/
def Empty (m : Memory RangeHeap) : Prop :=
  (m.node = fun _ => none) ∧ ∀ a, a ≠ 0 → m.rest.range a = none

theorem newRangeSet_isRangeSet (he : Empty m) (hnew : newRangeSet m = some ((), m')) :
    IsRangeSet m' [] := by
  cases hnew
  have ht := treeNew_isTree (m := { m with rest := { m.rest with list := 0 } }) he.1 rfl
  exact ⟨⟨nofun, trivial, List.nodup_nil, nofun, fun a ha _ => he.2 a ha, Or.inl rfl⟩,
    ⟨.nil, ht.1, Represents.nil⟩, List.Pairwise.nil, nofun⟩

theorem run_isRangeSet {es : List (RangeCall × Option Bool)} (h : Run RangeStep m es m')
    (hm : IsRangeSet m []) : ∃ R live, Run RangeCall.Reports (fun _ => none) es live ∧
      IsRangeSet m' R ∧ Payloads live R := by
  induction h with
  | nil => exact ⟨[], _, .nil _, hm, Represents.nil⟩
  | @snoc m₁ m₂ es e _ hstep ih =>
    obtain ⟨R, live, hrun, hset, hl⟩ := ih
    obtain ⟨a, m', hexec, R', live', hset', hl', hreports⟩ :=
      RangeCall.exec_reports hset hl hstep.1
    rw [hstep.2, Option.some.injEq, Prod.mk.injEq] at hexec
    obtain ⟨rfl, rfl⟩ := hexec
    exact ⟨R', live', hrun.snoc hreports, hset', hl'⟩

/-- **The driver's range set**, in every run from `new_range_set` on.  A payload is refused
only if it is not aligned, lies outside the heap or overlaps a live one.  The ranges in memory
are those of the live payloads, the next call comes to an end, and so does
`free_range_set`, which leaves nothing behind. -/
theorem runs_report {m₀ : Memory RangeHeap} {es : List (RangeCall × Option Bool)}
    (he : Empty m₀) (hnew : newRangeSet m₀ = some ((), m)) (h : Run RangeStep m es m') :
    (∃ live, Run RangeCall.Reports (fun _ => none) es live ∧ HoldsLive m' live) ∧
      (∀ c : RangeCall, c.Allowed m' → ∃ a m'', RangeStep m' (c, a) m'') ∧
      ∃ m'', freeRangeSet m' = some ((), m'') ∧ Empty m'' := by
  obtain ⟨R, live, hrun, hset, hl⟩ := run_isRangeSet h (newRangeSet_isRangeSet he hnew)
  refine ⟨⟨live, hrun, hset.holdsLive hl⟩, fun c hallowed => ?_, ?_⟩
  · obtain ⟨a, m'', hexec, -⟩ := RangeCall.exec_reports hset hl hallowed
    exact ⟨a, m'', hallowed, hexec⟩
  · obtain ⟨_, m'', hfree, hempty⟩ := freeRangeSet_returns hset
    exact ⟨m'', hfree, hempty⟩

/-- Memory that `malloc` gives, at an address. -/
def rangeAt (a : Ptr) : Malloc RangeT := ⟨a, ⟨1, 2, 3, 4, 5⟩⟩

def nodeAt (a : Ptr) : Malloc NodeT := ⟨a, ⟨6, 7, 8, ⟨9, 10⟩⟩⟩

/-- A payload that is added and removed. -/
def twoCalls : List (RangeCall × Option Bool) :=
  [(.add ⟨0, 4096, .cheap⟩ (rangeAt 16) (nodeAt 16) 64 32 0, some true), (.remove 64, none)]

def emptyMemory : Memory RangeHeap := ⟨fun _ => none, ⟨7, 7, 7⟩, ⟨fun _ => none, 7⟩⟩

/-- Memory after `new_range_set`. -/
def newMemory : Memory RangeHeap := ⟨fun _ => none, ⟨0, 0, 0⟩, ⟨fun _ => none, 0⟩⟩

theorem twoCalls_exec : ∃ m₁ m₂,
    addRange ⟨0, 4096, .cheap⟩ (rangeAt 16) (nodeAt 16) 64 32 0 newMemory = some (true, m₁) ∧
      removeRange 64 m₁ = some ((), m₂) := ⟨_, _, rfl, rfl⟩

theorem twoCalls_steps : ∃ m₁ m₂,
    RangeStep newMemory (.add ⟨0, 4096, .cheap⟩ (rangeAt 16) (nodeAt 16) 64 32 0, some true) m₁ ∧
      RangeStep m₁ (.remove 64, none) m₂ := by
  obtain ⟨m₁, m₂, h₁, h₂⟩ := twoCalls_exec
  refine ⟨m₁, m₂, ⟨⟨⟨⟨by decide, rfl⟩, by decide, rfl⟩, by decide, ⟨by decide, by decide⟩, nofun⟩, ?_⟩,
    trivial, ?_⟩
  · rw [RangeCall.exec, bind_of_some h₁]
    rfl
  · rw [RangeCall.exec, bind_of_some h₂]
    rfl

theorem runs_report_two : ∃ m', ((∃ live, Run RangeCall.Reports (fun _ => none) twoCalls live ∧
    HoldsLive m' live) ∧
      (∀ c : RangeCall, c.Allowed m' → ∃ a m'', RangeStep m' (c, a) m'') ∧
      ∃ m'', freeRangeSet m' = some ((), m'') ∧ Empty m'') := by
  obtain ⟨m₁, m₂, h₁, h₂⟩ := twoCalls_steps
  have hnew : newRangeSet emptyMemory = some ((), newMemory) := rfl
  exact ⟨m₂, runs_report ⟨rfl, fun _ _ => rfl⟩ hnew
    (.snoc (.snoc (.nil _) h₁) h₂)⟩

/-- No live payload overlaps another. -/
def Separate (live : LiveMap) : Prop :=
  ∀ l h i l' h' i', live l = some (h, i) → live l' = some (h', i') → l < l' → h < l'

/-- A payload is not added below all the live ones. -/
def RangeCall.Above (m : Memory RangeHeap) : RangeCall → Prop
  | add _ _ _ lo _ _ => (∃ a, a ≠ 0 ∧ m.rest.range a ≠ none) →
      ∃ a n, a ≠ 0 ∧ m.rest.range a = some n ∧ n.lo ≤ lo
  | remove _ => True

/-- What a call and its answer are to the live payloads when every overlap is found. -/
def RangeCall.Detects (live : LiveMap) : RangeCall × Option Bool → LiveMap → Prop
  | (add e _ _ lo size index, a), live' => ∃ b, a = some b ∧
      (b = true ↔ lo % 16 = 0 ∧ Inside e lo (lo + size - 1) ∧ ¬Overlap live lo (lo + size - 1)) ∧
      live' = if b then Function.update live lo (some (lo + size - 1, index)) else live
  | (remove lo, a), live' => a = none ∧ live' = Function.update live lo none

/-- The payloads are one behind the other, and each range is linked to the next. -/
structure Sound (m : Memory RangeHeap) (R : List Live) : Prop where
  set : IsRangeSet m R
  whole : Whole m.rest R
  apart : R.Pairwise fun r s => r.hi < s.lo

theorem Sound.separate {live : LiveMap} (h : Sound m R) (hl : Payloads live R) : Separate live := by
  intro l hi i l' hi' i' hlive hlive' hlt
  obtain ⟨r, hr, rfl, heq⟩ := (hl l (hi, i)).mp hlive
  obtain ⟨x, hx, rfl, -⟩ := (hl l' (hi', i')).mp hlive'
  obtain ⟨rfl, rfl⟩ := Prod.mk.inj heq
  obtain ⟨A, B, rfl⟩ := List.append_of_mem hx
  have hne : r ≠ x := fun heq => UInt64.lt_irrefl _ (heq ▸ hlt)
  have hmem := (List.mem_cons.mp (List.perm_middle.mem_iff.mp hr)).resolve_left hne
  rcases List.mem_append.mp hmem with hr | hr
  · exact (List.pairwise_append.mp h.apart).2.2 r hr x List.mem_cons_self
  · have hxr := (List.pairwise_cons.mp (List.pairwise_append.mp h.set.sorted).2.1).1 r hr
    exact absurd hlt (UInt64.not_lt.mpr (UInt64.le_of_lt hxr))

/-- Where the neighbours of a new payload end before it and start behind it, so do all. -/
theorem Sound.clear (h : Sound m (A ++ B)) (hp : Placed A B lo) (hnext : ∀ r ∈ B.head?, hi < r.lo) :
    (∀ r ∈ A, r.hi < lo) ∧ ∀ r ∈ B, hi < r.lo := by
  obtain ⟨hA, hB, -⟩ := List.pairwise_append.mp h.apart
  refine ⟨fun r hr => ?_, fun r hr => ?_⟩
  · rcases List.eq_nil_or_concat A with rfl | ⟨A, a, rfl⟩
    · cases hr
    · rw [List.concat_eq_append] at *
      have ha : a.hi < lo := hp.clear a (by simp)
      rcases List.mem_append.mp hr with hr | hr
      · have hra := (List.pairwise_append.mp hA).2.2 r hr a List.mem_cons_self
        have haa := (h.set.bounds a (by simp)).1
        exact UInt64.lt_trans (UInt64.lt_of_lt_of_le hra haa) ha
      · rw [List.mem_singleton.mp hr]
        exact ha
  · cases B with
    | nil => cases hr
    | cons b B =>
      have hb := hnext b rfl
      rcases List.mem_cons.mp hr with rfl | hr
      · exact hb
      · have hbb := (h.set.bounds b (by simp)).1
        have hbr := (List.pairwise_cons.mp hB).1 r hr
        exact UInt64.lt_trans (UInt64.lt_of_lt_of_le hb hbb) hbr

theorem Sound.kept {new : Live} (h : Sound m (A ++ B)) (hk : Kept m m' A B new)
    (hplace : B = [] ∨ A ≠ []) :
    Sound m' (A ++ new :: B) ∧ ∀ r ∈ A ++ B, ¬(r.lo ≤ new.hi ∧ new.lo ≤ r.hi) := by
  obtain ⟨hwhole, hnext⟩ := hk.whole h.whole hplace
  obtain ⟨hbefore, hafter⟩ := h.clear hk.placed hnext
  obtain ⟨hA, hB, hcross⟩ := List.pairwise_append.mp h.apart
  refine ⟨⟨hk.set, hwhole, ?_⟩, fun r hr => ?_⟩
  · refine List.pairwise_append.mpr ⟨hA, List.pairwise_cons.mpr ⟨hafter, hB⟩, fun r hr s hs => ?_⟩
    rcases List.mem_cons.mp hs with rfl | hs
    · exact hbefore r hr
    · exact hcross r hr s hs
  · rintro ⟨hlo, hhi⟩
    rcases List.mem_append.mp hr with hr | hr
    · exact UInt64.not_lt.mpr hhi (hbefore r hr)
    · exact UInt64.not_lt.mpr hlo (hafter r hr)

/-- The answer to a payload: one below all the live ones is not compared with any. -/
def RangeCall.Compares (live : LiveMap) : RangeCall × Option Bool → Prop
  | (add e _ _ lo size _, a) => ∃ b, a = some b ∧
      (b = true ↔ lo % 16 = 0 ∧ Inside e lo (lo + size - 1) ∧
        ((∀ l, live l ≠ none → lo < l) ∨ ¬Overlap live lo (lo + size - 1)))
  | (remove _, a) => a = none

/-- A payload that is not below all the live ones has one in front of it. -/
theorem IsRangeSet.above_ne_nil (h : IsRangeSet m (A ++ B)) (hp : Placed A B lo)
    {e : Env} {rm : Malloc RangeT} {nm : Malloc NodeT} {index : Int}
    (habove : (RangeCall.add e rm nm lo size index).Above m) : B = [] ∨ A ≠ [] := by
  by_contra hnot
  push Not at hnot
  obtain ⟨hB, rfl⟩ := hnot
  obtain ⟨b, B, rfl⟩ := List.exists_cons_of_ne_nil hB
  have hb := h.records.hasRange (r := b) (by simp)
  obtain ⟨a, n, ha, hn, hlo⟩ := habove ⟨b.addr, hb⟩
  obtain ⟨r, hr, -, hrlo, -⟩ := h.range_mem ha hn
  exact UInt64.not_lt.mpr (hrlo ▸ hlo) (hp.after r hr)

/-- **One call** when the payloads are sound. -/
theorem Sound.exec {live : LiveMap} (h : Sound m R) (hl : Payloads live R) {c : RangeCall}
    (hallowed : c.Allowed m) : Returns c.exec m fun a m' => RangeCall.Compares live (c, a) ∧
      (c.Above m → ∃ R' live', Sound m' R' ∧ Payloads live' R' ∧
        RangeCall.Detects live (c, a) live') := by
  cases c with
  | add e rm nm lo size index =>
    obtain ⟨hfresh, he, hfits, hmode⟩ := hallowed
    rw [RangeCall.exec, returns_bind]
    refine (addRange_returns h.set hfresh he hfits hmode).mono ?_
    rintro _ m' (⟨rfl, hrest, hset, hfault⟩ | ⟨rfl, halign, hin, A, B, rfl, hkept⟩)
    · -- A payload that is refused overlaps a live one, and one is below it.
      have hnot : ¬(lo % 16 = 0 ∧ Inside e lo (lo + size - 1) ∧
          ((∀ l, live l ≠ none → lo < l) ∨ ¬Overlap live lo (lo + size - 1))) := by
        rintro ⟨halign, hin, hclear⟩
        obtain ⟨hover, r, hr, hrlo⟩ := (hfault.resolve_left (not_not.mpr halign)).resolve_left
          (not_not.mpr hin)
        rcases hclear with hall | hclear
        · exact UInt64.not_lt.mpr hrlo (hall r.lo (hl.ne_none.mpr ⟨r, hr, rfl⟩))
        · exact hclear ((overlap_iff hl).mpr hover)
      refine returns_pure.mpr ⟨⟨false, rfl, iff_of_false nofun hnot⟩, fun _ => ⟨R, live, ?_, hl,
        false, rfl, iff_of_false nofun fun hok => hnot ⟨hok.1, hok.2.1, Or.inr hok.2.2⟩, rfl⟩⟩
      exact ⟨hset, hrest ▸ h.whole, h.apart⟩
    · have hp : Placed A B lo := hkept.placed
      have hclear : B = [] ∨ A ≠ [] → ¬Overlap live lo (lo + size - 1) := by
        intro hplace hover
        obtain ⟨r, hr, hboth⟩ := (overlap_iff hl).mp hover
        exact (h.kept hkept hplace).2 r hr hboth
      refine returns_pure.mpr ⟨⟨true, rfl, iff_of_true rfl ⟨halign, hin, ?_⟩⟩, fun habove => ?_⟩
      · by_cases hA : A = []
        · refine Or.inl fun l hlive => ?_
          obtain ⟨r, hr, rfl⟩ := hl.ne_none.mp hlive
          rw [hA] at hr
          exact hp.after r hr
        · exact Or.inr (hclear (Or.inr hA))
      · have hplace := h.set.above_ne_nil hp habove
        exact ⟨_, _, (h.kept hkept hplace).1,
          hl.insert (x := ⟨rm.addr, lo, lo + size - 1, index⟩) (hp.eq_none hl) List.perm_middle,
          true, rfl, iff_of_true rfl ⟨halign, hin, hclear hplace⟩, rfl⟩
  | remove lo =>
    rw [RangeCall.exec, returns_bind]
    refine (removeRange_returns h.set lo).mono ?_
    rintro _ m' (⟨hrest, hset, hne⟩ | ⟨A, x, B, rfl, rfl, hset, hwhole⟩)
    · refine returns_pure.mpr ⟨rfl, fun _ => ⟨R, live, ⟨hset, hrest ▸ h.whole, h.apart⟩, hl, rfl, ?_⟩⟩
      rw [← hl.eq_none.mpr hne, Function.update_eq_self]
    · have hapart : (A ++ B).Pairwise fun r s => r.hi < s.lo :=
        h.apart.sublist ((List.sublist_cons_self x B).append_left A)
      exact returns_pure.mpr ⟨rfl, fun _ => ⟨A ++ B, _, ⟨hset, hwhole h.whole, hapart⟩,
        hl.remove h.set.ne, rfl, rfl⟩⟩

theorem run_sound {es : List (RangeCall × Option Bool)}
    (h : Run (fun m e m' => RangeStep m e m' ∧ e.1.Above m) m es m') (hm : Sound m []) :
    ∃ R live, Run RangeCall.Detects (fun _ => none) es live ∧ Sound m' R ∧ Payloads live R := by
  induction h with
  | nil => exact ⟨[], _, .nil _, hm, Represents.nil⟩
  | @snoc m₁ m₂ es e _ hstep ih =>
    obtain ⟨R, live, hrun, hsound, hl⟩ := ih
    obtain ⟨⟨hallowed, hexec⟩, habove⟩ := hstep
    obtain ⟨a, m', hexec', -, hkeeps⟩ := hsound.exec hl hallowed
    rw [hexec, Option.some.injEq, Prod.mk.injEq] at hexec'
    obtain ⟨rfl, rfl⟩ := hexec'
    obtain ⟨R', live', hsound', hl', hdetects⟩ := hkeeps habove
    exact ⟨R', live', hrun.snoc hdetects, hsound', hl'⟩

/-- **Every overlap is found** in a run that never adds a payload below all the live ones, and
the live payloads stay separate.  The next payload is accepted exactly if it is aligned and
inside the heap and overlaps no live one, or if it is below them all. -/
theorem runs_detect {m₀ : Memory RangeHeap} {es : List (RangeCall × Option Bool)}
    (he : Empty m₀) (hnew : newRangeSet m₀ = some ((), m))
    (h : Run (fun m e m' => RangeStep m e m' ∧ e.1.Above m) m es m') :
    ∃ live, Run RangeCall.Detects (fun _ => none) es live ∧ HoldsLive m' live ∧ Separate live ∧
      ∀ c a m'', RangeStep m' (c, a) m'' → RangeCall.Compares live (c, a) := by
  have hset := newRangeSet_isRangeSet he hnew
  obtain ⟨R, live, hrun, hsound, hl⟩ := run_sound h ⟨hset, List.isChain_nil, List.Pairwise.nil⟩
  refine ⟨live, hrun, hsound.set.holdsLive hl, hsound.separate hl, fun c a m'' hstep => ?_⟩
  obtain ⟨a', m₁, hexec, hcompares, -⟩ := hsound.exec hl hstep.1
  rw [hstep.2, Option.some.injEq, Prod.mk.injEq] at hexec
  obtain ⟨rfl, -⟩ := hexec
  exact hcompares

theorem runs_detect_two : ∃ m' live, Run RangeCall.Detects (fun _ => none) twoCalls live ∧
    HoldsLive m' live ∧ Separate live ∧
      ∀ c a m'', RangeStep m' (c, a) m'' → RangeCall.Compares live (c, a) := by
  obtain ⟨m₁, m₂, h₁, h₂⟩ := twoCalls_steps
  have hnew : newRangeSet emptyMemory = some ((), newMemory) := rfl
  exact ⟨m₂, runs_detect ⟨rfl, fun _ _ => rfl⟩ hnew
    (.snoc (.snoc (.nil _) ⟨h₁, fun h => absurd rfl h.choose_spec.2⟩) ⟨h₂, trivial⟩)⟩

end Driver
end Cmpsc473
