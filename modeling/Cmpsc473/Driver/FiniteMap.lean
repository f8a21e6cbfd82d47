import Cmpsc473.Driver.Remove
import Cmpsc473.Library.Transition

/-!
# Runs of calls on a tree

A tree is a finite map from keys to records, whatever calls are made on it.  `tree_insert`
adds a key, `tree_remove` takes one out, `tree_find` tells the record of a key and
`tree_find_nearest` that of the largest key that is not above it.
-/

namespace Cmpsc473
namespace Driver

open Total ParentTree Transition

variable {σ : Type} {m m' : Memory σ} {t t' : TreeT} {path : List FrameT} {key k : Int}
  {p record : Ptr} {v : Ptr × Item} {l₁ l₂ : List (Ptr × Item)}

/-- The record of the largest key up to a key, NULL if there is none. -/
def Nearest (f : Int → Option Ptr) (key : Int) (p : Ptr) : Prop :=
  (∃ k ≤ key, f k = some p ∧ ∀ k' ≤ key, f k' ≠ none → k' ≤ k) ∨ p = 0 ∧ ∀ k ≤ key, f k = none

/-- The map that a tree stands for. -/
def mapOf (t : TreeT) (k : Int) : Option Ptr :=
  (lookup Item.key (inorder t) k).map fun v => v.2.record

theorem mapOf_eq_some (h : Sorted Item.key (inorder t)) :
    mapOf t k = some p ↔ ∃ v ∈ inorder t, v.2 = ⟨k, p⟩ := by
  rw [mapOf, Option.map_eq_some_iff]
  constructor
  · rintro ⟨v, hv, rfl⟩
    obtain ⟨hmem, rfl⟩ := mem_of_lookup hv
    exact ⟨v, hmem, rfl⟩
  · rintro ⟨v, hv, hd⟩
    exact ⟨v, (lookup_eq_some h).mpr ⟨hv, by rw [hd]⟩, by rw [hd]⟩

theorem mapOf_eq_none : mapOf t k = none ↔ ∀ v ∈ inorder t, v.2.key ≠ k := by
  rw [mapOf, Option.map_eq_none_iff, lookup_eq_none]

theorem mapOf_insert (hs : Sorted Item.key (inorder t')) (ht : inorder t = l₁ ++ l₂)
    (ht' : inorder t' = l₁ ++ v :: l₂) :
    mapOf t' = Function.update (mapOf t) v.2.key (some v.2.record) := by
  funext k
  rw [ht'] at hs
  rw [mapOf, ht', lookup_insert hs]
  by_cases hk : k = v.2.key
  · rw [hk, Function.update_self, Function.update_self]
    rfl
  · rw [Function.update_of_ne hk, Function.update_of_ne hk, mapOf, ht]

theorem mapOf_remove (hs : Sorted Item.key (inorder t)) (ht : inorder t = l₁ ++ v :: l₂)
    (ht' : inorder t' = l₁ ++ l₂) : mapOf t' = Function.update (mapOf t) v.2.key none := by
  funext k
  rw [ht] at hs
  rw [mapOf, ht', lookup_remove hs]
  by_cases hk : k = v.2.key
  · rw [hk, Function.update_self, Function.update_self]
    rfl
  · rw [Function.update_of_ne hk, Function.update_of_ne hk, mapOf, ht]

/-- Where a search has ended at a node, the map has its record. -/
theorem Found.mapOf_node {l r : TreeT} (h : Found key t m m' (.node v l r) path)
    (hs : Sorted Item.key (inorder t)) : mapOf t key = some v.2.record := by
  obtain ⟨w, l', r', heq, hk⟩ := h.located.found.resolve_left nofun
  cases heq
  refine (mapOf_eq_some hs).mpr ⟨v, ?_, by rw [← hk]⟩
  rw [← h.located.plug_eq, (perm_plug path _).mem_iff]
  simp [inorder]

theorem Found.mapOf_nil (h : Found key t m m' .nil path) : mapOf t key = none :=
  mapOf_eq_none.mpr h.located.not_mem

theorem treeFind_returns (h : IsTree m t) (key : Int) :
    Returns (treeFind key) m fun a m' =>
      m'.rest = m.rest ∧ IsTree m' t ∧ a = (mapOf t key).getD 0 := by
  rw [treeFind, returns_bind, returns_of_eq getTree_eq, h.root]
  refine (findLoop_returns (h.searching key) h.place.length_lt).mono ?_
  rintro _ m' ⟨t₁, path, hfound, rfl⟩
  refine ⟨hfound.counted.rest, h.counted hfound.counted, ?_⟩
  cases t₁ with
  | nil => rw [hfound.mapOf_nil]; rfl
  | node v l r => rw [hfound.mapOf_node h.sorted]; rfl

theorem treeFindNearest_returns (h : IsTree m t) (key : Int) :
    Returns (treeFindNearest key) m fun a m' =>
      m'.rest = m.rest ∧ IsTree m' t ∧ Nearest (mapOf t) key a := by
  rw [treeFindNearest, returns_bind, returns_of_eq getTree_eq, h.root]
  refine (findNearestLoop_returns (h.searching key) h.place.length_lt).mono ?_
  rintro _ m' ⟨t₁, path, hfound, rfl⟩
  refine ⟨hfound.counted.rest, h.counted hfound.counted, ?_⟩
  cases t₁ with
  | node v l r => exact Or.inl ⟨key, le_refl _, hfound.mapOf_node h.sorted, fun _ hk _ => hk⟩
  | nil =>
    cases hlast : nearest path with
    | none =>
      refine Or.inr ⟨by rw [nearestRecord, hlast]; rfl, fun k hk => mapOf_eq_none.mpr ?_⟩
      intro v hv heq
      have hlt := hfound.located.no_nearest hlast v hv
      omega
    | some v =>
      obtain ⟨hv, hlt, hle⟩ := hfound.located.nearest h.sorted hlast
      refine Or.inl ⟨v.2.key, hlt.le, (mapOf_eq_some h.sorted).mpr ⟨v, hv, ?_⟩, ?_⟩
      · rw [nearestRecord, hlast]
        rfl
      · intro k hk hne
        obtain ⟨q, hq⟩ := Option.ne_none_iff_exists'.mp hne
        obtain ⟨w, hw, hd⟩ := (mapOf_eq_some h.sorted).mp hq
        have hkey : w.2.key = k := by rw [hd]
        exact hkey ▸ hle w hw (by omega)

theorem treeInsert_maps {r : Malloc NodeT} (h : IsTree m t) (key : Int) (record : Ptr)
    (hr : r.addr ≠ 0) (hfresh : m.node r.addr = none) :
    Returns (treeInsert r key record) m fun b m' => m'.rest = m.rest ∧ ∃ t', IsTree m' t' ∧
      b = (mapOf t key).isNone ∧ mapOf t' =
        if mapOf t key = none then Function.update (mapOf t) key (some record) else mapOf t := by
  refine (treeInsert_returns h key record hr hfresh).mono ?_
  rintro _ m' ⟨hrest, ⟨rfl, ⟨v, hv, hk⟩, htree⟩ | ⟨rfl, hnot, l₁, l₂, t', ht, ht', htree⟩⟩
  · have hmap : mapOf t key = some v.2.record :=
      (mapOf_eq_some h.sorted).mpr ⟨v, hv, by rw [← hk]⟩
    refine ⟨hrest, t, htree, ?_, ?_⟩
    · rw [hmap]
      rfl
    · rw [hmap, if_neg (Option.some_ne_none _)]
  · have hmap : mapOf t key = none := mapOf_eq_none.mpr hnot
    refine ⟨hrest, t', htree, ?_, ?_⟩
    · rw [hmap]
      rfl
    · rw [hmap, if_pos rfl]
      exact mapOf_insert htree.sorted ht ht'

theorem treeRemove_maps (h : IsTree m t) (key : Int) :
    Returns (treeRemove key) m fun a m' => m'.rest = m.rest ∧ ∃ t', IsTree m' t' ∧
      a = (mapOf t key).getD 0 ∧ mapOf t' = Function.update (mapOf t) key none := by
  refine (treeRemove_returns h key).mono ?_
  rintro p m' ⟨hrest, ⟨rfl, hnot, htree⟩ | ⟨l₁, z, l₂, t', ht, rfl, rfl, ht', htree⟩⟩
  · have hmap : mapOf t key = none := mapOf_eq_none.mpr hnot
    refine ⟨hrest, t, htree, ?_, ?_⟩
    · rw [hmap]
      rfl
    · rw [← hmap, Function.update_eq_self]
  · have hz : mapOf t z.2.key = some z.2.record :=
      (mapOf_eq_some h.sorted).mpr ⟨z, by rw [ht]; simp, rfl⟩
    refine ⟨hrest, t', htree, ?_, mapOf_remove h.sorted ht ht'⟩
    rw [hz]
    rfl

inductive Call
  | insert (r : Malloc NodeT) (key : Int) (record : Ptr)
  | find (key : Int)
  | findNearest (key : Int)
  | remove (key : Int)

inductive Answer
  | done (b : Bool)
  | record (p : Ptr)
deriving DecidableEq, Repr

namespace Call

def exec : Call → Tm σ Answer
  | insert r key record => do return .done (← treeInsert r key record)
  | find key => do return .record (← treeFind key)
  | findNearest key => do return .record (← treeFindNearest key)
  | remove key => do return .record (← treeRemove key)

/-- A call of `malloc` gives memory that is not in use. -/
def Served (m : Memory σ) : Call → Prop
  | insert r _ _ => r.addr ≠ 0 ∧ m.node r.addr = none
  | _ => True

/-- What a call and its answer are to a finite map. -/
def Meets (f : Int → Option Ptr) : Call × Answer → (Int → Option Ptr) → Prop
  | (insert _ key record, a), f' => a = .done (f key).isNone ∧
      f' = if f key = none then Function.update f key (some record) else f
  | (find key, a), f' => f' = f ∧ a = .record ((f key).getD 0)
  | (findNearest key, a), f' => f' = f ∧ ∃ p, a = .record p ∧ Nearest f key p
  | (remove key, a), f' => a = .record ((f key).getD 0) ∧ f' = Function.update f key none

/-- **One call** on a tree is one on its map. -/
theorem exec_meets (h : IsTree m t) {c : Call} (hserved : c.Served m) :
    Returns c.exec m fun a m' => m'.rest = m.rest ∧
      ∃ t', IsTree m' t' ∧ Meets (mapOf t) (c, a) (mapOf t') := by
  cases c with
  | insert r key record =>
    rw [exec, returns_bind]
    refine (treeInsert_maps h key record hserved.1 hserved.2).mono ?_
    rintro _ m' ⟨hrest, t', htree, rfl, hmap⟩
    exact returns_pure.mpr ⟨hrest, t', htree, rfl, hmap⟩
  | find key =>
    rw [exec, returns_bind]
    refine (treeFind_returns h key).mono ?_
    rintro _ m' ⟨hrest, htree, rfl⟩
    exact returns_pure.mpr ⟨hrest, t, htree, rfl, rfl⟩
  | findNearest key =>
    rw [exec, returns_bind]
    refine (treeFindNearest_returns h key).mono ?_
    rintro p m' ⟨hrest, htree, hnear⟩
    exact returns_pure.mpr ⟨hrest, t, htree, rfl, p, rfl, hnear⟩
  | remove key =>
    rw [exec, returns_bind]
    refine (treeRemove_maps h key).mono ?_
    rintro _ m' ⟨hrest, t', htree, rfl, hmap⟩
    exact returns_pure.mpr ⟨hrest, t', htree, rfl, hmap⟩

end Call

/-- Memory holds a finite map: one node for each of its pairs, and no others. -/
structure IsMap (m : Memory σ) (f : Int → Option Ptr) : Prop where
  nodes : ∀ k p, f k = some p ↔ ∃ a n, m.node a = some n ∧ n.data = ⟨k, p⟩
  unique : ∀ a b n n', m.node a = some n → m.node b = some n' → n.data.key = n'.data.key → a = b
  count : ∃ keys : Finset Int, (∀ k, k ∈ keys ↔ f k ≠ none) ∧
    m.tree.nodeCount = UInt64.ofNat keys.card

theorem IsTree.node_mem (h : IsTree m t) {a : Ptr} {n : NodeT} (hn : m.node a = some n) :
    (a, n.data) ∈ inorder t := by
  have hmem : ∃ v ∈ inorder t, v.1 = a := by
    by_contra hnot
    have hnone := h.all a fun v hv heq => hnot ⟨v, hv, heq⟩
    rw [hn] at hnone
    cases hnone
  obtain ⟨v, hv, rfl⟩ := hmem
  obtain ⟨n', hn', hd⟩ := h.place.holds.data hv
  rw [hn, Option.some.injEq] at hn'
  rw [hn', hd]
  exact hv

theorem IsTree.isMap (h : IsTree m t) : IsMap m (mapOf t) := by
  refine ⟨fun k p => ?_, fun a b n n' ha hb hk => ?_, ?_⟩
  · rw [mapOf_eq_some h.sorted]
    constructor
    · rintro ⟨v, hv, hd⟩
      obtain ⟨n, hn, hdata⟩ := h.place.holds.data hv
      exact ⟨v.1, n, hn, hdata.trans hd⟩
    · rintro ⟨a, n, hn, hd⟩
      exact ⟨(a, n.data), h.node_mem hn, hd⟩
  · exact congrArg Prod.fst (h.sorted.unique (h.node_mem ha) (h.node_mem hb) hk)
  · have hnodup : ((inorder t).map fun v => v.2.key).Nodup :=
      List.pairwise_map.mpr (h.sorted.imp ne_of_lt)
    refine ⟨((inorder t).map fun v => v.2.key).toFinset, fun k => ?_, ?_⟩
    · rw [List.mem_toFinset, List.mem_map, ne_eq, mapOf_eq_none]
      simp only [not_forall, not_not, exists_prop]
    · rw [List.toFinset_card_of_nodup hnodup, List.length_map]
      exact h.count

/-- A call as a step, with its answer. -/
def Step (m : Memory σ) (e : Call × Answer) (m' : Memory σ) : Prop :=
  e.1.Served m ∧ e.1.exec m = some (e.2, m')

theorem treeNew_isTree (hnone : m.node = fun _ => none) (hnew : treeNew m = some ((), m')) :
    IsTree m' .nil ∧ m'.rest = m.rest := by
  cases hnew
  refine ⟨⟨⟨trivial, trivial, List.nodup_nil, nofun, rfl⟩, List.Pairwise.nil, rfl, fun a _ => ?_⟩, rfl⟩
  show m.node a = none
  rw [hnone]

theorem run_isTree {es : List (Call × Answer)} (h : Run Step m es m') (hm : IsTree m .nil) :
    ∃ t, Run Call.Meets (fun _ => none) es (mapOf t) ∧ IsTree m' t ∧ m'.rest = m.rest := by
  induction h with
  | nil => exact ⟨.nil, .nil _, hm, rfl⟩
  | @snoc m₁ m₂ es e _ hstep ih =>
    obtain ⟨t, hrun, htree, hrest⟩ := ih
    obtain ⟨a, m', hexec, hrest', t', htree', hmeets⟩ := Call.exec_meets htree hstep.1
    rw [hstep.2, Option.some.injEq, Prod.mk.injEq] at hexec
    obtain ⟨rfl, rfl⟩ := hexec
    exact ⟨t', hrun.snoc hmeets, htree', hrest'.trans hrest⟩

/-- **The tree is a finite map** in every run from `tree_new` on: every answer is that of the
map, the nodes are those of its pairs, they make up one search tree below `root` with all its
links, and the next call comes to an end. -/
theorem runs_meet {m₀ : Memory σ} {es : List (Call × Answer)} (hnone : m₀.node = fun _ => none)
    (hnew : treeNew m₀ = some ((), m)) (h : Run Step m es m') :
    (∃ t, Run Call.Meets (fun _ => none) es (mapOf t) ∧ IsTree m' t ∧ IsMap m' (mapOf t)) ∧
      m'.rest = m₀.rest ∧ ∀ c : Call, c.Served m' → ∃ a m'', Step m' (c, a) m'' := by
  obtain ⟨hstart, hrest₀⟩ := treeNew_isTree hnone hnew
  obtain ⟨t, hrun, htree, hrest⟩ := run_isTree h hstart
  refine ⟨⟨t, hrun, htree, htree.isMap⟩, hrest.trans hrest₀, fun c hserved => ?_⟩
  obtain ⟨a, m'', hexec, -⟩ := Call.exec_meets htree hserved
  exact ⟨a, m'', hserved, hexec⟩

theorem runs_meet_three : ∃ m' : Memory Unit,
    (∃ t, Run Call.Meets (fun _ => none) [(.insert ⟨16, ⟨0, 0, 0, ⟨0, 0⟩⟩⟩ 5 100, .done true),
      (.insert ⟨24, ⟨0, 0, 0, ⟨0, 0⟩⟩⟩ 9 200, .done true), (.findNearest 7, .record 100)] (mapOf t) ∧ IsTree m' t ∧
        IsMap m' (mapOf t)) ∧
      m'.rest = () ∧ ∀ c : Call, c.Served m' → ∃ a m'', Step m' (c, a) m'' :=
  have hnone : (⟨fun _ => none, ⟨7, 7, 7⟩, ()⟩ : Memory Unit).node = fun _ => none := rfl
  ⟨_, runs_meet hnone rfl
    (.snoc (.snoc (.snoc (.nil _) ⟨⟨by decide, rfl⟩, rfl⟩) ⟨⟨by decide, rfl⟩, rfl⟩)
      ⟨trivial, rfl⟩)⟩

theorem freeNode_eq {a : Ptr} (ha : a ≠ 0) {n : NodeT} (hn : m.node a = some n) :
    freeNode a m = some ((), { m with node := Function.update m.node a none }) := by
  rw [freeNode, if_neg ha, hn]
  rfl

theorem returns_onRest {α : Type} {g : StateT σ Option α} {Q : α → Memory σ → Prop} :
    Returns (onRest g) m Q ↔ Returns g m.rest fun a s => Q a { m with rest := s } := by
  constructor
  · rintro ⟨a, m', hrun, hQ⟩
    obtain ⟨_, hg, heq⟩ := Option.map_eq_some_iff.mp hrun
    cases heq
    exact ⟨_, _, hg, hQ⟩
  · rintro ⟨a, s, hg, hQ⟩
    refine ⟨a, _, ?_, hQ⟩
    rw [onRest, hg]
    rfl

/-- The nodes of a list are freed, and nothing else has happened to the tree. -/
structure Freed (l : List (Ptr × Item)) (m m' : Memory σ) : Prop where
  freed : ∀ v ∈ l, m'.node v.1 = none
  kept : ∀ a, (∀ v ∈ l, v.1 ≠ a) → m'.node a = m.node a
  tree : m'.tree = m.tree

theorem Freed.append {m₁ : Memory σ} (h : Freed l₁ m m₁) (h' : Freed l₂ m₁ m')
    (hd : ∀ v ∈ l₁, ∀ w ∈ l₂, v.1 ≠ w.1) : Freed (l₁ ++ l₂) m m' := by
  refine ⟨fun v hv => ?_, fun a ha => ?_, h'.tree.trans h.tree⟩
  · rcases List.mem_append.mp hv with hv | hv
    · rw [h'.kept v.1 fun w hw => (hd v hv w hw).symm, h.freed v hv]
    · exact h'.freed v hv
  · rw [h'.kept a fun v hv => ha v (List.mem_append_right _ hv),
      h.kept a fun v hv => ha v (List.mem_append_left _ hv)]

theorem Freed.cons (h : Freed l₁ m m') (v : Ptr × Item) (s : σ) :
    Freed (v :: l₁) m ⟨Function.update m'.node v.1 none, m'.tree, s⟩ := by
  refine ⟨fun w hw => ?_, fun a ha => ?_, h.tree⟩
  · by_cases hwv : w.1 = v.1
    · rw [hwv]
      exact Function.update_self ..
    · refine (Function.update_of_ne hwv _ _).trans (h.freed w ?_)
      rcases List.mem_cons.mp hw with rfl | hw
      · exact absurd rfl hwv
      · exact hw
  · refine (Function.update_of_ne (ha v List.mem_cons_self).symm _ _).trans (h.kept a ?_)
    exact fun w hw => ha w (List.mem_cons_of_mem v hw)

theorem Freed.perm (h : Freed l₁ m m') (hp : l₁.Perm l₂) : Freed l₂ m m' :=
  ⟨fun v hv => h.freed v (hp.mem_iff.mpr hv),
    fun a ha => h.kept a fun v hv => ha v (hp.mem_iff.mp hv), h.tree⟩

theorem freeSubtree_returns {rounds : Nat} {g : Ptr → StateT σ Option Unit} {q : Ptr}
    {Q : Unit → σ → Prop} (h : Holds 0 m.node t q) (hd : Distinct (inorder t))
    (h0 : ∀ v ∈ inorder t, v.1 ≠ 0) (hlen : (inorder t).length < rounds)
    (hg : Returns (forM (postorder t) fun v => g v.2.record) m.rest Q) :
    Returns (freeSubtree (fun r => onRest (g r)) rounds (addr 0 t)) m fun _ m' =>
      Freed (inorder t) m m' ∧ Q () m'.rest := by
  induction rounds generalizing m t q Q with
  | zero => omega
  | succ rounds ih =>
    cases t with
    | nil =>
      have haddr : addr 0 (.nil : TreeT) = 0 := rfl
      rw [freeSubtree, haddr, if_pos rfl, returns_pure]
      exact ⟨⟨nofun, fun _ _ => rfl, rfl⟩, returns_pure.mp hg⟩
    | node v l r =>
      obtain ⟨hv, hl, hr⟩ := h
      have hv0 : v.1 ≠ 0 := h0 v (by simp [inorder])
      have haddr : addr 0 (.node v l r : TreeT) = v.1 := rfl
      have hlenl := length_left v l r
      have hlenr := length_right v l r
      obtain ⟨hvne, hlr⟩ := distinct_cons.mp (hd.perm List.perm_middle)
      obtain ⟨hld, hrd, hcross⟩ := distinct_append.mp hlr
      rw [postorder, List.forM_append, returns_bind] at hg
      rw [freeSubtree, haddr, if_neg hv0, returns_bind, returns_of_eq (getNode_eq hv0 hv),
        returns_bind]
      refine (ih hl hld (fun w hw => h0 w (List.mem_append_left _ hw)) (by omega) hg).mono ?_
      rintro _ m₁ ⟨hfreed₁, hg₁⟩
      have hv₁ : m₁.node v.1 = some ⟨addr 0 l, addr 0 r, q, v.2⟩ :=
        (hfreed₁.kept v.1 fun w hw => hvne w (List.mem_append_left _ hw)).trans hv
      have hr₁ : Holds 0 m₁.node r v.1 := hr.congr fun w hw =>
        hfreed₁.kept w.1 fun u hu => hcross u hu w hw
      rw [List.forM_append, returns_bind] at hg₁
      rw [returns_bind, returns_of_eq (getNode_eq hv0 hv₁), returns_bind]
      refine (ih hr₁ hrd (fun w hw => h0 w (List.mem_append_right _ (List.mem_cons_of_mem v hw)))
        (by omega) hg₁).mono ?_
      rintro _ m₂ ⟨hfreed₂, hg₂⟩
      have hv₂ : m₂.node v.1 = some ⟨addr 0 l, addr 0 r, q, v.2⟩ :=
        (hfreed₂.kept v.1 fun w hw => hvne w (List.mem_append_right _ hw)).trans hv₁
      rw [List.forM_cons, returns_bind] at hg₂
      rw [returns_bind, returns_of_eq (getNode_eq hv0 hv₂), returns_bind, returns_onRest]
      refine hg₂.mono fun _ s hlast => ?_
      rw [returns_of_eq (freeNode_eq (m := { m₂ with rest := s }) hv0 hv₂)]
      have hfreed := ((hfreed₁.append hfreed₂ hcross).cons v s).perm List.perm_middle.symm
      exact ⟨hfreed, returns_pure.mp hlast⟩

/-- **Freeing the tree** frees every node, after its record has been given to `free_fun`. -/
theorem treeFree_returns {g : Ptr → StateT σ Option Unit} {Q : Unit → σ → Prop} (h : IsTree m t)
    (hg : Returns (forM (postorder t) fun v => g v.2.record) m.rest Q) :
    Returns (treeFree fun r => onRest (g r)) m fun _ m' =>
      (m'.node = fun _ => none) ∧ Q () m'.rest := by
  rw [treeFree, returns_bind, returns_of_eq getTree_eq, h.root]
  have hzero : ∀ v ∈ inorder t, v.1 ≠ 0 := fun v hv => h.place.ne_zero v (List.mem_append_left _ hv)
  cases t with
  | nil =>
    have haddr : addr 0 (.nil : TreeT) = 0 := rfl
    rw [haddr, if_neg (not_not.mpr rfl), returns_pure]
    exact ⟨funext fun a => h.all a nofun, returns_pure.mp hg⟩
  | node v l r =>
    have haddr : addr 0 (.node v l r : TreeT) ≠ 0 := hzero v (by simp [inorder])
    rw [if_pos haddr]
    refine (freeSubtree_returns h.place.holds h.distinct hzero h.place.length_lt hg).mono ?_
    rintro _ m' ⟨hfreed, hQ⟩
    refine ⟨funext fun a => ?_, hQ⟩
    by_cases ha : ∀ w ∈ inorder (.node v l r : TreeT), w.1 ≠ a
    · rw [hfreed.kept a ha, h.all a ha]
    · push Not at ha
      obtain ⟨w, hw, rfl⟩ := ha
      exact hfreed.freed w hw

end Driver
end Cmpsc473
