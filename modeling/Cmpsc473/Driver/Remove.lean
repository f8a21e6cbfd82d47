import Cmpsc473.Driver.TreeMap

/-!
# Removing a node

`tree_remove` brings the node to the root and puts in its place the one subtree that it
has, or the smallest node to its right.
-/

namespace Cmpsc473
namespace Driver

open Total ParentTree

variable {σ : Type} {m m' : Memory σ} {t u : TreeT} {path p : List FrameT} {x : Ptr × Item}
  {s : Side}

/-- A node with one subtree is replaced by it. -/
theorem replace_returns (h : At m (join s x u .nil) path) :
    Returns (replace x.1 (addr 0 u)) m fun _ m' => At m' u path ∧
      m'.node x.1 = m.node x.1 ∧ Keeps (inorder (plug path (join s x u .nil))) m m' := by
  obtain ⟨hx, hu, -⟩ := holds_join.mp h.holds
  have hpath := h.around
  rw [addr_join] at hpath
  have hparts : Distinct (x :: (inorder u ++ around path)) := by
    refine h.distinct.perm ?_
    cases s with
    | left =>
      show (inorder u ++ [x] ++ around path).Perm _
      rw [List.append_assoc]
      exact List.perm_middle
    | right => exact List.Perm.refl _
  obtain ⟨hxne, hdistinct⟩ := distinct_cons.mp hparts
  obtain ⟨hud, hpd, hcross⟩ := distinct_append.mp hdistinct
  have hmem : ∀ v, v = x ∨ v ∈ inorder u ∨ v ∈ around path →
      v ∈ inorder (join s x u .nil) ++ around path := by
    rintro v (hv | hv | hv)
    · exact List.mem_append_left _ (mem_join.mpr (Or.inl hv))
    · exact List.mem_append_left _ (mem_join.mpr (Or.inr (Or.inl hv)))
    · exact List.mem_append_right _ hv
  have hx0 : x.1 ≠ 0 := h.ne_zero x (hmem x (Or.inl rfl))
  have hu0 : ∀ v ∈ inorder u, v.1 ≠ 0 := fun v hv => h.ne_zero v (hmem v (Or.inr (Or.inl hv)))
  have hp0 : ∀ v ∈ around path, v.1 ≠ 0 := fun v hv => h.ne_zero v (hmem v (Or.inr (Or.inr hv)))
  have hxpath : ∀ v ∈ around path, v.1 ≠ x.1 := fun v hv => hxne v (List.mem_append_right _ hv)
  have hxu : ∀ v ∈ inorder u, v.1 ≠ x.1 := fun v hv => hxne v (List.mem_append_left _ hv)
  have hhang := hang_eq hx0 hx (Node.parent_of ..) hpath hp0 hxpath (addr 0 u)
  have hx' : (hung m path (addr 0 u)).node x.1 = m.node x.1 := relink_of_notMem hxpath
  have hu' : Holds 0 (hung m path (addr 0 u)).node u x.1 :=
    hu.congr fun v hv => relink_of_notMem fun w hw => (hcross v hv w hw).symm
  rw [replace, returns_bind, returns_of_eq hhang, returns_bind,
    returns_of_eq (getNode_eq hx0 (hx'.trans hx)), Node.parent_of,
    returns_of_eq (adopt_eq hu' hu0 _)]
  refine ⟨⟨hu'.reparent _ hud, ?_, hdistinct, ?_, ?_⟩, ?_, ?_, rfl, rfl⟩
  · refine (hpath.relink (addr 0 u) hpd).congr fun v hv => ?_
    exact reparent_of_notMem fun w hw => hcross w hw v hv
  · intro v hv
    rcases List.mem_append.mp hv with hv | hv
    · exact hu0 v hv
    · exact hp0 v hv
  · show (if path = [] then addr 0 u else m.tree.root) = _
    rw [addr_plug (t := join s x u .nil)]
    split
    · rfl
    · exact h.root
  · exact (reparent_of_notMem hxu).trans hx'
  · intro a ha
    have hin : ∀ v ∈ inorder (join s x u .nil) ++ around path, v.1 ≠ a :=
      fun v hv => ha v ((perm_plug _ _).mem_iff.mpr hv)
    refine (reparent_of_notMem fun v hv => hin v (hmem v (Or.inr (Or.inl hv)))).trans ?_
    exact relink_of_notMem fun v hv => hin v (hmem v (Or.inr (Or.inr hv)))

theorem subtreeMinimumLoop_returns {l r : TreeT} {rounds : Nat} (h : At m (.node x l r) path)
    (hlen : (inorder (.node x l r)).length < rounds) :
    Returns (subtreeMinimumLoop rounds x.1) m fun a m' => m' = m ∧ ∃ y u p, Leftmost p ∧
      a = y.1 ∧ plug p (.node y .nil u) = .node x l r ∧ At m (.node y .nil u) (p ++ path) := by
  induction rounds generalizing x l r path with
  | zero => omega
  | succ rounds ih =>
    have hx0 : x.1 ≠ 0 := h.ne_zero x (by simp [inorder])
    rw [subtreeMinimumLoop, returns_bind, returns_of_eq (getNode_eq hx0 h.holds.1)]
    cases l with
    | nil =>
      have hleft : addr 0 (.nil : TreeT) = 0 := rfl
      rw [if_neg (not_not.mpr hleft), returns_pure]
      exact ⟨rfl, x, r, [], fun f hf => absurd hf List.not_mem_nil, rfl, rfl, h⟩
    | node y l' r' =>
      have hdown : At m (.node y l' r') (⟨.left, x, r⟩ :: path) :=
        At.down (f := ⟨.left, x, r⟩) h
      have hleft : addr 0 (.node y l' r' : TreeT) = y.1 := rfl
      have hy0 : y.1 ≠ 0 := hdown.ne_zero y (by simp [inorder])
      have hlt := length_left x (.node y l' r') r
      rw [hleft, if_pos hy0]
      refine (ih hdown (by omega)).mono ?_
      rintro _ _ ⟨rfl, z, u, p, hp, rfl, hplug, hplace⟩
      refine ⟨rfl, z, u, p ++ [⟨.left, x, r⟩], ?_, rfl, ?_, ?_⟩
      · intro f hf
        rcases List.mem_append.mp hf with hf | hf
        · exact hp f hf
        · rw [List.mem_singleton.mp hf]
      · rw [plug_append, hplug]
        rfl
      · rw [List.append_assoc]
        exact hplace

/-- **The minimum** is at the end of the steps to the left. -/
theorem subtreeMinimum_returns {l r : TreeT} (h : At m (.node x l r) path) :
    Returns (subtreeMinimum x.1) m fun a m' => m' = m ∧ ∃ y u p, Leftmost p ∧
      a = y.1 ∧ plug p (.node y .nil u) = .node x l r ∧ At m (.node y .nil u) (p ++ path) :=
  subtreeMinimumLoop_returns h h.length_lt

theorem At.climb (h : At m t (p ++ path)) : At m (plug p t) path := by
  induction p generalizing t with
  | nil => exact h
  | cons f p ih => exact ih h.up

/-- The node `y` is ready to take the place of the root `z`: it has what is to be on its right,
and `z` still has what is to be on its left. -/
structure Ready (m : Memory σ) (z y : Ptr × Item) (l r : TreeT) : Prop where
  going : ∃ b, m.node z.1 = some ⟨addr 0 l, b, 0, z.2⟩
  coming : ∃ q, m.node y.1 = some ⟨0, addr 0 r, q, y.2⟩
  left : Holds 0 m.node l z.1
  right : Holds 0 m.node r y.1
  distinct : Distinct (z :: y :: (inorder l ++ inorder r))
  ne_zero : ∀ v ∈ z :: y :: (inorder l ++ inorder r), v.1 ≠ 0

/-- The end of `tree_remove` for a `z` with both children. -/
def takePlace (z y : Ptr) : Tm σ Unit := do
  replace z y
  let zn ← getNode z
  modifyNode y fun n => { n with left := zn.left }
  let yn ← getNode y
  modifyNode yn.left fun n => { n with parent := y }

theorem addr_ne_zero {l : TreeT} (hl : l ≠ .nil) (h0 : ∀ v ∈ inorder l, v.1 ≠ 0) :
    addr 0 l ≠ 0 := by
  cases l with
  | nil => exact absurd rfl hl
  | node v l r => exact h0 v (by simp [inorder])

/-- `y` takes over the subtree that `z` has on a side. -/
def graft (s : Side) (z y : Ptr) : Tm σ Unit := do
  let zn ← getNode z
  modifyNode y fun n => n.setChild s (zn.child s)
  let yn ← getNode y
  modifyNode (yn.child s) fun n => { n with parent := y }

/-- Nothing changes but `y` and the subtree, which `y` now holds. -/
theorem graft_returns {z y q : Ptr} {zn yn : NodeT} (hz0 : z ≠ 0) (hy0 : y ≠ 0)
    (hz : m.node z = some zn) (hy : m.node y = some yn) (hchild : zn.child s = addr 0 t)
    (ht : Holds 0 m.node t q) (hne : t ≠ .nil) (h0 : ∀ v ∈ inorder t, v.1 ≠ 0)
    (hd : Distinct (inorder t)) (hty : ∀ v ∈ inorder t, v.1 ≠ y) :
    Returns (graft s z y) m fun _ m' => m'.node y = some (yn.setChild s (addr 0 t)) ∧
      Holds 0 m'.node t y ∧
      (∀ a, a ≠ y → (∀ v ∈ inorder t, v.1 ≠ a) → m'.node a = m.node a) ∧
      m'.tree = m.tree ∧ m'.rest = m.rest := by
  rw [graft, returns_bind, returns_of_eq (getNode_eq hz0 hz), returns_bind,
    returns_of_eq (modifyNode_eq hy0 hy), hchild]
  generalize hm₁ : ({ m with
    node := Function.update m.node y (some (yn.setChild s (addr 0 t))) } : Memory σ) = m₁
  have hy₁ : m₁.node y = some (yn.setChild s (addr 0 t)) := by
    rw [← hm₁]
    exact Function.update_self ..
  have hsame₁ : ∀ a, a ≠ y → m₁.node a = m.node a := by
    intro a ha
    rw [← hm₁]
    exact Function.update_of_ne ha _ _
  have ht₁ : Holds 0 m₁.node t q := ht.congr fun v hv => hsame₁ v.1 (hty v hv)
  have hlast := adopt_eq ht₁ h0 y
  rw [adopt, if_pos (addr_ne_zero hne h0)] at hlast
  rw [returns_bind, returns_of_eq (getNode_eq hy0 hy₁), Node.child_setChild, returns_of_eq hlast]
  refine ⟨(reparent_of_notMem hty).trans hy₁, ht₁.reparent y hd, fun a ha hta => ?_, ?_, ?_⟩
  · exact (reparent_of_notMem hta).trans (hsame₁ a ha)
  · rw [← hm₁]
  · rw [← hm₁]

theorem takePlace_eq (z y : Ptr) : (takePlace z y : Tm σ Unit) = (do
    replace z y
    graft .left z y) := rfl

/-- `replace` of the root by a node makes it the root. -/
theorem replaceRoot_returns {z y : Ptr × Item} {r : TreeT} {a b q : Ptr} (hz0 : z.1 ≠ 0)
    (hz : m.node z.1 = some ⟨a, b, 0, z.2⟩) (hy : Holds 0 m.node (.node y .nil r) q)
    (h0 : ∀ v ∈ inorder (.node y .nil r : TreeT), v.1 ≠ 0) :
    Returns (replace z.1 y.1) m fun _ m' => m'.node y.1 = some ⟨0, addr 0 r, 0, y.2⟩ ∧
      (∀ a, a ≠ y.1 → m'.node a = m.node a) ∧ m'.tree = { m.tree with root := y.1 } ∧
      m'.rest = m.rest := by
  have hpath : HoldsPath 0 m.node [] z.1 := trivial
  have hhang := hang_eq hz0 hz rfl hpath nofun nofun y.1
  have hadopt := adopt_eq (m := hung m [] y.1) hy h0 0
  have haddr : addr 0 (.node y .nil r : TreeT) = y.1 := rfl
  rw [haddr] at hadopt
  have hz₁ : (hung m [] y.1).node z.1 = some ⟨a, b, 0, z.2⟩ := hz
  rw [replace, returns_bind, returns_of_eq hhang, returns_bind,
    returns_of_eq (getNode_eq hz0 hz₁), returns_of_eq hadopt]
  refine ⟨?_, fun a ha => Function.update_of_ne ha _ _, rfl, rfl⟩
  refine (Function.update_self ..).trans ?_
  show Option.map _ (m.node y.1) = _
  rw [hy.1]
  rfl

theorem takePlace_returns {z y : Ptr × Item} {l r : TreeT} (h : Ready m z y l r) (hl : l ≠ .nil) :
    Returns (takePlace z.1 y.1) m fun _ m' => At m' (.node y l r) [] ∧
      m'.node z.1 = m.node z.1 ∧ Keeps (z :: y :: (inorder l ++ inorder r)) m m' := by
  obtain ⟨b, hz⟩ := h.going
  obtain ⟨q, hy⟩ := h.coming
  obtain ⟨hzne, hdistinct⟩ := distinct_cons.mp h.distinct
  obtain ⟨hyne, hlr⟩ := distinct_cons.mp hdistinct
  obtain ⟨hld, -, hcross⟩ := distinct_append.mp hlr
  have hz0 : z.1 ≠ 0 := h.ne_zero z List.mem_cons_self
  have hy0 : y.1 ≠ 0 := h.ne_zero y (List.mem_cons_of_mem z List.mem_cons_self)
  have hlr0 : ∀ v ∈ inorder l ++ inorder r, v.1 ≠ 0 := fun v hv =>
    h.ne_zero v (List.mem_cons_of_mem z (List.mem_cons_of_mem y hv))
  have hzy : z.1 ≠ y.1 := (hzne y List.mem_cons_self).symm
  have hzl : ∀ v ∈ inorder l, v.1 ≠ z.1 := fun v hv =>
    hzne v (List.mem_cons_of_mem y (List.mem_append_left _ hv))
  have hyl : ∀ v ∈ inorder l, v.1 ≠ y.1 := fun v hv => hyne v (List.mem_append_left _ hv)
  have hyr : ∀ v ∈ inorder r, v.1 ≠ y.1 := fun v hv => hyne v (List.mem_append_right _ hv)
  rw [takePlace_eq, returns_bind]
  refine (replaceRoot_returns hz0 hz ⟨hy, trivial, h.right⟩ fun v hv => ?_).mono ?_
  · rcases List.mem_cons.mp hv with rfl | hv
    · exact hy0
    · exact hlr0 v (List.mem_append_right _ hv)
  rintro _ m₁ ⟨hy₁, hsame₁, htree₁, hrest₁⟩
  -- The left subtree changes over to `y`.
  have hl₁ : Holds 0 m₁.node l z.1 := h.left.congr fun v hv => hsame₁ v.1 (hyl v hv)
  refine (graft_returns (s := .left) hz0 hy0 ((hsame₁ z.1 hzy).trans hz) hy₁ rfl hl₁ hl
    (fun v hv => hlr0 v (List.mem_append_left _ hv)) hld hyl).mono ?_
  rintro _ m' ⟨hy', hl', hsame', htree', hrest'⟩
  have hkept : ∀ a, a ≠ y.1 → (∀ v ∈ inorder l, v.1 ≠ a) → m'.node a = m.node a :=
    fun a ha hla => (hsame' a ha hla).trans (hsame₁ a ha)
  have hr' : Holds 0 m'.node r y.1 :=
    h.right.congr fun v hv => hkept v.1 (hyr v hv) fun w hw => hcross w hw v hv
  have htree : m'.tree = { m.tree with root := y.1 } := htree'.trans htree₁
  have horder : inorder (.node y l r : TreeT) = inorder l ++ y :: inorder r := rfl
  refine ⟨⟨⟨hy', hl', hr'⟩, trivial, ?_, fun v hv => ?_, by rw [htree]; rfl⟩, hkept z.1 hzy hzl,
    fun a ha => hkept a ?_ fun v hv => ?_, by rw [htree], hrest'.trans hrest₁⟩
  · rw [horder, around_nil, List.append_nil]
    exact hdistinct.perm List.perm_middle.symm
  · rw [horder, around_nil, List.append_nil] at hv
    exact h.ne_zero v (List.mem_cons_of_mem z (List.perm_middle.mem_iff.mp hv))
  · exact (ha y (List.mem_cons_of_mem z List.mem_cons_self)).symm
  · exact ha v (List.mem_cons_of_mem z (List.mem_cons_of_mem y (List.mem_append_left _ hv)))

/-- The part of `tree_remove` that takes the smallest node `y` out of the right subtree. -/
def takeOut (z y : Ptr) : Tm σ Unit := do
  let yn ← getNode y
  (if yn.parent ≠ z then do
    replace y yn.right
    let zn ← getNode z
    modifyNode y fun n => { n with right := zn.right }
    let yn ← getNode y
    modifyNode yn.right fun n => { n with parent := y }
  else pure ())

theorem takeOut_eq (z y : Ptr) : (takeOut z y : Tm σ Unit) = (do
    let yn ← getNode y
    (if yn.parent ≠ z then do
      replace y yn.right
      graft .right z y
    else pure ())) := rfl

theorem plug_left (z y : Ptr × Item) (l u : TreeT) (p : List FrameT) :
    (inorder (plug (p ++ [⟨.right, z, l⟩]) (.node y .nil u))).Perm
      (z :: y :: (inorder l ++ inorder (plug p u))) := by
  have hy : (inorder (plug p (.node y .nil u))).Perm (y :: inorder (plug p u)) :=
    (perm_plug p _).trans ((perm_plug p u).symm.cons y)
  rw [plug_append]
  show (inorder l ++ z :: inorder (plug p (.node y .nil u))).Perm _
  refine List.perm_middle.trans (List.Perm.cons z ?_)
  exact (hy.append_left _).trans List.perm_middle

theorem takeOut_returns {z y : Ptr × Item} {l : TreeT}
    (h : At m (.node y .nil u) (p ++ [⟨.right, z, l⟩])) :
    Returns (takeOut z.1 y.1) m fun _ m' => Ready m' z y l (plug p u) ∧
      Keeps (z :: y :: (inorder l ++ inorder (plug p u))) m m' := by
  have hperm := plug_left z y l u p
  have hall := (perm_plug (p ++ [⟨.right, z, l⟩]) (.node y .nil u)).symm.trans hperm
  have hdistinct := h.distinct.perm hall
  have hzero : ∀ v ∈ z :: y :: (inorder l ++ inorder (plug p u)), v.1 ≠ 0 := fun v hv =>
    h.ne_zero v (hall.mem_iff.mpr hv)
  have hz0 : z.1 ≠ 0 := hzero z List.mem_cons_self
  have hy0 : y.1 ≠ 0 := hzero y (List.mem_cons_of_mem z List.mem_cons_self)
  obtain ⟨hzne, hrest⟩ := distinct_cons.mp hdistinct
  obtain ⟨hyne, hlr⟩ := distinct_cons.mp hrest
  have hzy : z.1 ≠ y.1 := (hzne y List.mem_cons_self).symm
  have hnode : m.node y.1 = some ⟨0, addr 0 u, above 0 (p ++ [⟨.right, z, l⟩]), y.2⟩ := h.holds.1
  rw [takeOut_eq, returns_bind, returns_of_eq (getNode_eq hy0 hnode)]
  cases p with
  | nil =>
    have habove : above 0 ([] ++ [(⟨.right, z, l⟩ : FrameT)]) = z.1 := rfl
    obtain ⟨hz, hl, -⟩ := h.around
    rw [if_neg (not_not.mpr habove), returns_pure]
    exact ⟨⟨⟨_, hz⟩, ⟨_, hnode⟩, hl, h.holds.2.2, hdistinct, hzero⟩, Keeps.refl _ _⟩
  | cons f p =>
    have habove : above 0 (f :: p ++ [(⟨.right, z, l⟩ : FrameT)]) ≠ z.1 := by
      show f.value.1 ≠ z.1
      refine hzne f.value (List.mem_cons_of_mem y (List.mem_append_right _ ?_))
      exact (perm_plug (f :: p) u).mem_iff.mpr
        (List.mem_append_right _ (mem_around.mpr (Or.inl rfl)))
    have hne : plug (f :: p) u ≠ .nil := by
      intro hnil
      have hmem : f.value ∈ inorder (plug (f :: p) u) := (perm_plug (f :: p) u).mem_iff.mpr
        (List.mem_append_right _ (mem_around.mpr (Or.inl rfl)))
      rw [hnil] at hmem
      cases hmem
    have hjoin : At m (join .right y u .nil) (f :: p ++ [⟨.right, z, l⟩]) := h
    rw [if_pos habove, returns_bind]
    refine (replace_returns hjoin).mono ?_
    rintro _ m₁ ⟨hplace, hy₁, hkeeps⟩
    have hkeeps₁ : Keeps (z :: y :: (inorder l ++ inorder (plug (f :: p) u))) m m₁ :=
      (Keeps.refl _ m).trans hkeeps fun v hv => hperm.mem_iff.mp hv
    have hclimb := hplace.climb
    generalize plug (f :: p) u = r at *
    obtain ⟨hz, hl, -⟩ := hclimb.around
    have hr : Holds 0 m₁.node r z.1 := hclimb.holds
    obtain ⟨-, hrd, hcross⟩ := distinct_append.mp hlr
    have hyr : ∀ v ∈ inorder r, v.1 ≠ y.1 := fun v hv => hyne v (List.mem_append_right _ hv)
    have hyl : ∀ v ∈ inorder l, v.1 ≠ y.1 := fun v hv => hyne v (List.mem_append_left _ hv)
    have hzr : ∀ v ∈ inorder r, v.1 ≠ z.1 := fun v hv =>
      hzne v (List.mem_cons_of_mem y (List.mem_append_right _ hv))
    have hr0 : ∀ v ∈ inorder r, v.1 ≠ 0 := fun v hv => hzero v
      (List.mem_cons_of_mem z (List.mem_cons_of_mem y (List.mem_append_right _ hv)))
    refine (graft_returns (s := .right) hz0 hy0 hz (hy₁.trans hnode) rfl hr hne hr0 hrd
      hyr).mono ?_
    rintro _ m' ⟨hy', hr', hsame', htree', hrest'⟩
    have hl' : Holds 0 m'.node l z.1 := hl.congr fun v hv =>
      hsame' v.1 (hyl v hv) fun w hw => (hcross v hv w hw).symm
    have hkeeps' : Keeps (z :: y :: (inorder l ++ inorder r)) m₁ m' := by
      refine ⟨fun a ha => hsame' a ?_ fun v hv => ?_, by rw [htree'], hrest'⟩
      · exact (ha y (List.mem_cons_of_mem z List.mem_cons_self)).symm
      · exact ha v (List.mem_cons_of_mem z (List.mem_cons_of_mem y (List.mem_append_right _ hv)))
    exact ⟨⟨⟨addr 0 r, (hsame' z.1 hzy hzr).trans hz⟩, ⟨_, hy'⟩, hl', hr', hdistinct, hzero⟩,
      hkeeps₁.trans hkeeps' fun v hv => hv⟩

theorem removeInner_eq (z : Ptr) : (removeInner z : Tm σ Unit) = (do
    let y ← subtreeMinimum (← getNode z).right
    takeOut z y
    takePlace z y) := by
  simp only [removeInner, takeOut, takePlace, bind_assoc]

/-- **The root goes** and the nodes to its left and to its right stay, in their order. -/
theorem removeInner_returns {z : Ptr × Item} {l r : TreeT} (h : At m (.node z l r) [])
    (hl : l ≠ .nil) (hr : r ≠ .nil) :
    Returns (removeInner z.1) m fun _ m' => (∃ t', At m' t' [] ∧
      inorder t' = inorder l ++ inorder r) ∧ (∃ n, m'.node z.1 = some n ∧ n.data = z.2) ∧
      Keeps (inorder (.node z l r)) m m' := by
  have hz0 : z.1 ≠ 0 := h.ne_zero z (by simp [inorder])
  have hdown : At m r [⟨.right, z, l⟩] := At.down (f := ⟨.right, z, l⟩) h
  rw [removeInner_eq, returns_bind, returns_of_eq (getNode_eq hz0 h.holds.1)]
  cases r with
  | nil => exact absurd rfl hr
  | node x rl rr =>
    rw [returns_bind]
    refine (subtreeMinimum_returns hdown).mono ?_
    rintro _ _ ⟨rfl, y, u, p, hp, rfl, hplug, hplace⟩
    have hright : inorder (.node x rl rr : TreeT) = y :: inorder (plug p u) := by
      rw [← hplug, inorder_plug, inorder_plug, hp.before]
      rfl
    rw [returns_bind]
    refine (takeOut_returns hplace).mono ?_
    rintro _ m₁ ⟨hready, hkeeps₁⟩
    obtain ⟨b, hz₁⟩ := hready.going
    refine (takePlace_returns hready hl).mono ?_
    rintro _ m' ⟨hplace', hz', hkeeps'⟩
    refine ⟨⟨_, hplace', ?_⟩, ⟨_, hz'.trans hz₁, rfl⟩, (Keeps.refl _ _).trans
      (hkeeps₁.trans hkeeps' fun v hv => hv) fun v hv => ?_⟩
    · rw [hright]
      rfl
    · have hperm : (inorder (.node z l (.node x rl rr) : TreeT)).Perm
          (z :: y :: (inorder l ++ inorder (plug p u))) := by
        rw [inorder, hright]
        exact List.perm_middle.trans (List.perm_middle.cons z)
      exact hperm.mem_iff.mpr hv

/-- What `tree_remove` does with the node at the root. -/
def removeRoot (z : Ptr) : Tm σ Ptr := do
  let zn ← getNode z
  (if zn.left = 0 then replace z zn.right
  else if zn.right = 0 then replace z zn.left
  else removeInner z)
  let r := (← getNode z).data.record
  modifyTree fun t => { t with nodeCount := t.nodeCount - 1 }
  freeNode z
  return r

theorem addr_eq_zero {l : TreeT} (h0 : ∀ v ∈ inorder l, v.1 ≠ 0) : addr 0 l = 0 ↔ l = .nil :=
  ⟨fun h => by_contra fun hl => addr_ne_zero hl h0 h, fun h => by rw [h]; rfl⟩

/-- The links around the root are changed in one of three ways. -/
theorem unlink_returns {z : Ptr × Item} {l r : TreeT} (h : At m (.node z l r) []) :
    Returns (if addr 0 l = 0 then replace z.1 (addr 0 r)
      else if addr 0 r = 0 then replace z.1 (addr 0 l) else removeInner z.1) m
      fun _ m' => (∃ t', At m' t' [] ∧ inorder t' = inorder l ++ inorder r) ∧
        (∃ n, m'.node z.1 = some n ∧ n.data = z.2) ∧ Keeps (inorder (.node z l r)) m m' := by
  have hzero : ∀ v ∈ inorder (.node z l r : TreeT), v.1 ≠ 0 := fun v hv =>
    h.ne_zero v (List.mem_append_left _ hv)
  have hl := addr_eq_zero (l := l) fun v hv => hzero v (List.mem_append_left _ hv)
  have hr := addr_eq_zero (l := r) fun v hv =>
    hzero v (List.mem_append_right _ (List.mem_cons_of_mem z hv))
  have hz := h.holds.1
  by_cases hleft : addr 0 l = 0
  · rw [if_pos hleft]
    obtain rfl := hl.mp hleft
    have hjoin : At m (join .right z r .nil) [] := h
    refine (replace_returns hjoin).mono ?_
    rintro _ m' ⟨hplace, hz', hkeeps⟩
    exact ⟨⟨r, hplace, rfl⟩, ⟨_, hz'.trans hz, rfl⟩, hkeeps⟩
  · rw [if_neg hleft]
    by_cases hright : addr 0 r = 0
    · rw [if_pos hright]
      obtain rfl := hr.mp hright
      have hjoin : At m (join .left z l .nil) [] := h
      refine (replace_returns hjoin).mono ?_
      rintro _ m' ⟨hplace, hz', hkeeps⟩
      exact ⟨⟨l, hplace, (List.append_nil _).symm⟩, ⟨_, hz'.trans hz, rfl⟩, hkeeps⟩
    · rw [if_neg hright]
      exact removeInner_returns h (fun heq => hleft (hl.mpr heq)) fun heq => hright (hr.mpr heq)

theorem At.congr (h : At m t path)
    (hm : ∀ v ∈ inorder t ++ ParentTree.around path, m'.node v.1 = m.node v.1)
    (hroot : m'.tree.root = m.tree.root) : At m' t path :=
  ⟨h.holds.congr fun v hv => hm v (List.mem_append_left _ hv),
    h.around.congr fun v hv => hm v (List.mem_append_right _ hv), h.distinct, h.ne_zero,
    hroot.trans h.root⟩

theorem removeRoot_returns {z : Ptr × Item} {l r : TreeT} (h : IsTree m (.node z l r)) :
    Returns (removeRoot z.1) m fun a m' => a = z.2.record ∧ m'.rest = m.rest ∧
      ∃ t', inorder t' = inorder l ++ inorder r ∧ IsTree m' t' := by
  have hplace := h.place
  have hz0 : z.1 ≠ 0 := hplace.ne_zero z (by simp [inorder])
  rw [removeRoot, returns_bind, returns_of_eq (getNode_eq hz0 hplace.holds.1), returns_bind]
  refine (unlink_returns hplace).mono ?_
  rintro _ m₁ ⟨⟨t', hplace', horder⟩, ⟨n, hz, hdata⟩, hkeeps⟩
  have hcount : ∀ f : TreeObject → TreeObject,
      modifyTree f m₁ = some ((), { m₁ with tree := f m₁.tree }) := fun _ => rfl
  have hfree : freeNode z.1
      ({ m₁ with tree := { m₁.tree with nodeCount := m₁.tree.nodeCount - 1 } } : Memory σ) =
      some ((), {
        node := Function.update m₁.node z.1 none
        tree := { m₁.tree with nodeCount := m₁.tree.nodeCount - 1 }
        rest := m₁.rest }) := by
    rw [freeNode, if_neg hz0, hz]
    rfl
  rw [returns_bind, returns_of_eq (getNode_eq hz0 hz), hdata, returns_bind,
    returns_of_eq (hcount _), returns_bind, returns_of_eq hfree, returns_pure]
  have hd := h.place.distinct
  rw [around_nil, List.append_nil] at hd
  obtain ⟨hzne, -⟩ := distinct_cons.mp (hd.perm List.perm_middle)
  refine ⟨rfl, hkeeps.rest, t', horder, hplace'.congr (fun v hv => ?_) rfl, ?_, ?_, fun a ha => ?_⟩
  · rw [around_nil, List.append_nil, horder] at hv
    exact Function.update_of_ne (hzne v hv) _ _
  · rw [horder]
    have hs : Sorted Item.key (inorder l ++ z :: inorder r) := h.sorted
    exact hs.sublist ((List.sublist_cons_self z (inorder r)).append_left _)
  · show m₁.tree.nodeCount - 1 = _
    have hlen : (inorder (.node z l r : TreeT)).length = (inorder t').length + 1 := by
      rw [horder, inorder]
      simp [Nat.add_assoc]
    rw [hkeeps.tree]
    show m.tree.nodeCount - 1 = _
    rw [h.count, hlen, UInt64.ofNat_add]
    exact UInt64.add_sub_cancel _ _
  · by_cases haz : a = z.1
    · rw [haz]
      exact Function.update_self ..
    · have hnot : ∀ v ∈ inorder (.node z l r : TreeT), v.1 ≠ a := by
        intro v hv
        rcases List.mem_cons.mp (List.perm_middle.mem_iff.mp hv) with rfl | hv
        · exact fun heq => haz heq.symm
        · exact ha v (horder ▸ hv)
      refine (Function.update_of_ne haz _ _).trans ?_
      rw [hkeeps.node a hnot]
      exact h.all a hnot

theorem Distinct.eq_of_addr {l : List (Ptr × Item)} (h : Distinct l) {v w : Ptr × Item}
    (hv : v ∈ l) (hw : w ∈ l) (heq : v.1 = w.1) : v = w :=
  List.inj_on_of_nodup_map h hv hw heq

theorem IsTree.distinct (h : IsTree m t) : Distinct (inorder t) := by
  have hd := h.place.distinct
  rwa [around_nil, List.append_nil] at hd

/-- Splaying leaves a tree of the same nodes in the same order. -/
theorem IsTree.splayed {t₁ t₂ : TreeT} {a : Ptr} (h : IsTree m t) (hplug : plug path t₁ = t)
    (hraised : Raised m m' a t₁ path t₂ []) : inorder t₂ = inorder t ∧ IsTree m' t₂ := by
  have hkeeps := hraised.keeps
  have horder := hraised.inorder
  rw [hplug] at hkeeps horder
  have horder' : inorder t₂ = inorder t := horder
  refine ⟨horder', hraised.at', horder' ▸ h.sorted, ?_, fun a ha => ?_⟩
  · rw [hkeeps.tree, horder']
    exact h.count
  · rw [horder'] at ha
    exact (hkeeps.node a ha).trans (h.all a ha)

/-- **Removing** takes the node with the key out and frees it. -/
theorem treeRemove_returns (h : IsTree m t) (key : Int) :
    Returns (treeRemove key) m fun a m' => m'.rest = m.rest ∧
      ((a = 0 ∧ (∀ v ∈ inorder t, v.2.key ≠ key) ∧ IsTree m' t) ∨
        ∃ l₁ z l₂ t', inorder t = l₁ ++ z :: l₂ ∧ z.2.key = key ∧ a = z.2.record ∧
          inorder t' = l₁ ++ l₂ ∧ IsTree m' t') := by
  rw [treeRemove, returns_bind, returns_of_eq getTree_eq, h.root, returns_bind]
  refine (removeLoop_returns (h.searching key) h.place.length_lt).mono ?_
  rintro _ m₁ ⟨t₁, path, hfound, rfl⟩
  have hcounted := h.counted hfound.counted
  cases t₁ with
  | nil =>
    have haddr : addr 0 (.nil : TreeT) = 0 := rfl
    rw [haddr, if_pos rfl, returns_pure]
    exact ⟨hfound.counted.rest, Or.inl ⟨rfl, hfound.located.not_mem, hcounted⟩⟩
  | node z l r =>
    obtain ⟨w, l', r', heq, hkey⟩ := hfound.located.found.resolve_left nofun
    cases heq
    have hplug := hfound.located.plug_eq
    have hz0 : z.1 ≠ 0 := hfound.place.ne_zero z (by simp [inorder])
    have haddr : addr 0 (.node z l r : TreeT) = z.1 := rfl
    rw [haddr, if_neg hz0, returns_bind]
    refine (splay_returns hfound.place).mono ?_
    rintro _ m₂ ⟨t₂, hraised⟩
    obtain ⟨y, l₂, r₂, rfl, hy⟩ := eq_node hz0 hraised.addr
    obtain ⟨horder, htree⟩ := hcounted.splayed hplug hraised
    have hyz : y = z := by
      refine Distinct.eq_of_addr h.distinct ?_ ?_ hy
      · rw [← horder]
        simp [inorder]
      · rw [← hplug, (perm_plug path _).mem_iff]
        simp [inorder]
    subst hyz
    refine (removeRoot_returns htree).mono ?_
    rintro _ m' ⟨rfl, hrest, t', ht', htree'⟩
    have hrest₂ : m₂.rest = m.rest := hraised.keeps.rest.trans hfound.counted.rest
    exact ⟨hrest.trans hrest₂, Or.inr ⟨inorder l₂, y, inorder r₂, t', horder.symm, hkey, rfl, ht',
      htree'⟩⟩

end Driver
end Cmpsc473
