import Cmpsc473.Driver.SplayTree
import Mathlib.Data.Fintype.Card

/-!
# Splaying

A rotation of the program is a rotation of the tree that memory holds, wherever in the
tree it is made, and `splay` brings a node to the root without a change to the order of
the nodes.
-/

namespace Cmpsc473
namespace Driver

open Total ParentTree

variable {σ : Type} {m : Memory σ} {p q : Ptr} {n : NodeT}

/-- The trees of the program. -/
abbrev TreeT := Labelled Ptr Item

abbrev FrameT := ParentTree.Frame Ptr Item

theorem getNode_eq (hp : p ≠ 0) (h : m.node p = some n) : getNode p m = some (n, m) := by
  rw [getNode, if_neg hp, h]
  rfl

theorem modifyNode_eq {f : NodeT → NodeT} (hp : p ≠ 0) (h : m.node p = some n) :
    modifyNode p f m =
      some ((), { m with node := Function.update m.node p (some (f n)) }) := by
  rw [modifyNode, if_neg hp, h]
  rfl

theorem adopt_eq {b : TreeT} (hb : Holds 0 m.node b q) (h0 : ∀ v ∈ inorder b, v.1 ≠ 0) (p : Ptr) :
    adopt (addr 0 b) p m = some ((), { m with node := reparent m.node b p }) := by
  cases b with
  | nil => rfl
  | node v l r =>
    have hv : v.1 ≠ 0 := h0 v (by simp [inorder])
    show (if v.1 ≠ 0 then modifyNode v.1 _ else pure ()) m = _
    rw [if_pos hv, modifyNode_eq hv hb.1, reparent, hb.1]
    rfl

/-- A program is at a place of its tree: memory holds the subtree there and what is around
it. -/
structure At (m : Memory σ) (t : TreeT) (path : List FrameT) : Prop where
  holds : Holds 0 m.node t (above 0 path)
  around : HoldsPath 0 m.node path (addr 0 t)
  distinct : Distinct (inorder t ++ ParentTree.around path)
  ne_zero : ∀ v ∈ inorder t ++ ParentTree.around path, v.1 ≠ 0
  root : m.tree.root = addr 0 (plug path t)

/-- The change of a pointer to a subtree, in the node above it or in `tree`. -/
def hung (m : Memory σ) (path : List FrameT) (y : Ptr) : Memory σ :=
  { m with
    node := relink m.node path y
    tree := { m.tree with root := if path = [] then y else m.tree.root } }

/-- The pointers to a node tell the side that it is on. -/
theorem left_eq_iff {f : FrameT} {x : Ptr} {d : Item} {p : Ptr} (hx : x ≠ 0)
    (hs : ∀ v ∈ inorder f.sibling, v.1 ≠ x) :
    (Node.of f.side x (addr 0 f.sibling) p d).left = x ↔ f.side = .left := by
  have hsib : addr 0 f.sibling ≠ x := by
    cases hs' : f.sibling with
    | nil => exact fun h => hx h.symm
    | node v l r => exact hs v (by rw [hs']; simp [inorder])
  cases f.side with
  | left => exact ⟨fun _ => rfl, fun _ => rfl⟩
  | right => exact ⟨fun h => absurd h hsib, fun h => by cases h⟩

theorem right_eq_iff {f : FrameT} {x : Ptr} {d : Item} {p : Ptr} (hx : x ≠ 0)
    (hs : ∀ v ∈ inorder f.sibling, v.1 ≠ x) :
    (Node.of f.side x (addr 0 f.sibling) p d).right = x ↔ f.side = .right := by
  have hsib : addr 0 f.sibling ≠ x := by
    cases hs' : f.sibling with
    | nil => exact fun h => hx h.symm
    | node v l r => exact hs v (by rw [hs']; simp [inorder])
  cases f.side with
  | left => exact ⟨fun h => absurd h hsib, fun h => by cases h⟩
  | right => exact ⟨fun _ => rfl, fun _ => rfl⟩

theorem hang_eq {path : List FrameT} {x : Ptr} (hx : x ≠ 0) (hn : m.node x = some n)
    (hparent : n.parent = above 0 path) (hpath : HoldsPath 0 m.node path x)
    (h0 : ∀ v ∈ ParentTree.around path, v.1 ≠ 0) (hne : ∀ v ∈ ParentTree.around path, v.1 ≠ x)
    (y : Ptr) : hang x y m = some ((), hung m path y) := by
  rw [hang, bind_of_some (getNode_eq hx hn), hparent]
  cases path with
  | nil => rfl
  | cons f path =>
    obtain ⟨hf, -⟩ := hpath
    have hp : f.value.1 ≠ 0 := h0 f.value (mem_around.mpr (Or.inl rfl))
    have hleft := left_eq_iff (d := f.value.2) (p := above 0 path) hx
      fun v hv => hne v (mem_around.mpr (Or.inr (Or.inl hv)))
    have habove : above 0 (f :: path) = f.value.1 := rfl
    rw [habove, if_neg hp, bind_of_some (getNode_eq hp hf), hung, relink, hf]
    by_cases hside : f.side = .left
    · rw [if_pos (hleft.mpr hside).symm, modifyNode_eq hp hf, hside]
      rfl
    · have hright : f.side = .right := Side.eq_other hside
      rw [if_neg fun h => hside (hleft.mp h.symm), modifyNode_eq hp hf, hright]
      rfl

theorem addr_plug {path : List FrameT} {t t' : TreeT} :
    addr 0 (plug path t') = if path = [] then addr 0 t' else addr 0 (plug path t) := by
  cases path with
  | nil => rfl
  | cons f path =>
    rw [if_neg (List.cons_ne_nil f path)]
    have hattach : ∀ u : TreeT, addr 0 (f.attach u) = f.value.1 := fun u => addr_join _ _ _ _
    have hplug : ∀ (path : List FrameT) (u u' : TreeT), addr 0 u = addr 0 u' →
        addr 0 (plug path u) = addr 0 (plug path u') := by
      intro path
      induction path with
      | nil => exact fun _ _ h => h
      | cons g path ih =>
        intro u u' _
        exact ih _ _ ((addr_join _ _ _ _).trans (addr_join _ _ _ _).symm)
    exact hplug path _ _ ((hattach t').trans (hattach t).symm)

section Rotate

variable {f : FrameT} {path : List FrameT} {x : Ptr × Item} {t u : TreeT}

/-- The memory after a rotation. -/
def turned (m : Memory σ) (f : FrameT) (path : List FrameT) (x : Ptr × Item) (t u : TreeT) :
    Memory σ :=
  { m with
    node := rotated 0 m.node f path x t u
    tree := { m.tree with root := if path = [] then x.1 else m.tree.root } }

theorem At.x_ne_zero (h : At m (join f.side x t u) (f :: path)) : x.1 ≠ 0 :=
  h.ne_zero x (List.mem_append_left _ (mem_join.mpr (Or.inl rfl)))

theorem At.f_ne_zero {t : TreeT} (h : At m t (f :: path)) : f.value.1 ≠ 0 :=
  h.ne_zero f.value (List.mem_append_right _ (mem_around.mpr (Or.inl rfl)))

/-- The first part of a rotation. -/
theorem rotateChild_eq (h : At m (join f.side x t u) (f :: path)) :
    rotateChild f.side f.value.1 x.1 m =
      some ((), { m with node := lifted 0 m.node f path x t u }) := by
  obtain ⟨hx, -, hu⟩ := holds_join.mp h.holds
  obtain ⟨hf, -⟩ := h.around
  rw [addr_join] at hf
  have ha := h.distinct.apart
  have hx0 := h.x_ne_zero
  have hf0 := h.f_ne_zero
  have hu0 : ∀ v ∈ inorder u, v.1 ≠ 0 := fun v hv =>
    h.ne_zero v (List.mem_append_left _ (mem_join.mpr (Or.inr (Or.inr hv))))
  rw [rotateChild, bind_of_some (getNode_eq hx0 hx), bind_of_some (modifyNode_eq hf0 hf),
    Node.child_of_other, Node.setChild_of]
  generalize hm₁ : Function.update m.node f.value.1
    (some (.of f.side (addr 0 u) (addr 0 f.sibling) (above 0 path) f.value.2)) = m₁
  have hx₁ : m₁ x.1 = some (.of f.side (addr 0 t) (addr 0 u) f.value.1 x.2) := by
    rw [← hm₁, Function.update_of_ne ha.x_ne.symm, hx]
    rfl
  have hf₁ : m₁ f.value.1 =
      some (.of f.side (addr 0 u) (addr 0 f.sibling) (above 0 path) f.value.2) := by
    rw [← hm₁, Function.update_self]
  have hu₁ : Holds 0 m₁ u x.1 := by
    rw [← hm₁]
    exact hu.congr fun v hv => Function.update_of_ne (ha.f_u v hv) _ _
  rw [bind_of_some (getNode_eq hx0 hx₁), Node.child_of_other, bind_of_some (adopt_eq hu₁ hu0 _)]
  have hf₂ := (reparent_of_notMem (q := f.value.1) ha.f_u).trans hf₁
  have hx₂ := (reparent_of_notMem (q := f.value.1) ha.x_u).trans hx₁
  rw [bind_of_some (getNode_eq hf0 hf₂), modifyNode_eq hx0 hx₂, Node.parent_of, Node.setParent_of,
    lifted, hm₁]

theorem rotate_eq (h : At m (join f.side x t u) (f :: path)) :
    rotate f.side f.value.1 m = some ((), turned m f path x t u) := by
  obtain ⟨hf, -, hpath⟩ := h.around
  rw [addr_join] at hf
  have ha := h.distinct.apart
  have hx0 := h.x_ne_zero
  have hf0 := h.f_ne_zero
  have hpath0 : ∀ v ∈ ParentTree.around path, v.1 ≠ 0 := fun v hv =>
    h.ne_zero v (List.mem_append_right _ (mem_around.mpr (Or.inr (Or.inr hv))))
  rw [rotate, bind_of_some (getNode_eq hf0 hf), Node.child_of, if_pos hx0,
    bind_of_some (rotateChild_eq h), bind_of_some (hang_eq hf0 ha.lifted_f (Node.parent_of ..)
    (ha.lifted_path hpath) hpath0 ha.f_path x.1), if_pos hx0, hung]
  generalize hm₃ : lifted 0 m.node f path x t u = m₃
  have hx₄ : relink m₃ path x.1 x.1 =
      some (.of f.side (addr 0 t) (addr 0 u) (above 0 path) x.2) := by
    rw [relink_of_notMem ha.x_path, ← hm₃]
    exact lifted_x
  have hf₄ : relink m₃ path x.1 f.value.1 =
      some (.of f.side (addr 0 u) (addr 0 f.sibling) (above 0 path) f.value.2) := by
    rw [relink_of_notMem ha.f_path, ← hm₃]
    exact ha.lifted_f
  rw [bind_of_some (modifyNode_eq hx0 hx₄), Node.setChild_of_other]
  have hf₅ := (Function.update_of_ne ha.x_ne
    (some (Node.of f.side (addr 0 t) f.value.1 (above 0 path) x.2)) _).trans hf₄
  rw [modifyNode_eq hf0 hf₅, Node.setParent_of, turned, rotated, hm₃]

/-- **A rotation of the program** is a rotation of the tree, at the same place. -/
theorem At.turned (h : At m (join f.side x t u) (f :: path)) :
    At (turned m f path x t u) (join f.side.other x (join f.side f.value u f.sibling) t) path := by
  have hpath := h.around
  rw [addr_join] at hpath
  obtain ⟨hholds, haround⟩ := h.distinct.apart.holds_rotated h.holds hpath
  have hperm : (inorder (join f.side x t u) ++ ParentTree.around (f :: path)).Perm
      (inorder (join f.side.other x (join f.side f.value u f.sibling) t) ++
        ParentTree.around path) := perm_frame (inorder_rotate ..)
  refine ⟨hholds, by rwa [addr_join], h.distinct.perm hperm,
    fun v hv => h.ne_zero v (hperm.mem_iff.mpr hv), ?_⟩
  show (if path = [] then x.1 else m.tree.root) = _
  rw [addr_plug (t := f.attach (join f.side x t u)), addr_join]
  split
  · rfl
  · exact h.root

end Rotate

section Places

variable {f : FrameT} {path : List FrameT} {t : TreeT}

/-- A step to the node above. -/
theorem At.up (h : At m t (f :: path)) : At m (f.attach t) path := by
  obtain ⟨hf, hs, hpath⟩ := h.around
  have hperm : (inorder t ++ ParentTree.around (f :: path)).Perm
      (inorder (f.attach t) ++ ParentTree.around path) := perm_frame rfl
  exact {
    holds := holds_join.mpr ⟨hf, h.holds, hs⟩
    around := by rwa [ParentTree.Frame.attach, addr_join]
    distinct := h.distinct.perm hperm
    ne_zero := fun v hv => h.ne_zero v (hperm.mem_iff.mpr hv)
    root := h.root }

/-- A step down. -/
theorem At.down (h : At m (f.attach t) path) : At m t (f :: path) := by
  obtain ⟨hf, ht, hs⟩ := holds_join.mp h.holds
  have hpath := h.around
  rw [ParentTree.Frame.attach, addr_join] at hpath
  have hperm : (inorder t ++ ParentTree.around (f :: path)).Perm
      (inorder (f.attach t) ++ ParentTree.around path) := perm_frame rfl
  exact {
    holds := ht
    around := ⟨hf, hs, hpath⟩
    distinct := h.distinct.perm hperm.symm
    ne_zero := fun v hv => h.ne_zero v (hperm.mem_iff.mp hv)
    root := h.root }

/-- Nothing but the nodes of a list changes, and the root. -/
structure Keeps (l : List (Ptr × Item)) (m m' : Memory σ) : Prop where
  node : ∀ a, (∀ v ∈ l, v.1 ≠ a) → m'.node a = m.node a
  tree : m'.tree = { m.tree with root := m'.tree.root }
  rest : m'.rest = m.rest

theorem Keeps.refl (l : List (Ptr × Item)) (m : Memory σ) : Keeps l m m := ⟨fun _ _ => rfl, rfl, rfl⟩

theorem Keeps.trans {l l' : List (Ptr × Item)} {m m' m'' : Memory σ} (h : Keeps l m m')
    (h' : Keeps l' m' m'') (hl : ∀ v ∈ l', v ∈ l) : Keeps l m m'' where
  node a ha := (h'.node a fun v hv => ha v (hl v hv)).trans (h.node a ha)
  tree := by rw [h'.tree, h.tree]
  rest := h'.rest.trans h.rest

theorem inorder_plug_congr (path : List FrameT) {t t' : TreeT} (h : inorder t' = inorder t) :
    inorder (plug path t') = inorder (plug path t) := by
  rw [inorder_plug, inorder_plug, h]

theorem turned_keeps (m : Memory σ) (f : FrameT) (path : List FrameT) (x : Ptr × Item)
    (t u : TreeT) :
    Keeps (inorder (plug (f :: path) (join f.side x t u))) m (turned m f path x t u) := by
  have hperm := perm_plug (f :: path) (join f.side x t u)
  refine ⟨fun a ha => ?_, rfl, rfl⟩
  have hin : ∀ v ∈ inorder (join f.side x t u) ++ ParentTree.around (f :: path), v.1 ≠ a :=
    fun v hv => ha v (hperm.mem_iff.mpr hv)
  refine rotated_of_ne (hin x ?_).symm (hin f.value ?_).symm (fun v hv => hin v ?_)
    fun v hv => hin v ?_
  · exact List.mem_append_left _ (mem_join.mpr (Or.inl rfl))
  · exact List.mem_append_right _ (mem_around.mpr (Or.inl rfl))
  · exact List.mem_append_left _ (mem_join.mpr (Or.inr (Or.inr hv)))
  · exact List.mem_append_right _ (mem_around.mpr (Or.inr (Or.inr hv)))

/-- A rotation at the node above a place. -/
theorem rotate_returns {x : Ptr × Item} {l r : TreeT} (h : At m (.node x l r) (f :: path)) :
    Returns (rotate f.side f.value.1) m fun _ m' => ∃ t', addr 0 t' = x.1 ∧ At m' t' path ∧
      inorder t' = inorder (f.attach (.node x l r)) ∧
      Keeps (inorder (plug (f :: path) (.node x l r))) m m' := by
  obtain ⟨t, u, hjoin⟩ := exists_join f.side x l r
  rw [hjoin] at h ⊢
  exact ⟨(), _, rotate_eq h, _, addr_join _ _ _ _, h.turned, inorder_rotate _ _ _ _ _ _,
    turned_keeps _ _ _ _ _ _⟩

end Places

section Splay

variable {f g : FrameT} {path : List FrameT} {t : TreeT} {x : Ptr × Item} {l r : TreeT}

theorem At.ne (h : At m (.node x l r) (f :: path)) : ∀ v ∈ inorder f.sibling, v.1 ≠ x.1 := by
  intro v hv
  obtain ⟨-, -, hne⟩ := distinct_append.mp h.distinct
  exact (hne x (by simp [inorder]) v (mem_around.mpr (Or.inr (Or.inl hv)))).symm

/-- The node at a place, and the one above it. -/
theorem At.node (h : At m (.node x l r) (f :: path)) :
    x.1 ≠ 0 ∧ f.value.1 ≠ 0 ∧
      m.node x.1 = some ⟨addr 0 l, addr 0 r, f.value.1, x.2⟩ ∧
      m.node f.value.1 =
        some (.of f.side x.1 (addr 0 f.sibling) (above 0 path) f.value.2) :=
  ⟨h.ne_zero x (by simp [inorder]), h.f_ne_zero, h.holds.1, h.around.1⟩

theorem splayRound_one (h : At m (.node x l r) [f]) :
    splayRound x.1 m = rotate f.side f.value.1 m := by
  obtain ⟨hx0, hf0, hx, hf⟩ := h.node
  have habove : above 0 ([] : List FrameT) = 0 := rfl
  have hleft := left_eq_iff (d := f.value.2) (p := above 0 ([] : List FrameT)) hx0 h.ne
  rw [splayRound, bind_of_some (getNode_eq hx0 hx), bind_of_some (getNode_eq hf0 hf),
    Node.parent_of, if_pos habove]
  by_cases hside : f.side = .left
  · rw [if_pos (hleft.mpr hside), hside]
    rfl
  · rw [if_neg fun h => hside (hleft.mp h), Side.eq_other hside]
    rfl

theorem splayRound_two (h : At m (.node x l r) (f :: g :: path)) :
    splayRound x.1 m = (do
      (if f.side = g.side then rotate g.side g.value.1 else rotate f.side f.value.1)
      rotate g.side (← getNode x.1).parent) m := by
  obtain ⟨hx0, hf0, hx, hf⟩ := h.node
  have hup := h.up
  have hg0 : g.value.1 ≠ 0 := hup.f_ne_zero
  have hg := hup.around.1
  rw [ParentTree.Frame.attach, addr_join] at hg
  have hne : ∀ v ∈ inorder g.sibling, v.1 ≠ f.value.1 := by
    intro v hv
    obtain ⟨-, -, hne⟩ := distinct_append.mp hup.distinct
    exact (hne f.value (mem_join.mpr (Or.inl rfl)) v (mem_around.mpr (Or.inr (Or.inl hv)))).symm
  have hleft := left_eq_iff (d := f.value.2) (p := above 0 (g :: path)) hx0 h.ne
  have hright := right_eq_iff (d := f.value.2) (p := above 0 (g :: path)) hx0 h.ne
  have hleft' := left_eq_iff (d := g.value.2) (p := above 0 path) hf0 hne
  have hright' := right_eq_iff (d := g.value.2) (p := above 0 path) hf0 hne
  have habove : above 0 (g :: path) = g.value.1 := rfl
  rw [splayRound, bind_of_some (getNode_eq hx0 hx), bind_of_some (getNode_eq hf0 hf),
    Node.parent_of, habove, if_neg hg0, bind_of_some (getNode_eq hg0 hg)]
  rw [← habove]
  simp only [hleft, hright, hleft', hright']
  cases hf : f.side <;> cases hg : g.side <;> rfl

/-- A tree whose address is that of a node. -/
theorem eq_node {t : TreeT} (h0 : x.1 ≠ 0) (h : addr 0 t = x.1) :
    ∃ y l r, t = .node y l r ∧ y.1 = x.1 := by
  cases t with
  | nil => exact absurd h.symm h0
  | node y l r => exact ⟨y, l, r, rfl, h⟩

/-- The second rotation of a round. -/
theorem rotate_parent {s : Side} (h : At m t (f :: path)) (hs : f.side = s) (h0 : x.1 ≠ 0)
    (hx : addr 0 t = x.1) :
    Returns (do rotate s (← getNode x.1).parent) m fun _ m' => ∃ t', addr 0 t' = x.1 ∧
      At m' t' path ∧ inorder t' = inorder (f.attach t) ∧
      Keeps (inorder (plug (f :: path) t)) m m' := by
  obtain ⟨y, l, r, rfl, hy⟩ := eq_node h0 hx
  obtain ⟨-, -, hnode, -⟩ := h.node
  rw [hy] at hnode
  rw [returns_bind, returns_of_eq (getNode_eq h0 hnode), ← hs, ← hy]
  exact rotate_returns h

/-- What has come up with its order, and nothing else changed. -/
structure Raised (m m' : Memory σ) (x : Ptr) (t : TreeT) (path : List FrameT) (t' : TreeT)
    (path' : List FrameT) : Prop where
  at' : At m' t' path'
  addr : addr 0 t' = x
  inorder : inorder (plug path' t') = inorder (plug path t)
  keeps : Keeps (ParentTree.inorder (plug path t)) m m'

/-- **A round** brings the node up. -/
theorem splayRound_returns (h : At m (.node x l r) (f :: path)) :
    Returns (splayRound x.1) m fun _ m' => ∃ t' path', path'.length < (f :: path).length ∧
      Raised m m' x.1 (.node x l r) (f :: path) t' path' := by
  cases path with
  | nil =>
    obtain ⟨_, m', hrun, t', haddr, hat, horder, hkeeps⟩ := rotate_returns h
    exact ⟨(), m', (splayRound_one h).trans hrun, t', [], Nat.zero_lt_one, hat, haddr, horder,
      hkeeps⟩
  | cons g path =>
    obtain ⟨hx0, -, -, -⟩ := h.node
    have hrun := splayRound_two h
    by_cases hside : f.side = g.side
    · rw [if_pos hside] at hrun
      have hup := h.up
      rw [ParentTree.Frame.attach, hside] at hup
      have hdown := hup.turned
      rw [join_other] at hdown
      have hdown : At _ (.node x l r)
          (⟨g.side, f.value, join g.side g.value f.sibling g.sibling⟩ :: path) := hdown.down
      have hsecond := rotate_parent hdown rfl hx0 rfl
      rw [Returns, hrun, bind_of_some (rotate_eq hup)]
      obtain ⟨_, m', hrun', t', haddr, hat, horder, hkeeps⟩ := hsecond
      have hrotate : inorder (ParentTree.Frame.attach
          ⟨g.side, f.value, join g.side g.value f.sibling g.sibling⟩ (.node x l r)) =
          inorder (g.attach (f.attach (.node x l r))) := by
        rw [ParentTree.Frame.attach, ← join_other, inorder_rotate,
          ParentTree.Frame.attach, ParentTree.Frame.attach, hside]
      have hfirst : Keeps (inorder (plug (f :: g :: path) (.node x l r))) m
          (Driver.turned m g path f.value (.node x l r) f.sibling) := by
        have hkeeps := turned_keeps m g path f.value (.node x l r) f.sibling
        rwa [← hside] at hkeeps
      refine ⟨(), m', hrun', t', path, by simp only [List.length_cons]; omega, hat, haddr,
        inorder_plug_congr path (horder.trans hrotate), hfirst.trans hkeeps fun v hv => ?_⟩
      exact (inorder_plug_congr path hrotate) ▸ hv
    · rw [if_neg hside] at hrun
      rw [Returns, hrun]
      show Returns _ m _
      rw [returns_bind]
      refine (rotate_returns h).mono ?_
      rintro _ m₁ ⟨t₁, haddr₁, hat₁, horder₁, hkeeps₁⟩
      refine (rotate_parent hat₁ rfl hx0 haddr₁).mono ?_
      rintro _ m' ⟨t', haddr, hat, horder, hkeeps⟩
      have hraised : inorder (plug (g :: path) t₁) =
          inorder (plug (g :: path) (f.attach (.node x l r))) := inorder_plug_congr _ horder₁
      exact ⟨t', path, by simp only [List.length_cons]; omega, hat, haddr,
        (inorder_plug_congr path horder).trans hraised, hkeeps₁.trans hkeeps fun v hv => hraised ▸ hv⟩

/-- There are fewer nodes than addresses. -/
theorem length_lt_rounds {l : List (Ptr × Item)} (hd : Distinct l) (h0 : ∀ v ∈ l, v.1 ≠ 0) :
    l.length < walkRounds := by
  have hnd : ((0 :: l.map Prod.fst).map UInt64.toFin).Nodup := by
    refine List.Nodup.map (fun a b h => UInt64.toFin_inj.mp h) (List.nodup_cons.mpr ⟨?_, hd⟩)
    intro hmem
    obtain ⟨v, hv, hv0⟩ := List.mem_map.mp hmem
    exact h0 v hv hv0
  have hlen := hnd.length_le_card
  rw [List.length_map, List.length_cons, List.length_map, Fintype.card_fin] at hlen
  exact hlen

theorem splayLoop_returns {rounds : Nat} (h : At m (.node x l r) path)
    (hlen : path.length < rounds) :
    Returns (splayLoop x.1 rounds) m fun _ m' => ∃ t', Raised m m' x.1 (.node x l r) path t' [] := by
  induction rounds generalizing m x l r path with
  | zero => omega
  | succ rounds ih =>
    have hx0 : x.1 ≠ 0 := h.ne_zero x (by simp [inorder])
    rw [splayLoop, returns_bind, returns_of_eq (getNode_eq hx0 h.holds.1)]
    cases path with
    | nil =>
      have habove : above 0 ([] : List FrameT) = 0 := rfl
      rw [if_neg (not_not.mpr habove), returns_pure]
      exact ⟨_, h, rfl, rfl, Keeps.refl _ _⟩
    | cons f path =>
      have hparent : above 0 (f :: path) ≠ 0 := h.f_ne_zero
      rw [if_pos hparent, returns_bind]
      refine (splayRound_returns h).mono ?_
      rintro _ m₁ ⟨t₁, path₁, hlt, h₁⟩
      obtain ⟨y, l₁, r₁, rfl, hy⟩ := eq_node hx0 h₁.addr
      rw [← hy]
      refine (ih h₁.at' (by rw [List.length_cons] at hlen hlt; omega)).mono ?_
      rintro _ m' ⟨t', h'⟩
      exact ⟨t', h'.at', h'.addr, h'.inorder.trans h₁.inorder,
        h₁.keeps.trans h'.keeps fun v hv => h₁.inorder ▸ hv⟩

/-- **Splaying** brings a node to the root.  The order of the nodes does not change. -/
theorem splay_returns (h : At m (.node x l r) path) :
    Returns (splay x.1) m fun _ m' => ∃ t', Raised m m' x.1 (.node x l r) path t' [] := by
  have hlen := length_lt_rounds h.distinct h.ne_zero
  have hpath := length_le_around path
  rw [List.length_append] at hlen
  exact splayLoop_returns h (by omega)

end Splay

end Driver
end Cmpsc473
