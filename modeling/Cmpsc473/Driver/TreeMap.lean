import Cmpsc473.Driver.Search

/-!
# The tree is a finite map

Every function of `stree.c` finds, inserts or removes a record under its key, with the
nodes in the order of their keys throughout.  No node is lost, none is used after it has
been freed, and every walk ends.
-/

namespace Cmpsc473
namespace Driver

open Total ParentTree

variable {σ : Type} {m m' : Memory σ} {t : TreeT} {path : List FrameT}

/-- The tree is what memory holds, in the order of the keys, and there is no other node. -/
structure IsTree (m : Memory σ) (t : TreeT) : Prop where
  place : At m t []
  sorted : Sorted Item.key (inorder t)
  count : m.tree.nodeCount = UInt64.ofNat (inorder t).length
  all : ∀ a, (∀ v ∈ inorder t, v.1 ≠ a) → m.node a = none

theorem IsTree.searching (h : IsTree m t) (key : Int) : Searching key t m t [] :=
  ⟨h.place, h.sorted, rfl, between_nil⟩

theorem IsTree.root (h : IsTree m t) : m.tree.root = addr 0 t := h.place.root

theorem IsTree.counted (h : IsTree m t) (hc : Counted m m') : IsTree m' t := by
  obtain ⟨c, rfl⟩ := hc
  exact ⟨h.place.counted c, h.sorted, h.count, h.all⟩

theorem Counted.rest (h : Counted m m') : m'.rest = m.rest := by
  obtain ⟨c, rfl⟩ := h
  rfl

theorem Counted.node (h : Counted m m') : m'.node = m.node := by
  obtain ⟨c, rfl⟩ := h
  rfl

theorem Counted.nodeCount (h : Counted m m') : m'.tree.nodeCount = m.tree.nodeCount := by
  obtain ⟨c, rfl⟩ := h
  rfl

theorem At.withCount (h : At m t path) (c : UInt64) :
    At { m with tree := { m.tree with nodeCount := c } } t path :=
  ⟨h.holds, h.around, h.distinct, h.ne_zero, h.root⟩

theorem getTree_eq : getTree m = some (m.tree, m) := rfl

section Insert

variable {key : Int} {record : Ptr} {r : Malloc NodeT} {z : Ptr} {zn : NodeT} {v : Ptr × Item}

/-- The link to a new node, on the side of its key. -/
def linkNew (p z : Ptr) : Tm σ Unit :=
  if p = 0 then setRoot z
  else do
    let pn ← getNode p
    let zn ← getNode z
    if pn.data.key < zn.data.key then modifyNode p fun n => { n with right := z }
    else modifyNode p fun n => { n with left := z }

theorem linkNew_eq (hz : z ≠ 0) (hzn : m.node z = some zn) (hkey : zn.data.key = key)
    (hpath : HoldsPath 0 m.node path 0) (h0 : ∀ v ∈ around path, v.1 ≠ 0)
    (hb : Between Item.key key path) :
    linkNew (above 0 path) z m = some ((), hung m path z) := by
  cases path with
  | nil => rfl
  | cons f path =>
    obtain ⟨hf, -⟩ := hpath
    have habove : above 0 (f :: path) = f.value.1 := rfl
    have hp : f.value.1 ≠ 0 := h0 f.value (mem_around.mpr (Or.inl rfl))
    rw [linkNew, habove, if_neg hp, bind_of_some (getNode_eq hp hf),
      bind_of_some (getNode_eq hz hzn), hung, relink, hf, hkey, Node.data_of]
    cases hside : f.side with
    | left =>
      have hlt : key < f.value.2.key := hb.after f.value (by simp [after, hside])
      rw [if_neg (by omega), modifyNode_eq hp hf, hside]
      rfl
    | right =>
      have hlt : f.value.2.key < key := hb.before f.value (by simp [before, hside])
      rw [if_pos hlt, modifyNode_eq hp hf, hside]
      rfl

/-- The memory with a new node that no pointer leads to yet. -/
def withNode (m : Memory σ) (v : Ptr × Item) (p : Ptr) : Memory σ :=
  { m with node := Function.update m.node v.1 (some ⟨0, 0, p, v.2⟩) }

theorem withNode_self (v : Ptr × Item) (p : Ptr) :
    (withNode m v p).node v.1 = some ⟨0, 0, p, v.2⟩ := Function.update_self ..

theorem withNode_of_ne {a p : Ptr} (h : a ≠ v.1) : (withNode m v p).node a = m.node a :=
  Function.update_of_ne h _ _

/-- A node that is not allocated is not in the tree. -/
theorem At.fresh (h : At m .nil path) (hfresh : m.node v.1 = none) :
    ∀ w ∈ ParentTree.around path, w.1 ≠ v.1 := by
  intro w hw heq
  obtain ⟨n, -, hn, -⟩ := h.data ((perm_plug path .nil).mem_iff.mpr hw)
  rw [heq, hfresh] at hn
  cases hn

theorem At.around_withNode {p : Ptr} (h : At m .nil path) (hfresh : m.node v.1 = none) :
    HoldsPath 0 (withNode m v p).node path 0 :=
  h.around.congr fun w hw => withNode_of_ne (h.fresh hfresh w hw)

/-- The place of the new node. -/
theorem At.insert (h : At m .nil path) (hv : v.1 ≠ 0) (hfresh : m.node v.1 = none) :
    At (hung (withNode m v (above 0 path)) path v.1) (.node v .nil .nil) path := by
  have hne := h.fresh hfresh
  refine ⟨⟨?_, trivial, trivial⟩, (h.around_withNode hfresh).relink v.1 h.distinct,
    distinct_cons.mpr ⟨hne, h.distinct⟩, ?_, ?_⟩
  · exact (relink_of_notMem hne).trans (withNode_self v _)
  · intro w hw
    rcases List.mem_cons.mp hw with rfl | hw
    · exact hv
    · exact h.ne_zero w hw
  · show (if path = [] then v.1 else m.tree.root) = _
    rw [addr_plug (t := .nil)]
    split
    · rfl
    · exact h.root

theorem mallocNode_eq (hr : r.addr ≠ 0) (hfresh : m.node r.addr = none) : mallocNode r m =
    some (r.addr, { m with node := Function.update m.node r.addr (some r.contents) }) := by
  rw [mallocNode, if_neg hr, if_pos hfresh]

/-- The new node is given its fields. -/
theorem modifyNode_new {n : NodeT} (hv : v.1 ≠ 0) (p : Ptr) :
    modifyNode v.1 (fun _ => ⟨0, 0, p, v.2⟩)
      { m with node := Function.update m.node v.1 (some n) } = some ((), withNode m v p) := by
  rw [modifyNode_eq hv (Function.update_self ..), Function.update_idem]
  rfl

theorem inorder_insert (path : List FrameT) (v : Ptr × Item) :
    inorder (plug path (.node v .nil .nil)) = before path ++ v :: after path := by
  rw [inorder_plug]
  simp [inorder]

/-- What a search for a new key has gone past. -/
theorem Found.order (h : Found key t m m' .nil path) :
    before path ++ after path = inorder t := by
  rw [← h.located.plug_eq, inorder_plug]
  simp [inorder]

/-- The tree with a new node between the others. -/
theorem IsTree.inserted {m₁ : Memory σ} {t' : TreeT} (h : IsTree m t)
    (hfound : Found key t m m₁ .nil path) (hkey : v.2.key = key) (hplace : At m' t' [])
    (horder : inorder t' = before path ++ v :: after path)
    (hkeeps : Keeps (before path ++ v :: after path)
      (hung (withNode m₁ v (above 0 path)) path v.1) m') :
    IsTree { m' with tree := { m'.tree with nodeCount := m'.tree.nodeCount + 1 } } t' := by
  have hold := hfound.order
  refine ⟨hplace.withCount _, ?_, ?_, fun a ha => ?_⟩
  · rw [horder]
    exact hfound.located.between.sorted hkey (hold ▸ h.sorted)
  · show m'.tree.nodeCount + 1 = _
    have hlen : (inorder t').length = (inorder t).length + 1 := by
      rw [horder, ← hold]
      simp [Nat.add_assoc]
    have hcount : m'.tree.nodeCount = m.tree.nodeCount := by
      rw [hkeeps.tree]
      exact hfound.counted.nodeCount
    rw [hcount, hlen, h.count, UInt64.ofNat_add]
    rfl
  · rw [horder] at ha
    have hnew : v.1 ≠ a := ha v (by simp)
    have hne : ∀ w ∈ before path ++ after path, w.1 ≠ a := by
      intro w hw
      refine ha w ?_
      rcases List.mem_append.mp hw with hw | hw
      · exact List.mem_append_left _ hw
      · exact List.mem_append_right _ (List.mem_cons_of_mem v hw)
    have hnode : m'.node a = m₁.node a :=
      (hkeeps.node a ha).trans ((relink_of_notMem hne).trans (withNode_of_ne hnew.symm))
    show m'.node a = none
    rw [hnode, hfound.counted.node]
    exact h.all a (hold ▸ hne)

/-- **Inserting** puts a new node with the key and the record between the others, or leaves the
tree as it is if the key is in it. -/
theorem treeInsert_returns (h : IsTree m t) (key : Int) (record : Ptr) (hr : r.addr ≠ 0)
    (hfresh : m.node r.addr = none) :
    Returns (treeInsert r key record) m fun b m' => m'.rest = m.rest ∧
      ((b = false ∧ (∃ v ∈ inorder t, v.2.key = key) ∧ IsTree m' t) ∨
        b = true ∧ (∀ v ∈ inorder t, v.2.key ≠ key) ∧ ∃ l₁ l₂ t', inorder t = l₁ ++ l₂ ∧
          inorder t' = l₁ ++ (r.addr, ⟨key, record⟩) :: l₂ ∧ IsTree m' t') := by
  rw [treeInsert, returns_bind, returns_of_eq getTree_eq, h.root, returns_bind]
  refine (insertLoop_returns (h.searching key) h.place.length_lt).mono ?_
  rintro _ m₁ ⟨t₁, path, hfound, rfl⟩
  have hplace := hfound.place
  cases t₁ with
  | node v l r =>
    obtain ⟨w, l', r', heq, hk⟩ := hfound.located.found.resolve_left nofun
    cases heq
    have hv : v ∈ inorder t := by
      rw [← hfound.located.plug_eq, (perm_plug path _).mem_iff]
      simp [inorder]
    rw [insertPlace]
    exact returns_pure.mpr
      ⟨hfound.counted.rest, Or.inl ⟨rfl, ⟨v, hv, hk⟩, h.counted hfound.counted⟩⟩
  | nil =>
    have hfresh₁ : m₁.node r.addr = none := by rwa [hfound.counted.node]
    have hmalloc := mallocNode_eq hr hfresh₁
    show Returns (do
      let z ← mallocNode r
      if z = 0 then fun _ => none
      else
        modifyNode z fun _ => ⟨0, 0, above 0 path, ⟨key, record⟩⟩
        linkNew (above 0 path) z
        splay z
        modifyTree fun t => { t with nodeCount := t.nodeCount + 1 }
        return true) m₁ _
    rw [returns_bind, returns_of_eq hmalloc, if_neg hr]
    -- From here on only the address of the new node matters, and its key.
    generalize hv : ((r.addr, ⟨key, record⟩) : Ptr × Item) = v
    have hv0 : v.1 ≠ 0 := by rwa [← hv]
    have hvfresh : m₁.node v.1 = none := by rwa [← hv]
    have hkey : v.2.key = key := by rw [← hv]
    have hlink := linkNew_eq hv0 (withNode_self v (above 0 path)) hkey
      (hplace.around_withNode hvfresh) hplace.ne_zero hfound.located.between
    rw [show r.addr = v.1 by rw [← hv], show (⟨key, record⟩ : Item) = v.2 by rw [← hv],
      returns_bind, returns_of_eq (modifyNode_new hv0 _), returns_bind, returns_of_eq hlink,
      returns_bind]
    refine (splay_returns (hplace.insert hv0 hvfresh)).mono ?_
    rintro _ m' ⟨t', hraised⟩
    have horder : inorder t' = before path ++ v :: after path :=
      hraised.inorder.trans (inorder_insert path v)
    have hkeeps := hraised.keeps
    rw [inorder_insert] at hkeeps
    exact ⟨true, _, rfl, hkeeps.rest.trans hfound.counted.rest, Or.inr ⟨rfl,
      hfound.located.not_mem, before path, after path, t', hfound.order.symm, horder,
      h.inserted hfound hkey hraised.at' horder hkeeps⟩⟩

end Insert

end Driver
end Cmpsc473
