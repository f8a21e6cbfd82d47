import Cmpsc473.Library.ParentTree
import Mathlib.Order.Lattice

/-!
# Search trees

The nodes of a search tree are in the order of their keys.  A search for a key goes down
between the nodes with smaller keys and those with larger ones.  It ends at the node with
the key, or at a place where there is none.
-/

namespace ParentTree

variable {α δ κ : Type} [LinearOrder κ] (key : δ → κ)

def Sorted (l : List (α × δ)) : Prop := l.Pairwise fun v w => key v.2 < key w.2

/-- The key belongs at a place, if it is anywhere in the tree. -/
structure Between (k : κ) (path : List (Frame α δ)) : Prop where
  before : ∀ v ∈ before path, key v.2 < k
  after : ∀ v ∈ after path, k < key v.2

variable {key} {k : κ} {path : List (Frame α δ)} {v : α × δ} {l r : Labelled α δ}

theorem between_nil : Between key k ([] : List (Frame α δ)) :=
  ⟨fun _ hv => absurd hv List.not_mem_nil, fun _ hv => absurd hv List.not_mem_nil⟩

theorem Sorted.plug {t : Labelled α δ} (h : Sorted key (inorder (plug path t))) :
    Sorted key (inorder t) := by
  rw [inorder_plug] at h
  exact (List.pairwise_append.mp (List.pairwise_append.mp h).1).2.1

theorem Sorted.left (h : Sorted key (inorder (.node v l r))) :
    ∀ w ∈ inorder l, key w.2 < key v.2 := fun w hw =>
  (List.pairwise_append.mp h).2.2 w hw v List.mem_cons_self

theorem Sorted.right (h : Sorted key (inorder (.node v l r))) :
    ∀ w ∈ inorder r, key v.2 < key w.2 :=
  (List.pairwise_cons.mp (List.pairwise_append.mp h).2.1).1

/-- The step to the right, when the key is larger. -/
theorem Between.right (h : Between key k path)
    (hs : Sorted key (inorder (ParentTree.plug path (.node v l r)))) (hk : key v.2 < k) :
    Between key k (⟨.right, v, l⟩ :: path) := by
  refine ⟨fun w hw => ?_, fun w hw => h.after w hw⟩
  rcases List.mem_append.mp hw with hw | hw
  · exact h.before w hw
  · rcases List.mem_append.mp hw with hw | hw
    · exact (hs.plug.left w hw).trans hk
    · rw [List.mem_singleton.mp hw]
      exact hk

/-- The step to the left, when it is smaller. -/
theorem Between.left (h : Between key k path)
    (hs : Sorted key (inorder (ParentTree.plug path (.node v l r)))) (hk : k < key v.2) :
    Between key k (⟨.left, v, r⟩ :: path) := by
  refine ⟨fun w hw => h.before w ?_, fun w hw => ?_⟩
  · exact (List.append_nil (ParentTree.before path)) ▸ hw
  · rcases List.mem_append.mp hw with hw | hw
    · rcases List.mem_cons.mp hw with rfl | hw
      · exact hk
      · exact hk.trans (hs.plug.right w hw)
    · exact h.after w hw

/-- The end of a search. -/
structure Located (key : δ → κ) (k : κ) (whole t : Labelled α δ) (path : List (Frame α δ)) :
    Prop where
  plug_eq : ParentTree.plug path t = whole
  between : Between key k path
  found : t = .nil ∨ ∃ v l r, t = .node v l r ∧ key v.2 = k

variable {whole : Labelled α δ}

/-- A search that ends nowhere has not missed the key. -/
theorem Located.not_mem (h : Located key k whole .nil path) : ∀ v ∈ inorder whole, key v.2 ≠ k := by
  intro v hv
  rw [← h.plug_eq, inorder_plug, show inorder (.nil : Labelled α δ) = [] from rfl,
    List.append_nil] at hv
  rcases List.mem_append.mp hv with hv | hv
  · exact (h.between.before v hv).ne
  · exact (h.between.after v hv).ne'

/-- A new node has its place between the others. -/
theorem Between.sorted (h : Between key k path) (hv : key v.2 = k)
    (hs : Sorted key (ParentTree.before path ++ ParentTree.after path)) :
    Sorted key (ParentTree.before path ++ v :: ParentTree.after path) := by
  obtain ⟨hbefore, hafter, hcross⟩ := List.pairwise_append.mp hs
  refine List.pairwise_append.mpr ⟨hbefore, List.pairwise_cons.mpr ⟨?_, hafter⟩, ?_⟩
  · intro w hw
    rw [hv]
    exact h.after w hw
  · intro w hw u hu
    rcases List.mem_cons.mp hu with rfl | hu
    · rw [hv]
      exact h.before w hw
    · exact hcross w hw u hu

/-- A node with the key is the only one. -/
theorem Sorted.unique {l : List (α × δ)} (h : Sorted key l) {v w : α × δ} (hv : v ∈ l) (hw : w ∈ l)
    (hk : key v.2 = key w.2) : v = w := by
  induction l with
  | nil => cases hv
  | cons u l ih =>
    obtain ⟨hu, hl⟩ := List.pairwise_cons.mp h
    rcases List.mem_cons.mp hv with rfl | hv
    · rcases List.mem_cons.mp hw with rfl | hw
      · rfl
      · exact absurd hk (hu w hw).ne
    · rcases List.mem_cons.mp hw with heq | hw
      · exact absurd (heq ▸ hk) (hu v hv).ne'
      · exact ih hl hv hw

/-- The node with a key. -/
def lookup (key : δ → κ) (l : List (α × δ)) (k : κ) : Option (α × δ) :=
  l.find? fun v => decide (key v.2 = k)

variable {l₁ l₂ : List (α × δ)}

theorem mem_of_lookup {l : List (α × δ)} (h : lookup key l k = some v) : v ∈ l ∧ key v.2 = k := by
  refine ⟨List.mem_of_find?_eq_some h, ?_⟩
  have hk := List.find?_some h
  exact of_decide_eq_true hk

theorem lookup_eq_some {l : List (α × δ)} (h : Sorted key l) :
    lookup key l k = some v ↔ v ∈ l ∧ key v.2 = k := by
  refine ⟨mem_of_lookup, ?_⟩
  rintro ⟨hv, hk⟩
  cases hw : lookup key l k with
  | none => exact absurd (decide_eq_true hk) (List.find?_eq_none.mp hw v hv)
  | some w =>
    obtain ⟨hwl, hwk⟩ := mem_of_lookup hw
    rw [h.unique hwl hv (hwk.trans hk.symm)]

theorem lookup_eq_none {l : List (α × δ)} :
    lookup key l k = none ↔ ∀ v ∈ l, key v.2 ≠ k := by
  simp only [lookup, List.find?_eq_none, decide_eq_true_eq, ne_eq]

theorem Sorted.remove (h : Sorted key (l₁ ++ v :: l₂)) : Sorted key (l₁ ++ l₂) :=
  List.Pairwise.sublist ((List.sublist_cons_self v l₂).append_left l₁) h

/-- The other nodes have other keys. -/
theorem Sorted.ne (h : Sorted key (l₁ ++ v :: l₂)) : ∀ w ∈ l₁ ++ l₂, key w.2 ≠ key v.2 := by
  obtain ⟨-, hright, hcross⟩ := List.pairwise_append.mp h
  intro w hw
  rcases List.mem_append.mp hw with hw | hw
  · exact (hcross w hw v List.mem_cons_self).ne
  · exact ((List.pairwise_cons.mp hright).1 w hw).ne'

/-- **A new node** is what is found under its key, and changes nothing else. -/
theorem lookup_insert (h : Sorted key (l₁ ++ v :: l₂)) :
    lookup key (l₁ ++ v :: l₂) =
      Function.update (lookup key (l₁ ++ l₂)) (key v.2) (some v) := by
  funext k
  by_cases hk : k = key v.2
  · subst hk
    rw [Function.update_self, lookup_eq_some h]
    exact ⟨List.mem_append_right _ List.mem_cons_self, rfl⟩
  · rw [Function.update_of_ne hk, lookup, lookup, List.find?_append, List.find?_append,
      List.find?_cons_of_neg]
    simpa using Ne.symm hk

/-- **A node that is taken out** leaves nothing under its key. -/
theorem lookup_remove (h : Sorted key (l₁ ++ v :: l₂)) :
    lookup key (l₁ ++ l₂) =
      Function.update (lookup key (l₁ ++ v :: l₂)) (key v.2) none := by
  rw [lookup_insert h, Function.update_idem]
  exact (Function.update_eq_self_iff.mpr (lookup_eq_none.mpr h.ne).symm).symm

/-- The last node in front of the place of a key, where the key itself is not there. -/
theorem Located.nearest (h : Located key k whole .nil path)
    (hs : Sorted key (inorder whole)) (hv : (before path).getLast? = some v) :
    v ∈ inorder whole ∧ key v.2 < k ∧ ∀ w ∈ inorder whole, key w.2 ≤ k → key w.2 ≤ key v.2 := by
  have hmem : v ∈ before path := List.mem_of_getLast? hv
  have horder : inorder whole = before path ++ after path := by
    rw [← h.plug_eq, inorder_plug]
    simp [inorder]
  refine ⟨horder ▸ List.mem_append_left _ hmem, h.between.before v hmem, fun w hw hk => ?_⟩
  rw [horder] at hw hs
  rcases List.mem_append.mp hw with hw | hw
  · obtain ⟨l, hl⟩ := List.getLast?_eq_some_iff.mp hv
    have hsorted := (List.pairwise_append.mp hs).1
    rw [hl] at hw hsorted
    rcases List.mem_append.mp hw with hw | hw
    · exact ((List.pairwise_append.mp hsorted).2.2 w hw v List.mem_cons_self).le
    · rw [List.mem_singleton.mp hw]
  · exact absurd (h.between.after w hw) (not_lt.mpr hk)

theorem Located.no_nearest (h : Located key k whole .nil path)
    (hv : (before path).getLast? = none) : ∀ w ∈ inorder whole, k < key w.2 := by
  intro w hw
  rw [← h.plug_eq, inorder_plug, List.getLast?_eq_none_iff.mp hv] at hw
  exact h.between.after w (by simpa [inorder] using hw)

end ParentTree
