import Mathlib.Data.List.Basic
import Mathlib.Data.Tree.Basic
import Mathlib.Logic.Function.Basic
import Mathlib.Tactic.Common

/-!
# Binary trees in memory, with pointers to the parent

Every node of a tree has an address.  `Holds m t p` says that the memory `m` holds the
tree `t` under the parent `p`.  A place in a tree is a path of frames from there up to
the root, and a tree is taken apart at a place into the subtree there and the path.

A program that works on such a tree changes few links at a time.  `relink` hangs another
subtree into a path and `reparent` puts a subtree under another parent; everything apart
from the one node they write to is unchanged.
-/

namespace ParentTree

inductive Side
  | left
  | right
deriving DecidableEq, Repr

def Side.other : Side → Side
  | left => right
  | right => left

@[simp] theorem Side.other_other (s : Side) : s.other.other = s := by cases s <;> rfl

theorem Side.other_ne (s : Side) : s.other ≠ s := by cases s <;> nofun

theorem Side.eq_other {s s' : Side} (h : s' ≠ s) : s' = s.other := by
  cases s <;> cases s' <;> first | rfl | exact absurd rfl h

structure Node (α δ : Type) where
  left : α
  right : α
  parent : α
  data : δ
deriving DecidableEq, Repr

variable {α δ : Type}

namespace Node

def child (n : Node α δ) : Side → α
  | .left => n.left
  | .right => n.right

def setChild (n : Node α δ) (s : Side) (a : α) : Node α δ :=
  match s with
  | .left => { n with left := a }
  | .right => { n with right := a }

/-- A node with one child on a side and one on the other. -/
def of (s : Side) (a b p : α) (d : δ) : Node α δ :=
  match s with
  | .left => ⟨a, b, p, d⟩
  | .right => ⟨b, a, p, d⟩

variable (s : Side) (a b c p q : α) (d : δ)

@[simp] theorem child_of : (of s a b p d).child s = a := by cases s <;> rfl

@[simp] theorem child_of_other : (of s a b p d).child s.other = b := by cases s <;> rfl

@[simp] theorem parent_of : (of s a b p d).parent = p := by cases s <;> rfl

@[simp] theorem data_of : (of s a b p d).data = d := by cases s <;> rfl

@[simp] theorem setChild_of : (of s a b p d).setChild s c = of s c b p d := by cases s <;> rfl

@[simp] theorem setChild_of_other : (of s a b p d).setChild s.other c = of s a c p d := by
  cases s <;> rfl

@[simp] theorem child_setChild (n : Node α δ) : (n.setChild s a).child s = a := by cases s <;> rfl

@[simp] theorem setParent_of : { of s a b p d with parent := q } = of s a b q d := by
  cases s <;> rfl

theorem of_other : of s.other a b p d = of s b a p d := by cases s <;> rfl

end Node

/-- The nodes that are allocated. -/
abbrev Mem (α δ : Type) := α → Option (Node α δ)

/-- A tree whose nodes have addresses and data. -/
abbrev Labelled (α δ : Type) := BinaryTree (α × δ)

def inorder : Labelled α δ → List (α × δ)
  | .nil => []
  | .node v l r => inorder l ++ v :: inorder r

/-- The nodes in the order in which their subtrees are done with. -/
def postorder : Labelled α δ → List (α × δ)
  | .nil => []
  | .node v l r => postorder l ++ (postorder r ++ [v])

theorem postorder_perm (t : Labelled α δ) : (postorder t).Perm (inorder t) := by
  induction t with
  | nil => exact List.Perm.refl _
  | node v l r ihl ihr => exact ihl.append (List.perm_append_comm.trans (ihr.cons v))

/-- A node with one subtree on a side and one on the other. -/
def join (s : Side) (v : α × δ) (t u : Labelled α δ) : Labelled α δ :=
  match s with
  | .left => .node v t u
  | .right => .node v u t

theorem join_other (s : Side) (v : α × δ) (t u : Labelled α δ) :
    join s.other v t u = join s v u t := by cases s <;> rfl

/-- A node seen from either side. -/
theorem exists_join (s : Side) (v : α × δ) (l r : Labelled α δ) :
    ∃ t u, BinaryTree.node v l r = join s v t u := by
  cases s with
  | left => exact ⟨l, r, rfl⟩
  | right => exact ⟨r, l, rfl⟩

/-- **A rotation** keeps the order of the nodes. -/
theorem inorder_rotate (s : Side) (v w : α × δ) (t u t' : Labelled α δ) :
    inorder (join s.other w (join s v u t') t) = inorder (join s v (join s w t u) t') := by
  cases s <;> simp [join, inorder, Side.other]

theorem mem_join {s : Side} {v w : α × δ} {t u : Labelled α δ} :
    w ∈ inorder (join s v t u) ↔ w = v ∨ w ∈ inorder t ∨ w ∈ inorder u := by
  cases s <;> simp [join, inorder] <;> tauto

/-- A step down in a tree: the node, the side of the step, and the other subtree. -/
structure Frame (α δ : Type) where
  side : Side
  value : α × δ
  sibling : Labelled α δ

def Frame.attach (f : Frame α δ) (t : Labelled α δ) : Labelled α δ := join f.side f.value t f.sibling

/-- The tree around a place. -/
def plug (path : List (Frame α δ)) (t : Labelled α δ) : Labelled α δ :=
  path.foldl (fun t f => f.attach t) t

/-- The nodes in front of a place, and those behind it. -/
def before : List (Frame α δ) → List (α × δ)
  | [] => []
  | f :: path => before path ++
    match f.side with
    | .left => []
    | .right => inorder f.sibling ++ [f.value]

def after : List (Frame α δ) → List (α × δ)
  | [] => []
  | f :: path =>
    (match f.side with
    | .left => f.value :: inorder f.sibling
    | .right => []) ++ after path

theorem inorder_plug (path : List (Frame α δ)) (t : Labelled α δ) :
    inorder (plug path t) = before path ++ inorder t ++ after path := by
  induction path generalizing t with
  | nil => simp [plug, before, after]
  | cons f path ih =>
    show inorder (plug path (f.attach t)) = _
    rw [ih, Frame.attach, before, after]
    cases f.side <;> simp [join, inorder]

theorem plug_append (path path' : List (Frame α δ)) (t : Labelled α δ) :
    plug (path ++ path') t = plug path' (plug path t) := List.foldl_append ..

/-- A place that is reached by steps to the left only. -/
def Leftmost (path : List (Frame α δ)) : Prop := ∀ f ∈ path, f.side = .left

theorem Leftmost.before {path : List (Frame α δ)} (h : Leftmost path) :
    ParentTree.before path = [] := by
  induction path with
  | nil => rfl
  | cons f path ih =>
    rw [ParentTree.before, ih fun g hg => h g (List.mem_cons_of_mem f hg), h f List.mem_cons_self]
    rfl

/-- The nodes around a place. -/
def around (path : List (Frame α δ)) : List (α × δ) := before path ++ after path

theorem around_nil : around ([] : List (Frame α δ)) = [] := rfl

theorem around_frame (f : Frame α δ) (path : List (Frame α δ)) :
    (around (f :: path)).Perm (f.value :: (inorder f.sibling ++ around path)) := by
  have hswap : ((before path ++ inorder f.sibling) ++ after path).Perm
      (inorder f.sibling ++ around path) := by
    rw [around, ← List.append_assoc]
    exact List.perm_append_comm.append_right _
  rw [around, before, after]
  cases f.side with
  | left =>
    have happend : before path ++ [] ++ (f.value :: inorder f.sibling ++ after path) =
        before path ++ f.value :: (inorder f.sibling ++ after path) := by simp
    rw [happend]
    refine List.perm_middle.trans (List.Perm.cons _ ?_)
    rwa [← List.append_assoc]
  | right =>
    have happend : before path ++ (inorder f.sibling ++ [f.value]) ++ ([] ++ after path) =
        (before path ++ inorder f.sibling) ++ f.value :: after path := by simp
    rw [happend]
    exact List.perm_middle.trans (hswap.cons f.value)

theorem length_le_around (path : List (Frame α δ)) : path.length ≤ (around path).length := by
  induction path with
  | nil => exact Nat.zero_le _
  | cons f path ih =>
    rw [(around_frame f path).length_eq, List.length_cons, List.length_cons, List.length_append]
    omega

theorem mem_around {f : Frame α δ} {path : List (Frame α δ)} {v : α × δ} :
    v ∈ around (f :: path) ↔ v = f.value ∨ v ∈ inorder f.sibling ∨ v ∈ around path := by
  rw [(around_frame f path).mem_iff, List.mem_cons, List.mem_append]

theorem perm_plug (path : List (Frame α δ)) (t : Labelled α δ) :
    (inorder (plug path t)).Perm (inorder t ++ around path) := by
  rw [inorder_plug, around, ← List.append_assoc]
  exact List.perm_append_comm.append_right _

/-- A step of a place from below a frame to above it. -/
theorem perm_frame {f : Frame α δ} {path : List (Frame α δ)} {t t' : Labelled α δ}
    (h : inorder t' = inorder (f.attach t)) :
    (inorder t ++ around (f :: path)).Perm (inorder t' ++ around path) := by
  rw [h]
  exact (perm_plug (f :: path) t).symm.trans (perm_plug path (f.attach t))

/-- No two of the nodes have the same address. -/
def Distinct (l : List (α × δ)) : Prop := (l.map Prod.fst).Nodup

theorem Distinct.perm {l l' : List (α × δ)} (h : Distinct l) (hp : l.Perm l') : Distinct l' :=
  (hp.map Prod.fst).nodup_iff.mp h

theorem distinct_cons {v : α × δ} {l : List (α × δ)} :
    Distinct (v :: l) ↔ (∀ w ∈ l, w.1 ≠ v.1) ∧ Distinct l := by
  simp only [Distinct, List.map_cons, List.nodup_cons, List.mem_map, not_exists, not_and]

theorem distinct_append {l l' : List (α × δ)} :
    Distinct (l ++ l') ↔ Distinct l ∧ Distinct l' ∧ ∀ v ∈ l, ∀ w ∈ l', v.1 ≠ w.1 := by
  simp only [Distinct, List.map_append, List.nodup_append, List.mem_map, forall_exists_index,
    and_imp, forall_apply_eq_imp_iff₂]

/-- The nodes of a place below a frame, one part after the other. -/
theorem Distinct.parts {f : Frame α δ} {path : List (Frame α δ)} {x : α × δ}
    {t u : Labelled α δ} (h : Distinct (inorder (join f.side x t u) ++ around (f :: path))) :
    Distinct (x :: f.value ::
      (inorder t ++ (inorder u ++ (inorder f.sibling ++ around path)))) := by
  refine h.perm ?_
  have hjoin : (inorder (join f.side x t u)).Perm (x :: (inorder t ++ inorder u)) := by
    cases f.side with
    | left => exact List.perm_middle
    | right => exact List.perm_middle.trans (List.perm_append_comm.cons x)
  refine (hjoin.append (around_frame f path)).trans ?_
  rw [List.cons_append]
  refine List.Perm.cons x ?_
  rw [← List.append_assoc (inorder t)]
  exact List.perm_middle

/-- The parts of a place below a frame have no address in common. -/
structure Apart (f : Frame α δ) (path : List (Frame α δ)) (x : α × δ) (t u : Labelled α δ) :
    Prop where
  x_ne : f.value.1 ≠ x.1
  x_t : ∀ v ∈ inorder t, v.1 ≠ x.1
  x_u : ∀ v ∈ inorder u, v.1 ≠ x.1
  x_s : ∀ v ∈ inorder f.sibling, v.1 ≠ x.1
  x_path : ∀ v ∈ around path, v.1 ≠ x.1
  f_t : ∀ v ∈ inorder t, v.1 ≠ f.value.1
  f_u : ∀ v ∈ inorder u, v.1 ≠ f.value.1
  f_s : ∀ v ∈ inorder f.sibling, v.1 ≠ f.value.1
  f_path : ∀ v ∈ around path, v.1 ≠ f.value.1
  t_u : ∀ v ∈ inorder t, ∀ w ∈ inorder u, v.1 ≠ w.1
  t_path : ∀ v ∈ inorder t, ∀ w ∈ around path, v.1 ≠ w.1
  u_s : ∀ v ∈ inorder u, ∀ w ∈ inorder f.sibling, v.1 ≠ w.1
  u_path : ∀ v ∈ inorder u, ∀ w ∈ around path, v.1 ≠ w.1
  s_path : ∀ v ∈ inorder f.sibling, ∀ w ∈ around path, v.1 ≠ w.1
  u : Distinct (inorder u)
  path : Distinct (around path)

theorem Distinct.apart {f : Frame α δ} {path : List (Frame α δ)} {x : α × δ}
    {t u : Labelled α δ} (h : Distinct (inorder (join f.side x t u) ++ around (f :: path))) :
    Apart f path x t u := by
  obtain ⟨hx, h⟩ := distinct_cons.mp h.parts
  obtain ⟨hf, h⟩ := distinct_cons.mp h
  obtain ⟨-, h, htrest⟩ := distinct_append.mp h
  obtain ⟨hudist, h, hurest⟩ := distinct_append.mp h
  obtain ⟨-, hpathdist, hspath⟩ := distinct_append.mp h
  simp only [List.mem_cons, List.mem_append, or_imp, forall_and] at hx hf htrest hurest
  exact {
    x_ne := hx.1 f.value rfl
    x_t := hx.2.1
    x_u := hx.2.2.1
    x_s := hx.2.2.2.1
    x_path := hx.2.2.2.2
    f_t := hf.1
    f_u := hf.2.1
    f_s := hf.2.2.1
    f_path := hf.2.2.2
    t_u := htrest.1
    t_path := htrest.2.2
    u_s := hurest.1
    u_path := hurest.2
    s_path := hspath
    u := hudist
    path := hpathdist }

section Memory

variable (null : α)

def addr : Labelled α δ → α
  | .nil => null
  | .node v _ _ => v.1

def Holds (m : Mem α δ) : Labelled α δ → α → Prop
  | .nil, _ => True
  | .node v l r, p =>
    m v.1 = some ⟨addr null l, addr null r, p, v.2⟩ ∧ Holds m l v.1 ∧ Holds m r v.1

/-- The node above a place. -/
def above : List (Frame α δ) → α
  | [] => null
  | f :: _ => f.value.1

/-- The memory holds what is around a place, with a pointer to `h` there. -/
def HoldsPath (m : Mem α δ) : List (Frame α δ) → α → Prop
  | [], _ => True
  | f :: path, h =>
    m f.value.1 = some (.of f.side h (addr null f.sibling) (above null path) f.value.2) ∧
      Holds null m f.sibling f.value.1 ∧ HoldsPath m path f.value.1

variable {null} {m m' : Mem α δ} {t : Labelled α δ} {p : α} {f : Frame α δ}
  {path : List (Frame α δ)}

@[simp] theorem addr_join (s : Side) (v : α × δ) (t u : Labelled α δ) :
    addr null (join s v t u) = v.1 := by cases s <;> rfl

theorem holds_join {s : Side} {v : α × δ} {t u : Labelled α δ} :
    Holds null m (join s v t u) p ↔
      m v.1 = some (.of s (addr null t) (addr null u) p v.2) ∧
        Holds null m t v.1 ∧ Holds null m u v.1 := by
  cases s with
  | left => rfl
  | right => exact and_congr_right fun _ => and_comm

/-- **A tree is held** if a subtree is and what is around it. -/
theorem holds_plug : Holds null m (plug path t) null ↔
    Holds null m t (above null path) ∧ HoldsPath null m path (addr null t) := by
  induction path generalizing t with
  | nil => exact (and_iff_left trivial).symm
  | cons f path ih =>
    show Holds null m (plug path (f.attach t)) null ↔ _
    rw [ih, Frame.attach, holds_join, addr_join]
    exact ⟨fun h => ⟨h.1.2.1, h.1.1, h.1.2.2, h.2⟩, fun h => ⟨⟨h.2.1, h.1, h.2.2.1⟩, h.2.2.2⟩⟩

theorem Holds.congr (h : Holds null m t p) (hm : ∀ v ∈ inorder t, m' v.1 = m v.1) :
    Holds null m' t p := by
  induction t generalizing p with
  | nil => trivial
  | node v l r ihl ihr =>
    obtain ⟨hv, hl, hr⟩ := h
    refine ⟨?_, ihl hl fun w hw => hm w ?_, ihr hr fun w hw => hm w ?_⟩
    · rw [hm v (by simp [inorder]), hv]
    · exact List.mem_append_left _ hw
    · exact List.mem_append_right _ (List.mem_cons_of_mem v hw)

theorem HoldsPath.congr {h : α} (hp : HoldsPath null m path h)
    (hm : ∀ v ∈ around path, m' v.1 = m v.1) : HoldsPath null m' path h := by
  induction path generalizing h with
  | nil => trivial
  | cons f path ih =>
    obtain ⟨hf, hs, hrest⟩ := hp
    refine ⟨?_, hs.congr fun v hv => hm v ?_, ih hrest fun v hv => hm v ?_⟩
    · rw [hm f.value (mem_around.mpr (Or.inl rfl)), hf]
    · exact mem_around.mpr (Or.inr (Or.inl hv))
    · exact mem_around.mpr (Or.inr (Or.inr hv))

/-- Every node of the tree is allocated, with its data. -/
theorem Holds.data (h : Holds null m t p) {v : α × δ} (hv : v ∈ inorder t) :
    ∃ n, m v.1 = some n ∧ n.data = v.2 := by
  induction t generalizing p with
  | nil => cases hv
  | node w l r ihl ihr =>
    obtain ⟨hw, hl, hr⟩ := h
    rcases List.mem_append.mp hv with hv | hv
    · exact ihl hl hv
    · rcases List.mem_cons.mp hv with rfl | hv
      · exact ⟨_, hw, rfl⟩
      · exact ihr hr hv

variable [DecidableEq α]

/-- Point to `h` from the node above a place. -/
def relink (m : Mem α δ) : List (Frame α δ) → α → Mem α δ
  | [], _ => m
  | f :: _, h => Function.update m f.value.1 ((m f.value.1).map fun n => n.setChild f.side h)

/-- Put a subtree under another parent. -/
def reparent (m : Mem α δ) (t : Labelled α δ) (q : α) : Mem α δ :=
  match t with
  | .nil => m
  | .node v _ _ => Function.update m v.1 ((m v.1).map fun n => { n with parent := q })

theorem relink_of_ne {a h : α} (ha : ∀ f ∈ path.head?, a ≠ f.value.1) :
    relink m path h a = m a := by
  cases path with
  | nil => rfl
  | cons f path => exact Function.update_of_ne (ha f rfl) _ _

theorem relink_of_notMem {a h : α} (ha : ∀ v ∈ around path, v.1 ≠ a) :
    relink m path h a = m a := by
  refine relink_of_ne fun f hf heq => ?_
  obtain ⟨rest, rfl⟩ := List.head?_eq_some_iff.mp hf
  exact ha f.value (mem_around.mpr (Or.inl rfl)) heq.symm

theorem reparent_of_notMem {a q : α} (ha : ∀ v ∈ inorder t, v.1 ≠ a) :
    reparent m t q a = m a := by
  cases t with
  | nil => rfl
  | node v l r => exact Function.update_of_ne (ha v (by simp [inorder])).symm _ _

theorem HoldsPath.relink {h : α} (hp : HoldsPath null m path h) (h' : α)
    (hd : Distinct (around path)) : HoldsPath null (relink m path h') path h' := by
  cases path with
  | nil => trivial
  | cons f path =>
    obtain ⟨hf, hs, hrest⟩ := hp
    obtain ⟨hne, -⟩ := distinct_cons.mp (hd.perm (around_frame f path))
    have hsame : ∀ v ∈ inorder f.sibling ++ around path,
        ParentTree.relink m (f :: path) h' v.1 = m v.1 :=
      fun v hv => Function.update_of_ne (hne v hv) _ _
    refine ⟨?_, hs.congr fun v hv => hsame v (List.mem_append_left _ hv),
      hrest.congr fun v hv => hsame v (List.mem_append_right _ hv)⟩
    rw [ParentTree.relink, Function.update_self, hf, Option.map_some, Node.setChild_of]

theorem Holds.reparent (ht : Holds null m t p) (q : α) (hd : Distinct (inorder t)) :
    Holds null (reparent m t q) t q := by
  cases t with
  | nil => trivial
  | node v l r =>
    obtain ⟨hv, hl, hr⟩ := ht
    obtain ⟨hne, -⟩ := distinct_cons.mp (hd.perm List.perm_middle)
    have hsame : ∀ w ∈ inorder l ++ inorder r,
        ParentTree.reparent m (.node v l r) q w.1 = m w.1 :=
      fun w hw => Function.update_of_ne (hne w hw) _ _
    refine ⟨?_, hl.congr fun w hw => hsame w (List.mem_append_left _ hw),
      hr.congr fun w hw => hsame w (List.mem_append_right _ hw)⟩
    rw [ParentTree.reparent, Function.update_self, hv]
    rfl

/-- The changes of a rotation at the frame `f` up to the link from above: the node `x` with
the subtrees `t` and `u` comes up, and `u` changes over to the node of the frame. -/
def lifted (null : α) (m : Mem α δ) (f : Frame α δ) (path : List (Frame α δ)) (x : α × δ)
    (t u : Labelled α δ) : Mem α δ :=
  let m := Function.update m f.value.1
    (some (.of f.side (addr null u) (addr null f.sibling) (above null path) f.value.2))
  let m := reparent m u f.value.1
  Function.update m x.1 (some (.of f.side (addr null t) (addr null u) (above null path) x.2))

/-- All of them, in the order in which they are made. -/
def rotated (null : α) (m : Mem α δ) (f : Frame α δ) (path : List (Frame α δ)) (x : α × δ)
    (t u : Labelled α δ) : Mem α δ :=
  let m := relink (lifted null m f path x t u) path x.1
  let m := Function.update m x.1
    (some (.of f.side (addr null t) f.value.1 (above null path) x.2))
  Function.update m f.value.1
    (some (.of f.side (addr null u) (addr null f.sibling) x.1 f.value.2))

section Rotated

variable {x : α × δ} {u : Labelled α δ}

theorem lifted_of_ne {a : α} (hx : a ≠ x.1) (hf : a ≠ f.value.1)
    (hu : ∀ v ∈ inorder u, v.1 ≠ a) : lifted null m f path x t u a = m a := by
  rw [lifted, Function.update_of_ne hx, reparent_of_notMem hu, Function.update_of_ne hf]

theorem lifted_x : lifted null m f path x t u x.1 =
    some (.of f.side (addr null t) (addr null u) (above null path) x.2) := by
  rw [lifted, Function.update_self]

/-- What is not in the two nodes, in the subtree or next to the path does not change. -/
theorem rotated_of_ne {a : α} (hx : a ≠ x.1) (hf : a ≠ f.value.1)
    (hu : ∀ v ∈ inorder u, v.1 ≠ a) (hpath : ∀ v ∈ around path, v.1 ≠ a) :
    rotated null m f path x t u a = m a := by
  rw [rotated, Function.update_of_ne hf, Function.update_of_ne hx, relink_of_notMem hpath,
    lifted_of_ne hx hf hu]

namespace Apart

theorem lifted_f (ha : Apart f path x t u) : lifted null m f path x t u f.value.1 =
    some (.of f.side (addr null u) (addr null f.sibling) (above null path) f.value.2) := by
  rw [lifted, Function.update_of_ne ha.x_ne, reparent_of_notMem ha.f_u, Function.update_self]

theorem lifted_u (ha : Apart f path x t u) (hu : Holds null m u x.1) :
    Holds null (lifted null m f path x t u) u f.value.1 := by
  have hbefore : Holds null (Function.update m f.value.1
      (some (.of f.side (addr null u) (addr null f.sibling) (above null path) f.value.2))) u x.1 :=
    hu.congr fun v hv => Function.update_of_ne (ha.f_u v hv) _ _
  refine (hbefore.reparent f.value.1 ha.u).congr fun v hv => ?_
  rw [lifted, Function.update_of_ne (ha.x_u v hv)]

theorem lifted_path (ha : Apart f path x t u) (hpath : HoldsPath null m path f.value.1) :
    HoldsPath null (lifted null m f path x t u) path f.value.1 :=
  hpath.congr fun v hv => lifted_of_ne (ha.x_path v hv) (ha.f_path v hv)
    fun w hw => ha.u_path w hw v hv

/-- **A rotation** brings a node up one level, with everything else around it in its place. -/
theorem holds_rotated (ha : Apart f path x t u)
    (ht : Holds null m (join f.side x t u) f.value.1)
    (hp : HoldsPath null m (f :: path) x.1) :
    Holds null (rotated null m f path x t u)
      (join f.side.other x (join f.side f.value u f.sibling) t) (above null path) ∧
      HoldsPath null (rotated null m f path x t u) path x.1 := by
  obtain ⟨-, ht, hu⟩ := holds_join.mp ht
  obtain ⟨-, hs, hpath⟩ := hp
  have hu' : Holds null (rotated null m f path x t u) u f.value.1 := by
    refine (ha.lifted_u hu).congr fun v hv => ?_
    rw [rotated, Function.update_of_ne (ha.f_u v hv), Function.update_of_ne (ha.x_u v hv),
      relink_of_notMem fun w hw => (ha.u_path v hv w hw).symm]
  have ht' : Holds null (rotated null m f path x t u) t x.1 :=
    ht.congr fun v hv => rotated_of_ne (ha.x_t v hv) (ha.f_t v hv)
      (fun w hw => (ha.t_u v hv w hw).symm) fun w hw => (ha.t_path v hv w hw).symm
  have hs' : Holds null (rotated null m f path x t u) f.sibling f.value.1 :=
    hs.congr fun v hv => rotated_of_ne (ha.x_s v hv) (ha.f_s v hv)
      (fun w hw => ha.u_s w hw v hv) fun w hw => (ha.s_path v hv w hw).symm
  refine ⟨?_, ?_⟩
  · rw [join_other, holds_join, holds_join, addr_join]
    refine ⟨?_, ht', ?_, hu', hs'⟩
    · rw [rotated, Function.update_of_ne ha.x_ne.symm, Function.update_self]
    · rw [rotated, Function.update_self]
  · refine ((ha.lifted_path hpath).relink x.1 ha.path).congr fun v hv => ?_
    rw [rotated, Function.update_of_ne (ha.f_path v hv), Function.update_of_ne (ha.x_path v hv)]

end Apart

end Rotated

end Memory

end ParentTree
