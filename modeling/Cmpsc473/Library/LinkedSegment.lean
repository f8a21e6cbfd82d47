import Mathlib.Data.List.Basic

/-!
# Doubly linked segments

A doubly linked list is given by two link functions, `fwd` to the following
node and `bwd` to the preceding one.  `Seg fwd bwd p l q` says that the nodes of
`l` are linked in this order, that the first points back to `p` and that the
last points on to `q`.  A whole list has the null node at both ends.

Inserting a node and deleting one each change at most two links of the other
nodes.  `Seg.insert` and `Seg.remove` ask for exactly these changes, so they
serve any code that performs them, in whatever order it writes.
-/

namespace LinkedSegment

variable {α : Type}

def Seg (fwd bwd : α → α) : α → List α → α → Prop
  | _, [], _ => True
  | p, x :: xs, q => bwd x = p ∧ fwd x = xs.headD q ∧ Seg fwd bwd x xs q

@[simp] theorem seg_nil (fwd bwd : α → α) (p q : α) : Seg fwd bwd p [] q := trivial

theorem seg_cons {fwd bwd : α → α} {p q x : α} {xs : List α} :
    Seg fwd bwd p (x :: xs) q ↔ bwd x = p ∧ fwd x = xs.headD q ∧ Seg fwd bwd x xs q :=
  Iff.rfl

/-- A segment splits anywhere: each half ends where the other begins. -/
theorem seg_append {fwd bwd : α → α} {p q : α} {l r : List α} :
    Seg fwd bwd p (l ++ r) q ↔
      Seg fwd bwd p l (r.headD q) ∧ Seg fwd bwd (l.getLastD p) r q := by
  induction l generalizing p with
  | nil => simp
  | cons x xs ih =>
    rw [List.cons_append, seg_cons, seg_cons, ih, List.getLastD_cons]
    have hhead : (xs ++ r).headD q = xs.headD (r.headD q) := by
      cases xs <;> rfl
    rw [hhead]
    tauto

/-- A segment reads only the links of its own nodes. -/
theorem Seg.congr {fwd bwd fwd' bwd' : α → α} {p q : α} {l : List α}
    (h : Seg fwd bwd p l q) (hf : ∀ x ∈ l, fwd' x = fwd x) (hb : ∀ x ∈ l, bwd' x = bwd x) :
    Seg fwd' bwd' p l q := by
  induction l generalizing p with
  | nil => trivial
  | cons x xs ih =>
    obtain ⟨hbx, hfx, hxs⟩ := h
    refine ⟨?_, ?_, ih hxs (fun y hy => hf y (List.mem_cons_of_mem x hy))
      (fun y hy => hb y (List.mem_cons_of_mem x hy))⟩
    · rw [hb x List.mem_cons_self, hbx]
    · rw [hf x List.mem_cons_self, hfx]

/-- Redirect the last forward link of a segment. -/
theorem Seg.setEnd {fwd bwd fwd' bwd' : α → α} {p q q' : α} {l : List α}
    (h : Seg fwd bwd p l q) (hb : ∀ x ∈ l, bwd' x = bwd x)
    (hf : ∀ x ∈ l, x ∉ l.getLast? → fwd' x = fwd x)
    (hlast : ∀ x ∈ l.getLast?, fwd' x = q') (hnd : l.Nodup) :
    Seg fwd' bwd' p l q' := by
  rcases List.eq_nil_or_concat l with rfl | ⟨init, x, rfl⟩
  · trivial
  · rw [List.concat_eq_append] at *
    rw [List.getLast?_append] at hf hlast
    simp only [List.getLast?_singleton, Option.some_or, Option.mem_def, Option.some.injEq] at hf hlast
    rw [seg_append, List.headD_cons, seg_cons] at h ⊢
    obtain ⟨hinit, hbx, _, _⟩ := h
    have hne : ∀ y ∈ init, x ≠ y := by
      intro y hy e
      subst e
      exact (List.nodup_append.mp hnd).2.2 x hy x List.mem_cons_self rfl
    refine ⟨hinit.congr (fun y hy => ?_) (fun y hy => ?_), ?_, ?_, trivial⟩
    · exact hf y (List.mem_append_left _ hy) (hne y hy)
    · exact hb y (List.mem_append_left _ hy)
    · rw [hb x (List.mem_append_right _ List.mem_cons_self), hbx]
    · exact hlast x rfl

/-- Redirect the first backward link of a segment. -/
theorem Seg.setStart {fwd bwd fwd' bwd' : α → α} {p p' q : α} {l : List α}
    (h : Seg fwd bwd p l q) (hf : ∀ x ∈ l, fwd' x = fwd x)
    (hb : ∀ x ∈ l, x ∉ l.head? → bwd' x = bwd x)
    (hfirst : ∀ x ∈ l.head?, bwd' x = p') (hnd : l.Nodup) :
    Seg fwd' bwd' p' l q := by
  cases l with
  | nil => trivial
  | cons x xs =>
    simp only [List.head?_cons, Option.mem_def, Option.some.injEq] at hb hfirst
    obtain ⟨_, hfx, hxs⟩ := h
    have hne : ∀ y ∈ xs, x ≠ y := by
      intro y hy e
      subst e
      exact (List.nodup_cons.mp hnd).1 hy
    refine ⟨hfirst x rfl, ?_, hxs.congr (fun y hy => ?_) (fun y hy => ?_)⟩
    · rw [hf x List.mem_cons_self, hfx]
    · exact hf y (List.mem_cons_of_mem x hy)
    · exact hb y (List.mem_cons_of_mem x hy) (hne y hy)

/-- **Insertion.** The node before points on to `a`, the node after points back
to it, and `a` points to both. -/
theorem Seg.insert {fwd bwd fwd' bwd' : α → α} {p q a : α} {l r : List α}
    (h : Seg fwd bwd p (l ++ r) q) (hnd : (l ++ r).Nodup)
    (hfa : fwd' a = r.headD q) (hba : bwd' a = l.getLastD p)
    (hfl : ∀ x ∈ l.getLast?, fwd' x = a) (hbr : ∀ y ∈ r.head?, bwd' y = a)
    (hf : ∀ x ∈ l ++ r, x ∉ l.getLast? → fwd' x = fwd x)
    (hb : ∀ x ∈ l ++ r, x ∉ r.head? → bwd' x = bwd x) :
    Seg fwd' bwd' p (l ++ a :: r) q := by
  obtain ⟨hl, hr⟩ := seg_append.mp h
  obtain ⟨hndl, hndr, hdisj⟩ := List.nodup_append.mp hnd
  rw [seg_append, List.headD_cons, seg_cons]
  refine ⟨hl.setEnd ?_ ?_ hfl hndl, hba, hfa, hr.setStart ?_ ?_ hbr hndr⟩
  · intro x hx
    exact hb x (List.mem_append_left _ hx)
      (fun hx' => hdisj x hx x (List.mem_of_mem_head? hx') rfl)
  · exact fun x hx => hf x (List.mem_append_left _ hx)
  · intro x hx
    exact hf x (List.mem_append_right _ hx)
      (fun hx' => hdisj x (List.mem_of_mem_getLast? hx') x hx rfl)
  · exact fun x hx => hb x (List.mem_append_right _ hx)

/-- **Deletion.** The node before and the node after are joined. -/
theorem Seg.remove {fwd bwd fwd' bwd' : α → α} {p q a : α} {l r : List α}
    (h : Seg fwd bwd p (l ++ a :: r) q) (hnd : (l ++ r).Nodup)
    (hfl : ∀ x ∈ l.getLast?, fwd' x = r.headD q) (hbr : ∀ y ∈ r.head?, bwd' y = l.getLastD p)
    (hf : ∀ x ∈ l ++ r, x ∉ l.getLast? → fwd' x = fwd x)
    (hb : ∀ x ∈ l ++ r, x ∉ r.head? → bwd' x = bwd x) :
    Seg fwd' bwd' p (l ++ r) q := by
  obtain ⟨hl, _, _, hr⟩ := seg_append.mp h
  obtain ⟨hndl, hndr, hdisj⟩ := List.nodup_append.mp hnd
  rw [seg_append]
  refine ⟨hl.setEnd ?_ ?_ hfl hndl, hr.setStart ?_ ?_ hbr hndr⟩
  · intro x hx
    exact hb x (List.mem_append_left _ hx)
      (fun hx' => hdisj x hx x (List.mem_of_mem_head? hx') rfl)
  · exact fun x hx => hf x (List.mem_append_left _ hx)
  · intro x hx
    exact hf x (List.mem_append_right _ hx)
      (fun hx' => hdisj x (List.mem_of_mem_getLast? hx') x hx rfl)
  · exact fun x hx => hb x (List.mem_append_right _ hx)

/-- The links at a node inside a segment lead to its neighbours. -/
theorem Seg.at_mid {fwd bwd : α → α} {p q a : α} {l r : List α}
    (h : Seg fwd bwd p (l ++ a :: r) q) : bwd a = l.getLastD p ∧ fwd a = r.headD q := by
  obtain ⟨_, hb, hf, _⟩ := seg_append.mp h
  exact ⟨hb, hf⟩

/-- The nodes and the ends of a segment determine its links. -/
theorem Seg.links_eq {fwd bwd fwd' bwd' : α → α} {p q : α} {l : List α}
    (h : Seg fwd bwd p l q) (h' : Seg fwd' bwd' p l q) :
    ∀ x ∈ l, fwd x = fwd' x ∧ bwd x = bwd' x := by
  intro x hx
  obtain ⟨l₁, l₂, rfl⟩ := List.append_of_mem hx
  exact ⟨h.at_mid.2.trans h'.at_mid.2.symm, h.at_mid.1.trans h'.at_mid.1.symm⟩

/-- Inside a segment the backward links are the inverse of the forward ones. -/
theorem Seg.inverse {fwd bwd : α → α} {p q x y : α} {l : List α} (h : Seg fwd bwd p l q)
    (hp : p ∉ l) (hq : q ∉ l) (hx : x ∈ l) (hy : y ∈ l) : fwd x = y ↔ bwd y = x := by
  constructor
  · intro hxy
    obtain ⟨l₁, l₂, rfl⟩ := List.append_of_mem hx
    rw [h.at_mid.2] at hxy
    cases l₂ with
    | nil =>
      have hyq : q = y := hxy
      exact absurd (hyq ▸ hy) hq
    | cons z l₂ =>
      rw [show y = z from hxy.symm]
      exact (seg_append.mp h).2.2.2.1
  · intro hyx
    obtain ⟨l₁, l₂, rfl⟩ := List.append_of_mem hy
    rw [h.at_mid.1] at hyx
    rcases List.eq_nil_or_concat l₁ with rfl | ⟨l₀, z, rfl⟩
    · have hxp : p = x := hyx
      exact absurd (hxp ▸ hx) hp
    · rw [List.concat_eq_append, List.getLastD_concat] at hyx
      rw [List.concat_eq_append, List.append_assoc] at h
      rw [show x = z from hyx.symm]
      exact h.at_mid.2

/-- A segment that does not come back to what it points back to has no node twice: the
second time, the backward link of the node would have to lead into the segment. -/
theorem Seg.nodup {fwd bwd : α → α} {p q : α} {l : List α} (h : Seg fwd bwd p l q)
    (hp : p ∉ l) : l.Nodup := by
  induction l generalizing p with
  | nil => exact List.nodup_nil
  | cons x xs ih =>
    obtain ⟨hbx, _, hxs⟩ := h
    have hx : x ∉ xs := by
      intro hmem
      obtain ⟨l₁, l₂, rfl⟩ := List.append_of_mem hmem
      have hback : l₁.getLastD x = p := hxs.at_mid.1.symm.trans hbx
      have hlast : l₁.getLastD x ∈ x :: l₁ := List.getLastD_mem_cons
      rw [hback] at hlast
      exact hp (List.mem_append_left (x :: l₂) hlast)
    exact List.nodup_cons.mpr ⟨hx, ih hxs hx⟩

theorem eq_getLastD {l : List α} (d : α) {x : α} (hx : x ∈ l.getLast?) : x = l.getLastD d := by
  rw [List.getLastD_eq_getLast?, hx]
  rfl

theorem eq_headD {l : List α} (d : α) {x : α} (hx : x ∈ l.head?) : x = l.headD d := by
  rw [List.headD_eq_head?_getD, hx]
  rfl

theorem getLast?_of_eq {l : List α} {d x : α} (hx : x ≠ d) (h : x = l.getLastD d) :
    x ∈ l.getLast? := by
  rw [List.getLastD_eq_getLast?] at h
  cases hl : l.getLast? with
  | none =>
    rw [hl] at h
    exact absurd h hx
  | some z =>
    rw [hl] at h
    rw [h]
    rfl

theorem head?_of_eq {l : List α} {d x : α} (hx : x ≠ d) (h : x = l.headD d) :
    x ∈ l.head? := by
  rw [List.headD_eq_head?_getD] at h
  cases hl : l.head? with
  | none =>
    rw [hl] at h
    exact absurd h hx
  | some z =>
    rw [hl] at h
    rw [h]
    rfl

theorem getLastD_mem {l : List α} {d : α} (h : l.getLastD d ≠ d) : l.getLastD d ∈ l :=
  List.mem_of_mem_getLast? (getLast?_of_eq h rfl)

theorem headD_mem {l : List α} {d : α} (h : l.headD d ≠ d) : l.headD d ∈ l :=
  List.mem_of_mem_head? (head?_of_eq h rfl)

end LinkedSegment
