import Mathlib.Data.List.Basic
import Mathlib.Data.List.Chain
import Mathlib.Tactic.Common

/-!
# Doubly linked lists with gaps

The nodes of a list are linked in its order, but the link between two neighbours may be
missing, in both directions at once.  `Gapped fwd bwd q l h` says that the nodes of `l` are
linked so, that the first points back to `q` and that the last points on to `h` or to
nothing.

A node that is put in behind another takes over what that one pointed on to, and a node
that is taken out leaves its two links to its neighbours.  Neither closes a gap.
-/

namespace GappedList

variable {α : Type} [DecidableEq α] (null : α)

/-- What the node behind `x` points back to. -/
def back (fwd : α → α) (x : α) : α := if fwd x = null then null else x

def Gapped (fwd bwd : α → α) : α → List α → α → Prop
  | _, [], _ => True
  | q, x :: l, h => bwd x = q ∧ (fwd x = null ∨ fwd x = l.headD h) ∧ Gapped fwd bwd (back null fwd x) l h

variable {null} {fwd bwd fwd' bwd' : α → α} {q q' h h' p x : α} {l r : List α}

/-- What a node behind a list points back to. -/
def backOf (null : α) (fwd : α → α) (q : α) (l : List α) : α :=
  (l.getLast?.map (back null fwd)).getD q

@[simp] theorem backOf_nil : backOf null fwd q [] = q := rfl

@[simp] theorem backOf_cons : backOf null fwd q (x :: l) = backOf null fwd (back null fwd x) l := by
  cases l with
  | nil => rfl
  | cons y l => rw [backOf, backOf, List.getLast?_cons_cons, List.getLast?_cons]; rfl

theorem backOf_snoc : backOf null fwd q (l ++ [x]) = back null fwd x := by
  rw [backOf, List.getLast?_append]
  rfl

theorem gapped_append : Gapped null fwd bwd q (l ++ r) h ↔
    Gapped null fwd bwd q l (r.headD h) ∧ Gapped null fwd bwd (backOf null fwd q l) r h := by
  induction l generalizing q with
  | nil => exact (and_iff_right trivial).symm
  | cons x l ih =>
    have hhead : (l ++ r).headD h = l.headD (r.headD h) := by cases l <;> rfl
    rw [List.cons_append, Gapped, Gapped, ih, hhead, backOf_cons]
    simp only [and_assoc]

theorem back_congr (hx : fwd' x = fwd x) : back null fwd' x = back null fwd x := by
  rw [back, back, hx]

theorem backOf_congr (hf : ∀ y ∈ l, fwd' y = fwd y) :
    backOf null fwd' q l = backOf null fwd q l := by
  induction l generalizing q with
  | nil => rfl
  | cons x l ih =>
    rw [backOf_cons, backOf_cons, back_congr (hf x List.mem_cons_self),
      ih fun y hy => hf y (List.mem_cons_of_mem x hy)]

theorem Gapped.congr (hl : Gapped null fwd bwd q l h) (hf : ∀ y ∈ l, fwd' y = fwd y)
    (hb : ∀ y ∈ l, bwd' y = bwd y) : Gapped null fwd' bwd' q l h := by
  induction l generalizing q with
  | nil => trivial
  | cons x l ih =>
    obtain ⟨hbx, hfx, hrest⟩ := hl
    have hsame := hf x List.mem_cons_self
    refine ⟨(hb x List.mem_cons_self).trans hbx, hsame ▸ hfx, ?_⟩
    rw [back_congr hsame]
    exact ih hrest (fun y hy => hf y (List.mem_cons_of_mem x hy))
      fun y hy => hb y (List.mem_cons_of_mem x hy)

/-- The link to the node `n` at the start of a list is taken over by `x`. -/
theorem Gapped.relink {n : α} (hr : Gapped null fwd bwd (if n = null then null else p) r h)
    (hnd : r.Nodup) (hnull : null ∉ r) (hn : n = null ∨ n = r.headD h)
    (hf : ∀ y ∈ r, fwd' y = fwd y) (hb : ∀ y ∈ r, y ≠ n → bwd' y = bwd y)
    (hx : n ≠ null → bwd' n = x) : Gapped null fwd' bwd' (if n = null then null else x) r h := by
  cases r with
  | nil => trivial
  | cons y r =>
    have hy : y ∉ r := (List.nodup_cons.mp hnd).1
    rcases hn with rfl | hn
    · rw [if_pos rfl] at hr ⊢
      exact hr.congr hf fun z hz => hb z hz fun heq => hnull (heq ▸ hz)
    · rw [List.headD_cons] at hn
      rw [hn] at hb hx ⊢
      have hynull : y ≠ null := fun heq => hnull (heq ▸ List.mem_cons_self)
      obtain ⟨-, hfy, hrest⟩ := hr
      have hsame := hf y List.mem_cons_self
      rw [if_neg hynull]
      refine ⟨hx hynull, hsame ▸ hfy, ?_⟩
      rw [back_congr hsame]
      refine hrest.congr (fun z hz => hf z (List.mem_cons_of_mem y hz)) fun z hz => ?_
      exact hb z (List.mem_cons_of_mem y hz) fun heq => hy (heq ▸ hz)

/-- The link of `x` leads to the next node or to nothing, and so not back. -/
theorem Gapped.fwd_ne (hl : Gapped null fwd bwd q (l ++ x :: r) null) (hnd : (l ++ x :: r).Nodup)
    (hnull : null ∉ l ++ x :: r) : ∀ y ∈ l ++ [x], y ≠ fwd x := by
  intro y hy heq
  have hmem : y ∈ l ++ x :: r := by
    rcases List.mem_append.mp hy with hy | hy
    · exact List.mem_append_left _ hy
    · exact List.mem_append_right _ (List.mem_singleton.mp hy ▸ List.mem_cons_self)
  obtain ⟨-, -, hfwd, -⟩ := gapped_append.mp hl
  rcases hfwd with hfwd | hfwd
  · exact hnull (hfwd ▸ heq ▸ hmem)
  · cases r with
    | nil =>
      have hy0 : y = null := heq.trans hfwd
      exact hnull (hy0 ▸ hmem)
    | cons z r =>
      have hyz : y = z := heq.trans hfwd
      have happend : l ++ x :: z :: r = (l ++ [x]) ++ z :: r := by simp
      rw [happend] at hnd
      exact (List.nodup_append.mp hnd).2.2 y hy z List.mem_cons_self hyz

/-- **A node is put in** behind `x`. -/
theorem Gapped.insert (hl : Gapped null fwd bwd q (l ++ x :: r) null)
    (hnd : (p :: (l ++ x :: r)).Nodup) (hnull : null ∉ p :: (l ++ x :: r)) (hfx : fwd' x = p)
    (hfp : fwd' p = fwd x) (hbp : bwd' p = x) (hn : fwd x ≠ null → bwd' (fwd x) = p)
    (hf : ∀ y ∈ l ++ x :: r, y ≠ x → fwd' y = fwd y)
    (hb : ∀ y ∈ l ++ x :: r, y ≠ fwd x → bwd' y = bwd y) :
    Gapped null fwd' bwd' q (l ++ x :: p :: r) null := by
  obtain ⟨hleft, hbx, hfwd, hright⟩ := gapped_append.mp hl
  obtain ⟨hp, hnd⟩ := List.nodup_cons.mp hnd
  have hout := hl.fwd_ne hnd fun hmem => hnull (List.mem_cons_of_mem p hmem)
  obtain ⟨hndl, hndr, hcross⟩ := List.nodup_append.mp hnd
  obtain ⟨hxr, hndr⟩ := List.nodup_cons.mp hndr
  have hpnull : p ≠ null := fun heq => hnull (heq ▸ List.mem_cons_self)
  have hfl : ∀ y ∈ l, fwd' y = fwd y := fun y hy =>
    hf y (List.mem_append_left _ hy) fun heq => hcross y hy x List.mem_cons_self heq
  have hbl : ∀ y ∈ l, bwd' y = bwd y := fun y hy =>
    hb y (List.mem_append_left _ hy) (hout y (List.mem_append_left _ hy))
  refine gapped_append.mpr ⟨hleft.congr hfl hbl, ?_, Or.inr hfx, ?_, ?_, ?_⟩
  · rw [backOf_congr hfl, ← hbx]
    exact hb x (by simp) (hout x (by simp))
  · rw [back, hfx, if_neg hpnull, hbp]
  · rw [hfp]
    exact hfwd
  · rw [back, hfp]
    exact hright.relink hndr (fun hmem => hnull (by simp [hmem])) hfwd
      (fun y hy => hf y (by simp [hy]) fun heq => hxr (heq ▸ hy))
      (fun y hy hne => hb y (by simp [hy]) hne) hn

/-- **A node is put in** at the front, with a gap behind it. -/
theorem Gapped.cons (hl : Gapped null fwd bwd null l null) (hfp : fwd' p = null)
    (hbp : bwd' p = null) (hf : ∀ y ∈ l, fwd' y = fwd y) (hb : ∀ y ∈ l, bwd' y = bwd y) :
    Gapped null fwd' bwd' null (p :: l) null := by
  refine ⟨hbp, Or.inl hfp, ?_⟩
  rw [back, if_pos hfp]
  exact hl.congr hf hb

/-- **A node is taken out.** -/
theorem Gapped.remove (hl : Gapped null fwd bwd null (l ++ p :: r) null)
    (hnd : (l ++ p :: r).Nodup) (hnull : null ∉ l ++ p :: r)
    (hpred : bwd p ≠ null → fwd' (bwd p) = fwd p) (hnext : fwd p ≠ null → bwd' (fwd p) = bwd p)
    (hf : ∀ y ∈ l ++ r, y ≠ bwd p → fwd' y = fwd y)
    (hb : ∀ y ∈ l ++ r, y ≠ fwd p → bwd' y = bwd y) :
    Gapped null fwd' bwd' null (l ++ r) null := by
  have hout := hl.fwd_ne hnd hnull
  obtain ⟨hleft, hbp, hfwd, hright⟩ := gapped_append.mp hl
  obtain ⟨hndl, hndr, hcross⟩ := List.nodup_append.mp hnd
  obtain ⟨hpr, hndr⟩ := List.nodup_cons.mp hndr
  have hnullr : null ∉ r := fun hmem => hnull (by simp [hmem])
  have hbl : ∀ y ∈ l, bwd' y = bwd y := fun y hy =>
    hb y (List.mem_append_left _ hy) (hout y (List.mem_append_left _ hy))
  have hbr : ∀ y ∈ r, y ≠ fwd p → bwd' y = bwd y := fun y hy => hb y (List.mem_append_right _ hy)
  rcases List.eq_nil_or_concat l with rfl | ⟨l, x, rfl⟩
  · rw [backOf_nil] at hbp
    have hfr : ∀ y ∈ r, fwd' y = fwd y := fun y hy =>
      hf y hy fun heq => hnullr (hbp ▸ heq ▸ hy)
    have hlink := hright.relink (x := bwd p) hndr hnullr hfwd hfr hbr hnext
    rw [hbp, ite_self] at hlink
    exact hlink
  · rw [List.concat_eq_append] at *
    obtain ⟨hfirst, hbx, hfx, -⟩ := gapped_append.mp hleft
    have hxl : ∀ y ∈ l, y ≠ x := fun y hy heq =>
      (List.nodup_append.mp hndl).2.2 y hy x List.mem_cons_self heq
    have hxr : ∀ y ∈ r, y ≠ x := fun y hy heq =>
      hcross x (by simp) y (List.mem_cons_of_mem p hy) heq.symm
    have hxnull : x ≠ null := fun heq => hnull (by simp [heq])
    rw [backOf_snoc, back] at hbp
    -- Only `x` and what follows it have new links, if any node has.
    have hfl : ∀ y ∈ l, fwd' y = fwd y := by
      intro y hy
      refine hf y (by simp [hy]) fun heq => ?_
      rw [hbp] at heq
      split at heq
      · exact hnull (by simp [← heq, hy])
      · exact hxl y hy heq
    have hfr : ∀ y ∈ r, fwd' y = fwd y := by
      intro y hy
      refine hf y (by simp [hy]) fun heq => ?_
      rw [hbp] at heq
      split at heq
      · exact hnullr (heq ▸ hy)
      · exact hxr y hy heq
    have hlink := hright.relink (x := bwd p) hndr hnullr hfwd hfr hbr hnext
    have hbx' : bwd' x = backOf null fwd' null l := by
      rw [backOf_congr hfl, ← hbx]
      exact hbl x (by simp)
    have hl' := hfirst.congr hfl fun y hy => hbl y (by simp [hy])
    refine gapped_append.mpr ⟨gapped_append.mpr ⟨hl', hbx', ?_, trivial⟩, ?_⟩
    · by_cases hgap : fwd x = null
      · rw [if_pos hgap] at hbp
        refine Or.inl ((hf x (by simp) ?_).trans hgap)
        rw [hbp]
        exact hxnull
      · rw [if_neg hgap] at hbp
        have hx := hpred (hbp ▸ hxnull)
        rw [hbp] at hx
        rw [hx]
        exact hfwd
    · rw [backOf_snoc, back]
      by_cases hgap : fwd x = null
      · rw [if_pos hgap] at hbp
        have hx : fwd' x = null := (hf x (by simp) (hbp ▸ hxnull)).trans hgap
        rw [hbp, ite_self] at hlink
        rw [if_pos hx]
        exact hlink
      · rw [if_neg hgap] at hbp
        have hx := hpred (hbp ▸ hxnull)
        rw [hbp] at hx hlink
        rw [hx]
        exact hlink

/-- Every node points on to the next. -/
def Unbroken (fwd : α → α) (l : List α) : Prop := l.IsChain fun x y => fwd x = y

omit [DecidableEq α] in
theorem Unbroken.congr (hl : Unbroken fwd l) (hf : ∀ y ∈ l, fwd' y = fwd y) : Unbroken fwd' l :=
  hl.imp_of_mem_imp fun x _ hx _ hxy => (hf x hx).trans hxy

omit [DecidableEq α] in
theorem Unbroken.insert (hl : Unbroken fwd (l ++ x :: r)) (hfx : fwd' x = p)
    (hfp : fwd' p = fwd x) (hf : ∀ y ∈ l ++ r, fwd' y = fwd y) :
    Unbroken fwd' (l ++ x :: p :: r) := by
  obtain ⟨hleft, hxr, hlast⟩ := List.isChain_append.mp hl
  obtain ⟨hx, hright⟩ := List.isChain_cons.mp hxr
  have hleft' : Unbroken fwd' l :=
    Unbroken.congr hleft fun y hy => hf y (List.mem_append_left _ hy)
  have hright' : Unbroken fwd' r :=
    Unbroken.congr hright fun y hy => hf y (List.mem_append_right _ hy)
  refine List.isChain_append.mpr ⟨hleft', List.isChain_cons.mpr ⟨?_, List.isChain_cons.mpr ⟨?_,
    hright'⟩⟩, fun y hy z hz => ?_⟩
  · rintro y ⟨rfl⟩
    exact hfx
  · intro y hy
    rw [hfp]
    exact hx y hy
  · rw [hf y (List.mem_append_left _ (List.mem_of_getLast? hy))]
    exact hlast y hy z hz

omit [DecidableEq α] in
theorem Unbroken.remove (hl : Unbroken fwd (l ++ p :: r)) (hlast : ∀ y ∈ l.getLast?, fwd' y = fwd p)
    (hf : ∀ y ∈ l ++ r, y ∉ l.getLast? → fwd' y = fwd y) (hnd : (l ++ p :: r).Nodup) :
    Unbroken fwd' (l ++ r) := by
  obtain ⟨hleft, hpr, -⟩ := List.isChain_append.mp hl
  obtain ⟨hp, hright⟩ := List.isChain_cons.mp hpr
  obtain ⟨hndl, -, hcross⟩ := List.nodup_append.mp hnd
  have hright' : Unbroken fwd' r := Unbroken.congr hright fun y hy =>
    hf y (List.mem_append_right _ hy) fun hy' =>
      hcross y (List.mem_of_getLast? hy') y (List.mem_cons_of_mem p hy) rfl
  have hleft' : Unbroken fwd' l := by
    rcases List.eq_nil_or_concat l with rfl | ⟨l, x, rfl⟩
    · exact List.isChain_nil
    · rw [List.concat_eq_append] at *
      obtain ⟨hinit, -, hx⟩ := List.isChain_append.mp hleft
      have hsame : ∀ y ∈ l, fwd' y = fwd y := by
        intro y hy
        refine hf y (by simp [hy]) fun hy' => ?_
        have heq : y = x := by simpa [eq_comm] using hy'
        exact (List.nodup_append.mp hndl).2.2 y hy x List.mem_cons_self heq
      refine List.isChain_append.mpr ⟨Unbroken.congr hinit hsame, List.isChain_singleton x,
        fun y hy z hz => ?_⟩
      rw [hsame y (List.mem_of_getLast? hy)]
      exact hx y hy z hz
  refine List.isChain_append.mpr ⟨hleft', hright', fun y hy z hz => ?_⟩
  rw [hlast y hy]
  exact hp z hz

end GappedList
