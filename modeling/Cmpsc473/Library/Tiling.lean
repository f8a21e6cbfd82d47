import Mathlib.Algebra.GroupWithZero.Nat
import Mathlib.Data.List.Chain
import Mathlib.Order.Basic

/-!
# Tilings of an interval

A list of pieces tiles `[a, e)` when the first starts at `a`, each starts where
the one before it ends, and the last ends at `e`.  The pieces are of any type,
with a start and a length.

The second half is about tilings some of whose pieces are free.  When no two
neighbours are both free, the free pieces are exactly the maximal gaps that the
other pieces leave (`isGap_iff`), so they are a function of those pieces.
-/

namespace Tiling

variable {β : Type} {start len : β → Nat}

def Tiles (start len : β → Nat) : Nat → List β → Nat → Prop
  | a, [], e => a = e
  | a, b :: bs, e => start b = a ∧ Tiles start len (a + len b) bs e

theorem tiles_nil {a e : Nat} : Tiles start len a [] e ↔ a = e := Iff.rfl

theorem tiles_cons {a e : Nat} {b : β} {bs : List β} :
    Tiles start len a (b :: bs) e ↔ start b = a ∧ Tiles start len (a + len b) bs e := Iff.rfl

theorem tiles_append {a e : Nat} {l r : List β} :
    Tiles start len a (l ++ r) e ↔
      ∃ m, Tiles start len a l m ∧ Tiles start len m r e := by
  induction l generalizing a with
  | nil => simp [tiles_nil]
  | cons b bs ih =>
    simp only [List.cons_append, tiles_cons, ih]
    constructor
    · rintro ⟨hb, m, hl, hr⟩
      exact ⟨m, ⟨hb, hl⟩, hr⟩
    · rintro ⟨m, ⟨hb, hl⟩, hr⟩
      exact ⟨hb, m, hl, hr⟩

/-- A tiling opened at one of its pieces. -/
theorem tiles_mid {a e : Nat} {l r : List β} {b : β} :
    Tiles start len a (l ++ b :: r) e ↔
      Tiles start len a l (start b) ∧ Tiles start len (start b + len b) r e := by
  rw [tiles_append]
  constructor
  · rintro ⟨m, hl, rfl, hr⟩
    exact ⟨hl, hr⟩
  · rintro ⟨hl, hr⟩
    exact ⟨start b, hl, rfl, hr⟩

theorem Tiles.le {a e : Nat} {l : List β} (h : Tiles start len a l e) : a ≤ e := by
  induction l generalizing a with
  | nil => exact Nat.le_of_eq h
  | cons b bs ih =>
    have := ih h.2
    omega

/-- The pieces of a tiling add up to the interval. -/
theorem Tiles.sum_len {a e : Nat} {l : List β} (h : Tiles start len a l e) :
    a + (l.map len).sum = e := by
  induction l generalizing a with
  | nil => exact h
  | cons b bs ih =>
    have := ih h.2
    rw [List.map_cons, List.sum_cons]
    omega

theorem Tiles.bounds {a e : Nat} {l : List β} (h : Tiles start len a l e) :
    ∀ b ∈ l, a ≤ start b ∧ start b + len b ≤ e := by
  induction l generalizing a with
  | nil => exact fun b hb => absurd hb List.not_mem_nil
  | cons c cs ih =>
    intro b hb
    obtain ⟨hc, hcs⟩ := h
    have hle := hcs.le
    rcases List.mem_cons.mp hb with rfl | hb
    · omega
    · have := ih hcs b hb
      omega

/-- A tiling moved down by `d`. -/
theorem Tiles.sub {a e d : Nat} {l : List β} (h : Tiles start len a l e) (hd : d ≤ a) :
    Tiles (fun b => start b - d) len (a - d) l (e - d) := by
  induction l generalizing a with
  | nil =>
    have hae : a = e := h
    rw [hae]
    rfl
  | cons b bs ih =>
    obtain ⟨rfl, hbs⟩ := h
    have := ih hbs (by omega)
    rw [show start b + len b - d = start b - d + len b by omega] at this
    exact ⟨rfl, this⟩

/-- A tiling by pieces that are named differently. -/
theorem tiles_map {γ : Type} {f : β → γ} {start' len' : γ → Nat} {a e : Nat} {l : List β}
    (hs : ∀ b ∈ l, start' (f b) = start b) (hl : ∀ b ∈ l, len' (f b) = len b) :
    Tiles start' len' a (l.map f) e ↔ Tiles start len a l e := by
  induction l generalizing a with
  | nil => rfl
  | cons b bs ih =>
    rw [List.map_cons, tiles_cons, tiles_cons, hs b List.mem_cons_self, hl b List.mem_cons_self,
      ih (fun c hc => hs c (List.mem_cons_of_mem b hc))
        (fun c hc => hl c (List.mem_cons_of_mem b hc))]

/-- When all lengths are multiples of `d`, so are the starts. -/
theorem Tiles.aligned {a e d : Nat} {l : List β} (h : Tiles start len a l e)
    (hlen : ∀ b ∈ l, len b % d = 0) (ha : a % d = 0) :
    (∀ b ∈ l, start b % d = 0) ∧ e % d = 0 := by
  induction l generalizing a with
  | nil =>
    refine ⟨fun b hb => absurd hb List.not_mem_nil, ?_⟩
    have hae : a = e := h
    rw [← hae, ha]
  | cons b bs ih =>
    obtain ⟨rfl, hbs⟩ := h
    have hnext : (start b + len b) % d = 0 := by
      rw [Nat.add_mod, ha, hlen b List.mem_cons_self]
      exact Nat.zero_mod d
    obtain ⟨hstarts, hend⟩ := ih hbs (fun c hc => hlen c (List.mem_cons_of_mem b hc)) hnext
    refine ⟨fun c hc => ?_, hend⟩
    rcases List.mem_cons.mp hc with rfl | hc
    · exact ha
    · exact hstarts c hc

/-- Pieces come in order and do not overlap. -/
theorem Tiles.pairwise {a e : Nat} {l : List β} (h : Tiles start len a l e) :
    l.Pairwise (fun b c => start b + len b ≤ start c) := by
  induction l generalizing a with
  | nil => exact List.Pairwise.nil
  | cons b bs ih =>
    obtain ⟨rfl, hbs⟩ := h
    exact List.Pairwise.cons (fun c hc => (hbs.bounds c hc).1) (ih hbs)

theorem Tiles.ordered {a e : Nat} {l : List β} (h : Tiles start len a l e) {b c : β}
    (hb : b ∈ l) (hc : c ∈ l) :
    b = c ∨ start b + len b ≤ start c ∨ start c + len c ≤ start b := by
  obtain ⟨l₁, l₂, rfl⟩ := List.append_of_mem hb
  obtain ⟨h₁, h₂⟩ := tiles_mid.mp h
  rcases List.mem_append.mp hc with hc | hc
  · exact Or.inr (Or.inr (h₁.bounds c hc).2)
  · rcases List.mem_cons.mp hc with rfl | hc
    · exact Or.inl rfl
    · exact Or.inr (Or.inl (h₂.bounds c hc).1)

/-- Two pieces of positive length that start together are one piece. -/
theorem Tiles.start_inj {a e : Nat} {l : List β} (h : Tiles start len a l e)
    (hpos : ∀ b ∈ l, 0 < len b) {b c : β} (hb : b ∈ l) (hc : c ∈ l) (hbc : start b = start c) :
    b = c := by
  have := hpos b hb
  have := hpos c hc
  rcases h.ordered hb hc with he | he | he
  · exact he
  · omega
  · omega

/-- Every point of the interval lies in a piece. -/
theorem Tiles.cover {a e : Nat} {l : List β} (h : Tiles start len a l e) {x : Nat}
    (hx : a ≤ x) (hx' : x < e) : ∃ b ∈ l, start b ≤ x ∧ x < start b + len b := by
  induction l generalizing a with
  | nil =>
    have : a = e := h
    omega
  | cons b bs ih =>
    obtain ⟨rfl, hbs⟩ := h
    by_cases hxb : x < start b + len b
    · exact ⟨b, List.mem_cons_self, hx, hxb⟩
    · obtain ⟨c, hc, hcx⟩ := ih hbs (by omega)
      exact ⟨c, List.mem_cons_of_mem b hc, hcx⟩

/-- `[lo, hi)` is a maximal part of `[a, e)` that meets no taken extent: each of
its ends is an end of the interval or the end of a taken extent.  `taken s n`
says that an extent of `n` points from `s` on is taken. -/
def IsGap (taken : Nat → Nat → Prop) (a e lo hi : Nat) : Prop :=
  a ≤ lo ∧ lo < hi ∧ hi ≤ e ∧
    (∀ s n, taken s n → s + n ≤ lo ∨ hi ≤ s) ∧
    (lo = a ∨ ∃ s n, taken s n ∧ s + n = lo) ∧
    (hi = e ∨ ∃ n, taken hi n)

variable {a e : Nat} {l : List β} {free : β → Prop}

/-- After a free piece comes the end of the interval or a taken piece. -/
theorem Tiles.after_free (h : Tiles start len a l e)
    (hchain : l.IsChain (fun b c => ¬ (free b ∧ free c))) {b : β} (hb : b ∈ l) (hbf : free b) :
    start b + len b = e ∨ ∃ c ∈ l, ¬ free c ∧ start c = start b + len b := by
  obtain ⟨l₁, l₂, rfl⟩ := List.append_of_mem hb
  obtain ⟨_, h₂⟩ := tiles_mid.mp h
  cases l₂ with
  | nil => exact Or.inl h₂
  | cons c cs =>
    have hnf : ¬ free c := fun hcf => (List.isChain_split.mp hchain).2.rel ⟨hbf, hcf⟩
    exact Or.inr ⟨c, by simp, hnf, h₂.1⟩

/-- Before a free piece comes the start of the interval or a taken piece. -/
theorem Tiles.before_free (h : Tiles start len a l e)
    (hchain : l.IsChain (fun b c => ¬ (free b ∧ free c))) {b : β} (hb : b ∈ l) (hbf : free b) :
    start b = a ∨ ∃ c ∈ l, ¬ free c ∧ start c + len c = start b := by
  obtain ⟨l₁, l₂, rfl⟩ := List.append_of_mem hb
  obtain ⟨h₁, _⟩ := tiles_mid.mp h
  rcases List.eq_nil_or_concat l₁ with rfl | ⟨init, c, rfl⟩
  · exact Or.inl h₁.symm
  · rw [List.concat_eq_append] at *
    rw [List.append_assoc, List.singleton_append] at hchain
    have hnf : ¬ free c := fun hcf => (List.isChain_split.mp hchain).2.rel ⟨hcf, hbf⟩
    exact Or.inr ⟨c, by simp, hnf, (tiles_mid.mp h₁).2⟩

/-- In a tiling without neighbouring free pieces the free pieces are the maximal
gaps between the others. -/
theorem isGap_iff (h : Tiles start len a l e) (hpos : ∀ b ∈ l, 0 < len b)
    (hchain : l.IsChain (fun b c => ¬ (free b ∧ free c))) (lo hi : Nat) :
    IsGap (fun s n => ∃ b ∈ l, ¬ free b ∧ start b = s ∧ len b = n) a e lo hi ↔
      ∃ b ∈ l, free b ∧ start b = lo ∧ start b + len b = hi := by
  constructor
  · rintro ⟨hlo, hlt, hhi, hfree, hleft, hright⟩
    obtain ⟨c, hc, hcx⟩ := h.cover hlo (by omega)
    have hcpos := hpos c hc
    have hcb := h.bounds c hc
    have hcf : free c := by
      by_contra hnf
      have := hfree (start c) (len c) ⟨c, hc, hnf, rfl, rfl⟩
      omega
    -- A taken piece cannot begin or end strictly inside `c`.
    have hout : ∀ d ∈ l, ¬ free d → start d + len d ≤ start c ∨ start c + len c ≤ start d := by
      intro d hd hdn
      rcases h.ordered hc hd with rfl | hcd | hcd
      · exact absurd hcf hdn
      · exact Or.inr hcd
      · exact Or.inl hcd
    have hstart : start c = lo := by
      rcases hleft with rfl | ⟨_, _, ⟨d, hd, hdn, rfl, rfl⟩, hend⟩
      · omega
      · have := hpos d hd
        have := hout d hd hdn
        omega
    have hge : hi ≤ start c + len c := by
      rcases h.after_free hchain hc hcf with he | ⟨d, hd, hdn, hds⟩
      · omega
      · have := hpos d hd
        have := hfree (start d) (len d) ⟨d, hd, hdn, rfl, rfl⟩
        omega
    have hle : start c + len c ≤ hi := by
      rcases hright with rfl | ⟨_, d, hd, hdn, hds, rfl⟩
      · omega
      · have := hpos d hd
        have := hout d hd hdn
        omega
    exact ⟨c, hc, hcf, hstart, by omega⟩
  · rintro ⟨b, hb, hbf, rfl, rfl⟩
    have hbpos := hpos b hb
    have hbb := h.bounds b hb
    refine ⟨hbb.1, by omega, hbb.2, ?_, ?_, ?_⟩
    · rintro _ _ ⟨d, hd, hdn, rfl, rfl⟩
      rcases h.ordered hb hd with rfl | hbd | hbd
      · exact absurd hbf hdn
      · exact Or.inr hbd
      · exact Or.inl hbd
    · rcases h.before_free hchain hb hbf with he | ⟨d, hd, hdn, hde⟩
      · exact Or.inl he
      · exact Or.inr ⟨start d, len d, ⟨d, hd, hdn, rfl, rfl⟩, hde⟩
    · rcases h.after_free hchain hb hbf with he | ⟨d, hd, hdn, hds⟩
      · exact Or.inl he
      · exact Or.inr ⟨len d, d, hd, hdn, hds, rfl⟩

end Tiling
