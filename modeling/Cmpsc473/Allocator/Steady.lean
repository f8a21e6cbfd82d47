import Cmpsc473.Allocator.Client

/-!
# Computations below the break

What the allocator reads and writes lies below the break, where it is when a call is
over.  To show this the area is cut off there: a call that still returns on what is left
does the same, and has touched nothing beyond.
-/

namespace Cmpsc473
namespace Allocator

open ByteMemory Total

variable {h h' : Heap}

/-- A call moves the break up within the area, and touches nothing from the new break on:
it does the same where that is all there is. -/
structure Inside (x : Mm Nat) (h : Heap) (r : Nat) (h' : Heap) : Prop where
  area : h'.heap = h.heap ∧ h'.memMaxAddr = h.memMaxAddr
  grows : h.memBrk ≤ h'.memBrk
  le : h'.memBrk ≤ h.memMaxAddr
  touches : x (h.within h.heap h'.memBrk) = some (r, h'.within h.heap h'.memBrk)
  outside : ∀ a, a < h.heap ∨ h'.memBrk ≤ a → h'.mem a = h.mem a

/-- A computation that moves the break up, and for which a smaller area that still holds
the new break is as good: if it returns there, it does the same. -/
structure Steady {α : Type} (x : Mm α) : Prop extends Confined true x where
  grows : ∀ {h a h'}, x h = some (a, h') → h.memBrk ≤ h.memMaxAddr → h.memMaxAddr ≤ 2 ^ 63 →
    h.memBrk ≤ h'.memBrk ∧ h'.memBrk ≤ h.memMaxAddr
  narrow : ∀ {h a h' limit b g}, x h = some (a, h') → h.memBrk ≤ h.memMaxAddr →
    h.memMaxAddr ≤ 2 ^ 63 → h'.memBrk ≤ limit → limit ≤ h.memMaxAddr →
    x (h.within h.heap limit) = some (b, g) → b = a ∧ g = h'.within h.heap limit

section Rules

variable {α β : Type}

/-- Where the break does not move, the larger area decides. -/
theorem Confined.steady {x : Mm α} (hx : Confined false x) : Steady x where
  toConfined := hx.weaken
  grows := by
    intro h a h' hxa hle _
    rw [hx.brk hxa rfl]
    exact ⟨le_rfl, hle⟩
  narrow := by
    intro h a h' limit b g hxa _ _ _ hlimit hxb
    have harea := hx.area hxb
    have hwide : x ((h.within h.heap limit).within h.heap h.memMaxAddr) =
        some (b, g.within h.heap h.memMaxAddr) := hx.within hxb le_rfl hlimit nofun
    rw [Heap.within_within, Heap.within_self, hxa, Option.some.injEq, Prod.mk.injEq] at hwide
    refine ⟨hwide.1.symm, ?_⟩
    rw [hwide.2, Heap.within_within, ← show g.heap = h.heap from harea.1,
      ← show g.memMaxAddr = limit from harea.2, Heap.within_self]

theorem Steady.bind {x : Mm α} {f : α → Mm β} (hx : Steady x) (hf : ∀ a, Steady (f a)) :
    Steady (x >>= f) where
  toConfined := hx.toConfined.bind fun a => (hf a).toConfined
  grows := by
    intro h b h'' hxf hle hlim
    obtain ⟨a, h', hxa, hfa⟩ := bind_eq_some.mp hxf
    have harea := hx.area hxa
    have h₁ := hx.grows hxa hle hlim
    have h₂ := (hf a).grows hfa (by rw [harea.2]; exact h₁.2) (by rwa [harea.2])
    rw [harea.2] at h₂
    exact ⟨h₁.1.trans h₂.1, h₂.2⟩
  narrow := by
    intro h b h'' limit b' g' hxf hle hlim hbrk hlimit hxf'
    obtain ⟨a, h', hxa, hfa⟩ := bind_eq_some.mp hxf
    obtain ⟨a', g, hxa', hfa'⟩ := bind_eq_some.mp hxf'
    have harea := hx.area hxa
    have h₁ := hx.grows hxa hle hlim
    have hle' : h'.memBrk ≤ h'.memMaxAddr := by rw [harea.2]; exact h₁.2
    have hlim' : h'.memMaxAddr ≤ 2 ^ 63 := by rwa [harea.2]
    have h₂ := (hf a).grows hfa hle' hlim'
    obtain ⟨heq, hg⟩ := hx.narrow hxa hle hlim (h₂.1.trans hbrk) hlimit hxa'
    rw [heq, hg, ← harea.1] at hfa'
    rw [← harea.1]
    exact (hf a).narrow hfa hle' hlim' hbrk (by rwa [harea.2]) hfa'

theorem steady_pure (a : α) : Steady (pure a : Mm α) := (confined_pure a).steady

theorem steady_ite {c : Prop} [Decidable c] {x y : Mm α} (hx : Steady x) (hy : Steady y) :
    Steady (if c then x else y) := by
  split
  · exact hx
  · exact hy

/-- `mem_sbrk` of `memlib.c` grants what it is asked for, or nothing. -/
theorem memSbrk_cases {incr r : Nat} (hx : memSbrk incr h = some (r, h'))
    (hle : h.memBrk ≤ h.memMaxAddr) (hlim : h.memMaxAddr ≤ 2 ^ 63) :
    (incr < 2 ^ 63 ∧ h.memBrk + incr ≤ h.memMaxAddr ∧ r = h.memBrk ∧
      h' = { h with memBrk := h.memBrk + incr }) ∨
    ((2 ^ 63 ≤ incr ∨ h.memMaxAddr < h.memBrk + incr) ∧ r = sbrkFailed ∧ h' = h) := by
  unfold memSbrk at hx
  by_cases hneg : 2 ^ 63 ≤ incr
  · rw [if_pos hneg, Option.some.injEq, Prod.mk.injEq] at hx
    exact Or.inr ⟨Or.inl hneg, hx.1.symm, hx.2.symm⟩
  · rw [if_neg hneg] at hx
    by_cases hsum : h.memBrk + incr < 2 ^ 64
    · rw [ptrAdd_eq hsum] at hx
      by_cases hroom : h.memBrk + incr > h.memMaxAddr
      · rw [if_pos hroom, Option.some.injEq, Prod.mk.injEq] at hx
        exact Or.inr ⟨Or.inr hroom, hx.1.symm, hx.2.symm⟩
      · rw [if_neg hroom, Option.some.injEq, Prod.mk.injEq] at hx
        exact Or.inl ⟨by omega, by omega, hx.1.symm, hx.2.symm⟩
    · omega

theorem steady_memSbrk (incr : Nat) : Steady (memSbrk incr) where
  toConfined := confined_memSbrk incr
  grows := by
    intro h r h' hx hle hlim
    rcases memSbrk_cases hx hle hlim with ⟨_, hroom, _, rfl⟩ | ⟨_, _, rfl⟩
    · exact ⟨Nat.le_add_right _ _, hroom⟩
    · exact ⟨le_rfl, hle⟩
  narrow := by
    intro h r h' limit q g hx hle hlim hbrk hlimit hx'
    have hlimit' : limit ≤ 2 ^ 63 := hlimit.trans hlim
    rcases memSbrk_cases hx hle hlim with ⟨_, hroom, rfl, rfl⟩ | ⟨hno, rfl, rfl⟩
    · have hend : h.memBrk + incr ≤ limit := hbrk
      have hle' : h.memBrk ≤ limit := (Nat.le_add_right _ incr).trans hend
      rcases memSbrk_cases hx' hle' hlimit' with ⟨_, _, rfl, rfl⟩ | ⟨hno', _, _⟩
      · exact ⟨rfl, rfl⟩
      · simp only [Heap.within_memMaxAddr, Heap.within_memBrk] at hno'
        omega
    · rcases memSbrk_cases hx' hbrk hlimit' with ⟨_, hroom', _, _⟩ | ⟨_, rfl, rfl⟩
      · simp only [Heap.within_memMaxAddr, Heap.within_memBrk] at hroom'
        omega
      · exact ⟨rfl, rfl⟩

end Rules

theorem steady_extendHeap (words : Nat) : Steady (extendHeap words) := by
  unfold extendHeap
  apply (steady_memSbrk _).bind
  intro bp
  apply steady_ite
  · apply steady_pure
  · exact (confined_addChunk _ _).steady

theorem steady_mmInit : Steady mmInit := by
  unfold mmInit
  apply (confined_clearSegList _ _).steady.bind
  intro _
  apply (steady_memSbrk _).bind
  intro heapListp
  apply (confined_setHeapListp _).steady.bind
  intro _
  apply steady_ite
  · apply steady_pure
  · apply (confined_put _ _).steady.bind
    intro _
    apply (confined_put _ _).steady.bind
    intro _
    apply (confined_put _ _).steady.bind
    intro _
    apply (confined_put _ _).steady.bind
    intro _
    apply (confined_setHeapListp _).steady.bind
    intro _
    apply (steady_extendHeap _).bind
    intro bp
    apply steady_ite
    · apply steady_pure
    · apply steady_pure

theorem steady_mmMalloc (size : Nat) : Steady (mmMalloc size) := by
  unfold mmMalloc
  apply steady_ite
  · apply steady_pure
  · apply (confined_findFit _).steady.bind
    intro bp
    apply steady_ite
    · apply (steady_extendHeap _).bind
      intro bp
      apply steady_ite
      · apply steady_pure
      · exact (confined_placeAt _ _).steady
    · exact (confined_placeAt _ _).steady

theorem Heap.Arena.narrow {limit : Nat} (ha : h.Arena) (hbrk : h.memBrk ≤ limit)
    (hlimit : limit ≤ h.memMaxAddr) : (h.within h.heap limit).Arena :=
  ⟨ha.pos, ha.aligned, ha.brk_aligned, ha.le, hbrk, hlimit.trans ha.limit⟩

theorem Steady.inside {x : Mm Nat} {r : Nat} (hx : Steady x) (hxr : x h = some (r, h'))
    (ha : h.Arena) (hcut : h.memBrk ≤ h'.memBrk → h'.memBrk ≤ h.memMaxAddr →
      ∃ q g, x (h.within h.heap h'.memBrk) = some (q, g)) : Inside x h r h' := by
  have harea := hx.area hxr
  obtain ⟨hgrows, hle⟩ := hx.grows hxr ha.brk_le ha.limit
  obtain ⟨q, g, hxq⟩ := hcut hgrows hle
  obtain ⟨hq, hg⟩ := hx.narrow hxr ha.brk_le ha.limit le_rfl hle hxq
  rw [hq, hg] at hxq
  exact ⟨harea, hgrows, hle, hxq, hx.outside hxq⟩

end Allocator
end Cmpsc473
