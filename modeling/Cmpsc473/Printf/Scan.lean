import Cmpsc473.Printf.Layout

/-!
# The scan of a format, round by round

As many rounds as the format has bytes are enough, so the scan of a format has an
equation of its own, without a count of rounds.
-/

namespace Cmpsc473
namespace Printf

open Total Sink

variable {σ : Type} (text : Text) (fn : UInt8 → StateT σ Option Unit)

/-- The rounds that this computation leads to start on a suffix of `fmt`. -/
def Onward (fmt : List UInt8) (x : StateT σ Option Round) : Prop :=
  ∀ s r s', x s = some (r, s') → r.1 <:+ fmt

section Onward

variable {text fn} {fmt fmt' : List UInt8} {v : Vars} {α : Type}

theorem onward_pure : Onward fmt (pure (fmt, v) : StateT σ Option Round) := by
  intro s r s' h
  cases h
  exact List.suffix_rfl

theorem Onward.bind {x : StateT σ Option α} {f : α → StateT σ Option Round}
    (h : ∀ a s s', x s = some (a, s') → Onward fmt (f a)) : Onward fmt (x >>= f) := by
  intro s r s' hx
  obtain ⟨a, t, ha, hf⟩ := bind_eq_some.mp hx
  exact h a s t ha t r s' hf

theorem Onward.later {x : StateT σ Option Round} (h : Onward fmt' x)
    (hl : later fmt = some fmt') : Onward fmt x := by
  intro s r s' hx
  cases fmt with
  | nil => cases hl
  | cons c fmt =>
    cases hl
    exact (h s r s' hx).trans (List.suffix_cons c fmt')

theorem lift_eq_some {o : Option α} {a : α} {s s' : σ}
    (h : (liftM o : StateT σ Option α) s = some (a, s')) : o = some a := by
  cases o with
  | none => cases h
  | some b =>
    cases h
    rfl

theorem onward_case4 : Onward fmt (case4 text fn fmt v) := by
  refine Onward.bind fun c _ _ _ => Onward.bind fun field _ _ _ => ?_
  cases field with
  | none => exact Onward.bind fun count _ _ _ => onward_pure
  | some field => exact Onward.bind fun count _ _ _ => onward_pure

theorem onward_case3 : Onward fmt (case3 text fn fmt v) := by
  refine Onward.bind fun c _ _ _ => ?_
  have hlook : ∀ v₁ v₂ : Vars, ∀ d : UInt8, Onward fmt (do
      let fmt' ← later fmt
      let c' ← fmt'.head?
      if c' = d then return (fmt', v₁) else return (fmt, v₂) : StateT σ Option Round) := by
    intro v₁ v₂ d
    refine Onward.bind fun fmt' _ _ h => Onward.bind fun c' _ _ _ => ?_
    split
    · exact onward_pure.later (lift_eq_some h)
    · exact onward_pure
  split
  · exact onward_pure
  · split
    · exact hlook _ _ _
    · split
      · exact onward_pure
      · split
        · exact hlook _ _ _
        · exact onward_case4

theorem onward_case2 : Onward fmt (case2 text fn fmt v) := by
  refine Onward.bind fun c _ _ _ => ?_
  split
  · exact onward_pure
  · exact onward_case3

theorem onward_case1 : Onward fmt (case1 text fn fmt v) := by
  refine Onward.bind fun c _ _ _ => ?_
  split
  · exact Onward.bind fun count _ _ _ => onward_pure
  · split
    · exact onward_pure
    · split
      · exact Onward.bind fun fmt' _ _ h => onward_case2.later (lift_eq_some h)
      · exact onward_case2

theorem onward_case0 : Onward fmt (case0 text fn fmt v) := by
  refine Onward.bind fun c _ _ _ => ?_
  split
  · exact Onward.bind fun count _ _ _ => onward_pure
  · exact Onward.bind fun fmt' _ _ h => onward_case1.later (lift_eq_some h)

theorem onward_switch : Onward fmt (switch text fn fmt v) := by
  unfold switch
  split
  · exact onward_case0
  · exact onward_case1
  · exact onward_case2
  · exact onward_case3
  · exact onward_case4
  · exact onward_pure

end Onward

theorem later_length {fmt fmt' : List UInt8} (h : later fmt = some fmt') :
    fmt.length = fmt'.length + 1 := by
  cases fmt with
  | nil => cases h
  | cons c fmt =>
    cases h
    rfl

/-- The loop, from some place of the format on. -/
def scan (fmt : List UInt8) (v : Vars) : StateT σ Option UInt64 := loop text fn fmt.length fmt v

theorem loop_eq_scan {rounds : Nat} {fmt : List UInt8} (h : fmt.length ≤ rounds) (v : Vars) :
    loop text fn rounds fmt v = scan text fn fmt v := by
  unfold scan
  generalize hn : fmt.length = n at h ⊢
  induction n using Nat.strongRecOn generalizing rounds fmt v with
  | _ n ih =>
    cases fmt with
    | nil =>
      rw [← hn]
      cases rounds <;> rfl
    | cons c fmt =>
      obtain ⟨rounds, rfl⟩ : ∃ r, rounds = r + 1 := ⟨rounds - 1, by rw [List.length_cons] at hn; omega⟩
      obtain rfl : n = fmt.length + 1 := hn.symm
      funext s
      refine bind_congr_of fun c' s₁ hc => ?_
      split
      · rfl
      · refine bind_congr_of fun r s₂ hr => ?_
        refine bind_congr_of fun fmt' s₃ hl => ?_
        have hsuffix := (onward_switch s₁ r s₂ hr).length_le
        have hlen := later_length (lift_eq_some hl)
        rw [List.length_cons] at hsuffix
        rw [ih fmt'.length (by omega) r.2 rfl (by omega),
          ih fmt'.length (by omega) r.2 rfl (show fmt'.length ≤ fmt.length by omega)]

/-- **One round of the loop.** -/
theorem scan_cons (c : UInt8) (fmt : List UInt8) (v : Vars) :
    scan text fn (c :: fmt) v =
      if c = 0 then pure v.count
      else switch text fn (c :: fmt) v >>= fun r =>
        liftM (later r.1) >>= fun fmt' => scan text fn fmt' r.2 := by
  show (if c = 0 then pure v.count else switch text fn (c :: fmt) v >>= fun r =>
    liftM (later r.1) >>= fun fmt' => loop text fn fmt.length fmt' r.2) = _
  split
  · rfl
  · funext s
    refine bind_congr_of fun r s₂ hr => ?_
    refine bind_congr_of fun fmt' s₃ hl => ?_
    have hsuffix := (onward_switch s r s₂ hr).length_le
    have hlen := later_length (lift_eq_some hl)
    rw [List.length_cons] at hsuffix
    rw [loop_eq_scan text fn (by omega)]

theorem scan_nil (v : Vars) : scan text fn [] v = fun _ => none := rfl

end Printf
end Cmpsc473
