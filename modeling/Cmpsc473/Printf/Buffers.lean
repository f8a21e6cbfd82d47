import Cmpsc473.Printf.Scan
import Mathlib.Data.List.GetD

/-!
# Printing into a buffer

What `_do_vprintf` outputs does not depend on where the output goes.  `vsprintf` puts
all of it into the buffer, and `vsnprintf` as much of the same output as there is room
for.  Both end the string with a NUL and return the length of the whole output.
-/

namespace Cmpsc473
namespace Printf

open Total Sink

section Uniform

variable (text : Text) (fmt : List UInt8) (v : Vars) (count : UInt64)

theorem uniform_put (c : UInt8) : Uniform fun _ fn => put fn c count :=
  (Uniform.fn c).bind fun _ => Uniform.pure _

theorem uniform_putStr (str : List UInt8) (count : UInt64) :
    Uniform fun _ fn => putStr fn str count := by
  induction str generalizing count with
  | nil => exact Uniform.pure count
  | cons c str ih => exact (uniform_put count c).bind ih

theorem uniform_case4 : Uniform fun _ fn => case4 text fn fmt v := by
  refine (Uniform.lift fmt.head?).bind fun c => ?_
  refine (Uniform.lift (convert text c v.flags v.args)).bind fun field => ?_
  cases field with
  | none => exact (uniform_put v.count c).bind fun count => Uniform.pure _
  | some field =>
    simp only [emitField_eq]
    exact (uniform_putStr _ v.count).bind fun count => Uniform.pure _

theorem uniform_case3 : Uniform fun _ fn => case3 text fn fmt v := by
  have hlook : ∀ (d : UInt8) (v₁ v₂ : Vars), Uniform (κ := UInt8) fun σ _ => (do
      let fmt' ← later fmt
      let c' ← fmt'.head?
      if c' = d then return (fmt', v₁) else return (fmt, v₂) : StateT σ Option Round) := by
    intro d v₁ v₂
    refine (Uniform.lift (later fmt)).bind fun fmt' => (Uniform.lift fmt'.head?).bind fun c' => ?_
    exact Uniform.ite (Uniform.pure _) (Uniform.pure _)
  refine (Uniform.lift fmt.head?).bind fun c => ?_
  refine Uniform.ite (Uniform.pure _) (Uniform.ite (hlook _ _ _) (Uniform.ite (Uniform.pure _) ?_))
  exact Uniform.ite (hlook _ _ _) (uniform_case4 text fmt _)

theorem uniform_case2 : Uniform fun _ fn => case2 text fn fmt v := by
  refine (Uniform.lift fmt.head?).bind fun c => ?_
  exact Uniform.ite (Uniform.pure _) (uniform_case3 text fmt _)

theorem uniform_case1 : Uniform fun _ fn => case1 text fn fmt v := by
  refine (Uniform.lift fmt.head?).bind fun c => ?_
  refine Uniform.ite ((uniform_put v.count c).bind fun count => Uniform.pure _)
    (Uniform.ite (Uniform.pure _) (Uniform.ite ?_ (uniform_case2 text fmt _)))
  exact (Uniform.lift (later fmt)).bind fun fmt' => uniform_case2 text fmt' _

theorem uniform_case0 : Uniform fun _ fn => case0 text fn fmt v := by
  refine (Uniform.lift fmt.head?).bind fun c => ?_
  refine Uniform.ite ((uniform_put v.count c).bind fun count => Uniform.pure _) ?_
  exact (Uniform.lift (later fmt)).bind fun fmt' => uniform_case1 text fmt' _

theorem uniform_switch : Uniform fun _ fn => switch text fn fmt v := by
  unfold switch
  split
  · exact uniform_case0 text fmt v
  · exact uniform_case1 text fmt v
  · exact uniform_case2 text fmt v
  · exact uniform_case3 text fmt v
  · exact uniform_case4 text fmt v
  · exact Uniform.pure _

theorem uniform_loop (rounds : Nat) : Uniform fun _ fn => loop text fn rounds fmt v := by
  induction rounds generalizing fmt v with
  | zero => exact Uniform.none
  | succ rounds ih =>
    refine (Uniform.lift fmt.head?).bind fun c => ?_
    refine Uniform.ite (Uniform.pure _) ?_
    refine (uniform_switch text fmt v).bind fun r => ?_
    exact (Uniform.lift (later r.1)).bind fun fmt' => ih fmt' r.2

end Uniform

/-- What `_do_vprintf` outputs and counts, wherever it goes. -/
def written (text : Text) (fmt : List UInt8) (args : List UInt64) :
    Option (List UInt8 × UInt64) := emitted (doVprintfLoop text collect fmt args)

section Functions

variable {σ : Type} {text : Text} {fn : UInt8 → StateT σ Option Unit} {fmt : List UInt8}
  {args : List UInt64}

/-- `do_vprintf` outputs what is written, and a NUL. -/
theorem doVprintf_eq (s : σ) : doVprintf text fn fmt args s =
    (written text fmt args).bind fun p =>
      (((p.1 ++ [0]).forM fn) s).map fun q : PUnit × σ => (signed 32 p.2.toNat, q.2) := by
  have hemits : doVprintfLoop text fn fmt args s = (written text fmt args).bind fun p =>
      ((p.1.forM fn) s).map fun q : PUnit × σ => (p.2, q.2) :=
    (uniform_loop text fmt { args := args } fmt.length).emits fn s
  have hend : ∀ s, ([0].forM fn) s = fn 0 s := by
    intro s
    show (fn 0 >>= fun _ => pure ()) s = fn 0 s
    rw [bind_pure]
  have hnul : doVprintf text fn fmt args = doVprintfLoop text fn fmt args >>= fun count =>
      fn 0 >>= fun _ => pure (signed 32 count.toNat) := rfl
  rw [hnul]
  cases hw : written text fmt args with
  | none =>
    rw [hw] at hemits
    exact bind_of_none hemits
  | some p =>
    rw [hw, Option.bind_some] at hemits
    rw [Option.bind_some, forM_append]
    cases hout : (p.1.forM fn) s with
    | none =>
      rw [hout] at hemits
      exact bind_of_none hemits
    | some q =>
      rw [hout] at hemits
      rw [bind_of_some hemits, Option.bind_some, hend]
      show (fn 0 >>= fun _ => pure _) q.2 = _
      cases hlast : fn 0 q.2 with
      | none => exact bind_of_none hlast
      | some t =>
        have ht : fn 0 q.2 = some (t.1, t.2) := hlast
        exact bind_of_some ht

end Functions

/-- The computation adds to the count as many as it outputs. -/
def Counts {α : Type} (g : α → UInt64) (n : UInt64) (x : StateT (List UInt8) Option α) : Prop :=
  ∀ l a l', x l = some (a, l') → g a + UInt64.ofNat l.length = n + UInt64.ofNat l'.length

section Counts

variable {α β : Type} {g : α → UInt64} {k : β → UInt64} {n : UInt64}

theorem counts_pure (a : α) : Counts g (g a) (pure a) := by
  intro l b l' h
  cases h
  rfl

theorem Counts.bind {x : StateT (List UInt8) Option α} {f : α → StateT (List UInt8) Option β}
    (hx : Counts g n x) (hf : ∀ a, Counts k (g a) (f a)) : Counts k n (x >>= f) := by
  intro l b l' h
  obtain ⟨a, m, ha, hb⟩ := bind_eq_some.mp h
  have h₁ := hx l a m ha
  have h₂ := hf a m b l' hb
  grind

/-- What is only read counts nothing. -/
theorem Counts.lift {o : Option α} {f : α → StateT (List UInt8) Option β}
    (hf : ∀ a, Counts k n (f a)) : Counts k n (liftM o >>= f) := by
  cases o with
  | none =>
    intro l b l' h
    cases h
  | some a => exact hf a

theorem Counts.ite {c : Prop} [Decidable c] {x y : StateT (List UInt8) Option α}
    (hx : Counts g n x) (hy : Counts g n y) : Counts g n (if c then x else y) := by
  split
  · exact hx
  · exact hy

theorem counts_put (c : UInt8) : Counts id n (put collect c n) := by
  intro l b l' h
  cases h
  rw [List.length_append, UInt64.ofNat_add]
  show n + 1 + UInt64.ofNat l.length = n + (UInt64.ofNat l.length + 1)
  grind

theorem counts_putStr (str : List UInt8) : Counts id n (putStr collect str n) := by
  induction str generalizing n with
  | nil => exact counts_pure (g := id) n
  | cons c str ih => exact (counts_put c).bind fun _ => ih

variable {text : Text}

/-- The count in the variables of a round. -/
def countOf (r : Round) : UInt64 := r.2.count

theorem counts_round (fmt : List UInt8) (v : Vars) : Counts countOf v.count (pure (fmt, v)) :=
  counts_pure (α := Round) (fmt, v)

/-- A round that copies a character. -/
theorem counts_copied (c : UInt8) (fmt : List UInt8) (v : UInt64 → Vars)
    (hv : ∀ count, (v count).count = count := by exact fun _ => rfl) :
    Counts countOf n (put collect c n >>= fun count => pure (fmt, v count)) :=
  (counts_put c).bind fun count => by
    have h := counts_round fmt (v count)
    rwa [hv] at h

theorem counts_case4 (fmt : List UInt8) (v : Vars) :
    Counts countOf v.count (case4 text collect fmt v) := by
  refine Counts.lift fun c => Counts.lift fun field => ?_
  cases field with
  | none => exact (counts_put c).bind fun _ => counts_round _ _
  | some field =>
    simp only [emitField_eq]
    exact (counts_putStr _).bind fun _ => counts_round _ _

theorem counts_case3 (fmt : List UInt8) (v : Vars) :
    Counts countOf v.count (case3 text collect fmt v) := by
  have hlook : ∀ (d : UInt8) (v₁ v₂ : Vars), v₁.count = v.count → v₂.count = v.count →
      Counts countOf v.count (do
        let fmt' ← later fmt
        let c' ← fmt'.head?
        if c' = d then return (fmt', v₁) else return (fmt, v₂)) := by
    intro d v₁ v₂ h₁ h₂
    refine Counts.lift fun fmt' => Counts.lift fun c' => Counts.ite ?_ ?_
    · exact h₁ ▸ counts_round fmt' v₁
    · exact h₂ ▸ counts_round fmt v₂
  refine Counts.lift fun c => Counts.ite (counts_round _ _) (Counts.ite (hlook _ _ _ rfl rfl) ?_)
  exact Counts.ite (counts_round _ _) (Counts.ite (hlook _ _ _ rfl rfl) (counts_case4 _ _))

theorem counts_case2 (fmt : List UInt8) (v : Vars) :
    Counts countOf v.count (case2 text collect fmt v) :=
  Counts.lift fun _ => Counts.ite (counts_round _ _) (counts_case3 _ _)

theorem counts_case1 (fmt : List UInt8) (v : Vars) :
    Counts countOf v.count (case1 text collect fmt v) := by
  refine Counts.lift fun c => Counts.ite ?_ (Counts.ite (counts_round _ _) (Counts.ite ?_ ?_))
  · exact counts_copied c fmt fun count => { v with state := 0, count := count }
  · exact Counts.lift fun fmt' => counts_case2 fmt' { v with
      flags := { v.flags with padLeft0 := true }, state := v.state + 1, givenWd := 0 }
  · exact counts_case2 fmt { v with state := v.state + 1, givenWd := 0 }

theorem counts_case0 (fmt : List UInt8) (v : Vars) :
    Counts countOf v.count (case0 text collect fmt v) := by
  refine Counts.lift fun c => Counts.ite ?_ (Counts.lift fun fmt' => ?_)
  · exact counts_copied c fmt fun count => { v with count := count }
  · exact counts_case1 fmt' { v with state := v.state + 1, flags := {} }

theorem counts_switch (fmt : List UInt8) (v : Vars) :
    Counts countOf v.count (switch text collect fmt v) := by
  unfold switch
  split
  · exact counts_case0 _ _
  · exact counts_case1 _ _
  · exact counts_case2 _ _
  · exact counts_case3 _ _
  · exact counts_case4 _ _
  · exact counts_round _ _

theorem counts_loop (rounds : Nat) (fmt : List UInt8) (v : Vars) :
    Counts id v.count (loop text collect rounds fmt v) := by
  induction rounds generalizing fmt v with
  | zero =>
    intro l a l' h
    cases h
  | succ rounds ih =>
    refine Counts.lift fun c => Counts.ite (counts_pure (g := id) v.count) ?_
    exact (counts_switch fmt v).bind fun r => Counts.lift fun fmt' => ih fmt' r.2

/-- **The count** is the length of the output. -/
theorem written_count {fmt : List UInt8} {args : List UInt64} {out : List UInt8} {count : UInt64}
    (h : written text fmt args = some (out, count)) : count = UInt64.ofNat out.length := by
  obtain ⟨p, hrun, hp⟩ := Option.map_eq_some_iff.mp h
  cases hp
  have hcount := counts_loop fmt.length fmt { args := args } [] p.1 p.2 hrun
  simpa using hcount

end Counts

theorem signed_count (out : List UInt8) :
    signed 32 (UInt64.ofNat out.length).toNat = signed 32 out.length := by
  generalize out.length = n
  have hmod : (UInt64.ofNat n).toNat % 2 ^ 32 = n % 2 ^ 32 := by
    rw [UInt64.toNat_ofNat', Nat.mod_mod_of_dvd n (Nat.pow_dvd_pow 2 (by decide))]
  have hcast : ((UInt64.ofNat n).toNat : Int) % ((2 ^ 32 : Nat) : Int) =
      (n : Int) % ((2 ^ 32 : Nat) : Int) := by
    rw [← Int.natCast_emod, hmod, Int.natCast_emod]
  rw [signed, signed, ← Int.emod_bmod, hcast, Int.emod_bmod]

/-- The bytes at an address, and everywhere else what was there. -/
def storeBytes (mem : Nat → UInt8) (buf : Nat) (bytes : List UInt8) : Nat → UInt8 := fun a =>
  if buf ≤ a ∧ a < buf + bytes.length then bytes.getD (a - buf) 0 else mem a

theorem storeBytes_cons (mem : Nat → UInt8) (buf : Nat) (c : UInt8) (bytes : List UInt8) :
    storeBytes (Function.update mem buf c) (buf + 1) bytes = storeBytes mem buf (c :: bytes) := by
  funext a
  unfold storeBytes
  rw [List.length_cons]
  by_cases h : a = buf
  · rw [if_neg (by omega), if_pos (by omega), h, Function.update_self, Nat.sub_self]
    rfl
  · rw [Function.update_of_ne h]
    by_cases hin : buf + 1 ≤ a ∧ a < buf + 1 + bytes.length
    · have hsub : a - buf = a - (buf + 1) + 1 := by omega
      rw [if_pos hin, if_pos (by omega), hsub]
      rfl
    · rw [if_neg hin, if_neg (by omega)]

theorem storeBytes_nil (mem : Nat → UInt8) (buf : Nat) : storeBytes mem buf [] = mem := by
  funext a
  exact if_neg (by rw [List.length_nil]; omega)

theorem forM_vsprintfOutput (out : List UInt8) (s : Output) :
    (out.forM vsprintfOutput) s =
      some ((), ⟨storeBytes s.mem s.cur out, s.cur + out.length, s.num⟩) := by
  induction out generalizing s with
  | nil =>
    rw [storeBytes_nil]
    rfl
  | cons c out ih =>
    show (out.forM vsprintfOutput) (s.store c) = _
    rw [ih]
    show some ((), Output.mk (storeBytes (Function.update s.mem s.cur c) (s.cur + 1) out)
      (s.cur + 1 + out.length) s.num) = _
    rw [storeBytes_cons, List.length_cons, Nat.add_right_comm, Nat.add_assoc]

/-- What fits into `n` bytes of a string and its NUL. -/
def fitting (n : Nat) (out : List UInt8) : List UInt8 :=
  if n = 0 then [] else out.take (n - 1) ++ [0]

theorem vsnprintfOutput_zero (c : UInt8) {s : Output} (h : s.num = 0) :
    vsnprintfOutput c s = some ((), s) := by
  show some ((), if s.num ≠ 0 then _ else s) = _
  rw [if_neg (not_not.mpr h)]

/-- The last place in the buffer is for a NUL. -/
theorem vsnprintfOutput_succ (c : UInt8) {s : Output} {n : Nat} (h : s.num = n + 1) :
    vsnprintfOutput c s = some ((), ⟨Function.update s.mem s.cur (if n ≠ 0 then c else 0),
      s.cur + 1, n⟩) := by
  show some ((), if s.num ≠ 0 then Output.store { s with num := s.num - 1 }
    (if s.num - 1 ≠ 0 then c else 0) else s) = _
  rw [if_pos (by omega), h]
  rfl

theorem forM_vsnprintfOutput_full (out : List UInt8) {s : Output} (h : s.num = 0) :
    (out.forM vsnprintfOutput) s = some ((), s) := by
  induction out with
  | nil => rfl
  | cons c out ih => exact (bind_of_some (vsnprintfOutput_zero c h)).trans ih

/-- The output and its NUL, as far as there is room. -/
theorem forM_vsnprintfOutput (out : List UInt8) (s : Output) :
    ∃ s', ((out ++ [0]).forM vsnprintfOutput) s = some ((), s') ∧
      s'.mem = storeBytes s.mem s.cur (fitting s.num out) := by
  induction out generalizing s with
  | nil =>
    cases hn : s.num with
    | zero =>
      exact ⟨s, forM_vsnprintfOutput_full [0] hn, (storeBytes_nil s.mem s.cur).symm⟩
    | succ n =>
      refine ⟨_, bind_of_some (vsnprintfOutput_succ 0 hn), ?_⟩
      have hfit : fitting (n + 1) [] = [0] := by simp [fitting]
      rw [hfit, ite_self, ← storeBytes_cons, storeBytes_nil]
  | cons c out ih =>
    cases hn : s.num with
    | zero =>
      exact ⟨s, forM_vsnprintfOutput_full _ hn, (storeBytes_nil s.mem s.cur).symm⟩
    | succ n =>
      obtain ⟨s', hrun, hmem⟩ :=
        ih ⟨Function.update s.mem s.cur (if n ≠ 0 then c else 0), s.cur + 1, n⟩
      refine ⟨s', (bind_of_some (vsnprintfOutput_succ c hn)).trans hrun, ?_⟩
      rw [hmem]
      show storeBytes (Function.update s.mem s.cur _) (s.cur + 1) (fitting n out) = _
      rw [storeBytes_cons]
      cases n with
      | zero => rfl
      | succ n => rfl

theorem storeBytes_nul (mem : Nat → UInt8) (buf : Nat) (out : List UInt8) (a : Nat) :
    storeBytes mem buf (out ++ [0]) a =
      if buf ≤ a ∧ a ≤ buf + out.length then (out ++ [0]).getD (a - buf) 0 else mem a := by
  rw [storeBytes, List.length_append, List.length_singleton]
  exact if_congr (by omega) rfl rfl

/-- The bytes that fit are those of the whole string, but for a NUL in the last place. -/
theorem storeBytes_fitting (mem : Nat → UInt8) (buf n : Nat) (out : List UInt8) (a : Nat) :
    storeBytes mem buf (fitting n out) a =
      if buf ≤ a ∧ a ≤ buf + out.length ∧ a < buf + n then
        if a + 1 = buf + n then 0 else storeBytes mem buf (out ++ [0]) a
      else mem a := by
  by_cases hn : n = 0
  · rw [fitting, if_pos hn, storeBytes_nil, if_neg (by omega)]
  · rw [fitting, if_neg hn, storeBytes_nul, storeBytes, List.length_append, List.length_take,
      List.length_singleton]
    by_cases ha : buf ≤ a ∧ a ≤ buf + out.length ∧ a < buf + n
    · rw [if_pos (by omega), if_pos ha]
      by_cases hlast : a + 1 = buf + n
      · rw [if_pos hlast, List.getD_append_right _ _ _ _ (by rw [List.length_take]; omega),
          List.length_take]
        have hzero : a - buf - min (n - 1) out.length = 0 := by omega
        rw [hzero]
        rfl
      · rw [if_neg hlast, if_pos (by omega)]
        by_cases hin : a - buf < out.length
        · rw [List.getD_append _ _ _ _ (by rw [List.length_take]; omega),
            List.getD_append _ _ _ _ hin, List.getD_eq_getElem?_getD, List.getD_eq_getElem?_getD,
            List.getElem?_take_of_lt (by omega)]
        · rw [List.take_of_length_le (by omega)]
    · rw [if_neg (by omega), if_neg ha]

section Prints

variable {text : Text} {mem : Nat → UInt8} {buf n : Nat} {fmt : List UInt8} {args : List UInt64}

theorem vsprintf_eq : vsprintf text mem buf fmt args =
    (written text fmt args).map fun p =>
      (signed 32 p.2.toNat, storeBytes mem buf (p.1 ++ [0])) := by
  show (doVprintf text vsprintfOutput fmt args ⟨mem, buf, 0⟩).bind _ = _
  rw [doVprintf_eq]
  cases written text fmt args with
  | none => rfl
  | some p =>
    rw [Option.bind_some, forM_vsprintfOutput]
    rfl

theorem vsnprintf_eq : vsnprintf text mem buf n fmt args =
    (written text fmt args).map fun p =>
      (signed 32 p.2.toNat, storeBytes mem buf (fitting n p.1)) := by
  show (doVprintf text vsnprintfOutput fmt args ⟨mem, buf, n⟩).bind _ = _
  rw [doVprintf_eq]
  cases written text fmt args with
  | none => rfl
  | some p =>
    obtain ⟨s', hrun, hmem⟩ := forM_vsnprintfOutput p.1 ⟨mem, buf, n⟩
    rw [Option.bind_some, hrun]
    show some (signed 32 p.2.toNat, s'.mem) = _
    rw [hmem]
    rfl

/-- **Buffers**: one output, the same for every `fn`.  `vsprintf` stores all of it and a
NUL.  `vsnprintf` stores of that as much as `n` bytes have room for, with a NUL in the last
of them where there is more, and returns the same length. -/
theorem vsnprintf_truncates (text : Text) (mem : Nat → UInt8) (buf n : Nat) (fmt : List UInt8)
    (args : List UInt64) :
    (vsprintf text mem buf fmt args = none ∧ vsnprintf text mem buf n fmt args = none) ∨
      ∃ (out : List UInt8) (mem₁ mem₂ : Nat → UInt8),
        (∀ (σ : Type) (fn : UInt8 → StateT σ Option Unit) (s : σ),
          doVprintf text fn fmt args s =
            (((out ++ [0]).forM fn) s).map fun q : PUnit × σ => (signed 32 out.length, q.2)) ∧
        vsprintf text mem buf fmt args = some (signed 32 out.length, mem₁) ∧
        vsnprintf text mem buf n fmt args = some (signed 32 out.length, mem₂) ∧
        (∀ a, mem₁ a =
          if buf ≤ a ∧ a ≤ buf + out.length then (out ++ [0]).getD (a - buf) 0 else mem a) ∧
        (∀ a, mem₂ a =
          if buf ≤ a ∧ a ≤ buf + out.length ∧ a < buf + n then
            if a + 1 = buf + n then 0 else mem₁ a
          else mem a) := by
  cases hw : written text fmt args with
  | none => exact Or.inl ⟨by rw [vsprintf_eq, hw]; rfl, by rw [vsnprintf_eq, hw]; rfl⟩
  | some p =>
    obtain ⟨out, count⟩ := p
    have hcount : signed 32 count.toNat = signed 32 out.length := by
      rw [written_count hw, signed_count]
    refine Or.inr ⟨out, storeBytes mem buf (out ++ [0]), storeBytes mem buf (fitting n out),
      fun σ fn s => ?_, ?_, ?_, fun a => storeBytes_nul mem buf out a, fun a => ?_⟩
    · rw [doVprintf_eq, hw, Option.bind_some, hcount]
    · rw [vsprintf_eq, hw, Option.map_some, hcount]
    · rw [vsnprintf_eq, hw, Option.map_some, hcount]
    · rw [storeBytes_fitting, storeBytes_nul]

end Prints

end Printf
end Cmpsc473
