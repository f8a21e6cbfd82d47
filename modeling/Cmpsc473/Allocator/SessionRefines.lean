import Cmpsc473.Allocator.RefinesInterface
import Cmpsc473.Allocator.Session

/-!
# Sessions refine the pool

Every reachable session holds a valid pool without neighbouring free blocks, and
every call does to the session what the operation of the same name does to the
pool.  What the client writes is not seen by the pool at all.
-/

namespace Cmpsc473
namespace Allocator

open ByteMemory Total Tiling Transition

variable {s s' : Session} {P P' : Pool} {b : Block}

namespace Pool

/-- What is known of the pool after `b` is freed. -/
structure Released (P : Pool) (b : Block) (Q : Pool) : Prop where
  valid : Q.Valid
  coalesced : Q.Coalesced
  base : Q.base = P.base
  brk : Q.brk = P.brk
  live : ∀ c, Q.Live c ↔ P.Live c ∧ c ≠ b

theorem released (hv : P.Valid) (hc : P.Coalesced) (hb : P.Live b) : P.Released b (P.release b) where
  valid := valid_release hv hb.1 hb.2
  coalesced := coalesced_release hv hc hb.1 hb.2
  base := by rw [release_eq, coalesce_base]; rfl
  brk := by rw [release_eq, coalesce_brk]; rfl
  live := by
    intro c
    constructor
    · rintro ⟨hcm, hca⟩
      obtain ⟨hcP, hcb⟩ := (mem_release_alloc hv hb.1 hb.2 hca).mp hcm
      exact ⟨⟨hcP, hca⟩, hcb⟩
    · rintro ⟨⟨hcP, hca⟩, hcb⟩
      exact ⟨(mem_release_alloc hv hb.1 hb.2 hca).mpr ⟨hcP, hcb⟩, hca⟩

/-- The three ways in which a reallocation succeeds. -/
inductive Realloc (P : Pool) (b : Block) (n : Nat) : Nat → Pool → Prop
  | free : n = 0 → Realloc P b n 0 (P.release b)
  | keep : n ≠ 0 → keepSize n ≤ b.size - 16 → Realloc P b n b.bp P
  | move {a : Block} {Q : Pool} : n ≠ 0 → P.Allocated (blockSize n) a Q → Q.Live b →
      Realloc P b n a.bp (Q.release b)

theorem realloc_spec (hv : P.Valid) (hc : P.Coalesced) (hb : P.Live b) {n : Nat}
    (hn : n + 31 < 2 ^ 64) {r : Nat} (hre : P.realloc b.bp n = some (r, P')) :
    Realloc P b n r P' := by
  unfold realloc at hre
  by_cases hn0 : n = 0
  · rw [if_pos hn0, free_eq hv hb.1] at hre
    cases hre
    exact .free hn0
  simp only [hn0, if_false, blockAt_eq hv hb.1] at hre
  by_cases hkeep : keepSize n ≤ b.size - 16
  · rw [if_pos hkeep] at hre
    cases hre
    exact .keep hn0 hkeep
  rw [if_neg hkeep] at hre
  rcases malloc_spec hv hc hn with hfail | ⟨a, ha, hA⟩
  · rw [hfail] at hre
    simp at hre
  · have hbL := (hA.live b).mpr (Or.inr hb)
    have haL := (hA.live a).mpr (Or.inl rfl)
    have hpos : a.bp ≠ 0 := by
      have := (hA.valid.tiles.bounds a haL.1).1
      have := hA.valid.base_pos
      omega
    rw [ha, if_neg hpos, free_eq hA.valid hbL.1] at hre
    cases hre
    exact .move hn0 hA hbL

end Pool

/-- The session holds the pool, and its client the blocks in use. -/
structure Holds (s : Session) (P : Pool) : Prop where
  valid : P.Valid
  coalesced : P.Coalesced
  nonempty : P.base < P.brk
  represents : Represents s.heap P
  room : ∀ p n, s.live p = some n → ∃ b, P.Live b ∧ b.bp = p ∧ n + 16 ≤ b.size
  held : ∀ b, P.Live b → s.live b.bp ≠ none

theorem Holds.block (hh : Holds s P) {p : Nat} (hp : s.live p ≠ none) :
    ∃ b, P.Live b ∧ b.bp = p := by
  obtain ⟨n, hn⟩ := Option.ne_none_iff_exists'.mp hp
  obtain ⟨b, hb, hbp, _⟩ := hh.room p n hn
  exact ⟨b, hb, hbp⟩

theorem Pool.Valid.live_inj (hv : P.Valid) {b c : Block} (hb : P.Live b) (hc : P.Live c)
    (he : b.bp = c.bp) : b = c :=
  hv.eq_of_bp hb.1 hc.1 he

/-- What a call does to a pool. -/
def Call.run (P : Pool) : Call → Option (Nat × Pool)
  | malloc size => some (P.malloc size)
  | free bp => some (0, P.free bp)
  | realloc oldptr size => P.realloc oldptr size
  | limit addr => some (0, { P with limit := addr })

/-- One more block is held. -/
theorem held_insert (hh : Holds s P) {n asize : Nat} {a : Block} {Q : Pool} (hn : n + 16 ≤ asize)
    (hA : P.Allocated asize a Q) :
    (∀ p m, Function.update s.live a.bp (some n) p = some m →
      ∃ b, Q.Live b ∧ b.bp = p ∧ m + 16 ≤ b.size) ∧
    ∀ b, Q.Live b → Function.update s.live a.bp (some n) b.bp ≠ none := by
  constructor
  · intro p m hpm
    by_cases hpa : p = a.bp
    · subst hpa
      rw [Function.update_self, Option.some.injEq] at hpm
      have := hA.size_ge
      exact ⟨a, (hA.live a).mpr (Or.inl rfl), rfl, by omega⟩
    · rw [Function.update_of_ne hpa] at hpm
      obtain ⟨b, hb, hbp, hm⟩ := hh.room p m hpm
      exact ⟨b, (hA.live b).mpr (Or.inr hb), hbp, hm⟩
  · intro b hb
    by_cases hba : b.bp = a.bp
    · rw [hba, Function.update_self]
      exact Option.some_ne_none n
    · rw [Function.update_of_ne hba]
      rcases (hA.live b).mp hb with rfl | hb
      · exact absurd rfl hba
      · exact hh.held b hb

/-- A block is given back. -/
theorem held_erase {live : Nat → Option Nat} {Q : Pool} (hv : P.Valid)
    (hroom : ∀ p m, live p = some m → ∃ b, P.Live b ∧ b.bp = p ∧ m + 16 ≤ b.size)
    (hheld : ∀ b, P.Live b → live b.bp ≠ none) (hb : P.Live b) (hR : P.Released b Q) :
    (∀ p m, Function.update live b.bp none p = some m →
      ∃ c, Q.Live c ∧ c.bp = p ∧ m + 16 ≤ c.size) ∧
    ∀ c, Q.Live c → Function.update live b.bp none c.bp ≠ none := by
  constructor
  · intro p m hpm
    by_cases hpb : p = b.bp
    · subst hpb
      rw [Function.update_self] at hpm
      cases hpm
    · rw [Function.update_of_ne hpb] at hpm
      obtain ⟨c, hc, hcp, hm⟩ := hroom p m hpm
      refine ⟨c, (hR.live c).mpr ⟨hc, ?_⟩, hcp, hm⟩
      rintro rfl
      exact hpb hcp.symm
  · intro c hc
    obtain ⟨hcP, hcb⟩ := (hR.live c).mp hc
    rw [Function.update_of_ne (fun he => hcb (hv.live_inj hcP hb he))]
    exact hheld c hcP

theorem holds_malloc (hh : Holds s P) {n r : Nat} {h' : Heap} (hn : n + 31 < 2 ^ 64)
    (hx : mmMalloc n s.heap = some (r, h')) :
    r = (P.malloc n).1 ∧ Holds ⟨h', (Call.malloc n).hold s.live r⟩ (P.malloc n).2 := by
  obtain ⟨rfl, hr, _, _⟩ := (returns_of_eq hx).mp (mmMalloc_returns hh.represents hh.valid hn)
  refine ⟨rfl, ?_⟩
  rcases Pool.malloc_spec hh.valid hh.coalesced hn with hfail | ⟨a, ha, hA⟩
  · rw [hfail] at hr ⊢
    exact { hh with represents := hr }
  · have hpos : a.bp ≠ 0 := by
      have := (hA.valid.tiles.bounds a ((hA.live a).mpr (Or.inl rfl)).1).1
      have := hA.valid.base_pos
      omega
    obtain ⟨hroom, hheld⟩ := held_insert hh (Pool.blockSize_spec hn).2.2.1 hA
    have hhold : (Call.malloc n).hold s.live (P.malloc n).1 =
        Function.update s.live a.bp (some n) := by
      rw [ha, Call.hold, if_neg hpos]
    rw [hhold]
    have := hh.nonempty
    have := hA.brk_le
    exact ⟨hA.valid, hA.coalesced, by rw [hA.base]; omega, hr, hroom, hheld⟩

theorem holds_free (hh : Holds s P) {bp : Nat} {h' : Heap} (hbp : s.live bp ≠ none)
    (hx : mmFree bp s.heap = some ((), h')) :
    Holds ⟨h', (Call.free bp).hold s.live 0⟩ (P.free bp) := by
  obtain ⟨b, hb, rfl⟩ := hh.block hbp
  obtain ⟨hr, _⟩ := (returns_of_eq hx).mp (mmFree_returns hh.represents hh.valid hb)
  have hR := Pool.released hh.valid hh.coalesced hb
  obtain ⟨hroom, hheld⟩ := held_erase hh.valid hh.room hh.held hb hR
  rw [Pool.free_eq hh.valid hb.1]
  exact ⟨hR.valid, hR.coalesced, by rw [hR.base, hR.brk]; exact hh.nonempty, hr, hroom, hheld⟩

/-- Where a reallocation succeeds, it succeeds on the pool. -/
theorem realloc_isSome (hh : Holds s P) {n : Nat} (hb : P.Live b) (hn : n + 31 < 2 ^ 64)
    (hok : ReallocSucceeds s.heap b.bp n) : ∃ r P', P.realloc b.bp n = some (r, P') := by
  unfold Pool.realloc
  by_cases hn0 : n = 0
  · rw [if_pos hn0]
    exact ⟨_, _, rfl⟩
  simp only [hn0, if_false, Pool.blockAt_eq hh.valid hb.1]
  by_cases hkeep : Pool.keepSize n ≤ b.size - 16
  · rw [if_pos hkeep]
    exact ⟨_, _, rfl⟩
  rw [if_neg hkeep]
  rcases hok with h0 | hk | ⟨p, h', hx, hp⟩
  · exact absurd h0 hn0
  · have hk : keepAsk n ≤ sizeAt s.heap b.bp - alignment := hk
    rw [keepSize_eq hn, sizeAt, (hh.represents.head hh.valid hb.1).size] at hk
    exact absurd hk hkeep
  · obtain ⟨rfl, _⟩ := (returns_of_eq hx).mp (mmMalloc_returns hh.represents hh.valid hn)
    rw [if_neg hp]
    exact ⟨_, _, rfl⟩

theorem holds_realloc (hh : Holds s P) {oldptr n r : Nat} {h' : Heap} (hold : s.live oldptr ≠ none)
    (hn : n + 31 < 2 ^ 64) (hok : ReallocSucceeds s.heap oldptr n)
    (hx : mmRealloc oldptr n s.heap = some (r, h')) :
    ∃ P', P.realloc oldptr n = some (r, P') ∧
      Holds ⟨h', (Call.realloc oldptr n).hold s.live r⟩ P' := by
  obtain ⟨b, hb, rfl⟩ := hh.block hold
  obtain ⟨r', P', hre⟩ := realloc_isSome hh hb hn hok
  obtain ⟨rfl, hr, _⟩ := (returns_of_eq hx).mp
    (mmRealloc_returns hh.represents hh.valid hh.coalesced hb hn hre)
  refine ⟨P', hre, ?_⟩
  cases Pool.realloc_spec hh.valid hh.coalesced hb hn hre with
  | free hn0 =>
    have hR := Pool.released hh.valid hh.coalesced hb
    obtain ⟨hroom, hheld⟩ := held_erase hh.valid hh.room hh.held hb hR
    rw [Call.hold, if_pos hn0]
    exact ⟨hR.valid, hR.coalesced, by rw [hR.base, hR.brk]; exact hh.nonempty, hr, hroom, hheld⟩
  | keep hn0 hkeep =>
    rw [Call.hold, if_neg hn0, Function.update_idem]
    refine ⟨hh.valid, hh.coalesced, hh.nonempty, hr, fun p m hpm => ?_, fun c hc => ?_⟩
    · simp only at hpm
      by_cases hpb : p = b.bp
      · subst hpb
        rw [Function.update_self, Option.some.injEq] at hpm
        refine ⟨b, hb, rfl, ?_⟩
        unfold Pool.keepSize at hkeep
        split at hkeep <;> omega
      · rw [Function.update_of_ne hpb] at hpm
        exact hh.room p m hpm
    · simp only
      by_cases hcb : c.bp = b.bp
      · rw [hcb, Function.update_self]
        exact Option.some_ne_none n
      · rw [Function.update_of_ne hcb]
        exact hh.held c hc
  | @move a Q hn0 hA hbQ =>
    have hR := Pool.released hA.valid hA.coalesced hbQ
    obtain ⟨hroom, hheld⟩ := held_insert hh (Pool.blockSize_spec hn).2.2.1 hA
    obtain ⟨hroom, hheld⟩ := held_erase hA.valid hroom hheld hbQ hR
    rw [Call.hold, if_neg hn0, Function.update_comm (hA.fresh b hb)]
    have := hh.nonempty
    have := hA.brk_le
    exact ⟨hR.valid, hR.coalesced, by rw [hR.base, hR.brk, hA.base]; omega, hr, hroom, hheld⟩

/-- The end of the area is not in the heap. -/
theorem Represents.withLimit {h : Heap} (hr : Represents h P) (addr : Nat) :
    Represents { h with memMaxAddr := addr } { P with limit := addr } :=
  { hr with
    limit := rfl
    listed := ⟨hr.listed.heads, hr.listed.links, hr.listed.sizes⟩ }

theorem holds_limit (hh : Holds s P) {addr : Nat} (hlo : s.heap.memBrk ≤ addr)
    (hhi : addr ≤ 2 ^ 63) :
    Holds ⟨{ s.heap with memMaxAddr := addr }, s.live⟩ { P with limit := addr } where
  valid := { hh.valid with
    limit_le := hhi
    brk_le := by
      have := hh.represents.brk
      show P.brk ≤ addr
      omega }
  coalesced := hh.coalesced
  nonempty := hh.nonempty
  represents := hh.represents.withLimit addr
  room := hh.room
  held := hh.held

theorem holds_write (hh : Holds s P) {bp n i : Nat} {v : UInt8} (hbp : s.live bp = some n)
    (hi : i < n) :
    Holds { s with heap := { s.heap with mem := Function.update s.heap.mem (bp + i) v } } P := by
  obtain ⟨b, hb, rfl, hroom⟩ := hh.room bp n hbp
  have hc : ChangedIn b.bp (b.bp + b.size - 16) s.heap
      { s.heap with mem := Function.update s.heap.mem (b.bp + i) v } :=
    ⟨rfl, rfl, rfl, rfl, rfl, fun x hx => Function.update_of_ne (by omega) _ _⟩
  exact { hh with represents := (hh.represents.payload hh.valid hb hc).1 }

theorem exec_free_eq {bp r : Nat} {h h' : Heap} :
    (Call.free bp).exec h = some (r, h') ↔ r = 0 ∧ mmFree bp h = some ((), h') := by
  have hmap : (Call.free bp).exec h = (mmFree bp h).map (fun res => (0, res.2)) := by
    show Option.bind (mmFree bp h) _ = _
    cases mmFree bp h <;> rfl
  rw [hmap]
  cases mmFree bp h with
  | none => simp
  | some res =>
    obtain ⟨⟨⟩, g⟩ := res
    simp [eq_comm]

/-- **Refinement.** A session does to memory what its calls do to a pool. -/
theorem refines : Refines Step Event.seen Call.run Holds where
  visible := by
    rintro s P _ s' c r hh hstep hseen
    cases hstep with
    | @call _ _ h' hallow hx =>
      cases hseen
      cases c with
      | malloc n =>
        obtain ⟨rfl, hh'⟩ := holds_malloc hh hallow hx
        exact ⟨_, rfl, hh'⟩
      | free bp =>
        obtain ⟨rfl, hf⟩ := exec_free_eq.mp hx
        exact ⟨_, rfl, holds_free hh hallow hf⟩
      | realloc oldptr n => exact holds_realloc hh hallow.1 hallow.2.1 hallow.2.2 hx
      | limit addr =>
        cases hx
        exact ⟨_, rfl, holds_limit hh hallow.1 hallow.2⟩
    | write => cases hseen
  silent := by
    rintro s P _ s' hh hstep hseen
    cases hstep with
    | call => cases hseen
    | write hbp hi => exact holds_write hh hbp hi

theorem start_returns {h : Heap} (ha : h.Area) :
    Returns start h (fun r h' =>
      if h.heap + 32 + chunkSize ≤ h.memMaxAddr then
        r = true ∧ Represents h' (Pool.initial h.heap h.memMaxAddr)
      else r = false) := by
  have hfresh : ({ h with memBrk := h.heap } : Heap).Fresh :=
    ⟨ha.pos, ha.aligned, rfl, ha.le, ha.limit⟩
  unfold start memResetBrk
  rw [returns_bind, returns_of_eq rfl]
  exact mmInit_returns hfresh

theorem initial_valid {heap limit : Nat} (hpos : 0 < heap) (halign : heap % 16 = 0)
    (hlim : limit ≤ 2 ^ 63) (hroom : heap + 32 + chunkSize ≤ limit) :
    (Pool.initial heap limit).Valid ∧ (Pool.initial heap limit).Coalesced ∧
      (Pool.initial heap limit).base < (Pool.initial heap limit).brk ∧
      ∀ b, ¬ (Pool.initial heap limit).Live b := by
  have hv := Pool.valid_empty (heap + 32) limit (by omega) (by omega) (by omega)
    hlim
  have hgrow : (Pool.empty (heap + 32) limit).brk + chunkSize ≤
      (Pool.empty (heap + 32) limit).limit := hroom
  refine ⟨Pool.valid_grow hv (by decide) (by decide) hgrow,
    Pool.coalesced_grow hv (by decide) (by decide) hgrow List.IsChain.nil, ?_, ?_⟩
  · rw [Pool.initial, Pool.grow_eq, Pool.coalesce_base, Pool.coalesce_brk]
    exact Nat.lt_add_of_pos_right (by decide)
  · rintro b ⟨hb, ha⟩
    have := (Pool.mem_grow_alloc hv (by decide) (by decide) hgrow ha).mp hb
    exact absurd this List.not_mem_nil

/-- The pool with which a session starts is given by the area alone. -/
theorem start_holds {h : Heap} (ha : h.Area) (hx : start h = some (true, s.heap))
    (hlive : s.live = fun _ => none) : Holds s (Pool.initial h.heap h.memMaxAddr) := by
  have hpost := (returns_of_eq hx).mp (start_returns ha)
  by_cases hroom : h.heap + 32 + chunkSize ≤ h.memMaxAddr
  · rw [if_pos hroom] at hpost
    obtain ⟨hv, hc, hne, hnone⟩ := initial_valid ha.pos ha.aligned ha.limit hroom
    refine ⟨hv, hc, hne, hpost.2, fun p n hpn => ?_, fun b hb => absurd hb (hnone b)⟩
    rw [hlive] at hpn
    cases hpn
  · rw [if_neg hroom] at hpost
    cases hpost

/-- Every reachable session holds a pool. -/
theorem Session.Reachable.holds (hs : s.Reachable) : ∃ P, Holds s P := by
  obtain ⟨s₀, es, ⟨⟨h, ha, hx⟩, hlive⟩, hrun⟩ := hs
  obtain ⟨P, _, hP⟩ := refines.run hrun (start_holds ha hx hlive)
  exact ⟨P, hP⟩

/-- Every call that a client may make returns. -/
theorem Holds.returns (hh : Holds s P) {c : Call} (hc : c.Allowed s) :
    ∃ r h', c.exec s.heap = some (r, h') := by
  cases c with
  | malloc n =>
    obtain ⟨r, h', hx, _⟩ := mmMalloc_returns hh.represents hh.valid hc
    exact ⟨r, h', hx⟩
  | free bp =>
    obtain ⟨b, hb, rfl⟩ := hh.block hc
    obtain ⟨_, h', hx, _⟩ := mmFree_returns hh.represents hh.valid hb
    exact ⟨0, h', exec_free_eq.mpr ⟨rfl, hx⟩⟩
  | realloc oldptr n =>
    obtain ⟨hold, hn, hok⟩ := hc
    obtain ⟨b, hb, rfl⟩ := hh.block hold
    obtain ⟨r, P', hre⟩ := realloc_isSome hh hb hn hok
    obtain ⟨r', h', hx, _⟩ :=
      mmRealloc_returns hh.represents hh.valid hh.coalesced hb hn hre
    exact ⟨r', h', hx⟩
  | limit addr => exact ⟨0, _, rfl⟩

end Allocator
end Cmpsc473
