import Cmpsc473.Allocator.CheckHeap
import Cmpsc473.Allocator.Kernel
import Cmpsc473.Allocator.Area

/-!
# Clients that initialise the heap

A client may call `mm_init` at any time.  A call that succeeds builds a new pool from
the break on, and forgets what lies before it; one that fails leaves no room for
anything.  So from the first `mm_init` on every request is served.
-/

namespace Cmpsc473
namespace Allocator

open ByteMemory Total Tiling Transition

variable {h h' : Heap} {s s' : Session} {P : Pool}

/-- The mapped area, with the break in it. -/
structure Heap.Arena (h : Heap) : Prop where
  pos : 0 < h.heap
  aligned : h.heap % 16 = 0
  brk_aligned : h.memBrk % 16 = 0
  le : h.heap ≤ h.memBrk
  brk_le : h.memBrk ≤ h.memMaxAddr
  limit : h.memMaxAddr ≤ 2 ^ 63

/-- Memory as `mem_init` leaves it, and the globals as they are at first. -/
structure Untouched (s : Session) : Prop where
  area : s.heap.Area
  brk : s.heap.memBrk = s.heap.heap
  heapListp : s.heap.heapListp = 0
  segList : ∀ k < maxLen, s.heap.segList k = 0
  live : ∀ p, s.live p = none

/-- The last `mm_init` has failed. -/
structure Refused (s : Session) : Prop where
  arena : s.heap.Arena
  room : ¬ s.heap.memBrk + chunkSize ≤ s.heap.memMaxAddr
  segList : ∀ k < maxLen, s.heap.segList k = 0
  live : ∀ p, s.live p = none
  /-- Either there are no tags, or those of prologue and epilogue. -/
  tags : s.heap.heapListp = sbrkFailed ∨ ∃ base, s.heap.heap ≤ base ∧
    Represents (s.heap.within base s.heap.memMaxAddr)
      (Pool.empty (base + 32) s.heap.memMaxAddr)

/-- The last `mm_init` has succeeded, and built its pool from `base` on. -/
structure Built (s : Session) (base : Nat) (P : Pool) : Prop where
  pos : 0 < s.heap.heap
  aligned : s.heap.heap % 16 = 0
  le : s.heap.heap ≤ base
  holds : HoldsPayloads ⟨s.heap.within base s.heap.memMaxAddr, s.live⟩ P

inductive Served (s : Session) : Prop
  | refused (h : Refused s)
  | built {base : Nat} {P : Pool} (h : Built s base P)

theorem Untouched.arena (hu : Untouched s) : s.heap.Arena where
  pos := hu.area.pos
  aligned := hu.area.aligned
  brk_aligned := by
    rw [hu.brk]
    exact hu.area.aligned
  le := hu.brk.ge
  brk_le := by
    rw [hu.brk]
    exact hu.area.le
  limit := hu.area.limit

/-- Sizes and base of a pool are aligned, and so is its end. -/
theorem Pool.Valid.brk_aligned (hv : P.Valid) : P.brk % 16 = 0 :=
  (hv.tiles.aligned (fun b hb => (hv.sizes b hb).2) hv.base_aligned).2

theorem Built.arena {base : Nat} (hb : Built s base P) : s.heap.Arena := by
  obtain ⟨live, _, hh⟩ := hb.holds
  have hr := hh.represents
  have hv := hh.valid
  have hbrk : P.brk = s.heap.memBrk := hr.brk
  have hlimit : P.limit = s.heap.memMaxAddr := hr.limit
  have hbase : P.base = base + 32 := hr.base
  have hle := hb.le
  have hne := hh.nonempty
  exact {
    pos := hb.pos
    aligned := hb.aligned
    brk_aligned := hbrk ▸ hv.brk_aligned
    le := by
      have hlt : P.base < P.brk := hne
      omega
    brk_le := by
      have hlt := hv.brk_le
      omega
    limit := hlimit ▸ hv.limit_le }

theorem Served.arena (hs : Served s) : s.heap.Arena := by
  cases hs with
  | refused h => exact h.arena
  | built h => exact h.arena

/-- A call that is defined on a part of the area does the same on all of it. -/
theorem Confined.lift {α : Type} {x : Mm α} {a : α} {base : Nat} {g : Heap} (hx : Confined true x)
    (hbase : h.heap ≤ base) (heq : x (h.within base h.memMaxAddr) = some (a, g)) :
    x h = some (a, g.within h.heap h.memMaxAddr) ∧ g = (g.within h.heap h.memMaxAddr).within base
      (g.within h.heap h.memMaxAddr).memMaxAddr := by
  have harea := hx.area heq
  have hlift : x ((h.within base h.memMaxAddr).within h.heap h.memMaxAddr) =
      some (a, g.within h.heap h.memMaxAddr) := hx.within heq hbase le_rfl (fun _ => rfl)
  rw [Heap.within_within, Heap.within_self] at hlift
  refine ⟨hlift, ?_⟩
  rw [Heap.within_within, Heap.within_memMaxAddr, ← show g.heap = base from harea.1,
    ← show g.memMaxAddr = h.memMaxAddr from harea.2, Heap.within_self]

theorem Heap.Arena.fresh (ha : h.Arena) : (h.within h.memBrk h.memMaxAddr).Fresh :=
  ⟨lt_of_lt_of_le ha.pos ha.le, ha.brk_aligned, rfl, ha.brk_le, ha.limit⟩

theorem Built.of_initial {base : Nat} (hpos : 0 < h.heap) (haligned : h.heap % 16 = 0)
    (hle : h.heap ≤ base) (hbase : base % 16 = 0) (hlimit : h.memMaxAddr ≤ 2 ^ 63)
    (hroom : base + 32 + chunkSize ≤ h.memMaxAddr)
    (hr : Represents (h.within base h.memMaxAddr) (Pool.initial base h.memMaxAddr)) :
    Built ⟨h, fun _ => none⟩ base (Pool.initial base h.memMaxAddr) := by
  obtain ⟨hv, hc, hne, hnone⟩ := initial_valid (by omega) hbase hlimit hroom
  refine ⟨hpos, haligned, hle, fun _ => none, fun _ => Iff.rfl, ?_⟩
  exact {
    valid := hv
    coalesced := hc
    nonempty := hne
    represents := hr
    room := nofun
    held := fun b hb => absurd hb (hnone b) }

/-- Where there is no room for a pool, `mm_init` leaves prologue and epilogue, or nothing. -/
theorem Refused.of_init {g : Heap} (ha : h.Arena) (hheap : g.heap = h.memBrk)
    (hmax : g.memMaxAddr = h.memMaxAddr) (hroom : ¬ h.memBrk + 32 + chunkSize ≤ h.memMaxAddr)
    (hsegs : ∀ k < maxLen, g.segList k = 0)
    (htags : if h.memBrk + 32 ≤ h.memMaxAddr then
        Represents g (Pool.empty (h.memBrk + 32) h.memMaxAddr)
      else g.heapListp = sbrkFailed ∧ g.memBrk = h.memBrk) :
    Refused ⟨g.within h.heap h.memMaxAddr, fun _ => none⟩ := by
  have hbrk := ha.brk_aligned
  have hle := ha.le
  have hchunk : 32 ≤ chunkSize := by decide
  have harena : g.memBrk % 16 = 0 → h.memBrk ≤ g.memBrk → g.memBrk ≤ h.memMaxAddr →
      (g.within h.heap h.memMaxAddr).Arena :=
    fun h16 hlo hhi => ⟨ha.pos, ha.aligned, h16, hle.trans hlo, hhi, ha.limit⟩
  by_cases htag : h.memBrk + 32 ≤ h.memMaxAddr
  · rw [if_pos htag] at htags
    have hgbrk : h.memBrk + 32 = g.memBrk := htags.brk
    exact {
      arena := harena (by omega) (by omega) (by omega)
      room := by
        show ¬ g.memBrk + chunkSize ≤ h.memMaxAddr
        omega
      segList := hsegs
      live := fun _ => rfl
      tags := Or.inr ⟨h.memBrk, hle, by
        show Represents (g.within h.memBrk h.memMaxAddr) _
        rw [← hheap, ← hmax, Heap.within_self, hheap, hmax]
        exact htags⟩ }
  · rw [if_neg htag] at htags
    obtain ⟨hlistp, hgbrk⟩ := htags
    have hbrk_le := ha.brk_le
    exact {
      arena := harena (by omega) (by omega) (by omega)
      room := by
        show ¬ g.memBrk + chunkSize ≤ h.memMaxAddr
        omega
      segList := hsegs
      live := fun _ => rfl
      tags := Or.inl hlistp }

/-- Wherever the break is, `mm_init` returns, and the requests after it are served. -/
theorem mmInit_served (ha : h.Arena) :
    ∃ r h', mmInit h = some (r, h') ∧ Served ⟨h', fun _ => none⟩ := by
  obtain ⟨g₀, hg₀⟩ : ∃ g₀, g₀ = h.within h.memBrk h.memMaxAddr := ⟨_, rfl⟩
  have hheap₀ : g₀.heap = h.memBrk := by rw [hg₀, Heap.within_heap]
  have hmax₀ : g₀.memMaxAddr = h.memMaxAddr := by rw [hg₀, Heap.within_memMaxAddr]
  have hbrk₀ : g₀.memBrk = h.memBrk := by rw [hg₀, Heap.within_memBrk]
  obtain ⟨r, g, hx, hspec⟩ := mmInit_spec (hg₀ ▸ ha.fresh)
  have harea := confined_mmInit.area hx
  obtain ⟨hx', _⟩ := confined_mmInit.lift ha.le (hg₀ ▸ hx)
  rw [hheap₀, hmax₀, hbrk₀] at hspec
  rw [hheap₀, hmax₀] at harea
  refine ⟨r, _, hx', ?_⟩
  by_cases hroom : h.memBrk + 32 + chunkSize ≤ h.memMaxAddr
  · rw [if_pos hroom] at hspec
    refine .built (Built.of_initial ha.pos ha.aligned ha.le ha.brk_aligned ha.limit hroom ?_)
    show Represents (g.within h.memBrk h.memMaxAddr) _
    rw [← harea.1, ← harea.2, Heap.within_self, harea.1, harea.2]
    exact hspec.2
  · rw [if_neg hroom] at hspec
    exact .refused (Refused.of_init ha harea.1 harea.2 hroom hspec.2.1 hspec.2.2)

theorem extendHeap_refused {size : Nat} (halign : size % 16 = 0) (hlt : size < 2 ^ 64)
    (ha : h.Arena) (hroom : ¬ h.memBrk + size ≤ h.memMaxAddr) :
    extendHeap (size / wsize) h = some (0, h) := by
  unfold extendHeap
  rw [extendSize_eq halign hlt, bind_of_some (memSbrk_refused size ha.limit ha.brk_le hroom),
    if_pos rfl]
  rfl

theorem Pool.fit_empty (base limit asize : Nat) : (Pool.empty base limit).fit asize = none := by
  simp [Pool.fit, Pool.empty]

theorem findFit_empty {asize : Nat} (ha : h.Arena) (hsegs : ∀ k < maxLen, h.segList k = 0)
    (hpos : 0 < asize) (hlt : asize < 2 ^ 64) : findFit asize h = some (0, h) := by
  have hl : Listed h (Pool.empty 0 0).bins :=
    ⟨hsegs, fun _ _ => trivial, fun _ _ hb => absurd hb List.not_mem_nil⟩
  have hok : BinsOk h (Pool.empty 0 0).bins := {
    limit := ha.limit
    fits := fun _ _ hb => absurd hb List.not_mem_nil
    cls := fun _ _ hb => absurd hb List.not_mem_nil
    nodup := fun _ => List.nodup_nil
    apart := fun _ _ _ hb => absurd hb List.not_mem_nil }
  obtain ⟨r, h', hx, rfl, hr⟩ := findFit_returns hl hok hpos hlt
  rw [Pool.fit_empty] at hr
  rw [hx, hr]
  rfl

/-- With empty lists, `malloc` asks `extend_heap` for a block. -/
theorem mmMalloc_empty {size : Nat} (ha : h.Arena) (hsegs : ∀ k < maxLen, h.segList k = 0)
    (h1 : 1 ≤ size) (hn : size + 31 < 2 ^ 64) :
    mmMalloc size h = (do
      let bp ← extendHeap (max (requestSize size) chunkSize / wsize)
      if bp = 0 then
        return 0
      else
        place bp (requestSize size)
        return bp : Mm Nat) h := by
  have hpos : 0 < requestSize size := by
    have hspec := Pool.blockSize_spec hn
    rw [requestSize, blockSize_eq hn]
    omega
  rw [mmMalloc_eq h1, bind_of_some (findFit_empty ha hsegs hpos (requestSize_spec size).2),
    if_pos rfl, max64_eq]

theorem max_requestSize_spec (size : Nat) :
    max (requestSize size) chunkSize % 16 = 0 ∧ max (requestSize size) chunkSize < 2 ^ 64 ∧
      chunkSize ≤ max (requestSize size) chunkSize := by
  obtain ⟨halign, hlt⟩ := requestSize_spec size
  unfold chunkSize
  omega

theorem Refused.malloc_eq (hr : Refused s) {size : Nat} (hn : size + 31 < 2 ^ 64) :
    mmMalloc size s.heap = some (0, s.heap) := by
  by_cases h0 : size = 0
  · rw [h0]
    rfl
  obtain ⟨halign, hlt, hchunk⟩ := max_requestSize_spec size
  have hroom := hr.room
  rw [mmMalloc_empty hr.arena hr.segList (by omega) hn,
    bind_of_some (extendHeap_refused halign hlt hr.arena (by omega)), if_pos rfl]
  rfl

/-- Before the first `mm_init` the header that `extend_heap` writes lies below the heap. -/
theorem Untouched.malloc_eq (hu : Untouched s) {size : Nat} (hn : size + 31 < 2 ^ 64) :
    mmMalloc size s.heap = none ∨ mmMalloc size s.heap = some (0, s.heap) := by
  by_cases h0 : size = 0
  · right
    rw [h0]
    rfl
  obtain ⟨halign, hlt, hchunk⟩ := max_requestSize_spec size
  have ha := hu.arena
  have hbrk := hu.brk
  have hpos := ha.pos
  have h16 := ha.aligned
  have hlim := ha.limit
  rw [mmMalloc_empty ha hu.segList (by omega) hn]
  by_cases hroom : s.heap.memBrk + max (requestSize size) chunkSize ≤ s.heap.memMaxAddr
  · left
    have hne : s.heap.memBrk ≠ sbrkFailed := by
      unfold sbrkFailed
      omega
    apply bind_of_none
    unfold extendHeap
    rw [extendSize_eq halign hlt, bind_of_some (memSbrk_granted _ hlim (by omega) hroom), if_neg hne]
    apply bind_of_none
    apply put_eq_none
    rw [hdrp_eq (by omega) (by omega)]
    unfold Heap.Mapped
    show ¬ (s.heap.heap ≤ s.heap.memBrk - 8 ∧ _)
    omega
  · right
    rw [bind_of_some (extendHeap_refused halign hlt ha hroom), if_pos rfl]
    rfl

/-- What a session does with the pool, its client does. -/
theorem Built.lift {base : Nat} (hb : Built s base P) {c : Call} (hc : Confined true c.exec)
    (hreq : c.Requested ⟨s.heap.within base s.heap.memMaxAddr, s.live⟩)
    (hex : ∃ r g, c.exec (s.heap.within base s.heap.memMaxAddr) = some (r, g)) :
    ∃ r h' P', c.exec s.heap = some (r, h') ∧ Built ⟨h', c.hold s.live r⟩ base P' := by
  obtain ⟨r, g, hx⟩ := hex
  obtain ⟨P', hP'⟩ := holdsPayloads_call hb.holds hreq hx
  obtain ⟨hlift, hg⟩ := hc.lift hb.le hx
  refine ⟨r, _, P', hlift, hb.pos, hb.aligned, hb.le, ?_⟩
  rw [← hg]
  exact hP'

theorem Built.malloc {base size : Nat} (hb : Built s base P) (hn : size + 31 < 2 ^ 64) :
    ∃ r h' P', mmMalloc size s.heap = some (r, h') ∧
      Built ⟨h', (Request.malloc size).hold s.live r⟩ base P' := by
  obtain ⟨live, _, hh⟩ := id hb.holds
  obtain ⟨r, g, hx, _⟩ := mmMalloc_returns hh.represents hh.valid hn
  exact hb.lift (c := .malloc size) (confined_mmMalloc size) hn ⟨r, g, hx⟩

theorem Built.free {base bp : Nat} (hb : Built s base P) (hbp : s.live bp ≠ none) :
    ∃ h' P', mmFree bp s.heap = some ((), h') ∧
      Built ⟨h', (Request.free bp).hold s.live 0⟩ base P' := by
  obtain ⟨live, hl, hh⟩ := id hb.holds
  have hc : Confined true (Call.free bp).exec :=
    (confined_mmFree bp).bind fun _ => confined_pure 0
  obtain ⟨b, hblock, rfl⟩ := hh.block (mt (hl bp).mp hbp)
  obtain ⟨⟨⟩, g, hx, _⟩ := mmFree_returns hh.represents hh.valid hblock
  obtain ⟨r, h', P', hlift, hb'⟩ := hb.lift (c := .free b.bp) hc hbp
    ⟨0, g, exec_free_eq.mpr ⟨rfl, hx⟩⟩
  obtain ⟨rfl, hfree⟩ := exec_free_eq.mp hlift
  exact ⟨h', P', hfree, hb'⟩

theorem Built.write {base bp i : Nat} {v : UInt8} (hb : Built s base P) (hbp : s.live bp ≠ none)
    (hi : i < sizeAt s.heap bp - 16) :
    Built { s with heap := { s.heap with mem := Function.update s.heap.mem (bp + i) v } } base P :=
  ⟨hb.pos, hb.aligned, hb.le, holdsPayloads_write hb.holds hbp hi⟩

/-- Requests of a size that does not wrap. -/
def Request.Small : Request → Prop
  | malloc size => size + 31 < 2 ^ 64
  | _ => True

/-- **Every request is served.** -/
theorem Served.step (hs : Served s) {req : Request} (hal : req.Allowed s) (hsmall : req.Small) :
    ∃ r h', (mmCopy memSbrk).serve req s.heap = some (r, h') ∧
      Served ⟨h', req.hold s.live r⟩ := by
  cases req with
  | init =>
    obtain ⟨r, h', hx, hserved⟩ := mmInit_served hs.arena
    exact ⟨r.toNat, h', bind_of_some hx, hserved⟩
  | malloc size =>
    cases hs with
    | refused hr => exact ⟨0, s.heap, hr.malloc_eq hsmall, .refused hr⟩
    | built hb =>
      obtain ⟨r, h', P', hx, hb'⟩ := hb.malloc hsmall
      exact ⟨r, h', hx, .built hb'⟩
  | free bp =>
    cases hs with
    | refused hr => exact absurd (hr.live bp) hal
    | built hb =>
      obtain ⟨h', P', hx, hb'⟩ := hb.free hal
      exact ⟨0, h', bind_of_some hx, .built hb'⟩
  | write bp i v =>
    cases hs with
    | refused hr => exact absurd (hr.live bp) hal.1
    | built hb => exact ⟨0, _, rfl, .built (hb.write hal.1 hal.2)⟩

/-- Before the first `mm_init` nothing happens, as far as anything is defined. -/
theorem Untouched.step (hu : Untouched s) {req : Request} {r : Nat} (hal : req.Allowed s)
    (hsmall : req.Small) (hx : (mmCopy memSbrk).serve req s.heap = some (r, h')) :
    (req = .init ∧ Served ⟨h', req.hold s.live r⟩) ∨
      (∃ size, req = .malloc size) ∧ r = 0 ∧ h' = s.heap := by
  cases req with
  | init =>
    obtain ⟨ok, h₁, hx₁, hserved⟩ := mmInit_served hu.arena
    have heq : (mmCopy memSbrk).serve .init s.heap = some (ok.toNat, h₁) := bind_of_some hx₁
    rw [hx, Option.some.injEq, Prod.mk.injEq] at heq
    rw [heq.2]
    exact Or.inl ⟨rfl, hserved⟩
  | malloc size =>
    have hx' : mmMalloc size s.heap = some (r, h') := hx
    rcases hu.malloc_eq hsmall with hnone | hnull
    · rw [hnone] at hx'
      cases hx'
    · rw [hnull, Option.some.injEq, Prod.mk.injEq] at hx'
      exact Or.inr ⟨⟨size, rfl⟩, hx'.1.symm, hx'.2.symm⟩
  | free bp => exact absurd (hu.live bp) hal
  | write bp i v => exact absurd (hu.live bp) hal.1

end Allocator
end Cmpsc473
