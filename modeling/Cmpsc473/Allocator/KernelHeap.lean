import Cmpsc473.Allocator.Routines
import Cmpsc473.Allocator.Steady

/-!
# The heap of the kernel

`kernel_start` gives the first part of its memory to `mem_init` and builds the page
tables from `HeapMemoryEnd` on.  The allocator keeps to its part as long as the sum in
`mem_sbrk` does not wrap.  When it does wrap, the break moves down.
-/

namespace Cmpsc473
namespace Allocator

open ByteMemory Total Tiling Transition

variable {h h' : Heap} {s s' : Session} {P : Pool} {b : Block}

variable {limit : Nat}

/-- The session with the area cut off at `limit`. -/
def Session.cut (s : Session) (limit : Nat) : Session := ⟨s.heap.within s.heap.heap limit, s.live⟩

theorem Refused.cut (hr : Refused s) (hbrk : s.heap.memBrk ≤ limit)
    (hlimit : limit ≤ s.heap.memMaxAddr) : Refused (s.cut limit) where
  arena := hr.arena.narrow hbrk hlimit
  room := by
    have hroom := hr.room
    show ¬ s.heap.memBrk + chunkSize ≤ limit
    omega
  segList := hr.segList
  live := hr.live
  tags := by
    rcases hr.tags with hlistp | ⟨base, hbase, hrep⟩
    · exact Or.inl hlistp
    · exact Or.inr ⟨base, hbase, hrep.withLimit limit⟩

theorem Built.cut {base : Nat} (hb : Built s base P) (hbrk : s.heap.memBrk ≤ limit)
    (hlimit : limit ≤ s.heap.memMaxAddr) : Built (s.cut limit) base { P with limit := limit } := by
  obtain ⟨live, hl, hh⟩ := hb.holds
  have hlim := hb.arena.limit
  exact ⟨hb.pos, hb.aligned, hb.le, live, hl,
    holds_limit (s := ⟨s.heap.within base s.heap.memMaxAddr, live⟩) hh hbrk (hlimit.trans hlim)⟩

theorem Served.cut (hs : Served s) (hbrk : s.heap.memBrk ≤ limit)
    (hlimit : limit ≤ s.heap.memMaxAddr) : Served (s.cut limit) := by
  cases hs with
  | refused hr => exact .refused (hr.cut hbrk hlimit)
  | built hb => exact .built (hb.cut hbrk hlimit)

/-- The functions of the interface, but not what the client writes. -/
theorem steady_serve {req : Request} (hreq : ∀ bp i v, req ≠ .write bp i v) :
    Steady ((mmCopy memSbrk).serve req) := by
  cases req with
  | init => exact steady_mmInit.bind fun ok => steady_pure _
  | malloc size => exact steady_mmMalloc size
  | free bp => exact (confined_mmFree bp).steady.bind fun _ => steady_pure _
  | write bp i v => exact absurd rfl (hreq bp i v)

/-- A client writes to its payloads, which lie below the break. -/
theorem Served.write_inside (hs : Served s) {bp i : Nat} {v : UInt8}
    (hal : (Request.write bp i v).Allowed s) : Inside ((mmCopy memSbrk).serve (.write bp i v))
      s.heap 0 { s.heap with mem := Function.update s.heap.mem (bp + i) v } := by
  have ha := hs.arena
  cases hs with
  | refused hr => exact absurd (hr.live bp) hal.1
  | built hb =>
    obtain ⟨live, hl, hh⟩ := id hb.holds
    obtain ⟨b, hblock, rfl⟩ := hh.block (mt (hl bp).mp hal.1)
    have hbounds := hh.represents.bounds hh.valid hblock.1
    have hsize := hh.represents.sizeAt_eq hh.valid hblock.1
    have hi : i < sizeAt s.heap b.bp - 16 := hal.2
    simp only [Heap.within_heap, Heap.within_memBrk] at hbounds
    have hi' : i < b.size - 16 := by rwa [← hsize]
    have hle := hb.le
    refine ⟨⟨rfl, rfl⟩, le_rfl, ha.brk_le, rfl, fun a hout => ?_⟩
    apply Function.update_of_ne
    show a ≠ b.bp + i
    have hout' : a < s.heap.heap ∨ s.heap.memBrk ≤ a := hout
    omega

/-- Every request is served below the break. -/
theorem Served.inside (hs : Served s) {req : Request} {r : Nat} (hal : req.Allowed s)
    (hsmall : req.Small) (hx : (mmCopy memSbrk).serve req s.heap = some (r, h')) :
    Inside ((mmCopy memSbrk).serve req) s.heap r h' := by
  by_cases hreq : ∃ bp i v, req = .write bp i v
  · obtain ⟨bp, i, v, rfl⟩ := hreq
    cases hx
    exact hs.write_inside hal
  · apply (steady_serve fun bp i v he => hreq ⟨bp, i, v, he⟩).inside hx hs.arena
    intro hgrows hle
    obtain ⟨q, g, hxq, _⟩ := (hs.cut hgrows hle).step hal hsmall
    exact ⟨q, g, hxq⟩

/-- `mm_init` may be called wherever the break is. -/
theorem Heap.Arena.init_inside (ha : h.Arena) {r : Nat}
    (hx : (mmCopy memSbrk).serve .init h = some (r, h')) :
    Inside ((mmCopy memSbrk).serve .init) h r h' := by
  have hsteady : Steady ((mmCopy memSbrk).serve .init) := steady_mmInit.bind fun _ => steady_pure _
  apply hsteady.inside hx ha
  intro hgrows hle
  obtain ⟨ok, g, hxg, _⟩ := mmInit_served (ha.narrow hgrows hle)
  exact ⟨ok.toNat, g, bind_of_some hxg⟩

/-- The kernel before `mem_init`: its globals are null, and the memory that it has been
given lies in the lower half of the address space. -/
structure Kernel.Boot (g : Heap) (heapMemory heapMemorySize : Nat) : Prop where
  pos : 0 < heapMemory
  aligned : heapMemory % 16 = 0
  limit : heapMemory + heapMemorySize ≤ 2 ^ 63
  heapListp : g.heapListp = 0
  segList : ∀ k < maxLen, g.segList k = 0

variable {g : Heap} {heapMemory heapMemorySize : Nat}

/-- `mem_init` sets the three pointers of `kernel_malloc.c`. -/
theorem Kernel.Boot.memInit_eq (hb : Kernel.Boot g heapMemory heapMemorySize)
    (hx : Kernel.memInit heapMemory heapMemorySize g = some ((), h)) :
    h = { g with heap := heapMemory, memBrk := heapMemory,
                 memMaxAddr := heapMemory + heapMemorySize } := by
  have hlim := hb.limit
  have hend : ptrAdd heapMemory heapMemorySize = heapMemory + heapMemorySize :=
    ptrAdd_eq (by omega)
  rw [← hend]
  exact (congrArg Prod.snd (Option.some.inj hx)).symm

theorem Kernel.Boot.untouched (hb : Kernel.Boot g heapMemory heapMemorySize)
    (hx : Kernel.memInit heapMemory heapMemorySize g = some ((), h)) :
    Untouched ⟨h, fun _ => none⟩ := by
  rw [hb.memInit_eq hx]
  exact {
    area := ⟨hb.pos, hb.aligned, Nat.le_add_right _ _, hb.limit⟩
    brk := rfl
    heapListp := hb.heapListp
    segList := hb.segList
    live := fun _ => rfl }

/-- An allocation near the end of the address space, for which `malloc` asks for 16 bytes:
there is no free block at all, and no room for a chunk. -/
def Request.Unserved (s : Session) : Request → Prop
  | malloc size => 2 ^ 64 ≤ size + 31 ∧ 0 < requestSize size ∧
      (∀ k < maxLen, s.heap.segList k = 0) ∧ ¬ s.heap.memBrk + chunkSize ≤ s.heap.memMaxAddr
  | _ => False

/-- A client of the kernel's allocator. -/
abbrev KernelStep := CopyStep (kernelCopy Kernel.memSbrk) fun s req =>
  Routine.kernel.Bounded s req ∨ req.Unserved s

/-- `malloc` then returns the null pointer and changes nothing. -/
theorem Heap.Arena.malloc_unserved (ha : h.Arena) {size : Nat} (hlt : size < 2 ^ 64)
    (hwraps : 2 ^ 64 ≤ size + 31) (hpos : 0 < requestSize size)
    (hsegs : ∀ k < maxLen, h.segList k = 0) (hroom : ¬ h.memBrk + chunkSize ≤ h.memMaxAddr) :
    mallocOver Kernel.memSbrk size h = some (0, h) := by
  have hask : requestSize size ≤ 16 := by
    unfold requestSize align dsize alignment
    split <;> omega
  have hmax : max (requestSize size) chunkSize = chunkSize := by
    unfold chunkSize
    omega
  have hextend : extendHeapOver Kernel.memSbrk (chunkSize / wsize) h = some (0, h) := by
    unfold extendHeapOver
    rw [extendSize_eq (by decide) (by decide), Kernel.memSbrk_eq (by decide),
      bind_of_some (memSbrk_refused _ ha.limit ha.brk_le hroom), if_pos rfl]
    rfl
  rw [mallocOver_requestSize (by omega), bind_of_some (findFit_empty ha hsegs hpos (by omega)),
    if_pos rfl, hmax, bind_of_some hextend, if_pos rfl]
  rfl

theorem Ready.unserved (hs : Ready s) {req : Request} (hal : req.Allowed s)
    (hno : req.Unserved s) :
    (kernelCopy Kernel.memSbrk).serve req s.heap = some (0, s.heap) ∧
      Inside ((kernelCopy Kernel.memSbrk).serve req) s.heap 0 s.heap := by
  cases req with
  | malloc size =>
    obtain ⟨hwraps, hpos, hsegs, hroom⟩ := hno
    have ha := hs.arena
    -- the same holds of the heap that is mapped up to the break only
    have hcut := (ha.narrow le_rfl ha.brk_le).malloc_unserved hal hwraps hpos hsegs (by
      show ¬ s.heap.memBrk + chunkSize ≤ s.heap.memBrk
      unfold chunkSize
      omega)
    exact ⟨ha.malloc_unserved hal hwraps hpos hsegs hroom, ⟨rfl, rfl⟩, le_rfl, ha.brk_le, hcut,
      fun _ _ => rfl⟩
  | _ => exact hno.elim

/-- The kernel's copy over its own `mem_sbrk`, in what a client can have. -/
theorem Ready.serve_kernel (hs : Ready s) {req : Request} (hal : req.Allowed s)
    (hok : Routine.kernel.Bounded s req) : (kernelCopy Kernel.memSbrk).serve req s.heap =
      (mmCopy memSbrk).serve req s.heap :=
  (hs.kernelCopy_eq Kernel.memSbrk hal).trans (hs.mmCopy_eq .kernel hok)

theorem Ready.cut (hs : Ready s) (hbrk : s.heap.memBrk ≤ limit)
    (hlimit : limit ≤ s.heap.memMaxAddr) : Ready (s.cut limit) := by
  cases hs with
  | untouched hu =>
    have ha := hu.arena.narrow hbrk hlimit
    exact .untouched ⟨⟨ha.pos, ha.aligned, ha.le.trans ha.brk_le, ha.limit⟩, hu.brk,
      hu.heapListp, hu.segList, hu.live⟩
  | served hs => exact .served (hs.cut hbrk hlimit)

/-- The kernel's copy keeps below the break where `mm.c` over `memlib.c` does. -/
theorem Inside.kernel {req : Request} {r : Nat}
    (hin : Inside ((mmCopy memSbrk).serve req) s.heap r h') (hs : Ready s) (hal : req.Allowed s)
    (hok : Routine.kernel.Bounded s req) :
    Inside ((kernelCopy Kernel.memSbrk).serve req) s.heap r h' :=
  ⟨hin.area, hin.grows, hin.le, ((hs.cut hin.grows hin.le).serve_kernel hal hok).trans hin.touches,
    hin.outside⟩

/-- A request is served below the break, or it is an allocation before the first
`mm_init`, which fails. -/
theorem Ready.inside (hs : Ready s) {req : Request} {r : Nat} (hal : req.Allowed s)
    (hsmall : req.Small) (hx : (mmCopy memSbrk).serve req s.heap = some (r, h')) :
    Inside ((mmCopy memSbrk).serve req) s.heap r h' ∨ h' = s.heap := by
  cases hs with
  | served hs => exact Or.inl (hs.inside hal hsmall hx)
  | untouched hu =>
    rcases hu.step hal hsmall hx with ⟨rfl, _⟩ | ⟨_, _, hsame⟩
    · exact Or.inl (hu.arena.init_inside hx)
    · exact Or.inr hsame

/-- The kernel's `mem_sbrk` then grants the increment, and the break moves down. -/
theorem Kernel.memSbrk_wraps {incr : Nat} (hle : h.memBrk ≤ h.memMaxAddr)
    (hlim : h.memMaxAddr ≤ 2 ^ 63) (hlt : incr < 2 ^ 64) (hsum : 2 ^ 64 ≤ h.memBrk + incr) :
    Kernel.memSbrk incr h =
      some (h.memBrk, { h with memBrk := h.memBrk + incr - 2 ^ 64 }) := by
  have hptr : ptrAdd h.memBrk incr = h.memBrk + incr - 2 ^ 64 := by
    unfold ptrAdd
    omega
  unfold Kernel.memSbrk
  rw [hptr]
  exact if_neg (by omega)

/-- No free block is so large. -/
theorem Served.findFit_large (hs : Served s) {asize : Nat} (hlarge : 2 ^ 63 ≤ asize)
    (hlt : asize < 2 ^ 64) : findFit asize s.heap = some (0, s.heap) := by
  cases hs with
  | refused hr => exact findFit_empty hr.arena hr.segList (by omega) hlt
  | @built base P hb =>
    obtain ⟨live, _, hh⟩ := hb.holds
    obtain ⟨r, h', hx, rfl, hspec⟩ := hh.valid.findFit_spec hh.represents (by omega) hlt
    cases hfit : P.fit asize with
    | some b =>
      rw [hfit] at hspec
      obtain ⟨_, _, ⟨hblock, _⟩, hsize, _⟩ := hspec
      have hbounds := hh.represents.bounds hh.valid hblock
      omega
    | none =>
      rw [hfit] at hspec
      rw [hspec.1] at hx
      exact ((confined_findFit asize).lift hb.le hx).1

/-- A `malloc` for which the sum wraps moves the break down, if it returns at all. -/
theorem Served.malloc_wraps (hs : Served s) {size r : Nat}
    (hsum : 2 ^ 64 ≤ s.heap.memBrk + requestSize size)
    (hx : mallocOver Kernel.memSbrk size s.heap = some (r, h')) : h'.memBrk < s.heap.memBrk := by
  have ha := hs.arena
  have hle := ha.brk_le
  have hlim := ha.limit
  have hpos := lt_of_lt_of_le ha.pos ha.le
  obtain ⟨halign, hlt⟩ := requestSize_spec size
  have h0 : size ≠ 0 := by
    intro h0
    rw [h0, show requestSize 0 = 32 by decide] at hsum
    omega
  have hmax : max (requestSize size) chunkSize = requestSize size := by
    unfold chunkSize
    omega
  rw [mallocOver_requestSize h0, bind_of_some (hs.findFit_large (by omega) hlt), if_pos rfl,
    hmax] at hx
  obtain ⟨bp, h₁, hext, hx⟩ := bind_eq_some.mp hx
  unfold extendHeapOver at hext
  rw [extendSize_eq halign hlt, bind_of_some (Kernel.memSbrk_wraps hle hlim hlt hsum),
    if_neg (by unfold sbrkFailed; omega)] at hext
  have hchunk := (confined_addChunk _ _ : Confined false _).brk hext rfl
  have hplace : Confined false
      (if bp = 0 then return 0 else do place bp (requestSize size); return bp : Mm Nat) :=
    confined_ite (confined_pure _) (confined_placeAt _ _)
  rw [hplace.brk hx rfl, hchunk]
  show s.heap.memBrk + requestSize size - 2 ^ 64 < s.heap.memBrk
  omega

theorem Served.bounded_of_inside (hs : Served s) {req : Request} {r : Nat} (hsmall : req.Small)
    (hx : (kernelCopy Kernel.memSbrk).serve req s.heap = some (r, h'))
    (hin : Inside ((kernelCopy Kernel.memSbrk).serve req) s.heap r h') :
    Routine.kernel.Bounded s req := by
  cases req with
  | malloc size =>
    refine ⟨hsmall, fun _ => ?_⟩
    by_contra hsum
    have hlt := hs.malloc_wraps (Nat.not_lt.mp hsum) hx
    exact absurd hin.grows (Nat.not_le.mpr hlt)
  | _ => trivial

/-! ## Runs -/

/-- What every run keeps, from the heap `h₀` on: the area, and the bytes outside of it. -/
structure InHeap (h₀ : Heap) (ls : List (Request × Nat)) (s : Session) : Prop
    extends Reached ls s where
  area : s.heap.heap = h₀.heap ∧ s.heap.memMaxAddr = h₀.memMaxAddr
  outside : ∀ a, a < h₀.heap ∨ h₀.memMaxAddr ≤ a → s.heap.mem a = h₀.mem a

/-- A request that is not served leaves everything as it is. -/
theorem InHeap.unserved {h₀ : Heap} {ls : List (Request × Nat)} (hin : InHeap h₀ ls s)
    {req : Request} {r : Nat} (hal : req.Allowed s) (hno : req.Unserved s)
    (hx : (kernelCopy Kernel.memSbrk).serve req s.heap = some (r, h')) :
    InHeap h₀ (ls ++ [(req, r)]) ⟨h', req.hold s.live r⟩ := by
  rw [(hin.ready.unserved hal hno).1] at hx
  cases hx
  cases req with
  | malloc size =>
    rw [Request.hold, if_pos rfl]
    refine { hin with served := fun ⟨r, hr⟩ => hin.served ⟨r, ?_⟩ }
    rcases List.mem_append.mp hr with hr | hr
    · exact hr
    · cases List.mem_singleton.mp hr
  | _ => exact hno.elim

theorem InHeap.step {h₀ : Heap} {ls : List (Request × Nat)} {l : Request × Nat}
    (hin : InHeap h₀ ls s) (hstep : KernelStep s l s') : InHeap h₀ (ls ++ [l]) s' := by
  cases hstep with
  | serve hal hok hx =>
    rename_i req r h'
    rcases hok with hok | hno
    case inr => exact hin.unserved hal hno hx
    have hsmall := hok.small
    rw [hin.ready.serve_kernel hal hok] at hx
    refine {
      toReached := hin.toReached.next hal hsmall hx
      area := ?_
      outside := ?_ }
    · rcases hin.ready.inside hal hsmall hx with hcall | hsame
      · exact ⟨hcall.area.1.trans hin.area.1, hcall.area.2.trans hin.area.2⟩
      · rw [hsame]
        exact hin.area
    · intro a ha
      rw [← hin.outside a ha]
      rcases hin.ready.inside hal hsmall hx with hcall | hsame
      · apply hcall.outside
        have hle := hcall.le
        rw [hin.area.2] at hle
        rw [hin.area.1]
        exact ha.imp_right hle.trans
      · rw [hsame]

/-- A request for which no sum wraps is served below the break. -/
theorem InHeap.inside {h₀ : Heap} {ls : List (Request × Nat)} (hin : InHeap h₀ ls s)
    {req : Request} (hal : req.Allowed s) (hok : Routine.kernel.Bounded s req)
    (hinit : req = .init ∨ ∃ r, (.init, r) ∈ ls) :
    ∃ r h', (kernelCopy Kernel.memSbrk).serve req s.heap = some (r, h') ∧
      Inside ((kernelCopy Kernel.memSbrk).serve req) s.heap r h' := by
  obtain ⟨r, h', hserve⟩ := hin.defined hal hok.small hinit
  have hinside : Inside ((mmCopy memSbrk).serve req) s.heap r h' := by
    rcases hinit with rfl | hinit
    · exact hin.ready.arena.init_inside hserve
    · exact (hin.served hinit).inside hal hok.small hserve
  exact ⟨r, h', (hin.ready.serve_kernel hal hok).trans hserve, hinside.kernel hin.ready hal hok⟩

/-- **The kernel heap stays in its area.** In every run after `mem_init` in which no sum
wraps the break lies between `HeapMemory` and `HeapMemoryEnd`, and no byte on either side
has changed.  From the first `mm_init` on every request is served, the break does not
move down, and what is read or written lies between `HeapMemory` and the break; among the
sizes that do not wrap themselves, this holds of no others.  A size that wraps is safe
where there is neither a free block nor room for a chunk. -/
theorem stays_in_area (hb : Kernel.Boot g heapMemory heapMemorySize)
    (hx : Kernel.memInit heapMemory heapMemorySize g = some ((), h))
    {ls : List (Request × Nat)} (hrun : Run KernelStep ⟨h, fun _ => none⟩ ls s) :
    (s.heap.heap = heapMemory ∧ s.heap.memMaxAddr = heapMemory + heapMemorySize) ∧
    (heapMemory ≤ s.heap.memBrk ∧ s.heap.memBrk ≤ heapMemory + heapMemorySize) ∧
    (∀ a, a < heapMemory ∨ heapMemory + heapMemorySize ≤ a → s.heap.mem a = g.mem a) ∧
    (∀ req, req.Allowed s → req.Small → (req = .init ∨ ∃ r, (.init, r) ∈ ls) →
      ((∃ r h', (kernelCopy Kernel.memSbrk).serve req s.heap = some (r, h') ∧
        Inside ((kernelCopy Kernel.memSbrk).serve req) s.heap r h') ↔
      Routine.kernel.Bounded s req)) ∧
    ∀ req, req.Allowed s → req.Unserved s →
      (kernelCopy Kernel.memSbrk).serve req s.heap = some (0, s.heap) ∧
        Inside ((kernelCopy Kernel.memSbrk).serve req) s.heap 0 s.heap := by
  have hin : InHeap h ls s := by
    apply Run.history (InHeap h) hrun
    · exact ⟨(hb.untouched hx).reached, ⟨rfl, rfl⟩, fun _ _ => rfl⟩
    · exact fun _ _ _ _ hin hstep => hin.step hstep
  have heq := hb.memInit_eq hx
  have harea : s.heap.heap = heapMemory ∧ s.heap.memMaxAddr = heapMemory + heapMemorySize := by
    rw [hin.area.1, hin.area.2, heq]
    exact ⟨rfl, rfl⟩
  have ha := hin.ready.arena
  refine ⟨harea, ⟨harea.1 ▸ ha.le, harea.2 ▸ ha.brk_le⟩, fun a hout => ?_, ?_,
    fun req hal hno => hin.ready.unserved hal hno⟩
  · rw [hin.outside a (by rwa [← hin.area.1, ← hin.area.2, harea.1, harea.2]), heq]
  · intro req hal hsmall hinit
    constructor
    · rintro ⟨r, h', hserve, hinside⟩
      rcases hinit with rfl | hinit
      · trivial
      · exact (hin.served hinit).bounded_of_inside hsmall hserve hinside
    · exact fun hok => hin.inside hal hok hinit

theorem zeroHeap_boot : Kernel.Boot zeroHeap 4096 (2 ^ 20) :=
  ⟨by decide, by decide, by decide, rfl, fun _ _ => rfl⟩

theorem zeroHeap_memInit : Kernel.memInit 4096 (2 ^ 20) zeroHeap = some ((), zeroHeap) := rfl

theorem zeroSession_init : mmInit zeroHeap = some (true, zeroSession.heap) := by
  have hreset : memResetBrk zeroHeap = some ((), zeroHeap) := rfl
  have hstart := zeroSession_start
  unfold start at hstart
  rwa [bind_of_some hreset] at hstart

theorem zeroHeap_init : mmInitOver Kernel.memSbrk zeroHeap = some (true, zeroSession.heap) := by
  rw [← zeroSession_init]
  exact congrFun Routine.kernel.mmInitOver_eq zeroHeap

theorem zeroSession_memBrk : zeroSession.heap.memBrk = 20512 :=
  zeroSession_holds.represents.brk.symm.trans (by decide)

theorem zeroSession_malloc {size : Nat} (hsum : zeroSession.heap.memBrk + requestSize size < 2 ^ 64) :
    mallocOver Kernel.memSbrk size zeroSession.heap = mmMalloc size zeroSession.heap := by
  have harena : zeroSession.heap.Arena := by
    obtain ⟨_, _, hx, hserved⟩ := mmInit_served (h := zeroHeap)
      ⟨by decide, by decide, by decide, by decide, by decide, by decide⟩
    rw [zeroSession_init, Option.some.injEq, Prod.mk.injEq] at hx
    rw [hx.2]
    exact hserved.arena
  exact harena.mallocOver_eq hsum

theorem exists_first : ∃ h₀ h, mmInitOver Kernel.memSbrk zeroHeap = some (true, h₀) ∧
    mallocOver Kernel.memSbrk 24 h₀ = some (4128, h) ∧ h₀.memBrk = 20512 := by
  obtain ⟨h, hx, -⟩ := first_malloc zeroSession_holds
  exact ⟨zeroSession.heap, h, zeroHeap_init,
    (zeroSession_malloc (by rw [zeroSession_memBrk]; decide)).trans hx, zeroSession_memBrk⟩

/-- The run of `mm_init` and an allocation. -/
theorem init_malloc_run {c : Copy} {ok : Session → Request → Prop} {h₀ : Heap} {size r : Nat}
    (hinit : c.init = mmInitOver Kernel.memSbrk) (hmalloc : c.malloc = mallocOver Kernel.memSbrk)
    (hx₀ : mmInitOver Kernel.memSbrk zeroHeap = some (true, h₀))
    (hx : mallocOver Kernel.memSbrk size h₀ = some (r, h)) (hr : r ≠ 0) (hlt : size < 2 ^ 64)
    (hok₀ : ok ⟨zeroHeap, fun _ => none⟩ .init) (hok : ok ⟨h₀, fun _ => none⟩ (.malloc size)) :
    Run (CopyStep c ok) ⟨zeroHeap, fun _ => none⟩ [(.init, 1), (.malloc size, r)]
      ⟨h, Function.update (fun _ => none) r (some size)⟩ := by
  have hserve : c.serve .init zeroHeap = some (1, h₀) := by
    rw [← hinit] at hx₀
    exact bind_of_some hx₀
  have hserve' : c.serve (.malloc size) h₀ = some (r, h) := by
    rw [← hmalloc] at hx
    exact hx
  have hstep : CopyStep c ok ⟨zeroHeap, fun _ => none⟩ (.init, 1) ⟨h₀, fun _ => none⟩ :=
    .serve trivial hok₀ hserve
  have hstep' : CopyStep c ok ⟨h₀, fun _ => none⟩ (.malloc size, r)
      ⟨h, (Request.malloc size).hold (fun _ => none) r⟩ := .serve hlt hok hserve'
  rw [Request.hold, if_neg hr] at hstep'
  exact ((Run.nil _).snoc hstep).snoc hstep'

/-- A run of either copy over the kernel's `mem_sbrk`, up to a block in use. -/
theorem exists_allocated {c : Copy} {ok : Session → Request → Prop}
    (hinit : c.init = mmInitOver Kernel.memSbrk) (hmalloc : c.malloc = mallocOver Kernel.memSbrk)
    (hok : ∀ s req, Routine.kernel.Bounded s req → ok s req) : ∃ h live, live 4128 ≠ none ∧
      Run (CopyStep c ok) ⟨zeroHeap, fun _ => none⟩ [(.init, 1), (.malloc 24, 4128)]
        ⟨h, live⟩ := by
  obtain ⟨h₀, h, hx₀, hx, hbrk⟩ := exists_first
  have hsum : h₀.memBrk + requestSize 24 < 2 ^ 64 := by
    rw [hbrk]
    decide
  refine ⟨h, _, ?_, init_malloc_run hinit hmalloc hx₀ hx (by decide) (by decide)
    (hok _ .init trivial) (hok _ (.malloc 24) ⟨(by decide : 24 + 31 < 2 ^ 64), fun _ => hsum⟩)⟩
  rw [Function.update_self]
  exact Option.some_ne_none _

/-- After `mm_init` and an allocation the block is freed. -/
theorem stays_in_area_zeroHeap : ∃ h live r h', live 4128 ≠ none ∧
    Run KernelStep ⟨zeroHeap, fun _ => none⟩ [(.init, 1), (.malloc 24, 4128)] ⟨h, live⟩ ∧
    (4096 ≤ h.memBrk ∧ h.memBrk ≤ 4096 + 2 ^ 20) ∧
    (kernelCopy Kernel.memSbrk).serve (.free 4128) h = some (r, h') ∧
    Inside ((kernelCopy Kernel.memSbrk).serve (.free 4128)) h r h' := by
  obtain ⟨h, live, hlive, hrun⟩ := exists_allocated (c := kernelCopy Kernel.memSbrk)
    rfl rfl (fun _ _ => Or.inl)
  obtain ⟨-, hbrk, -, hserve, -⟩ := stays_in_area zeroHeap_boot zeroHeap_memInit hrun
  obtain ⟨r, h', hx, hinside⟩ :=
    (hserve (.free 4128) hlive trivial (Or.inr ⟨1, List.mem_cons_self⟩)).mpr trivial
  exact ⟨h, live, r, h', hlive, hrun, hbrk, hx, hinside⟩

/-! ## The break moves down -/

theorem ftrp_read {bp : Nat} (hm : h.Mapped (hdrp bp) 8) :
    ftrp bp h = some (ptrSub (ptrAdd bp (h.word (hdrp bp) &&& sizeMask)) dsize, h) := by
  unfold ftrp
  rw [bind_of_some (getSize_eq hm)]
  rfl

theorem nextBlkp_read {bp : Nat} (hm : h.Mapped (hdrp bp) 8) :
    nextBlkp bp h = some (ptrAdd bp (h.word (hdrp bp) &&& sizeMask), h) := by
  have hsize : getSize (ptrSub bp wsize) h = some (h.word (hdrp bp) &&& sizeMask, h) :=
    getSize_eq hm
  unfold nextBlkp
  rw [bind_of_some hsize]
  rfl

theorem prevBlkp_read {bp : Nat} (hm : h.Mapped (ptrSub bp dsize) 8) :
    prevBlkp bp h = some (ptrSub bp (h.word (ptrSub bp dsize) &&& sizeMask), h) := by
  unfold prevBlkp
  rw [bind_of_some (getSize_eq hm)]
  rfl

theorem get_eq {p : Nat} (hm : h.Mapped p 8) : Allocator.get p h = some (h.word p, h) := if_pos hm

/-- Header and footer of a block written, whatever its size. -/
theorem putTags_eq {α : Type} {f : Mm α} {bp v foot : Nat} (hm : h.Mapped (hdrp bp) 8)
    (hv : v < 2 ^ 64) (hfoot : ptrSub (ptrAdd bp (v &&& sizeMask)) dsize = foot)
    (hm' : h.Mapped foot 8) : (do put (hdrp bp) v; put (← ftrp bp) v; f : Mm α) h =
      f ((h.store (hdrp bp) 8 v).store foot 8 v) := by
  have hftrp : ftrp bp (h.store (hdrp bp) 8 v) = some (foot, h.store (hdrp bp) 8 v) := by
    rw [ftrp_read ((Heap.store_mapped _ _ _ _ _ _).mpr hm), Heap.word_store_self _ hv, hfoot]
  rw [bind_of_some (put_eq hm), bind_of_some hftrp,
    bind_of_some (put_eq ((Heap.store_mapped _ _ _ _ _ _).mpr hm'))]

/-- The first node of a list. -/
theorem nodeAdd_empty {ptr size k : Nat} (hlist : selectList size = (k : Int)) (hk : k < maxLen)
    (hseg : h.segList k = 0) (hm : h.Mapped ptr 8) (hm' : h.Mapped (nextPtr ptr) 8) :
    nodeAdd ptr size h =
      some ((), ((h.store ptr 8 0).store (nextPtr ptr) 8 0).setHead k ptr) := by
  have hget : getSeg (k : Int) h = some (0, h) := by
    rw [← hseg]
    exact if_pos (by omega)
  have hset : ∀ g : Heap, setSeg (k : Int) ptr g = some ((), g.setHead k ptr) :=
    fun g => if_pos (by omega)
  have hrounds : walkRounds h = some (h.memMaxAddr - h.heap + 1, h) := rfl
  have hloop : nodeAddLoop size (h.memMaxAddr - h.heap + 1) 0 0 h = some ((0, 0), h) := rfl
  have hput : setPtr (prevPtr ptr) 0 h = some ((), h.store ptr 8 0) := put_eq hm
  have hput' : setPtr (nextPtr ptr) 0 (h.store ptr 8 0) =
      some ((), (h.store ptr 8 0).store (nextPtr ptr) 8 0) := put_eq hm'
  unfold nodeAdd
  rw [hlist, bind_of_some hrounds, bind_of_some hget, bind_of_some hloop]
  show (do
    setPtr (prevPtr ptr) 0
    setPtr (nextPtr ptr) 0
    setSeg (k : Int) ptr : Mm Unit) h = _
  rw [bind_of_some hput, bind_of_some hput', hset]

/-- The last node of a list. -/
theorem nodeRemove_last {ptr k : Nat} (hm : h.Mapped (hdrp ptr) 8)
    (hlist : selectList (h.word (hdrp ptr) &&& sizeMask) = (k : Int)) (hk : k < maxLen)
    (hmp : h.Mapped ptr 8) (hp : h.word ptr = 0) (hmn : h.Mapped (nextPtr ptr) 8)
    (hn : h.word (nextPtr ptr) = 0) : nodeRemove ptr h = some ((), h.setHead k 0) := by
  have hprev : prevBlk ptr h = some (0, h) := by
    rw [← hp]
    exact get_eq hmp
  have hnext : nextBlk ptr h = some (0, h) := by
    rw [← hn]
    exact get_eq hmn
  unfold nodeRemove
  rw [bind_of_some (getSize_eq hm), hlist, bind_of_some hprev, if_neg (by decide),
    bind_of_some hnext, if_neg (by decide)]
  exact if_pos (by omega)

/-- A block between two that are taken is not merged. -/
theorem coalesce_taken {bp prev next a c size : Nat} (hprev : prevBlkp bp h = some (prev, h))
    (ha : getAlloc (hdrp prev) h = some (a, h)) (hnext : nextBlkp bp h = some (next, h))
    (hc : getAlloc (hdrp next) h = some (c, h)) (hsize : getSize (hdrp bp) h = some (size, h))
    (htaken : a ≠ 0 ∧ c ≠ 0) : coalesce bp h = some (bp, h) := by
  unfold coalesce
  rw [bind_of_some hprev, bind_of_some ha, bind_of_some hnext, bind_of_some hc, bind_of_some hsize,
    if_pos htaken]
  rfl

/-- A heap that one block in use takes up, to the break at 20512. -/
structure Full (h : Heap) : Prop where
  heap : h.heap = 4096
  memMaxAddr : h.memMaxAddr = 4096 + 2 ^ 20
  memBrk : h.memBrk = 20512
  segList : ∀ k < maxLen, h.segList k = 0
  header : h.word 4120 = 16385
  footer : h.word 20496 = 16385

/-- Behind that block there is one of the size -32, with the tag `tag`.  Its footer lies in
the block before it, and so does the header that follows it, `behind`. -/
structure Overrun (h : Heap) (tag behind : Nat) : Prop where
  heap : h.heap = 4096
  memMaxAddr : h.memMaxAddr = 4096 + 2 ^ 20
  memBrk : h.memBrk = 20480
  header : h.word 4120 = 16385
  footer : h.word 20496 = 16385
  backHeader : h.word 20504 = tag
  backFooter : h.word 20464 = tag
  follows : h.word 20472 = behind
  prev : h.word 20512 = 0
  next : h.word 20520 = 0

/-- What `extend_heap` makes of a full heap, asked for -32 bytes. -/
def backHeap (h : Heap) : Heap :=
  ((((({ h with memBrk := 20480 }.store 20504 8 (2 ^ 64 - 32)).store 20464 8 (2 ^ 64 - 32)).store
    20472 8 1).store 20512 8 0).store 20520 8 0).setHead 60 20512

/-- And `place` of that. -/
def placedHeap (h : Heap) : Heap :=
  (((backHeap h).setHead 60 0).store 20504 8 (2 ^ 64 - 31)).store 20464 8 (2 ^ 64 - 31)

theorem Full.mapped (hf : Full h) {p : Nat} (hlo : 4096 ≤ p) (hhi : p ≤ 20520) : h.Mapped p 8 := by
  have h₁ := hf.heap
  have h₂ := hf.memMaxAddr
  unfold Heap.Mapped
  omega

theorem Overrun.mapped {tag behind : Nat} (ho : Overrun h tag behind) {p : Nat} (hlo : 4096 ≤ p)
    (hhi : p ≤ 20520) : h.Mapped p 8 := by
  have h₁ := ho.heap
  have h₂ := ho.memMaxAddr
  unfold Heap.Mapped
  omega

theorem Full.arena (hf : Full h) : h.Arena where
  pos := by rw [hf.heap]; decide
  aligned := by rw [hf.heap]
  brk_aligned := by rw [hf.memBrk]
  le := by rw [hf.heap, hf.memBrk]; decide
  brk_le := by rw [hf.memBrk, hf.memMaxAddr]; decide
  limit := by rw [hf.memMaxAddr]; decide

theorem Full.backHeap (hf : Full h) : Overrun (backHeap h) (2 ^ 64 - 32) 1 := by
  have hkeep : ∀ lo brk hi listp segs p, (Heap.mk h.mem lo brk hi listp segs).word p = h.word p :=
    fun _ _ _ _ _ _ => rfl
  have hheader := hf.header
  have hfooter := hf.footer
  have hheap := hf.heap
  have hmax := hf.memMaxAddr
  constructor <;> simp [Allocator.backHeap, hkeep, hheader, hfooter, hheap, hmax]

theorem Full.placedHeap (hf : Full h) : Overrun (placedHeap h) (2 ^ 64 - 31) 1 := by
  have ho := hf.backHeap
  have hheader := ho.header
  have hfooter := ho.footer
  have hfollows := ho.follows
  have hprev := ho.prev
  have hnext := ho.next
  have hheap := ho.heap
  have hmax := ho.memMaxAddr
  have hbrk := ho.memBrk
  constructor <;> simp [Allocator.placedHeap, hheader, hfooter, hfollows, hprev, hnext, hheap,
    hmax, hbrk]

/-- The block is not merged with what lies about it. -/
theorem Overrun.coalesce {tag behind : Nat} (ho : Overrun h tag behind)
    (htag : tag &&& sizeMask = 2 ^ 64 - 32) (hbehind : behind &&& 1 ≠ 0) :
    coalesce 20512 h = some (20512, h) := by
  have hfoot : h.word (ptrSub 20512 dsize) = 16385 := ho.footer
  have hhead : h.word (hdrp 4128) = 16385 := ho.header
  have hback : h.word (hdrp 20512) = tag := ho.backHeader
  have hfollows : h.word (hdrp 20480) = behind := ho.follows
  have hprev : prevBlkp 20512 h = some (4128, h) := by
    rw [prevBlkp_read (ho.mapped (by decide) (by decide)), hfoot]
    rfl
  have hnext : nextBlkp 20512 h = some (20480, h) := by
    rw [nextBlkp_read (ho.mapped (by decide) (by decide)), hback, htag]
    rfl
  refine coalesce_taken hprev (getAlloc_eq (ho.mapped (by decide) (by decide))) hnext
    (getAlloc_eq (ho.mapped (by decide) (by decide)))
    (getSize_eq (ho.mapped (by decide) (by decide))) ⟨?_, ?_⟩
  · rw [hhead]
    decide
  · rwa [hfollows]

theorem Full.extendHeap (hf : Full h) : extendHeapOver Kernel.memSbrk ((2 ^ 64 - 32) / wsize) h =
    some (20512, Allocator.backHeap h) := by
  have hbrk : Kernel.memSbrk (2 ^ 64 - 32) h = some (20512, { h with memBrk := 20480 }) := by
    have hx := Kernel.memSbrk_wraps hf.arena.brk_le hf.arena.limit (by decide : 2 ^ 64 - 32 < 2 ^ 64)
      (by rw [hf.memBrk]; decide)
    rw [hf.memBrk] at hx
    exact hx
  obtain ⟨h₂, hh₂⟩ : ∃ h₂, h₂ = ({ h with memBrk := 20480 }.store 20504 8 (2 ^ 64 - 32)).store
    20464 8 (2 ^ 64 - 32) := ⟨_, rfl⟩
  obtain ⟨h₃, hh₃⟩ : ∃ h₃, h₃ = h₂.store 20472 8 1 := ⟨_, rfl⟩
  have hh₄ : Allocator.backHeap h = ((h₃.store 20512 8 0).store 20520 8 0).setHead 60 20512 := by
    rw [hh₃, hh₂]
    rfl
  have hm : ∀ {p : Nat}, 4096 ≤ p → p ≤ 20520 → h₂.Mapped p 8 ∧ h₃.Mapped p 8 := by
    intro p hlo hhi
    rw [hh₃, hh₂]
    exact ⟨hf.mapped hlo hhi, hf.mapped hlo hhi⟩
  have htags : ∀ {α : Type} {f : Mm α}, (do
      put (hdrp 20512) (pack (2 ^ 64 - 32) 0)
      put (← ftrp 20512) (pack (2 ^ 64 - 32) 0)
      f : Mm α) { h with memBrk := 20480 } = f h₂ := by
    intro α f
    rw [hh₂]
    exact putTags_eq (hf.mapped (by decide : 4096 ≤ 20504) (by decide)) (by decide) (by decide)
      (hf.mapped (by decide : 4096 ≤ 20464) (by decide))
  have hnext : nextBlkp 20512 h₂ = some (20480, h₂) := by
    have hw₂ : h₂.word (hdrp 20512) = 2 ^ 64 - 32 := by
      rw [hh₂, Heap.word_store_ne _ (by decide)]
      exact Heap.word_store_self _ (by decide)
    rw [nextBlkp_read (hm (by decide) (by decide)).1, hw₂]
    rfl
  have hput : put (hdrp 20480) (pack 0 1) h₂ = some ((), h₃) := by
    rw [hh₃]
    exact put_eq (hm (by decide : 4096 ≤ 20472) (by decide)).1
  have hadd : nodeAdd 20512 (2 ^ 64 - 32) h₃ = some ((), Allocator.backHeap h) := by
    rw [hh₄]
    refine nodeAdd_empty (by decide) (by decide) ?_ (hm (by decide) (by decide)).2
      (hm (by decide : 4096 ≤ 20520) (by decide)).2
    rw [hh₃, hh₂]
    exact hf.segList 60 (by decide)
  unfold extendHeapOver
  rw [extendSize_eq (by decide) (by decide), bind_of_some hbrk, if_neg (by decide), htags,
    bind_of_some hnext, bind_of_some hput, bind_of_some hadd]
  exact hf.backHeap.coalesce (by decide) (by decide)

theorem Full.place (hf : Full h) : place 20512 (2 ^ 64 - 32) (Allocator.backHeap h) =
    some ((), Allocator.placedHeap h) := by
  have ho := hf.backHeap
  have hback : (Allocator.backHeap h).word (hdrp 20512) = 2 ^ 64 - 32 := ho.backHeader
  obtain ⟨h₁, hh₁⟩ : ∃ h₁, h₁ = (Allocator.backHeap h).setHead 60 0 := ⟨_, rfl⟩
  obtain ⟨h₂, hh₂⟩ : ∃ h₂, h₂ = h₁.store 20504 8 (2 ^ 64 - 31) := ⟨_, rfl⟩
  have hremove : nodeRemove 20512 (Allocator.backHeap h) = some ((), h₁) := by
    rw [hh₁]
    exact nodeRemove_last (ho.mapped (by decide) (by decide)) (by rw [hback]; decide) (by decide)
      (ho.mapped (by decide) (by decide)) ho.prev (ho.mapped (by decide) (by decide)) ho.next
  have hput₁ : put (hdrp 20512) (pack (2 ^ 64 - 32) 1) h₁ = some ((), h₂) := by
    rw [hh₂, hh₁]
    exact put_eq (ho.mapped (by decide : 4096 ≤ 20504) (by decide))
  have hm₂ : ∀ {p : Nat}, 4096 ≤ p → p ≤ 20520 → h₂.Mapped p 8 := by
    intro p hlo hhi
    rw [hh₂, hh₁]
    exact ho.mapped hlo hhi
  have hw₂ : h₂.word (hdrp 20512) = 2 ^ 64 - 31 := by
    rw [hh₂]
    exact Heap.word_store_self _ (by decide)
  have hftrp : ftrp 20512 h₂ = some (20464, h₂) := by
    rw [ftrp_read (hm₂ (by decide) (by decide)), hw₂]
    rfl
  have hput₂ : put 20464 (pack (2 ^ 64 - 32) 1) h₂ = some ((), Allocator.placedHeap h) := by
    unfold Allocator.placedHeap
    rw [← hh₁, ← hh₂]
    exact put_eq (hm₂ (by decide) (by decide))
  unfold Allocator.place
  rw [bind_of_some (getSize_eq (ho.mapped (by decide) (by decide))), hback, bind_of_some hremove,
    if_pos (by decide)]
  show (do
    put (hdrp 20512) (pack (2 ^ 64 - 32) 1)
    put (← ftrp 20512) (pack (2 ^ 64 - 32) 1) : Mm Unit) h₁ = _
  rw [bind_of_some hput₁, bind_of_some hftrp, hput₂]

/-- `malloc(2 ^ 64 - 48)` in a full heap returns the old break, and lowers the break. -/
theorem Full.malloc (hf : Full h) :
    mallocOver Kernel.memSbrk (2 ^ 64 - 48) h = some (20512, Allocator.placedHeap h) := by
  have hsize : requestSize (2 ^ 64 - 48) = 2 ^ 64 - 32 := by decide
  have hmax : max (2 ^ 64 - 32) chunkSize = 2 ^ 64 - 32 := by decide
  rw [mallocOver_requestSize (by decide), hsize, hmax,
    bind_of_some (findFit_empty hf.arena hf.segList (by decide) (by decide)), if_pos rfl,
    bind_of_some hf.extendHeap, if_neg (by decide), bind_of_some hf.place]
  rfl

/-- The first chunk is allocated whole. -/
theorem malloc_full : ∃ h, mmMalloc 16368 zeroSession.heap = some (4128, h) ∧ Full h := by
  have hh := zeroSession_holds
  obtain ⟨r, h, hx, hr, hrep, _⟩ :=
    mmMalloc_returns hh.represents hh.valid (by decide : 16368 + 31 < 2 ^ 64)
  have hr' : r = 4128 := hr.trans (by decide)
  have hblocks : ((Pool.initial zeroHeap.heap zeroHeap.memMaxAddr).malloc 16368).2.blocks =
      [⟨4128, 16384, true⟩] := by decide
  have htags : Tagged h ⟨4128, 16384, true⟩ := hrep.tags _ (by rw [hblocks]; simp)
  have hbase := hrep.base
  rw [hr'] at hx
  refine ⟨h, hx, ?_, ?_, ?_, ?_, htags.1, htags.2⟩
  · have hbase' : ((Pool.initial zeroHeap.heap zeroHeap.memMaxAddr).malloc 16368).2.base =
        4128 := by decide
    omega
  · exact hrep.limit.symm.trans (by decide)
  · exact hrep.brk.symm.trans (by decide)
  · intro k hk
    have hheads : ∀ k < maxLen, (bps (((Pool.initial zeroHeap.heap
        zeroHeap.memMaxAddr).malloc 16368).2.bins k)).headD 0 = 0 := by decide
    rw [hrep.listed.heads k hk, hheads k hk]

theorem exists_full : ∃ h₀ h, mmInitOver Kernel.memSbrk zeroHeap = some (true, h₀) ∧
    mallocOver Kernel.memSbrk 16368 h₀ = some (4128, h) ∧ Full h := by
  obtain ⟨h, hx, hf⟩ := malloc_full
  exact ⟨zeroSession.heap, h, zeroHeap_init,
    (zeroSession_malloc (by rw [zeroSession_memBrk]; decide)).trans hx, hf⟩

/-- A run that lowers the break: the first chunk is allocated whole, and then a block of
-32 bytes. -/
theorem exists_lowered {c : Copy} {ok : Session → Request → Prop}
    (hinit : c.init = mmInitOver Kernel.memSbrk) (hmalloc : c.malloc = mallocOver Kernel.memSbrk)
    (hok : ∀ s req, req.Small → ok s req) : ∃ h live live', Full h ∧
      (live' 4128 ≠ none ∧ live' 20512 ≠ none) ∧
      Run (CopyStep c ok) ⟨zeroHeap, fun _ => none⟩ [(.init, 1), (.malloc 16368, 4128)] ⟨h, live⟩ ∧
      CopyStep c ok ⟨h, live⟩ (.malloc (2 ^ 64 - 48), 20512) ⟨placedHeap h, live'⟩ := by
  obtain ⟨h₀, h, hx₀, hx, hf⟩ := exists_full
  have hserve₂ : c.serve (.malloc (2 ^ 64 - 48)) h = some (20512, placedHeap h) := by
    show c.malloc (2 ^ 64 - 48) h = _
    rw [hmalloc, hf.malloc]
  have hstep₂ : CopyStep c ok ⟨h, Function.update (fun _ => none) 4128 (some 16368)⟩
      (.malloc (2 ^ 64 - 48), 20512) ⟨placedHeap h, Function.update
        (Function.update (fun _ => none) 4128 (some 16368)) 20512 (some (2 ^ 64 - 48))⟩ :=
    .serve (by decide : 2 ^ 64 - 48 < 2 ^ 64)
      (hok _ (.malloc (2 ^ 64 - 48)) (by decide : 2 ^ 64 - 48 + 31 < 2 ^ 64)) hserve₂
  refine ⟨h, _, _, hf, ⟨?_, ?_⟩, init_malloc_run hinit hmalloc hx₀ hx (by decide) (by decide)
    (hok _ .init trivial) (hok _ (.malloc 16368) (by decide : 16368 + 31 < 2 ^ 64)), hstep₂⟩
  · rw [Function.update_of_ne (by decide), Function.update_self]
    exact Option.some_ne_none _
  · rw [Function.update_self]
    exact Option.some_ne_none _

/-- The break of a megabyte at 4096 is raised to 20512 by `mm_init`, and lowered to 20480 by
the second of two allocations. -/
theorem break_moves_down : ¬ ∀ (g h : Heap) (heapMemory heapMemorySize : Nat),
    Kernel.Boot g heapMemory heapMemorySize →
    Kernel.memInit heapMemory heapMemorySize g = some ((), h) →
    ∀ ls s, Run (CopyStep (kernelCopy Kernel.memSbrk) fun _ _ => True) ⟨h, fun _ => none⟩ ls s →
    ∀ l s', CopyStep (kernelCopy Kernel.memSbrk) (fun _ _ => True) s l s' →
      s.heap.memBrk ≤ s'.heap.memBrk := by
  intro hrises
  obtain ⟨h, live, live', hf, _, hrun, hstep⟩ :=
    exists_lowered (c := kernelCopy Kernel.memSbrk) rfl rfl (fun _ _ _ => trivial)
  have hle := hrises zeroHeap zeroHeap 4096 (2 ^ 20) zeroHeap_boot zeroHeap_memInit _ _ hrun _ _ hstep
  have hbrk : (placedHeap h).memBrk = 20480 := rfl
  rw [hf.memBrk, hbrk] at hle
  exact absurd hle (by decide)

end Allocator
end Cmpsc473
