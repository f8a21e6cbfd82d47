import Cmpsc473.Allocator.Client

/-!
# The break routines

Either copy of the allocator can run over either `mem_sbrk`.  That of `memlib.c`
refuses a negative increment.  That of `kernel_malloc.c` looks at the sum only, and
the two differ where the sum wraps: the kernel's then grants what is not there.
While no sum wraps, both copies over both routines are `mm.c` over `memlib.c`.
-/

namespace Cmpsc473
namespace Allocator

open ByteMemory Total Tiling Transition

variable {h h' : Heap} {s s' : Session} {P : Pool} {b : Block}

/-- The two files that define `mem_sbrk`. -/
inductive Routine
  | memlib
  | kernel

def Routine.sbrk : Routine → Nat → Mm Nat
  | memlib => memSbrk
  | kernel => Kernel.memSbrk

/-- The size of a request does not wrap in `malloc`, nor in the kernel's `mem_sbrk` the
break by the size of the block. -/
def Routine.Bounded (k : Routine) (s : Session) : Request → Prop
  | .malloc size => size + 31 < 2 ^ 64 ∧
      (k = kernel → s.heap.memBrk + requestSize size < 2 ^ 64)
  | _ => True

theorem Routine.Bounded.small {k : Routine} {req : Request} (hok : k.Bounded s req) :
    req.Small := by
  cases req with
  | malloc size => exact hok.1
  | _ => trivial

theorem Kernel.memSbrk_eq {incr : Nat} (hpos : incr < 2 ^ 63) :
    Kernel.memSbrk incr = Allocator.memSbrk incr := by
  funext h
  exact (if_neg (Nat.not_le.mpr hpos)).symm

/-- A negative increment is refused by both, unless the sum wraps. -/
theorem Heap.Arena.memSbrk_eq (ha : h.Arena) {incr : Nat} (hsum : h.memBrk + incr < 2 ^ 64) :
    Kernel.memSbrk incr h = memSbrk incr h := by
  by_cases hpos : incr < 2 ^ 63
  · rw [Kernel.memSbrk_eq hpos]
  · have hlim := ha.limit
    have hlt := lt_of_lt_of_le ha.pos ha.le
    have hgt : ptrAdd h.memBrk incr > h.memMaxAddr := by
      rw [ptrAdd_eq hsum]
      omega
    have hkernel : Kernel.memSbrk incr h = some (sbrkFailed, h) := if_pos hgt
    have hmemlib : memSbrk incr h = some (sbrkFailed, h) := if_pos (by omega)
    rw [hkernel, hmemlib]

theorem extendHeapOver_congr {sbrk sbrk' : Nat → Mm Nat} {size : Nat} (halign : size % 16 = 0)
    (hlt : size < 2 ^ 64) (hsbrk : sbrk size h = sbrk' size h) :
    extendHeapOver sbrk (size / wsize) h = extendHeapOver sbrk' (size / wsize) h := by
  have hsize := extendSize_eq halign hlt
  unfold extendHeapOver
  rw [hsize]
  exact bind_congr_left hsbrk

theorem Routine.mmInitOver_eq (k : Routine) : mmInitOver k.sbrk = mmInit := by
  cases k with
  | memlib => rfl
  | kernel =>
    have hfirst : Kernel.memSbrk (4 * wsize) = memSbrk (4 * wsize) :=
      Kernel.memSbrk_eq (by decide)
    have hchunk : extendHeapOver Kernel.memSbrk (chunkSize / wsize) =
        extendHeapOver memSbrk (chunkSize / wsize) := by
      funext h
      exact extendHeapOver_congr (by decide) (by decide)
        (congrFun (Kernel.memSbrk_eq (by decide)) h)
    rw [← mmInitOver_memSbrk]
    show mmInitOver Kernel.memSbrk = mmInitOver memSbrk
    unfold mmInitOver
    rw [hfirst, hchunk]

/-- What `malloc` does when it has computed the block size. -/
theorem mallocOver_requestSize {sbrk : Nat → Mm Nat} {size : Nat} (h0 : size ≠ 0) :
    mallocOver sbrk size h = (do
      let bp ← findFit (requestSize size)
      if bp = 0 then
        let bp ← extendHeapOver sbrk (max (requestSize size) chunkSize / wsize)
        if bp = 0 then
          return 0
        else
          place bp (requestSize size)
          return bp
      else
        place bp (requestSize size)
        return bp : Mm Nat) h := by
  unfold mallocOver
  rw [if_neg h0, ← max64_eq]
  rfl

theorem Heap.Arena.mallocOver_eq (ha : h.Arena) {size : Nat}
    (hsum : h.memBrk + requestSize size < 2 ^ 64) :
    mallocOver Kernel.memSbrk size h = mmMalloc size h := by
  obtain ⟨halign, hlt, _⟩ := max_requestSize_spec size
  have hlim := ha.limit
  have hle := ha.brk_le
  have hchunk : chunkSize < 2 ^ 63 := by decide
  rw [← mallocOver_memSbrk]
  by_cases h0 : size = 0
  · unfold mallocOver
    rw [if_pos h0, if_pos h0]
  rw [mallocOver_requestSize h0, mallocOver_requestSize h0]
  apply bind_congr_of
  intro bp h₁ hfind
  -- the search moves neither the break nor the area
  have harea := (confined_findFit _ : Confined false _).area hfind
  have hbrk := (confined_findFit _ : Confined false _).brk hfind rfl
  have ha₁ : h₁.Arena :=
    ⟨harea.1 ▸ ha.pos, harea.1 ▸ ha.aligned, hbrk ▸ ha.brk_aligned, harea.1 ▸ hbrk ▸ ha.le,
      harea.2 ▸ hbrk ▸ ha.brk_le, harea.2 ▸ ha.limit⟩
  by_cases hbp : bp = 0
  · rw [if_pos hbp, if_pos hbp]
    exact bind_congr_left (extendHeapOver_congr halign hlt (ha₁.memSbrk_eq (by omega)))
  · rw [if_neg hbp, if_neg hbp]

theorem tagRemove_eq {p : Nat} (hm : h.Mapped p 8) (ht : h.word p / 2 % 2 = 0) :
    tagRemove p h = some ((), h) :=
  eq_of_returns ((returns_tagRemove hm ht).mpr ⟨rfl, rfl⟩)

theorem put_eq {p v : Nat} (hm : h.Mapped p 8) : put p v h = some ((), h.store p 8 v) := if_pos hm

theorem putTag_eq {p v : Nat} (hm : h.Mapped p 8) (ht : h.word p / 2 % 2 = 0) :
    putTag p v h = put p v h := by
  rw [put_eq hm]
  exact eq_of_returns ((returns_putTag hm ht).mpr ⟨rfl, rfl⟩)

/-- Once bit 1 of the header behind the block is cleared, and if it is clear in the two tags
of the block, `free` of `mm.c` is that of `kernel_extra.c`. -/
theorem mmFree_eq {g : Heap} {bp size next foot : Nat}
    (hsize : getSize (hdrp bp) h = some (size, h)) (hnext : nextBlkp bp h = some (next, h))
    (hremove : tagRemove (hdrp next) h = some ((), g))
    (hsize' : getSize (hdrp bp) g = some (size, g)) (hm : g.Mapped (hdrp bp) 8)
    (ht : g.word (hdrp bp) / 2 % 2 = 0)
    (hftrp : ftrp bp (g.store (hdrp bp) 8 (pack size 0)) =
      some (foot, g.store (hdrp bp) 8 (pack size 0)))
    (hm' : (g.store (hdrp bp) 8 (pack size 0)).Mapped foot 8)
    (ht' : (g.store (hdrp bp) 8 (pack size 0)).word foot / 2 % 2 = 0) :
    mmFree bp h = Kernel.free bp g := by
  have hput := put_eq (v := pack size 0) hm
  have hput' := put_eq (v := pack size 0) hm'
  unfold mmFree Kernel.free
  rw [bind_of_some hsize, bind_of_some hnext, bind_of_some hremove, bind_of_some hsize',
    bind_of_some ((putTag_eq hm ht).trans hput), bind_of_some hput, bind_of_some hftrp,
    bind_of_some hftrp, bind_of_some ((putTag_eq hm' ht').trans hput'), bind_of_some hput']

/-- Where bit 1 is clear in all three tags there is no difference. -/
theorem Represents.free_eq (hr : Represents h P) (hv : P.Valid) (hb : P.Live b) :
    Kernel.free b.bp h = mmFree b.bp h := by
  obtain ⟨n, hn, hnhead, _, hntag, _⟩ := hr.upper hv hb.1
  have hbounds := hr.bounds hv hb.1
  have hhead := hr.head hv hb.1
  have htag := Block.tag_bit (b := b) (by omega)
  have hhead' := Head.written (h := h) b.bp b.size (by omega) (by omega) (by omega) hhead.mapped
  have hremove := tagRemove_eq hnhead.mapped hntag
  rw [← hnhead.hdrp, hn] at hremove
  have hftrp : ftrp b.bp (h.store (hdrp b.bp) 8 (pack b.size 0)) =
      some (b.bp + b.size - 16, h.store (hdrp b.bp) 8 (pack b.size 0)) := by
    rw [hhead.hdrp, pack_zero]
    exact hhead'.ftrp_eq
  symm
  refine mmFree_eq hhead.getSize_eq (nextBlkp_eq hhead) hremove hhead.getSize_eq ?_ ?_ hftrp ?_ ?_
  · rw [hhead.hdrp]
    exact hhead.mapped
  · rw [hhead.hdrp, (hr.tags b hb.1).1, htag]
  · rw [Heap.store_mapped]
    unfold Heap.Mapped
    omega
  · rw [hhead.hdrp, pack_zero, Heap.word_store_ne _ (by omega), (hr.tags b hb.1).2, htag]

theorem Kernel.confined_free {sbrk : Bool} (ptr : Nat) : Confined sbrk (Kernel.free ptr) := by
  unfold Kernel.free
  apply (confined_getSize _).bind
  intro size
  apply (confined_put _ _).bind
  intro _
  apply (confined_ftrp _).bind
  intro _
  apply (confined_put _ _).bind
  intro _
  apply (confined_nodeAdd _ _).bind
  intro _
  apply (confined_coalesce _).bind
  intro _
  apply confined_pure

/-- In the part of the area that the pool takes up, and so in all of it. -/
theorem Built.free_eq {base bp : Nat} (hb : Built s base P) (hbp : s.live bp ≠ none) :
    Kernel.free bp s.heap = mmFree bp s.heap := by
  obtain ⟨live, hl, hh⟩ := hb.holds
  obtain ⟨b, hblock, rfl⟩ := hh.block (mt (hl bp).mp hbp)
  obtain ⟨_, g, hx, _⟩ := mmFree_returns hh.represents hh.valid hblock
  have hx' := (hh.represents.free_eq hh.valid hblock).trans hx
  rw [((confined_mmFree b.bp).lift hb.le hx).1, ((Kernel.confined_free b.bp).lift hb.le hx').1]

/-- What a client can have: memory before the first `mm_init`, or after it. -/
inductive Ready (s : Session) : Prop
  | untouched (h : Untouched s)
  | served (h : Served s)

theorem Ready.arena (hs : Ready s) : s.heap.Arena := by
  cases hs with
  | untouched hu => exact hu.arena
  | served hs => exact hs.arena

theorem Routine.mallocOver_eq (k : Routine) (ha : s.heap.Arena) {size : Nat}
    (hok : k.Bounded s (.malloc size)) : mallocOver k.sbrk size s.heap = mmMalloc size s.heap := by
  cases k with
  | memlib => rfl
  | kernel => exact ha.mallocOver_eq (hok.2 rfl)

/-- What a copy does with a request depends on the function called. -/
theorem Copy.serve_congr {c d : Copy} {req : Request} (hinit : c.init h = d.init h)
    (hmalloc : ∀ size, req = .malloc size → c.malloc size h = d.malloc size h)
    (hfree : ∀ bp, req = .free bp → c.free bp h = d.free bp h) :
    c.serve req h = d.serve req h := by
  cases req with
  | init => exact bind_congr_left hinit
  | malloc size => exact hmalloc size rfl
  | free bp => exact bind_congr_left (hfree bp rfl)
  | write bp i v => rfl

/-- `mm.c` over either routine is `mm.c` over that of `memlib.c`. -/
theorem Ready.mmCopy_eq (hs : Ready s) (k : Routine) {req : Request} (hok : k.Bounded s req) :
    (mmCopy k.sbrk).serve req s.heap = (mmCopy memSbrk).serve req s.heap := by
  apply Copy.serve_congr
  · exact congrFun k.mmInitOver_eq s.heap
  · intro size hreq
    rw [hreq] at hok
    exact k.mallocOver_eq hs.arena hok
  · exact fun _ _ => rfl

/-- The two copies differ in `free` alone, and it does the same. -/
theorem Ready.kernelCopy_eq (hs : Ready s) (sbrk : Nat → Mm Nat) {req : Request}
    (hal : req.Allowed s) : (kernelCopy sbrk).serve req s.heap = (mmCopy sbrk).serve req s.heap := by
  apply Copy.serve_congr
  · exact (rfl : mmInitOver sbrk s.heap = mmInitOver sbrk s.heap)
  · exact fun size _ => (rfl : mallocOver sbrk size s.heap = mallocOver sbrk size s.heap)
  · intro bp hreq
    rw [hreq] at hal
    cases hs with
    | untouched hu => exact absurd (hu.live bp) hal
    | served hs =>
      cases hs with
      | refused hr => exact absurd (hr.live bp) hal
      | built hb => exact hb.free_eq hal

theorem Served.next (hs : Served s) {req : Request} {r : Nat} (hal : req.Allowed s)
    (hsmall : req.Small) (hx : (mmCopy memSbrk).serve req s.heap = some (r, h')) :
    Served ⟨h', req.hold s.live r⟩ := by
  obtain ⟨q, g, hx', hserved⟩ := hs.step hal hsmall
  rw [hx, Option.some.injEq, Prod.mk.injEq] at hx'
  rw [hx'.1, hx'.2]
  exact hserved

theorem Ready.next (hs : Ready s) {req : Request} {r : Nat} (hal : req.Allowed s)
    (hsmall : req.Small) (hx : (mmCopy memSbrk).serve req s.heap = some (r, h')) :
    Ready ⟨h', req.hold s.live r⟩ := by
  cases hs with
  | served hs => exact .served (hs.next hal hsmall hx)
  | untouched hu =>
    rcases hu.step hal hsmall hx with ⟨_, hserved⟩ | ⟨⟨size, rfl⟩, rfl, rfl⟩
    · exact .served hserved
    · exact .untouched hu

/-- After an `mm_init`, whether it succeeds or not, requests are served. -/
theorem Ready.next_served (hs : Ready s) {req : Request} {r : Nat} (hal : req.Allowed s)
    (hsmall : req.Small) (hx : (mmCopy memSbrk).serve req s.heap = some (r, h'))
    (hinit : req = .init ∨ Served s) : Served ⟨h', req.hold s.live r⟩ := by
  cases hs with
  | served hs => exact hs.next hal hsmall hx
  | untouched hu =>
    rcases hinit with rfl | hs
    · rcases hu.step hal hsmall hx with ⟨_, hserved⟩ | ⟨⟨_, hno⟩, _⟩
      · exact hserved
      · cases hno
    · exact hs.next hal hsmall hx

/-- What a run has come to: from the first `mm_init` on every request is served. -/
structure Reached (ls : List (Request × Nat)) (s : Session) : Prop where
  ready : Ready s
  served : (∃ r, (.init, r) ∈ ls) → Served s

theorem Untouched.reached (hu : Untouched s) : Reached [] s :=
  ⟨.untouched hu, by simp⟩

theorem Reached.next {ls : List (Request × Nat)} (hr : Reached ls s) {req : Request} {r : Nat}
    (hal : req.Allowed s) (hsmall : req.Small)
    (hx : (mmCopy memSbrk).serve req s.heap = some (r, h')) :
    Reached (ls ++ [(req, r)]) ⟨h', req.hold s.live r⟩ := by
  refine ⟨hr.ready.next hal hsmall hx, ?_⟩
  rintro ⟨q, hq⟩
  apply hr.ready.next_served hal hsmall hx
  rcases List.mem_append.mp hq with hq | hq
  · exact Or.inr (hr.served ⟨q, hq⟩)
  · rw [List.mem_singleton, Prod.mk.injEq] at hq
    exact Or.inl hq.1.symm

/-- A request that may be made is defined, once there has been an `mm_init`. -/
theorem Reached.defined {ls : List (Request × Nat)} (hr : Reached ls s) {req : Request}
    (hal : req.Allowed s) (hsmall : req.Small) (hinit : req = .init ∨ ∃ r, (.init, r) ∈ ls) :
    ∃ r h', (mmCopy memSbrk).serve req s.heap = some (r, h') := by
  rcases hinit with rfl | hinit
  · obtain ⟨ok, h', hx, _⟩ := mmInit_served hr.ready.arena
    exact ⟨ok.toNat, h', bind_of_some hx⟩
  · obtain ⟨r, h', hx, _⟩ := (hr.served hinit).step hal hsmall
    exact ⟨r, h', hx⟩

end Allocator
end Cmpsc473
