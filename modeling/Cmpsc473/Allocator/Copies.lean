import Cmpsc473.Allocator.KernelHeap

/-!
# The two copies of the allocator

`free` of `mm.c` clears bit 1 of the header behind the block, and keeps bit 1 of the two
tags that it writes; that of `kernel_extra.c` writes over them.  It makes no difference
while bit 1 is clear in every tag, and nothing that the allocator does sets it.
-/

namespace Cmpsc473
namespace Allocator

open ByteMemory Total Tiling Transition

variable {h h' : Heap} {s s' : Session} {P : Pool} {b : Block}

/-- `GET_TAG`: bit 1 of the word at `p`. -/
def tagAt (h : Heap) (p : Nat) : Nat := h.word p &&& 2

/-- Bit 1 is clear in every header and footer, from the prologue to the epilogue. -/
def TagsClear (h : Heap) : Prop :=
  ∃ bps, Walk h h.heapListp bps h.memBrk ∧ tagAt h (h.memBrk - 8) = 0 ∧
    ∀ bp ∈ bps, tagAt h (bp - 8) = 0 ∧ tagAt h (bp + sizeAt h bp - 16) = 0

theorem Row.tagsClear (hr : Row h P) (hv : P.Valid) : TagsClear h := by
  refine ⟨h.prologue :: bps P.blocks, ?_, ?_, ?_⟩
  · rw [hr.heapListp]
    exact hr.walk hv
  · unfold tagAt
    rw [hr.epilogue]
    decide
  · intro bp hbp
    unfold tagAt
    rcases List.mem_cons.mp hbp with rfl | hbp
    · have hheader : h.word (h.prologue - 8) = 17 := hr.prologueHeader
      have hfooter : h.word h.prologue = 17 := hr.prologueFooter
      rw [hr.prologue_eq.1, Nat.add_sub_cancel, hheader, hfooter]
      decide
    · obtain ⟨b, hb, rfl⟩ := List.mem_map.mp hbp
      have hbit := Block.tag_bit (hv.sizes b hb).2
      rw [hr.sizeAt_eq hv hb, (hr.tags b hb).1, (hr.tags b hb).2, and_two hbit]
      exact ⟨rfl, rfl⟩

/-- A walk within a part of the area is one in all of it. -/
theorem Walk.lift {lo hi p e : Nat} {l : List Nat} (hw : Walk (h.within lo hi) p l e)
    (hlo : h.heap ≤ lo) (hhi : hi ≤ h.memMaxAddr) : Walk h p l e := by
  induction hw with
  | stop hz => exact .stop hz
  | next hnz hq _ ih =>
    have hq' := (confined_nextBlkp _ : Confined false _).within hq hlo hhi nofun
    exact .next hnz hq' ih

theorem TagsClear.lift {lo hi : Nat} (ht : TagsClear (h.within lo hi)) (hlo : h.heap ≤ lo)
    (hhi : hi ≤ h.memMaxAddr) : TagsClear h := by
  obtain ⟨bps, hw, hrest⟩ := ht
  exact ⟨bps, hw.lift hlo hhi, hrest⟩

/-- `heap_listp` is null before the first `mm_init`, and -1 after one that got no memory.
Otherwise there are tags, and bit 1 of them is clear. -/
theorem Ready.tagsClear (hs : Ready s) (hnull : s.heap.heapListp ≠ 0)
    (hfailed : s.heap.heapListp ≠ sbrkFailed) : TagsClear s.heap := by
  cases hs with
  | untouched hu => exact absurd hu.heapListp hnull
  | served hs =>
    cases hs with
    | built hb =>
      obtain ⟨live, _, hh⟩ := hb.holds
      exact (hh.represents.tagsClear hh.valid).lift hb.le le_rfl
    | refused hr =>
      rcases hr.tags with hlistp | ⟨base, hbase, hrep⟩
      · exact absurd hlistp hfailed
      · have hbrk : base + 32 = s.heap.memBrk := hrep.brk
        have h16 := hr.arena.brk_aligned
        have hle := hr.arena.brk_le
        have hv := Pool.valid_empty (base + 32) s.heap.memMaxAddr (by omega) (by omega) (by omega)
          hr.arena.limit
        exact (hrep.tagsClear hv).lift hbase le_rfl

/-- Either copy, over either routine, takes the steps that `mm.c` takes over `memlib.c`. -/
theorem Ready.step_next (hs : Ready s) {k : Routine} {l : Request × Nat}
    (hstep : CopyStep (mmCopy k.sbrk) k.Bounded s l s') : Ready s' := by
  cases hstep with
  | serve hal hok hx =>
    rw [hs.mmCopy_eq k hok] at hx
    exact hs.next hal hok.small hx

theorem Ready.step_iff (hs : Ready s) (k : Routine) (l : Request × Nat) :
    CopyStep (mmCopy k.sbrk) k.Bounded s l s' ↔ CopyStep (kernelCopy k.sbrk) k.Bounded s l s' := by
  constructor
  · intro hstep
    cases hstep with
    | serve hal hok hx => exact .serve hal hok ((hs.kernelCopy_eq k.sbrk hal).trans hx)
  · intro hstep
    cases hstep with
    | serve hal hok hx => exact .serve hal hok ((hs.kernelCopy_eq k.sbrk hal).symm.trans hx)

theorem Reached.step {k : Routine} {ls : List (Request × Nat)} {l : Request × Nat}
    (hr : Reached ls s) (hstep : CopyStep (mmCopy k.sbrk) k.Bounded s l s') :
    Reached (ls ++ [l]) s' := by
  cases hstep with
  | serve hal hok hx =>
    rw [hr.ready.mmCopy_eq k hok] at hx
    exact hr.next hal hok.small hx

/-- **The two copies agree.** Over either break routine the runs of `mm.c` are those of
`kernel_extra.c`, with the same results and the same heap, `seg_list` included, after each
request, and from the first `mm_init` on neither is undefined.  Bit 1 is clear in every
header and footer at any time.  With the routine of the kernel this is so in runs in
which its sum does not wrap. -/
theorem copies_agree (k : Routine) {s₀ : Session} (h₀ : Untouched s₀) :
    (∀ ls s, Run (CopyStep (mmCopy k.sbrk) k.Bounded) s₀ ls s ↔
      Run (CopyStep (kernelCopy k.sbrk) k.Bounded) s₀ ls s) ∧
    ∀ ls s, Run (CopyStep (mmCopy k.sbrk) k.Bounded) s₀ ls s →
      (s.heap.heapListp ≠ 0 → s.heap.heapListp ≠ sbrkFailed → TagsClear s.heap) ∧
      ∀ req, req.Allowed s → k.Bounded s req →
        (kernelCopy k.sbrk).serve req s.heap = (mmCopy k.sbrk).serve req s.heap ∧
        ((req = .init ∨ ∃ r, (.init, r) ∈ ls) →
          ∃ r h', (mmCopy k.sbrk).serve req s.heap = some (r, h')) := by
  constructor
  · intro ls s
    apply Run.agree (Ready.untouched h₀)
    · exact fun s l t hs hstep => hs.step_next hstep
    · exact fun s l t hs => hs.step_iff k l
  · intro ls s hrun
    have hr : Reached ls s := by
      apply Run.history Reached hrun h₀.reached
      exact fun _ _ _ _ hr hstep => hr.step hstep
    refine ⟨hr.ready.tagsClear, fun req hal hok => ⟨hr.ready.kernelCopy_eq k.sbrk hal, ?_⟩⟩
    intro hinit
    rw [hr.ready.mmCopy_eq k hok]
    exact hr.defined hal hok.small hinit

theorem zeroHeap_untouched : Untouched ⟨zeroHeap, fun _ => none⟩ :=
  ⟨zeroHeap_area, rfl, rfl, fun _ _ => rfl, fun _ => rfl⟩

/-- Both copies over the kernel's `mem_sbrk`, up to a block that is then freed. -/
theorem copies_agree_zeroHeap : ∃ h live r h', live 4128 ≠ none ∧
    Run (CopyStep (mmCopy Kernel.memSbrk) Routine.kernel.Bounded) ⟨zeroHeap, fun _ => none⟩
      [(.init, 1), (.malloc 24, 4128)] ⟨h, live⟩ ∧
    Run (CopyStep (kernelCopy Kernel.memSbrk) Routine.kernel.Bounded) ⟨zeroHeap, fun _ => none⟩
      [(.init, 1), (.malloc 24, 4128)] ⟨h, live⟩ ∧
    (mmCopy Kernel.memSbrk).serve (.free 4128) h = some (r, h') ∧
    (kernelCopy Kernel.memSbrk).serve (.free 4128) h = some (r, h') := by
  obtain ⟨h, live, hlive, hrun⟩ := exists_allocated (c := mmCopy Kernel.memSbrk) rfl rfl
    (fun _ _ => id)
  obtain ⟨hsame, hruns⟩ := copies_agree .kernel zeroHeap_untouched
  obtain ⟨-, hserve⟩ := hruns _ _ hrun
  obtain ⟨heq, hdefined⟩ := hserve (.free 4128) hlive trivial
  obtain ⟨r, h', hx⟩ := hdefined (Or.inr ⟨1, List.mem_cons_self⟩)
  exact ⟨h, live, r, h', hlive, hrun, (hsame _ _).mp hrun, hx, heq.trans hx⟩

theorem word_update {p : Nat} {v : UInt8} (hsmall : h.word p < 256) :
    ({ h with mem := Function.update h.mem p v } : Heap).word p = v.toNat := by
  have hrest : read (Function.update h.mem p v) (p + 1) 7 = read h.mem (p + 1) 7 := by
    apply read_congr
    exact fun x hx _ => Function.update_of_ne (by omega) _ _
  have hword : h.word p = (h.mem p).toNat + 256 * read h.mem (p + 1) 7 := rfl
  show (Function.update h.mem p v p).toNat + 256 * read (Function.update h.mem p v) (p + 1) 7 = _
  rw [Function.update_self, hrest]
  omega

theorem word_update_ne {p q : Nat} {v : UInt8} (hd : q + 8 ≤ p ∨ p < q) :
    ({ h with mem := Function.update h.mem p v } : Heap).word q = h.word q := by
  apply Heap.word_congr
  exact fun x hx hx' => Function.update_of_ne (by omega) _ _

/-- The client of the block at 4128 writes over the header behind the other one. -/
theorem Overrun.write {tag behind : Nat} (ho : Overrun h tag behind) (hsmall : behind < 256)
    (v : UInt8) : Overrun { h with mem := Function.update h.mem 20472 v } tag v.toNat where
  heap := ho.heap
  memMaxAddr := ho.memMaxAddr
  memBrk := ho.memBrk
  header := (word_update_ne (by decide)).trans ho.header
  footer := (word_update_ne (by decide)).trans ho.footer
  backHeader := (word_update_ne (by decide)).trans ho.backHeader
  backFooter := (word_update_ne (by decide)).trans ho.backFooter
  follows := word_update (by rwa [ho.follows])
  prev := (word_update_ne (by decide)).trans ho.prev
  next := (word_update_ne (by decide)).trans ho.next

/-- What `free` makes of the block of -32 bytes, but for the header behind it. -/
def freedHeap (h : Heap) : Heap :=
  ((((h.store 20504 8 (2 ^ 64 - 32)).store 20464 8 (2 ^ 64 - 32)).store 20512 8 0).store
    20520 8 0).setHead 60 20512

theorem Overrun.freed {tag behind : Nat} (ho : Overrun h tag behind) :
    Overrun (freedHeap h) (2 ^ 64 - 32) behind := by
  have hheader := ho.header
  have hfooter := ho.footer
  have hfollows := ho.follows
  have hheap := ho.heap
  have hmax := ho.memMaxAddr
  have hbrk := ho.memBrk
  constructor <;> simp [freedHeap, hheader, hfooter, hfollows, hheap, hmax, hbrk]

/-- Both write the tags and add the block to its list; it is not merged. -/
theorem Overrun.kernelFree {behind : Nat} (ho : Overrun h (2 ^ 64 - 31) behind)
    (hseg : h.segList 60 = 0) (hodd : behind &&& 1 ≠ 0) :
    Kernel.free 20512 h = some ((), freedHeap h) := by
  obtain ⟨h₂, hh₂⟩ : ∃ h₂, h₂ = (h.store 20504 8 (2 ^ 64 - 32)).store 20464 8 (2 ^ 64 - 32) :=
    ⟨_, rfl⟩
  have hm : ∀ {p : Nat}, 4096 ≤ p → p ≤ 20520 → h₂.Mapped p 8 := by
    intro p hlo hhi
    rw [hh₂]
    exact ho.mapped hlo hhi
  have hback : h.word (hdrp 20512) = 2 ^ 64 - 31 := ho.backHeader
  have hsize : getSize (hdrp 20512) h = some (2 ^ 64 - 32, h) := by
    rw [getSize_eq (ho.mapped (by decide) (by decide)), hback]
    rfl
  have htags : ∀ {α : Type} {f : Mm α}, (do
      put (hdrp 20512) (pack (2 ^ 64 - 32) 0)
      put (← ftrp 20512) (pack (2 ^ 64 - 32) 0)
      f : Mm α) h = f h₂ := by
    intro α f
    rw [hh₂]
    exact putTags_eq (ho.mapped (by decide : 4096 ≤ 20504) (by decide)) (by decide) (by decide)
      (ho.mapped (by decide : 4096 ≤ 20464) (by decide))
  have hadd : nodeAdd 20512 (2 ^ 64 - 32) h₂ = some ((), freedHeap h) := by
    unfold freedHeap
    rw [← hh₂]
    refine nodeAdd_empty (by decide) (by decide) ?_ (hm (by decide) (by decide))
      (hm (by decide : 4096 ≤ 20520) (by decide))
    rw [hh₂]
    exact hseg
  unfold Kernel.free
  rw [bind_of_some hsize, htags, bind_of_some hadd,
    bind_of_some (ho.freed.coalesce (by decide) hodd)]
  rfl

theorem Overrun.cleared {tag behind : Nat} (ho : Overrun h tag behind) :
    Overrun (h.store 20472 8 1) tag 1 := by
  have hheader := ho.header
  have hfooter := ho.footer
  have hback := ho.backHeader
  have hfar := ho.backFooter
  have hprev := ho.prev
  have hnext := ho.next
  have hheap := ho.heap
  have hmax := ho.memMaxAddr
  have hbrk := ho.memBrk
  constructor <;> simp [hheader, hfooter, hback, hfar, hprev, hnext, hheap, hmax, hbrk]

/-- `free` of `mm.c` first clears bit 1 of the header behind the block. -/
theorem Overrun.mmFree (ho : Overrun h (2 ^ 64 - 31) 3) (hseg : h.segList 60 = 0) :
    mmFree 20512 h = some ((), freedHeap (h.store 20472 8 1)) := by
  have hc := ho.cleared
  have hsize : (2 ^ 64 - 31) &&& sizeMask = 2 ^ 64 - 32 := by decide
  have hback : h.word (hdrp 20512) = 2 ^ 64 - 31 := ho.backHeader
  have hback' : (h.store 20472 8 1).word (hdrp 20512) = 2 ^ 64 - 31 := hc.backHeader
  have hnext : nextBlkp 20512 h = some (20480, h) := by
    rw [nextBlkp_read (ho.mapped (by decide) (by decide)), hback]
    rfl
  have hremove : tagRemove (hdrp 20480) h = some ((), h.store 20472 8 1) := by
    have hget : Allocator.get (hdrp 20480) h = some (3, h) := by
      rw [← ho.follows]
      exact get_eq (ho.mapped (by decide : 4096 ≤ 20472) (by decide))
    unfold tagRemove
    rw [bind_of_some hget]
    exact put_eq (ho.mapped (by decide : 4096 ≤ 20472) (by decide))
  have hftrp : ftrp 20512 ((h.store 20472 8 1).store (hdrp 20512) 8 (pack (2 ^ 64 - 32) 0)) =
      some (20464, (h.store 20472 8 1).store (hdrp 20512) 8 (pack (2 ^ 64 - 32) 0)) := by
    rw [ftrp_read (by exact ho.mapped (by decide : 4096 ≤ 20504) (by decide)),
      Heap.word_store_self _ (by decide)]
    rfl
  rw [← hc.kernelFree hseg (by decide)]
  refine mmFree_eq ?_ hnext hremove ?_ (hc.mapped (by decide) (by decide)) ?_ hftrp
    (by exact ho.mapped (by decide : 4096 ≤ 20464) (by decide)) ?_
  · rw [getSize_eq (ho.mapped (by decide) (by decide)), hback, hsize]
  · rw [getSize_eq (hc.mapped (by decide) (by decide)), hback', hsize]
  · rw [hback']
    decide
  · rw [Heap.word_store_ne _ (by decide), hc.backFooter]
    decide

/-- Steps lead to one session only. -/
theorem CopyStep.unique {c : Copy} {ok : Session → Request → Prop} {l : Request × Nat}
    {s₁ s₂ : Session} (h₁ : CopyStep c ok s l s₁) (h₂ : CopyStep c ok s l s₂) : s₁ = s₂ := by
  cases h₁ with
  | serve _ _ hx₁ =>
    cases h₂ with
    | serve _ _ hx₂ =>
      rw [hx₁, Option.some.injEq, Prod.mk.injEq] at hx₂
      rw [hx₂.2]

/-- Where a block in use reaches over another, the client of the one can set bit 1 in a tag
of the other: `mm.c` then clears it, and `kernel_extra.c` does not. -/
theorem copies_differ : ¬ ∀ (k : Routine) (s₀ : Session), Untouched s₀ → ∀ ls s,
    Run (CopyStep (mmCopy k.sbrk) fun _ req => req.Small) s₀ ls s ↔
      Run (CopyStep (kernelCopy k.sbrk) fun _ req => req.Small) s₀ ls s := by
  intro hagree
  have hsame := hagree .kernel _ zeroHeap_untouched
  obtain ⟨h, live, live', hf, ⟨hlive, hlive'⟩, hrun, hstep⟩ :=
    @exists_lowered (mmCopy Kernel.memSbrk) (fun _ req => req.Small) rfl rfl
      (fun _ _ hsmall => hsmall)
  have hplaced := hf.placedHeap
  obtain ⟨g, hg⟩ : ∃ g, g = { placedHeap h with
    mem := Function.update (placedHeap h).mem 20472 3 } := ⟨_, rfl⟩
  have ho : Overrun g (2 ^ 64 - 31) 3 := by
    rw [hg]
    exact hplaced.write (by decide) 3
  have hseg : g.segList 60 = 0 := by
    rw [hg]
    simp [placedHeap]
  -- the client of the block at 4128 writes to its payload
  have hwrite : CopyStep (mmCopy Kernel.memSbrk) (fun _ req => req.Small) ⟨placedHeap h, live'⟩
      (.write 4128 16344 3, 0) ⟨g, live'⟩ := by
    have hsize : sizeAt (placedHeap h) 4128 = 16384 := by
      have hheader : (placedHeap h).word (4128 - 8) = 16385 := hplaced.header
      rw [sizeAt, hheader]
      decide
    have hal : (Request.write 4128 16344 3).Allowed ⟨placedHeap h, live'⟩ := by
      refine ⟨hlive, ?_⟩
      rw [hsize]
      decide
    rw [hg]
    exact .serve hal trivial rfl
  -- and the other block is freed
  have hfree : CopyStep (mmCopy Kernel.memSbrk) (fun _ req => req.Small) ⟨g, live'⟩
      (.free 20512, 0) ⟨freedHeap (g.store 20472 8 1), Function.update live' 20512 none⟩ :=
    .serve hlive' trivial (bind_of_some (ho.mmFree hseg))
  have hrun' := (hrun.snoc hstep).snoc hwrite
  obtain ⟨t, hrunK, hfreeK⟩ := ((hsame _ _).mp (hrun'.snoc hfree)).last
  have hdet : ∀ s l t u, CopyStep (mmCopy Kernel.memSbrk) (fun _ req => req.Small) s l t →
      CopyStep (mmCopy Kernel.memSbrk) (fun _ req => req.Small) s l u → t = u :=
    fun _ _ _ _ h₁ h₂ => h₁.unique h₂
  have ht := hrun'.unique hdet ((hsame _ _).mpr hrunK)
  rw [← ht] at hfreeK
  have hkernel : (kernelCopy Kernel.memSbrk).serve (.free 20512) g = some (0, freedHeap g) :=
    bind_of_some (ho.kernelFree hseg (by decide))
  cases hfreeK with
  | serve _ _ hx =>
    have hx' : (kernelCopy Kernel.memSbrk).serve (.free 20512) g =
        some (0, freedHeap (g.store 20472 8 1)) := hx
    rw [hkernel, Option.some.injEq, Prod.mk.injEq] at hx'
    have hthree := ho.freed.follows
    rw [hx'.2, ho.cleared.freed.follows] at hthree
    exact absurd hthree (by decide)

end Allocator
end Cmpsc473
