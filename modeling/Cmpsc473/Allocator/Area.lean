import Cmpsc473.Allocator.Program

/-!
# The mapped area

A computation is undefined where it touches a byte outside of the mapped area, so
where it is defined the area bounds what it touches.  `Confined` says this for a
whole computation: nothing changes outside of the area, and with a larger area it
does the same.  Put the other way round, a call that is defined on a small area is
a call whose accesses all lie in it.
-/

namespace Cmpsc473
namespace Allocator

open ByteMemory Total

/-- The heap with `[lo, hi)` as its mapped area. -/
def Heap.within (h : Heap) (lo hi : Nat) : Heap := { h with heap := lo, memMaxAddr := hi }

@[simp] theorem Heap.within_mem (h : Heap) (lo hi : Nat) : (h.within lo hi).mem = h.mem := rfl
@[simp] theorem Heap.within_heap (h : Heap) (lo hi : Nat) : (h.within lo hi).heap = lo := rfl
@[simp] theorem Heap.within_memMaxAddr (h : Heap) (lo hi : Nat) :
    (h.within lo hi).memMaxAddr = hi := rfl
@[simp] theorem Heap.within_memBrk (h : Heap) (lo hi : Nat) :
    (h.within lo hi).memBrk = h.memBrk := rfl
@[simp] theorem Heap.within_word (h : Heap) (lo hi p : Nat) :
    (h.within lo hi).word p = h.word p := rfl
@[simp] theorem Heap.within_within (h : Heap) (lo hi lo' hi' : Nat) :
    (h.within lo hi).within lo' hi' = h.within lo' hi' := rfl
@[simp] theorem Heap.within_self (h : Heap) : h.within h.heap h.memMaxAddr = h := rfl

/-- What a computation that may move the break (`sbrk`) respects.  Such a one has to
be told the same end of the area. -/
structure Confined {α : Type} (sbrk : Bool) (x : Mm α) : Prop where
  area : ∀ {h a h'}, x h = some (a, h') → h'.heap = h.heap ∧ h'.memMaxAddr = h.memMaxAddr
  outside : ∀ {h a h'}, x h = some (a, h') →
    ∀ p, p < h.heap ∨ h.memMaxAddr ≤ p → h'.mem p = h.mem p
  within : ∀ {h a h' lo hi}, x h = some (a, h') → lo ≤ h.heap → h.memMaxAddr ≤ hi →
    (sbrk = true → hi = h.memMaxAddr) → x (h.within lo hi) = some (a, h'.within lo hi)
  brk : ∀ {h a h'}, x h = some (a, h') → sbrk = false → h'.memBrk = h.memBrk

section Rules

variable {α β : Type} {sbrk : Bool}

theorem Confined.weaken {x : Mm α} (hx : Confined false x) : Confined sbrk x where
  area := hx.area
  outside := hx.outside
  within := fun h hlo hhi _ => hx.within h hlo hhi (by simp)
  brk := fun h _ => hx.brk h rfl

theorem confined_pure (a : α) : Confined sbrk (pure a : Mm α) where
  area := by
    intro h b h' hx
    cases hx
    exact ⟨rfl, rfl⟩
  outside := by
    intro h b h' hx p _
    cases hx
    rfl
  within := by
    intro h b h' lo hi hx _ _ _
    cases hx
    rfl
  brk := by
    intro h b h' hx _
    cases hx
    rfl

theorem Confined.bind {x : Mm α} {f : α → Mm β} (hx : Confined sbrk x)
    (hf : ∀ a, Confined sbrk (f a)) : Confined sbrk (x >>= f) where
  area := by
    intro h b h'' hxf
    obtain ⟨a, h', hxa, hfa⟩ := bind_eq_some.mp hxf
    have h₁ := hx.area hxa
    have h₂ := (hf a).area hfa
    exact ⟨h₂.1.trans h₁.1, h₂.2.trans h₁.2⟩
  outside := by
    intro h b h'' hxf p hp
    obtain ⟨a, h', hxa, hfa⟩ := bind_eq_some.mp hxf
    have h₁ := hx.area hxa
    rw [(hf a).outside hfa p (by rwa [h₁.1, h₁.2])]
    exact hx.outside hxa p hp
  within := by
    intro h b h'' lo hi hxf hlo hhi hsbrk
    obtain ⟨a, h', hxa, hfa⟩ := bind_eq_some.mp hxf
    have h₁ := hx.area hxa
    rw [bind_of_some (hx.within hxa hlo hhi hsbrk)]
    exact (hf a).within hfa (by rwa [h₁.1]) (by rwa [h₁.2]) (by rwa [h₁.2])
  brk := by
    intro h b h'' hxf hs
    obtain ⟨a, h', hxa, hfa⟩ := bind_eq_some.mp hxf
    exact ((hf a).brk hfa hs).trans (hx.brk hxa hs)

theorem confined_ite {c : Prop} [Decidable c] {x y : Mm α} (hx : Confined sbrk x)
    (hy : Confined sbrk y) : Confined sbrk (if c then x else y) := by
  split
  · exact hx
  · exact hy

theorem confined_diverge : Confined sbrk (diverge : Mm α) where
  area := nofun
  outside := nofun
  within := nofun
  brk := nofun

theorem get_eq_some {p a : Nat} {h h' : Heap} (hx : Allocator.get p h = some (a, h')) :
    h.Mapped p 8 ∧ h.word p = a ∧ h' = h := by
  unfold Allocator.get at hx
  split at hx
  · rename_i hm
    rw [Option.some.injEq, Prod.mk.injEq] at hx
    exact ⟨hm, hx.1, hx.2.symm⟩
  · cases hx

theorem confined_get (p : Nat) : Confined sbrk (get p) := by
  constructor
  · intro h a h' hx
    obtain ⟨_, _, heq⟩ := get_eq_some hx
    subst heq
    exact ⟨rfl, rfl⟩
  · intro h a h' hx q _
    obtain ⟨_, _, heq⟩ := get_eq_some hx
    subst heq
    rfl
  · intro h a h' lo hi hx hlo hhi _
    obtain ⟨hm, ha, heq⟩ := get_eq_some hx
    subst heq
    have hm' : (h'.within lo hi).Mapped p 8 := ⟨Nat.le_trans hlo hm.1, Nat.le_trans hm.2 hhi⟩
    rw [← ha]
    exact if_pos hm'
  · intro h a h' hx _
    obtain ⟨_, _, heq⟩ := get_eq_some hx
    subst heq
    rfl

/-- A store to bytes of the area. -/
theorem confined_store (p n v : Nat) : Confined sbrk (fun h =>
    if h.Mapped p n then some ((), h.store p n v) else none : Mm Unit) := by
  have hput : ∀ {h : Heap} {a : Unit} {h' : Heap},
      (if h.Mapped p n then some ((), h.store p n v) else none) = some (a, h') →
      h.Mapped p n ∧ h' = h.store p n v := by
    intro h a h' hx
    split at hx
    · rename_i hm
      cases hx
      exact ⟨hm, rfl⟩
    · cases hx
  constructor
  · intro h a h' hx
    obtain ⟨_, rfl⟩ := hput hx
    exact ⟨rfl, rfl⟩
  · intro h a h' hx q hq
    obtain ⟨hm, rfl⟩ := hput hx
    unfold Heap.Mapped at hm
    exact h.mem_store_of_outside (by omega)
  · intro h a h' lo hi hx hlo hhi _
    obtain ⟨hm, rfl⟩ := hput hx
    have hm' : (h.within lo hi).Mapped p n := ⟨Nat.le_trans hlo hm.1, Nat.le_trans hm.2 hhi⟩
    exact if_pos hm'
  · intro h a h' hx _
    obtain ⟨_, rfl⟩ := hput hx
    rfl

theorem confined_put (p v : Nat) : Confined sbrk (put p v) := confined_store p 8 v

/-- A computation that reads or writes globals only, and not the area. -/
theorem confined_globals {x : Mm α} (ok : Prop) [Decidable ok] (res : (Nat → Nat) → Nat → α)
    (segs : (Nat → Nat) → Nat → Nat) (listp : Nat → Nat)
    (hx : ∀ h : Heap, x h = if ok then some (res h.segList h.heapListp,
      { h with segList := segs h.segList, heapListp := listp h.heapListp }) else none) :
    Confined sbrk x := by
  have hcase : ∀ {h : Heap} {a : α} {h' : Heap}, x h = some (a, h') → ok ∧
      a = res h.segList h.heapListp ∧
      h' = { h with segList := segs h.segList, heapListp := listp h.heapListp } := by
    intro h a h' hxa
    rw [hx] at hxa
    split at hxa
    · rename_i hok
      cases hxa
      exact ⟨hok, rfl, rfl⟩
    · cases hxa
  constructor
  · intro h a h' hxa
    obtain ⟨_, _, rfl⟩ := hcase hxa
    exact ⟨rfl, rfl⟩
  · intro h a h' hxa q _
    obtain ⟨_, _, rfl⟩ := hcase hxa
    rfl
  · intro h a h' lo hi hxa _ _ _
    obtain ⟨hok, rfl, rfl⟩ := hcase hxa
    rw [hx, if_pos hok]
    rfl
  · intro h a h' hxa _
    obtain ⟨_, _, rfl⟩ := hcase hxa
    rfl

theorem confined_getSeg (list : Int) : Confined sbrk (getSeg list) :=
  confined_globals (0 ≤ list ∧ list < maxLen) (fun segs _ => segs list.toNat) id id
    (fun _ => rfl)

theorem confined_setSeg (list : Int) (p : Nat) : Confined sbrk (setSeg list p) :=
  confined_globals (0 ≤ list ∧ list < maxLen) (fun _ _ => ())
    (fun segs => Function.update segs list.toNat p) id (fun _ => rfl)

theorem confined_setHeapListp (p : Nat) : Confined sbrk (setHeapListp p) :=
  confined_globals True (fun _ _ => ()) id (fun _ => p) (fun _ => (if_pos trivial).symm)

/-- A break routine, which looks at the break and at the end of the area only. -/
theorem confined_break {x : Mm Nat} (res new : Nat → Nat → Nat)
    (hx : ∀ h : Heap, x h = some (res h.memBrk h.memMaxAddr,
      { h with memBrk := new h.memBrk h.memMaxAddr })) : Confined true x := by
  constructor
  · intro h a h' hxa
    rw [hx] at hxa
    cases hxa
    exact ⟨rfl, rfl⟩
  · intro h a h' hxa q _
    rw [hx] at hxa
    cases hxa
    rfl
  · intro h a h' lo hi hxa _ _ hsame
    obtain rfl := hsame rfl
    rw [hx] at hxa ⊢
    cases hxa
    rfl
  · intro h a h' _ hs
    cases hs

/-- The break after `mem_sbrk`. -/
def sbrkBreak (incr brk limit : Nat) : Nat :=
  if 2 ^ 63 ≤ incr then brk else if ptrAdd brk incr > limit then brk else ptrAdd brk incr

theorem memSbrk_eq (incr : Nat) (h : Heap) : memSbrk incr h =
    some (if 2 ^ 63 ≤ incr then sbrkFailed
      else if ptrAdd h.memBrk incr > h.memMaxAddr then sbrkFailed else h.memBrk,
      { h with memBrk := sbrkBreak incr h.memBrk h.memMaxAddr }) := by
  unfold memSbrk sbrkBreak
  split
  · rfl
  · split
    · rfl
    · rfl

theorem confined_memSbrk (incr : Nat) : Confined true (memSbrk incr) :=
  confined_break (fun brk limit => if 2 ^ 63 ≤ incr then sbrkFailed
    else if ptrAdd brk incr > limit then sbrkFailed else brk) (sbrkBreak incr) (memSbrk_eq incr)

/-- A walk that grants itself as many rounds as there are mapped bytes: more rounds
change nothing when it has ended. -/
theorem confined_walkRounds {f : Nat → Mm α} (hf : ∀ n, Confined sbrk (f n))
    (hmore : ∀ n h r, f n h = some r → f (n + 1) h = some r) :
    Confined sbrk (walkRounds >>= f) := by
  have heq : ∀ h, (walkRounds >>= f) h = f (h.memMaxAddr - h.heap + 1) h := fun _ => rfl
  have hmono : ∀ n k h r, f n h = some r → f (n + k) h = some r := by
    intro n k h r hr
    induction k with
    | zero => exact hr
    | succ k ih => exact hmore _ _ _ ih
  constructor
  · intro h a h' hx
    exact (hf _).area hx
  · intro h a h' hx
    exact (hf _).outside hx
  · intro h a h' lo hi hx hlo hhi hs
    rw [heq] at hx ⊢
    have hrounds : h.memMaxAddr - h.heap + 1 + (hi - lo - (h.memMaxAddr - h.heap)) =
        hi - lo + 1 := by omega
    have hx' := (hf _).within hx hlo hhi hs
    have := hmono _ (hi - lo - (h.memMaxAddr - h.heap)) _ _ hx'
    rw [hrounds] at this
    exact this
  · intro h a h' hx hs
    exact (hf _).brk hx hs

end Rules

/-! ## The functions of the program -/

section Program

variable {sbrk : Bool}

theorem confined_getSize (p : Nat) : Confined sbrk (getSize p) := by
  apply (confined_get p).bind
  intro w
  apply confined_pure

theorem confined_getAlloc (p : Nat) : Confined sbrk (getAlloc p) := by
  apply (confined_get p).bind
  intro w
  apply confined_pure

theorem confined_tagRemove (p : Nat) : Confined sbrk (tagRemove p) := by
  apply (confined_get p).bind
  intro w
  apply confined_put

theorem confined_putTag (p val : Nat) : Confined sbrk (putTag p val) := by
  apply Confined.bind
  · apply (confined_get p).bind
    intro w
    apply confined_pure
  · intro w
    apply confined_put

theorem confined_ftrp (bp : Nat) : Confined sbrk (ftrp bp) := by
  apply (confined_getSize _).bind
  intro size
  apply confined_pure

theorem confined_nextBlkp (bp : Nat) : Confined sbrk (nextBlkp bp) := by
  apply (confined_getSize _).bind
  intro size
  apply confined_pure

theorem confined_prevBlkp (bp : Nat) : Confined sbrk (prevBlkp bp) := by
  apply (confined_getSize _).bind
  intro size
  apply confined_pure

theorem confined_nextBlk (bp : Nat) : Confined sbrk (nextBlk bp) := confined_get _

theorem confined_prevBlk (bp : Nat) : Confined sbrk (prevBlk bp) := confined_get _

theorem confined_setPtr (p ptr : Nat) : Confined sbrk (setPtr p ptr) := confined_put _ _

theorem confined_nodeAddLoop (size rounds currList insertLoc : Nat) :
    Confined sbrk (nodeAddLoop size rounds currList insertLoc) := by
  induction rounds generalizing currList insertLoc with
  | zero => exact confined_diverge
  | succ rounds ih =>
    unfold nodeAddLoop
    apply confined_ite
    · apply (confined_getSize _).bind
      intro s
      apply confined_ite
      · apply (confined_prevBlk _).bind
        intro next
        apply ih
      · apply confined_pure
    · apply confined_pure

/-- The loop ends where it ended with fewer rounds. -/
theorem nodeAddLoop_more (size rounds currList insertLoc : Nat) {h : Heap} {r : (Nat × Nat) × Heap}
    (hx : nodeAddLoop size rounds currList insertLoc h = some r) :
    nodeAddLoop size (rounds + 1) currList insertLoc h = some r := by
  induction rounds generalizing currList insertLoc h with
  | zero => cases hx
  | succ rounds ih =>
    rw [nodeAddLoop] at hx ⊢
    split at hx
    · obtain ⟨s, h₁, hs, hx⟩ := bind_eq_some.mp hx
      rw [if_pos ‹_›, bind_of_some hs]
      split at hx
      · obtain ⟨q, h₂, hq, hx⟩ := bind_eq_some.mp hx
        rw [if_pos ‹_›, bind_of_some hq]
        exact ih _ _ hx
      · rw [if_neg ‹_›]
        exact hx
    · rw [if_neg ‹_›]
      exact hx

theorem confined_nodeAdd (ptr size : Nat) : Confined sbrk (nodeAdd ptr size) := by
  unfold nodeAdd
  apply confined_walkRounds
  · intro rounds
    apply (confined_getSeg _).bind
    intro first
    apply (confined_nodeAddLoop _ _ _ _).bind
    intro found
    apply confined_ite
    · apply confined_ite
      · apply (confined_setPtr _ _).bind
        intro _
        apply (confined_setPtr _ _).bind
        intro _
        apply (confined_setPtr _ _).bind
        intro _
        apply confined_setPtr
      · apply (confined_setPtr _ _).bind
        intro _
        apply (confined_setPtr _ _).bind
        intro _
        apply (confined_setPtr _ _).bind
        intro _
        apply confined_setSeg
    · apply confined_ite
      · apply (confined_setPtr _ _).bind
        intro _
        apply (confined_setPtr _ _).bind
        intro _
        apply confined_setPtr
      · apply (confined_setPtr _ _).bind
        intro _
        apply (confined_setPtr _ _).bind
        intro _
        apply confined_setSeg
  · intro rounds h r hx
    obtain ⟨first, h₁, hfirst, hx⟩ := bind_eq_some.mp hx
    obtain ⟨found, h₂, hfound, hx⟩ := bind_eq_some.mp hx
    rw [bind_of_some hfirst, bind_of_some (nodeAddLoop_more _ _ _ _ hfound)]
    exact hx

theorem confined_nodeRemove (ptr : Nat) : Confined sbrk (nodeRemove ptr) := by
  unfold nodeRemove
  apply (confined_getSize _).bind
  intro size
  apply (confined_prevBlk _).bind
  intro prev
  apply confined_ite
  · apply (confined_nextBlk _).bind
    intro next
    apply confined_ite
    · apply (confined_prevBlk _).bind
      intro _
      apply (confined_nextBlk _).bind
      intro _
      apply (confined_setPtr _ _).bind
      intro _
      apply (confined_nextBlk _).bind
      intro _
      apply (confined_prevBlk _).bind
      intro _
      apply confined_setPtr
    · apply (confined_prevBlk _).bind
      intro _
      apply (confined_setPtr _ _).bind
      intro _
      apply (confined_prevBlk _).bind
      intro _
      apply confined_setSeg
  · apply (confined_nextBlk _).bind
    intro next
    apply confined_ite
    · apply (confined_nextBlk _).bind
      intro _
      apply confined_setPtr
    · apply confined_setSeg

theorem confined_coalesceMerge (bp size prevAlloc nextAlloc : Nat) :
    Confined sbrk (coalesceMerge bp size prevAlloc nextAlloc) := by
  unfold coalesceMerge
  apply confined_ite
  · apply (confined_nodeRemove _).bind
    intro _
    apply (confined_nextBlkp _).bind
    intro _
    apply (confined_nodeRemove _).bind
    intro _
    apply (confined_nextBlkp _).bind
    intro _
    apply (confined_getSize _).bind
    intro _
    apply (confined_put _ _).bind
    intro _
    apply (confined_ftrp _).bind
    intro _
    apply (confined_put _ _).bind
    intro _
    apply confined_pure
  · apply confined_ite
    · apply (confined_nodeRemove _).bind
      intro _
      apply (confined_prevBlkp _).bind
      intro _
      apply (confined_nodeRemove _).bind
      intro _
      apply (confined_prevBlkp _).bind
      intro _
      apply (confined_getSize _).bind
      intro _
      apply (confined_ftrp _).bind
      intro _
      apply (confined_put _ _).bind
      intro _
      apply (confined_prevBlkp _).bind
      intro _
      apply (confined_put _ _).bind
      intro _
      apply (confined_prevBlkp _).bind
      intro _
      apply confined_pure
    · apply (confined_nodeRemove _).bind
      intro _
      apply (confined_prevBlkp _).bind
      intro _
      apply (confined_nodeRemove _).bind
      intro _
      apply (confined_nextBlkp _).bind
      intro _
      apply (confined_nodeRemove _).bind
      intro _
      apply (confined_prevBlkp _).bind
      intro _
      apply (confined_getSize _).bind
      intro _
      apply (confined_nextBlkp _).bind
      intro _
      apply (confined_getSize _).bind
      intro _
      apply (confined_prevBlkp _).bind
      intro _
      apply (confined_put _ _).bind
      intro _
      apply (confined_nextBlkp _).bind
      intro _
      apply (confined_ftrp _).bind
      intro _
      apply (confined_put _ _).bind
      intro _
      apply (confined_prevBlkp _).bind
      intro _
      apply confined_pure

theorem confined_coalesce (bp : Nat) : Confined sbrk (coalesce bp) := by
  unfold coalesce
  apply (confined_prevBlkp _).bind
  intro prev
  apply (confined_getAlloc _).bind
  intro prevAlloc
  apply (confined_nextBlkp _).bind
  intro next
  apply (confined_getAlloc _).bind
  intro nextAlloc
  apply (confined_getSize _).bind
  intro size
  apply confined_ite
  · apply confined_pure
  · apply (confined_coalesceMerge _ _ _ _).bind
    intro merged
    apply (confined_nodeAdd _ _).bind
    intro _
    apply confined_pure

/-- `extend_heap` behind the call of `mem_sbrk`. -/
theorem confined_addChunk (bp size : Nat) : Confined sbrk (do
    put (hdrp bp) (pack size 0)
    put (← ftrp bp) (pack size 0)
    put (hdrp (← nextBlkp bp)) (pack 0 1)
    nodeAdd bp size
    coalesce bp : Mm Nat) := by
  apply (confined_put _ _).bind
  intro _
  apply (confined_ftrp _).bind
  intro _
  apply (confined_put _ _).bind
  intro _
  apply (confined_nextBlkp _).bind
  intro _
  apply (confined_put _ _).bind
  intro _
  apply (confined_nodeAdd _ _).bind
  intro _
  apply confined_coalesce

theorem confined_extendHeap (words : Nat) : Confined true (extendHeap words) := by
  unfold extendHeap
  apply (confined_memSbrk _).bind
  intro bp
  apply confined_ite
  · apply confined_pure
  · apply confined_addChunk

theorem confined_findFitWalk (asize rounds listNode : Nat) :
    Confined sbrk (findFitWalk asize rounds listNode) := by
  induction rounds generalizing listNode with
  | zero => exact confined_diverge
  | succ rounds ih =>
    unfold findFitWalk
    apply confined_ite
    · apply (confined_getSize _).bind
      intro size
      apply confined_ite
      · apply confined_pure
      · apply (confined_prevBlk _).bind
        intro next
        apply ih
    · apply confined_pure

theorem findFitWalk_more (asize rounds listNode : Nat) {h : Heap} {r : Nat × Heap}
    (hx : findFitWalk asize rounds listNode h = some r) :
    findFitWalk asize (rounds + 1) listNode h = some r := by
  induction rounds generalizing listNode h with
  | zero => cases hx
  | succ rounds ih =>
    rw [findFitWalk] at hx ⊢
    split at hx
    · obtain ⟨size, h₁, hsize, hx⟩ := bind_eq_some.mp hx
      rw [if_pos ‹_›, bind_of_some hsize]
      split at hx
      · rw [if_pos ‹_›]
        exact hx
      · obtain ⟨q, h₂, hq, hx⟩ := bind_eq_some.mp hx
        rw [if_neg ‹_›, bind_of_some hq]
        exact ih _ hx
    · rw [if_neg ‹_›]
      exact hx

theorem confined_findFitLists (asize lists : Nat) (list : Int) :
    Confined sbrk (findFitLists asize lists list) := by
  induction lists generalizing list with
  | zero => exact confined_pure 0
  | succ lists ih =>
    unfold findFitLists
    apply confined_walkRounds
    · intro rounds
      apply (confined_getSeg _).bind
      intro first
      apply (confined_findFitWalk _ _ _).bind
      intro listNode
      apply confined_ite
      · apply confined_pure
      · apply ih
    · intro rounds h r hx
      obtain ⟨first, h₁, hfirst, hx⟩ := bind_eq_some.mp hx
      obtain ⟨found, h₂, hfound, hx⟩ := bind_eq_some.mp hx
      rw [bind_of_some hfirst, bind_of_some (findFitWalk_more _ _ _ hfound)]
      exact hx

theorem confined_findFit (asize : Nat) : Confined sbrk (findFit asize) :=
  confined_findFitLists _ _ _

theorem confined_place (bp asize : Nat) : Confined sbrk (place bp asize) := by
  unfold place
  apply (confined_getSize _).bind
  intro psize
  apply (confined_nodeRemove _).bind
  intro _
  apply confined_ite
  · apply (confined_put _ _).bind
    intro _
    apply (confined_ftrp _).bind
    intro _
    apply confined_put
  · apply (confined_put _ _).bind
    intro _
    apply (confined_ftrp _).bind
    intro _
    apply (confined_put _ _).bind
    intro _
    apply (confined_nextBlkp _).bind
    intro _
    apply (confined_put _ _).bind
    intro _
    apply (confined_nextBlkp _).bind
    intro _
    apply (confined_ftrp _).bind
    intro _
    apply (confined_put _ _).bind
    intro _
    apply (confined_nextBlkp _).bind
    intro _
    apply confined_nodeAdd

theorem confined_clearSegList (lists : Nat) (list : Int) :
    Confined sbrk (clearSegList lists list) := by
  induction lists generalizing list with
  | zero => exact confined_pure ()
  | succ lists ih =>
    unfold clearSegList
    apply (confined_setSeg _ _).bind
    intro _
    apply ih

theorem confined_mmInit : Confined true mmInit := by
  unfold mmInit
  apply (confined_clearSegList _ _).bind
  intro _
  apply (confined_memSbrk _).bind
  intro heapListp
  apply (confined_setHeapListp _).bind
  intro _
  apply confined_ite
  · apply confined_pure
  · apply (confined_put _ _).bind
    intro _
    apply (confined_put _ _).bind
    intro _
    apply (confined_put _ _).bind
    intro _
    apply (confined_put _ _).bind
    intro _
    apply (confined_setHeapListp _).bind
    intro _
    apply (confined_extendHeap _).bind
    intro bp
    apply confined_ite
    · apply confined_pure
    · apply confined_pure

theorem confined_placeAt (bp asize : Nat) :
    Confined sbrk (do place bp asize; return bp : Mm Nat) := by
  apply (confined_place _ _).bind
  intro _
  apply confined_pure

theorem confined_mmMalloc (size : Nat) : Confined true (mmMalloc size) := by
  unfold mmMalloc
  apply confined_ite
  · apply confined_pure
  · apply (confined_findFit _).bind
    intro bp
    apply confined_ite
    · apply (confined_extendHeap _).bind
      intro bp
      apply confined_ite
      · apply confined_pure
      · apply confined_placeAt
    · apply confined_placeAt

theorem confined_mmFree (bp : Nat) : Confined sbrk (mmFree bp) := by
  unfold mmFree
  apply (confined_getSize _).bind
  intro size
  apply (confined_nextBlkp _).bind
  intro next
  apply (confined_tagRemove _).bind
  intro _
  apply (confined_putTag _ _).bind
  intro _
  apply (confined_ftrp _).bind
  intro _
  apply (confined_putTag _ _).bind
  intro _
  apply (confined_nodeAdd _ _).bind
  intro _
  apply (confined_coalesce _).bind
  intro _
  apply confined_pure

end Program

end Allocator
end Cmpsc473
