import Cmpsc473.Allocator.FreeListRemove
import Cmpsc473.Allocator.Session

/-!
# The segregated lists on their own

`node_add` and `node_remove` on lists of payload pointers, with nothing known of the
blocks but their headers: each does one thing to one list, they undo each other, and
two removals do not depend on their order.
-/

namespace Cmpsc473
namespace Allocator

open ByteMemory Total LinkedSegment

/-- A block that has room for two links. -/
structure Node (h : Heap) (p : Nat) : Prop where
  aligned : p % 16 = 0
  lo : h.heap + 8 ≤ p
  hi : p + 16 ≤ h.memMaxAddr

/-- Memory and `seg_list` hold well-formed lists: linked both ways, ascending by the
sizes in the headers, each block in the list of its class.  Blocks are as long as the
smallest block at least. -/
structure Family (h : Heap) (lists : Nat → List Nat) : Prop where
  limit : h.memMaxAddr ≤ 2 ^ 63
  heads : ∀ k < maxLen, h.segList k = (lists k).headD 0
  links : ∀ k < maxLen, Seg h.word (fun p => h.word (p + 8)) 0 (lists k) 0
  ascending : ∀ k, (lists k).Pairwise fun p q => sizeAt h p ≤ sizeAt h q
  cls : ∀ k, ∀ p ∈ lists k, selectList (sizeAt h p) = (k : Int)
  node : ∀ k, ∀ p ∈ lists k, Node h p
  apart : ∀ j k, ∀ p ∈ lists j, ∀ q ∈ lists k, p = q ∨ p + 32 ≤ q ∨ q + 32 ≤ p

/-- A block in none of the lists. -/
structure Unlinked (h : Heap) (lists : Nat → List Nat) (b : Nat) : Prop where
  node : Node h b
  notMem : ∀ k, b ∉ lists k
  apart : ∀ k, ∀ p ∈ lists k, b + 32 ≤ p ∨ p + 32 ≤ b

/-- The lists with `b`, of size `s`, before the first block of its class that is not
smaller. -/
def linked (h : Heap) (lists : Nat → List Nat) (b s k : Nat) : List Nat :=
  if selectList s = (k : Int) then
    (lists k).takeWhile (fun p => sizeAt h p < s) ++
      b :: (lists k).dropWhile (fun p => sizeAt h p < s)
  else lists k

/-- The lists without `b`. -/
def unlinked (lists : Nat → List Nat) (b k : Nat) : List Nat := (lists k).filter (fun p => p ≠ b)

/-- The heads are the same, and the links of the blocks in the lists. -/
structure SameLinks (lists : Nat → List Nat) (h h' : Heap) : Prop where
  heads : ∀ k < maxLen, h'.segList k = h.segList k
  fwd : ∀ k, ∀ p ∈ lists k, h'.word p = h.word p
  bwd : ∀ k, ∀ p ∈ lists k, h'.word (p + 8) = h.word (p + 8)

/-- What lies outside the links of the blocks in the lists is the same. -/
structure LinksOnly (lists : Nat → List Nat) (h h' : Heap) : Prop where
  heap : h'.heap = h.heap
  memBrk : h'.memBrk = h.memBrk
  memMaxAddr : h'.memMaxAddr = h.memMaxAddr
  heapListp : h'.heapListp = h.heapListp
  mem : ∀ x, (∀ k, ∀ p ∈ lists k, x < p ∨ p + 16 ≤ x) → h'.mem x = h.mem x

/-- The block that is listed at `p`. -/
def nodeAt (h : Heap) (p : Nat) : Block := ⟨p, sizeAt h p, false⟩

/-- The bins that hold the blocks of the lists. -/
def binsOf (h : Heap) (lists : Nat → List Nat) (k : Nat) : List Block := (lists k).map (nodeAt h)

variable {h h' : Heap} {lists : Nat → List Nat} {b k p q s : Nat}

theorem nodeAt_injective (h : Heap) : Function.Injective (nodeAt h) :=
  fun _ _ hpq => congrArg Block.bp hpq

@[simp] theorem bps_map_nodeAt (l : List Nat) : bps (l.map (nodeAt h)) = l := by
  rw [bps, List.map_map]
  exact List.map_id l

theorem sizeAt_lt (h : Heap) (p : Nat) : sizeAt h p < 2 ^ 64 :=
  Nat.lt_of_le_of_lt Nat.and_le_left (h.word_lt _)

/-- Only the sizes above zero have a class. -/
theorem class_pos (hs : selectList s = (k : Int)) : 0 < s := by
  rw [Nat.pos_iff_ne_zero]
  intro h0
  rw [h0] at hs
  have hneg : selectList 0 = -1 := rfl
  omega

theorem class_eq (hs : selectList s = (k : Int)) (hlt : s < 2 ^ 64) : sizeClass s = k := by
  rw [selectList_eq (class_pos hs) hlt] at hs
  exact Int.ofNat_inj.mp hs

namespace Family

theorem zero_notMem (hf : Family h lists) (k : Nat) : 0 ∉ lists k := by
  intro h0
  have := (hf.node k 0 h0).lo
  omega

theorem lt_maxLen (hf : Family h lists) (hp : p ∈ lists k) : k < maxLen := by
  rw [← class_eq (hf.cls k p hp) (sizeAt_lt h p)]
  exact sizeClass_lt _

theorem nodup (hf : Family h lists) (k : Nat) : (lists k).Nodup := by
  by_cases hk : k < maxLen
  · exact (hf.links k hk).nodup (hf.zero_notMem k)
  · rw [List.eq_nil_iff_forall_not_mem.mpr fun p hp => hk (hf.lt_maxLen hp)]
    exact List.nodup_nil

/-- A block is in one list only. -/
theorem list_eq (hf : Family h lists) {j : Nat} (hj : p ∈ lists j) (hk : p ∈ lists k) : j = k := by
  have hcls := (hf.cls j p hj).symm.trans (hf.cls k p hk)
  exact Int.ofNat_inj.mp hcls

theorem listed (hf : Family h lists) : Listed h (binsOf h lists) where
  heads := by
    intro k hk
    rw [binsOf, bps_map_nodeAt]
    exact hf.heads k hk
  links := by
    intro k hk
    rw [binsOf, bps_map_nodeAt]
    exact hf.links k hk
  sizes := by
    intro k b hb
    obtain ⟨p, _, rfl⟩ := List.mem_map.mp hb
    rfl

theorem fits (hf : Family h lists) (hp : p ∈ lists k) : Fits h (nodeAt h p) where
  aligned := (hf.node k p hp).aligned
  lo := (hf.node k p hp).lo
  hi := (hf.node k p hp).hi
  size_pos := class_pos (hf.cls k p hp)
  size_lt := sizeAt_lt h p

theorem binsOk (hf : Family h lists) : BinsOk h (binsOf h lists) where
  limit := hf.limit
  fits := by
    intro k b hb
    obtain ⟨p, hp, rfl⟩ := List.mem_map.mp hb
    exact hf.fits hp
  cls := by
    intro k b hb
    obtain ⟨p, hp, rfl⟩ := List.mem_map.mp hb
    exact class_eq (hf.cls k p hp) (sizeAt_lt h p)
  nodup := fun k => (hf.nodup k).map (nodeAt_injective h)
  apart := by
    intro j k b hb c hc
    obtain ⟨p, hp, rfl⟩ := List.mem_map.mp hb
    obtain ⟨q, hq, rfl⟩ := List.mem_map.mp hc
    rcases hf.apart j k p hp q hq with rfl | hpq | hqp
    · exact Or.inl rfl
    · exact Or.inr (Or.inl hpq)
    · exact Or.inr (Or.inr hqp)

/-- What is listed in ascending bins is a family. -/
theorem of_listed {bins : Nat → List Block} (hl : Listed h bins) (hok : BinsOk h bins)
    (hs : ∀ k, (bins k).Pairwise sizeLe) : Family h (fun k => bps (bins k)) where
  limit := hok.limit
  heads := hl.heads
  links := hl.links
  ascending := by
    intro k
    refine List.pairwise_map.mpr ((hs k).imp_of_mem fun {b c} hb hc hbc => ?_)
    show h.word (b.bp - 8) &&& sizeMask ≤ h.word (c.bp - 8) &&& sizeMask
    rw [hl.sizes k b hb, hl.sizes k c hc]
    exact hbc
  cls := by
    intro k p hp
    obtain ⟨b, hb, rfl⟩ := List.mem_map.mp hp
    have hfits := hok.fits k b hb
    show selectList (h.word (b.bp - 8) &&& sizeMask) = _
    rw [hl.sizes k b hb, selectList_eq hfits.size_pos hfits.size_lt, hok.cls k b hb]
  node := by
    intro k p hp
    obtain ⟨b, hb, rfl⟩ := List.mem_map.mp hp
    have hfits := hok.fits k b hb
    exact ⟨hfits.aligned, hfits.lo, hfits.hi⟩
  apart := by
    intro j k p hp q hq
    obtain ⟨b, hb, rfl⟩ := List.mem_map.mp hp
    obtain ⟨c, hc, rfl⟩ := List.mem_map.mp hq
    rcases hok.apart j k b hb c hc with rfl | hbc | hcb
    · exact Or.inl rfl
    · exact Or.inr (Or.inl hbc)
    · exact Or.inr (Or.inr hcb)

/-- Two heaps that hold the same lists have the same links in them. -/
theorem sameLinks (hf : Family h lists) (hf' : Family h' lists) : SameLinks lists h h' where
  heads := fun k hk => (hf'.heads k hk).trans (hf.heads k hk).symm
  fwd := by
    intro k p hp
    have hk := hf.lt_maxLen hp
    exact ((hf'.links k hk).links_eq (hf.links k hk) p hp).1
  bwd := by
    intro k p hp
    have hk := hf.lt_maxLen hp
    exact ((hf'.links k hk).links_eq (hf.links k hk) p hp).2

/-- The bins that memory has come to hold, as lists. -/
theorem of_step {bins : Nat → List Block} (hl : Listed h' bins) (hok : BinsOk h bins)
    (hs : ∀ k, (bins k).Pairwise sizeLe) (hheap : h'.heap = h.heap)
    (hmax : h'.memMaxAddr = h.memMaxAddr) (hbps : ∀ k, bps (bins k) = lists k) :
    Family h' lists := by
  have hlists : (fun k => bps (bins k)) = lists := funext hbps
  exact hlists ▸ of_listed hl (hok.moved hheap hmax) hs

theorem sorted (hf : Family h lists) (k : Nat) : (binsOf h lists k).Pairwise sizeLe :=
  List.pairwise_map.mpr (hf.ascending k)

end Family

theorem LinksOnly.of_frame {bins : Nat → List Block} (hf : LinkFrame bins h h')
    (hbps : ∀ k, bps (bins k) = lists k) : LinksOnly lists h h' where
  heap := hf.heap
  memBrk := hf.memBrk
  memMaxAddr := hf.memMaxAddr
  heapListp := hf.heapListp
  mem := by
    intro x hx
    refine hf.mem x fun k b hb => hx k b.bp ?_
    rw [← hbps k]
    exact List.mem_map_of_mem hb

namespace Family

/-- What `insertBin` does is to link the block in. -/
theorem bps_insertBin (hs : 0 < s) (hlt : s < 2 ^ 64) (k : Nat) :
    bps (insertBin (binsOf h lists) ⟨b, s, false⟩ k) = linked h lists b s k := by
  have hsel := selectList_eq hs hlt
  unfold insertBin linked
  by_cases hk : k = sizeClass s
  · subst hk
    rw [Function.update_self, if_pos hsel, List.orderedInsert_eq_take_drop, binsOf, bps,
      List.map_append, List.map_cons, List.takeWhile_map, List.dropWhile_map]
    have hcond : ((fun c : Block => decide ¬ sizeLe ⟨b, s, false⟩ c) ∘ nodeAt h) =
        fun p => decide (sizeAt h p < s) := by
      funext p
      exact decide_eq_decide.mpr Nat.not_le
    rw [hcond]
    exact congrArg₂ (fun l r => l ++ b :: r) (bps_map_nodeAt _) (bps_map_nodeAt _)
  · have hne : ¬ selectList s = (k : Int) := by
      rw [hsel]
      omega
    rw [Function.update_of_ne hk, if_neg hne]
    exact bps_map_nodeAt _

/-- What `eraseBin` does is to take the block out. -/
theorem bps_eraseBin (hf : Family h lists) (hb : b ∈ lists k) (j : Nat) :
    bps (eraseBin (binsOf h lists) (nodeAt h b) j) = unlinked lists b j := by
  have hk := class_eq (hf.cls k b hb) (sizeAt_lt h b)
  unfold eraseBin unlinked
  rw [show (nodeAt h b).size = sizeAt h b from rfl, hk]
  by_cases hj : j = k
  · subst hj
    rw [Function.update_self, binsOf, ← List.map_erase (nodeAt_injective h), bps_map_nodeAt,
      (hf.nodup j).erase_eq_filter]
    exact List.filter_congr fun p _ => by rw [bne, beq_eq_decide, decide_not]
  · rw [Function.update_of_ne hj, binsOf, bps_map_nodeAt]
    refine (List.filter_eq_self.mpr fun p hp => ?_).symm
    exact decide_eq_true fun hpb => hj (hf.list_eq (hpb ▸ hp) hb)

theorem add (hf : Family h lists) (hb : Unlinked h lists b) (hs : sizeAt h b = s) (hpos : 0 < s) :
    Returns (nodeAdd b s) h (fun _ h' =>
      Family h' (linked h lists b s) ∧ LinksOnly (linked h lists b s) h h') := by
  have hlt : s < 2 ^ 64 := hs ▸ sizeAt_lt h b
  have hbps : ∀ k, bps (insertBin (binsOf h lists) ⟨b, s, false⟩ k) = linked h lists b s k :=
    bps_insertBin hpos hlt
  have hfits : Fits h ⟨b, s, false⟩ := ⟨hb.node.aligned, hb.node.lo, hb.node.hi, hpos, hlt⟩
  have hu : Unlisted (binsOf h lists) ⟨b, s, false⟩ := by
    refine ⟨fun k hmem => ?_, fun k c hc => ?_⟩
    · obtain ⟨p, hp, hpb⟩ := List.mem_map.mp hmem
      have hpb : p = b := congrArg Block.bp hpb
      exact hb.notMem k (hpb ▸ hp)
    · obtain ⟨p, hp, rfl⟩ := List.mem_map.mp hc
      exact Or.inr (hb.apart k p hp)
  refine (nodeAdd_returns hf.listed hf.binsOk hfits hu hs).mono fun _ h' hpost => ?_
  obtain ⟨hl, hframe⟩ := hpost
  refine ⟨?_, .of_frame hframe hbps⟩
  exact of_step hl (hf.binsOk.insert hfits hu) (sorted_insertBin hf.sorted _) hframe.heap
    hframe.memMaxAddr hbps

theorem remove (hf : Family h lists) (hb : b ∈ lists k) :
    Returns (nodeRemove b) h (fun _ h' =>
      Family h' (unlinked lists b) ∧ LinksOnly lists h h') := by
  have hmem : nodeAt h b ∈ binsOf h lists (sizeClass (nodeAt h b).size) := by
    rw [show (nodeAt h b).size = sizeAt h b from rfl, class_eq (hf.cls k b hb) (sizeAt_lt h b)]
    exact List.mem_map_of_mem hb
  refine (nodeRemove_returns hf.listed hf.binsOk hmem).mono fun _ h' hpost => ?_
  obtain ⟨hl, hframe⟩ := hpost
  refine ⟨?_, .of_frame hframe fun k => bps_map_nodeAt (lists k)⟩
  exact of_step hl (hf.binsOk.erase _) (sorted_eraseBin hf.sorted _) hframe.heap
    hframe.memMaxAddr (hf.bps_eraseBin hb)

end Family

theorem mem_linked (hpos : 0 < s) (hlt : s < 2 ^ 64) : b ∈ linked h lists b s (sizeClass s) := by
  unfold linked
  rw [if_pos (selectList_eq hpos hlt)]
  exact List.mem_append_right _ List.mem_cons_self

/-- To take out the block that was put in. -/
theorem unlinked_linked (hb : ∀ k, b ∉ lists k) : unlinked (linked h lists b s) b = lists := by
  funext k
  have hkeep : ∀ l : List Nat, (∀ p ∈ l, p ∈ lists k) → l.filter (fun p => p ≠ b) = l := by
    intro l hl
    refine List.filter_eq_self.mpr fun p hp => ?_
    exact decide_eq_true fun hpb => hb k (hpb ▸ hl p hp)
  unfold unlinked linked
  by_cases hk : selectList s = (k : Int)
  · rw [if_pos hk, List.filter_append, List.filter_cons_of_neg (by simp),
      hkeep _ fun p hp => (List.takeWhile_sublist _).subset hp,
      hkeep _ fun p hp => (List.dropWhile_sublist _).subset hp, List.takeWhile_append_dropWhile]
  · rw [if_neg hk]
    exact hkeep _ fun p hp => hp

theorem unlinked_comm (lists : Nat → List Nat) (p q : Nat) :
    unlinked (unlinked lists p) q = unlinked (unlinked lists q) p := by
  funext k
  unfold unlinked
  rw [List.filter_filter, List.filter_filter]
  exact List.filter_congr fun x _ => Bool.and_comm _ _

theorem mem_unlinked (hq : q ∈ lists k) (hpq : p ≠ q) : q ∈ unlinked lists p k :=
  List.mem_filter.mpr ⟨hq, decide_eq_true hpq.symm⟩

namespace Family

theorem add_remove (hf : Family h lists) (hb : Unlinked h lists b) (hs : sizeAt h b = s)
    (hpos : 0 < s) : Returns (do nodeAdd b s; nodeRemove b) h (fun _ h' =>
      Family h' lists ∧ SameLinks lists h h') := by
  rw [returns_bind]
  refine (hf.add hb hs hpos).mono fun _ h₁ hadd => ?_
  refine (hadd.1.remove (mem_linked hpos (hs ▸ sizeAt_lt h b))).mono fun _ h₂ hremove => ?_
  have hback := hremove.1
  rw [unlinked_linked hb.notMem] at hback
  exact ⟨hback, hf.sameLinks hback⟩

theorem remove_twice (hf : Family h lists) {j : Nat} (hp : p ∈ lists j) (hq : q ∈ lists k)
    (hpq : p ≠ q) : Returns (do nodeRemove p; nodeRemove q) h (fun _ h' =>
      Family h' (unlinked (unlinked lists p) q)) := by
  rw [returns_bind]
  refine (hf.remove hp).mono fun _ h₁ hfirst => ?_
  exact (hfirst.1.remove (mem_unlinked hq hpq)).mono fun _ h₂ hsecond => hsecond.1

/-- **The laws of `node_add` and `node_remove`.** On well-formed lists the one links a
block in where the order of sizes puts it, the other takes a member out, and the lists
stay well formed; a block that is linked in and taken out leaves no trace in the links
of the others, and two members may be taken out in either order. -/
theorem node_laws (hf : Family h lists) :
    (∀ b s, Unlinked h lists b → sizeAt h b = s → 0 < s →
      Returns (nodeAdd b s) h (fun _ h' =>
        Family h' (linked h lists b s) ∧ LinksOnly (linked h lists b s) h h')) ∧
    (∀ k, ∀ b ∈ lists k, Returns (nodeRemove b) h (fun _ h' =>
      Family h' (unlinked lists b) ∧ LinksOnly lists h h')) ∧
    (∀ b s, Unlinked h lists b → sizeAt h b = s → 0 < s →
      Returns (do nodeAdd b s; nodeRemove b) h (fun _ h' =>
        Family h' lists ∧ SameLinks lists h h')) ∧
    ∀ j k, ∀ p ∈ lists j, ∀ q ∈ lists k, p ≠ q → ∃ h₁ h₂,
      (do nodeRemove p; nodeRemove q) h = some ((), h₁) ∧
      (do nodeRemove q; nodeRemove p) h = some ((), h₂) ∧
      SameLinks (unlinked (unlinked lists p) q) h₁ h₂ := by
  refine ⟨fun b s => hf.add, fun k b hb => hf.remove hb, fun b s => hf.add_remove, ?_⟩
  intro j k p hp q hq hpq
  obtain ⟨_, h₁, hx₁, hf₁⟩ := hf.remove_twice hp hq hpq
  obtain ⟨_, h₂, hx₂, hf₂⟩ := hf.remove_twice hq hp hpq.symm
  rw [unlinked_comm] at hf₂
  exact ⟨h₁, h₂, hx₁, hx₂, hf₁.sameLinks hf₂⟩

end Family

/-- A heap of two blocks of 32 and 48 bytes, both free, in list 5, and above its break the
header of a block that is in no list. -/
def pairHeap : Heap :=
  let h : Heap :=
    { mem := fun _ => 0, heap := 16, memBrk := 128, memMaxAddr := 4096, heapListp := 32
      segList := fun k => if k = 5 then 48 else 0 }
  [(24, 17), (32, 17), (40, 32), (48, 80), (64, 32), (72, 48), (88, 48), (112, 48), (120, 1),
    (136, 40)].foldl (fun h (p, v) => h.store p 8 v) h

/-- The lists of `pairHeap`. -/
def pairLists (k : Nat) : List Nat := if k = 5 then [48, 80] else []

theorem mem_pairLists (hp : p ∈ pairLists k) : k = 5 ∧ (p = 48 ∨ p = 80) := by
  unfold pairLists at hp
  by_cases hk : k = 5
  · rw [if_pos hk] at hp
    simpa [hk] using hp
  · rw [if_neg hk] at hp
    exact absurd hp List.not_mem_nil

theorem pairHeap_sizes : sizeAt pairHeap 48 = 32 ∧ sizeAt pairHeap 80 = 48 ∧
    sizeAt pairHeap 144 = 40 := by
  decide +kernel

theorem pairHeap_links : pairHeap.word 48 = 80 ∧ pairHeap.word 56 = 0 ∧ pairHeap.word 80 = 0 ∧
    pairHeap.word 88 = 48 := by
  decide +kernel

theorem pairHeap_family : Family pairHeap pairLists := by
  obtain ⟨hs₁, hs₂, _⟩ := pairHeap_sizes
  obtain ⟨h48, h56, h80, h88⟩ := pairHeap_links
  refine { limit := by decide, heads := ?_, links := ?_, ascending := ?_, cls := ?_
           node := ?_, apart := ?_ }
  · intro k _
    show (if k = 5 then 48 else 0) = (pairLists k).headD 0
    unfold pairLists
    by_cases hk : k = 5
    · rw [if_pos hk, if_pos hk]
      rfl
    · rw [if_neg hk, if_neg hk]
      rfl
  · intro k _
    unfold pairLists
    by_cases hk : k = 5
    · rw [if_pos hk]
      exact ⟨h56, h48, h88, h80, trivial⟩
    · rw [if_neg hk]
      exact seg_nil _ _ 0 0
  · intro k
    unfold pairLists
    by_cases hk : k = 5
    · rw [if_pos hk, List.pairwise_pair, hs₁, hs₂]
      decide
    · rw [if_neg hk]
      exact List.Pairwise.nil
  · intro k p hp
    obtain ⟨rfl, rfl | rfl⟩ := mem_pairLists hp
    · rw [hs₁]
      decide
    · rw [hs₂]
      decide
  · intro k p hp
    obtain ⟨rfl, rfl | rfl⟩ := mem_pairLists hp
    · exact ⟨by decide, by decide, by decide⟩
    · exact ⟨by decide, by decide, by decide⟩
  · intro j k p hp q hq
    obtain ⟨rfl, hp⟩ := mem_pairLists hp
    obtain ⟨rfl, hq⟩ := mem_pairLists hq
    omega

/-- The third block comes between the two, and goes again. -/
theorem node_laws_pair : (∃ h', nodeAdd 144 40 pairHeap = some ((), h') ∧
      h'.segList 5 = 48 ∧ h'.word 48 = 144 ∧ h'.word 144 = 80) ∧
    (∃ h', (do nodeAdd 144 40; nodeRemove 144) pairHeap = some ((), h') ∧ h'.word 48 = 80) ∧
    ∃ h', nodeRemove 48 pairHeap = some ((), h') ∧ h'.segList 5 = 80 := by
  obtain ⟨hadd, hremove, hboth, _⟩ := pairHeap_family.node_laws
  have hfresh : Unlinked pairHeap pairLists 144 := by
    refine ⟨⟨by decide, by decide, by decide⟩, fun k hk => ?_, fun k p hp => ?_⟩
    · obtain ⟨_, h | h⟩ := mem_pairLists hk
      · cases h
      · cases h
    · obtain ⟨_, rfl | rfl⟩ := mem_pairLists hp
      · exact Or.inr (by decide)
      · exact Or.inr (by decide)
  obtain ⟨hs₁, hs₂, hs₃⟩ := pairHeap_sizes
  have hlist : linked pairHeap pairLists 144 40 5 = [48, 144, 80] := by
    unfold linked pairLists
    rw [if_pos (by decide), if_pos rfl]
    simp [hs₁, hs₂]
  refine ⟨?_, ?_, ?_⟩
  · obtain ⟨_, h', hx, hf, _⟩ := hadd 144 40 hfresh hs₃ (by decide)
    have hhead := hf.heads 5 (by decide)
    have hlinks := hf.links 5 (by decide)
    rw [hlist] at hhead hlinks
    exact ⟨h', hx, hhead, hlinks.2.1, hlinks.2.2.2.1⟩
  · obtain ⟨_, h', hx, hf, _⟩ := hboth 144 40 hfresh hs₃ (by decide)
    exact ⟨h', hx, (hf.links 5 (by decide)).2.1⟩
  · obtain ⟨_, h', hx, hf, _⟩ := hremove 5 48 (by decide)
    exact ⟨h', hx, hf.heads 5 (by decide)⟩

end Allocator
end Cmpsc473
