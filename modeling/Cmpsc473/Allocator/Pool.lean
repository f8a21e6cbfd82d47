import Cmpsc473.Allocator.Word
import Cmpsc473.Library.Tiling
import Mathlib.Data.List.Sort
import Mathlib.Data.List.TakeWhile

/-!
# The allocator as a pool of blocks

What `mm.c` is for, without memory: a row of blocks in address order, and for
each size class the list of its free blocks in ascending order of size.  The
operations below are those of the program on this level.  A neighbour is looked
up in the row, not through tags, and a list is a list, not a chain of links.

`Pool.Valid` is the invariant.  Every operation preserves it, which needs no
fact about memory.
-/

namespace Cmpsc473
namespace Allocator

open Tiling

/-- A block, by its payload pointer. -/
@[ext] structure Block where
  bp : Nat
  size : Nat
  alloc : Bool
deriving DecidableEq, Repr

/-- The word in the header and in the footer of a block. -/
def Block.tag (b : Block) : Nat := b.size + b.alloc.toNat

structure Pool where
  /-- Payload pointer of the first block. -/
  base : Nat
  brk : Nat
  limit : Nat
  blocks : List Block
  bins : Nat → List Block

/-- The order of a free list. -/
abbrev sizeLe (b c : Block) : Prop := b.size ≤ c.size

/-- What holds of neighbours in a row where free blocks are merged. -/
abbrev notBothFree (b c : Block) : Prop := ¬ (b.alloc = false ∧ c.alloc = false)

instance : Std.Total sizeLe := ⟨fun b c => Nat.le_total b.size c.size⟩

instance : IsTrans Block sizeLe := ⟨fun _ _ _ => Nat.le_trans⟩

/-- The blocks before `b` in a row. -/
def before (b : Block) (l : List Block) : List Block := l.takeWhile (fun c => c ≠ b)

/-- The blocks after `b` in a row. -/
def after (b : Block) (l : List Block) : List Block := (l.dropWhile (fun c => c ≠ b)).tail

/-- Lists `b` in its class, before the first block that is not smaller. -/
def insertBin (bins : Nat → List Block) (b : Block) : Nat → List Block :=
  Function.update bins (sizeClass b.size) ((bins (sizeClass b.size)).orderedInsert sizeLe b)

def eraseBin (bins : Nat → List Block) (b : Block) : Nat → List Block :=
  Function.update bins (sizeClass b.size) ((bins (sizeClass b.size)).erase b)

/-- The block that ends where `b` begins, if it is free: a row of at most one. -/
def lowerFree (b : Block) (l : List Block) : List Block :=
  ((before b l).getLast?.filter (fun c => !c.alloc)).toList

/-- The block that begins where `b` ends, if it is free: a row of at most one. -/
def upperFree (b : Block) (l : List Block) : List Block :=
  ((after b l).head?.filter (fun c => !c.alloc)).toList

/-- The row below `b` and `lowerFree b`. -/
def below (b : Block) (l : List Block) : List Block :=
  (before b l).take ((before b l).length - (lowerFree b l).length)

/-- The row above `b` and `upperFree b`. -/
def above (b : Block) (l : List Block) : List Block :=
  (after b l).drop (upperFree b l).length

/-- The free blocks `ps ++ b :: ns`, in a row, made one. -/
def merged (ps : List Block) (b : Block) (ns : List Block) : Block :=
  ⟨(ps.headD b).bp, ((ps ++ b :: ns).map Block.size).sum, false⟩

namespace Pool

/-- Merges the listed free block `b` with its free neighbours. -/
def coalesce (P : Pool) (b : Block) : Block × Pool :=
  if lowerFree b P.blocks = [] ∧ upperFree b P.blocks = [] then (b, P)
  else
    (merged (lowerFree b P.blocks) b (upperFree b P.blocks), { P with
      blocks := below b P.blocks ++
        merged (lowerFree b P.blocks) b (upperFree b P.blocks) :: above b P.blocks
      bins := insertBin
        ((b :: (lowerFree b P.blocks ++ upperFree b P.blocks)).foldl eraseBin P.bins)
        (merged (lowerFree b P.blocks) b (upperFree b P.blocks)) })

/-- Adds `size` bytes at the break as a free block, and merges it. -/
def grow (P : Pool) (size : Nat) : Block × Pool :=
  coalesce { P with
    brk := P.brk + size
    blocks := P.blocks ++ [⟨P.brk, size, false⟩]
    bins := insertBin P.bins ⟨P.brk, size, false⟩ } ⟨P.brk, size, false⟩

/-- The first listed block that is large enough, from the class of `asize` on. -/
def fit (P : Pool) (asize : Nat) : Option Block :=
  (List.range' (sizeClass asize) (maxLen - sizeClass asize)).findSome? fun k =>
    (P.bins k).find? (fun b => asize ≤ b.size)

/-- Allocates `asize` bytes at the start of the free block `b`.  A remainder
that is too small for a block of its own stays with the allocated one. -/
def place (P : Pool) (b : Block) (asize : Nat) : Pool :=
  if b.size - asize ≤ 32 then
    { P with
      blocks := before b P.blocks ++ { b with alloc := true } :: after b P.blocks
      bins := eraseBin P.bins b }
  else
    { P with
      blocks := before b P.blocks ++
        ⟨b.bp, asize, true⟩ :: ⟨b.bp + asize, b.size - asize, false⟩ :: after b P.blocks
      bins := insertBin (eraseBin P.bins b) ⟨b.bp + asize, b.size - asize, false⟩ }

/-- Frees the allocated block `b`, and merges it. -/
def release (P : Pool) (b : Block) : Pool :=
  (coalesce { P with
    blocks := before b P.blocks ++ { b with alloc := false } :: after b P.blocks
    bins := insertBin P.bins { b with alloc := false } } { b with alloc := false }).2

/-- The block size for a request. -/
def blockSize (n : Nat) : Nat := if n ≤ 16 then 32 else 16 * ((n + 31) / 16)

def malloc (P : Pool) (n : Nat) : Nat × Pool :=
  if n = 0 then (0, P)
  else
    match P.fit (blockSize n) with
    | some b => (b.bp, P.place b (blockSize n))
    | none =>
      if P.brk + max (blockSize n) chunkSize ≤ P.limit then
        ((P.grow (max (blockSize n) chunkSize)).1.bp,
          (P.grow (max (blockSize n) chunkSize)).2.place
            (P.grow (max (blockSize n) chunkSize)).1 (blockSize n))
      else (0, P)

def blockAt (P : Pool) (p : Nat) : Option Block := P.blocks.find? (fun b => b.bp = p)

def free (P : Pool) (p : Nat) : Pool :=
  match P.blockAt p with
  | some b => P.release b
  | none => P

/-- The capacity that lets a block stay where it is. -/
def keepSize (n : Nat) : Nat := if n ≤ 16 then 32 else 16 * ((n + 15) / 16)

/-- The result and the pool after a reallocation; none when there is no room. -/
def realloc (P : Pool) (p n : Nat) : Option (Nat × Pool) :=
  if n = 0 then some (0, P.free p)
  else
    match P.blockAt p with
    | none => none
    | some b =>
      if keepSize n ≤ b.size - 16 then some (p, P)
      else if (P.malloc n).1 = 0 then none
      else some ((P.malloc n).1, (P.malloc n).2.free p)

structure Valid (P : Pool) : Prop where
  base_pos : 32 ≤ P.base
  base_aligned : P.base % 16 = 0
  limit_le : P.limit ≤ 2 ^ 63
  brk_le : P.brk ≤ P.limit
  tiles : Tiles Block.bp Block.size P.base P.blocks P.brk
  sizes : ∀ b ∈ P.blocks, 32 ≤ b.size ∧ b.size % 16 = 0
  mem_bins : ∀ k b, b ∈ P.bins k ↔ b ∈ P.blocks ∧ b.alloc = false ∧ sizeClass b.size = k
  nodup : ∀ k, (P.bins k).Nodup
  sorted : ∀ k, (P.bins k).Pairwise sizeLe

/-- No two neighbouring blocks are free. -/
def Coalesced (P : Pool) : Prop :=
  P.blocks.IsChain notBothFree

end Pool

theorem before_eq {b : Block} {l r : List Block} (h : b ∉ l) : before b (l ++ b :: r) = l := by
  rw [before, List.takeWhile_append_of_pos]
  · simp
  · intro c hc
    simp only [decide_not, Bool.not_eq_eq_eq_not, Bool.not_true, decide_eq_false_iff_not]
    rintro rfl
    exact h hc

theorem after_eq {b : Block} {l r : List Block} (h : b ∉ l) : after b (l ++ b :: r) = r := by
  rw [after, List.dropWhile_append_of_pos]
  · simp
  · intro c hc
    simp only [decide_not, Bool.not_eq_eq_eq_not, Bool.not_true, decide_eq_false_iff_not]
    rintro rfl
    exact h hc

theorem mem_insertBin {bins : Nat → List Block} {b c : Block} {k : Nat} :
    c ∈ insertBin bins b k ↔ (c = b ∧ k = sizeClass b.size) ∨ c ∈ bins k := by
  unfold insertBin
  by_cases hk : k = sizeClass b.size
  · subst hk
    rw [Function.update_self, List.mem_orderedInsert]
    simp
  · rw [Function.update_of_ne hk]
    simp [hk]

theorem mem_eraseBin {bins : Nat → List Block} {b c : Block} {k : Nat}
    (hnd : ∀ j, (bins j).Nodup) :
    c ∈ eraseBin bins b k ↔ c ∈ bins k ∧ ¬ (c = b ∧ k = sizeClass b.size) := by
  unfold eraseBin
  by_cases hk : k = sizeClass b.size
  · subst hk
    rw [Function.update_self, (hnd _).mem_erase_iff]
    tauto
  · rw [Function.update_of_ne hk]
    simp [hk]

theorem nodup_eraseBin {bins : Nat → List Block} (hnd : ∀ k, (bins k).Nodup) (b : Block) (k : Nat) :
    (eraseBin bins b k).Nodup := by
  unfold eraseBin
  by_cases hk : k = sizeClass b.size
  · subst hk
    rw [Function.update_self]
    exact (hnd _).erase b
  · rw [Function.update_of_ne hk]
    exact hnd k

theorem nodup_insertBin {bins : Nat → List Block} (hnd : ∀ k, (bins k).Nodup) {b : Block}
    (hb : b ∉ bins (sizeClass b.size)) (k : Nat) : (insertBin bins b k).Nodup := by
  unfold insertBin
  by_cases hk : k = sizeClass b.size
  · subst hk
    rw [Function.update_self, (List.perm_orderedInsert _ _ _).nodup_iff, List.nodup_cons]
    exact ⟨hb, hnd _⟩
  · rw [Function.update_of_ne hk]
    exact hnd k

theorem sorted_eraseBin {bins : Nat → List Block} (hs : ∀ k, (bins k).Pairwise sizeLe)
    (b : Block) (k : Nat) : (eraseBin bins b k).Pairwise sizeLe := by
  unfold eraseBin
  by_cases hk : k = sizeClass b.size
  · subst hk
    rw [Function.update_self]
    exact (hs _).sublist List.erase_sublist
  · rw [Function.update_of_ne hk]
    exact hs k

theorem sorted_insertBin {bins : Nat → List Block} (hs : ∀ k, (bins k).Pairwise sizeLe)
    (b : Block) (k : Nat) : (insertBin bins b k).Pairwise sizeLe := by
  unfold insertBin
  by_cases hk : k = sizeClass b.size
  · subst hk
    rw [Function.update_self]
    exact (hs _).orderedInsert b _
  · rw [Function.update_of_ne hk]
    exact hs k

end Allocator
end Cmpsc473
