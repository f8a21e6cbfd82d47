import Cmpsc473.PageTable.Tables
import Mathlib.Data.Set.BooleanAlgebra
import Mathlib.Order.CompletePartialOrder

/-!
# The memory that `kernel_init` is given

`kernel_init` never looks at `memorySize`: it fills 8425472 bytes from `memory` on,
whatever it was given, and then asks `load_page_table` to load the tables.
`kernel_start` hands it what is left behind a heap of 1 MiB.
-/

namespace Cmpsc473
namespace PageTable

open ByteMemory BitField WordTable

/-- The seven arrays that `kernel_init` carves out, with their numbers of entries. -/
def tableArrays (memory : Nat) : List (Nat × Nat) :=
  let p := memory
  let pd := elem p 1048576
  let pdp := elem pd 2048
  let pml := elem pdp 512
  let pdpUser := elem pml 512
  let pdUser := elem pdpUser 512
  let pUser := elem pdUser 512
  [(p, 1048576), (pd, 2048), (pdp, 512), (pml, 512), (pdpUser, 512), (pdUser, 512), (pUser, 512)]

/-- The entries that `kernel_init` assigns to, in the order in which it does. -/
def entriesWritten (ustack uprogram memory : Nat) : List Assignment :=
  let p := memory
  let pd := elem p 1048576
  let pdp := elem pd 2048
  let pml := elem pdp 512
  let pdpUser := elem pml 512
  let pdUser := elem pdpUser 512
  let pUser := elem pdUser 512
  loopAssignments 1048576 (fun i => (elem p i, entryFields 1 1 0 i)) ++
  loopAssignments 2048 (fun i => (elem pd i, entryFields 1 1 0 (elem p (512 * i) / 2 ^ 12))) ++
  loopAssignments 512 (fun i => (elem pdp i,
    if i < 4 then entryFields 1 1 0 (elem pd (512 * i) / 2 ^ 12) else entryFields 0 0 0 0)) ++
  loopAssignments 512 (fun i => (elem pml i,
    if i < 1 then entryFields 1 1 0 (elem pdp (512 * i) / 2 ^ 12) else entryFields 0 0 0 0)) ++
  loopAssignments 512 (fun i => (elem pdpUser i, entryFields 0 0 0 0)) ++
  loopAssignments 512 (fun i => (elem pdUser i, entryFields 0 0 0 0)) ++
  loopAssignments 512 (fun i => (elem pUser i, entryFields 0 0 0 0)) ++
  [(elem pml 511, userFields (pdpUser / 2 ^ 12)), (elem pdpUser 511, userFields (pdUser / 2 ^ 12)),
    (elem pdUser 511, userFields (pUser / 2 ^ 12)), (elem pUser 511, userFields (uprogram / 2 ^ 12)),
    (elem pUser 510, userFields ((ustack + 2 ^ 64 - 4096) % 2 ^ 64 / 2 ^ 12))]

/-- The entry at `a` lies in `[lo, hi)`, and does not go on at address 0. -/
def InArea (lo hi a : Nat) : Prop := lo ≤ a ∧ a + 8 ≤ hi ∧ a + 8 ≤ 2 ^ 64

def EntriesIn (lo hi ustack uprogram memory : Nat) : Prop :=
  ∀ w ∈ entriesWritten ustack uprogram memory, InArea lo hi w.1

/-- The addresses of the bytes of an array of `n` entries. -/
def arrayBytes (arr n : Nat) : Set Nat := {x | ∃ t < 8 * n, x = (arr + t) % 2 ^ 64}

def ArraysApart (memory : Nat) : Prop :=
  (tableArrays memory).Pairwise fun a b => Disjoint (arrayBytes a.1 a.2) (arrayBytes b.1 b.2)

/-- The code comes back without the tables having been loaded, or refused, by
`load_page_table`: what that would have done makes no difference. -/
def Refuses (init : (Nat → Machine → Option String × Machine) → (Machine → Option Machine) →
    Machine → Option Machine) : Prop :=
  ∀ loadPageTable loadPageTable' memExtraTest s,
    init loadPageTable memExtraTest s = init loadPageTable' memExtraTest s

/-- `init` builds its tables in `[lo, hi)`, or refuses, and its arrays are apart. -/
def KeepsTo (lo hi ustack uprogram memory : Nat)
    (init : (Nat → Machine → Option String × Machine) → (Machine → Option Machine) →
      Machine → Option Machine) : Prop :=
  (EntriesIn lo hi ustack uprogram memory ∨ Refuses init) ∧ ArraysApart memory

def kernelHeapSize : Nat := 1048576

/-- What `kernel_start` does about the tables. -/
def kernelStart (loadPageTable : Nat → Machine → Option String × Machine)
    (memExtraTest : Machine → Option Machine) (ustack ucode memory memorySize : Nat) (s : Machine) :
    Option Machine :=
  kernelInit loadPageTable memExtraTest ustack ucode ((memory + kernelHeapSize) % 2 ^ 64)
    ((memorySize + 2 ^ 64 - kernelHeapSize) % 2 ^ 64) s

section Writes

variable {ustack uprogram memory : Nat} {m : Memory}

theorem clearUser_eq (arr : Nat) : clearUser arr m =
    assignEach (loopAssignments 512 fun i => (elem arr i, entryFields 0 0 0 0)) m :=
  forLoop_eq_assignEach fun _ _ => rfl

/-- The two loops that fill the first entries and clear the others. -/
theorem firstEntries_eq (arr arr' k : Nat) : forLoop (fun i =>
    let start := elem arr (512 * i)
    if i < k then assignFields (elem arr' i) (entryFields 1 1 0 (start / 2 ^ 12))
    else assignFields (elem arr' i) (entryFields 0 0 0 0)) 512 m =
    assignEach (loopAssignments 512 fun i => (elem arr' i,
      if i < k then entryFields 1 1 0 (elem arr (512 * i) / 2 ^ 12)
      else entryFields 0 0 0 0)) m := by
  apply forLoop_eq_assignEach
  intro i m
  split <;> rfl

theorem kernelPtes_eq (p : Nat) : kernelPtes p m =
    assignEach (loopAssignments 1048576 fun i => (elem p i, entryFields 1 1 0 i)) m :=
  forLoop_eq_assignEach fun _ _ => rfl

theorem kernelPdes_eq (p pd : Nat) : kernelPdes p pd m =
    assignEach (loopAssignments 2048 fun i =>
      (elem pd i, entryFields 1 1 0 (elem p (512 * i) / 2 ^ 12))) m :=
  forLoop_eq_assignEach fun _ _ => rfl

theorem mapUsers_eq (pml pdpUser pdUser pUser : Nat) :
    mapUsers ustack uprogram pml pdpUser pdUser pUser m =
      assignEach [(elem pml 511, userFields (pdpUser / 2 ^ 12)),
        (elem pdpUser 511, userFields (pdUser / 2 ^ 12)),
        (elem pdUser 511, userFields (pUser / 2 ^ 12)),
        (elem pUser 511, userFields (uprogram / 2 ^ 12)),
        (elem pUser 510, userFields ((ustack + 2 ^ 64 - 4096) % 2 ^ 64 / 2 ^ 12))] m := by
  simp only [mapUsers, mapUser, assignEach, List.foldl_cons, List.foldl_nil]

/-- These are the writes of `kernel_init`, and all of them. -/
theorem kernelTables_entriesWritten (s : Machine) :
    (kernelTables ustack uprogram memory s).mem =
      assignEach (entriesWritten ustack uprogram memory) s.mem := by
  simp only [kernelTables, clearUsers, clearUser_eq, kernelPml4es, kernelPdpes, firstEntries_eq,
    kernelPdes_eq, kernelPtes_eq, mapUsers_eq, entriesWritten, assignEach_append]

end Writes

section Area

variable {lo hi ustack uprogram memory : Nat} {w : Assignment}

theorem elem_elem (arr i j : Nat) : elem (elem arr i) j = elem arr (i + j) := by
  unfold elem
  omega

/-- Every entry is one of the 1053184 from `memory` on. -/
theorem mem_entriesWritten (hw : w ∈ entriesWritten ustack uprogram memory) :
    ∃ k < 1053184, w.1 = elem memory k := by
  simp only [entriesWritten, elem_elem, List.mem_append, mem_loopAssignments, List.mem_cons,
    List.not_mem_nil, or_false, or_assoc] at hw
  rcases hw with ⟨i, hi, rfl⟩ | ⟨i, hi, rfl⟩ | ⟨i, hi, rfl⟩ | ⟨i, hi, rfl⟩ | ⟨i, hi, rfl⟩ |
    ⟨i, hi, rfl⟩ | ⟨i, hi, rfl⟩ | rfl | rfl | rfl | rfl | rfl
  · exact ⟨_, by omega, rfl⟩
  all_goals exact ⟨_, by omega, rfl⟩

theorem first_entry : ∃ w ∈ entriesWritten ustack uprogram memory, w.1 = elem memory 0 := by
  refine ⟨(elem memory 0, entryFields 1 1 0 0), ?_, rfl⟩
  simp only [entriesWritten, List.mem_append, mem_loopAssignments]
  exact Or.inl (Or.inl (Or.inl (Or.inl (Or.inl (Or.inl (Or.inl ⟨0, by decide, rfl⟩))))))

/-- The last entry is the one that maps the program. -/
theorem last_entry : ∃ w ∈ entriesWritten ustack uprogram memory, w.1 = elem memory 1053183 := by
  refine ⟨(elem memory 1053183, userFields (uprogram / 2 ^ 12)), ?_, rfl⟩
  simp [entriesWritten, elem_elem]

/-- The entries fit in when the area has room for 8425472 bytes. -/
theorem entriesIn_iff (hmemory : memory % 2 ^ 64 = lo % 2 ^ 64) :
    EntriesIn lo hi ustack uprogram memory ↔ lo + 8425472 ≤ 2 ^ 64 ∧ lo + 8425472 ≤ hi := by
  constructor
  · intro h
    obtain ⟨w, hw, hfirst⟩ := @first_entry ustack uprogram memory
    obtain ⟨w', hw', hlast⟩ := @last_entry ustack uprogram memory
    have hlo := h w hw
    have hhi := h w' hw'
    rw [hfirst] at hlo
    rw [hlast] at hhi
    unfold InArea elem at hlo hhi
    omega
  · intro h w hw
    obtain ⟨k, hk, hwk⟩ := mem_entriesWritten hw
    rw [hwk]
    unfold InArea elem
    omega

/-- Arrays at different places among the 1053184 entries share no byte. -/
theorem arrayBytes_disjoint {i j n n' : Nat} (hij : i + n ≤ j) (hfits : j + n' ≤ 1053184) :
    Disjoint (arrayBytes (elem memory i) n) (arrayBytes (elem memory j) n') := by
  rw [Set.disjoint_left]
  rintro x ⟨t, ht, hx⟩ ⟨t', ht', hx'⟩
  unfold elem at hx hx'
  omega

theorem arrayBytes_elem_zero (arr n : Nat) : arrayBytes (elem arr 0) n = arrayBytes arr n := by
  ext x
  simp [arrayBytes, elem]

/-- The number of the first entry of each array, and how many it has. -/
def arrayOffsets : List (Nat × Nat) :=
  [(0, 1048576), (1048576, 2048), (1050624, 512), (1051136, 512), (1051648, 512), (1052160, 512),
    (1052672, 512)]

theorem tableArrays_bytes : (tableArrays memory).map (fun a => arrayBytes a.1 a.2) =
    arrayOffsets.map fun o => arrayBytes (elem memory o.1) o.2 := by
  simp [tableArrays, elem_elem, arrayOffsets, arrayBytes_elem_zero]

theorem arraysApart (memory : Nat) : ArraysApart memory := by
  have hapart : arrayOffsets.Pairwise fun o o' => o.1 + o.2 ≤ o'.1 ∧ o'.1 + o'.2 ≤ 1053184 := by
    decide
  rw [ArraysApart, ← List.pairwise_map (R := Disjoint), tableArrays_bytes, List.pairwise_map]
  exact hapart.imp fun h => arrayBytes_disjoint h.1 h.2

end Area

section Refusal

variable {ustack uprogram memory : Nat}

/-- Whatever its arguments are, `kernel_init` goes on to `load_page_table`. -/
theorem not_refuses (memorySize : Nat) : ¬ Refuses (fun loadPageTable memExtraTest =>
    kernelInit loadPageTable memExtraTest ustack uprogram memory memorySize) := by
  intro h
  have hsame := h (fun _ s => (none, s)) (fun _ s => (none, { s with console := ["loaded"] })) some
    ⟨fun _ => 0, 0, 0, 0, []⟩
  have hconsole := congrArg (Option.map Machine.console) hsame
  exact absurd hconsole (by simp [kernelInit, kernelTables])

theorem keepsTo_iff {lo hi memorySize : Nat} (hmemory : memory % 2 ^ 64 = lo % 2 ^ 64) :
    KeepsTo lo hi ustack uprogram memory (fun loadPageTable memExtraTest =>
        kernelInit loadPageTable memExtraTest ustack uprogram memory memorySize) ↔
      lo + 8425472 ≤ 2 ^ 64 ∧ lo + 8425472 ≤ hi := by
  rw [KeepsTo, or_iff_left (not_refuses memorySize), and_iff_left (arraysApart memory),
    entriesIn_iff hmemory]

/-- **The size of the memory does not matter to `kernel_init`.** Called directly, and called
by `kernel_start` behind its heap, it keeps to the memory exactly when that has room for
8425472 bytes: it never refuses.  What it does to memory on the way to `load_page_table` are
the writes to its entries, and nothing else. -/
theorem memory_size_iff (ustack uprogram memory memorySize : Nat) :
    (KeepsTo memory (memory + memorySize) ustack uprogram memory
        (fun loadPageTable memExtraTest =>
          kernelInit loadPageTable memExtraTest ustack uprogram memory memorySize) ↔
      memory + 8425472 ≤ 2 ^ 64 ∧ 8425472 ≤ memorySize) ∧
    (KeepsTo (memory + kernelHeapSize) (memory + memorySize) ustack uprogram
        ((memory + kernelHeapSize) % 2 ^ 64) (fun loadPageTable memExtraTest =>
          kernelStart loadPageTable memExtraTest ustack uprogram memory memorySize) ↔
      memory + kernelHeapSize + 8425472 ≤ 2 ^ 64 ∧ kernelHeapSize + 8425472 ≤ memorySize) ∧
    (∀ arrays s, (kernelTables ustack uprogram arrays s).mem =
      assignEach (entriesWritten ustack uprogram arrays) s.mem) ∧
    ArraysApart memory ∧ ArraysApart ((memory + kernelHeapSize) % 2 ^ 64) := by
  refine ⟨?_, ?_, fun _ => kernelTables_entriesWritten, arraysApart _, arraysApart _⟩
  · rw [keepsTo_iff rfl]
    omega
  · unfold kernelStart
    rw [keepsTo_iff (Nat.mod_mod _ _)]
    omega

/-- Tables at 1 GiB, in a memory of one page. -/
theorem memory_size_ignored :
    ¬ KeepsTo (2 ^ 30) (2 ^ 30 + 4096) 8192 20480 (2 ^ 30) (fun loadPageTable memExtraTest =>
      kernelInit loadPageTable memExtraTest 8192 20480 (2 ^ 30) 4096) := by
  rw [keepsTo_iff rfl]
  omega

end Refusal

end PageTable
end Cmpsc473
