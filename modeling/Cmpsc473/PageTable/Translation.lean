import Cmpsc473.Library.PageWalk
import Cmpsc473.PageTable.Tables

/-!
# The address space of the kernel and its user program

`Translates` says where each canonical address leads.  The tables of
`kernel_init` make it so: the first 4 GiB are the kernel's and lead to
themselves, the last two pages are the user's, and nothing else is mapped.
-/

namespace Cmpsc473
namespace PageTable

open ByteMemory BitField WordTable PageWalk

/-- A canonical 48-bit virtual address. -/
def Canonical (va : Nat) : Prop := va < 2 ^ 47 ∨ 2 ^ 64 - 2 ^ 47 ≤ va ∧ va < 2 ^ 64

/-- The 64-bit word of physical memory at an address. -/
def word (m : Memory) (a : Nat) : Nat := read m a 8

/-- Where the walks from `pageTable` lead. -/
structure Translates (m : Memory) (pageTable ustack uprogram : Nat) : Prop where
  kernel : ∀ va, va < 2 ^ 32 → Reaches (word m) 4 pageTable va va false
  program : ∀ va, 2 ^ 64 - 4096 ≤ va → va < 2 ^ 64 →
    Reaches (word m) 4 pageTable va (uprogram + va % 4096) true
  stack : ∀ va, 2 ^ 64 - 8192 ≤ va → va < 2 ^ 64 - 4096 →
    Reaches (word m) 4 pageTable va (ustack - 4096 + va % 4096) true
  unmapped : ∀ va, Canonical va → 2 ^ 32 ≤ va → va < 2 ^ 64 - 8192 →
    walk (word m) 4 pageTable va = none

variable {ustack uprogram memory va page : Nat} {m : Memory}

theorem decode_kernelWord (h : page < 2 ^ 40) :
    decode (kernelWord page) = ⟨true, true, false, false, page * 2 ^ 12⟩ :=
  decode_entry 1 1 0 (by decide) (by decide) (by decide) h

theorem decode_userWord (h : page < 2 ^ 40) :
    decode (userWord page) = ⟨true, true, true, false, page * 2 ^ 12⟩ :=
  decode_entry 1 1 1 (by decide) (by decide) (by decide) h

theorem index_eq (va : Nat) :
    index (3 + 1) va = va / 2 ^ 39 % 512 ∧ index (2 + 1) va = va / 2 ^ 30 % 512 ∧
      index (1 + 1) va = va / 2 ^ 21 % 512 ∧ index (0 + 1) va = va / 2 ^ 12 % 512 := by
  norm_num [index]

section Entries

variable {a k j n table phys frame : Nat} {user : Bool} {w : Nat → Nat}

/-- A walk through an entry that one of the tables holds. -/
theorem reaches_entry (h : Holds m a k w) (hj : j < k)
    (haddr : table + 8 * index (n + 1) va = a + 8 * j)
    (hdecode : decode (w j) = ⟨true, true, user, false, frame⟩)
    (hnext : Reaches (word m) n frame va phys user) :
    Reaches (word m) (n + 1) table va phys user := by
  have hword : word m (table + 8 * index (n + 1) va) = w j := by
    rw [haddr]
    exact h j hj
  exact hnext.step hword hdecode

theorem walk_zeroEntry (h : Holds m a k w) (hj : j < k)
    (haddr : table + 8 * index (n + 1) va = a + 8 * j) (hzero : w j = 0) :
    walk (word m) (n + 1) table va = none := by
  have hword : word m (table + 8 * index (n + 1) va) = 0 := by
    rw [haddr, ← hzero]
    exact h j hj
  exact walk_absent hword (by rw [decode_zero])

/-- A walk that fails behind an entry for the user program. -/
theorem walk_userEntry (h : Holds m a k w) (hj : j < k)
    (haddr : table + 8 * index (n + 1) va = a + 8 * j) (huser : w j = userWord page)
    (hpage : page < 2 ^ 40) (hnext : walk (word m) n (page * 2 ^ 12) va = none) :
    walk (word m) (n + 1) table va = none := by
  have hword : word m (table + 8 * index (n + 1) va) = userWord page := by
    rw [haddr, ← huser]
    exact h j hj
  exact walk_none hword (by rw [decode_userWord hpage]; exact hnext)

end Entries

section Walks

variable (ht : Tables ustack uprogram memory m) (hargs : BootArgs ustack uprogram memory)
include ht hargs

/-- The first 4 GiB lead to themselves. -/
theorem kernel_reaches (hva : va < 2 ^ 32) :
    Reaches (word m) 4 (pmlAt memory) va va false := by
  obtain ⟨h₄, h₃, h₂, h₁⟩ := index_eq va
  have hfits := hargs.memoryFits
  have haligned := hargs.memoryAligned
  have hpage : Reaches (word m) 0 (va / 2 ^ 12 * 2 ^ 12) va va false :=
    reaches_zero (Nat.div_add_mod' va (2 ^ 12))
  have hpte : Reaches (word m) 1 ((memory / 4096 + va / 2 ^ 21) * 2 ^ 12) va va false :=
    reaches_entry ht.ptes (show va / 2 ^ 12 < 1048576 by omega) (by omega)
      (decode_kernelWord (by omega)) hpage
  have hpde : Reaches (word m) 2 ((pdAt memory / 4096 + va / 2 ^ 30) * 2 ^ 12) va va false :=
    reaches_entry ht.pdes (show va / 2 ^ 21 < 2048 by omega) (by unfold pdAt; omega)
      (decode_kernelWord (by omega)) hpte
  have hpdpe : Reaches (word m) 3 ((pdpAt memory / 4096 + 0) * 2 ^ 12) va va false := by
    have hi : va / 2 ^ 30 < 4 := by omega
    refine reaches_entry ht.pdpes (show va / 2 ^ 30 < 512 by omega) (by unfold pdpAt; omega) ?_ hpde
    rw [if_pos hi]
    exact decode_kernelWord (by unfold pdAt; omega)
  refine reaches_entry ht.pml4es (show 0 < 512 by decide) (by omega) ?_ hpdpe
  exact decode_kernelWord (by unfold pdpAt; omega)

/-- Nothing else is mapped in the lower half. -/
theorem kernel_none (hva : 2 ^ 32 ≤ va) (hcanon : va < 2 ^ 47) :
    walk (word m) 4 (pmlAt memory) va = none := by
  obtain ⟨h₄, h₃, h₂, h₁⟩ := index_eq va
  have hfits := hargs.memoryFits
  have haligned := hargs.memoryAligned
  by_cases hi : va / 2 ^ 39 = 0
  · have hnone : walk (word m) 3 ((pdpAt memory / 4096 + 0) * 2 ^ 12) va = none :=
      walk_zeroEntry ht.pdpes (show va / 2 ^ 30 < 512 by omega) (by unfold pdpAt; omega)
        (if_neg (by omega))
    have hword : word m (pmlAt memory + 8 * index (3 + 1) va) =
        kernelWord (pdpAt memory / 4096 + 0) := by
      rw [h₄, hi]
      exact ht.pml4es 0 (by decide)
    refine walk_none hword ?_
    rw [decode_kernelWord (by unfold pdpAt; omega)]
    exact hnone
  · refine walk_zeroEntry ht.pml4es (show va / 2 ^ 39 < 512 by omega) (by omega) ?_
    rw [Function.update_of_ne (by omega)]
    exact if_neg (by omega)

/-- The last table of the user is behind the last entries of the three above it. -/
theorem user_reaches {phys : Nat} (hva : 2 ^ 64 - 2 ^ 21 ≤ va) (hva' : va < 2 ^ 64)
    (hnext : Reaches (word m) 1 (pUserAt memory / 4096 * 2 ^ 12) va phys true) :
    Reaches (word m) 4 (pmlAt memory) va phys true := by
  obtain ⟨h₄, h₃, h₂, h₁⟩ := index_eq va
  have hfits := hargs.memoryFits
  have haligned := hargs.memoryAligned
  have hpde : Reaches (word m) 2 (pdUserAt memory / 4096 * 2 ^ 12) va phys true :=
    reaches_entry ht.pdUser (show 511 < 512 by decide) (by unfold pdUserAt; omega)
      (decode_userWord (by unfold pUserAt; omega)) hnext
  have hpdpe : Reaches (word m) 3 (pdpUserAt memory / 4096 * 2 ^ 12) va phys true :=
    reaches_entry ht.pdpUser (show 511 < 512 by decide) (by unfold pdpUserAt; omega)
      (decode_userWord (by unfold pdUserAt; omega)) hpde
  exact reaches_entry ht.pml4es (show 511 < 512 by decide) (by omega)
    (decode_userWord (by unfold pdpUserAt; omega)) hpdpe

/-- The last page is that of the program. -/
theorem program_reaches (hva : 2 ^ 64 - 4096 ≤ va) (hva' : va < 2 ^ 64) :
    Reaches (word m) 4 (pmlAt memory) va (uprogram + va % 4096) true := by
  obtain ⟨h₄, h₃, h₂, h₁⟩ := index_eq va
  have hfits := hargs.memoryFits
  have haligned := hargs.memoryAligned
  have huprogram := hargs.uprogramAligned
  have hpage : Reaches (word m) 0 (uprogram / 4096 * 2 ^ 12) va (uprogram + va % 4096) true :=
    reaches_zero (by omega)
  have hfits' := hargs.uprogramFits
  refine user_reaches ht hargs (by omega) hva' ?_
  exact reaches_entry ht.pUser (show 511 < 512 by decide) (by unfold pUserAt; omega)
    (decode_userWord (by omega)) hpage

/-- The page before it is that below the top of the stack. -/
theorem stack_reaches (hva : 2 ^ 64 - 8192 ≤ va) (hva' : va < 2 ^ 64 - 4096) :
    Reaches (word m) 4 (pmlAt memory) va (ustack - 4096 + va % 4096) true := by
  obtain ⟨h₄, h₃, h₂, h₁⟩ := index_eq va
  have hfits := hargs.memoryFits
  have haligned := hargs.memoryAligned
  have hustack := hargs.ustackAligned
  have hustack' := hargs.ustackPage
  have hpage : Reaches (word m) 0 ((ustack - 4096) / 4096 * 2 ^ 12) va
      (ustack - 4096 + va % 4096) true := reaches_zero (by omega)
  have hfits' := hargs.ustackFits
  refine user_reaches ht hargs (by omega) (by omega) ?_
  exact reaches_entry ht.pUser (show 510 < 512 by decide) (by unfold pUserAt; omega)
    (decode_userWord (by omega)) hpage

/-- Nothing else is mapped in the upper half: a walk either leaves the chain of
last entries or ends in an entry of the last table that was left zero. -/
theorem user_none (hva : 2 ^ 64 - 2 ^ 47 ≤ va) (hva' : va < 2 ^ 64 - 8192) :
    walk (word m) 4 (pmlAt memory) va = none := by
  obtain ⟨h₄, h₃, h₂, h₁⟩ := index_eq va
  have hfits := hargs.memoryFits
  have haligned := hargs.memoryAligned
  by_cases hi₄ : va / 2 ^ 39 % 512 = 511
  · refine walk_userEntry ht.pml4es (show 511 < 512 by decide) (by omega) rfl
      (by unfold pdpUserAt; omega) ?_
    by_cases hi₃ : va / 2 ^ 30 % 512 = 511
    · refine walk_userEntry ht.pdpUser (show 511 < 512 by decide) (by unfold pdpUserAt; omega) rfl
        (by unfold pdUserAt; omega) ?_
      by_cases hi₂ : va / 2 ^ 21 % 512 = 511
      · refine walk_userEntry ht.pdUser (show 511 < 512 by decide) (by unfold pdUserAt; omega) rfl
          (by unfold pUserAt; omega) ?_
        refine walk_zeroEntry ht.pUser (show va / 2 ^ 12 % 512 < 512 by omega)
          (by unfold pUserAt; omega) ?_
        rw [Function.update_of_ne (by omega), Function.update_of_ne (by omega)]
      · refine walk_zeroEntry ht.pdUser (show va / 2 ^ 21 % 512 < 512 by omega)
          (by unfold pdUserAt; omega) ?_
        exact Function.update_of_ne hi₂ _ _
    · refine walk_zeroEntry ht.pdpUser (show va / 2 ^ 30 % 512 < 512 by omega)
        (by unfold pdpUserAt; omega) ?_
      exact Function.update_of_ne hi₃ _ _
  · refine walk_zeroEntry ht.pml4es (show va / 2 ^ 39 % 512 < 512 by omega) (by omega) ?_
    rw [Function.update_of_ne hi₄]
    exact if_neg (by omega)

theorem Tables.translates : Translates m (pmlAt memory) ustack uprogram where
  kernel _ hva := kernel_reaches ht hargs hva
  program _ hva hva' := program_reaches ht hargs hva hva'
  stack _ hva hva' := stack_reaches ht hargs hva hva'
  unmapped va hcanon hva hva' := by
    rcases hcanon with hlow | ⟨hhigh, -⟩
    · exact kernel_none ht hargs hva hlow
    · exact user_none ht hargs hhigh hva'

end Walks

/-- User code reaches the page of the program and that of its stack, and no other. -/
theorem Translates.userAccess {pageTable : Nat} {t : Translation}
    (h : Translates m pageTable ustack uprogram) (hcanon : Canonical va)
    (ht : walk (word m) 4 pageTable va = some t) (huser : t.userAccess = true) :
    2 ^ 64 - 4096 ≤ va ∧ t.phys = uprogram + va % 4096 ∨
      2 ^ 64 - 8192 ≤ va ∧ va < 2 ^ 64 - 4096 ∧ t.phys = ustack - 4096 + va % 4096 := by
  have hlt : va < 2 ^ 64 := by
    unfold Canonical at hcanon
    omega
  by_cases hkernel : va < 2 ^ 32
  · have hno := ((h.kernel va hkernel).userAccess ht).2
    rw [huser] at hno
    cases hno
  · by_cases hprogram : 2 ^ 64 - 4096 ≤ va
    · exact Or.inl ⟨hprogram, ((h.program va hprogram hlt).userAccess ht).1⟩
    · by_cases hstack : 2 ^ 64 - 8192 ≤ va
      · exact Or.inr ⟨hstack, by omega, ((h.stack va hstack (by omega)).userAccess ht).1⟩
      · rw [h.unmapped va hcanon (by omega) (by omega)] at ht
        cases ht

end PageTable
end Cmpsc473
