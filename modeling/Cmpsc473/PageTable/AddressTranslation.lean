import Cmpsc473.PageTable.Translation

/-!
# Address translation after `kernel_init`

The tables are complete when they are handed to `load_page_table`, and they stay
so when `kernel_init` returns: neither `load_page_table` nor the allocator test
writes to them.
-/

namespace Cmpsc473
namespace PageTable

open ByteMemory WordTable PageWalk

/-- Nothing was written to the tables, and `page_table` still points to them. -/
def SameTables (memory : Nat) (s s' : Machine) : Prop :=
  s'.pageTable = s.pageTable ∧ ∀ x, memory ≤ x → x < memory + 8425472 → s'.mem x = s.mem x

/-- User-mode code reaches the page of its program and that of its stack only. -/
def UserConfined (m : Memory) (pageTable ustack uprogram : Nat) : Prop :=
  ∀ va t, Canonical va → walk (word m) 4 pageTable va = some t → t.userAccess = true →
    2 ^ 64 - 4096 ≤ va ∧ t.phys = uprogram + va % 4096 ∨
      2 ^ 64 - 8192 ≤ va ∧ va < 2 ^ 64 - 4096 ∧ t.phys = ustack - 4096 + va % 4096

section Tables

variable {ustack uprogram memory : Nat} {m m' : Memory}

theorem Tables.frame (h : Tables ustack uprogram memory m)
    (hm : ∀ x, memory ≤ x → x < memory + 8425472 → m' x = m x) :
    Tables ustack uprogram memory m' where
  ptes := h.ptes.frame (fun x hx hx' => hm x hx (by omega))
  pdes := h.pdes.frame (by unfold pdAt; exact fun x hx hx' => hm x (by omega) (by omega))
  pdpes := h.pdpes.frame (by unfold pdpAt; exact fun x hx hx' => hm x (by omega) (by omega))
  pml4es := h.pml4es.frame (by unfold pmlAt; exact fun x hx hx' => hm x (by omega) (by omega))
  pdpUser := h.pdpUser.frame (by
    unfold pdpUserAt; exact fun x hx hx' => hm x (by omega) (by omega))
  pdUser := h.pdUser.frame (by unfold pdUserAt; exact fun x hx hx' => hm x (by omega) (by omega))
  pUser := h.pUser.frame (by unfold pUserAt; exact fun x hx hx' => hm x (by omega) (by omega))

/-- The arguments fix every byte of the tables. -/
theorem Tables.bytes_eq (h : Tables ustack uprogram memory m)
    (h' : Tables ustack uprogram memory m') {x : Nat} (hx : memory ≤ x)
    (hx' : x < memory + 8425472) : m x = m' x := by
  have hcases : x < memory + 8 * 1048576 ∨ pdAt memory ≤ x ∧ x < pdAt memory + 8 * 2048 ∨
      pdpAt memory ≤ x ∧ x < pdpAt memory + 8 * 512 ∨
      pmlAt memory ≤ x ∧ x < pmlAt memory + 8 * 512 ∨
      pdpUserAt memory ≤ x ∧ x < pdpUserAt memory + 8 * 512 ∨
      pdUserAt memory ≤ x ∧ x < pdUserAt memory + 8 * 512 ∨
      pUserAt memory ≤ x ∧ x < pUserAt memory + 8 * 512 := by
    unfold pdAt pdpAt pmlAt pdpUserAt pdUserAt pUserAt
    omega
  rcases hcases with hb | ⟨ha, hb⟩ | ⟨ha, hb⟩ | ⟨ha, hb⟩ | ⟨ha, hb⟩ | ⟨ha, hb⟩ | ⟨ha, hb⟩
  · exact h.ptes.bytes_eq h'.ptes hx hb
  · exact h.pdes.bytes_eq h'.pdes ha hb
  · exact h.pdpes.bytes_eq h'.pdpes ha hb
  · exact h.pml4es.bytes_eq h'.pml4es ha hb
  · exact h.pdpUser.bytes_eq h'.pdpUser ha hb
  · exact h.pdUser.bytes_eq h'.pdUser ha hb
  · exact h.pUser.bytes_eq h'.pUser ha hb

end Tables

section Boot

variable {loadPageTable : Nat → Machine → Option String × Machine}
  {memExtraTest : Machine → Option Machine} {ustack uprogram memory memorySize : Nat}
  {s s' : Machine}

/-- The two calls at the end of `kernel_init` leave the tables. -/
theorem kernelInit_sameTables (hload : ∀ a s, SameTables memory s (loadPageTable a s).2)
    (hextra : ∀ s s', memExtraTest s = some s' → SameTables memory s s')
    (h : kernelInit loadPageTable memExtraTest ustack uprogram memory memorySize s = some s') :
    SameTables memory (kernelTables ustack uprogram memory s) s' := by
  have hsame := hload (kernelTables ustack uprogram memory s).pageTable
    (kernelTables ustack uprogram memory s)
  unfold kernelInit at h
  dsimp only at h
  generalize loadPageTable (kernelTables ustack uprogram memory s).pageTable
    (kernelTables ustack uprogram memory s) = r at h hsame
  obtain ⟨err, s₁⟩ := r
  have htest : SameTables memory s₁ s' := by
    cases err with
    | none => exact hextra _ _ h
    | some err =>
      have hprinted := hextra _ _ h
      exact hprinted
  refine ⟨htest.1.trans hsame.1, ?_⟩
  intro x hx hx'
  rw [htest.2 x hx hx', hsame.2 x hx hx']

/-- A machine with the tables of `kernel_init` translates addresses as it should. -/
theorem SameTables.translates (hargs : BootArgs ustack uprogram memory)
    (h : SameTables memory (kernelTables ustack uprogram memory s) s') :
    Tables ustack uprogram memory s'.mem ∧
      Translates s'.mem s'.pageTable ustack uprogram ∧
      UserConfined s'.mem s'.pageTable ustack uprogram := by
  have htables : Tables ustack uprogram memory s'.mem :=
    (kernelTables_tables hargs).frame (fun x hx hx' => h.2 x hx hx')
  have hroot : s'.pageTable = pmlAt memory := h.1.trans (kernelTables_pageTable hargs.memoryFits)
  rw [hroot]
  have htranslates := htables.translates hargs
  exact ⟨htables, htranslates, fun va t hcanon ht huser => htranslates.userAccess hcanon ht huser⟩

variable (loadPageTable memExtraTest memorySize)

/-- The walk from `page_table`, for every canonical address and whatever the
memory held before: in the state handed to `load_page_table` and in that in which
`kernel_init` returns. -/
theorem address_translation (hargs : BootArgs ustack uprogram memory)
    (hload : ∀ a s, SameTables memory s (loadPageTable a s).2)
    (hextra : ∀ s s', memExtraTest s = some s' → SameTables memory s s') :
    (∀ s, let built := kernelTables ustack uprogram memory s
      Translates built.mem built.pageTable ustack uprogram ∧
        UserConfined built.mem built.pageTable ustack uprogram) ∧
    (∀ s s', kernelInit loadPageTable memExtraTest ustack uprogram memory memorySize s = some s' →
      Translates s'.mem s'.pageTable ustack uprogram ∧
        UserConfined s'.mem s'.pageTable ustack uprogram) ∧
    (∀ s₁ s₂ x, memory ≤ x → x < memory + 8425472 →
      (kernelTables ustack uprogram memory s₁).mem x =
        (kernelTables ustack uprogram memory s₂).mem x) ∧
    (∀ s₁ s₂ s₁' s₂' x,
      kernelInit loadPageTable memExtraTest ustack uprogram memory memorySize s₁ = some s₁' →
      kernelInit loadPageTable memExtraTest ustack uprogram memory memorySize s₂ = some s₂' →
      memory ≤ x → x < memory + 8425472 → s₁'.mem x = s₂'.mem x) := by
  have hinit : ∀ s s',
      kernelInit loadPageTable memExtraTest ustack uprogram memory memorySize s = some s' →
      Tables ustack uprogram memory s'.mem ∧ Translates s'.mem s'.pageTable ustack uprogram ∧
        UserConfined s'.mem s'.pageTable ustack uprogram :=
    fun _ _ h => (kernelInit_sameTables hload hextra h).translates hargs
  refine ⟨?_, ?_, ?_, ?_⟩
  · intro s
    have hself : SameTables memory (kernelTables ustack uprogram memory s)
        (kernelTables ustack uprogram memory s) := ⟨rfl, fun _ _ _ => rfl⟩
    exact (hself.translates hargs).2
  · intro s s' h
    exact (hinit s s' h).2
  · intro s₁ s₂ x hx hx'
    exact (kernelTables_tables hargs).bytes_eq (kernelTables_tables hargs) hx hx'
  · intro s₁ s₂ s₁' s₂' x h₁ h₂ hx hx'
    exact (hinit s₁ s₁' h₁).1.bytes_eq (hinit s₂ s₂' h₂).1 hx hx'

/-- Tables at 1 GiB, with a loader that accepts them. -/
theorem address_translation_accepted :
    ∃ s', kernelInit (fun _ s => (none, s)) some 8192 20480 (2 ^ 30) (2 ^ 24)
        ⟨fun _ => 0xAA, 0, 0, 0, []⟩ = some s' ∧
      Reaches (word s'.mem) 4 s'.pageTable (2 ^ 64 - 1) 24575 true ∧
      walk (word s'.mem) 4 s'.pageTable (2 ^ 32) = none := by
  have hargs : BootArgs 8192 20480 (2 ^ 30) :=
    ⟨by decide, by decide, by decide, by decide, by decide, by decide, by decide⟩
  obtain ⟨-, h, -⟩ := address_translation (fun _ s => (none, s)) some (2 ^ 24) hargs
    (fun _ _ => ⟨rfl, fun _ _ _ => rfl⟩)
    (fun s s' hs => by cases hs; exact ⟨rfl, fun _ _ _ => rfl⟩)
  obtain ⟨htranslates, -⟩ := h ⟨fun _ => 0xAA, 0, 0, 0, []⟩ _ rfl
  exact ⟨_, rfl, htranslates.program (2 ^ 64 - 1) (by decide) (by decide),
    htranslates.unmapped (2 ^ 32) (Or.inl (by decide)) (by decide) (by decide)⟩

end Boot

end PageTable
end Cmpsc473
