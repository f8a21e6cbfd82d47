import Cmpsc473.PageTable.AddressTranslation

/-!
# The pointers that the user program starts with

`user_program` is the first address of the page of the program.  `user_stack` is the
last address of that page, and not the first address behind the page of the stack,
which is the same page: what the program pushes goes over its own code.
-/

namespace Cmpsc473
namespace PageTable

open PageWalk

/-- Nothing was assigned to `user_stack` and to `user_program`. -/
def SamePointers (s s' : Machine) : Prop :=
  s'.userStack = s.userStack ∧ s'.userProgram = s.userProgram

/-- The bytes below `user_stack` are those of the page of the stack, from its top down. -/
def StackAgrees (ustack : Nat) (s : Machine) : Prop :=
  ∀ k, 1 ≤ k → k ≤ 4096 →
    Reaches (word s.mem) 4 s.pageTable (s.userStack - k) (ustack - k) true

/-- The bytes from `user_program` on are those of the page of the program. -/
def ProgramAgrees (uprogram : Nat) (s : Machine) : Prop :=
  ∀ k < 4096, Reaches (word s.mem) 4 s.pageTable (s.userProgram + k) (uprogram + k) true

/-- Where the two pointers lead. -/
structure PointersLead (ustack uprogram : Nat) (s : Machine) : Prop where
  program : ProgramAgrees uprogram s
  /-- Pushes begin in the page of the program. -/
  pushes : ∀ k, 1 ≤ k → k < 4096 →
    Reaches (word s.mem) 4 s.pageTable (s.userStack - k) (uprogram + (4095 - k)) true
  /-- The last of them is the first to reach the page of the stack, at its top. -/
  last : Reaches (word s.mem) 4 s.pageTable (s.userStack - 4096) (ustack - 1) true
  /-- None of them goes where it should. -/
  misses : ∀ k, 1 ≤ k → k ≤ 4096 →
    ¬ Reaches (word s.mem) 4 s.pageTable (s.userStack - k) (ustack - k) true

section

variable {ustack uprogram memory : Nat} {s s' : Machine}

theorem Translates.pointersLead (hargs : BootArgs ustack uprogram memory)
    (h : Translates s.mem s.pageTable ustack uprogram) (hstack : s.userStack = 2 ^ 64 - 1)
    (hprogram : s.userProgram = 2 ^ 64 - 4096) : PointersLead ustack uprogram s := by
  have huprogram := hargs.uprogramAligned
  have hustack := hargs.ustackAligned
  have hpage := hargs.ustackPage
  have hpushes : ∀ k, 1 ≤ k → k < 4096 →
      Reaches (word s.mem) 4 s.pageTable (s.userStack - k) (uprogram + (4095 - k)) true := by
    intro k hk hk'
    have hreach := h.program (2 ^ 64 - 1 - k) (by omega) (by omega)
    rw [show (2 ^ 64 - 1 - k) % 4096 = 4095 - k by omega] at hreach
    rw [hstack]
    exact hreach
  have hlast : Reaches (word s.mem) 4 s.pageTable (s.userStack - 4096) (ustack - 1) true := by
    have hreach := h.stack (2 ^ 64 - 1 - 4096) (by omega) (by omega)
    rw [show ustack - 4096 + (2 ^ 64 - 1 - 4096) % 4096 = ustack - 1 by omega] at hreach
    rw [hstack]
    exact hreach
  refine { program := ?_, pushes := hpushes, last := hlast, misses := ?_ }
  · intro k hk
    have hreach := h.program (2 ^ 64 - 4096 + k) (by omega) (by omega)
    rw [show (2 ^ 64 - 4096 + k) % 4096 = k by omega] at hreach
    rw [hprogram]
    exact hreach
  · intro k hk hk' hagrees
    by_cases hlt : k < 4096
    · -- Both pages are aligned, so the two addresses differ in the page or within it.
      have heq := (hpushes k hk hlt).unique hagrees
      omega
    · obtain rfl : k = 4096 := by omega
      have heq := hlast.unique hagrees
      omega

theorem PointersLead.not_agrees (h : PointersLead ustack uprogram s) : ¬ StackAgrees ustack s :=
  fun hagrees => h.misses 1 (by decide) (by decide) (hagrees 1 (by decide) (by decide))

theorem kernelTables_pointersLead (hargs : BootArgs ustack uprogram memory) (s : Machine) :
    PointersLead ustack uprogram (kernelTables ustack uprogram memory s) := by
  have hself : SameTables memory (kernelTables ustack uprogram memory s)
      (kernelTables ustack uprogram memory s) := ⟨rfl, fun _ _ _ => rfl⟩
  exact (hself.translates hargs).2.1.pointersLead hargs rfl rfl

variable {loadPageTable : Nat → Machine → Option String × Machine}
  {memExtraTest : Machine → Option Machine} {memorySize : Nat}

theorem kernelInit_samePointers (hload : ∀ a s, SamePointers s (loadPageTable a s).2)
    (hextra : ∀ s s', memExtraTest s = some s' → SamePointers s s')
    (h : kernelInit loadPageTable memExtraTest ustack uprogram memory memorySize s = some s') :
    SamePointers (kernelTables ustack uprogram memory s) s' := by
  have hsame := hload (kernelTables ustack uprogram memory s).pageTable
    (kernelTables ustack uprogram memory s)
  unfold kernelInit at h
  dsimp only at h
  generalize loadPageTable (kernelTables ustack uprogram memory s).pageTable
    (kernelTables ustack uprogram memory s) = r at h hsame
  obtain ⟨err, s₁⟩ := r
  have htest : SamePointers s₁ s' := by
    cases err with
    | none => exact hextra _ _ h
    | some err =>
      have hprinted := hextra _ _ h
      exact hprinted
  exact ⟨htest.1.trans hsame.1, htest.2.trans hsame.2⟩

variable (loadPageTable memExtraTest memorySize)

/-- **The user stack begins in the program.** For all arguments of `kernel_init`, in the
state handed to `load_page_table` and in that in which it returns, `user_program` leads
to the program, and no push from `user_stack` goes where it should. -/
theorem user_stack_misses (hargs : BootArgs ustack uprogram memory)
    (hload : ∀ a s, SameTables memory s (loadPageTable a s).2 ∧ SamePointers s (loadPageTable a s).2)
    (hextra : ∀ s s', memExtraTest s = some s' → SameTables memory s s' ∧ SamePointers s s') :
    (∀ s, let built := kernelTables ustack uprogram memory s
      PointersLead ustack uprogram built ∧ ¬ StackAgrees ustack built) ∧
    ∀ s s', kernelInit loadPageTable memExtraTest ustack uprogram memory memorySize s = some s' →
      PointersLead ustack uprogram s' ∧ ¬ StackAgrees ustack s' := by
  constructor
  · intro s
    have hlead := kernelTables_pointersLead hargs s
    exact ⟨hlead, hlead.not_agrees⟩
  · intro s s' h
    have htables := kernelInit_sameTables (fun a s => (hload a s).1)
      (fun s s' hs => (hextra s s' hs).1) h
    obtain ⟨hstack, hprogram⟩ := kernelInit_samePointers (fun a s => (hload a s).2)
      (fun s s' hs => (hextra s s' hs).2) h
    have hlead := (htables.translates hargs).2.1.pointersLead hargs hstack hprogram
    exact ⟨hlead, hlead.not_agrees⟩

/-- Tables at 1 GiB, for a program at 20480 and a stack below 8192. -/
theorem bootArgs_example : BootArgs 8192 20480 (2 ^ 30) :=
  ⟨by decide, by decide, by decide, by decide, by decide, by decide, by decide⟩

theorem user_stack_misses_accepted :
    ∃ s', kernelInit (fun _ s => (none, s)) some 8192 20480 (2 ^ 30) (2 ^ 24)
        ⟨fun _ => 0xAA, 0, 0, 0, []⟩ = some s' ∧ PointersLead 8192 20480 s' := by
  obtain ⟨-, h⟩ := user_stack_misses (fun _ s => (none, s)) some (2 ^ 24) bootArgs_example
    (fun _ _ => ⟨⟨rfl, fun _ _ _ => rfl⟩, rfl, rfl⟩)
    (fun s s' hs => by cases hs; exact ⟨⟨rfl, fun _ _ _ => rfl⟩, rfl, rfl⟩)
  exact ⟨_, rfl, (h _ _ rfl).1⟩

/-- The first push of a program at 20480 goes to its last byte but one. -/
theorem user_stack_misses_first : ¬ StackAgrees 8192
    (kernelTables 8192 20480 (2 ^ 30) ⟨fun _ => 0, 0, 0, 0, []⟩) := by
  intro hagrees
  have hlead := kernelTables_pointersLead bootArgs_example ⟨fun _ => 0, 0, 0, 0, []⟩
  have heq := (hlead.pushes 1 (by decide) (by decide)).unique
    (hagrees 1 (by decide) (by decide))
  exact absurd heq (by decide)

end

end PageTable
end Cmpsc473
