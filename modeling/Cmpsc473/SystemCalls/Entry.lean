import Cmpsc473.Library.ByteMemory
import Cmpsc473.SystemCalls.Handler

/-!
# System calls of a user program

`syscall_entry_asm` takes a system call from the user program to `syscall_entry` and back.
It saves registers on the kernel's stack.  The compiled handler may leave anything below
them, and in the registers that a function need not restore.
-/

namespace Cmpsc473
namespace SystemCalls

open Total Console Printf

inductive Reg
  | rax | rbx | rcx | rdx | rsi | rdi | rbp | r8 | r9 | r10 | r11 | r12 | r13 | r14 | r15
deriving DecidableEq, Repr

/-- The registers that a function need not restore. -/
def Reg.scratch : Reg → Bool
  | rax | rcx | rdx | rsi | rdi | r8 | r9 | r10 | r11 => true
  | rbx | rbp | r12 | r13 | r14 | r15 => false

abbrev Regs := Reg → UInt64

structure Cpu where
  reg : Regs
  rsp : UInt64
  rip : UInt64
  rflags : UInt64

/-- The processor, the memory of the kernel's stack, the variables of the kernel that
`kernel_asm.S` names, and the console. -/
structure Machine where
  cpu : Cpu
  stack : ByteMemory.Memory
  userStack : UInt64
  kernelStack : UInt64
  kernelStatus : UInt64
  console : State

abbrev Asm := StateT Machine Option

def setReg (r : Reg) (v : UInt64) : Asm Unit :=
  modify fun m => { m with cpu.reg := Function.update m.cpu.reg r v }

def setRsp (v : UInt64) : Asm Unit := modify fun m => { m with cpu.rsp := v }

def push (v : UInt64) : Asm Unit := modify fun m =>
  { m with
    cpu.rsp := m.cpu.rsp - 8
    stack := ByteMemory.write m.stack (m.cpu.rsp - 8).toNat 8 v.toNat }

def pop : Asm UInt64 := fun m =>
  some (UInt64.ofNat (ByteMemory.read m.stack m.cpu.rsp.toNat 8),
    { m with cpu.rsp := m.cpu.rsp + 8 })

def pushq (r : Reg) : Asm Unit := fun m => push (m.cpu.reg r) m

def popq (r : Reg) : Asm Unit := do setReg r (← pop)

/-- The flag that `syscall_init` has cleared. -/
def interruptFlag : UInt64 := (1 : UInt64) <<< 9

def syscall : Asm Unit := modify fun m =>
  { m with
    cpu.reg := Function.update (Function.update m.cpu.reg .rcx m.cpu.rip) .r11 m.cpu.rflags
    cpu.rflags := m.cpu.rflags &&& ~~~interruptFlag }

def sysretq : Asm Unit := modify fun m =>
  { m with cpu.rip := m.cpu.reg .rcx, cpu.rflags := m.cpu.reg .r11 }

/-- What the compiled handler leaves behind where it may. -/
structure Left where
  reg : Regs
  rflags : UInt64
  stack : ByteMemory.Memory

def onConsole {α : Type} (f : Fb α) : Asm α := fun m =>
  (f m.console).map fun q => (q.1, { m with console := q.2 })

section Program

variable (font : Fin 2048 → UInt8) (next : UInt64) (text : Text) (left : Left)

/-- The compiled `syscall_entry`, up to its `ret`. -/
def handler : Asm Unit := do
  let reg := (← get).cpu.reg
  let status ← onConsole (syscallEntry font text (reg .rdi).toInt64 (reg .rsi).toInt64
    (reg .rdx).toInt64 (reg .rcx).toInt64 (reg .r8).toInt64 (reg .r9).toInt64)
  modify fun m => { m with
    cpu.reg := Function.update (fun r => if r.scratch then left.reg r else m.cpu.reg r) .rax
      status.toUInt64
    cpu.rflags := left.rflags
    stack := fun a => if a < m.cpu.rsp.toNat then left.stack a else m.stack a }

/-- `call syscall_entry`, with the next instruction at `next`. -/
def callHandler : Asm Unit := do
  push next
  handler font text left
  let target ← pop
  (if target ≠ next then fun _ => none else pure ())

/-- The entry, up to the comparison with 1024. -/
def enterKernel : Asm Unit := do
  modify fun m => { m with userStack := m.cpu.rsp }
  setRsp (← get).kernelStack
  [.rcx, .r11, .rdi, .rsi, .rdx, .r8, .r9, .r10].forM pushq
  setReg .rcx ((← get).cpu.reg .r10)

/-- The handler, or the value of `kernel_status`. -/
def handle : Asm Unit := do
  let m ← get
  (if m.cpu.reg .rdi = 1024 then setReg .rax m.kernelStatus
  else callHandler font next text left)

/-- What is behind the label `1`. -/
def leaveKernel : Asm Unit := do
  [.r10, .r9, .r8, .rdx, .rsi, .rdi, .r11, .rcx].forM popq
  setRsp (← get).userStack
  sysretq

def syscallEntryAsm : Asm Unit := do
  enterKernel
  handle font next text left
  leaveKernel

end Program

/-- A user program at a `SYSCALL`: its registers, the instruction behind, and the strings that
can be read.  What the handler leaves behind goes with it. -/
structure UserCall where
  cpu : Cpu
  text : Text
  left : Left

namespace UserCall

/-- The system call, and the registers when the user program goes on. -/
def serve (font : Fin 2048 → UInt8) (next : UInt64) (u : UserCall) : Asm Cpu := do
  modify fun m => { m with cpu := u.cpu }
  syscall
  syscallEntryAsm font next u.text u.left
  return (← get).cpu

/-- What `syscall_entry` is asked for. -/
def call (u : UserCall) : Call :=
  ⟨u.text, (u.cpu.reg .rdi).toInt64, (u.cpu.reg .rsi).toInt64, (u.cpu.reg .rdx).toInt64,
    (u.cpu.reg .r10).toInt64, (u.cpu.reg .r8).toInt64, (u.cpu.reg .r9).toInt64⟩

/-- The value that the user program is told. -/
def value (kernelStatus : UInt64) (u : UserCall) : UInt64 :=
  if u.cpu.reg .rdi = 1024 then kernelStatus else u.call.status.toUInt64

/-- The registers behind the call: those that `SYSCALL` itself uses are lost. -/
def resumed (kernelStatus : UInt64) (u : UserCall) : Cpu :=
  { u.cpu with
    reg := Function.update (Function.update (Function.update u.cpu.reg .rcx u.cpu.rip)
      .r11 u.cpu.rflags) .rax (u.value kernelStatus) }

end UserCall

section Stack

variable {m m' : Machine} {v : UInt64} {vs : List UInt64}

/-- The values on the stack, from its top on. -/
structure Saved (m : Machine) (vs : List UInt64) : Prop where
  below : m.cpu.rsp.toNat + 8 * vs.length < 2 ^ 64
  held : ByteMemory.Stacked 8 m.stack m.cpu.rsp.toNat (vs.map UInt64.toNat)

/-- Only the processor and the stack change. -/
structure Kept (m m' : Machine) : Prop where
  userStack : m'.userStack = m.userStack
  kernelStack : m'.kernelStack = m.kernelStack
  kernelStatus : m'.kernelStatus = m.kernelStatus
  console : m'.console = m.console

theorem Kept.refl (m : Machine) : Kept m m := ⟨rfl, rfl, rfl, rfl⟩

theorem Kept.trans {m'' : Machine} (h : Kept m m') (h' : Kept m' m'') : Kept m m'' :=
  ⟨h'.userStack.trans h.userStack, h'.kernelStack.trans h.kernelStack,
    h'.kernelStatus.trans h.kernelStatus, h'.console.trans h.console⟩

theorem push_returns (h : Saved m vs) (hroom : 8 ≤ m.cpu.rsp.toNat) :
    Returns (push v) m fun _ m' => Saved m' (v :: vs) ∧
      m'.cpu.rsp.toNat + 8 = m.cpu.rsp.toNat ∧ m'.cpu.reg = m.cpu.reg ∧ Kept m m' := by
  have hrsp : (m.cpu.rsp - 8).toNat = m.cpu.rsp.toNat - 8 :=
    UInt64.toNat_sub_of_le _ _ (UInt64.le_iff_toNat_le.mpr hroom)
  have hbelow := h.below
  rw [push, returns_modify]
  refine ⟨⟨?_, ?_⟩, ?_, rfl, ⟨rfl, rfl, rfl, rfl⟩⟩
  · show (m.cpu.rsp - 8).toNat + 8 * (vs.length + 1) < 2 ^ 64
    omega
  · show ByteMemory.Stacked 8 _ (m.cpu.rsp - 8).toNat (v.toNat :: vs.map UInt64.toNat)
    refine ByteMemory.Stacked.push ?_ v.toNat_lt
    rw [hrsp, Nat.sub_add_cancel hroom]
    exact h.held
  · show (m.cpu.rsp - 8).toNat + 8 = _
    omega

theorem pop_returns (h : Saved m (v :: vs)) :
    Returns pop m fun a m' => a = v ∧ Saved m' vs ∧ m'.cpu.reg = m.cpu.reg ∧ Kept m m' := by
  obtain ⟨hbelow, hread, hheld⟩ := h
  rw [List.length_cons] at hbelow
  have hrsp : (m.cpu.rsp + 8).toNat = m.cpu.rsp.toNat + 8 := by
    rw [UInt64.toNat_add]
    exact Nat.mod_eq_of_lt (show m.cpu.rsp.toNat + 8 < 2 ^ 64 by omega)
  refine ⟨_, _, rfl, ?_, ⟨?_, ?_⟩, rfl, ⟨rfl, rfl, rfl, rfl⟩⟩
  · rw [hread, UInt64.ofNat_toNat]
  · show (m.cpu.rsp + 8).toNat + 8 * vs.length < 2 ^ 64
    omega
  · show ByteMemory.Stacked 8 _ (m.cpu.rsp + 8).toNat _
    rw [hrsp]
    exact hheld

theorem pushes_returns (rs : List Reg) (h : Saved m vs) (hroom : 8 * rs.length ≤ m.cpu.rsp.toNat) :
    Returns (rs.forM pushq) m fun _ m' => Saved m' ((rs.map m.cpu.reg).reverse ++ vs) ∧
      m'.cpu.rsp.toNat + 8 * rs.length = m.cpu.rsp.toNat ∧ m'.cpu.reg = m.cpu.reg ∧
      Kept m m' := by
  induction rs generalizing m vs with
  | nil => exact returns_pure.mpr ⟨h, rfl, rfl, Kept.refl m⟩
  | cons r rs ih =>
    rw [List.length_cons] at hroom ⊢
    show Returns (pushq r >>= fun _ => rs.forM pushq) m _
    rw [returns_bind]
    refine (push_returns h (by omega)).mono ?_
    rintro _ m₁ ⟨hsaved, hrsp, hreg, hkept⟩
    refine (ih hsaved (by omega)).mono ?_
    rintro _ m' ⟨hsaved', hrsp', hreg', hkept'⟩
    refine ⟨?_, by omega, hreg'.trans hreg, hkept.trans hkept'⟩
    rw [List.map_cons, List.reverse_cons, List.append_assoc, ← hreg]
    rw [hreg] at hsaved' ⊢
    exact hsaved'

/-- What has been saved comes back to the registers. -/
theorem pops_returns (f : Regs) (rs : List Reg) (h : Saved m (rs.map f ++ vs)) :
    Returns (rs.forM popq) m fun _ m' =>
      (∀ r, m'.cpu.reg r = if r ∈ rs then f r else m.cpu.reg r) ∧ Kept m m' := by
  induction rs generalizing m with
  | nil => exact returns_pure.mpr ⟨fun r => (if_neg List.not_mem_nil).symm, Kept.refl m⟩
  | cons r rs ih =>
    show Returns (popq r >>= fun _ => rs.forM popq) m _
    rw [returns_bind, popq, returns_bind]
    refine (pop_returns h).mono ?_
    rintro _ m₁ ⟨rfl, hsaved, hreg, hkept⟩
    rw [setReg, returns_modify]
    have hsaved₁ : Saved { m₁ with cpu.reg := Function.update m₁.cpu.reg r (f r) }
        (rs.map f ++ vs) := ⟨hsaved.below, hsaved.held⟩
    refine (ih hsaved₁).mono ?_
    rintro _ m' ⟨hreg', hkept'⟩
    refine ⟨fun q => ?_, hkept.trans ⟨hkept'.1, hkept'.2, hkept'.3, hkept'.4⟩⟩
    rw [hreg' q]
    by_cases hq : q ∈ rs
    · rw [if_pos hq, if_pos (List.mem_cons_of_mem r hq)]
    · rw [if_neg hq]
      show Function.update m₁.cpu.reg r (f r) q = _
      by_cases hqr : q = r
      · rw [hqr, Function.update_self, if_pos List.mem_cons_self]
      · rw [Function.update_of_ne hqr, hreg, if_neg]
        exact fun hmem => (List.mem_cons.mp hmem).elim hqr hq

end Stack

/-! ## One call -/

section Calls

variable {font : Fin 2048 → UInt8} {width height : Nat} {p : Page Int8} {m : Machine}
  {vs : List UInt64} (next : UInt64)

theorem get_bind {α : Type} (f : Machine → Asm α) : (get >>= f) m = f m m := rfl

theorem onConsole_none {α : Type} {f : Fb α} (h : f m.console = none) : onConsole f m = none := by
  rw [onConsole, h]
  rfl

theorem returns_onConsole {α : Type} {f : Fb α} {Q : α → Machine → Prop}
    (h : Returns f m.console fun a c => Q a { m with console := c }) :
    Returns (onConsole f) m Q := by
  obtain ⟨a, c, hrun, hQ⟩ := h
  refine ⟨a, _, ?_, hQ⟩
  rw [onConsole, hrun]
  rfl

/-- The kernel is entered with the registers saved and the arguments in their places. -/
theorem enterKernel_returns (hroom : 72 ≤ m.kernelStack.toNat) :
    Returns enterKernel m fun _ m' =>
      Saved m' ([Reg.r10, .r9, .r8, .rdx, .rsi, .rdi, .r11, .rcx].map m.cpu.reg) ∧
      8 ≤ m'.cpu.rsp.toNat ∧ m'.cpu.reg = Function.update m.cpu.reg .rcx (m.cpu.reg .r10) ∧
      Kept { m with userStack := m.cpu.rsp } m' := by
  rw [enterKernel, returns_bind, returns_modify, returns_bind, returns_get, returns_bind, setRsp,
    returns_modify, returns_bind]
  have hstart : Saved { m with userStack := m.cpu.rsp, cpu.rsp := m.kernelStack } [] :=
    ⟨m.kernelStack.toNat_lt, trivial⟩
  refine (pushes_returns [.rcx, .r11, .rdi, .rsi, .rdx, .r8, .r9, .r10] hstart
    (show 64 ≤ m.kernelStack.toNat by omega)).mono ?_
  rintro _ m₁ ⟨hsaved, hrsp, hreg, hkept⟩
  have hrsp₁ : m₁.cpu.rsp.toNat + 64 = m.kernelStack.toNat := hrsp
  rw [returns_bind, returns_get, setReg, returns_modify, hreg]
  exact ⟨⟨hsaved.below, hsaved.held⟩, show 8 ≤ m₁.cpu.rsp.toNat by omega, rfl,
    hkept.1, hkept.2, hkept.3, hkept.4⟩

/-- The handler prints what it is asked for and returns to what has been saved. -/
theorem callHandler_returns (hwidth : 8 ≤ width) (hheight : 32 ≤ height)
    (hfits : width * height < 2 ^ 32) (h : Shows font width height p m.console)
    (hs : Saved m vs) (hroom : 8 ≤ m.cpu.rsp.toNat) (left : Left) {call : Call}
    (hcall : call.run font = syscallEntry font call.memory (m.cpu.reg .rdi).toInt64
      (m.cpu.reg .rsi).toInt64 (m.cpu.reg .rdx).toInt64 (m.cpu.reg .rcx).toInt64
      (m.cpu.reg .r8).toInt64 (m.cpu.reg .r9).toInt64) :
    (call.printed = none ∧ callHandler font next call.memory left m = none) ∨
      ∃ out, call.printed = some out ∧
        Returns (callHandler font next call.memory left) m fun _ m' => Saved m' vs ∧
          m'.cpu.reg .rax = call.status.toUInt64 ∧
          (∀ r, r.scratch = false → m'.cpu.reg r = m.cpu.reg r) ∧
          Shows font width height (onPage width p out) m'.console ∧
          Kept { m with console := m'.console } m' := by
  obtain ⟨_, m₁, hpush, hsaved, hrsp, hreg, hkept⟩ := push_returns (v := next) hs hroom
  have hrun : syscallEntry font call.memory (m₁.cpu.reg .rdi).toInt64 (m₁.cpu.reg .rsi).toInt64
      (m₁.cpu.reg .rdx).toInt64 (m₁.cpu.reg .rcx).toInt64 (m₁.cpu.reg .r8).toInt64
      (m₁.cpu.reg .r9).toInt64 = call.run font := by
    rw [hreg, hcall]
  have h₁ : Shows font width height p m₁.console := hkept.console ▸ h
  rcases call.run_shows hwidth hheight hfits h₁ with ⟨hnone, hfails⟩ | ⟨out, hout, hreturns⟩
  · refine Or.inl ⟨hnone, ?_⟩
    rw [callHandler, bind_of_some hpush]
    refine bind_of_none ?_
    rw [handler, get_bind, hrun]
    exact bind_of_none (onConsole_none hfails)
  · refine Or.inr ⟨out, hout, ?_⟩
    rw [callHandler, returns_bind, returns_of_eq hpush, returns_bind, handler, returns_bind,
      returns_get, returns_bind, hrun]
    refine returns_onConsole (hreturns.mono ?_)
    rintro status c ⟨rfl, hshows⟩
    rw [returns_modify, returns_bind]
    generalize hm₂ : ({ m₁ with
      console := c
      cpu.reg := Function.update (fun r => if r.scratch then left.reg r else m₁.cpu.reg r) .rax
        call.status.toUInt64
      cpu.rflags := left.rflags
      stack := fun a => if a < m₁.cpu.rsp.toNat then left.stack a else m₁.stack a } : Machine) = m₂
    have hsaved₂ : Saved m₂ (next :: vs) := by
      rw [← hm₂]
      refine ⟨hsaved.below, hsaved.held.congr fun a ha => ?_⟩
      exact if_neg (Nat.not_lt.mpr ha)
    refine (pop_returns hsaved₂).mono ?_
    rintro _ m' ⟨rfl, hsaved', hreg', hkept'⟩
    have hregs : m₂.cpu.reg = Function.update (fun r => if r.scratch then left.reg r
        else m₁.cpu.reg r) .rax call.status.toUInt64 := by rw [← hm₂]
    have hconsole : m₂.console = c := by rw [← hm₂]
    rw [if_neg (not_not.mpr rfl), returns_pure, hreg', hkept'.console, hregs, hconsole]
    refine ⟨hsaved', Function.update_self .., fun r hr => ?_, hshows, ?_⟩
    · have hrax : r ≠ .rax := fun heq => by rw [heq] at hr; cases hr
      rw [Function.update_of_ne hrax, if_neg (by rw [hr]; decide), hreg]
    · rw [← hm₂] at hkept'
      exact ⟨hkept'.userStack.trans hkept.userStack, hkept'.kernelStack.trans hkept.kernelStack,
        hkept'.kernelStatus.trans hkept.kernelStatus, hkept'.console⟩

/-- The registers that the kernel is entered with. -/
def UserCall.entered (u : UserCall) : Regs :=
  Function.update (Function.update u.cpu.reg .rcx u.cpu.rip) .r11 u.cpu.rflags

/-- The handler, or the value of `kernel_status`, for a user program. -/
theorem handle_shows (hwidth : 8 ≤ width) (hheight : 32 ≤ height)
    (hfits : width * height < 2 ^ 32) (h : Shows font width height p m.console)
    (hs : Saved m vs) (hroom : 8 ≤ m.cpu.rsp.toNat) (u : UserCall)
    (hreg : m.cpu.reg = Function.update u.entered .rcx (u.entered .r10)) :
    (u.call.printed = none ∧ handle font next u.text u.left m = none) ∨
      ∃ out, u.call.printed = some out ∧
        Returns (handle font next u.text u.left) m fun _ m' => Saved m' vs ∧
          m'.cpu.reg .rax = u.value m.kernelStatus ∧
          (∀ r, r.scratch = false → m'.cpu.reg r = m.cpu.reg r) ∧
          Shows font width height (onPage width p out) m'.console ∧
          Kept { m with console := m'.console } m' := by
  have hrdi : m.cpu.reg .rdi = u.cpu.reg .rdi := by rw [hreg]; rfl
  by_cases hn : u.cpu.reg .rdi = 1024
  · have hcall : u.call.n = 1024 := congrArg UInt64.toInt64 hn
    have hprinted : u.call.printed = some [] := if_neg (by rw [hcall]; decide)
    have hvalue : u.value m.kernelStatus = m.kernelStatus := if_pos hn
    refine Or.inr ⟨[], hprinted, ?_⟩
    rw [handle, returns_bind, returns_get, if_pos (hrdi.trans hn), setReg, returns_modify, hvalue]
    refine ⟨⟨hs.below, hs.held⟩, ?_, fun r hr => ?_, h, rfl, rfl, rfl, rfl⟩
    · exact Function.update_self Reg.rax m.kernelStatus m.cpu.reg
    · have hrax : r ≠ .rax := fun heq => by rw [heq] at hr; cases hr
      exact Function.update_of_ne hrax _ _
  · have hvalue : u.value m.kernelStatus = u.call.status.toUInt64 := if_neg hn
    have hrun : u.call.run font = syscallEntry font u.call.memory (m.cpu.reg .rdi).toInt64
        (m.cpu.reg .rsi).toInt64 (m.cpu.reg .rdx).toInt64 (m.cpu.reg .rcx).toInt64
        (m.cpu.reg .r8).toInt64 (m.cpu.reg .r9).toInt64 := by
      rw [hreg]
      rfl
    have hhandle : handle font next u.text u.left m =
        callHandler font next u.call.memory u.left m := by
      rw [handle, get_bind, if_neg (hrdi ▸ hn)]
      rfl
    rcases callHandler_returns next hwidth hheight hfits h hs hroom u.left hrun with
      ⟨hnone, hfails⟩ | ⟨out, hout, hreturns⟩
    · exact Or.inl ⟨hnone, hhandle.trans hfails⟩
    · refine Or.inr ⟨out, hout, ?_⟩
      rw [Returns, hhandle, hvalue]
      exact hreturns

/-- Every register is restored, kept by the handler, or the result. -/
theorem scratch_eq_false {r : Reg} (hr : r ∉ [Reg.r10, .r9, .r8, .rdx, .rsi, .rdi, .r11, .rcx])
    (hrax : r ≠ .rax) : r.scratch = false := by
  cases r <;> first | rfl | exact absurd rfl hrax | exact absurd (by decide) hr

theorem leaveKernel_returns (u : UserCall) {value : UInt64} (hstack : m.userStack = u.cpu.rsp)
    (hs : Saved m ([Reg.r10, .r9, .r8, .rdx, .rsi, .rdi, .r11, .rcx].map u.entered))
    (hrax : m.cpu.reg .rax = value)
    (hkept : ∀ r, r.scratch = false → m.cpu.reg r = u.cpu.reg r) :
    Returns leaveKernel m fun _ m' =>
      m'.cpu = { u.cpu with reg := Function.update u.entered .rax value } ∧ Kept m m' := by
  rw [leaveKernel, returns_bind]
  rw [← List.append_nil (List.map _ _)] at hs
  refine (pops_returns u.entered _ hs).mono ?_
  rintro _ m₁ ⟨hreg, hsame⟩
  have hregs : m₁.cpu.reg = Function.update u.entered .rax value := by
    funext r
    rw [hreg r]
    by_cases hr : r = .rax
    · rw [hr, Function.update_self, if_neg (by decide), hrax]
    · rw [Function.update_of_ne hr]
      split
      · rfl
      · rename_i hmem
        have hscratch := scratch_eq_false hmem hr
        have hrcx : r ≠ .rcx := fun heq => by rw [heq] at hscratch; cases hscratch
        have hr11 : r ≠ .r11 := fun heq => by rw [heq] at hscratch; cases hscratch
        rw [hkept r hscratch, UserCall.entered, Function.update_of_ne hr11,
          Function.update_of_ne hrcx]
  rw [returns_bind, returns_get, returns_bind, setRsp, returns_modify, sysretq, returns_modify]
  refine ⟨?_, hsame.1, hsame.2, hsame.3, hsame.4⟩
  show Cpu.mk m₁.cpu.reg m₁.userStack (m₁.cpu.reg .rcx) (m₁.cpu.reg .r11) = _
  rw [hregs, hsame.userStack, hstack]
  rfl

/-- **One call** of a user program. -/
theorem serve_shows (hwidth : 8 ≤ width) (hheight : 32 ≤ height)
    (hfits : width * height < 2 ^ 32) (h : Shows font width height p m.console)
    (hroom : 72 ≤ m.kernelStack.toNat) (u : UserCall) :
    (u.call.printed = none ∧ u.serve font next m = none) ∨
      ∃ out, u.call.printed = some out ∧ Returns (u.serve font next) m fun cpu m' =>
        cpu = u.resumed m.kernelStatus ∧ Shows font width height (onPage width p out) m'.console ∧
          m'.kernelStack = m.kernelStack ∧ m'.kernelStatus = m.kernelStatus := by
  generalize hm₁ : ({ m with
    cpu := { u.cpu with
      reg := u.entered
      rflags := u.cpu.rflags &&& ~~~interruptFlag } } : Machine) = m₁
  have hroom₁ : 72 ≤ m₁.kernelStack.toNat := hm₁ ▸ hroom
  obtain ⟨_, m₂, henter, hsaved, hrsp, hreg, hkept⟩ := enterKernel_returns hroom₁
  have hserve : u.serve font next m = (handle font next u.text u.left >>= fun _ =>
      leaveKernel >>= fun _ => get >>= fun m => pure m.cpu : Asm Cpu) m₂ := by
    show (syscallEntryAsm font next u.text u.left >>= fun _ => get >>= fun m => pure m.cpu :
      Asm Cpu) _ = _
    rw [syscallEntryAsm, bind_assoc]
    show (enterKernel >>= _) ({ m with
      cpu := { u.cpu with
        reg := u.entered
        rflags := u.cpu.rflags &&& ~~~interruptFlag } } : Machine) = _
    rw [hm₁, bind_of_some henter, bind_assoc]
  have hentered : m₁.cpu.reg = u.entered := by rw [← hm₁]
  rw [hentered] at hsaved hreg
  have h₂ : Shows font width height p m₂.console := by
    rw [hkept.console, ← hm₁]
    exact h
  have hstatus : m₂.kernelStatus = m.kernelStatus := hkept.kernelStatus.trans (by rw [← hm₁])
  have hstack : m₂.kernelStack = m.kernelStack := hkept.kernelStack.trans (by rw [← hm₁])
  have huser : m₂.userStack = u.cpu.rsp := hkept.userStack.trans (by rw [← hm₁])
  rcases handle_shows next hwidth hheight hfits h₂ hsaved hrsp u hreg with
    ⟨hnone, hfails⟩ | ⟨out, hout, hreturns⟩
  · exact Or.inl ⟨hnone, by rw [hserve]; exact bind_of_none hfails⟩
  · refine Or.inr ⟨out, hout, ?_⟩
    rw [Returns, hserve]
    show Returns _ m₂ _
    rw [returns_bind]
    refine hreturns.mono ?_
    rintro _ m₃ ⟨hsaved₃, hrax, hsame, hshows, hkept₃⟩
    rw [hstatus] at hrax
    have hkeeps : ∀ r, r.scratch = false → m₃.cpu.reg r = u.cpu.reg r := by
      intro r hr
      rw [hsame r hr, hreg]
      cases r <;> first | rfl | cases hr
    rw [returns_bind]
    refine (leaveKernel_returns u (hkept₃.userStack.trans huser) hsaved₃ hrax hkeeps).mono ?_
    rintro _ m' ⟨hcpu, hkept'⟩
    rw [returns_bind, returns_get, returns_pure]
    refine ⟨hcpu, hkept'.console ▸ hshows, ?_, ?_⟩
    · exact hkept'.kernelStack.trans (hkept₃.kernelStack.trans hstack)
    · exact hkept'.kernelStatus.trans (hkept₃.kernelStatus.trans hstatus)

theorem serves_show (hwidth : 8 ≤ width) (hheight : 32 ≤ height)
    (hfits : width * height < 2 ^ 32) (h : Shows font width height p m.console)
    (hroom : 72 ≤ m.kernelStack.toNat) (calls : List UserCall) :
    (calls.mapM (fun u => u.call.printed) = none ∧
      calls.mapM (UserCall.serve font next) m = none) ∨
      ∃ outs, calls.mapM (fun u => u.call.printed) = some outs ∧
        Returns (calls.mapM (UserCall.serve font next)) m fun cpus m' =>
          cpus = calls.map (UserCall.resumed m.kernelStatus) ∧
          Shows font width height (onPage width p outs.flatten) m'.console ∧
          m'.kernelStack = m.kernelStack ∧ m'.kernelStatus = m.kernelStatus := by
  induction calls generalizing p m with
  | nil =>
    refine Or.inr ⟨[], rfl, ?_⟩
    rw [List.mapM_nil, returns_pure]
    exact ⟨rfl, h, rfl, rfl⟩
  | cons u calls ih =>
    rw [List.mapM_cons, List.mapM_cons]
    rcases serve_shows next hwidth hheight hfits h hroom u with
      ⟨hout, hrun⟩ | ⟨out, hout, cpu, m₁, hrun, rfl, h₁, hstack, hstatus⟩
    · exact Or.inl ⟨by rw [hout]; rfl, bind_of_none hrun⟩
    · rw [hout, bind_of_some hrun]
      rcases ih h₁ (hstack ▸ hroom) with ⟨hnone, hrest⟩ | ⟨outs, houts, hrest⟩
      · exact Or.inl ⟨by rw [hnone]; rfl, bind_of_none hrest⟩
      · refine Or.inr ⟨out :: outs, by rw [houts]; rfl, ?_⟩
        rw [returns_bind, returns_of_eq hrun, returns_bind]
        refine hrest.mono ?_
        rintro _ m' ⟨rfl, hshows, hstack', hstatus'⟩
        refine returns_pure.mpr ⟨?_, ?_, hstack'.trans hstack, hstatus'.trans hstatus⟩
        · rw [List.map_cons, hstatus]
        · rw [List.flatten_cons, onPage_append]
          exact hshows

/-- **The system calls of a user program**, with the way into the kernel and back.  As long as
the strings it asks for can be read they come to stand on the page.  The program goes on
behind each call with all of its registers, but those that `SYSCALL` uses and the result,
whatever the handler has done to them, and the kernel's stack is where it was. -/
theorem user_calls_return (hwidth : 8 ≤ width) (hheight : 32 ≤ height)
    (hfits : width * height < 2 ^ 32) (hsize : m.console.fb.size = width * height)
    (hroom : 72 ≤ m.kernelStack.toNat) (calls : List UserCall) :
    (∀ outs, calls.mapM (fun u => u.call.printed) = some outs →
      Returns (onConsole (fbInit font width height) >>= fun _ =>
          calls.mapM (UserCall.serve font next)) m fun cpus m' =>
        cpus = calls.map (UserCall.resumed m.kernelStatus) ∧
          Shows font width height (Page.writeAll 10 (width / 8) {}
            ((helloStatement ++ outs.flatten.map UInt8.toInt8).filterMap shown)) m'.console ∧
          m'.kernelStack = m.kernelStack ∧ m'.kernelStatus = m.kernelStatus) ∧
      (calls.mapM (fun u => u.call.printed) = none →
        (onConsole (fbInit font width height) >>= fun _ =>
          calls.mapM (UserCall.serve font next)) m = none) := by
  have hstart : Returns (fbInit font width height) m.console fun _ c =>
      Shows font width height (Page.writeAll 10 (width / 8) {} (helloStatement.filterMap shown)) c :=
    fbInit_shows hwidth hheight hfits hsize
  have hinit : Returns (onConsole (fbInit font width height)) m fun _ m' =>
      Shows font width height (Page.writeAll 10 (width / 8) {} (helloStatement.filterMap shown))
        m'.console ∧ m'.kernelStack = m.kernelStack ∧ m'.kernelStatus = m.kernelStatus :=
    returns_onConsole (hstart.mono fun _ _ hshows => ⟨hshows, rfl, rfl⟩)
  obtain ⟨_, m₁, hrun₁, h₁, hstack, hstatus⟩ := hinit
  simp only [returns_bind, returns_of_eq hrun₁, bind_of_some hrun₁]
  rw [← hstack, ← hstatus]
  rcases serves_show next hwidth hheight hfits h₁ (hstack ▸ hroom) calls with
    ⟨hnone, hrun⟩ | ⟨outs, houts, hrun⟩
  · rw [hnone]
    exact ⟨fun _ heq => absurd heq (by simp), fun _ => hrun⟩
  · rw [houts]
    refine ⟨fun outs' heq => ?_, fun heq => absurd heq (by simp)⟩
    cases heq
    rw [List.filterMap_append, Page.writeAll_append]
    exact hrun

/-- A user program that prints a string and asks for `kernel_status`. -/
def twoUserCalls : List UserCall :=
  let left : Left := ⟨fun _ => 3, 0, fun _ => 9⟩
  [⟨⟨fun | .rdi => 1 | .rsi => 8 | _ => 5, 800, 40, 2⟩, fun _ => chars "100%s" ++ [0], left⟩,
    ⟨⟨fun | .rdi => 1024 | _ => 6, 792, 44, 2⟩, fun _ => [], left⟩]

def smallMachine : Machine :=
  ⟨⟨fun _ => 0, 4096, 0, 0⟩, fun _ => 0, 0, 4096, 2, ⟨Array.replicate 512 7, 0, 0, 0, 0, 0⟩⟩

theorem user_calls_return_two : Returns (onConsole (fbInit (fun _ => 0xAA) 16 32) >>= fun _ =>
    twoUserCalls.mapM (UserCall.serve (fun _ => 0xAA) 64)) smallMachine fun cpus m' =>
      cpus = twoUserCalls.map (UserCall.resumed 2) ∧
        Shows (fun _ => 0xAA) 16 32 (Page.writeAll 10 (16 / 8) {}
          ((helloStatement ++ (chars "100%s").map UInt8.toInt8).filterMap shown)) m'.console ∧
        m'.kernelStack = 4096 ∧ m'.kernelStatus = 2 := by
  have hsize : smallMachine.console.fb.size = 16 * 32 := Array.size_replicate
  have hroom : 72 ≤ smallMachine.kernelStack.toNat := by decide
  exact (user_calls_return 64 (by decide) (by decide) (by decide) hsize hroom twoUserCalls).1
    [chars "100%s", []] (by decide)

end Calls

end SystemCalls
end Cmpsc473
