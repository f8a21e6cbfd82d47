import Cmpsc473.Library.WordTable

/-!
# The program `kernel_code.c`

`kernel_init` carves seven arrays of `struct pte` out of the memory that it is
given: the page tables, page directories, directory pointers and top table of the
kernel, then the same three lower levels for the user program.  A pointer is its
address; arithmetic on pointers is modulo `2 ^ 64`.
-/

namespace Cmpsc473
namespace PageTable

open ByteMemory BitField WordTable

namespace Pte

def p : Field := ⟨0, 1⟩
def rw : Field := ⟨1, 1⟩
def us : Field := ⟨2, 1⟩
def pwt : Field := ⟨3, 1⟩
def pcd : Field := ⟨4, 1⟩
def a : Field := ⟨5, 1⟩
def ign : Field := ⟨6, 1⟩
def mbz1 : Field := ⟨7, 1⟩
def mbz2 : Field := ⟨8, 1⟩
def avl : Field := ⟨9, 3⟩
def pageAddr : Field := ⟨12, 40⟩
def avail : Field := ⟨52, 7⟩
def pke : Field := ⟨59, 4⟩
def nonexec : Field := ⟨63, 1⟩

end Pte

/-- The address of element `i` of an array of `struct pte`. -/
def elem (arr i : Nat) : Nat := (arr + 8 * i) % 2 ^ 64

/-- The fourteen assignments that the bodies of the loops make, in their order. -/
def entryFields (p rw us pageAddr : Nat) : List (Field × Nat) :=
  [(Pte.p, p), (Pte.rw, rw), (Pte.us, us), (Pte.pwt, 0), (Pte.pcd, 0), (Pte.a, 0),
    (Pte.ign, 0), (Pte.mbz1, 0), (Pte.mbz2, 0), (Pte.avl, 0), (Pte.pageAddr, pageAddr),
    (Pte.avail, 0), (Pte.pke, 0), (Pte.nonexec, 0)]

/-- The four assignments that map a user page or table. -/
def userFields (pageAddr : Nat) : List (Field × Nat) :=
  [(Pte.p, 1), (Pte.rw, 1), (Pte.us, 1), (Pte.pageAddr, pageAddr)]

def kernelPtes (p : Nat) : Memory → Memory :=
  forLoop (fun i => assignFields (elem p i) (entryFields 1 1 0 i)) 1048576

def kernelPdes (p pd : Nat) : Memory → Memory :=
  forLoop (fun i =>
    let start := elem p (512 * i)
    assignFields (elem pd i) (entryFields 1 1 0 (start / 2 ^ 12))) 2048

def kernelPdpes (pd pdp : Nat) : Memory → Memory :=
  forLoop (fun i =>
    let start2 := elem pd (512 * i)
    if i < 4 then assignFields (elem pdp i) (entryFields 1 1 0 (start2 / 2 ^ 12))
    else assignFields (elem pdp i) (entryFields 0 0 0 0)) 512

def kernelPml4es (pdp pml : Nat) : Memory → Memory :=
  forLoop (fun i =>
    let start3 := elem pdp (512 * i)
    if i < 1 then assignFields (elem pml i) (entryFields 1 1 0 (start3 / 2 ^ 12))
    else assignFields (elem pml i) (entryFields 0 0 0 0)) 512

/-- The loops over `pdp_user`, `pd_user` and `p_user`. -/
def clearUser (arr : Nat) : Memory → Memory :=
  forLoop (fun i => assignFields (elem arr i) (entryFields 0 0 0 0)) 512

/-- Every entry for the user program starts as zero. -/
def clearUsers (pdpUser pdUser pUser : Nat) (m : Memory) : Memory :=
  let m := clearUser pdpUser m
  let m := clearUser pdUser m
  clearUser pUser m

def mapUser (arr i addr : Nat) : Memory → Memory :=
  assignFields (elem arr i) (userFields (addr / 2 ^ 12))

/-- "setting permissions and mapping page addresses" -/
def mapUsers (ustack uprogram pml pdpUser pdUser pUser : Nat) (m : Memory) : Memory :=
  let m := mapUser pml 511 pdpUser m
  let m := mapUser pdpUser 511 pdUser m
  let m := mapUser pdUser 511 pUser m
  let m := mapUser pUser 511 uprogram m
  mapUser pUser 510 ((ustack + 2 ^ 64 - 4096) % 2 ^ 64) m

/-- The physical memory, the variables of `kernel_code.c` and what was printed. -/
structure Machine where
  mem : Memory
  pageTable : Nat
  userStack : Nat
  userProgram : Nat
  console : List String

/-- `kernel_init` up to the call of `load_page_table`. -/
def kernelTables (ustack uprogram memory : Nat) (s : Machine) : Machine :=
  let p := memory
  let m := kernelPtes p s.mem
  let pd := elem p 1048576
  let m := kernelPdes p pd m
  let pdp := elem pd 2048
  let m := kernelPdpes pd pdp m
  let pml := elem pdp 512
  let m := kernelPml4es pdp pml m
  let pdpUser := elem pml 512
  let pdUser := elem pdpUser 512
  let pUser := elem pdUser 512
  let m := clearUsers pdpUser pdUser pUser m
  let m := mapUsers ustack uprogram pml pdpUser pdUser pUser m
  { s with
    mem := m
    pageTable := pml
    userStack := 2 ^ 64 - 1
    userProgram := 2 ^ 64 - 4096 }

section

variable (loadPageTable : Nat → Machine → Option String × Machine)
  (memExtraTest : Machine → Option Machine)

/-- `kernel_init`; `none` when `mem_extra_test` never returns. -/
def kernelInit (ustack uprogram memory _memorySize : Nat) (s : Machine) : Option Machine :=
  let s := kernelTables ustack uprogram memory s
  match loadPageTable s.pageTable s with
  | (some err, s) => memExtraTest { s with console := s.console ++ ["ERROR: " ++ err ++ "\n"] }
  | (none, s) => memExtraTest s

end

end PageTable
end Cmpsc473
