import Cmpsc473.PageTable.KernelInit

/-!
# The tables that `kernel_init` builds

The seven tables lie one after another from `memory` on, in 8425472 bytes.
`Tables` says which word each of their entries is, and `kernelTables_tables` that
`kernel_init` leaves them so whatever the memory held before.
-/

namespace Cmpsc473
namespace PageTable

open ByteMemory BitField WordTable

/-- What the boot code promises about the arguments of `kernel_init`. -/
structure BootArgs (ustack uprogram memory : Nat) : Prop where
  memoryAligned : memory % 4096 = 0
  memoryFits : memory + 8425472 ≤ 2 ^ 52
  uprogramAligned : uprogram % 4096 = 0
  uprogramFits : uprogram < 2 ^ 52
  ustackAligned : ustack % 4096 = 0
  ustackPage : 4096 ≤ ustack
  ustackFits : ustack < 2 ^ 52

/-- An entry for supervisor pages, present and writable. -/
def kernelWord (page : Nat) : Nat := 3 + 2 ^ 12 * page

/-- An entry for user pages, present and writable. -/
def userWord (page : Nat) : Nat := 7 + 2 ^ 12 * page

/-! The addresses of the tables behind the first. -/

def pdAt (memory : Nat) : Nat := memory + 8388608
def pdpAt (memory : Nat) : Nat := memory + 8404992
def pmlAt (memory : Nat) : Nat := memory + 8409088
def pdpUserAt (memory : Nat) : Nat := memory + 8413184
def pdUserAt (memory : Nat) : Nat := memory + 8417280
def pUserAt (memory : Nat) : Nat := memory + 8421376

structure Tables (ustack uprogram memory : Nat) (m : Memory) : Prop where
  ptes : Holds m memory 1048576 kernelWord
  pdes : Holds m (pdAt memory) 2048 fun i => kernelWord (memory / 4096 + i)
  pdpes : Holds m (pdpAt memory) 512 fun i =>
    if i < 4 then kernelWord (pdAt memory / 4096 + i) else 0
  pml4es : Holds m (pmlAt memory) 512 (Function.update
    (fun i => if i < 1 then kernelWord (pdpAt memory / 4096 + i) else 0)
    511 (userWord (pdpUserAt memory / 4096)))
  pdpUser : Holds m (pdpUserAt memory) 512
    (Function.update (fun _ => 0) 511 (userWord (pdUserAt memory / 4096)))
  pdUser : Holds m (pdUserAt memory) 512
    (Function.update (fun _ => 0) 511 (userWord (pUserAt memory / 4096)))
  pUser : Holds m (pUserAt memory) 512 (Function.update (Function.update (fun _ => 0)
    511 (userWord (uprogram / 4096))) 510 (userWord ((ustack - 4096) / 4096)))

variable {ustack uprogram memory arr i : Nat} {m : Memory}

theorem elem_eq (h : arr + 8 * i < 2 ^ 64) : elem arr i = arr + 8 * i := Nat.mod_eq_of_lt h

/-- The fourteen assignments reach every bit of an entry. -/
theorem entryFields_adjacent (p rw us page : Nat) : Adjacent 0 (entryFields p rw us page) 64 := by
  simp [entryFields, Adjacent, Field.hi, Pte.p, Pte.rw, Pte.us, Pte.pwt, Pte.pcd, Pte.a, Pte.ign,
    Pte.mbz1, Pte.mbz2, Pte.avl, Pte.pageAddr, Pte.avail, Pte.pke, Pte.nonexec]

theorem entryFields_hi (p rw us page : Nat) :
    ∀ fv ∈ entryFields p rw us page, fv.1.hi ≤ 64 := by
  simp [entryFields, Field.hi, Pte.p, Pte.rw, Pte.us, Pte.pwt, Pte.pcd, Pte.a, Pte.ign,
    Pte.mbz1, Pte.mbz2, Pte.avl, Pte.pageAddr, Pte.avail, Pte.pke, Pte.nonexec]

theorem userFields_hi (page : Nat) : ∀ fv ∈ userFields page, fv.1.hi ≤ 64 := by
  simp [userFields, Field.hi, Pte.p, Pte.rw, Pte.us, Pte.pageAddr]

theorem value_entryFields (p rw us page : Nat) : value (entryFields p rw us page) =
    p % 2 + rw % 2 * 2 + us % 2 * 4 + page % 2 ^ 40 * 2 ^ 12 := by
  simp [value, entryFields, Pte.p, Pte.rw, Pte.us, Pte.pwt, Pte.pcd, Pte.a, Pte.ign,
    Pte.mbz1, Pte.mbz2, Pte.avl, Pte.pageAddr, Pte.avail, Pte.pke, Pte.nonexec, Nat.add_assoc]

theorem kernelEntry_stores {page : Nat} (ha : arr + 8 * i < 2 ^ 64) (hp : page < 2 ^ 40) :
    Stores (assignFields (elem arr i) (entryFields 1 1 0 page)) (arr + 8 * i)
      (fun _ => kernelWord page) := by
  have hvalue : value (entryFields 1 1 0 page) = kernelWord page := by
    rw [value_entryFields, Nat.mod_eq_of_lt hp, kernelWord]
    omega
  rw [elem_eq ha, ← hvalue]
  exact assignFields_stores_value (entryFields_adjacent 1 1 0 page) (entryFields_hi 1 1 0 page)

theorem zeroEntry_stores (ha : arr + 8 * i < 2 ^ 64) :
    Stores (assignFields (elem arr i) (entryFields 0 0 0 0)) (arr + 8 * i) (fun _ => 0) := by
  have hvalue : value (entryFields 0 0 0 0) = 0 := by
    rw [value_entryFields]
    rfl
  have h := assignFields_stores_value (a := arr + 8 * i) (entryFields_adjacent 0 0 0 0)
    (entryFields_hi 0 0 0 0)
  rw [hvalue] at h
  rw [elem_eq ha]
  exact h

theorem mapUser_stores {addr : Nat} (ha : arr + 8 * i < 2 ^ 64) :
    Stores (mapUser arr i addr) (arr + 8 * i) (assignAll · (userFields (addr / 2 ^ 12))) := by
  rw [mapUser, elem_eq ha]
  exact assignFields_stores (userFields_hi _)

/-- On an entry that is zero the four assignments are enough. -/
theorem assignAll_userFields {addr : Nat} (h : addr < 2 ^ 52) :
    assignAll 0 (userFields (addr / 2 ^ 12)) = userWord (addr / 4096) := by
  have hp : addr / 4096 < 2 ^ 40 := by omega
  have hflags : Pte.us.assign (Pte.rw.assign (Pte.p.assign 0 1) 1) 1 = 7 := by decide
  have hlo : Pte.pageAddr.lo = 12 := rfl
  have hwidth : Pte.pageAddr.width = 40 := rfl
  have hpow : (2 : Nat) ^ 12 = 4096 := by norm_num
  have hfit : 7 < 2 ^ Pte.pageAddr.lo := by decide
  rw [userFields, assignAll_cons, assignAll_cons, assignAll_cons, assignAll_cons, assignAll_nil,
    hflags, Field.assign_of_lt hfit, userWord, hlo, hwidth, hpow, Nat.mod_eq_of_lt hp,
    Nat.mul_comm]

theorem kernelPtes_body (p : Nat) (h : p + 8388608 ≤ 2 ^ 52) : ∀ i, i < 1048576 →
    Stores (assignFields (elem p i) (entryFields 1 1 0 i)) (p + 8 * i) (fun _ => kernelWord i) :=
  fun _ hi => kernelEntry_stores (by omega) (by omega)

theorem kernelPdes_body (p pd : Nat) (hp : p + 8388608 ≤ 2 ^ 52) (hpd : pd + 16384 ≤ 2 ^ 52) :
    ∀ i, i < 2048 → Stores (assignFields (elem pd i)
      (entryFields 1 1 0 (elem p (512 * i) / 2 ^ 12))) (pd + 8 * i)
      (fun _ => kernelWord (p / 4096 + i)) := by
  intro i hi
  have hpage : elem p (512 * i) / 2 ^ 12 = p / 4096 + i := by
    rw [elem_eq (by omega)]
    omega
  rw [hpage]
  exact kernelEntry_stores (by omega) (by omega)

/-- The bodies of the two loops that fill the first entries and clear the others. -/
theorem firstEntries_body (p pd k : Nat) (hp : p + 4096 * k ≤ 2 ^ 52) (hpd : pd + 4096 ≤ 2 ^ 52) :
    ∀ i, i < 512 →
    Stores (if i < k then assignFields (elem pd i) (entryFields 1 1 0 (elem p (512 * i) / 2 ^ 12))
      else assignFields (elem pd i) (entryFields 0 0 0 0)) (pd + 8 * i)
      (fun _ => if i < k then kernelWord (p / 4096 + i) else 0) := by
  intro i hi
  by_cases hik : i < k
  · have hpage : elem p (512 * i) / 2 ^ 12 = p / 4096 + i := by
      rw [elem_eq (by omega)]
      omega
    rw [if_pos hik, if_pos hik, hpage]
    exact kernelEntry_stores (by omega) (by omega)
  · rw [if_neg hik, if_neg hik]
    exact zeroEntry_stores (by omega)

theorem clearUser_body (h : arr + 4096 ≤ 2 ^ 52) : ∀ i, i < 512 →
    Stores (assignFields (elem arr i) (entryFields 0 0 0 0)) (arr + 8 * i) (fun _ => 0) :=
  fun _ hi => zeroEntry_stores (by omega)

section User

variable {pml pdpUser pdUser pUser n addr : Nat} {w : Nat → Nat}

theorem clearUser_holds (h : arr + 4096 ≤ 2 ^ 52) : Holds (clearUser arr m) arr 512 fun _ => 0 :=
  forLoop_holds (clearUser_body h)

theorem clearUser_within (h : arr + 4096 ≤ 2 ^ 52) : Within (clearUser arr) arr (arr + 8 * 512) :=
  forLoop_within (clearUser_body h)

theorem mapUser_within (ha : arr + 8 * i < 2 ^ 64) :
    Within (mapUser arr i addr) (arr + 8 * i) (arr + 8 * i + 8) :=
  (mapUser_stores ha).within

theorem mapUser_holds (h : Holds m arr n w) (hw : w i = 0) (ha : arr + 8 * i < 2 ^ 64)
    (haddr : addr < 2 ^ 52) :
    Holds (mapUser arr i addr m) arr n (Function.update w i (userWord (addr / 4096))) := by
  have hstores : Stores (mapUser arr i addr) _ _ := mapUser_stores ha
  have hstore := h.store hstores
  rw [hw, assignAll_userFields haddr] at hstore
  exact hstore

/-- The three tables of the user program, empty. -/
theorem clearUsers_holds (h₁ : pdpUser + 4096 ≤ pdUser) (h₂ : pdUser + 4096 ≤ pUser)
    (h₃ : pUser + 4096 ≤ 2 ^ 52) :
    Holds (clearUsers pdpUser pdUser pUser m) pdpUser 512 (fun _ => 0) ∧
      Holds (clearUsers pdpUser pdUser pUser m) pdUser 512 (fun _ => 0) ∧
      Holds (clearUsers pdpUser pdUser pUser m) pUser 512 (fun _ => 0) := by
  have hw₂ : Within (clearUser pdUser) pdUser (pdUser + 8 * 512) := clearUser_within (by omega)
  have hw₃ : Within (clearUser pUser) pUser (pUser + 8 * 512) := clearUser_within (by omega)
  have h₁' : Holds (clearUser pdpUser m) pdpUser 512 fun _ => 0 := clearUser_holds (by omega)
  have h₂' : Holds (clearUser pdUser (clearUser pdpUser m)) pdUser 512 fun _ => 0 :=
    clearUser_holds (by omega)
  rw [clearUsers]
  refine ⟨?_, ?_, ?_⟩
  · exact (h₁'.frame_within hw₂ (by omega)).frame_within hw₃ (by omega)
  · exact h₂'.frame_within hw₃ (by omega)
  · exact clearUser_holds (by omega)

theorem clearUsers_within (h₁ : pdpUser + 4096 ≤ pdUser) (h₂ : pdUser + 4096 ≤ pUser)
    (h₃ : pUser + 4096 ≤ 2 ^ 52) :
    Within (clearUsers pdpUser pdUser pUser) pdpUser (pUser + 4096) := by
  have hw : ∀ arr, pdpUser ≤ arr → arr ≤ pUser →
      Within (clearUser arr) pdpUser (pUser + 4096) :=
    fun arr _ _ => (clearUser_within (by omega)).mono (by omega) (by omega)
  show Within (fun m => clearUser pUser (clearUser pdUser (clearUser pdpUser m))) _ _
  exact ((hw pdpUser (by omega) (by omega)).comp (hw pdUser (by omega) (by omega))).comp
    (hw pUser (by omega) (by omega))

/-- The mappings link the top table to the three tables behind it, and the last
of these to the pages of the program and of its stack. -/
theorem mapUsers_holds (hd₁ : pml + 4096 ≤ pdpUser) (hd₂ : pdpUser + 4096 ≤ pdUser)
    (hd₃ : pdUser + 4096 ≤ pUser) (hd₄ : pUser + 4096 ≤ 2 ^ 52)
    (hstack : 4096 ≤ ustack ∧ ustack < 2 ^ 52) (hprogram : uprogram < 2 ^ 52)
    (h₁ : Holds m pml 512 w) (hw : w 511 = 0) (h₂ : Holds m pdpUser 512 fun _ => 0)
    (h₃ : Holds m pdUser 512 fun _ => 0) (h₄ : Holds m pUser 512 fun _ => 0) {m' : Memory}
    (hm' : m' = mapUsers ustack uprogram pml pdpUser pdUser pUser m) :
    Holds m' pml 512 (Function.update w 511 (userWord (pdpUser / 4096))) ∧
      Holds m' pdpUser 512 (Function.update (fun _ => 0) 511 (userWord (pdUser / 4096))) ∧
      Holds m' pdUser 512 (Function.update (fun _ => 0) 511 (userWord (pUser / 4096))) ∧
      Holds m' pUser 512 (Function.update (Function.update (fun _ => 0)
        511 (userWord (uprogram / 4096))) 510 (userWord ((ustack - 4096) / 4096))) := by
  have hsub : (ustack + 2 ^ 64 - 4096) % 2 ^ 64 = ustack - 4096 := by omega
  have hw₁ : Within (mapUser pml 511 pdpUser) pml (pml + 4096) :=
    (mapUser_within (by omega)).mono (by omega) (by omega)
  have hw₂ : Within (mapUser pdpUser 511 pdUser) pdpUser (pdpUser + 4096) :=
    (mapUser_within (by omega)).mono (by omega) (by omega)
  have hw₃ : Within (mapUser pdUser 511 pUser) pdUser (pdUser + 4096) :=
    (mapUser_within (by omega)).mono (by omega) (by omega)
  have hw₄ : Within (mapUser pUser 511 uprogram) pUser (pUser + 4096) :=
    (mapUser_within (by omega)).mono (by omega) (by omega)
  have hw₅ : Within (mapUser pUser 510 (ustack - 4096)) pUser (pUser + 4096) :=
    (mapUser_within (by omega)).mono (by omega) (by omega)
  simp only [mapUsers, hsub] at hm'
  rw [hm']
  refine ⟨?_, ?_, ?_, ?_⟩
  · have h : Holds (mapUser pml 511 pdpUser m) pml 512 _ :=
      mapUser_holds h₁ hw (by omega) (by omega)
    exact (((h.frame_within hw₂ (by omega)).frame_within hw₃ (by omega)).frame_within hw₄
      (by omega)).frame_within hw₅ (by omega)
  · have h : Holds (mapUser pdpUser 511 pdUser (mapUser pml 511 pdpUser m)) pdpUser 512 _ :=
      mapUser_holds (h₂.frame_within hw₁ (by omega)) rfl (by omega) (by omega)
    exact ((h.frame_within hw₃ (by omega)).frame_within hw₄ (by omega)).frame_within hw₅ (by omega)
  · have hzero := (h₃.frame_within hw₁ (by omega)).frame_within hw₂ (by omega)
    have h : Holds (mapUser pdUser 511 pUser _) pdUser 512 _ :=
      mapUser_holds hzero rfl (by omega) (by omega)
    exact (h.frame_within hw₄ (by omega)).frame_within hw₅ (by omega)
  · have hzero := ((h₄.frame_within hw₁ (by omega)).frame_within hw₂ (by omega)).frame_within hw₃
      (by omega)
    have h : Holds (mapUser pUser 511 uprogram _) pUser 512 _ :=
      mapUser_holds hzero rfl (by omega) hprogram
    exact mapUser_holds h (Function.update_of_ne (by decide) _ _) (by omega) (by omega)

theorem mapUsers_within (hd₁ : pml + 4096 ≤ pdpUser) (hd₂ : pdpUser + 4096 ≤ pdUser)
    (hd₃ : pdUser + 4096 ≤ pUser) (hd₄ : pUser + 4096 ≤ 2 ^ 52) :
    Within (mapUsers ustack uprogram pml pdpUser pdUser pUser) pml (pUser + 4096) := by
  have hw : ∀ arr i addr, pml ≤ arr → arr ≤ pUser → i < 512 →
      Within (mapUser arr i addr) pml (pUser + 4096) :=
    fun arr i addr _ _ _ => (mapUser_within (by omega)).mono (by omega) (by omega)
  show Within (fun m => mapUser pUser 510 _ (mapUser pUser 511 uprogram (mapUser pdUser 511 pUser
    (mapUser pdpUser 511 pdUser (mapUser pml 511 pdpUser m))))) _ _
  exact ((((hw pml 511 _ (by omega) (by omega) (by decide)).comp
    (hw pdpUser 511 _ (by omega) (by omega) (by decide))).comp
    (hw pdUser 511 _ (by omega) (by omega) (by decide))).comp
    (hw pUser 511 _ (by omega) (by omega) (by decide))).comp
    (hw pUser 510 _ (by omega) (by omega) (by decide))

end User

theorem elem_tables (h : memory + 8425472 ≤ 2 ^ 52) :
    elem memory 1048576 = pdAt memory ∧ elem (pdAt memory) 2048 = pdpAt memory ∧
      elem (pdpAt memory) 512 = pmlAt memory ∧ elem (pmlAt memory) 512 = pdpUserAt memory ∧
      elem (pdpUserAt memory) 512 = pdUserAt memory ∧
      elem (pdUserAt memory) 512 = pUserAt memory := by
  unfold pdAt pdpAt pmlAt pdpUserAt pdUserAt pUserAt
  refine ⟨?_, ?_, ?_, ?_, ?_, ?_⟩ <;> exact (elem_eq (by omega)).trans (by omega)

/-- The memory at the call of `load_page_table`, with the addresses of the tables. -/
theorem kernelTables_mem {s : Machine} (h : memory + 8425472 ≤ 2 ^ 52) :
    (kernelTables ustack uprogram memory s).mem =
      mapUsers ustack uprogram (pmlAt memory) (pdpUserAt memory) (pdUserAt memory) (pUserAt memory)
        (clearUsers (pdpUserAt memory) (pdUserAt memory) (pUserAt memory)
          (kernelPml4es (pdpAt memory) (pmlAt memory)
            (kernelPdpes (pdAt memory) (pdpAt memory)
              (kernelPdes memory (pdAt memory) (kernelPtes memory s.mem))))) := by
  obtain ⟨hpd, hpdp, hpml, hpdpUser, hpdUser, hpUser⟩ := elem_tables h
  simp only [kernelTables, hpd, hpdp, hpml, hpdpUser, hpdUser, hpUser]

theorem kernelTables_pageTable {s : Machine} (h : memory + 8425472 ≤ 2 ^ 52) :
    (kernelTables ustack uprogram memory s).pageTable = pmlAt memory := by
  obtain ⟨hpd, hpdp, hpml, -⟩ := elem_tables h
  simp only [kernelTables, hpd, hpdp, hpml]

/-- The four tables of the kernel after their loops. -/
theorem kernelLoops_holds {pd pdp pml : Nat} (hpd : memory + 8388608 = pd) (hpdp : pd + 16384 = pdp)
    (hpml : pdp + 4096 = pml) (hfits : pml + 4096 ≤ 2 ^ 52) {m' : Memory}
    (hm' : m' = kernelPml4es pdp pml (kernelPdpes pd pdp (kernelPdes memory pd
      (kernelPtes memory m)))) :
    Holds m' memory 1048576 kernelWord ∧
      Holds m' pd 2048 (fun i => kernelWord (memory / 4096 + i)) ∧
      Holds m' pdp 512 (fun i => if i < 4 then kernelWord (pd / 4096 + i) else 0) ∧
      Holds m' pml 512 (fun i => if i < 1 then kernelWord (pdp / 4096 + i) else 0) := by
  have hbody₁ := kernelPtes_body memory (by omega)
  have hbody₂ := kernelPdes_body memory pd (by omega) (by omega)
  have hbody₃ := firstEntries_body pd pdp 4 (by omega) (by omega)
  have hbody₄ := firstEntries_body pdp pml 1 (by omega) (by omega)
  have hw₂ : Within (kernelPdes memory pd) pd (pd + 8 * 2048) := forLoop_within hbody₂
  have hw₃ : Within (kernelPdpes pd pdp) pdp (pdp + 8 * 512) := forLoop_within hbody₃
  have hw₄ : Within (kernelPml4es pdp pml) pml (pml + 8 * 512) := forLoop_within hbody₄
  have h₁ : Holds (kernelPtes memory m) memory 1048576 kernelWord := forLoop_holds hbody₁
  have h₂ : Holds (kernelPdes memory pd (kernelPtes memory m)) pd 2048
      (fun i => kernelWord (memory / 4096 + i)) := forLoop_holds hbody₂
  have h₃ : Holds (kernelPdpes pd pdp (kernelPdes memory pd (kernelPtes memory m))) pdp 512
      (fun i => if i < 4 then kernelWord (pd / 4096 + i) else 0) := forLoop_holds hbody₃
  rw [hm']
  refine ⟨?_, ?_, ?_, ?_⟩
  · exact ((h₁.frame_within hw₂ (by omega)).frame_within hw₃ (by omega)).frame_within hw₄ (by omega)
  · exact (h₂.frame_within hw₃ (by omega)).frame_within hw₄ (by omega)
  · exact h₃.frame_within hw₄ (by omega)
  · exact forLoop_holds hbody₄

/-- `kernel_init` leaves the tables so, whatever the memory held. -/
theorem kernelTables_tables {s : Machine} (h : BootArgs ustack uprogram memory) :
    Tables ustack uprogram memory (kernelTables ustack uprogram memory s).mem := by
  have hfits := h.memoryFits
  have hstack := h.ustackFits
  have hpd : memory + 8388608 = pdAt memory := rfl
  have hpdp : pdAt memory + 16384 = pdpAt memory := by unfold pdAt pdpAt; omega
  have hpml : pdpAt memory + 4096 = pmlAt memory := by unfold pdpAt pmlAt; omega
  have hpdpUser : pmlAt memory + 4096 = pdpUserAt memory := by unfold pmlAt pdpUserAt; omega
  have hpdUser : pdpUserAt memory + 4096 = pdUserAt memory := by unfold pdpUserAt pdUserAt; omega
  have hpUser : pdUserAt memory + 4096 = pUserAt memory := by unfold pdUserAt pUserAt; omega
  have hend : pUserAt memory + 4096 ≤ 2 ^ 52 := by unfold pUserAt; omega
  rw [kernelTables_mem hfits]
  obtain ⟨m₁, hm₁⟩ : ∃ m₁, m₁ = kernelPml4es (pdpAt memory) (pmlAt memory) (kernelPdpes (pdAt memory)
    (pdpAt memory) (kernelPdes memory (pdAt memory) (kernelPtes memory s.mem))) := ⟨_, rfl⟩
  rw [← hm₁]
  obtain ⟨hp, hd, hdp, hml⟩ := kernelLoops_holds hpd hpdp hpml (by omega) hm₁
  have hclear : Within (clearUsers (pdpUserAt memory) (pdUserAt memory) (pUserAt memory))
      (pdpUserAt memory) (pUserAt memory + 4096) :=
    clearUsers_within hpdUser.le hpUser.le hend
  have hmap : Within (mapUsers ustack uprogram (pmlAt memory) (pdpUserAt memory) (pdUserAt memory)
      (pUserAt memory)) (pmlAt memory) (pUserAt memory + 4096) :=
    mapUsers_within hpdpUser.le hpdUser.le hpUser.le hend
  obtain ⟨hz₁, hz₂, hz₃⟩ := clearUsers_holds (m := m₁) hpdUser.le hpUser.le hend
  have hml' := hml.frame_within hclear (Or.inr (by omega))
  obtain ⟨hu₁, hu₂, hu₃, hu₄⟩ := mapUsers_holds hpdpUser.le hpdUser.le hpUser.le hend
    ⟨h.ustackPage, hstack⟩ h.uprogramFits hml' (if_neg (by decide)) hz₁ hz₂ hz₃ rfl
  exact {
    ptes := (hp.frame_within hclear (by omega)).frame_within hmap (by omega)
    pdes := (hd.frame_within hclear (by omega)).frame_within hmap (by omega)
    pdpes := (hdp.frame_within hclear (by omega)).frame_within hmap (by omega)
    pml4es := hu₁
    pdpUser := hu₂
    pdUser := hu₃
    pUser := hu₄ }

end PageTable
end Cmpsc473
