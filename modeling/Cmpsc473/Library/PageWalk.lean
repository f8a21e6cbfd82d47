import Mathlib.Algebra.GroupWithZero.Nat
import Mathlib.Data.Nat.Bits
import Mathlib.Tactic.Common

/-!
# Walks through page tables

Translation of a virtual address through a tree of tables with 512 entries of 64
bits each.  A walk over `n` levels reads one entry in each: nine bits of the
address select it, and its frame is the next table, or at the last level the
page.  It fails at the first entry that is not present.
-/

namespace PageWalk

/-- The parts of an entry that a walk uses. -/
structure Entry where
  present : Bool
  writable : Bool
  user : Bool
  noExec : Bool
  /-- Physical address of the next table or of the page. -/
  frame : Nat
deriving DecidableEq, Repr

/-- Bits 0, 1, 2 and 63, and the frame in bits 12 to 51. -/
def decode (w : Nat) : Entry where
  present := w.testBit 0
  writable := w.testBit 1
  user := w.testBit 2
  noExec := w.testBit 63
  frame := w / 2 ^ 12 % 2 ^ 40 * 2 ^ 12

structure Translation where
  phys : Nat
  /-- The entries read, from the top table down. -/
  entries : List Entry
deriving DecidableEq, Repr

/-- The nine bits of `va` that select an entry at level `n`. -/
def index (n va : Nat) : Nat := va / 2 ^ (12 + 9 * (n - 1)) % 512

/-- The walk from the table at `table` at level `n` down to a page.  `word`
reads a 64-bit word of physical memory. -/
def walk (word : Nat → Nat) : Nat → Nat → Nat → Option Translation
  | 0, page, va => some ⟨page + va % 2 ^ 12, []⟩
  | n + 1, table, va =>
    let e := decode (word (table + 8 * index (n + 1) va))
    if e.present then
      (walk word n e.frame va).map fun t => { t with entries := e :: t.entries }
    else none

variable {word : Nat → Nat} {n table va w : Nat}

theorem walk_zero : walk word 0 table va = some ⟨table + va % 2 ^ 12, []⟩ := rfl

/-- One level of a walk, given the entry read there. -/
theorem walk_present (hw : word (table + 8 * index (n + 1) va) = w)
    (hp : (decode w).present = true) :
    walk word (n + 1) table va = (walk word n (decode w).frame va).map fun t =>
      { t with entries := decode w :: t.entries } := by
  rw [walk, hw]
  exact if_pos hp

theorem walk_absent (hw : word (table + 8 * index (n + 1) va) = w)
    (hp : (decode w).present = false) : walk word (n + 1) table va = none := by
  rw [walk, hw]
  exact if_neg (by rw [hp]; exact Bool.false_ne_true)

/-- A walk fails when what is behind one of its entries fails. -/
theorem walk_none (hw : word (table + 8 * index (n + 1) va) = w)
    (h : walk word n (decode w).frame va = none) : walk word (n + 1) table va = none := by
  cases hp : (decode w).present with
  | true => rw [walk_present hw hp, h, Option.map_none]
  | false => exact walk_absent hw hp

/-- The walk over `n` levels reaches `phys` through entries that all allow
writing and execution, and user access as `user` says. -/
def Reaches (word : Nat → Nat) (n table va phys : Nat) (user : Bool) : Prop :=
  ∃ t, walk word n table va = some t ∧ t.phys = phys ∧ t.entries.length = n ∧
    ∀ e ∈ t.entries, e.present = true ∧ e.writable = true ∧ e.user = user ∧ e.noExec = false

theorem reaches_zero {phys : Nat} {user : Bool} (h : table + va % 2 ^ 12 = phys) :
    Reaches word 0 table va phys user :=
  ⟨_, walk_zero, h, rfl, fun _ he => nomatch he⟩

theorem Reaches.step {phys frame : Nat} {user : Bool}
    (hw : word (table + 8 * index (n + 1) va) = w)
    (he : decode w = ⟨true, true, user, false, frame⟩) (h : Reaches word n frame va phys user) :
    Reaches word (n + 1) table va phys user := by
  obtain ⟨t, ht, hphys, hlen, hall⟩ := h
  have hwalk : walk word (n + 1) table va = some { t with entries := decode w :: t.entries } := by
    rw [walk_present hw (by rw [he]), he, ht, Option.map_some]
  refine ⟨_, hwalk, hphys, congrArg (· + 1) hlen, ?_⟩
  intro e hmem
  rcases List.mem_cons.mp hmem with h' | h'
  · rw [h', he]
    exact ⟨rfl, rfl, rfl, rfl⟩
  · exact hall e h'

/-- A walk leads to one address. -/
theorem Reaches.unique {phys phys' : Nat} {user user' : Bool}
    (h : Reaches word n table va phys user) (h' : Reaches word n table va phys' user') :
    phys = phys' := by
  obtain ⟨t, ht, hphys, _⟩ := h
  obtain ⟨t', ht', hphys', _⟩ := h'
  obtain rfl : t = t' := Option.some.inj (ht.symm.trans ht')
  exact hphys.symm.trans hphys'

/-- User-mode code may use a translation when every entry read for it allows so. -/
def Translation.userAccess (t : Translation) : Bool := t.entries.all fun e => e.user

theorem Reaches.userAccess {phys : Nat} {user : Bool} {t : Translation}
    (h : Reaches word (n + 1) table va phys user) (ht : walk word (n + 1) table va = some t) :
    t.phys = phys ∧ t.userAccess = user := by
  obtain ⟨t', ht', hphys, hlen, hall⟩ := h
  obtain rfl : t = t' := Option.some.inj (ht.symm.trans ht')
  refine ⟨hphys, ?_⟩
  match hentries : t.entries, hlen with
  | e :: es, _ =>
    rw [hentries] at hall
    cases user with
    | true => exact List.all_eq_true.mpr (fun e he => (hall e (hentries ▸ he)).2.2.1)
    | false =>
      rw [Translation.userAccess, hentries, List.all_cons, (hall e List.mem_cons_self).2.2.1,
        Bool.false_and]

theorem decode_zero : decode 0 = ⟨false, false, false, false, 0⟩ := by
  simp [decode]

/-- An entry with the three low flags and a frame, and no other bit. -/
theorem decode_entry (p rw us : Nat) {page : Nat} (hp : p < 2) (hrw : rw < 2) (hus : us < 2)
    (hpage : page < 2 ^ 40) :
    decode (p + 2 * rw + 4 * us + 2 ^ 12 * page) =
      ⟨p = 1, rw = 1, us = 1, false, page * 2 ^ 12⟩ := by
  unfold decode
  simp only [Nat.testBit_eq_decide_div_mod_eq, Entry.mk.injEq, decide_eq_decide,
    decide_eq_false_iff_not]
  refine ⟨?_, ?_, ?_, ?_, ?_⟩ <;> omega

end PageWalk
