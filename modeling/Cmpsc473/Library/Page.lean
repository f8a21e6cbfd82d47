import Mathlib.Data.List.Basic
import Mathlib.Tactic.Common

/-!
# Text on a page of fixed width

A page keeps every line that has been written.  A line that is full is followed by a
new one when the next character comes, and a line can be ended before it is full.  A
window of some rows shows the last lines of the page.
-/

structure Page (κ : Type) where
  above : List (List κ) := []
  line : List κ := []

namespace Page

variable {κ : Type}

def newLine (p : Page κ) : Page κ := { above := p.above ++ [p.line] }

def put (p : Page κ) (c : κ) : Page κ := { p with line := p.line ++ [c] }

/-- Write a character, on a new line if it has to be. -/
def write [DecidableEq κ] (nl : κ) (columns : Nat) (p : Page κ) (c : κ) : Page κ :=
  if c = nl then p.newLine
  else if p.line.length = columns then p.newLine.put c
  else p.put c

def writeAll [DecidableEq κ] (nl : κ) (columns : Nat) (p : Page κ) (text : List κ) : Page κ :=
  text.foldl (write nl columns) p

def lines (p : Page κ) : List (List κ) := p.above ++ [p.line]

/-- The line that the window shows first. -/
def top (rows : Nat) (p : Page κ) : Nat := p.above.length + 1 - rows

/-- The row of the window that the last line is in. -/
def row (rows : Nat) (p : Page κ) : Nat := p.above.length - p.top rows

/-- What the window shows in a row and a column. -/
def cell (rows : Nat) (p : Page κ) (y x : Nat) : Option κ :=
  (p.lines[p.top rows + y]?).bind (·[x]?)

section Window

variable {p : Page κ} {rows : Nat}

theorem top_add_row (hrows : 0 < rows) : p.top rows + p.row rows = p.above.length := by
  unfold row top
  omega

theorem row_lt (hrows : 0 < rows) : p.row rows < rows := by
  unfold row top
  omega

theorem top_newLine : p.newLine.top rows = p.above.length + 2 - rows := by
  rw [top, newLine, List.length_append]
  rfl

theorem row_newLine (hlt : p.row rows + 1 < rows) : p.newLine.row rows = p.row rows + 1 := by
  have hlen : p.newLine.above.length = p.above.length + 1 := List.length_append
  unfold row top at hlt ⊢
  omega

theorem row_newLine_last (hrows : p.row rows + 1 = rows) :
    p.newLine.row rows = p.row rows := by
  have hlen : p.newLine.above.length = p.above.length + 1 := List.length_append
  unfold row top at hrows ⊢
  omega

theorem lines_newLine : p.newLine.lines = p.lines ++ [[]] := rfl

/-- A line with nothing in it is no different from no line. -/
theorem getElem?_newLine (i x : Nat) :
    (p.newLine.lines[i]?).bind (·[x]?) = (p.lines[i]?).bind (·[x]?) := by
  rw [lines_newLine, List.getElem?_append]
  by_cases hi : i < p.lines.length
  · rw [if_pos hi]
  · rw [if_neg hi, List.getElem?_eq_none (Nat.le_of_not_lt hi)]
    cases i - p.lines.length <;> rfl

/-- A new line below the window's lines. -/
theorem cell_newLine (hlt : p.row rows + 1 < rows) (y x : Nat) :
    p.newLine.cell rows y x = p.cell rows y x := by
  have htop : p.newLine.top rows = p.top rows := by
    rw [top_newLine]
    unfold row top at hlt
    unfold top
    omega
  rw [cell, htop, getElem?_newLine]
  rfl

/-- A new line when the window is full moves the window down. -/
theorem cell_newLine_last (hrows : p.row rows + 1 = rows) (y x : Nat) :
    p.newLine.cell rows y x = p.cell rows (y + 1) x := by
  have htop : p.newLine.top rows + y = p.top rows + (y + 1) := by
    rw [top_newLine]
    unfold row top at hrows
    unfold top
    omega
  rw [cell, htop, getElem?_newLine]
  rfl

/-- Nothing is shown below the last line. -/
theorem cell_below {y : Nat} (hy : p.row rows < y) (x : Nat) : p.cell rows y x = none := by
  have hlen : p.lines.length = p.above.length + 1 := List.length_append
  have hend : p.lines.length ≤ p.top rows + y := by
    unfold row at hy
    omega
  rw [cell, List.getElem?_eq_none hend]
  rfl

theorem cell_empty (y x : Nat) : ({} : Page κ).cell rows y x = none := by
  rw [cell]
  show (([[]] : List (List κ))[_]?).bind _ = none
  cases ({} : Page κ).top rows + y <;> rfl

/-- A character goes to the end of the last line. -/
theorem cell_put (hrows : 0 < rows) (c : κ) (y x : Nat) :
    (p.put c).cell rows y x =
      if y = p.row rows ∧ x = p.line.length then some c else p.cell rows y x := by
  have htop : (p.put c).top rows = p.top rows := rfl
  have hrow := top_add_row (p := p) hrows
  rw [cell, cell, htop, lines, lines, List.getElem?_append, List.getElem?_append]
  show Option.bind (if _ < p.above.length then _ else ([p.line ++ [c]])[_ - p.above.length]?) _ = _
  by_cases hlt : p.top rows + y < p.above.length
  · have hy : y ≠ p.row rows := by omega
    rw [if_pos hlt, if_pos hlt, if_neg fun h => hy h.1]
    rfl
  · rw [if_neg hlt, if_neg hlt]
    by_cases hy : y = p.row rows
    · have hlast : p.top rows + y - p.above.length = 0 := by omega
      rw [hlast]
      show (p.line ++ [c])[x]? = if _ then _ else p.line[x]?
      rw [List.getElem?_append]
      by_cases hx : x < p.line.length
      · have hne : x ≠ p.line.length := by omega
        rw [if_pos hx, if_neg fun h => hne h.2]
      · rw [if_neg hx, List.getElem?_eq_none (Nat.le_of_not_lt hx)]
        by_cases heq : x = p.line.length
        · rw [if_pos ⟨hy, heq⟩, heq, Nat.sub_self]
          rfl
        · have hpos : x - p.line.length = x - p.line.length - 1 + 1 := by omega
          rw [if_neg fun h => heq h.2, hpos]
          rfl
    · have hbelow : p.top rows + y - p.above.length =
          p.top rows + y - p.above.length - 1 + 1 := by omega
      rw [if_neg fun h => hy h.1, hbelow]
      rfl

end Window

section Fits

variable {columns : Nat}

/-- No line is longer than the page is wide. -/
def Fits (columns : Nat) (p : Page κ) : Prop := ∀ l ∈ p.lines, l.length ≤ columns

theorem fits_newLine {p : Page κ} (h : p.Fits columns) : p.newLine.Fits columns := by
  intro l hl
  rw [lines_newLine, List.mem_append, List.mem_singleton] at hl
  rcases hl with hl | rfl
  · exact h l hl
  · exact Nat.zero_le _

theorem fits_put {p : Page κ} (h : p.Fits columns) (hlt : p.line.length < columns) (c : κ) :
    (p.put c).Fits columns := by
  intro l hl
  rcases List.mem_append.mp hl with hl | hl
  · exact h l (List.mem_append_left _ hl)
  · rw [List.mem_singleton.mp hl]
    show (p.line ++ [c]).length ≤ columns
    rw [List.length_append, List.length_singleton]
    exact hlt

theorem Fits.line {p : Page κ} (h : p.Fits columns) : p.line.length ≤ columns :=
  h p.line (List.mem_append_right _ List.mem_cons_self)

end Fits

section Writing

variable [DecidableEq κ] {nl : κ} {columns : Nat}

theorem writeAll_append (p : Page κ) (s t : List κ) :
    p.writeAll nl columns (s ++ t) = (p.writeAll nl columns s).writeAll nl columns t :=
  List.foldl_append

theorem fits_write (hcolumns : 0 < columns) {p : Page κ} (h : p.Fits columns) (c : κ) :
    (p.write nl columns c).Fits columns := by
  unfold write
  split
  · exact fits_newLine h
  · split
    · exact fits_put (fits_newLine h) hcolumns c
    · exact fits_put h (by have := h.line; omega) c

theorem flatten_write (p : Page κ) (c : κ) :
    (p.write nl columns c).lines.flatten = p.lines.flatten ++ if c = nl then [] else [c] := by
  unfold write
  split
  · simp [lines, newLine]
  · split <;> simp [lines, newLine, put]

/-- **What is written** is on the page, in lines that fit. -/
theorem writeAll_lines (hcolumns : 0 < columns) {p : Page κ} (h : p.Fits columns)
    (text : List κ) : (p.writeAll nl columns text).Fits columns ∧
      (p.writeAll nl columns text).lines.flatten =
        p.lines.flatten ++ text.filter (· ≠ nl) := by
  induction text generalizing p with
  | nil => exact ⟨h, by simp [writeAll]⟩
  | cons c text ih =>
    obtain ⟨hfits, hflat⟩ := ih (fits_write hcolumns h c)
    refine ⟨hfits, hflat.trans ?_⟩
    rw [flatten_write, List.append_assoc]
    by_cases hc : c = nl <;> simp [hc]

end Writing

end Page
