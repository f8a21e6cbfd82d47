import Cmpsc473.Library.BitField
import Cmpsc473.Library.ByteMemory

/-!
# Tables of words in memory

A table is a row of 8-byte words.  A piece of code that touches one word only is
described by what it leaves there, as a function of what it finds (`Stores`).  A
counted loop whose bodies each touch the word of their own index fills a table
(`forLoop_holds`), and a later store changes one entry of it (`Holds.store`).
-/

namespace WordTable

open ByteMemory BitField

/-- The loop `for (i = 0; i < n; i++) body(i)`. -/
def forLoop (body : Nat → Memory → Memory) : Nat → Memory → Memory
  | 0, m => m
  | n + 1, m => body n (forLoop body n m)

/-- The `n` words from `a` on are those of `w`. -/
def Holds (m : Memory) (a n : Nat) (w : Nat → Nat) : Prop :=
  ∀ i, i < n → read m (a + 8 * i) 8 = w i

/-- `f` turns the word `v` at `a` into `g v` and leaves every other byte. -/
structure Stores (f : Memory → Memory) (a : Nat) (g : Nat → Nat) : Prop where
  word : ∀ m, read (f m) a 8 = g (read m a 8)
  frame : ∀ m x, x < a ∨ a + 8 ≤ x → f m x = m x

/-- `f` changes no byte outside of `[lo, hi)`. -/
def Within (f : Memory → Memory) (lo hi : Nat) : Prop :=
  ∀ m x, x < lo ∨ hi ≤ x → f m x = m x

variable {m m' : Memory} {a n j x : Nat} {w : Nat → Nat} {f f' : Memory → Memory}
  {g : Nat → Nat}

theorem Holds.frame (h : Holds m a n w) (hm : ∀ x, a ≤ x → x < a + 8 * n → m' x = m x) :
    Holds m' a n w := by
  intro i hi
  rw [← h i hi]
  exact read_congr (fun x hx hx' => hm x (by omega) (by omega))

theorem Within.mono {lo hi lo' hi' : Nat} (h : Within f lo hi) (hlo : lo' ≤ lo) (hhi : hi ≤ hi') :
    Within f lo' hi' :=
  fun m x hx => h m x (by omega)

theorem Within.comp {lo hi : Nat} (h : Within f lo hi) (h' : Within f' lo hi) :
    Within (fun m => f' (f m)) lo hi :=
  fun m x hx => (h' (f m) x hx).trans (h m x hx)

theorem Stores.within (h : Stores f a g) : Within f a (a + 8) := h.frame

/-- What changes only bytes outside of a table leaves the table. -/
theorem Holds.frame_within {lo hi : Nat} (h : Holds m a n w) (hf : Within f lo hi)
    (hd : hi ≤ a ∨ a + 8 * n ≤ lo) : Holds (f m) a n w :=
  h.frame (fun x hx hx' => hf m x (by omega))

/-- A store to one entry of a table. -/
theorem Holds.store (h : Holds m a n w) (hf : Stores f (a + 8 * j) g) :
    Holds (f m) a n (Function.update w j (g (w j))) := by
  intro i hi
  by_cases hij : i = j
  · rw [hij, Function.update_self, hf.word, h j (hij ▸ hi)]
  · rw [Function.update_of_ne hij, ← h i hi]
    exact read_congr (fun x hx hx' => hf.frame m x (by omega))

/-- Two memories that hold the same table hold the same bytes there. -/
theorem Holds.bytes_eq (h : Holds m a n w) (h' : Holds m' a n w) (hx : a ≤ x)
    (hx' : x < a + 8 * n) : m x = m' x := by
  have hi : (x - a) / 8 < n := by omega
  have hsplit : a + 8 * ((x - a) / 8) + (x - a) % 8 = x := by omega
  rw [← hsplit, ← ofNat_read_div m _ 8 _ (by omega), ← ofNat_read_div m' _ 8 _ (by omega),
    h _ hi, h' _ hi]

section Loops

variable {body : Nat → Memory → Memory}

/-- A loop changes only the words that its bodies store to. -/
theorem forLoop_within (hbody : ∀ i, i < n → Stores (body i) (a + 8 * i) fun _ => w i) :
    Within (forLoop body n) a (a + 8 * n) := by
  intro m x hx
  induction n with
  | zero => rfl
  | succ n ih =>
    rw [forLoop, (hbody n (by omega)).frame _ x (by omega)]
    exact ih (fun i hi => hbody i (by omega)) (by omega)

/-- A loop whose body `i` stores the word `w i` in entry `i` fills the table,
whatever the memory held. -/
theorem forLoop_holds (hbody : ∀ i, i < n → Stores (body i) (a + 8 * i) fun _ => w i) :
    Holds (forLoop body n m) a n w := by
  induction n with
  | zero =>
    intro i hi
    omega
  | succ n ih =>
    have hlast := hbody n (by omega)
    have hrest := ih (fun i hi => hbody i (by omega))
    intro i hi
    by_cases hin : i = n
    · rw [hin, forLoop, hlast.word]
    · rw [← hrest i (by omega), forLoop]
      exact read_congr (fun x hx hx' => hlast.frame _ x (by omega))

end Loops

def assignField (a : Nat) (m : Memory) (fv : Field × Nat) : Memory :=
  write m a 8 (fv.1.assign (read m a 8) fv.2)

def assignFields (a : Nat) (l : List (Field × Nat)) (m : Memory) : Memory :=
  l.foldl (assignField a) m

theorem read_lt_two_pow (m : Memory) (a : Nat) : read m a 8 < 2 ^ 64 := by
  have h := read_lt m a 8
  norm_num at h ⊢
  exact h

theorem assignFields_word {l : List (Field × Nat)} (hf : ∀ fv ∈ l, fv.1.hi ≤ 64) :
    read (assignFields a l m) a 8 = assignAll (read m a 8) l := by
  induction l generalizing m with
  | nil => rfl
  | cons fv l ih =>
    have hlt : fv.1.assign (read m a 8) fv.2 < 2 ^ 64 :=
      Field.assign_lt (hf fv List.mem_cons_self) (read_lt_two_pow m a)
    have hword : read (assignField a m fv) a 8 = fv.1.assign (read m a 8) fv.2 := by
      rw [assignField, read_write_self]
      exact Nat.mod_eq_of_lt (lt_of_lt_of_eq hlt (by norm_num))
    rw [assignFields, List.foldl_cons, assignAll, List.foldl_cons, ← hword]
    exact ih (fun gv hgv => hf gv (List.mem_cons_of_mem fv hgv))

theorem assignFields_frame {l : List (Field × Nat)} (hx : x < a ∨ a + 8 ≤ x) :
    assignFields a l m x = m x := by
  induction l generalizing m with
  | nil => rfl
  | cons fv l ih =>
    rw [assignFields, List.foldl_cons]
    calc assignFields a l (assignField a m fv) x
        = assignField a m fv x := ih
      _ = m x := write_of_outside hx

theorem assignFields_stores {l : List (Field × Nat)} (hf : ∀ fv ∈ l, fv.1.hi ≤ 64) :
    Stores (assignFields a l) a (assignAll · l) where
  word _ := assignFields_word hf
  frame _ _ hx := assignFields_frame hx

/-- Assigning every field of a word stores a word that does not depend on what
was there. -/
theorem assignFields_stores_value {l : List (Field × Nat)} (h : Adjacent 0 l 64)
    (hf : ∀ fv ∈ l, fv.1.hi ≤ 64) : Stores (assignFields a l) a (fun _ => value l) where
  word m := by rw [assignFields_word hf, assignAll_eq h hf (read_lt_two_pow m a)]
  frame _ _ hx := assignFields_frame hx

/-- The address of a word, and what is assigned to its fields. -/
abbrev Assignment := Nat × List (Field × Nat)

def assignEach (l : List Assignment) (m : Memory) : Memory :=
  l.foldl (fun m w => assignFields w.1 w.2 m) m

theorem assignEach_append (l l' : List Assignment) :
    assignEach (l ++ l') m = assignEach l' (assignEach l m) := List.foldl_append

/-- The assignments of the loop `for (i = 0; i < n; i++)`. -/
def loopAssignments (n : Nat) (w : Nat → Assignment) : List Assignment := (List.range n).map w

theorem mem_loopAssignments {w : Nat → Assignment} {x : Assignment} :
    x ∈ loopAssignments n w ↔ ∃ i < n, w i = x := by
  simp [loopAssignments]

/-- A loop whose body `i` assigns to the fields of one word. -/
theorem forLoop_eq_assignEach {body : Nat → Memory → Memory} {w : Nat → Assignment}
    (hbody : ∀ i m, body i m = assignFields (w i).1 (w i).2 m) :
    forLoop body n m = assignEach (loopAssignments n w) m := by
  induction n with
  | zero => rfl
  | succ n ih =>
    have hlast : loopAssignments (n + 1) w = loopAssignments n w ++ [w n] := by
      rw [loopAssignments, List.range_succ, List.map_append, loopAssignments]
      rfl
    rw [forLoop, ih, hbody, hlast, assignEach_append]
    rfl

end WordTable
