import Cmpsc473.Console.Framebuffer
import Mathlib.Tactic.Ring

/-!
# The cursor of the console

With two rows of text or more the cursor stays on the grid, and every pixel that is
read or written is one of the framebuffer.  With one row there is nothing to move up:
the count of `fb_scrollup` is zero, and its first loop runs out of the framebuffer.
-/

namespace Cmpsc473
namespace Console

open Total Loop

/-- Only pixels have changed. -/
structure Redrawn (c c' : State) : Prop where
  size : c'.fb.size = c.fb.size
  width : c'.width = c.width
  posX : c'.posX = c.posX
  posY : c'.posY = c.posY
  maxX : c'.maxX = c.maxX
  maxY : c'.maxY = c.maxY

/-- The variables are those that `fb_init` computes from the size of the framebuffer. -/
structure Fits (width height : Nat) (c : State) : Prop where
  size_eq : c.fb.size = width * height
  width_eq : c.width = width
  maxX_eq : c.maxX = width / 8
  maxY_eq : c.maxY = height / 16

/-- The cursor is on the grid, or behind the end of one of its rows. -/
structure OnGrid (width height : Nat) (c : State) : Prop extends Fits width height c where
  posX_le : c.posX ≤ c.maxX
  posY_lt : c.posY < c.maxY

section Pixels

variable {c c' c'' : State} {i cur : Nat} {v : UInt32} {font : Fin 2048 → UInt8}

theorem Redrawn.refl (c : State) : Redrawn c c := ⟨rfl, rfl, rfl, rfl, rfl, rfl⟩

theorem Redrawn.trans (h : Redrawn c c') (h' : Redrawn c' c'') : Redrawn c c'' where
  size := h'.size.trans h.size
  width := h'.width.trans h.width
  posX := h'.posX.trans h.posX
  posY := h'.posY.trans h.posY
  maxX := h'.maxX.trans h.maxX
  maxY := h'.maxY.trans h.maxY

theorem Fits.redrawn {width height : Nat} (h : Fits width height c) (hr : Redrawn c c') :
    Fits width height c' where
  size_eq := hr.size.trans h.size_eq
  width_eq := hr.width.trans h.width_eq
  maxX_eq := hr.maxX.trans h.maxX_eq
  maxY_eq := hr.maxY.trans h.maxY_eq

theorem load_returns (h : i < c.fb.size) : Returns (load i) c (fun _ c' => c' = c) := by
  refine ⟨c.fb[i], c, ?_, rfl⟩
  simp [load, h]

theorem load_none (h : c.fb.size ≤ i) : load i c = none := by
  simp [load, h]

theorem store_returns (h : i < c.fb.size) : Returns (store i v) c (fun _ c' => Redrawn c c') := by
  refine ⟨(), _, if_pos h, ?_⟩
  exact ⟨Array.size_setIfInBounds, rfl, rfl, rfl, rfl, rfl⟩

theorem fontByte_returns (h : i < 2048) : Returns (fontByte font i) c (fun _ c' => c' = c) :=
  ⟨_, _, dif_pos h, rfl⟩

theorem drawPixel_returns {bitmap : Int8} (hsize : c.fb.size < 2 ^ 64)
    (h : cur + i < c.fb.size) :
    Returns (drawPixel cur i bitmap) c (fun _ c' => Redrawn c c') := by
  simp only [drawPixel, returns_bind, Nat.mod_eq_of_lt (h.trans hsize)]
  exact (store_returns h).mono fun _ _ hr => returns_pure.mpr hr

/-- A character of the ASCII subset. -/
theorem toUInt8_lt {ch : Int8} (h : 0 < ch) : ch.toUInt8.toNat < 128 := by
  have hpos := Int8.lt_iff_toInt_lt.mp h
  have hint : ch.toInt = ch.toBitVec.toInt := rfl
  have hnat : ch.toUInt8.toNat = ch.toBitVec.toNat := rfl
  rw [hint, BitVec.toInt_eq_toNat_cond, Int8.toInt_zero] at hpos
  have hlt := ch.toBitVec.isLt
  omega

theorem drawRow_returns {ch : Int8} {j : Nat} (hch : 0 < ch) (hj : j < 16)
    (hsize : c.fb.size < 2 ^ 64) (h : cur + 8 ≤ c.fb.size) :
    Returns (drawRow font ch j cur) c
      (fun cur' c' => cur' = (cur + c.width) % 2 ^ 64 ∧ Redrawn c c') := by
  have hbyte : ch.toUInt8.toNat * (fontWidth * fontHeight / 8) + j < 2048 := by
    have hlt := toUInt8_lt hch
    have hbytes : fontWidth * fontHeight / 8 = 16 := rfl
    rw [hbytes]
    omega
  simp only [drawRow, returns_bind, returns_get, returns_pure]
  refine (fontByte_returns hbyte).mono ?_
  rintro byte c' rfl
  have hpixels : Returns (forTo fontWidth (drawPixel cur) byte.toInt8) c' fun _ c'' =>
      Redrawn c' c'' := by
    refine forTo_returns (I := fun _ _ c'' => Redrawn c' c'') (Redrawn.refl c') ?_
    intro i hi bitmap c'' hr
    have hi' : i < 8 := hi
    rw [← hr.size] at hsize h
    exact (drawPixel_returns hsize (by omega)).mono fun _ _ h' => hr.trans h'
  refine hpixels.mono fun _ c'' hr => ⟨?_, hr⟩
  rw [hr.width]

end Pixels

section Scroll

variable {c : State} {count row width height : Nat}

theorem movePixel_returns {cur : Nat} (h : cur + row < c.fb.size) (hsize : c.fb.size < 2 ^ 64) :
    Returns (movePixel row cur) c (fun cur' c' => cur' = cur + 1 ∧ Redrawn c c') := by
  simp only [movePixel, returns_bind, returns_pure,
    Nat.mod_eq_of_lt (show cur + row < 2 ^ 64 by omega),
    Nat.mod_eq_of_lt (show cur + 1 < 2 ^ 64 by omega), true_and]
  refine (load_returns h).mono ?_
  rintro v c' rfl
  exact store_returns (by omega)

theorem clearPixel_returns {cur : Nat} (h : cur < c.fb.size) (hsize : c.fb.size < 2 ^ 64) :
    Returns (clearPixel cur) c (fun cur' c' => cur' = cur + 1 ∧ Redrawn c c') := by
  simp only [clearPixel, returns_bind, returns_pure,
    Nat.mod_eq_of_lt (show cur + 1 < 2 ^ 64 by omega), true_and]
  exact store_returns h

/-- What both loops keep: `i` rounds have passed, and only pixels have changed. -/
def Rounds (c : State) (start i cur : Nat) (c' : State) : Prop := cur = start + i ∧ Redrawn c c'

theorem Rounds.next {start i cur cur' : Nat} {c' c'' : State} (h : Rounds c start i cur c')
    (h' : cur' = cur + 1 ∧ Redrawn c' c'') : Rounds c start (i + 1) cur' c'' :=
  ⟨by rw [h'.1, h.1, Nat.add_assoc], h.2.trans h'.2⟩

theorem movePixel_round {i cur : Nat} {c' : State} (h : Rounds c 0 i cur c')
    (hi : i + row < c.fb.size) (hsize : c.fb.size < 2 ^ 64) :
    Returns (movePixel row cur) c' (Rounds c 0 (i + 1)) := by
  have hcur := h.1
  rw [← h.2.size] at hi hsize
  exact (movePixel_returns (by omega) hsize).mono fun _ _ h' => h.next h'

theorem moveUp_returns (hcount : 0 < count) (hfits : count + row ≤ c.fb.size)
    (hsize : c.fb.size < 2 ^ 64) :
    Returns (doWhile (movePixel row) count 0) c (Rounds c 0 count) := by
  refine doWhile_returns hcount (by omega) ⟨rfl, Redrawn.refl c⟩ ?_
  intro i hi cur c' h
  exact movePixel_round h (by omega) hsize

theorem cleanUp_returns (hrow : 0 < row) (hfits : count + row ≤ c.fb.size)
    (hsize : c.fb.size < 2 ^ 64) :
    Returns (doWhile clearPixel row count) c (Rounds c count row) := by
  refine doWhile_returns hrow (by omega) ⟨rfl, Redrawn.refl c⟩ ?_
  intro i hi cur c' h
  have hcur := h.1
  have hsame := h.2.size
  exact (clearPixel_returns (by omega) (by omega)).mono fun _ _ h' => h.next h'

/-- A count of zero lets the loop run out of the framebuffer. -/
theorem moveUp_none (hfits : row ≤ c.fb.size) (hsize : c.fb.size < 2 ^ 64) :
    doWhile (movePixel row) 0 0 c = none := by
  refine doWhile_none (I := Rounds c 0) (k := c.fb.size - row) (by omega)
    ⟨rfl, Redrawn.refl c⟩ ?_ ?_
  · intro i hi cur c' h
    exact movePixel_round h (by omega) hsize
  · intro cur c' h
    have hcur := h.1
    have hsame := h.2.size
    apply bind_of_none
    rw [Nat.mod_eq_of_lt (by omega)]
    exact load_none (by omega)

/-- The pixels of the rows of text are pixels of the framebuffer. -/
theorem rows_le (width height : Nat) : width * (height / 16 * 16) ≤ width * height :=
  Nat.mul_le_mul_left _ (Nat.div_mul_le_self _ _)

theorem scrollRow_eq (hheight : 16 ≤ height) (hfits : width * height < 2 ^ 32) :
    uint (width * fontHeight) = width * 16 := by
  have hrow : width * 16 ≤ width * height := Nat.mul_le_mul_left _ hheight
  have hfont : fontHeight = 16 := rfl
  rw [hfont]
  exact Nat.mod_eq_of_lt (by omega)

theorem scrollCount_eq (hwidth : 0 < width) (hheight : 16 ≤ height)
    (hfits : width * height < 2 ^ 32) :
    uint (width * uint (uint (height / 16 + 2 ^ 32 - 1) * fontHeight)) =
      width * ((height / 16 - 1) * 16) := by
  have hle : height ≤ width * height := Nat.le_mul_of_pos_left _ hwidth
  have hrows := rows_le width height
  have hmove : width * ((height / 16 - 1) * 16) ≤ width * (height / 16 * 16) :=
    Nat.mul_le_mul_left _ (by omega)
  have hfont : fontHeight = 16 := rfl
  have hminus : uint (height / 16 + 2 ^ 32 - 1) = height / 16 - 1 := by
    unfold uint
    omega
  have hlines : uint ((height / 16 - 1) * 16) = (height / 16 - 1) * 16 := by
    unfold uint
    omega
  rw [hminus, hfont, hlines]
  exact Nat.mod_eq_of_lt (by omega)

/-- With two rows of text there is something to move up. -/
theorem fbScrollup_returns (hwidth : 8 ≤ width) (hheight : 32 ≤ height)
    (hfits : width * height < 2 ^ 32) (h : Fits width height c) :
    Returns fbScrollup c (fun _ c' => Redrawn c c') := by
  have hrows := rows_le width height
  have hsplit : width * ((height / 16 - 1) * 16) + width * 16 = width * (height / 16 * 16) := by
    rw [← Nat.mul_add]
    congr 1
    omega
  have hcount : 0 < width * ((height / 16 - 1) * 16) := Nat.mul_pos (by omega) (by omega)
  have hsize := h.size_eq
  simp only [fbScrollup, returns_bind, returns_get, returns_pure, h.width_eq, h.maxY_eq,
    scrollCount_eq (show 0 < width by omega) (show 16 ≤ height by omega) hfits,
    scrollRow_eq (show 16 ≤ height by omega) hfits]
  refine (moveUp_returns hcount (by omega) (by omega)).mono ?_
  intro cur c' h'
  have hcur := h'.1
  have hsize' := h'.2.size
  exact (cleanUp_returns (by omega) (by omega) (by omega)).mono fun _ _ h'' => h'.2.trans h''.2

/-- With one there is not: the count starts at zero. -/
theorem fbScrollup_none (hwidth : 0 < width) (hheight : 16 ≤ height) (hone : height / 16 = 1)
    (hfits : width * height < 2 ^ 32) (h : Fits width height c) : fbScrollup c = none := by
  have hcount : uint (width * uint (uint (height / 16 + 2 ^ 32 - 1) * fontHeight)) = 0 := by
    rw [scrollCount_eq hwidth hheight hfits, hone]
    rfl
  have hrow : width * 16 ≤ width * height := Nat.mul_le_mul_left _ hheight
  have hsize := h.size_eq
  rw [fbScrollup, bind_of_some rfl]
  apply bind_of_none
  rw [h.width_eq, h.maxY_eq, hcount, scrollRow_eq hheight hfits]
  exact moveUp_none (by omega) (by omega)

end Scroll

/-! ## Output -/

section Output

variable {c : State} {ch : Int8} {font : Fin 2048 → UInt8} {width height : Nat}

/-- The pixels of a character whose column and line are on the grid. -/
theorem cell_le {x y j : Nat} (hx : x * 8 + 8 ≤ width) (hy : y * 16 + j + 1 ≤ height) :
    x * 8 + y * 16 * width + j * width + 8 ≤ width * height :=
  calc x * 8 + y * 16 * width + j * width + 8
      = (y * 16 + j) * width + (x * 8 + 8) := by ring
    _ ≤ (y * 16 + j) * width + width := Nat.add_le_add_left hx _
    _ = width * (y * 16 + j + 1) := by ring
    _ ≤ width * height := Nat.mul_le_mul_left _ hy

theorem drawChar_returns (hch : 0 < ch) (hheight : 16 ≤ height) (hfits : width * height < 2 ^ 32)
    (h : OnGrid width height c) (hx : c.posX < c.maxX) :
    Returns (drawChar font ch) c (fun _ c' => OnGrid width height c') := by
  have hsize := h.size_eq
  have hmaxX := h.maxX_eq
  have hmaxY := h.maxY_eq
  have hposY := h.posY_lt
  have hrow : width * 16 ≤ width * height := Nat.mul_le_mul_left _ hheight
  have hle : height ≤ width * height := Nat.le_mul_of_pos_left _ (by omega)
  have hcell : ∀ j < 16, c.posX * 8 + c.posY * 16 * width + j * width + 8 ≤ width * height :=
    fun j hj => cell_le (by omega) (by omega)
  have hfirst := hcell 0 (by decide)
  obtain ⟨cur, hcur⟩ : ∃ cur, cur = c.posX * 8 + c.posY * 16 * width := ⟨_, rfl⟩
  have hstart : (c.posX * fontWidth + uint (uint (c.posY * fontHeight) * c.width)) % 2 ^ 64 = cur := by
    have hy : uint (c.posY * fontHeight) = c.posY * 16 :=
      Nat.mod_eq_of_lt (show c.posY * 16 < 2 ^ 32 by omega)
    have hyx : uint (c.posY * 16 * width) = c.posY * 16 * width := Nat.mod_eq_of_lt (by omega)
    rw [hy, h.width_eq, hyx, hcur]
    exact Nat.mod_eq_of_lt (show c.posX * 8 + c.posY * 16 * width < 2 ^ 64 by omega)
  have hrows : Returns (forTo fontHeight (drawRow font ch) cur) c
      (fun _ c' => Redrawn c c') := by
    refine (forTo_returns (I := fun j cur' c' => cur' = cur + j * width ∧ Redrawn c c')
      ⟨by simp, Redrawn.refl c⟩ ?_).mono fun _ _ h' => h'.2
    rintro j hj cur' c' ⟨rfl, hr⟩
    have hj' : j < 16 := hj
    have hcell' := hcell j hj'
    have hsize' := hr.size
    have hwidth := hr.width.trans h.width_eq
    refine (drawRow_returns hch hj' (by omega) (by omega)).mono ?_
    rintro _ c'' ⟨rfl, hr'⟩
    have hjrow : j * width ≤ 16 * width := Nat.mul_le_mul_right _ hj'.le
    refine ⟨?_, hr.trans hr'⟩
    rw [hwidth, Nat.mod_eq_of_lt (by omega), Nat.add_mul]
    omega
  simp only [drawChar, returns_bind, returns_get, returns_modify, hstart]
  refine hrows.mono fun _ c' hr => ?_
  have hx' : uint (c'.posX + 1) = c.posX + 1 := by
    rw [hr.posX]
    exact Nat.mod_eq_of_lt (by omega)
  have hfits' := h.toFits.redrawn hr
  exact {
    toFits := ⟨hfits'.size_eq, hfits'.width_eq, hfits'.maxX_eq, hfits'.maxY_eq⟩
    posX_le := by
      show uint (c'.posX + 1) ≤ c'.maxX
      rw [hx', hr.maxX]
      exact hx
    posY_lt := by
      show c'.posY < c'.maxY
      rw [hr.posY, hr.maxY]
      exact hposY }

/-- Between the two tests the cursor may be below the grid. -/
structure BelowGrid (width height : Nat) (ch : Int8) (c : State) : Prop
    extends Fits width height c where
  posX_le : c.posX ≤ c.maxX
  posX_lt : ch ≠ 10 → c.posX < c.maxX
  posY_le : c.posY ≤ c.maxY

theorem endLine_returns (hwidth : 8 ≤ width) (hheight : 16 ≤ height)
    (hfits : width * height < 2 ^ 32) (h : OnGrid width height c) :
    Returns (endLine ch) c (fun _ c' => BelowGrid width height ch c') := by
  have hmaxX := h.maxX_eq
  have hmaxY := h.maxY_eq
  have hposX := h.posX_le
  have hposY := h.posY_lt
  have hle : height ≤ width * height := Nat.le_mul_of_pos_left _ (by omega)
  simp only [endLine, returns_bind, returns_get]
  by_cases hend : ch = 10 ∨ c.posX = c.maxX
  · have hy : uint (c.posY + 1) = c.posY + 1 := Nat.mod_eq_of_lt (by omega)
    rw [if_pos hend, returns_set, hy]
    have hmaxX' : 0 < c.maxX := by omega
    exact {
      size_eq := h.size_eq
      width_eq := h.width_eq
      maxX_eq := hmaxX
      maxY_eq := hmaxY
      posX_le := Nat.zero_le _
      posX_lt := fun _ => hmaxX'
      posY_le := hposY }
  · rw [if_neg hend, returns_pure]
    rw [not_or] at hend
    exact {
      toFits := h.toFits
      posX_le := hposX
      posX_lt := fun _ => lt_of_le_of_ne hposX hend.2
      posY_le := hposY.le }

theorem endScreen_returns (hwidth : 8 ≤ width) (hheight : 32 ≤ height)
    (hfits : width * height < 2 ^ 32) (h : BelowGrid width height ch c) :
    Returns endScreen c (fun _ c' => OnGrid width height c' ∧ (ch ≠ 10 → c'.posX < c'.maxX)) := by
  have hmaxY := h.maxY_eq
  have hposY := h.posY_le
  have hle : height ≤ width * height := Nat.le_mul_of_pos_left _ (by omega)
  simp only [endScreen, returns_bind, returns_get]
  by_cases hend : c.posY = c.maxY
  · have hy : uint (c.posY + 2 ^ 32 - 1) = c.posY - 1 := by
      unfold uint
      omega
    rw [if_pos hend, hy]
    simp only [returns_bind, returns_set]
    have hback : Fits width height { c with posY := c.posY - 1 } :=
      ⟨h.size_eq, h.width_eq, h.maxX_eq, hmaxY⟩
    refine (fbScrollup_returns hwidth hheight hfits hback).mono fun _ c' hr => ⟨?_, ?_⟩
    · exact {
        toFits := hback.redrawn hr
        posX_le := by
          rw [hr.posX, hr.maxX]
          exact h.posX_le
        posY_lt := by
          rw [hr.posY, hr.maxY]
          show c.posY - 1 < c.maxY
          omega }
    · rw [hr.posX, hr.maxX]
      exact h.posX_lt
  · rw [if_neg hend, returns_pure]
    exact ⟨⟨h.toFits, h.posX_le, lt_of_le_of_ne hposY hend⟩, h.posX_lt⟩

theorem fbOutput_returns (hwidth : 8 ≤ width) (hheight : 32 ≤ height)
    (hfits : width * height < 2 ^ 32) (h : OnGrid width height c) :
    Returns (fbOutput font ch) c (fun _ c' => OnGrid width height c') := by
  have hascii : ∀ ch : Int8, 0 < ch →
      Returns (outputAscii font ch) c (fun _ c' => OnGrid width height c') := by
    intro ch hch
    simp only [outputAscii, returns_bind]
    refine (endLine_returns hwidth (by omega) hfits h).mono fun _ c₁ h₁ => ?_
    refine (endScreen_returns hwidth hheight hfits h₁).mono fun _ c₂ h₂ => ?_
    by_cases hnl : ch = 10
    · rw [if_pos hnl, returns_pure]
      exact h₂.1
    · rw [if_neg hnl]
      exact drawChar_returns hch (by omega) hfits h₂.1 (h₂.2 hnl)
  rw [fbOutput]
  by_cases hch : ch ≤ 0
  · rw [if_pos hch]
    split
    · exact returns_pure.mpr h
    · exact hascii 63 (by decide)
  · rw [if_neg hch]
    exact hascii ch (Int8.not_le.mp hch)

/-- A whole text. -/
theorem output_returns (hwidth : 8 ≤ width) (hheight : 32 ≤ height)
    (hfits : width * height < 2 ^ 32) (h : OnGrid width height c) (text : List Int8) :
    Returns (forM text (fbOutput font)) c (fun _ c' => OnGrid width height c') := by
  induction text generalizing c with
  | nil => exact returns_pure.mpr h
  | cons ch text ih =>
    rw [List.forM_cons, returns_bind]
    exact (fbOutput_returns hwidth hheight hfits h).mono fun _ _ h' => ih h'

end Output

section OneRow

variable {c : State} {ch : Int8} {font : Fin 2048 → UInt8} {width height : Nat}

/-- The cursor cannot leave the only line. -/
theorem endLine_one (hwidth : 8 ≤ width) (hheight : 16 ≤ height) (hone : height / 16 = 1)
    (hfits : width * height < 2 ^ 32) (h : OnGrid width height c)
    (hend : ch = 10 ∨ c.posX = c.maxX) :
    ∃ c', endLine ch c = some ((), c') ∧ endScreen c' = none := by
  have hmaxY := h.maxY_eq
  have hposY := h.posY_lt
  have hy : uint (c.posY + 1) = c.maxY := by
    unfold uint
    omega
  have hback : Fits width height { c with posX := 0, posY := uint (c.maxY + 2 ^ 32 - 1) } :=
    ⟨h.size_eq, h.width_eq, h.maxX_eq, hmaxY⟩
  have hscroll := fbScrollup_none (by omega) hheight hone hfits hback
  refine ⟨{ c with posX := 0, posY := c.maxY }, ?_, ?_⟩
  · rw [endLine, bind_of_some rfl, if_pos hend, hy]
    rfl
  · rw [endScreen, bind_of_some rfl, if_pos rfl, bind_of_some rfl]
    exact hscroll

theorem outputAscii_one (hch : 0 < ch) (hwidth : 8 ≤ width) (hheight : 16 ≤ height)
    (hone : height / 16 = 1) (hfits : width * height < 2 ^ 32) (h : OnGrid width height c) :
    outputAscii font ch c = none ∨
      ch ≠ 10 ∧ Returns (outputAscii font ch) c (fun _ c' => OnGrid width height c') := by
  have hmaxY := h.maxY_eq
  have hposY := h.posY_lt
  by_cases hend : ch = 10 ∨ c.posX = c.maxX
  · left
    obtain ⟨c', hline, hscreen⟩ := endLine_one hwidth hheight hone hfits h hend
    rw [outputAscii, bind_of_some hline]
    exact bind_of_none hscreen
  · right
    have hstay := hend
    rw [not_or] at hstay
    refine ⟨hstay.1, ?_⟩
    simp only [outputAscii, endLine, endScreen, returns_bind, returns_get, if_neg hend, returns_pure,
      if_neg hposY.ne, if_neg hstay.1]
    exact drawChar_returns hch hheight hfits h (lt_of_le_of_ne h.posX_le hstay.2)

theorem fbOutput_one (hwidth : 8 ≤ width) (hheight : 16 ≤ height)
    (hone : height / 16 = 1) (hfits : width * height < 2 ^ 32) (h : OnGrid width height c) :
    fbOutput font ch c = none ∨
      ch ≠ 10 ∧ Returns (fbOutput font ch) c (fun _ c' => OnGrid width height c') := by
  rw [fbOutput]
  by_cases hch : ch ≤ 0
  · have hne : ch ≠ 10 := fun heq => absurd (heq ▸ hch) (by decide)
    rw [if_pos hch]
    split
    · exact Or.inr ⟨hne, returns_pure.mpr h⟩
    · have hpos : (0 : Int8) < 63 := by decide
      have hmark : _ ∨ _ ∧ Returns (outputAscii font 63) c _ :=
        outputAscii_one hpos hwidth hheight hone hfits h
      exact hmark.imp_right fun h' => ⟨hne, h'.2⟩
  · rw [if_neg hch]
    exact outputAscii_one (Int8.not_le.mp hch) hwidth hheight hone hfits h

/-- A text with a newline in it cannot be printed. -/
theorem output_none (hwidth : 8 ≤ width) (hheight : 16 ≤ height) (hone : height / 16 = 1)
    (hfits : width * height < 2 ^ 32) (h : OnGrid width height c) {text : List Int8}
    (hnl : 10 ∈ text) : forM text (fbOutput font) c = none := by
  induction text generalizing c with
  | nil => exact absurd hnl List.not_mem_nil
  | cons ch text ih =>
    rw [List.forM_cons]
    have hone' : fbOutput font ch c = none ∨ _ := fbOutput_one hwidth hheight hone hfits h
    rcases hone' with hnone | ⟨hne, _, c', hx, h'⟩
    · exact bind_of_none hnone
    · rw [bind_of_some hx]
      exact ih h' ((List.mem_cons.mp hnl).resolve_left hne.symm)

end OneRow

/-- Every call of `fb_output`, in `fb_init` and after it, leaves the cursor on the grid, and
all pixels that were read or written on the way are those of the framebuffer. -/
structure StaysInside (font : Fin 2048 → UInt8) (width height : Nat) (text : List Int8)
    (c : State) : Prop where
  hello : ∀ printed, printed <+: helloStatement →
    Returns (do clearScreen width height; forM printed (fbOutput font)) c
      (fun _ c' => c'.posX ≤ c'.maxX ∧ c'.posY < c'.maxY)
  text : ∀ printed, printed <+: text →
    Returns (do fbInit font width height; forM printed (fbOutput font)) c
      (fun _ c' => c'.posX ≤ c'.maxX ∧ c'.posY < c'.maxY)

section Init

variable {c : State} {font : Fin 2048 → UInt8} {width height : Nat}

theorem clearScreen_returns (hheight : 16 ≤ height) (hsize : c.fb.size = width * height) :
    Returns (clearScreen width height) c (fun _ c' => OnGrid width height c') := by
  have hclear : Returns (forTo (width * height) (fun i _ => store i 0) ()) c
      (fun _ c' => Redrawn c c') := by
    refine forTo_returns (I := fun _ _ c' => Redrawn c c') (Redrawn.refl c) ?_
    intro i hi _ c' hr
    rw [← hsize, ← hr.size] at hi
    exact (store_returns hi).mono fun _ _ hr' => hr.trans hr'
  simp only [clearScreen, returns_bind, returns_modify]
  refine hclear.mono fun _ c' hr => ?_
  exact {
    size_eq := hr.size.trans hsize
    width_eq := rfl
    maxX_eq := rfl
    maxY_eq := rfl
    posX_le := Nat.zero_le _
    posY_lt := Nat.div_pos hheight (by decide) }

theorem fbInit_returns (hwidth : 8 ≤ width) (hheight : 32 ≤ height)
    (hfits : width * height < 2 ^ 32) (hsize : c.fb.size = width * height) :
    Returns (fbInit font width height) c (fun _ c' => OnGrid width height c') := by
  rw [fbInit, returns_bind]
  exact (clearScreen_returns (by omega) hsize).mono fun _ _ h =>
    output_returns hwidth hheight hfits h _

theorem staysInside (hwidth : 8 ≤ width) (hheight : 32 ≤ height)
    (hfits : width * height < 2 ^ 32) (hsize : c.fb.size = width * height) (text : List Int8) :
    StaysInside font width height text c where
  hello printed _ := by
    rw [returns_bind]
    refine (clearScreen_returns (by omega) hsize).mono fun _ _ h => ?_
    exact (output_returns hwidth hheight hfits h printed).mono fun _ _ h' => ⟨h'.posX_le, h'.posY_lt⟩
  text printed _ := by
    rw [returns_bind]
    refine (fbInit_returns hwidth hheight hfits hsize).mono fun _ _ h => ?_
    exact (output_returns hwidth hheight hfits h printed).mono fun _ _ h' => ⟨h'.posX_le, h'.posY_lt⟩

/-- `fb_init` prints newlines, so it fails with a single row of text. -/
theorem fbInit_none (hwidth : 8 ≤ width) (hheight : 16 ≤ height) (hone : height / 16 = 1)
    (hfits : width * height < 2 ^ 32) (hsize : c.fb.size = width * height) :
    fbInit font width height c = none := by
  obtain ⟨_, c', hx, h⟩ := clearScreen_returns (c := c) hheight hsize
  rw [fbInit, bind_of_some hx]
  exact output_none hwidth hheight hone hfits h (by decide)

theorem not_staysInside (hwidth : 8 ≤ width) (hheight : 16 ≤ height) (hone : height / 16 = 1)
    (hfits : width * height < 2 ^ 32) (hsize : c.fb.size = width * height) (text : List Int8) :
    ¬ StaysInside font width height text c := by
  intro h
  apply not_returns _ (h.text [] List.nil_prefix)
  exact bind_of_none (fbInit_none hwidth hheight hone hfits hsize)

variable (font) in
/-- **The console stays inside the framebuffer if it has two rows of text.** With one row
`fb_init` itself leaves it. -/
theorem stays_inside_iff (hwidth : 8 ≤ width) (hheight : 16 ≤ height)
    (hfits : width * height < 2 ^ 32) (hsize : c.fb.size = width * height) (text : List Int8) :
    StaysInside font width height text c ↔ 32 ≤ height := by
  constructor
  · intro h
    by_contra hlt
    exact not_staysInside hwidth hheight (by omega) hfits hsize text h
  · exact fun h => staysInside hwidth h hfits hsize text

/-- A framebuffer of 8 by `height` pixels, at power-on. -/
def blank (height : Nat) : State := ⟨Array.replicate (8 * height) 0, 0, 0, 0, 0, 0⟩

theorem stays_inside_iff_two : StaysInside (fun _ => 0xFF) 8 32 [65, 10, -1] (blank 32) :=
  (stays_inside_iff (fun _ => 0xFF) (by decide) (by decide) (by decide)
    Array.size_replicate [65, 10, -1]).2 (by decide)

theorem stays_inside_one : ¬ StaysInside (fun _ => 0xFF) 8 16 [] (blank 16) :=
  not_staysInside (by decide) (by decide) (by decide) (by decide) Array.size_replicate []

end Init

end Console
end Cmpsc473
