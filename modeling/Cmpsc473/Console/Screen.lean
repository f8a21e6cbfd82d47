import Cmpsc473.Console.Cursor
import Cmpsc473.Library.Page

/-!
# What the screen shows

The console is a window on a page of text.  The page has a column for every eight
pixels of a row and the window a row for every sixteen lines of pixels.  Every pixel
of the framebuffer is that of the character in its cell, or black.
-/

namespace Cmpsc473
namespace Console

open Total Loop

/-- What `Fb[k]` is. -/
def State.pixel (c : State) (k : Nat) : UInt32 := c.fb.getD k 0

/-- The pixel of a character in line `j` of its cell, at column `i`. -/
def glyph (font : Fin 2048 → UInt8) (ch : Int8) (j i : Nat) : UInt32 :=
  if h : ch.toUInt8.toNat * 16 + j < 2048 then
    if (font ⟨ch.toUInt8.toNat * 16 + j, h⟩).toNat.testBit (7 - i) then 0xFFFFFFFF else 0
  else 0

section Pixels

variable {c : State} {font : Fin 2048 → UInt8} {i k cur : Nat} {v : UInt32}

theorem load_pixel (h : i < c.fb.size) :
    Returns (load i) c (fun v c' => v = c.pixel i ∧ c' = c) := by
  refine ⟨c.fb[i], c, by simp [load, h], ?_, rfl⟩
  simp [State.pixel, h]

theorem store_pixel (h : i < c.fb.size) : Returns (store i v) c
    (fun _ c' => Redrawn c c' ∧ ∀ k, c'.pixel k = if k = i then v else c.pixel k) := by
  refine ⟨(), _, if_pos h, ⟨Array.size_setIfInBounds, rfl, rfl, rfl, rfl, rfl⟩, fun k => ?_⟩
  unfold State.pixel
  rw [Array.getD_eq_getD_getElem?, Array.getD_eq_getD_getElem?, Array.getElem?_setIfInBounds]
  by_cases hk : i = k
  · rw [if_pos hk, if_pos h, if_pos hk.symm]
    rfl
  · rw [if_neg hk, if_neg fun heq => hk heq.symm]

theorem drawPixel_pixel {bitmap : Int8} (hsize : c.fb.size < 2 ^ 64) (h : cur + i < c.fb.size) :
    Returns (drawPixel cur i bitmap) c (fun bitmap' c' => bitmap' = bitmap <<< 1 ∧ Redrawn c c' ∧
      ∀ k, c'.pixel k =
        if k = cur + i then (bitmap >>> 7).toInt32.toUInt32 else c.pixel k) := by
  simp only [drawPixel, returns_bind, Nat.mod_eq_of_lt (h.trans hsize)]
  exact (store_pixel h).mono fun _ _ hs => returns_pure.mpr ⟨rfl, hs⟩

/-- What is left of a bitmap after some pixels. -/
def rest (byte : UInt8) : Nat → Int8
  | 0 => byte.toInt8
  | i + 1 => rest byte i <<< 1

/-- The sign of what is left is the next bit. -/
theorem rest_sign (byte : UInt8) (hi : i < 8) : (rest byte i >>> 7).toInt32.toUInt32 =
    if byte.toNat.testBit (7 - i) then 0xFFFFFFFF else 0 := by
  have hall : ∀ b < 256, ∀ i < 8, (rest (UInt8.ofNat b) i >>> 7).toInt32.toUInt32 =
      if b.testBit (7 - i) then 0xFFFFFFFF else 0 := by
    decide +kernel
  have hbyte := hall byte.toNat byte.toNat_lt i hi
  rwa [UInt8.ofNat_toNat] at hbyte

theorem drawRow_pixel {ch : Int8} {j : Nat} (hch : 0 < ch) (hj : j < 16)
    (hsize : c.fb.size < 2 ^ 64) (h : cur + 8 ≤ c.fb.size) :
    Returns (drawRow font ch j cur) c (fun cur' c' => cur' = (cur + c.width) % 2 ^ 64 ∧
      Redrawn c c' ∧ ∀ k, c'.pixel k =
        if cur ≤ k ∧ k < cur + 8 then glyph font ch j (k - cur) else c.pixel k) := by
  have hbyte : ch.toUInt8.toNat * 16 + j < 2048 := by
    have hlt := toUInt8_lt hch
    omega
  have hfont : fontByte font (ch.toUInt8.toNat * (fontWidth * fontHeight / 8) + j) c =
      some (font ⟨_, hbyte⟩, c) := dif_pos hbyte
  obtain ⟨byte, hbyte'⟩ : ∃ byte, byte = font ⟨_, hbyte⟩ := ⟨_, rfl⟩
  rw [← hbyte'] at hfont
  simp only [drawRow, returns_bind, returns_get, returns_pure]
  rw [returns_of_eq hfont]
  have hpixels : Returns (forTo fontWidth (drawPixel cur) byte.toInt8) c fun _ c' =>
      Redrawn c c' ∧ ∀ k, c'.pixel k =
        if cur ≤ k ∧ k < cur + 8 then glyph font ch j (k - cur) else c.pixel k := by
    refine (forTo_returns (I := fun i bitmap c' => bitmap = rest byte i ∧ Redrawn c c' ∧
      ∀ k, c'.pixel k = if cur ≤ k ∧ k < cur + i then glyph font ch j (k - cur) else c.pixel k)
      ⟨rfl, Redrawn.refl c, fun k => by rw [if_neg (by omega)]⟩ ?_).mono fun _ _ h' => h'.2
    rintro i hi bitmap c' ⟨rfl, hr, hpixel⟩
    have hi' : i < 8 := hi
    have hsame := hr.size
    refine (drawPixel_pixel (by omega) (by omega)).mono ?_
    rintro _ c'' ⟨rfl, hr', hpixel'⟩
    refine ⟨rfl, hr.trans hr', fun k => ?_⟩
    rw [hpixel', hpixel]
    by_cases hk : k = cur + i
    · have hsub : k - cur = i := by omega
      rw [if_pos hk, if_pos (by omega), hsub, glyph, dif_pos hbyte, ← hbyte', rest_sign byte hi']
    · rw [if_neg hk]
      exact if_congr (by omega) rfl rfl
  refine hpixels.mono fun _ c' hr => ⟨?_, hr⟩
  rw [hr.1.width]

/-- The eight pixels of a character in a line of pixels, by their coordinates. -/
theorem offset_iff {width x y r column : Nat} (hx : x < width) (hcolumn : column * 8 + 8 ≤ width) :
    (column * 8 + r * width ≤ y * width + x ∧ y * width + x < column * 8 + r * width + 8) ↔
      y = r ∧ x / 8 = column := by
  rcases Nat.lt_trichotomy y r with hlt | rfl | hgt
  · have hmul : (y + 1) * width ≤ r * width := Nat.mul_le_mul_right _ hlt
    rw [Nat.add_mul] at hmul
    omega
  · omega
  · have hmul : (r + 1) * width ≤ y * width := Nat.mul_le_mul_right _ hgt
    rw [Nat.add_mul] at hmul
    omega

end Pixels

section Characters

variable {c : State} {font : Fin 2048 → UInt8} {ch : Int8} {width height : Nat}

/-- The first pixel of the place for a character, in the arithmetic of `fb_output`. -/
theorem first_eq (hfits : width * height < 2 ^ 32)
    (h : Fits width height c) (hx : c.posX < c.maxX) (hy : c.posY < c.maxY) :
    (c.posX * fontWidth + uint (uint (c.posY * fontHeight) * c.width)) % 2 ^ 64 =
      c.posX * 8 + c.posY * 16 * width := by
  have hmaxX := h.maxX_eq
  have hmaxY := h.maxY_eq
  have hle : height ≤ width * height := Nat.le_mul_of_pos_left _ (by omega)
  have hcell : c.posX * 8 + c.posY * 16 * width + 0 * width + 8 ≤ width * height :=
    cell_le (by omega) (by omega)
  have hy : uint (c.posY * fontHeight) = c.posY * 16 :=
    Nat.mod_eq_of_lt (show c.posY * 16 < 2 ^ 32 by omega)
  have hyx : uint (c.posY * 16 * width) = c.posY * 16 * width := Nat.mod_eq_of_lt (by omega)
  rw [hy, h.width_eq, hyx]
  exact Nat.mod_eq_of_lt (show c.posX * 8 + c.posY * 16 * width < 2 ^ 64 by omega)

/-- The rows of a character, one below the other. -/
theorem drawRows_pixel (hch : 0 < ch) (hheight : 16 ≤ height) (hfits : width * height < 2 ^ 32)
    (h : Fits width height c) (hx : c.posX < c.maxX) (hy : c.posY < c.maxY) :
    Returns (forTo fontHeight (drawRow font ch) (c.posX * 8 + c.posY * 16 * width)) c
      (fun _ c' => Redrawn c c' ∧ ∀ x < width, ∀ y, c'.pixel (y * width + x) =
        if y / 16 = c.posY ∧ x / 8 = c.posX ∧ y % 16 < 16 then glyph font ch (y % 16) (x % 8)
        else c.pixel (y * width + x)) := by
  have hsize := h.size_eq
  have hmaxX := h.maxX_eq
  have hmaxY := h.maxY_eq
  have hrow : width * 16 ≤ width * height := Nat.mul_le_mul_left _ hheight
  have hcell : ∀ j < 16, c.posX * 8 + c.posY * 16 * width + j * width + 8 ≤ width * height :=
    fun j hj => cell_le (by omega) (by omega)
  refine (forTo_returns (I := fun j cur c' => cur = c.posX * 8 + c.posY * 16 * width + j * width ∧
    Redrawn c c' ∧ ∀ x < width, ∀ y, c'.pixel (y * width + x) =
      if y / 16 = c.posY ∧ x / 8 = c.posX ∧ y % 16 < j then glyph font ch (y % 16) (x % 8)
      else c.pixel (y * width + x))
    ⟨by simp, Redrawn.refl c, fun x hx y => by rw [if_neg (by omega)]⟩ ?_).mono fun _ _ h' => h'.2
  rintro j hj cur c' ⟨rfl, hr, hpixel⟩
  have hj' : j < 16 := hj
  have hcell' := hcell j hj'
  have hsize' := hr.size
  have hwidth := hr.width.trans h.width_eq
  refine (drawRow_pixel hch hj' (by omega) (by omega)).mono ?_
  rintro _ c'' ⟨rfl, hr', hpixel'⟩
  have hjrow : j * width ≤ 16 * width := Nat.mul_le_mul_right _ hj'.le
  refine ⟨?_, hr.trans hr', fun x hx y => ?_⟩
  · rw [hwidth, Nat.mod_eq_of_lt (by omega), Nat.add_mul]
    omega
  · have hline : c.posX * 8 + c.posY * 16 * width + j * width =
        c.posX * 8 + (c.posY * 16 + j) * width := by
      rw [Nat.add_mul, Nat.add_assoc]
    have hoffset := offset_iff (y := y) (r := c.posY * 16 + j) hx
      (show c.posX * 8 + 8 ≤ width by omega)
    rw [hpixel', hpixel x hx, hline]
    by_cases hin : y = c.posY * 16 + j ∧ x / 8 = c.posX
    · have hj : y % 16 = j := by omega
      have hi : y * width + x - (c.posX * 8 + (c.posY * 16 + j) * width) = x % 8 := by
        rw [hin.1]
        omega
      rw [if_pos (hoffset.mpr hin), if_pos (by omega), hi, hj]
    · rw [if_neg fun hk => hin (hoffset.mp hk)]
      exact if_congr (by omega) rfl rfl

theorem drawChar_pixel (hch : 0 < ch) (hheight : 16 ≤ height) (hfits : width * height < 2 ^ 32)
    (h : Fits width height c) (hx : c.posX < c.maxX) (hy : c.posY < c.maxY) :
    Returns (drawChar font ch) c (fun _ c' => Fits width height c' ∧ c'.posX = c.posX + 1 ∧
      c'.posY = c.posY ∧ ∀ x < width, ∀ y, c'.pixel (y * width + x) =
        if y / 16 = c.posY ∧ x / 8 = c.posX then glyph font ch (y % 16) (x % 8)
        else c.pixel (y * width + x)) := by
  have hmaxX := h.maxX_eq
  have hle : width ≤ width * height := Nat.le_mul_of_pos_right _ (by omega)
  simp only [drawChar, returns_bind, returns_get, returns_modify,
    first_eq hfits h hx hy]
  refine (drawRows_pixel hch hheight hfits h hx hy).mono fun _ c' hr => ?_
  obtain ⟨hr, hpixel⟩ := hr
  have hfits' := h.redrawn hr
  refine ⟨⟨hfits'.size_eq, hfits'.width_eq, hfits'.maxX_eq, hfits'.maxY_eq⟩, ?_, hr.posY, ?_⟩
  · show uint (c'.posX + 1) = _
    rw [hr.posX]
    exact Nat.mod_eq_of_lt (by omega)
  · intro x hx y
    have hmod : y % 16 < 16 := Nat.mod_lt y (by decide)
    refine (hpixel x hx y).trans (if_congr ?_ rfl rfl)
    exact ⟨fun hc => ⟨hc.1, hc.2.1⟩, fun hc => ⟨hc.1, hc.2, hmod⟩⟩

end Characters

section Scroll

variable {c : State} {count row width height : Nat}

/-- The loop reads each pixel before it is overwritten. -/
theorem moveUp_pixel (hcount : 0 < count) (hrow : 0 < row) (hfits : count + row ≤ c.fb.size)
    (hsize : c.fb.size < 2 ^ 64) :
    Returns (doWhile (movePixel row) count 0) c (fun cur c' => cur = count ∧ Redrawn c c' ∧
      ∀ k, c'.pixel k = if k < count then c.pixel (k + row) else c.pixel k) := by
  refine doWhile_returns (I := fun i cur c' => cur = i ∧ Redrawn c c' ∧
    ∀ k, c'.pixel k = if k < i then c.pixel (k + row) else c.pixel k)
    hcount (by omega) ⟨rfl, Redrawn.refl c, fun k => rfl⟩ ?_
  rintro i hi cur c' ⟨rfl, hr, hpixel⟩
  have hsame := hr.size
  simp only [movePixel, returns_bind, returns_pure,
    Nat.mod_eq_of_lt (show cur + row < 2 ^ 64 by omega),
    Nat.mod_eq_of_lt (show cur + 1 < 2 ^ 64 by omega), true_and]
  refine (load_pixel (by omega)).mono ?_
  rintro v c₁ ⟨rfl, rfl⟩
  refine (store_pixel (by omega)).mono ?_
  rintro _ c'' ⟨hr', hpixel'⟩
  refine ⟨hr.trans hr', fun k => ?_⟩
  rw [hpixel', hpixel, hpixel]
  by_cases hk : k = cur
  · rw [hk, if_pos rfl, if_neg (by omega), if_pos (Nat.lt_succ_self cur)]
  · rw [if_neg hk]
    exact if_congr (by omega) rfl rfl

theorem cleanUp_pixel (hrow : 0 < row) (hfits : count + row ≤ c.fb.size)
    (hsize : c.fb.size < 2 ^ 64) :
    Returns (doWhile clearPixel row count) c (fun _ c' => Redrawn c c' ∧
      ∀ k, c'.pixel k = if count ≤ k ∧ k < count + row then 0 else c.pixel k) := by
  refine (doWhile_returns (I := fun i cur c' => cur = count + i ∧ Redrawn c c' ∧
    ∀ k, c'.pixel k = if count ≤ k ∧ k < count + i then 0 else c.pixel k)
    hrow (by omega) ⟨rfl, Redrawn.refl c, fun k => by rw [if_neg (by omega)]⟩ ?_).mono
    fun _ _ h => h.2
  rintro i hi cur c' ⟨rfl, hr, hpixel⟩
  have hsame := hr.size
  simp only [clearPixel, returns_bind, returns_pure,
    Nat.mod_eq_of_lt (show count + i + 1 < 2 ^ 64 by omega)]
  refine (store_pixel (by omega)).mono ?_
  rintro _ c'' ⟨hr', hpixel'⟩
  refine ⟨rfl, hr.trans hr', fun k => ?_⟩
  rw [hpixel', hpixel]
  by_cases hk : k = count + i
  · rw [if_pos hk, if_pos (by omega)]
  · rw [if_neg hk]
    exact if_congr (by omega) rfl rfl

theorem lt_lines_iff {x : Nat} (hx : x < width) (y m : Nat) :
    y * width + x < width * m ↔ y < m := by
  constructor
  · intro h
    by_contra hle
    have hmul : width * m ≤ width * y := Nat.mul_le_mul_left _ (Nat.le_of_not_lt hle)
    rw [Nat.mul_comm width y] at hmul
    omega
  · intro h
    have hmul : width * (y + 1) ≤ width * m := Nat.mul_le_mul_left _ h
    rw [Nat.mul_add, Nat.mul_comm width y] at hmul
    omega

/-- Every row of text moves up, and the last one is cleared. -/
theorem fbScrollup_pixel (hwidth : 8 ≤ width) (hheight : 32 ≤ height)
    (hfits : width * height < 2 ^ 32) (h : Fits width height c) :
    Returns fbScrollup c (fun _ c' => Redrawn c c' ∧ ∀ x < width, ∀ y,
      c'.pixel (y * width + x) =
        if y < (height / 16 - 1) * 16 then c.pixel ((y + 16) * width + x)
        else if y < height / 16 * 16 then 0 else c.pixel (y * width + x)) := by
  have hrows := rows_le width height
  have hsplit : width * ((height / 16 - 1) * 16) + width * 16 = width * (height / 16 * 16) := by
    rw [← Nat.mul_add]
    congr 1
    omega
  have hcount : 0 < width * ((height / 16 - 1) * 16) := Nat.mul_pos (by omega) (by omega)
  have hsize := h.size_eq
  simp only [fbScrollup, returns_bind, returns_get, returns_pure, h.width_eq, h.maxY_eq,
    scrollCount_eq (show 0 < width by omega) (show 16 ≤ height by omega) hfits,
    scrollRow_eq (show 16 ≤ height by omega) hfits]
  refine (moveUp_pixel hcount (by omega) (by omega) (by omega)).mono ?_
  rintro _ c' ⟨rfl, hr, hpixel⟩
  have hsize' := hr.size
  refine (cleanUp_pixel (by omega) (by omega) (by omega)).mono ?_
  rintro _ c'' ⟨hr', hpixel'⟩
  refine ⟨hr.trans hr', fun x hx y => ?_⟩
  have hmove := lt_lines_iff hx y ((height / 16 - 1) * 16)
  have hclean := lt_lines_iff hx y (height / 16 * 16)
  rw [hpixel', hpixel, hsplit]
  by_cases hy : y < (height / 16 - 1) * 16
  · have hup : y * width + x + width * 16 = (y + 16) * width + x := by ring
    rw [if_neg (by omega), if_pos (hmove.mpr hy), if_pos hy, hup]
  · rw [if_neg hy, if_neg fun hk => hy (hmove.mp hk)]
    exact if_congr ⟨fun hk => hclean.mp hk.2, fun hk => ⟨by omega, hclean.mpr hk⟩⟩ rfl rfl

end Scroll

/-! ## The screen shows the page -/

/-- The color of a pixel of the window on a page. -/
def color (font : Fin 2048 → UInt8) (rows : Nat) (p : Page Int8) (x y : Nat) : UInt32 :=
  match p.cell rows (y / 16) (x / 8) with
  | none => 0
  | some ch => glyph font ch (y % 16) (x % 8)

/-- The cursor is behind the last character of the page, and the screen shows its window. -/
structure Shows (font : Fin 2048 → UInt8) (width height : Nat) (p : Page Int8) (c : State) : Prop
    extends Fits width height c where
  posX_eq : c.posX = p.line.length
  posY_eq : c.posY = p.row (height / 16)
  line_le : p.line.length ≤ width / 8
  pixel : ∀ x < width, ∀ y < height, c.pixel (y * width + x) = color font (height / 16) p x y

section Shows

variable {c : State} {font : Fin 2048 → UInt8} {width height : Nat} {p : Page Int8} {ch : Int8}

theorem color_newLine (hlt : p.row (height / 16) + 1 < height / 16) (x y : Nat) :
    color font (height / 16) p.newLine x y = color font (height / 16) p x y := by
  rw [color, color, Page.cell_newLine hlt]

theorem color_newLine_last (hrows : p.row (height / 16) + 1 = height / 16) (x y : Nat) :
    color font (height / 16) p.newLine x y = color font (height / 16) p x (y + 16) := by
  have hdiv : (y + 16) / 16 = y / 16 + 1 := Nat.add_div_right y (by decide)
  rw [color, color, Page.cell_newLine_last hrows, hdiv, Nat.add_mod_right]

theorem color_below {y : Nat} (hy : p.row (height / 16) < y / 16) (x : Nat) :
    color font (height / 16) p x y = 0 := by
  rw [color, Page.cell_below hy]

theorem color_put (hrows : 0 < height / 16) (x y : Nat) :
    color font (height / 16) (p.put ch) x y =
      if y / 16 = p.row (height / 16) ∧ x / 8 = p.line.length then glyph font ch (y % 16) (x % 8)
      else color font (height / 16) p x y := by
  rw [color, color, Page.cell_put hrows]
  by_cases h : y / 16 = p.row (height / 16) ∧ x / 8 = p.line.length
  · rw [if_pos h, if_pos h]
  · rw [if_neg h, if_neg h]

/-- The cursor leaves its line. -/
theorem endLine_shows (hwidth : 8 ≤ width) (hheight : 32 ≤ height)
    (hfits : width * height < 2 ^ 32) (h : Shows font width height p c)
    (hend : ch = 10 ∨ p.line.length = width / 8) :
    Returns (do endLine ch; endScreen) c fun _ c' => Shows font width height p.newLine c' := by
  have hle : height ≤ width * height := Nat.le_mul_of_pos_left _ (by omega)
  have hrow : p.row (height / 16) < height / 16 := Page.row_lt (by omega)
  have hposY := h.posY_eq
  have hy : uint (c.posY + 1) = c.posY + 1 := Nat.mod_eq_of_lt (by omega)
  have hleave : endLine ch c = some ((), { c with posX := 0, posY := c.posY + 1 }) := by
    have hcond : ch = 10 ∨ c.posX = c.maxX := by rwa [h.posX_eq, h.maxX_eq]
    rw [endLine, bind_of_some rfl, if_pos hcond, hy]
    rfl
  rw [returns_bind, returns_of_eq hleave]
  have hmaxY := h.maxY_eq
  simp only [endScreen, returns_bind, returns_get]
  by_cases hlast : p.row (height / 16) + 1 = height / 16
  · have hback : uint (c.posY + 1 + 2 ^ 32 - 1) = c.posY := by
      unfold uint
      omega
    rw [if_pos (by omega), hback]
    simp only [returns_bind, returns_set]
    have hfits' : Fits width height { c with posX := 0, posY := c.posY } :=
      ⟨h.size_eq, h.width_eq, h.maxX_eq, hmaxY⟩
    refine (fbScrollup_pixel hwidth hheight hfits hfits').mono ?_
    rintro _ c' ⟨hr, hpixel⟩
    refine ⟨hfits'.redrawn hr, hr.posX, ?_, Nat.zero_le _, fun x hx y hy => ?_⟩
    · rw [Page.row_newLine_last hlast, ← hposY]
      exact hr.posY
    · rw [hpixel x hx, color_newLine_last hlast]
      by_cases hup : y < (height / 16 - 1) * 16
      · rw [if_pos hup]
        exact h.pixel x hx (y + 16) (by omega)
      · rw [if_neg hup, color_below (by omega)]
        by_cases hclean : y < height / 16 * 16
        · rw [if_pos hclean]
        · rw [if_neg hclean]
          exact (h.pixel x hx y hy).trans (color_below (by omega) x)
  · rw [if_neg (by omega), returns_pure]
    refine ⟨⟨h.size_eq, h.width_eq, h.maxX_eq, h.maxY_eq⟩, rfl, ?_, Nat.zero_le _,
      fun x hx y hy => ?_⟩
    · rw [Page.row_newLine (by omega), ← hposY]
    · rw [color_newLine (by omega)]
      exact h.pixel x hx y hy

theorem drawChar_shows (hch : 0 < ch) (hheight : 16 ≤ height)
    (hfits : width * height < 2 ^ 32) (h : Shows font width height p c)
    (hlt : p.line.length < width / 8) :
    Returns (drawChar font ch) c fun _ c' => Shows font width height (p.put ch) c' := by
  have hrows : 0 < height / 16 := by omega
  have hrow : p.row (height / 16) < height / 16 := Page.row_lt hrows
  have hx : c.posX < c.maxX := by rwa [h.posX_eq, h.maxX_eq]
  have hy : c.posY < c.maxY := by rwa [h.posY_eq, h.maxY_eq]
  refine (drawChar_pixel hch hheight hfits h.toFits hx hy).mono ?_
  rintro _ c' ⟨hfits', hposX, hposY, hpixel⟩
  have hlen : (p.put ch).line.length = p.line.length + 1 := List.length_append
  refine ⟨hfits', ?_, hposY.trans h.posY_eq, by omega, fun x hx y hy => ?_⟩
  · rw [hposX, hlen, h.posX_eq]
  · rw [hpixel x hx y, color_put hrows, h.posX_eq, h.posY_eq, h.pixel x hx y hy]

theorem outputAscii_shows (hch : 0 < ch) (hwidth : 8 ≤ width) (hheight : 32 ≤ height)
    (hfits : width * height < 2 ^ 32) (h : Shows font width height p c) :
    Returns (outputAscii font ch) c fun _ c' =>
      Shows font width height (p.write 10 (width / 8) ch) c' := by
  have hassoc : outputAscii font ch = (do endLine ch; endScreen) >>= fun _ =>
      if ch = 10 then pure () else drawChar font ch := by
    rw [bind_assoc]
    rfl
  rw [hassoc, returns_bind, Page.write]
  by_cases hnl : ch = 10
  · rw [if_pos hnl]
    refine (endLine_shows hwidth hheight hfits h (Or.inl hnl)).mono fun _ c' h' => ?_
    rw [if_pos hnl, returns_pure]
    exact h'
  · rw [if_neg hnl]
    by_cases hfull : p.line.length = width / 8
    · rw [if_pos hfull]
      refine (endLine_shows hwidth hheight hfits h (Or.inr hfull)).mono fun _ c' h' => ?_
      rw [if_neg hnl]
      exact drawChar_shows hch (by omega) hfits h' (show 0 < width / 8 by omega)
    · have hline := h.line_le
      have hrow : p.row (height / 16) < height / 16 := Page.row_lt (by omega)
      have hstay : (do endLine ch; endScreen) c = some ((), c) := by
        have hcond : ¬ (ch = 10 ∨ c.posX = c.maxX) := by
          rw [h.posX_eq, h.maxX_eq]
          exact not_or.mpr ⟨hnl, hfull⟩
        have hy : c.posY ≠ c.maxY := by
          rw [h.posY_eq, h.maxY_eq]
          omega
        rw [endLine, endScreen, bind_assoc, bind_of_some rfl, if_neg hcond, pure_bind,
          bind_of_some rfl, if_neg hy]
        rfl
      rw [if_neg hfull, returns_of_eq hstay, if_neg hnl]
      exact drawChar_shows hch (by omega) hfits h (by omega)

/-- The character that `fb_output` writes; NUL is not written. -/
def shown (ch : Int8) : Option Int8 := if ch = 0 then none else some (if ch < 0 then 63 else ch)

/-- What `fb_output` does to the page. -/
theorem fbOutput_shows (hwidth : 8 ≤ width) (hheight : 32 ≤ height)
    (hfits : width * height < 2 ^ 32) (h : Shows font width height p c) :
    Returns (fbOutput font ch) c fun _ c' =>
      Shows font width height (p.writeAll 10 (width / 8) (shown ch).toList) c' := by
  rw [fbOutput, shown]
  by_cases hle : ch ≤ 0
  · rw [if_pos hle]
    by_cases h0 : ch = 0
    · rw [if_pos h0, if_pos h0, returns_pure]
      exact h
    · have hneg : ch < 0 := Int8.lt_of_le_of_ne hle h0
      rw [if_neg h0, if_neg h0, if_pos hneg]
      exact outputAscii_shows (by decide) hwidth hheight hfits h
  · have hpos : 0 < ch := Int8.not_le.mp hle
    have h0 : ch ≠ 0 := (Int8.ne_of_lt hpos).symm
    rw [if_neg hle, if_neg h0, if_neg (Int8.lt_asymm hpos)]
    exact outputAscii_shows hpos hwidth hheight hfits h

/-- A whole text. -/
theorem output_shows (hwidth : 8 ≤ width) (hheight : 32 ≤ height)
    (hfits : width * height < 2 ^ 32) (h : Shows font width height p c) (text : List Int8) :
    Returns (forM text (fbOutput font)) c fun _ c' =>
      Shows font width height (p.writeAll 10 (width / 8) (text.filterMap shown)) c' := by
  induction text generalizing c p with
  | nil => exact returns_pure.mpr h
  | cons ch text ih =>
    have hpage : p.writeAll 10 (width / 8) ((ch :: text).filterMap shown) =
        (p.writeAll 10 (width / 8) (shown ch).toList).writeAll 10 (width / 8)
          (text.filterMap shown) := by
      rw [← Page.writeAll_append]
      cases hs : shown ch with
      | none => rw [List.filterMap_cons_none hs]; rfl
      | some ch' => rw [List.filterMap_cons_some hs]; rfl
    rw [List.forM_cons, returns_bind, hpage]
    exact (fbOutput_shows hwidth hheight hfits h).mono fun _ _ h' => ih h'

theorem clearScreen_shows (hsize : c.fb.size = width * height) :
    Returns (clearScreen width height) c fun _ c' => Shows font width height {} c' := by
  have hclear : Returns (forTo (width * height) (fun i _ => store i 0) ()) c
      (fun _ c' => Redrawn c c' ∧ ∀ k < width * height, c'.pixel k = 0) := by
    refine forTo_returns (I := fun i _ c' => Redrawn c c' ∧ ∀ k < i, c'.pixel k = 0)
      ⟨Redrawn.refl c, fun k hk => absurd hk (Nat.not_lt_zero k)⟩ ?_
    rintro i hi _ c' ⟨hr, hpixel⟩
    have hsame := hr.size
    refine (store_pixel (by omega)).mono ?_
    rintro _ c'' ⟨hr', hpixel'⟩
    refine ⟨hr.trans hr', fun k hk => ?_⟩
    rw [hpixel']
    by_cases hki : k = i
    · rw [if_pos hki]
    · rw [if_neg hki]
      exact hpixel k (by omega)
  simp only [clearScreen, returns_bind, returns_modify]
  refine hclear.mono ?_
  rintro _ c' ⟨hr, hpixel⟩
  have hrow : Page.row (height / 16) ({} : Page Int8) = 0 := Nat.zero_sub _
  refine ⟨⟨hr.size.trans hsize, rfl, rfl, rfl⟩, rfl, hrow.symm, Nat.zero_le _,
    fun x hx y hy => ?_⟩
  have hcolor : color font (height / 16) {} x y = 0 := by
    rw [color, Page.cell_empty]
  rw [hcolor]
  exact hpixel _ ((Nat.mul_comm height width) ▸ (lt_lines_iff hx y height).mpr hy)

theorem fbInit_shows (hwidth : 8 ≤ width) (hheight : 32 ≤ height)
    (hfits : width * height < 2 ^ 32) (hsize : c.fb.size = width * height) :
    Returns (fbInit font width height) c fun _ c' =>
      Shows font width height (Page.writeAll 10 (width / 8) {} (helloStatement.filterMap shown)) c' := by
  rw [fbInit, returns_bind]
  exact (clearScreen_shows hsize).mono fun _ _ h => output_shows hwidth hheight hfits h _

/-- **The screen.**  After the start of the console and the output of any text every pixel of
the framebuffer is that of a window on a page: the page has all that was written but what is
no character, in lines that fit, and the window shows the last lines of it. -/
theorem screen_shows (hwidth : 8 ≤ width) (hheight : 32 ≤ height)
    (hfits : width * height < 2 ^ 32) (hsize : c.fb.size = width * height) (text : List Int8) :
    Returns (do fbInit font width height; forM text (fbOutput font)) c fun _ c' =>
      ∃ p : Page Int8,
        p = Page.writeAll 10 (width / 8) {} ((helloStatement ++ text).filterMap shown) ∧
        p.Fits (width / 8) ∧
        p.lines.flatten = ((helloStatement ++ text).filterMap shown).filter (· ≠ 10) ∧
        ∀ x < width, ∀ y < height,
          c'.fb[y * width + x]? = some (color font (height / 16) p x y) := by
  rw [returns_bind]
  refine (fbInit_shows hwidth hheight hfits hsize).mono fun _ c₁ h₁ => ?_
  refine (output_shows hwidth hheight hfits h₁ text).mono fun _ c' h' => ?_
  rw [← Page.writeAll_append, ← List.filterMap_append] at h'
  have hempty : Page.Fits (width / 8) ({} : Page Int8) := by
    intro l hl
    rw [List.mem_singleton.mp hl]
    exact Nat.zero_le _
  obtain ⟨hpage, hflat⟩ := Page.writeAll_lines (show 0 < width / 8 by omega) hempty
    ((helloStatement ++ text).filterMap shown)
  refine ⟨_, rfl, hpage, hflat, fun x hx y hy => ?_⟩
  have hlt : y * width + x < c'.fb.size := by
    rw [h'.size_eq]
    exact (lt_lines_iff hx y height).mpr hy
  rw [← h'.pixel x hx y hy, State.pixel, Array.getElem?_eq_getElem hlt]
  simp [hlt]

theorem screen_shows_word :
    Returns (do fbInit (fun _ => 0xAA) 16 32; forM [72, 105] (fbOutput fun _ => 0xAA))
      ⟨Array.replicate 512 7, 0, 0, 0, 0, 0⟩ fun _ c' =>
      ∃ p : Page Int8,
        p = Page.writeAll 10 (16 / 8) {} ((helloStatement ++ [72, 105]).filterMap shown) ∧
        p.Fits (16 / 8) ∧
        p.lines.flatten = ((helloStatement ++ [72, 105]).filterMap shown).filter (· ≠ 10) ∧
        ∀ x < 16, ∀ y < 32,
          c'.fb[y * 16 + x]? = some (color (fun _ => 0xAA) (32 / 16) p x y) :=
  screen_shows (by decide) (by decide) (by decide) Array.size_replicate [72, 105]

end Shows

end Console
end Cmpsc473
