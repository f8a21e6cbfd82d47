import Cmpsc473.Library.Loop

/-!
# The program `fb.c`

The framebuffer console of the kernel.  A computation is undefined, `none`,
where it indexes the framebuffer, or the font, outside of its elements.
-/

namespace Cmpsc473
namespace Console

open Loop

def fontWidth : Nat := 8
def fontHeight : Nat := 16

/-- The result of arithmetic on `unsigned int`. -/
def uint (n : Nat) : Nat := n % 2 ^ 32

/-- The framebuffer that `Fb` points to, and the other variables of `fb.c`. -/
structure State where
  fb : Array UInt32
  width : Nat
  posX : Nat
  posY : Nat
  maxX : Nat
  maxY : Nat

abbrev Fb := StateT State Option

/-- `Fb[i]` -/
def load (i : Nat) : Fb UInt32 := fun c => (c.fb[i]?).map fun v => (v, c)

/-- `Fb[i] = v` -/
def store (i : Nat) (v : UInt32) : Fb Unit := fun c =>
  if i < c.fb.size then some ((), { c with fb := c.fb.setIfInBounds i v }) else none

/-- One round of the loop of `fb_scrollup` that moves the text up one row. -/
def movePixel (row cur : Nat) : Fb Nat := do
  store cur (← load ((cur + row) % 2 ^ 64))
  return (cur + 1) % 2 ^ 64

/-- One round of the loop of `fb_scrollup` that cleans up the last row. -/
def clearPixel (cur : Nat) : Fb Nat := do
  store cur 0
  return (cur + 1) % 2 ^ 64

def fbScrollup : Fb Unit := do
  let c ← get
  let count := uint (c.width * uint (uint (c.maxY + 2 ^ 32 - 1) * fontHeight))
  let row := uint (c.width * fontHeight)
  let cur ← doWhile (movePixel row) count 0
  let _ ← doWhile clearPixel row cur

/-- `__ascii_font[i]` -/
def fontByte (font : Fin 2048 → UInt8) (i : Nat) : Fb UInt8 := fun c =>
  if h : i < 2048 then some (font ⟨i, h⟩, c) else none

/-- One round of the inner loop of `fb_output`, which turns the first bit of `bitmap`
into a pixel. -/
def drawPixel (cur i : Nat) (bitmap : Int8) : Fb Int8 := do
  let color := bitmap >>> 7
  store ((cur + i) % 2 ^ 64) color.toInt32.toUInt32
  return bitmap <<< 1

/-- The first test of `fb_output`: the cursor leaves its line. -/
def endLine (ch : Int8) : Fb Unit := do
  let c ← get
  if ch = 10 ∨ c.posX = c.maxX then
    set { c with posX := 0, posY := uint (c.posY + 1) }

/-- The second test of `fb_output`: the cursor has left the last line. -/
def endScreen : Fb Unit := do
  let c ← get
  if c.posY = c.maxY then
    set { c with posY := uint (c.posY + 2 ^ 32 - 1) }
    fbScrollup

section

variable (font : Fin 2048 → UInt8)

/-- One round of the outer loop of `fb_output`. -/
def drawRow (ch : Int8) (j cur : Nat) : Fb Nat := do
  let bitmap := (← fontByte font (ch.toUInt8.toNat * (fontWidth * fontHeight / 8) + j)).toInt8
  let _ ← forTo fontWidth (drawPixel cur) bitmap
  return (cur + (← get).width) % 2 ^ 64

def drawChar (ch : Int8) : Fb Unit := do
  let c ← get
  let cur := (c.posX * fontWidth + uint (uint (c.posY * fontHeight) * c.width)) % 2 ^ 64
  let _ ← forTo fontHeight (drawRow font ch) cur
  modify fun c => { c with posX := uint (c.posX + 1) }

/-- `fb_output` for a character of the ASCII subset. -/
def outputAscii (ch : Int8) : Fb Unit := do
  endLine ch
  endScreen
  if ch = 10 then return
  drawChar font ch

def fbOutput (ch : Int8) : Fb Unit :=
  -- not in the ASCII subset, and an unknown character unless it is 0
  if ch ≤ 0 then
    if ch = 0 then return else outputAscii font 63
  else outputAscii font ch

def helloStatement : List Int8 :=
  ("MiniOS Framebuffer Console (CMPSC 473)\nCopyright (C) 2023 Ruslan Nikolaev\n\n".toList).map
    fun ch => Int8.ofNat ch.toNat

/-- What `fb_init` does before it prints. -/
def clearScreen (width height : Nat) : Fb Unit := do
  forTo (width * height) (fun i _ => store i 0) ()
  modify fun c => { c with
    width := width
    posX := 0
    posY := 0
    maxX := width / fontWidth
    maxY := height / fontHeight }

/-- `fb_init`, for a framebuffer that is already in place. -/
def fbInit (width height : Nat) : Fb Unit := do
  clearScreen width height
  forM helloStatement (fbOutput font)

end

end Console
end Cmpsc473
