import Cmpsc473.Library.Total
import Mathlib.Algebra.GroupWithZero.Nat
import Mathlib.Algebra.Ring.Int.Defs

/-!
# The program `printf.c`

`_do_vprintf` and the functions over it, statement by statement.  A computation is
undefined, `none`, where the C program has no defined behaviour: it reads behind the
last byte that can be read, asks for an argument that is not there, leaves `buf`, or
overflows a signed number.

What is output goes to a function `fn` on a state of its own.  What is read does not
change meanwhile: a buffer that is printed into is apart from the format and from the
strings that are printed.
-/

namespace Cmpsc473
namespace Printf

/-- What can be read from each address on. -/
abbrev Text := UInt64 → List UInt8

/-- The string that `bytes` begin with, up to its NUL. -/
def cString : List UInt8 → Option (List UInt8)
  | [] => none
  | c :: bytes => if c = 0 then some [] else (cString bytes).map (c :: ·)

def chars (s : String) : List UInt8 := s.toList.map Char.toUInt8

/-- The bits of the local variable `flags`. -/
structure Flags where
  pointer : Bool := false
  negative : Bool := false
  leftJust : Bool := false
  padLeft0 : Bool := false
  doSign : Bool := false
  pr8 : Bool := false
  pr16 : Bool := false
  pr64 : Bool := false
deriving DecidableEq, Repr

def prBuflen : Nat := 64

/-- `va_arg`.  Each argument has a slot of eight bytes. -/
def vaArg : List UInt64 → Option (UInt64 × List UInt64)
  | [] => none
  | arg :: args => some (arg, args)

/-- A signed number of `w` bits. -/
def signed (w : Nat) (n : Int) : Int := n.bmod (2 ^ w)

/-- `*--where = c`, in `buf`, with the NUL in its last place.  The string is what
`where` then points to. -/
def pushFront (c : UInt8) (str : List UInt8) : Option (List UInt8) :=
  if str.length < prBuflen - 1 then some (c :: str) else none

def writeUwordBase10 (str : List UInt8) (num : Nat) : Option (List UInt8) := do
  let temp := num % 10
  let str ← pushFront (UInt8.ofNat (temp + 48)) str
  if num / 10 ≠ 0 then writeUwordBase10 str (num / 10) else return str
termination_by num
decreasing_by omega

/-- `HexDigits + 16` when `lower`, else `HexDigits`. -/
def hexDigits (lower : Bool) (temp : Nat) : UInt8 :=
  (chars (if lower then "0123456789abcdef" else "0123456789ABCDEF")).getD temp 0

/-- The loop for a base of two to the power of `shift`. -/
def writeShift (digits : Nat → UInt8) (shift : Nat) (hshift : 0 < shift) (str : List UInt8)
    (num : Nat) : Option (List UInt8) := do
  let mask := (1 <<< shift) - 1
  let temp := num &&& mask
  let str ← pushFront (digits temp) str
  if num >>> shift ≠ 0 then writeShift digits shift hshift str (num >>> shift) else return str
termination_by num
decreasing_by
  rename_i h
  have hpow : 1 < 2 ^ shift := Nat.one_lt_two_pow (by omega)
  rw [Nat.shiftRight_eq_div_pow] at h ⊢
  exact Nat.div_lt_self (Nat.pos_of_ne_zero fun h0 => h (by rw [h0, Nat.zero_div])) hpow

/-- What `case 4` has when it comes to "emit formatted string". -/
structure Field where
  str : List UInt8
  flags : Flags
  args : List UInt64
deriving DecidableEq, Repr

/-- From `DO_NUM`, for a signed number. -/
def signedNum (flags : Flags) (args : List UInt64) : Option (Nat × Flags × List UInt64) := do
  let (arg, args) ← vaArg args
  let snum :=
    if flags.pr64 then signed 64 arg.toNat
    else
      let snum := signed 32 arg.toNat
      if flags.pr16 || flags.pr8 then
        if flags.pr16 then signed 16 snum else signed 8 snum
      else snum
  if snum < 0 then
    -- `-snum` is not a `ssize_t`
    if snum = -2 ^ 63 then none
    else return ((-snum).toNat, { flags with negative := true }, args)
  else return (snum.toNat, flags, args)

def unsignedNum (flags : Flags) (args : List UInt64) : Option (Nat × Flags × List UInt64) := do
  let (arg, args) ← vaArg args
  let num :=
    if flags.pr64 then arg.toNat
    else
      let num := arg.toNat % 2 ^ 32
      if flags.pr16 || flags.pr8 then
        if flags.pr16 then num % 2 ^ 16 else num % 2 ^ 8
      else num
  return (num, flags, args)

/-- From `DO_NUM` on; the digits are decimal where `shift` is zero. -/
def doNum (digits : Nat → UInt8) (shift : Nat) (flags : Flags) (args : List UInt64) :
    Option Field := do
  let (num, flags, args) ←
    (if flags.doSign then signedNum flags args else unsignedNum flags args)
  let str ←
    (if hshift : 0 < shift then writeShift digits shift hshift [] num
    else writeUwordBase10 [] num)
  return ⟨str, flags, args⟩

def convertPointer (flags : Flags) (args : List UInt64) : Option Field := do
  let flags := { flags with
    doSign := false, negative := false, pr8 := false, pr16 := false, pr64 := true }
  let (num, args) ← vaArg args
  if num = 0 then return ⟨chars "(nil)", { flags with padLeft0 := false }, args⟩
  let str ← writeShift (hexDigits true) 4 (by decide) [] num.toNat
  return ⟨str, { flags with pointer := true }, args⟩

/-- The flags of `%c` and `%s`. -/
def plainFlags (flags : Flags) : Flags :=
  { flags with doSign := false, negative := false, padLeft0 := false }

/-- A character that is NUL makes an empty string. -/
def convertChar (flags : Flags) (args : List UInt64) : Option Field := do
  let (arg, args) ← vaArg args
  let str ← pushFront arg.toUInt8 []
  return ⟨if arg.toUInt8 = 0 then [] else str, plainFlags flags, args⟩

def convertString (text : Text) (flags : Flags) (args : List UInt64) : Option Field := do
  let (arg, args) ← vaArg args
  let str ← (if arg = 0 then some (chars "(null)") else cString (text arg))
  return ⟨str, plainFlags flags, args⟩

/-- The `switch` on the conversion character; `none` inside for any other character. -/
def convert (text : Text) (c : UInt8) (flags : Flags) (args : List UInt64) :
    Option (Option Field) :=
  let noSign := { flags with doSign := false }
  if c = 'p'.toUInt8 then some <$> convertPointer flags args
  else if c = 'x'.toUInt8 then some <$> doNum (hexDigits true) 4 noSign args
  else if c = 'X'.toUInt8 then some <$> doNum (hexDigits false) 4 noSign args
  else if c = 'd'.toUInt8 ∨ c = 'i'.toUInt8 then
    some <$> doNum (hexDigits false) 0 { flags with doSign := true } args
  else if c = 'u'.toUInt8 then some <$> doNum (hexDigits false) 0 noSign args
  else if c = 'o'.toUInt8 then some <$> doNum (hexDigits false) 3 noSign args
  else if c = 'c'.toUInt8 then some <$> convertChar flags args
  else if c = 's'.toUInt8 then some <$> convertString text flags args
  else some none

variable {σ : Type}

/-- `fn(c, ptr); count++;` -/
def put (fn : UInt8 → StateT σ Option Unit) (c : UInt8) (count : UInt64) :
    StateT σ Option UInt64 := do
  fn c
  return count + 1

/-- `for (; given_wd > limit; given_wd--)` with the character `c`. -/
def padWhile (fn : UInt8 → StateT σ Option Unit) (c : UInt8) (limit : Nat) :
    Nat → UInt64 → StateT σ Option (Nat × UInt64)
  | 0, count => return (0, count)
  | givenWd + 1, count => do
    if givenWd + 1 > limit then
      let count ← put fn c count
      padWhile fn c limit givenWd count
    else return (givenWd + 1, count)

/-- `for (; *where != '\0'; where++)` -/
def putStr (fn : UInt8 → StateT σ Option Unit) : List UInt8 → UInt64 → StateT σ Option UInt64
  | [], count => return count
  | c :: str, count => do
    let count ← put fn c count
    putStr fn str count

/-- The sign of a number, or the `0x` of a pointer. -/
def putSign (fn : UInt8 → StateT σ Option Unit) (flags : Flags) (count : UInt64) :
    StateT σ Option UInt64 := do
  if flags.pointer then
    let count ← put fn '0'.toUInt8 count
    put fn 'x'.toUInt8 count
  else put fn '-'.toUInt8 count

/-- From "emit formatted string" on. -/
def emitField (fn : UInt8 → StateT σ Option Unit) (flags : Flags) (str : List UInt8)
    (givenWd : Nat) (count : UInt64) : StateT σ Option UInt64 := do
  let signs := flags.pointer || flags.negative
  let actualWd := str.length + if signs then 1 + (if flags.pointer then 1 else 0) else 0
  let count ← (if signs && flags.padLeft0 then putSign fn flags count else pure count)
  let (givenWd, count) ←
    (if !flags.leftJust then
      padWhile fn (if flags.padLeft0 then '0'.toUInt8 else ' '.toUInt8) actualWd givenWd count
    else pure (givenWd, count))
  let count ← (if signs && !flags.padLeft0 then putSign fn flags count else pure count)
  let count ← putStr fn str count
  let givenWd := if givenWd < actualWd then 0 else givenWd - actualWd
  let (_, count) ← padWhile fn ' '.toUInt8 0 givenWd count
  return count

/-- The local variables of `_do_vprintf`. -/
structure Vars where
  state : Nat := 0
  flags : Flags := {}
  givenWd : Nat := 0
  count : UInt64 := 0
  args : List UInt64
deriving DecidableEq, Repr

/-- Where `fmt` points after a round of the loop and before its `fmt++`, and the
variables. -/
abbrev Round := List UInt8 × Vars

section Cases

variable (text : Text) (fn : UInt8 → StateT σ Option Unit)

/-- What stands behind a place that can be read. -/
def later : List UInt8 → Option (List UInt8)
  | [] => none
  | _ :: fmt => some fmt

def isDigit (c : UInt8) : Bool := '0'.toUInt8 ≤ c && c ≤ '9'.toUInt8

def case4 (fmt : List UInt8) (v : Vars) : StateT σ Option Round := do
  let c ← fmt.head?
  match ← convert text c v.flags v.args with
  | none =>
    -- a bogus conversion character is copied
    let count ← put fn c v.count
    return (fmt, { v with state := 0, flags := {}, givenWd := 0, count := count })
  | some field =>
    let count ← emitField fn field.flags field.str v.givenWd v.count
    return (fmt, { state := 0, flags := {}, givenWd := 0, count := count, args := field.args })

def case3 (fmt : List UInt8) (v : Vars) : StateT σ Option Round := do
  let c ← fmt.head?
  if c = 'z'.toUInt8 ∨ c = 't'.toUInt8 then
    return (fmt, { v with flags := { v.flags with pr64 := true } })
  else if c = 'l'.toUInt8 then
    let fmt' ← later fmt
    let c' ← fmt'.head?
    if c' = 'l'.toUInt8 then return (fmt', { v with flags := { v.flags with pr64 := true } })
    else return (fmt, { v with flags := { v.flags with pr64 := true } })
  else if c = 'L'.toUInt8 then
    return (fmt, { v with flags := { v.flags with pr64 := true } })
  else if c = 'h'.toUInt8 then
    let fmt' ← later fmt
    let c' ← fmt'.head?
    if c' = 'h'.toUInt8 then return (fmt', { v with flags := { v.flags with pr8 := true } })
    else return (fmt, { v with flags := { v.flags with pr16 := true } })
  else case4 text fn fmt { v with state := v.state + 1 }

def case2 (fmt : List UInt8) (v : Vars) : StateT σ Option Round := do
  let c ← fmt.head?
  if isDigit c then
    return (fmt, { v with givenWd := (10 * v.givenWd + (c.toNat - '0'.toUInt8.toNat)) % 2 ^ 64 })
  else case3 text fn fmt { v with state := v.state + 1 }

def case1 (fmt : List UInt8) (v : Vars) : StateT σ Option Round := do
  let c ← fmt.head?
  if c = '%'.toUInt8 then
    let count ← put fn c v.count
    return (fmt, { v with state := 0, count := count })
  else if c = '-'.toUInt8 then
    return (fmt, { v with flags := { v.flags with leftJust := true } })
  else if c = '0'.toUInt8 then
    let fmt ← later fmt
    case2 text fn fmt { v with
      flags := { v.flags with padLeft0 := true }, state := v.state + 1, givenWd := 0 }
  else case2 text fn fmt { v with state := v.state + 1, givenWd := 0 }

def case0 (fmt : List UInt8) (v : Vars) : StateT σ Option Round := do
  let c ← fmt.head?
  if c ≠ '%'.toUInt8 then
    let count ← put fn c v.count
    return (fmt, { v with count := count })
  else
    let fmt ← later fmt
    case1 text fn fmt { v with state := v.state + 1, flags := {} }

def switch (fmt : List UInt8) (v : Vars) : StateT σ Option Round :=
  match v.state with
  | 0 => case0 text fn fmt v
  | 1 => case1 text fn fmt v
  | 2 => case2 text fn fmt v
  | 3 => case3 text fn fmt v
  | 4 => case4 text fn fmt v
  | _ => return (fmt, { v with state := 0, flags := {}, givenWd := 0 })

/-- `for (; *fmt; fmt++) switch(state)`.  Each round leaves a byte behind, so as many
rounds as there are bytes are enough. -/
def loop : Nat → List UInt8 → Vars → StateT σ Option UInt64
  | 0, _, _ => fun _ => none
  | rounds + 1, fmt, v => do
    let c ← fmt.head?
    if c = 0 then return v.count
    else
      let (fmt, v) ← switch text fn fmt v
      let fmt ← later fmt
      loop rounds fmt v

/-- `_do_vprintf` -/
def doVprintfLoop (fmt : List UInt8) (args : List UInt64) : StateT σ Option UInt64 :=
  loop text fn fmt.length fmt { args := args }

/-- `do_vprintf` -/
def doVprintf (fmt : List UInt8) (args : List UInt64) : StateT σ Option Int := do
  let count := signed 32 (← doVprintfLoop text fn fmt args).toNat
  fn 0
  return count

end Cases

/-- The state of `vsnprintf_output` and of `vsprintf_output`, which has no `Num`. -/
structure Output where
  mem : Nat → UInt8
  cur : Nat
  num : Nat := 0

/-- `*state->Cur++ = ch` -/
def Output.store (s : Output) (ch : UInt8) : Output :=
  { s with mem := Function.update s.mem s.cur ch, cur := s.cur + 1 }

def vsnprintfOutput (ch : UInt8) : StateT Output Option Unit :=
  modify fun s =>
    if s.num ≠ 0 then
      let s := { s with num := s.num - 1 }
      s.store (if s.num ≠ 0 then ch else 0)
    else s

def vsprintfOutput (ch : UInt8) : StateT Output Option Unit := modify fun s => s.store ch

/-- The count that is returned, and the memory. -/
def vsnprintf (text : Text) (mem : Nat → UInt8) (buf n : Nat) (fmt : List UInt8)
    (args : List UInt64) : Option (Int × (Nat → UInt8)) := do
  let (count, s) ← doVprintf text vsnprintfOutput fmt args { mem := mem, cur := buf, num := n }
  return (count, s.mem)

def vsprintf (text : Text) (mem : Nat → UInt8) (buf : Nat) (fmt : List UInt8)
    (args : List UInt64) : Option (Int × (Nat → UInt8)) := do
  let (count, s) ← doVprintf text vsprintfOutput fmt args { mem := mem, cur := buf }
  return (count, s.mem)

end Printf
end Cmpsc473
