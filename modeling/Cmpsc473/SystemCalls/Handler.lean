import Cmpsc473.Console.Screen
import Cmpsc473.Printf.Vprintf

/-!
# Printing on the console and `syscall_entry`

The functions of `printf.c` that print through `fb_output`, and the handler of system
calls, which prints a string of its caller.  What is printed goes to the page of the
console, and nothing that the string holds is taken for a directive.
-/

namespace Cmpsc473
namespace SystemCalls

open Total Console Printf

section Program

variable (font : Fin 2048 → UInt8) (text : Text)

def vprintfOutput (ch : UInt8) : Fb Unit := fbOutput font ch.toInt8

def vprintf (fmt : List UInt8) (args : List UInt64) : Fb Int :=
  doVprintf text (vprintfOutput font) fmt args

/-- `printf`, with its arguments in a list. -/
def printf (fmt : List UInt8) (args : List UInt64) : Fb Int := vprintf font text fmt args

/-- `syscall_entry` -/
def syscallEntry (n a1 _a2 _a3 _a4 _a5 : Int64) : Fb Int64 := do
  if n = 1 then
    let strng := a1.toUInt64
    let _ ← printf font text (chars "%s" ++ [0]) [strng]
    return 0
  else return -1

end Program

section Shows

variable {font : Fin 2048 → UInt8} {text : Text} {width height : Nat} {p : Page Int8} {c : State}

/-- A string on the page. -/
def onPage (width : Nat) (p : Page Int8) (out : List UInt8) : Page Int8 :=
  p.writeAll 10 (width / 8) ((out.map UInt8.toInt8).filterMap shown)

theorem onPage_append (out₁ out₂ : List UInt8) :
    onPage width p (out₁ ++ out₂) = onPage width (onPage width p out₁) out₂ := by
  rw [onPage, List.map_append, List.filterMap_append, Page.writeAll_append]
  rfl

theorem onPage_nul : onPage width p [0] = p := rfl

theorem forM_vprintfOutput (hwidth : 8 ≤ width) (hheight : 32 ≤ height)
    (hfits : width * height < 2 ^ 32) (h : Shows font width height p c) (out : List UInt8) :
    Returns (out.forM (vprintfOutput font)) c fun _ c' =>
      Shows font width height (onPage width p out) c' := by
  induction out generalizing p c with
  | nil => exact returns_pure.mpr h
  | cons b out ih =>
    have hbyte : onPage width p (b :: out) = onPage width (onPage width p [b]) out :=
      onPage_append [b] out
    show Returns (vprintfOutput font b >>= fun _ => out.forM (vprintfOutput font)) c _
    rw [returns_bind, hbyte]
    have hone := output_shows hwidth hheight hfits h [b.toInt8]
    rw [List.forM_cons, List.forM_nil, bind_pure] at hone
    exact hone.mono fun _ _ h' => ih h'

/-- **Printing** puts what is written on the page. -/
theorem printf_shows (hwidth : 8 ≤ width) (hheight : 32 ≤ height)
    (hfits : width * height < 2 ^ 32) (h : Shows font width height p c) {fmt : List UInt8}
    {args : List UInt64} {out : List UInt8} {count : UInt64}
    (hw : written text fmt args = some (out, count)) :
    Returns (printf font text fmt args) c fun r c' =>
      r = signed 32 out.length ∧ Shows font width height (onPage width p out) c' := by
  obtain ⟨_, c', hrun, hshows⟩ := forM_vprintfOutput hwidth hheight hfits h (out ++ [0])
  rw [onPage_append, onPage_nul] at hshows
  refine ⟨signed 32 out.length, c', ?_, rfl, hshows⟩
  show doVprintf text (vprintfOutput font) fmt args c = _
  rw [doVprintf_eq, hw, Option.bind_some, hrun, ← signed_count, ← written_count hw]
  rfl

theorem printf_none {fmt : List UInt8} {args : List UInt64} (hw : written text fmt args = none) :
    printf font text fmt args c = none := by
  show doVprintf text (vprintfOutput font) fmt args c = _
  rw [doVprintf_eq, hw]
  rfl

/-- `%s` prints the string itself. -/
theorem written_string (strng : UInt64) : written text (chars "%s" ++ [0]) [strng] =
    (if strng = 0 then some (chars "(null)") else cString (text strng)).map fun out =>
      (out, UInt64.ofNat out.length) := by
  have hreads : Reads (chars "%s") [.directive {} 's'.toUInt8] [] := by
    refine ⟨fun q hq => ?_, Or.inl rfl, by decide⟩
    rw [List.mem_singleton.mp hq]
    exact ⟨⟨by decide, List.isChain_nil⟩, by decide, ⟨by decide, by decide, by decide⟩⟩
  have hplain : ∀ out : List UInt8, justify false false 0 [] out ++ [] = out := by
    intro out
    rw [justify, List.length_nil, Nat.zero_sub, List.append_nil]
    rfl
  rw [written_reads hreads []]
  have hshown : Conversion.string.shown text (Options.flags {}) strng =
      if strng = 0 then some ⟨[], chars "(null)", false⟩
      else (cString (text strng)).map fun str => ⟨[], str, false⟩ := rfl
  show Option.map _ (Option.bind (Option.map _ (Conversion.shown text _ strng .string)) _) = _
  rw [hshown]
  by_cases h0 : strng = 0
  · rw [if_pos h0, if_pos h0]
    rfl
  · rw [if_neg h0, if_neg h0]
    cases cString (text strng) with
    | none => rfl
    | some out =>
      show some ((justify false false 0 [] out ++ []),
        UInt64.ofNat (justify false false 0 [] out ++ []).length) = _
      rw [hplain]
      rfl

end Shows

/-- A system call, and what can be read when it is made. -/
structure Call where
  memory : Text
  n : Int64
  a1 : Int64
  a2 : Int64
  a3 : Int64
  a4 : Int64
  a5 : Int64

namespace Call

def run (font : Fin 2048 → UInt8) (call : Call) : Fb Int64 :=
  syscallEntry font call.memory call.n call.a1 call.a2 call.a3 call.a4 call.a5

def status (call : Call) : Int64 := if call.n = 1 then 0 else -1

/-- The string that a call prints, if it can be read. -/
def printed (call : Call) : Option (List UInt8) :=
  if call.n = 1 then
    if call.a1.toUInt64 = 0 then some (chars "(null)") else cString (call.memory call.a1.toUInt64)
  else some []

section Run

variable {font : Fin 2048 → UInt8} {width height : Nat} {p : Page Int8} {c : State}

theorem run_print {call : Call} (h1 : call.n = 1) : call.run font =
    printf font call.memory (chars "%s" ++ [0]) [call.a1.toUInt64] >>= fun _ => pure 0 :=
  if_pos h1

theorem run_other {call : Call} (h1 : call.n ≠ 1) : call.run font = pure (-1) := if_neg h1

/-- One call prints its string, and is undefined only if that cannot be read. -/
theorem run_shows (hwidth : 8 ≤ width) (hheight : 32 ≤ height)
    (hfits : width * height < 2 ^ 32) (h : Shows font width height p c) (call : Call) :
    (call.printed = none ∧ call.run font c = none) ∨
      ∃ out, call.printed = some out ∧ Returns (call.run font) c fun r c' =>
        r = call.status ∧ Shows font width height (onPage width p out) c' := by
  by_cases h1 : call.n = 1
  · have hprinted : call.printed = if call.a1.toUInt64 = 0 then some (chars "(null)")
        else cString (call.memory call.a1.toUInt64) := if_pos h1
    have hwritten := @written_string call.memory call.a1.toUInt64
    rw [← hprinted] at hwritten
    have hstatus : call.status = 0 := if_pos h1
    rw [run_print h1, hstatus]
    cases hout : call.printed with
    | none =>
      rw [hout] at hwritten
      exact Or.inl ⟨rfl, bind_of_none (printf_none hwritten)⟩
    | some out =>
      rw [hout] at hwritten
      refine Or.inr ⟨out, rfl, ?_⟩
      rw [returns_bind]
      exact (printf_shows hwidth hheight hfits h hwritten).mono fun _ c' h' =>
        returns_pure.mpr ⟨rfl, h'.2⟩
  · have hprinted : call.printed = some [] := if_neg h1
    have hstatus : call.status = -1 := if_neg h1
    refine Or.inr ⟨[], hprinted, ?_⟩
    rw [run_other h1, returns_pure, hstatus]
    exact ⟨rfl, h⟩

/-- **Runs of calls.** -/
theorem runs_show (hwidth : 8 ≤ width) (hheight : 32 ≤ height)
    (hfits : width * height < 2 ^ 32) (h : Shows font width height p c) (calls : List Call) :
    (calls.mapM printed = none ∧ calls.mapM (run font) c = none) ∨
      ∃ outs, calls.mapM printed = some outs ∧ Returns (calls.mapM (run font)) c fun rs c' =>
        rs = calls.map status ∧ Shows font width height (onPage width p outs.flatten) c' := by
  induction calls generalizing p c with
  | nil => exact Or.inr ⟨[], rfl, by rw [List.mapM_nil, returns_pure]; exact ⟨rfl, h⟩⟩
  | cons call calls ih =>
    rw [List.mapM_cons, List.mapM_cons]
    rcases run_shows hwidth hheight hfits h call with ⟨hout, hrun⟩ | ⟨out, hout, r, c₁, hrun, rfl, h₁⟩
    · exact Or.inl ⟨by rw [hout]; rfl, bind_of_none hrun⟩
    · rw [hout, bind_of_some hrun]
      rcases ih h₁ with ⟨hnone, hrest⟩ | ⟨outs, houts, hrest⟩
      · exact Or.inl ⟨by rw [hnone]; rfl, bind_of_none hrest⟩
      · refine Or.inr ⟨out :: outs, by rw [houts]; rfl, ?_⟩
        rw [returns_bind, returns_of_eq hrun, returns_bind]
        refine hrest.mono fun rs c' h' => returns_pure.mpr ⟨?_, ?_⟩
        · rw [h'.1, List.map_cons]
        · rw [List.flatten_cons, onPage_append]
          exact h'.2

/-- **The system calls of a user program**, from the start of the console on.  As long as the
strings it asks for can be read they come to stand on the page, one after the other and as
they are, and it is told 0; any other call is told -1 and changes nothing. -/
theorem calls_show (hwidth : 8 ≤ width) (hheight : 32 ≤ height)
    (hfits : width * height < 2 ^ 32) (hsize : c.fb.size = width * height) (calls : List Call) :
    (∀ outs, calls.mapM printed = some outs →
      Returns (fbInit font width height >>= fun _ => calls.mapM (run font)) c fun rs c' =>
        rs = calls.map status ∧
          Shows font width height (Page.writeAll 10 (width / 8) {}
            ((helloStatement ++ outs.flatten.map UInt8.toInt8).filterMap shown)) c') ∧
      (calls.mapM printed = none →
        (fbInit font width height >>= fun _ => calls.mapM (run font)) c = none) := by
  have hstart : Returns (fbInit font width height) c fun _ c' =>
      Shows font width height (Page.writeAll 10 (width / 8) {} (helloStatement.filterMap shown)) c' :=
    fbInit_shows hwidth hheight hfits hsize
  obtain ⟨_, c₁, hinit, h₁⟩ := hstart
  simp only [returns_bind, returns_of_eq hinit, bind_of_some hinit]
  rcases runs_show hwidth hheight hfits h₁ calls with ⟨hnone, hrun⟩ | ⟨outs, houts, hrun⟩
  · rw [hnone]
    exact ⟨fun _ h => absurd h (by simp), fun _ => hrun⟩
  · rw [houts]
    refine ⟨fun outs' heq => ?_, fun h => absurd h (by simp)⟩
    cases heq
    rw [List.filterMap_append, Page.writeAll_append]
    exact hrun

theorem calls_show_two : Returns (fbInit (fun _ => 0xAA) 16 32 >>= fun _ =>
    [⟨fun _ => chars "100%s" ++ [0], 1, 8, 0, 0, 0, 0⟩, ⟨fun _ => [], 2, 0, 0, 0, 0, 0⟩].mapM
      (run fun _ => 0xAA)) ⟨Array.replicate 512 7, 0, 0, 0, 0, 0⟩ fun rs c' =>
      rs = [0, -1] ∧ Shows (fun _ => 0xAA) 16 32 (Page.writeAll 10 (16 / 8) {}
        ((helloStatement ++ (chars "100%s").map UInt8.toInt8).filterMap shown)) c' := by
  have hsize : (Array.replicate 512 (7 : UInt32)).size = 16 * 32 := Array.size_replicate
  exact (calls_show (by decide) (by decide) (by decide) hsize _).1 [chars "100%s", []] (by decide)

end Run

end Call

end SystemCalls
end Cmpsc473
