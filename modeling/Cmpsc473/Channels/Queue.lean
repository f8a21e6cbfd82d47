import Cmpsc473.Channels.Buffer
import Cmpsc473.Library.Transition

/-!
# The buffer as a queue

A buffer on its own, without the channel around it: whatever calls are made on it, it
does what a list of at most `capacity` messages does.  A capacity of zero is allowed,
and gives a buffer that is always full and always empty.
-/

namespace Cmpsc473
namespace Channels

open Transition

inductive BufferCall
  | add (v : UInt64)
  | remove
deriving DecidableEq, Repr

inductive BufferReply
  | added (ok : Bool)
  | removed (v : UInt64)
deriving DecidableEq, Repr

namespace BufferCall

def exec (b : Buffer) : BufferCall → BufferReply × Buffer
  | add v => (.added (bufferAdd v b).1, (bufferAdd v b).2)
  | remove => (.removed (bufferRemove b).1, (bufferRemove b).2)

/-- The slot that a call uses, if it uses one. -/
def slot (b : Buffer) : BufferCall → Option Nat
  | add _ =>
    if b.size ≥ b.capacity then none
    else
      let pos := (b.next + b.size) % 2 ^ 64
      some (if pos ≥ b.capacity then pos - b.capacity else pos)
  | remove => if b.size > 0 then some b.next else none

/-- What a call does to a queue of at most `cap` messages. -/
def queue (cap : Nat) : List UInt64 → BufferCall → Option (BufferReply × List UInt64)
  | q, add v => if q.length < cap then some (.added true, q ++ [v]) else some (.added false, q)
  | [], remove => some (.removed bufferEmpty, [])
  | v :: q, remove => some (.removed v, q)

end BufferCall

/-- One call, with its result. -/
def BufferStep (b : Buffer) (l : BufferCall × BufferReply) (b' : Buffer) : Prop :=
  l.1.exec b = (l.2, b')

namespace Buffer

variable {b b' : Buffer} {c k : Nat} {v : UInt64}

/-- A call writes to its slot only. -/
theorem exec_frame (b : Buffer) (call : BufferCall) (h : call.slot b ≠ some k) :
    (call.exec b).2.data k = b.data k := by
  cases call with
  | add v =>
    by_cases hfull : b.size ≥ b.capacity
    · show (bufferAdd v b).2.data k = b.data k
      rw [add_full hfull]
    · rw [BufferCall.slot, if_neg hfull] at h
      show (bufferAdd v b).2.data k = b.data k
      rw [bufferAdd, if_neg hfull]
      exact Function.update_of_ne (fun he => h (congrArg some he.symm)) _ _
  | remove =>
    show (bufferRemove b).2.data k = b.data k
    unfold bufferRemove
    split
    · rfl
    · rfl

/-- What it returns, and where the window goes, depends on no other slot. -/
theorem exec_reads (b : Buffer) (call : BufferCall) (data : Nat → UInt64)
    (h : ∀ k, call.slot b = some k → data k = b.data k) :
    (call.exec { b with data := data }).1 = (call.exec b).1 ∧
      (call.exec { b with data := data }).2.size = (call.exec b).2.size ∧
      (call.exec { b with data := data }).2.next = (call.exec b).2.next := by
  cases call with
  | add v =>
    by_cases hfull : b.size ≥ b.capacity
    · simp [BufferCall.exec, bufferAdd, hfull]
    · simp [BufferCall.exec, bufferAdd, hfull]
  | remove =>
    by_cases hpos : b.size > 0
    · have hnext := h b.next (if_pos hpos)
      simp [BufferCall.exec, bufferRemove, hpos, hnext]
    · simp [BufferCall.exec, bufferRemove, hpos]

/-- A buffer with `c` slots, which holds nothing if there are none. -/
structure OfCapacity (c : Nat) (b : Buffer) : Prop where
  capacity : b.capacity = c
  wf : 0 < c → b.Wf
  none : c = 0 → b.size = 0

theorem OfCapacity.create (hc : 8 * c < 2 ^ 64) (data : Nat → UInt64) :
    OfCapacity c (bufferCreate c data) :=
  ⟨rfl, fun hpos => create_wf hpos (by omega), fun _ => rfl⟩

theorem OfCapacity.size_le (h : OfCapacity c b) : b.size ≤ c := by
  by_cases hc : c = 0
  · rw [h.none hc]
    exact Nat.zero_le c
  · rw [← h.capacity]
    exact (h.wf (by omega)).size_le

theorem length_contents (b : Buffer) : b.contents.length = b.size := Ring.length_window

theorem OfCapacity.add_room (h : OfCapacity c b) (v : UInt64) (hroom : b.size < c) :
    ∃ b', bufferAdd v b = (true, b') ∧ b'.contents = b.contents ++ [v] ∧ OfCapacity c b' := by
  have hpos : 0 < c := by omega
  obtain ⟨b', hx, hcont, hwf, _, hcap⟩ := add_spec (v := v) (h.wf hpos) (by rwa [h.capacity])
  exact ⟨b', hx, hcont, hcap.trans h.capacity, fun _ => hwf, fun h0 => absurd h0 (by omega)⟩

theorem OfCapacity.add_full (h : OfCapacity c b) (v : UInt64) (hfull : ¬ b.size < c) :
    bufferAdd v b = (false, b) :=
  Buffer.add_full (by rw [h.capacity]; omega)

theorem OfCapacity.remove_some (h : OfCapacity c b) (hne : 0 < b.size) :
    ∃ v b', bufferRemove b = (v, b') ∧ b.contents = v :: b'.contents ∧ OfCapacity c b' := by
  have hpos : 0 < c := Nat.lt_of_lt_of_le hne h.size_le
  obtain ⟨v, b', hx, hcont, hwf, _, hcap⟩ := remove_spec (h.wf hpos) hne
  exact ⟨v, b', hx, hcont, hcap.trans h.capacity, fun _ => hwf, fun h0 => absurd h0 (by omega)⟩

theorem OfCapacity.slot_lt (h : OfCapacity c b) {call : BufferCall} (hk : call.slot b = some k) :
    k < c := by
  have hsize := h.size_le
  have hcap := h.capacity
  cases call with
  | add v =>
    by_cases hfull : b.size ≥ b.capacity
    · rw [BufferCall.slot, if_pos hfull] at hk
      cases hk
    · have hwf := h.wf (by omega)
      have hnext := hwf.next_lt
      have hle := hwf.capacity_le
      rw [BufferCall.slot, if_neg hfull, Option.some.injEq,
        Nat.mod_eq_of_lt (by omega : b.next + b.size < 2 ^ 64)] at hk
      rw [← hk]
      split
      · omega
      · omega
  | remove =>
    by_cases hpos : b.size > 0
    · rw [BufferCall.slot, if_pos hpos] at hk
      cases hk
      rw [← hcap]
      exact (h.wf (by omega)).next_lt
    · rw [BufferCall.slot, if_neg hpos] at hk
      cases hk

/-- The buffer holds the messages of the queue. -/
def Shows (c : Nat) (b : Buffer) (q : List UInt64) : Prop := OfCapacity c b ∧ b.contents = q

theorem shows_add {q : List UInt64} (h : Shows c b q) (v : UInt64) :
    ∃ q', BufferCall.queue c q (.add v) = some (((BufferCall.add v).exec b).1, q') ∧
      Shows c ((BufferCall.add v).exec b).2 q' := by
  obtain ⟨hb, rfl⟩ := h
  have hlen := b.length_contents
  by_cases hroom : b.size < c
  · obtain ⟨b', hx, hcont, hb'⟩ := hb.add_room v hroom
    rw [BufferCall.exec, hx, BufferCall.queue, if_pos (by omega)]
    exact ⟨_, rfl, hb', hcont⟩
  · rw [BufferCall.exec, hb.add_full v hroom, BufferCall.queue, if_neg (by omega)]
    exact ⟨_, rfl, hb, rfl⟩

theorem shows_remove {q : List UInt64} (h : Shows c b q) :
    ∃ q', BufferCall.queue c q .remove = some ((BufferCall.remove.exec b).1, q') ∧
      Shows c (BufferCall.remove.exec b).2 q' := by
  obtain ⟨hb, rfl⟩ := h
  have hlen := b.length_contents
  by_cases hne : 0 < b.size
  · obtain ⟨v, b', hx, hcont, hb'⟩ := hb.remove_some hne
    rw [BufferCall.exec, hx, hcont, BufferCall.queue]
    exact ⟨_, rfl, hb', rfl⟩
  · have hnil : b.contents = [] := List.eq_nil_of_length_eq_zero (by omega)
    rw [BufferCall.exec, remove_empty (by omega), hnil, BufferCall.queue]
    exact ⟨_, rfl, hb, hnil⟩

theorem refines_queue (c : Nat) : Refines BufferStep some (BufferCall.queue c) (Shows c) where
  visible := by
    intro b q l b' call reply h hstep hl
    cases hl
    have hreply : (call.exec b).1 = reply := congrArg Prod.fst hstep
    have hstate : (call.exec b).2 = b' := congrArg Prod.snd hstep
    rw [← hreply, ← hstate]
    cases call with
    | add v => exact shows_add h v
    | remove => exact shows_remove h
  silent := by
    intro b q l b' _ _ hl
    cases hl

/-- What holds of a buffer at each point of its life. -/
structure IsQueue (c : Nat) (b : Buffer) : Prop where
  size_le : b.size ≤ c
  next_lt : 0 < c → b.next < c
  length : b.contents.length = b.size
  add_short : ∀ v, b.contents.length < c →
    ∃ b', bufferAdd v b = (true, b') ∧ b'.contents = b.contents ++ [v]
  add_full : ∀ v, ¬ b.contents.length < c → bufferAdd v b = (false, b)
  remove_cons : ∀ v q, b.contents = v :: q → ∃ b', bufferRemove b = (v, b') ∧ b'.contents = q
  remove_nil : b.contents = [] → bufferRemove b = (bufferEmpty, b)
  slot_lt : ∀ (call : BufferCall) k, call.slot b = some k → k < c
  /-- A call writes to its slot only, and what it returns depends on no other. -/
  frame : ∀ (call : BufferCall) k, call.slot b ≠ some k → (call.exec b).2.data k = b.data k
  reads : ∀ (call : BufferCall) (data : Nat → UInt64),
    (∀ k, call.slot b = some k → data k = b.data k) →
      (call.exec { b with data := data }).1 = (call.exec b).1 ∧
        (call.exec { b with data := data }).2.size = (call.exec b).2.size ∧
        (call.exec { b with data := data }).2.next = (call.exec b).2.next

theorem OfCapacity.isQueue (h : OfCapacity c b) : IsQueue c b where
  size_le := h.size_le
  next_lt := fun hc => h.capacity ▸ (h.wf hc).next_lt
  length := b.length_contents
  add_short := by
    intro v hlt
    rw [b.length_contents] at hlt
    obtain ⟨b', hx, hcont, _⟩ := h.add_room v hlt
    exact ⟨b', hx, hcont⟩
  add_full := by
    intro v hlt
    rw [b.length_contents] at hlt
    exact h.add_full v hlt
  remove_cons := by
    intro v q hq
    have hne : 0 < b.size := by
      rw [← b.length_contents, hq]
      exact Nat.succ_pos _
    obtain ⟨w, b', hx, hcont, _⟩ := h.remove_some hne
    rw [hq, List.cons.injEq] at hcont
    rw [hcont.1, hcont.2]
    exact ⟨b', hx, rfl⟩
  remove_nil := by
    intro hq
    have hzero := b.length_contents
    rw [hq] at hzero
    exact remove_empty hzero.symm
  slot_lt := fun _ _ hk => h.slot_lt hk
  frame := fun call _ hk => exec_frame b call hk
  reads := exec_reads b

/-- **The buffer is a queue.** In every run of calls on a new buffer of any capacity
that can be allocated, the replies are those of a bounded queue, which the buffer holds
from `next` on. -/
theorem bounded_fifo (hc : 8 * c < 2 ^ 64) {data : Nat → UInt64}
    {ls : List (BufferCall × BufferReply)} (hrun : Run BufferStep (bufferCreate c data) ls b) :
    exec (BufferCall.queue c) [] (ls.map Prod.fst) = some (ls.map Prod.snd, b.contents) ∧
      b.contents = (List.range b.size).map (fun k => b.data ((b.next + k) % c)) ∧
      IsQueue c b := by
  have hstart : Shows c (bufferCreate c data) [] := ⟨.create hc data, rfl⟩
  obtain ⟨q, hexec, hb, hq⟩ := (refines_queue c).run hrun hstart
  unfold inputs outputs at hexec
  rw [List.filterMap_some, ← hq] at hexec
  refine ⟨hexec, ?_, hb.isQueue⟩
  rw [contents, Ring.window, hb.capacity]

theorem bounded_fifo_one : ∃ b, Run BufferStep (bufferCreate 1 fun _ => 0)
    [(.add 7, .added true), (.add 8, .added false), (.remove, .removed 7)] b ∧
    b.contents = [] := by
  let b₀ := bufferCreate 1 fun _ => 0
  have hadd : BufferStep b₀ (.add 7, .added true) ((BufferCall.add 7).exec b₀).2 := rfl
  have hfull : BufferStep ((BufferCall.add 7).exec b₀).2 (.add 8, .added false)
      ((BufferCall.add 7).exec b₀).2 := rfl
  have hremove : BufferStep ((BufferCall.add 7).exec b₀).2 (.remove, .removed 7)
      (BufferCall.remove.exec ((BufferCall.add 7).exec b₀).2).2 := rfl
  have hrun := (((Run.nil b₀).snoc hadd).snoc hfull).snoc hremove
  have hq := bounded_fifo (by decide : 8 * 1 < 2 ^ 64) hrun
  exact ⟨_, hrun, hq.2.1⟩

end Buffer

end Channels
end Cmpsc473
