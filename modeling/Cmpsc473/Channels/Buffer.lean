import Cmpsc473.Library.Ring
import Mathlib.Data.UInt

/-!
# The program `buffer.c`

A buffer of messages, each a pointer, in a ring of `capacity` slots.  The slots
are a function of the index, so that those not yet written hold whatever `malloc`
left there.  Sizes are `size_t`: the one sum that could pass `2 ^ 64` is reduced.
-/

namespace Cmpsc473
namespace Channels

structure Buffer where
  size : Nat
  next : Nat
  capacity : Nat
  data : Nat → UInt64

/-- `BUFFER_EMPTY`, the pointer `-1`. -/
def bufferEmpty : UInt64 := 0xFFFFFFFFFFFFFFFF

def bufferCreate (capacity : Nat) (data : Nat → UInt64) : Buffer :=
  { size := 0, next := 0, capacity := capacity, data := data }

def bufferAdd (data : UInt64) (buffer : Buffer) : Bool × Buffer :=
  if buffer.size ≥ buffer.capacity then (false, buffer)
  else
    let pos := (buffer.next + buffer.size) % 2 ^ 64
    let pos := if pos ≥ buffer.capacity then pos - buffer.capacity else pos
    (true, { buffer with
      data := Function.update buffer.data pos data
      size := buffer.size + 1 })

def bufferRemove (buffer : Buffer) : UInt64 × Buffer :=
  if buffer.size > 0 then
    let next := buffer.next + 1
    (buffer.data buffer.next, { buffer with
      size := buffer.size - 1
      next := if next ≥ buffer.capacity then next - buffer.capacity else next })
  else (bufferEmpty, buffer)

namespace Buffer

variable {b : Buffer} {v : UInt64}

/-- The messages from `next` on, `size` many. -/
def contents (b : Buffer) : List UInt64 := Ring.window b.data b.capacity b.next b.size

/-- The invariant of a buffer, for capacities that leave room for the sum of two
indices. -/
structure Wf (b : Buffer) : Prop where
  next_lt : b.next < b.capacity
  size_le : b.size ≤ b.capacity
  capacity_le : b.capacity ≤ 2 ^ 63

theorem create_wf {capacity : Nat} {data : Nat → UInt64} (h : 1 ≤ capacity)
    (h' : capacity ≤ 2 ^ 63) : (bufferCreate capacity data).Wf :=
  ⟨h, Nat.zero_le _, h'⟩

theorem add_full (h : b.capacity ≤ b.size) : bufferAdd v b = (false, b) := if_pos h

/-- A message goes behind those that are there, as long as there is room. -/
theorem add_spec (hb : b.Wf) (h : b.size < b.capacity) :
    ∃ b', bufferAdd v b = (true, b') ∧ b'.contents = b.contents ++ [v] ∧ b'.Wf ∧
      b'.size = b.size + 1 ∧ b'.capacity = b.capacity := by
  have hnext := hb.next_lt
  have hcap := hb.capacity_le
  have hpos : (if (b.next + b.size) % 2 ^ 64 ≥ b.capacity then
      (b.next + b.size) % 2 ^ 64 - b.capacity else (b.next + b.size) % 2 ^ 64) =
      (b.next + b.size) % b.capacity := by
    rw [Nat.mod_eq_of_lt (show b.next + b.size < 2 ^ 64 by omega)]
    exact Ring.wrap_eq_mod (by omega)
  refine ⟨_, if_neg (by omega), ?_, ⟨hnext, h, hcap⟩, rfl, rfl⟩
  rw [hpos]
  exact Ring.window_snoc h

theorem remove_empty (h : b.size = 0) : bufferRemove b = (bufferEmpty, b) :=
  if_neg (by omega)

/-- The message removed is the one in front. -/
theorem remove_spec (hb : b.Wf) (h : 0 < b.size) :
    ∃ v b', bufferRemove b = (v, b') ∧ b.contents = v :: b'.contents ∧ b'.Wf ∧
      b'.size + 1 = b.size ∧ b'.capacity = b.capacity := by
  have hnext := hb.next_lt
  have hsize := hb.size_le
  have hwrap : (if b.next + 1 ≥ b.capacity then b.next + 1 - b.capacity else b.next + 1) =
      (b.next + 1) % b.capacity := Ring.wrap_eq_mod (by omega)
  refine ⟨_, _, if_pos h, ?_, ⟨?_, ?_, hb.capacity_le⟩, ?_, rfl⟩
  · have hsplit := Ring.window_cons b.data (b.size - 1) hnext
    rw [Nat.sub_add_cancel h] at hsplit
    rw [contents, contents, hsplit]
    simp only [hwrap]
  · simp only [hwrap]
    exact Nat.mod_lt _ (by omega)
  · exact Nat.le_trans (Nat.sub_le _ _) hsize
  · exact Nat.sub_add_cancel h

end Buffer

end Channels
end Cmpsc473
