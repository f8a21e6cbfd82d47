import Cmpsc473.Channels.Channel

/-!
# Creating a channel

`channel_create` with the three places that its size goes to: the capacity of the
buffer, which has 64 bits, the number of bytes of its slots, which wraps, and the
value of `available`, which is cut to 32 bits and refused above `SEM_VALUE_MAX`.
-/

namespace Cmpsc473
namespace Channels

/-- What `channel_create` has made. -/
structure Creation (T A : Type) where
  chan : Chan T A
  /-- The bytes that `buffer_create` asked for. -/
  dataBytes : Nat
  availableInit : Option Nat

/-- `channel_create`, where the allocations succeed.  They leave `data` in the slots and
`garbage` in the semaphores, and a semaphore that is not initialised keeps it. -/
def channelCreateAlloc {T A : Type} (size : Nat) (data : Nat → UInt64) (garbage : Nat) :
    Option (Creation T A) :=
  if size > 0 then
    some
      { chan :=
          { buffer := bufferCreate size data
            closed := false
            mutex := (semInit 1).getD garbage
            permit
              | .send => (semInit (size % 2 ^ 32)).getD garbage
              | .recv => (semInit 0).getD garbage
            list _ := []
            lock _ := none }
        dataBytes := size * 8 % 2 ^ 64
        availableInit := semInit (size % 2 ^ 32) }
  else none

section Alone

variable {T C A : Type} (t : T) (c : C)

/-- Runs a call to its end, if it gets there in so many steps. -/
def runAlone (dir : Dir) (blocking : Bool) :
    Nat → Chan T A → UInt64 → OpPc A → Option (Status × Chan T A)
  | _, ch, _, .done st => some (st, ch)
  | 0, _, _, _ => none
  | rounds + 1, ch, data, pc =>
    match channelOp t c dir blocking ch data pc with
    | none => none
    | some r => runAlone dir blocking rounds r.chan r.data r.pc

/-- A send to a channel for which no select waits: seven steps. -/
def sendAlone (blocking : Bool) (ch : Chan T A) (v : UInt64) : Option (Status × Chan T A) :=
  runAlone t c .send blocking 7 ch v .take

/-- Sends, one after the other. -/
def sendEach (blocking : Bool) : Chan T A → List UInt64 → Option (List Status × Chan T A)
  | ch, [] => some ([], ch)
  | ch, v :: vs => do
    let (st, ch) ← sendAlone t c blocking ch v
    let (sts, ch) ← sendEach blocking ch vs
    return (st :: sts, ch)

/-- `n` sends succeed, whatever their messages, and then one would block. -/
def TakesExactly (n : Nat) (ch : Chan T A) : Prop :=
  ∀ (blocking : Bool) (vs : List UInt64), vs.length = n → ∃ ch',
    sendEach t c blocking ch vs = some (vs.map fun _ => .success, ch') ∧ ∀ v,
      channelSend t c true ch' v .take = none ∧
        (sendAlone t c false ch' v).map Prod.fst = some .wouldblock

/-- What the users of a channel rely on. -/
structure Creation.Consistent (k : Creation T A) (size : Nat) : Prop where
  capacity : k.chan.buffer.capacity = size
  slots : k.dataBytes = 8 * size
  initialised : k.availableInit = some size
  available : k.chan.available = size
  sends : TakesExactly t c size k.chan

/-- Nobody is at the channel, which has taken `sent` messages of at most `limit`. -/
structure Filled (limit sent : Nat) (ch : Chan T A) : Prop where
  wf : ch.buffer.Wf
  size : ch.buffer.size = sent
  limit_le : limit ≤ ch.buffer.capacity
  available : ch.permit .send + sent = limit
  mutex : ch.mutex = 1
  closed : ch.closed = false
  list : ch.list .send = []
  lock : ch.lock .send = none

variable {t c} {limit sent : Nat} {ch : Chan T A}

theorem runAlone_step {dir : Dir} {blocking : Bool} {rounds : Nat} {data : UInt64} {pc : OpPc A}
    {r : OpStep T C A} (h : channelOp t c dir blocking ch data pc = some r) :
    runAlone t c dir blocking (rounds + 1) ch data pc =
      runAlone t c dir blocking rounds r.chan r.data r.pc := by
  cases pc with
  | done st => cases h
  | _ =>
    rw [runAlone, h]
    simp

/-- A message sent to a channel with a free slot goes into it. -/
theorem Filled.send (h : Filled limit sent ch) (hroom : sent < limit) (blocking : Bool)
    (v : UInt64) : ∃ ch', sendAlone t c blocking ch v = some (.success, ch') ∧
      Filled limit (sent + 1) ch' := by
  have hsize := h.size
  have hlimit := h.limit_le
  have havail := h.available
  obtain ⟨b', hadd, _, hwf, hsize', hcap⟩ := Buffer.add_spec (v := v) h.wf (by omega)
  let ch₁ := (ch.takePermit .send).takeMutex
  let ch₂ := ({ ch₁ with buffer := b' } : Chan T A).postMutex.postPermit .recv
  have htake : channelOp t c .send blocking ch v .take =
      some ⟨ch.takePermit .send, v, .lock, .internal, none⟩ := if_pos (by omega)
  have hlock : channelOp t c .send blocking (ch.takePermit .send) v .lock =
      some ⟨ch₁, v, .body, .internal, none⟩ :=
    if_pos (by show 0 < ch.mutex; rw [h.mutex]; exact Nat.one_pos)
  have hbody : channelOp t c .send blocking ch₁ v .body =
      some ⟨{ ch₁ with buffer := b' }, v, .unlock, .added c v, none⟩ := by
    have hopen : ¬ ch₁.closed = true := by
      show ¬ ch.closed = true
      rw [h.closed]
      exact Bool.false_ne_true
    rw [channelOp, if_neg hopen, bufferOp, show bufferAdd v ch₁.buffer = (true, b') from hadd]
    rfl
  have hlistLock : channelOp t c .send blocking ch₂ v .listLock =
      some ⟨ch₂.setLock .send (some t), v, .notify [], .internal, none⟩ := by
    have hfree : (ch₂.lock .send).isNone = true := by
      show (ch.lock .send).isNone = true
      rw [h.lock]
      rfl
    have hlist : ch₂.list .send = [] := h.list
    rw [channelOp, if_pos hfree, hlist]
  refine ⟨(ch₂.setLock .send (some t)).setLock .send none, ?_, ?_⟩
  · calc sendAlone t c blocking ch v
        = runAlone t c .send blocking 6 (ch.takePermit .send) v .lock := runAlone_step htake
      _ = runAlone t c .send blocking 5 ch₁ v .body := runAlone_step hlock
      _ = runAlone t c .send blocking 4 { ch₁ with buffer := b' } v .unlock :=
          runAlone_step hbody
      _ = runAlone t c .send blocking 2 ch₂ v .listLock := rfl
      _ = runAlone t c .send blocking 1 (ch₂.setLock .send (some t)) v (.notify []) :=
          runAlone_step hlistLock
      _ = some (.success, (ch₂.setLock .send (some t)).setLock .send none) := rfl
  · have hpermit : ch₂.permit .send = ch.permit .send - 1 := by
      rw [Chan.permit_postPermit, if_neg (by decide)]
      show Function.update ch.permit .send (ch.permit .send - 1) .send = _
      rw [Function.update_self]
    refine { wf := hwf, size := by rw [← hsize]; exact hsize', limit_le := ?_, available := ?_,
             mutex := ?_, closed := h.closed, list := h.list, lock := ?_ }
    · exact hcap.symm ▸ hlimit
    · show ch₂.permit .send + (sent + 1) = limit
      omega
    · show semPost (ch.mutex - 1) = 1
      rw [h.mutex]
      rfl
    · show Function.update (ch₂.setLock .send (some t)).lock .send none .send = none
      rw [Function.update_self]

/-- No message goes into a channel without a free slot. -/
theorem Filled.full (h : Filled limit sent ch) (hfull : sent = limit) (v : UInt64) :
    channelSend t c true ch v .take = none ∧
      (sendAlone t c false ch v).map Prod.fst = some .wouldblock := by
  have hpermit : ¬ 0 < ch.permit .send := by
    have := h.available
    omega
  have htake : channelOp t c .send false ch v .take =
      some ⟨ch, v, .fullLock, .internal, none⟩ := by
    rw [channelOp, if_neg hpermit]
    rfl
  have hlock : channelOp t c .send false ch v .fullLock =
      some ⟨ch.takeMutex, v, .fullCheck, .internal, none⟩ :=
    if_pos (by rw [h.mutex]; exact Nat.one_pos)
  constructor
  · rw [channelSend, channelOp, if_neg hpermit]
    rfl
  · have hrun : sendAlone t c false ch v = some (.wouldblock, ch.takeMutex.postMutex) :=
      calc sendAlone t c false ch v
          = runAlone t c .send false 6 ch v .fullLock := runAlone_step htake
        _ = runAlone t c .send false 5 ch.takeMutex v .fullCheck :=
            runAlone_step hlock
        _ = runAlone t c .send false 4 ch.takeMutex v (.fullUnlock ch.closed) := rfl
        _ = some (.wouldblock, ch.takeMutex.postMutex) := by
            rw [h.closed]
            rfl
    rw [hrun]
    rfl

theorem Filled.sendEach (blocking : Bool) {vs : List UInt64} (h : Filled limit sent ch)
    (hlen : sent + vs.length ≤ limit) : ∃ ch',
      sendEach t c blocking ch vs = some (vs.map fun _ => .success, ch') ∧
        Filled limit (sent + vs.length) ch' := by
  induction vs generalizing sent ch with
  | nil => exact ⟨ch, rfl, h⟩
  | cons v vs ih =>
    rw [List.length_cons] at hlen ⊢
    obtain ⟨ch₁, hsend, h₁⟩ := h.send (t := t) (c := c) (by omega) blocking v
    obtain ⟨ch₂, hsends, h₂⟩ := ih h₁ (by omega)
    refine ⟨ch₂, ?_, ?_⟩
    · simp only [Channels.sendEach, hsend, Option.bind_eq_bind, Option.bind_some, hsends]
      rfl
    · rwa [show sent + (vs.length + 1) = sent + 1 + vs.length by omega]

theorem Filled.takesExactly (h : Filled limit 0 ch) : TakesExactly t c limit ch := by
  intro blocking vs hlen
  have hroom : 0 + vs.length ≤ limit := by omega
  obtain ⟨ch', hsends, h'⟩ := h.sendEach (t := t) (c := c) blocking hroom
  exact ⟨ch', hsends, fun v => h'.full (by omega) v⟩

variable {size garbage : Nat} {data : Nat → UInt64} {k : Creation T A}

/-- Where `sem_init` takes the value, the channel takes as many messages. -/
theorem filled_create (hinit : semInit (size % 2 ^ 32) = some limit) (hlimit : limit ≤ size)
    (hpos : 0 < size) (hle : size ≤ 2 ^ 63)
    (hk : channelCreateAlloc size data garbage = some k) : Filled limit 0 k.chan := by
  rw [channelCreateAlloc, if_pos hpos] at hk
  cases hk
  refine { wf := Buffer.create_wf hpos hle, size := rfl, limit_le := hlimit, available := ?_,
           mutex := rfl, closed := rfl, list := rfl, lock := rfl }
  show (semInit (size % 2 ^ 32)).getD garbage + 0 = limit
  rw [hinit]
  rfl

/-- **Consistent channels.** A channel is what its size says exactly up to the largest
value of a semaphore. -/
theorem create_consistent_iff (hlt : size < 2 ^ 64) :
    (∀ k : Creation T A, channelCreateAlloc size data garbage = some k →
      k.Consistent t c size) ↔ size ≤ semValueMax := by
  have hmax : semValueMax = 2147483647 := rfl
  constructor
  · intro hall
    by_contra hgt
    have hk : channelCreateAlloc (A := A) (T := T) size data garbage = some _ :=
      if_pos (by omega)
    have hinit := (hall _ hk).initialised
    have hinit : semInit (size % 2 ^ 32) = some size := hinit
    unfold semInit at hinit
    split at hinit
    · rw [Option.some.injEq] at hinit
      omega
    · cases hinit
  · intro hle k hk
    have hpos : 0 < size := by
      by_contra hzero
      rw [channelCreateAlloc, if_neg hzero] at hk
      cases hk
    have hmod : size % 2 ^ 32 = size := Nat.mod_eq_of_lt (by omega)
    have hinit : semInit (size % 2 ^ 32) = some size := by
      rw [hmod]
      exact if_pos hle
    have hfilled := filled_create hinit (Nat.le_refl size) hpos (by omega) hk
    have havail : k.chan.available = size := hfilled.available
    rw [channelCreateAlloc, if_pos hpos] at hk
    cases hk
    refine { capacity := rfl, slots := ?_, initialised := hinit, available := havail
             sends := hfilled.takesExactly }
    show size * 8 % 2 ^ 64 = 8 * size
    omega

/-- The channel is the one that the system starts with. -/
theorem channelCreateAlloc_eq (hpos : 0 < size)
    (hk : channelCreateAlloc size data garbage = some k) :
    k.chan = channelCreate size data garbage := by
  rw [channelCreateAlloc, if_pos hpos] at hk
  cases hk
  rfl

end Alone

theorem create_consistent_iff_four :
    (∀ k : Creation Bool Unit, channelCreateAlloc 4 (fun _ => 0) 0 = some k →
      k.Consistent true () 4) ↔ 4 ≤ semValueMax :=
  create_consistent_iff (by decide)

/-- A channel of 2 ^ 32 + 1 messages takes one. -/
theorem create_truncated : ∃ k : Creation Bool Unit,
    channelCreateAlloc (2 ^ 32 + 1) (fun _ => 0) 0 = some k ∧
      k.chan.buffer.capacity = 2 ^ 32 + 1 ∧ k.chan.available = 1 ∧
      TakesExactly true () 1 k.chan ∧ ¬ k.Consistent true () (2 ^ 32 + 1) := by
  have hk : channelCreateAlloc (T := Bool) (A := Unit) (2 ^ 32 + 1) (fun _ => 0) 0 = some _ :=
    if_pos (by decide)
  have hinit : semInit ((2 ^ 32 + 1) % 2 ^ 32) = some 1 := rfl
  have hfilled := filled_create hinit (by decide) (by decide) (by decide) hk
  have havail := hfilled.available
  refine ⟨_, hk, rfl, havail, hfilled.takesExactly, fun hcons => ?_⟩
  have hsize := hcons.available.symm.trans havail
  exact absurd hsize (by decide)

end Channels
end Cmpsc473
