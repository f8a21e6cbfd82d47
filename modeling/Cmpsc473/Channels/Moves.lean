import Cmpsc473.Channels.Channel

/-!
# What a step of a call can do

The steps of `channelOp` and of `channelClose` as relations, with one constructor
for each way a step can go.  The invariants of a channel are proved by cases on
these.
-/

set_option linter.unusedSectionVars false

namespace Cmpsc473
namespace Channels

variable {T C A : Type} [DecidableEq T] [DecidableEq C] [DecidableEq A]

/-- The steps of `channel_send` and `channel_receive` from one operation to the next. -/
inductive OpMove (self : T) (c : C) (dir : Dir) (blocking : Bool) (ch : Chan T A) (data : UInt64) :
    OpPc A → OpStep T C A → Prop
  | take (h : 0 < ch.permit dir) : OpMove self c dir blocking ch data .take
      ⟨ch.takePermit dir, data, .lock, .internal, none⟩
  | full (h : ch.permit dir = 0) (hb : blocking = false) : OpMove self c dir blocking ch data .take
      ⟨ch, data, .fullLock, .internal, none⟩
  | fullLock (h : 0 < ch.mutex) : OpMove self c dir blocking ch data .fullLock
      ⟨ch.takeMutex, data, .fullCheck, .internal, none⟩
  | fullCheck : OpMove self c dir blocking ch data .fullCheck
      ⟨ch, data, .fullUnlock ch.closed, .internal, none⟩
  | fullOpen : OpMove self c dir blocking ch data (.fullUnlock false)
      ⟨ch.postMutex, data, .done .wouldblock, .internal, none⟩
  | fullClosedSend (hd : dir = .send) : OpMove self c dir blocking ch data (.fullUnlock true)
      ⟨ch.postMutex, data, .done .closedError, .internal, none⟩
  | fullClosedRecv (hd : dir = .recv) : OpMove self c dir blocking ch data (.fullUnlock true)
      ⟨ch.postMutex, data, .fullPost, .internal, none⟩
  | fullPost : OpMove self c dir blocking ch data .fullPost
      ⟨ch.postPermit dir, data, .done .closedError, .internal, none⟩
  | lock (h : 0 < ch.mutex) : OpMove self c dir blocking ch data .lock
      ⟨ch.takeMutex, data, .body, .internal, none⟩
  | bodyClosed (h : ch.closed = true) : OpMove self c dir blocking ch data .body
      ⟨ch, data, .closedUnlock, .internal, none⟩
  | added {b : Buffer} (h : ch.closed = false) (hd : dir = .send)
      (hb : bufferAdd data ch.buffer = (true, b)) : OpMove self c dir blocking ch data .body
      ⟨{ ch with buffer := b }, data, .unlock, .added c data, none⟩
  | addFailed {b : Buffer} (h : ch.closed = false) (hd : dir = .send)
      (hb : bufferAdd data ch.buffer = (false, b)) : OpMove self c dir blocking ch data .body
      ⟨{ ch with buffer := b }, data, .errUnlock, .internal, none⟩
  | removed {b : Buffer} {v : UInt64} (h : ch.closed = false) (hd : dir = .recv)
      (hsize : 0 < ch.buffer.size) (hb : bufferRemove ch.buffer = (v, b)) (hv : v ≠ bufferEmpty) :
      OpMove self c dir blocking ch data .body
      ⟨{ ch with buffer := b }, v, .unlock, .removed c v, none⟩
  | removeFailed {b : Buffer} {e : Event C A} (h : ch.closed = false) (hd : dir = .recv)
      (hb : bufferRemove ch.buffer = (bufferEmpty, b))
      (he : e = if ch.buffer.size > 0 then .removed c bufferEmpty else .internal) :
      OpMove self c dir blocking ch data .body
      ⟨{ ch with buffer := b }, data, .errUnlock, e, none⟩
  | closedUnlock : OpMove self c dir blocking ch data .closedUnlock
      ⟨ch.postMutex, data, .closedPost, .internal, none⟩
  | closedPost : OpMove self c dir blocking ch data .closedPost
      ⟨ch.postPermit dir, data, .done .closedError, .internal, none⟩
  | errUnlock : OpMove self c dir blocking ch data .errUnlock
      ⟨ch.postMutex, data, .done .otherError, .internal, none⟩
  | unlock : OpMove self c dir blocking ch data .unlock
      ⟨ch.postMutex, data, .postOther, .internal, none⟩
  | postOther : OpMove self c dir blocking ch data .postOther
      ⟨ch.postPermit dir.other, data, .listLock, .internal, none⟩
  | listLock (h : ch.lock dir = none) : OpMove self c dir blocking ch data .listLock
      ⟨ch.setLock dir (some self), data, .notify (ch.list dir), .internal, none⟩
  | notifyEnd : OpMove self c dir blocking ch data (.notify [])
      ⟨ch.setLock dir none, data, .done .success, .internal, none⟩
  | notify {a : A} {rest : List A} : OpMove self c dir blocking ch data (.notify (a :: rest))
      ⟨ch, data, .notify rest, .internal, some a⟩

/-- The steps of `channel_close`. -/
inductive CloseMove (self : T) (ch : Chan T A) : ClosePc A → CloseStep T A → Prop
  | lock (h : 0 < ch.mutex) : CloseMove self ch .lock ⟨ch.takeMutex, .body, none⟩
  | already (h : ch.closed = true) : CloseMove self ch .body ⟨ch, .errUnlock, none⟩
  | close (h : ch.closed = false) :
      CloseMove self ch .body ⟨{ ch with closed := true }, .post .send, none⟩
  | errUnlock : CloseMove self ch .errUnlock ⟨ch.postMutex, .done .closedError, none⟩
  | postAvailable : CloseMove self ch (.post .send) ⟨ch.postPermit .send, .post .recv, none⟩
  | postUsed : CloseMove self ch (.post .recv) ⟨ch.postPermit .recv, .unlock, none⟩
  | unlock : CloseMove self ch .unlock ⟨ch.postMutex, .listLock .send, none⟩
  | listLock {d : Dir} (h : ch.lock d = none) : CloseMove self ch (.listLock d)
      ⟨ch.setLock d (some self), .notify d (ch.list d), none⟩
  | notify {d : Dir} {a : A} {rest : List A} :
      CloseMove self ch (.notify d (a :: rest)) ⟨ch, .notify d rest, some a⟩
  | notifyNext : CloseMove self ch (.notify .send []) ⟨ch.setLock .send none, .listLock .recv, none⟩
  | notifyEnd : CloseMove self ch (.notify .recv []) ⟨ch.setLock .recv none, .done .success, none⟩

variable {self : T} {c : C} {dir : Dir} {blocking : Bool} {ch : Chan T A} {data : UInt64}

/-- The body of the critical section on an open channel. -/
theorem bufferOp_move (h : ch.closed = false) :
    OpMove self c dir blocking ch data .body (bufferOp c dir ch data) := by
  cases hd : dir with
  | send =>
    rcases hb : bufferAdd data ch.buffer with ⟨added, b⟩
    simp only [bufferOp, hb]
    cases added with
    | true => exact .added h rfl hb
    | false => exact .addFailed h rfl hb
  | recv =>
    rcases hb : bufferRemove ch.buffer with ⟨v, b⟩
    simp only [bufferOp, hb]
    by_cases hv : v = bufferEmpty
    · rw [if_pos hv]
      rw [hv] at hb ⊢
      exact .removeFailed h rfl hb rfl
    · have hsize : 0 < ch.buffer.size := by
        by_contra hzero
        rw [Buffer.remove_empty (by omega), Prod.mk.injEq] at hb
        exact hv hb.1.symm
      rw [if_neg hv, if_pos hsize]
      exact .removed h rfl hsize hb hv

theorem channelOp_move {pc : OpPc A} {r : OpStep T C A}
    (h : channelOp self c dir blocking ch data pc = some r) :
    OpMove self c dir blocking ch data pc r := by
  cases pc with
  | take =>
    simp only [channelOp] at h
    split at h
    · rename_i hp
      cases h
      exact .take hp
    · rename_i hp
      split at h
      · cases h
      · rename_i hb
        cases h
        exact .full (by omega) (Bool.eq_false_iff.mpr hb)
  | fullLock =>
    simp only [channelOp] at h
    split at h
    · rename_i hm
      cases h
      exact .fullLock hm
    · cases h
  | fullCheck =>
    cases h
    exact .fullCheck
  | fullUnlock closed =>
    cases closed with
    | false =>
      cases h
      exact .fullOpen
    | true =>
      cases hd : dir with
      | send =>
        rw [hd] at h
        cases h
        exact .fullClosedSend rfl
      | recv =>
        rw [hd] at h
        cases h
        exact .fullClosedRecv rfl
  | fullPost =>
    cases h
    exact .fullPost
  | lock =>
    simp only [channelOp] at h
    split at h
    · rename_i hm
      cases h
      exact .lock hm
    · cases h
  | body =>
    simp only [channelOp] at h
    split at h
    · rename_i hc
      cases h
      exact .bodyClosed hc
    · rename_i hc
      cases h
      exact bufferOp_move (Bool.eq_false_iff.mpr hc)
  | closedUnlock =>
    cases h
    exact .closedUnlock
  | closedPost =>
    cases h
    exact .closedPost
  | errUnlock =>
    cases h
    exact .errUnlock
  | unlock =>
    cases h
    exact .unlock
  | postOther =>
    cases h
    exact .postOther
  | listLock =>
    simp only [channelOp] at h
    split at h
    · rename_i hl
      cases h
      exact .listLock (Option.isNone_iff_eq_none.mp hl)
    · cases h
  | notify rest =>
    cases rest with
    | nil =>
      cases h
      exact .notifyEnd
    | cons a rest =>
      cases h
      exact .notify
  | done st => cases h

theorem channelClose_move {pc : ClosePc A} {r : CloseStep T A}
    (h : channelClose self ch pc = some r) : CloseMove self ch pc r := by
  cases pc with
  | lock =>
    simp only [channelClose] at h
    split at h
    · rename_i hm
      cases h
      exact .lock hm
    · cases h
  | body =>
    simp only [channelClose] at h
    split at h
    · rename_i hc
      cases h
      exact .already hc
    · rename_i hc
      cases h
      exact .close (Bool.eq_false_iff.mpr hc)
  | errUnlock =>
    cases h
    exact .errUnlock
  | post d =>
    cases d with
    | send =>
      cases h
      exact .postAvailable
    | recv =>
      cases h
      exact .postUsed
  | unlock =>
    cases h
    exact .unlock
  | listLock d =>
    simp only [channelClose] at h
    split at h
    · rename_i hl
      cases h
      exact .listLock (Option.isNone_iff_eq_none.mp hl)
    · cases h
  | notify d rest =>
    cases rest with
    | nil =>
      cases d with
      | send =>
        cases h
        exact .notifyNext
      | recv =>
        cases h
        exact .notifyEnd
    | cons a rest =>
      cases h
      exact .notify
  | done st => cases h

end Channels
end Cmpsc473
