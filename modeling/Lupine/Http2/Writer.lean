import Lupine.Foundations.Execution

/-!
# The writer thread

The output side of an HTTP/2 transport (`h2.cpp`): threads that hold the session mutex append the
bytes of the session to `outbound`; `h2_write_main` takes them in batches and writes each batch to
the socket without the mutex, as many bytes at a time as the socket accepts.

A barrier (`h2_queue_process_control_locked` with `pause`) records in `pause_after_bytes` how much
of `outbound` may still be written. The batch that reaches it ends there, and the writer pauses.

* `Accounts` says that what was written, what is in flight and what is in `outbound` make up what
  was queued. Every step keeps it.
* A writer that is not paused and has no barrier before it writes all of `outbound`
  (`Writer.drains`).
-/

namespace Lupine.Http2

open Foundations List

variable {past : List UInt8}

/-- The output state of a transport. `queued` holds all bytes that were ever queued; it is only
observed. -/
structure Writer where
  queued : List UInt8
  outbound : List UInt8
  /-- `write_busy`, with the part of the batch that the socket has not accepted. -/
  chunk : Option (List UInt8)
  /-- `writer_paused`. -/
  paused : Bool
  pauseAfterBytes : ℕ
  /-- `write_failed`. -/
  failed : Bool
  /-- What the current socket has accepted. -/
  written : List UInt8
  pause_le : pauseAfterBytes ≤ outbound.length

namespace Writer

variable {w w' : Writer}

def initial : Writer := ⟨[], [], none, false, 0, false, [], Nat.le_refl 0⟩

/-- `h2_queue_output`. -/
def queue (w : Writer) (data : List UInt8) : Writer :=
  { w with
    queued := w.queued ++ data
    outbound := w.outbound ++ data
    pause_le := by
      have := w.pause_le
      rw [List.length_append]
      omega }

/-- The end of `outbound` becomes the barrier. -/
def barrier (w : Writer) : Writer :=
  { w with pauseAfterBytes := w.outbound.length, pause_le := Nat.le_refl _ }

/-- The next batch: up to the barrier, if there is one. -/
def batch (w : Writer) : Writer :=
  if w.pauseAfterBytes ≠ 0 then
    { w with
      chunk := some (w.outbound.take w.pauseAfterBytes)
      outbound := w.outbound.drop w.pauseAfterBytes
      pauseAfterBytes := 0
      paused := true
      pause_le := Nat.zero_le _ }
  else
    { w with
      chunk := some w.outbound, outbound := [], pauseAfterBytes := 0, pause_le := Nat.le_refl _ }

/-- `writer_paused = false`. -/
def unpause (w : Writer) : Writer := { w with paused := false }

/-- A step of the writer thread. -/
inductive Action
  /-- The writer flushes the streams and takes the next batch. -/
  | take (flushed : List UInt8)
  | write (bytes : ℕ)
  | wrote
  | fail
  deriving DecidableEq

variable {a : Action}

def step (w : Writer) : Action → Option Writer
  | .take flushed =>
    if w.paused = false ∧ w.chunk = none ∧ w.failed = false ∧ w.outbound ++ flushed ≠ [] then
      some (w.queue flushed).batch
    else none
  | .write n =>
    match w.chunk with
    | some c =>
      if 0 < n ∧ n ≤ c.length ∧ w.failed = false then
        some { w with chunk := some (c.drop n), written := w.written ++ c.take n }
      else none
    | none => none
  | .wrote =>
    match w.chunk with
    | some [] => if w.failed = false then some { w with chunk := none } else none
    | _ => none
  | .fail =>
    match w.chunk with
    | some _ => some { w with failed := true }
    | none => none

/-! ## Conservation -/

/-- What the writer has taken from `outbound` and not written. -/
def inFlight (w : Writer) : List UInt8 := w.chunk.getD []

/-- The bytes on earlier sockets, on this one, in flight and in `outbound` are the bytes queued. -/
def Accounts (w : Writer) (past : List UInt8) : Prop :=
  past ++ (w.written ++ (w.inFlight ++ w.outbound)) = w.queued

theorem accounts_initial : initial.Accounts [] := rfl

section Accounts

variable (h : w.Accounts past)

include h

theorem Accounts.queue (data : List UInt8) : (w.queue data).Accounts past := by
  change past ++ (w.written ++ (w.inFlight ++ (w.outbound ++ data))) = w.queued ++ data
  rw [← h]
  simp only [append_assoc]

theorem Accounts.barrier : w.barrier.Accounts past := h

attribute [local simp] inFlight Accounts

theorem Accounts.batch (hchunk : w.chunk = none) : w.batch.Accounts past := by
  have h' : past ++ (w.written ++ w.outbound) = w.queued := by
    simpa [hchunk] using h
  unfold Writer.batch
  split
  · simpa using h'
  · simpa using h'

theorem Accounts.step (hstep : w.step a = some w') : w'.Accounts past := by
  cases a with
  | take flushed =>
    obtain ⟨hc, rfl⟩ := of_guarded hstep
    exact (h.queue flushed).batch hc.2.1
  | write n =>
    simp only [Writer.step] at hstep
    split at hstep
    · rename_i c hc
      split at hstep <;> cases hstep
      have h' : past ++ (w.written ++ (c ++ w.outbound)) = w.queued := by
        simpa [hc] using h
      change past ++ ((w.written ++ c.take n) ++ (c.drop n ++ w.outbound)) = w.queued
      rw [← h', append_assoc, ← append_assoc (c.take n), take_append_drop]
    · cases hstep
  | wrote =>
    simp only [Writer.step] at hstep
    split at hstep
    · rename_i hc
      split at hstep <;> cases hstep
      simpa [hc] using h
    · cases hstep
  | fail =>
    simp only [Writer.step] at hstep
    split at hstep <;> cases hstep
    exact h

/-! ## Positions -/

/-- The number of bytes that the writer has taken from `outbound`. -/
def taken (w : Writer) : ℕ := w.queued.length - w.outbound.length

theorem Accounts.length_le : w.outbound.length ≤ w.queued.length := by
  rw [← h]
  simp only [length_append]
  omega

/-- Between two batches, what the sockets have accepted is what was taken. -/
theorem Accounts.take_taken (hchunk : w.chunk = none) :
    past ++ w.written = w.queued.take w.taken := by
  have h' : past ++ w.written ++ w.outbound = w.queued := by
    simpa [hchunk] using h
  rw [taken, ← h', length_append, Nat.add_sub_cancel, take_left]

end Accounts

theorem taken_queue (w : Writer) (data : List UInt8) : (w.queue data).taken = w.taken := by
  change (w.queued ++ data).length - (w.outbound ++ data).length = _
  simp only [length_append, taken]
  omega

theorem batch_pauseAfterBytes (w : Writer) : w.batch.pauseAfterBytes = 0 := by
  unfold batch
  split <;> rfl

theorem batch_paused (h : w.pauseAfterBytes = 0) : w.batch.paused = w.paused := by
  rw [batch, if_neg (not_not.mpr h)]

theorem batch_queued (w : Writer) : w.batch.queued = w.queued := by
  unfold batch
  split <;> rfl

/-- A batch that ends at the barrier. -/
theorem taken_batch (h : w.pauseAfterBytes ≠ 0) (hle : w.outbound.length ≤ w.queued.length) :
    w.batch.taken = w.taken + w.pauseAfterBytes := by
  have hpause := w.pause_le
  rw [batch, if_pos h]
  simp only [taken, length_drop]
  omega

attribute [local simp] Writer.step

/-- A step of the writer that does not take a batch. -/
theorem step_of_chunk (hchunk : w.chunk ≠ none) (hstep : w.step a = some w') :
    w'.queued = w.queued ∧ w'.outbound = w.outbound ∧
      w'.paused = w.paused ∧ w'.pauseAfterBytes = w.pauseAfterBytes := by
  cases a with
  | take flushed => simp [hchunk] at hstep
  | write n | wrote =>
    simp only [Writer.step] at hstep
    split at hstep
    · split at hstep <;> cases hstep
      exact ⟨rfl, rfl, rfl, rfl⟩
    · cases hstep
  | fail =>
    simp only [Writer.step] at hstep
    split at hstep <;> cases hstep
    exact ⟨rfl, rfl, rfl, rfl⟩

/-- A step of the writer between two batches takes the next one. -/
theorem step_of_idle (hchunk : w.chunk = none) (hstep : w.step a = some w') :
    w.paused = false ∧
      ∃ flushed, w.outbound ++ flushed ≠ [] ∧ w' = (w.queue flushed).batch := by
  cases a with
  | take flushed =>
    obtain ⟨hc, rfl⟩ := of_guarded hstep
    exact ⟨hc.1, flushed, hc.2.2.2, rfl⟩
  | write n | wrote | fail => simp [hchunk] at hstep

theorem queued_step (hstep : w.step a = some w') : w.queued <+: w'.queued := by
  rcases Classical.em (w.chunk = none) with hchunk | hchunk
  · obtain ⟨-, flushed, -, rfl⟩ := step_of_idle hchunk hstep
    rw [batch_queued]
    exact ⟨flushed, rfl⟩
  · exact ⟨[], by rw [append_nil, (step_of_chunk hchunk hstep).1]⟩

/-! ## Draining -/

/-- The writer is going and will not stop at a barrier. -/
structure Running (w : Writer) : Prop where
  paused : w.paused = false
  pauseAfterBytes : w.pauseAfterBytes = 0
  failed : w.failed = false

/-- The actions of the writer while nothing is queued and the socket works. -/
def Action.Writes : Action → Prop
  | .take flushed => flushed = []
  | .write _ | .wrote => True
  | .fail => False

/-- A bound on the actions that are left. -/
def work (w : Writer) : ℕ :=
  4 * w.outbound.length + w.chunk.elim 0 fun c => 2 * c.length + 1

theorem Running.step (h : w.Running) (ha : a.Writes) (hstep : w.step a = some w') :
    w'.Running ∧ w'.queued = w.queued ∧ w'.work < w.work := by
  cases a with
  | take flushed =>
    obtain rfl : flushed = [] := ha
    obtain ⟨hc, rfl⟩ := of_guarded hstep
    have hne : 0 < w.outbound.length := by
      have := length_pos_of_ne_nil hc.2.2.2
      simpa using this
    have hbatch : (w.queue []).batch = { w with
        chunk := some w.outbound, outbound := [], pauseAfterBytes := 0,
        pause_le := Nat.le_refl _ } := by
      simp [Writer.batch, Writer.queue, h.pauseAfterBytes]
    rw [hbatch]
    refine ⟨⟨h.paused, rfl, h.failed⟩, rfl, ?_⟩
    simp only [work, hc.2.1, Option.elim, length_nil]
    omega
  | write n =>
    simp only [Writer.step] at hstep
    split at hstep
    · rename_i c hc
      split at hstep <;> cases hstep
      refine ⟨{ h with }, rfl, ?_⟩
      simp only [work, hc, Option.elim, length_drop]
      omega
    · cases hstep
  | wrote =>
    simp only [Writer.step] at hstep
    split at hstep
    · rename_i hc
      split at hstep <;> cases hstep
      refine ⟨{ h with }, rfl, ?_⟩
      simp [work, hc]
    · cases hstep
  | fail => exact absurd ha id

/-- A running writer that has something to write has a step. -/
theorem Running.exists_step (h : w.Running) (hwork : w.chunk ≠ none ∨ w.outbound ≠ []) :
    ∃ a w', a.Writes ∧ w.step a = some w' := by
  cases hc : w.chunk with
  | none =>
    have hout : w.outbound ≠ [] := hwork.resolve_left (not_not.mpr hc)
    exact ⟨.take [], _, rfl, if_pos ⟨h.paused, hc, h.failed, by simpa using hout⟩⟩
  | some c =>
    cases c with
    | nil => exact ⟨.wrote, _, trivial, by simp [hc, h.failed]; rfl⟩
    | cons b c =>
      exact ⟨.write 1, _, trivial, by simp [hc, h.failed]; rfl⟩

/-- **The writer drains.** While nothing more is queued and the socket works, a running writer
takes a bounded number of actions, and it stops only when everything queued is written. -/
theorem drains (h : w.Running) (hpast : w.Accounts past) {as : List Action}
    (hrun : exec step w as = some w') (ha : ∀ a ∈ as, a.Writes) :
    as.length ≤ w.work ∧
      (past ++ w'.written = w.queued ∨ ∃ a w'', a.Writes ∧ w'.step a = some w'') := by
  induction as generalizing w with
  | nil =>
    cases hrun
    refine ⟨Nat.zero_le _, ?_⟩
    rcases Classical.em (w'.chunk ≠ none ∨ w'.outbound ≠ []) with hwork | hwork
    · exact .inr (h.exists_step hwork)
    · have hnone : w'.chunk = none ∧ w'.outbound = [] := by simpa [not_or] using hwork
      left
      have := hpast
      simpa [Accounts, inFlight, hnone.1, hnone.2] using this
  | cons a as ih =>
    obtain ⟨w₁, hw₁, hrun⟩ := exec_cons_eq_some.mp hrun
    obtain ⟨h₁, hq, hlt⟩ := h.step (ha a (by simp)) hw₁
    obtain ⟨hlen, hend⟩ := ih h₁ (hpast.step hw₁) hrun fun b hb => ha b (by simp [hb])
    rw [hq] at hend
    refine ⟨?_, hend⟩
    rw [length_cons]
    omega

end Writer

end Lupine.Http2
