import Mathlib.Algebra.Group.Pi.Basic
import Mathlib.Algebra.Group.Hom.Defs
import Lupine.Foundations.Monitor

/-!
# The gate of stream captures

`capture_gate` of `checkpoint.cpp` keeps a checkpoint and stream captures apart. A capture begins
in two phases: `capture_begin` admits it before the request is sent, and `capture_begin_complete`
turns it into an active capture or drops it when the reply has arrived
(`lupine_capture_begin_guard`). `lupine_complete_stream_end_capture` reports its end after the reply
of `cuStreamEndCapture`. A checkpointer waits until no capture is admitted or active.

The model has the gate, the threads in the calls of the client, and the streams that capture on the
server. An invalidated capture lasts until its `cuStreamEndCapture`.

* `Account` ties the counters to the threads and to the captures of the server.
* `capture_gate`: in every run, no capture is being begun or active between the return of
  `wait_for_captures` and its resume; and the active captures tracked are those begun and not ended
  exactly as long as no end is reported while `active_captures_` is zero.
* `ended_too_early`: a thread ends a capture whose `cuStreamBeginCapture` has not returned on the
  thread that began it. The gate drops the report, counts the capture for ever, and no checkpoint
  is possible any more.
-/

namespace Lupine.Checkpoint.CaptureGate

open Foundations Monitor Bool

variable {σ : Type*}

/-- The fields of `capture_gate`, and the server. -/
structure Memory (σ : Type*) where
  admitted : ℕ
  active : ℕ
  waiters : ℕ
  checkpoint : Bool
  /-- The streams in which a capture has begun and not ended on the server. -/
  capturing : List σ
  /-- `wait_for_captures` has returned, and no call of `resume_captures` has followed. No code
  reads this. -/
  returned : Bool
  /-- The ends that found `active_captures_` zero. No code reads this. -/
  lost : ℕ
  deriving DecidableEq

variable {m : Memory σ}

/-- The results of `cuStreamEndCapture`. -/
inductive EndResult
  | success
  | invalidated
  | unjoined
  | wrongThread
  | unmatched
  /-- Every other error, the failure of the request included. -/
  | failed
  deriving DecidableEq

/-- The results on which `lupine_complete_stream_end_capture` reports an end. -/
def EndResult.ends : EndResult → Bool
  | .success | .invalidated | .unjoined => true
  | .wrongThread | .unmatched | .failed => false

/-- Where a thread is in the functions of the gate. -/
inductive Place (σ : Type*)
  | idle
  | beginLock (stream : σ)
  | beginCheck (stream : σ)
  | beginSleep (stream : σ)
  | beginUnlock (stream : σ)
  | beginSent (stream : σ)
  /-- `capture_begin_complete`. -/
  | completeLock (started : Bool)
  | completeUpdate (started : Bool)
  | completeNotify
  | endSent (stream : σ)
  | endLock
  | endUpdate
  | endNotify
  /-- The return of any of these functions. -/
  | unlocking
  | waitLock
  | waitRegister
  | turnCheck
  | turnSleep
  | turnLock
  | emptyCheck
  | emptySleep
  | emptyLock
  | waitUnlock
  | resumeLock
  | resumeClear
  | resumeNotify
  deriving DecidableEq

variable {p : Place σ}

/-- The calls of the client and of the checkpointer. -/
inductive Op (σ : Type*)
  | beginCapture (stream : σ)
  | endCapture (stream : σ)
  | waitForCaptures
  | resumeCaptures
  deriving DecidableEq

/-- What comes from outside: calls, wake-ups and the replies of the server. -/
inductive Event (σ : Type*)
  | start (op : Op σ)
  /-- A spurious wake-up. -/
  | wake
  | begun (started : Bool)
  | ended (result : EndResult)
  deriving DecidableEq

/-! ## The program -/

def instr (m : Memory σ) : Place σ → Instr (Memory σ) (Place σ)
  | .idle | .beginSleep _ | .turnSleep | .emptySleep | .beginSent _ | .endSent _ => .rest
  | .beginLock stream => .lock (.beginCheck stream)
  | .beginCheck stream =>
    if m.checkpoint = false ∧ m.waiters = 0 then
      .run { m with admitted := m.admitted + 1 } (.beginUnlock stream)
    else .unlock m (.beginSleep stream)
  | .beginUnlock stream => .unlock m (.beginSent stream)
  | .completeLock started => .lock (.completeUpdate started)
  | .completeUpdate started =>
    if m.admitted = 0 then .run m .unlocking
    else .run { m with admitted := m.admitted - 1, active := m.active + started.toNat }
      .completeNotify
  | .completeNotify => .notify .unlocking
  | .endLock => .lock .endUpdate
  | .endUpdate =>
    if m.active = 0 then .run { m with lost := m.lost + 1 } .unlocking
    else .run { m with active := m.active - 1 } .endNotify
  | .endNotify => .notify .unlocking
  | .unlocking => .unlock m .idle
  | .waitLock => .lock .waitRegister
  | .waitRegister => .run { m with waiters := m.waiters + 1 } .turnCheck
  | .turnCheck =>
    if m.checkpoint then .unlock m .turnSleep
    else .run { m with waiters := m.waiters - 1, checkpoint := true } .emptyCheck
  | .turnLock => .lock .turnCheck
  | .emptyCheck =>
    if m.admitted = 0 ∧ m.active = 0 then .run m .waitUnlock else .unlock m .emptySleep
  | .emptyLock => .lock .emptyCheck
  | .waitUnlock => .unlock { m with returned := true } .idle
  | .resumeLock => .lock .resumeClear
  | .resumeClear =>
    if m.checkpoint then .run { m with checkpoint := false } .resumeNotify
    else .run m .unlocking
  | .resumeNotify => .notify .unlocking

def Place.woken : Place σ → Place σ
  | .beginSleep stream => .beginLock stream
  | .turnSleep => .turnLock
  | .emptySleep => .emptyLock
  | p => p

def start (m : Memory σ) : Place σ → Op σ → Option (Memory σ × Place σ)
  | .idle, .beginCapture stream => some (m, .beginLock stream)
  | .idle, .endCapture stream => some (m, .endSent stream)
  | .idle, .waitForCaptures => some (m, .waitLock)
  | .idle, .resumeCaptures => some ({ m with returned := false }, .resumeLock)
  | _, _ => none

section Server

variable [DecidableEq σ]

/-- A stream that captures cannot begin another capture. -/
def begun (m : Memory σ) : Place σ → Bool → Option (Memory σ × Place σ)
  | .beginSent stream, true =>
    if stream ∈ m.capturing then none
    else some ({ m with capturing := stream :: m.capturing }, .completeLock true)
  | .beginSent _, false => some (m, .completeLock false)
  | _, _ => none

/-- A result that ends a capture needs one. -/
def ended (m : Memory σ) (result : EndResult) : Place σ → Option (Memory σ × Place σ)
  | .endSent stream =>
    if result.ends = false then some (m, .idle)
    else if stream ∈ m.capturing then
      some ({ m with capturing := m.capturing.erase stream }, .endLock)
    else none
  | _ => none

def outside (m : Memory σ) (p : Place σ) : Event σ → Option (Memory σ × Place σ)
  | .start op => start m p op
  | .wake => some (m, p.woken)
  | .begun started => begun m p started
  | .ended result => ended m result p

def program : Program (Memory σ) (Place σ) (Event σ) := ⟨instr, Place.woken, outside⟩

end Server

abbrev Gate (τ σ : Type*) := System τ (Memory σ) (Place σ)

def Gate.initial {τ : Type*} : Gate τ σ := ⟨⟨0, 0, 0, false, [], false, 0⟩, false, fun _ => .idle⟩

/-- A resume follows a wait that has returned and was not resumed. -/
def Paired (m : Memory σ) (_ : Place σ) : Event σ → Prop
  | .start .resumeCaptures => m.returned = true
  | _ => True

instance (m : Memory σ) (p : Place σ) (e : Event σ) : Decidable (Paired m p e) := by
  unfold Paired
  split <;> infer_instance

/-! ## Counts -/

/-- What is counted of the threads. -/
inductive Count
  /-- Between the admission of a capture and its completion. -/
  | beginning
  /-- Those of them whose capture has begun on the server. -/
  | started
  /-- A capture has been ended on the server, and the end has not reached the counter. -/
  | ended
  /-- The thread has `checkpoint_active_` set for itself. -/
  | owning
  /-- It has found no capture. -/
  | closing
  deriving DecidableEq

variable {k : Count → ℕ}

def Place.begins : Place σ → Bool
  | .beginUnlock _ | .beginSent _ | .completeLock _ | .completeUpdate _ => true
  | _ => false

def Place.hasStarted : Place σ → Bool
  | .completeLock started | .completeUpdate started => started
  | _ => false

def Place.hasEnded : Place σ → Bool
  | .endLock | .endUpdate => true
  | _ => false

def Place.owns : Place σ → Bool
  | .emptyCheck | .emptySleep | .emptyLock | .waitUnlock | .resumeLock | .resumeClear => true
  | _ => false

def Place.closes : Place σ → Bool
  | .waitUnlock | .resumeLock | .resumeClear => true
  | _ => false

def weight (p : Place σ) : Count → ℕ
  | .beginning => p.begins.toNat
  | .started => p.hasStarted.toNat
  | .ended => p.hasEnded.toNat
  | .owning => p.owns.toNat
  | .closing => p.closes.toNat

/-- What holds of any number of threads because of where these places are. -/
def placed : AddSubmonoid (Count → ℕ) where
  carrier := { n | n .started ≤ n .beginning ∧ n .closing ≤ n .owning }
  zero_mem' := by simp
  add_mem' := by
    rintro n n' ⟨h₁, h₂⟩ ⟨h₁', h₂'⟩
    simp only [Set.mem_ofPred_eq, Pi.add_apply]
    omega

theorem mem_placed {n : Count → ℕ} :
    n ∈ placed ↔ n .started ≤ n .beginning ∧ n .closing ≤ n .owning := Iff.rfl

/-- What the counters say about the threads and the server. -/
structure Account (m : Memory σ) (_ : Bool) (n : Count → ℕ) : Prop where
  admitted : m.admitted = n .beginning
  owning : m.checkpoint.toNat = m.returned.toNat + n .owning
  closing : 0 < n .closing ∨ m.returned = true → n .beginning = 0 ∧ m.active = 0
  tracked : m.active + n .started = m.capturing.length + n .ended + m.lost

theorem account_iff {b : Bool} :
    Account m b (k + weight p) ↔
      m.admitted = k .beginning + p.begins.toNat ∧
      m.checkpoint.toNat = m.returned.toNat + (k .owning + p.owns.toNat) ∧
      (0 < k .closing + p.closes.toNat ∨ m.returned = true →
        k .beginning + p.begins.toNat = 0 ∧ m.active = 0) ∧
      m.active + (k .started + p.hasStarted.toNat) =
        m.capturing.length + (k .ended + p.hasEnded.toNat) + m.lost :=
  ⟨fun h => ⟨h.1, h.2, h.3, h.4⟩, fun h => ⟨h.1, h.2.1, h.2.2.1, h.2.2.2⟩⟩

attribute [local simp] Place.begins Place.hasStarted Place.hasEnded Place.owns Place.closes

section

variable [DecidableEq σ] {p' : Place σ} {b : Bool} (hm : Account m b (k + weight p))
include hm

/-- A step of a thread. Captures are admitted only while no checkpoint is active, and a completion
finds its admission counted. -/
theorem Account.move {m' : Memory σ} {b' : Bool} (hk : k ∈ placed)
    (h : program.Move m b p m' b' p') :
    Account m' b' (k + weight p') := by
  rw [account_iff] at hm ⊢
  obtain ⟨-, howning⟩ := mem_placed.mp hk
  have hcheckpoint := toNat_le m.checkpoint
  cases h with
  | lock h | unlock h | run h =>
    change instr _ _ = _ at h
    cases p <;> simp only [instr, reduceCtorEq] at h <;> (try split at h) <;> cases h
    all_goals simp at hm ⊢
    all_goals grind

theorem Account.notify (h : (program : Program (Memory σ) _ _).instr m p = .notify p') :
    Account m b (k + weight p') := by
  change instr _ _ = _ at h
  cases p <;> simp only [instr, reduceCtorEq] at h <;> (try split at h) <;> cases h <;> exact hm

/-- What happens from outside. A reply of the server changes the captures and what the threads have
still to report alike. -/
theorem Account.outside {m' : Memory σ} {e : Event σ}
    (h : CaptureGate.outside m p e = some (m', p')) (he : Paired m p e) :
    Account m' b (k + weight p') := by
  rw [account_iff] at hm ⊢
  cases e with
  | start op =>
    cases p <;> cases op <;> simp only [CaptureGate.outside, start, reduceCtorEq] at h <;>
      cases h <;> simp only [Paired] at he
    all_goals simp at hm ⊢
    all_goals grind
  | wake =>
    cases h
    cases p <;> exact hm
  | begun started =>
    cases p <;> cases started <;> simp only [CaptureGate.outside, begun, reduceCtorEq] at h
    · cases h
      exact hm
    · split at h <;> cases h
      simp at hm ⊢
      grind
  | ended result =>
    cases p <;> simp only [CaptureGate.outside, ended, reduceCtorEq] at h
    split at h
    · cases h
      exact hm
    · split at h <;> cases h
      next stream _ hmem =>
      have hlength := List.length_erase_add_one hmem
      simp at hm ⊢
      grind

end

theorem counting [DecidableEq σ] :
    Counting (program : Program (Memory σ) _ _) Paired weight (AddMonoidHom.id _) placed
      Account where
  mem p := by
    cases p <;> simp [mem_placed, weight, toNat_le]
  woken p := by
    funext c
    cases p <;> cases c <;> rfl
  move hk h hm := hm.move hk h
  notify _ h hm := hm.notify h
  outside _ h he hm := hm.outside h he

/-! ## Every run -/

section Reports

variable {τ : Type*} [DecidableEq τ] [DecidableEq σ]

/-- An end is reported to the gate while it has an active capture. -/
def EndsActive (s : Gate τ σ) : Action τ (Event σ) → Prop
  | .own t => s.thread t = .endUpdate → s.mem.active ≠ 0
  | .outside _ _ => True

instance (s : Gate τ σ) (a : Action τ (Event σ)) : Decidable (EndsActive s a) := by
  cases a <;> unfold EndsActive <;> infer_instance

/-- Only the drop of a report changes the number of lost ends. -/
theorem lost_iff {s s' : Gate τ σ} {a : Action τ (Event σ)} (hstep : step program s a = some s')
    (hlost : s.mem.lost = 0) : s'.mem.lost = 0 ↔ EndsActive s a := by
  rcases step_cases hstep with ⟨t, m, b, p, rfl, hmove, rfl⟩ | ⟨t, p, rfl, hinstr, rfl⟩ |
    ⟨t, e, m, p, rfl, hout, rfl⟩
  · generalize s.locked = locked at hmove
    cases hmove with
    | lock h | unlock h | run h =>
      change instr _ _ = _ at h
      simp only [EndsActive]
      cases hp : s.thread t <;> rw [hp] at h <;> simp only [instr, reduceCtorEq] at h <;>
        (try split at h) <;> cases h <;> simp_all
  · change instr _ _ = _ at hinstr
    simp only [EndsActive]
    cases hp : s.thread t <;> rw [hp] at hinstr <;> simp only [instr, reduceCtorEq] at hinstr <;>
      (try split at hinstr) <;> cases hinstr <;> simp_all
  · refine iff_of_true ?_ trivial
    change outside _ _ _ = _ at hout
    cases e with
    | start op =>
      cases hp : s.thread t <;> cases op <;> rw [hp] at hout <;>
        simp only [outside, start, reduceCtorEq] at hout <;> cases hout <;> exact hlost
    | wake =>
      cases hout
      exact hlost
    | begun started =>
      cases hp : s.thread t <;> cases started <;> rw [hp] at hout <;>
        simp only [outside, begun, reduceCtorEq] at hout <;> (try split at hout) <;> cases hout <;>
        exact hlost
    | ended result =>
      cases hp : s.thread t <;> rw [hp] at hout <;>
        simp only [outside, ended, reduceCtorEq] at hout
      split at hout
      · cases hout
        exact hlost
      · split at hout <;> cases hout
        exact hlost

theorem endsActive_of_disabled {s : Gate τ σ} {a : Action τ (Event σ)}
    (h : step program s a = none) : EndsActive s a := by
  cases a with
  | outside => trivial
  | own t =>
    intro ht hactive
    simp [step, program, ht, instr, hactive, perform] at h

end Reports

section Runs

variable {τ : Type*} [Fintype τ]

theorem account_initial : Counting.Holds Account weight (Gate.initial : Gate τ σ) := by
  have hsum : (∑ t, weight ((Gate.initial : Gate τ σ).thread t)) = 0 :=
    Finset.sum_eq_zero fun _ _ => by
      funext c
      cases c <;> rfl
  rw [Counting.Holds, hsum]
  constructor <;> simp [Gate.initial]

/-- The threads that a condition on places picks out. -/
def threadsAt (s : Gate τ σ) (at_ : Place σ → Bool) : ℕ := ∑ t, (at_ (s.thread t)).toNat

/-- The active captures tracked are the captures that have begun and not ended on the server: less
those whose begin has not been completed, and with those whose end has not been reported. -/
def Tracked (s : Gate τ σ) : Prop :=
  s.mem.active + threadsAt s Place.hasStarted =
    s.mem.capturing.length + threadsAt s Place.hasEnded

/-- No capture is being begun, and none is active. -/
def Quiescent (s : Gate τ σ) : Prop :=
  (∀ t, (s.thread t).begins = false) ∧ s.mem.capturing = []

theorem Tracked.iff_lost {s : Gate τ σ} (hs : Counting.Holds Account weight s) :
    Tracked s ↔ s.mem.lost = 0 := by
  have htracked := hs.tracked
  simp only [Finset.sum_apply, weight] at htracked
  rw [Tracked, threadsAt, threadsAt]
  omega

/-- Between the return of a wait and its resume nothing is admitted, so that nothing can have begun
on the server. -/
theorem quiescent_of_returned {s : Gate τ σ} (hs : Counting.Holds Account weight s)
    (hreturned : s.mem.returned = true) : Quiescent s := by
  obtain ⟨hbeginning, hactive⟩ := hs.closing (.inr hreturned)
  have hbegins : ∀ t, (s.thread t).begins = false := by
    intro t
    have hzero : (s.thread t).begins.toNat = 0 := count_eq_zero hbeginning t
    cases hbegins : (s.thread t).begins with
    | false => rfl
    | true =>
      rw [hbegins] at hzero
      cases hzero
  have hstarted : (∑ t, weight (s.thread t)) .started = 0 := by
    rw [Finset.sum_apply]
    refine Finset.sum_eq_zero fun t _ => ?_
    have ht := hbegins t
    revert ht
    cases s.thread t <;> simp [weight]
  have htracked := hs.tracked
  exact ⟨hbegins, List.eq_nil_of_length_eq_zero (by omega)⟩

variable [DecidableEq τ] [DecidableEq σ]

/-- The captures are tracked after an action. -/
def TracksAfter (s : Gate τ σ) (a : Action τ (Event σ)) : Prop :=
  ∀ s', step program s a = some s' → Tracked s'

/-- **The capture gate.** In every run of any number of threads in which a resume follows a wait:
no capture is being begun or active between the return of `wait_for_captures` and its resume; and
the active captures tracked are those begun successfully and not yet ended, after every action of
the run, exactly when every end is reported while the gate has an active capture. -/
theorem capture_gate (as : List (Action τ (Event σ))) (s : Gate τ σ)
    (hexec : exec (step program) Gate.initial as = some s)
    (hpaired : Along (step program) (Meets Paired) Gate.initial as) :
    (s.mem.returned = true → Quiescent s) ∧
      (Along (step program) TracksAfter Gate.initial as ↔
        Along (step program) EndsActive Gate.initial as) := by
  refine ⟨quiescent_of_returned (counting.exec account_initial hpaired hexec), ?_⟩
  refine along_iff_along (I := fun s => Counting.Holds Account weight s ∧ s.mem.lost = 0)
    (fun s a hs ha => ?_) (fun s a t hs ha hC hstep => ?_) ⟨account_initial, rfl⟩ hpaired
  · cases hstep : step program s a with
    | none =>
      refine iff_of_true (fun _ ht => nomatch hstep.symm.trans ht) ?_
      exact endsActive_of_disabled hstep
    | some t =>
      have ht := counting.step hs.1 ha hstep
      rw [← lost_iff hstep hs.2, ← Tracked.iff_lost ht, TracksAfter]
      simp [hstep]
  · have ht := counting.step hs.1 ha hstep
    exact ⟨ht, (Tracked.iff_lost ht).mp (hC t hstep)⟩

end Runs

/-! ## An end before its begin has returned -/

/-- A thread makes a call and takes a number of steps. -/
def enter {τ : Type*} (t : τ) (op : Op σ) (steps : ℕ) : List (Action τ (Event σ)) :=
  .outside t (.start op) :: List.replicate steps (.own t)

/-- The server's reply, and a number of steps. -/
def answer {τ : Type*} (t : τ) (e : Event σ) (steps : ℕ) : List (Action τ (Event σ)) :=
  .outside t e :: List.replicate steps (.own t)

/-- A capture of `a` begins, a begin of `b` fails, a checkpointer waits, and the capture ends as
invalidated. -/
def checkpointed {τ : Type*} (a b checkpointer : τ) : List (Action τ (Event Unit)) :=
  enter a (.beginCapture ()) 3 ++ answer a (.begun true) 4 ++ enter b (.beginCapture ()) 3 ++
    enter checkpointer .waitForCaptures 4 ++ answer b (.begun false) 4 ++
    List.replicate 2 (.own checkpointer) ++ enter a (.endCapture ()) 0 ++
    answer a (.ended .invalidated) 4 ++ List.replicate 3 (.own checkpointer)

/-- Thread `b` ends the capture of thread `a` before that has got its reply; a checkpointer waits
afterwards. -/
def overtaken {τ : Type*} (a b checkpointer : τ) : List (Action τ (Event Unit)) :=
  enter a (.beginCapture ()) 3 ++ [.outside a (.begun true)] ++ enter b (.endCapture ()) 0 ++
    answer b (.ended .success) 3 ++ List.replicate 4 (.own a) ++
    enter checkpointer .waitForCaptures 4

theorem capture_gate_of_checkpointed : ∃ s : Gate (Fin 3) Unit,
    exec (step program) Gate.initial (checkpointed 0 1 2) = some s ∧ Quiescent s ∧
      Along (step program) TracksAfter (Gate.initial : Gate (Fin 3) Unit) (checkpointed 0 1 2) := by
  refine exists_of_any (p := fun s => s.mem.returned = true) (by decide) fun s hs hreturned => ?_
  obtain ⟨hquiescent, htracks⟩ := capture_gate (checkpointed 0 1 2) s hs (by decide)
  exact ⟨hquiescent hreturned, htracks.mpr (by decide)⟩

/-- No capture is left and no call is under way, but one active capture is tracked, and the
checkpointer sleeps with nobody to wake it. -/
theorem ended_too_early :
    Along (step program) (Meets Paired) (Gate.initial : Gate (Fin 3) Unit) (overtaken 0 1 2) ∧
      (exec (step program) (Gate.initial : Gate (Fin 3) Unit) (overtaken 0 1 2)).any (fun s =>
        s.mem.capturing = [] ∧ s.mem.active = 1 ∧ s.thread 0 = .idle ∧ s.thread 1 = .idle ∧
          s.thread 2 = .emptySleep ∧ Stuck program s) = true := by
  decide

end Lupine.Checkpoint.CaptureGate
