import Mathlib.Logic.Function.Basic
import Lupine.Foundations.Execution

/-!
# Admitting requests during a handoff

How a client keeps requests out while its connection is handed over (`rpc_write_start_request` and
`rpc_write_end` in `rpc.cpp`, `lupine_handoff_request_begin` and its siblings in `h2.cpp`).

A request holds `call_mutex` from its start to its end. The handoff thread sets `requests_paused`
under that lock. A request that finds the flag set gives the lock up, sleeps on `async_cond`, and
takes the lock again when it is woken; drain requests and those of a thread that is inside a
callback pass. The flag is cleared under `async_mutex`, and so is a connection cancelled.

The functions are cut at their lock operations. What stands between the lock and the unlock of
`async_mutex` is one action, since only these sections clear the flag or cancel. Threads have one
connection each, and what they do to it outside of these functions is left open.

`Client.Inv` ties the locks and the flag to where each thread is. Every action keeps it.
-/

namespace Lupine.Rpc.Admission

open Foundations Function Option

/-! ## Threads -/

/-- Where a thread is in `rpc_write_start_request`, or between it and the end of `rpc_write_end`. -/
inductive Phase
  | idle
  /-- Before the lock of `call_mutex`. -/
  | entering
  /-- At the loop of `lupine_handoff_request_begin`. -/
  | checking
  /-- It gave the lock up. -/
  | waiting
  /-- In `pthread_cond_wait`. -/
  | sleeping
  /-- Before the lock is taken again; with the value of `cancelled`. -/
  | relocking (cancelled : Bool)
  /-- `lupine_handoff_request_begin` returned -1. -/
  | refused
  /-- `lupine_handoff_request_begin` returned 0. -/
  | admitted
  /-- The write builder is taken. -/
  | opened
  /-- A later step of the start failed. -/
  | leaving
  /-- `rpc_write_start_request` returned 0. -/
  | building
  /-- `rpc_write_end` has released the builder. -/
  | ending
  deriving DecidableEq, Repr

namespace Phase

/-- The thread holds `call_mutex`. -/
@[simp] def holdsCall : Phase → Bool
  | .checking | .refused | .admitted | .opened | .leaving | .building | .ending => true
  | _ => false

/-- The thread's request owns the write builder. -/
@[simp] def holdsBuilder : Phase → Bool
  | .opened | .building => true
  | _ => false

/-- The pause has stopped the request. -/
@[simp] def waits : Phase → Bool
  | .waiting | .sleeping | .relocking _ => true
  | _ => false

/-- The request was admitted and has not ended. -/
@[simp] def inside : Phase → Bool
  | .admitted | .opened | .building | .ending => true
  | _ => false

theorem holdsCall_of_inside {p : Phase} (h : p.inside = true) : p.holdsCall = true := by
  cases p <;> simp_all [inside, holdsCall]

end Phase

variable {phase : Phase}

/-- A thread: its part of `rpc_tls_io`, and its request. -/
structure Thread where
  phase : Phase
  /-- It has an open response. A request that it starts is nested in it. -/
  response : Bool
  /-- It is reading a request of the server. -/
  reading : Bool
  /-- Its request is `LUPINE_HANDOFF_DRAIN_REQUEST`. -/
  drain : Bool
  /-- Its request was issued inside a callback. -/
  callback : Bool
  deriving DecidableEq, Repr

namespace Thread

def initial : Thread := ⟨.idle, false, false, false, false⟩

def go (t : Thread) (phase : Phase) : Thread := { t with phase := phase }

/-- The requests that a pause keeps out. -/
def ordinary (t : Thread) : Bool := !t.drain && !t.callback

/-- A broadcast on `async_cond`. -/
def wake (t : Thread) : Thread := if t.phase = .sleeping then t.go .waiting else t

end Thread

/-! ## The connection -/

/-- Where the handoff thread is. -/
inductive Pause
  | running
  /-- It holds `call_mutex`. -/
  | locked
  /-- It has set `requests_paused`. -/
  | stored
  /-- `lupine_handoff_pause_requests` has returned. -/
  | paused
  deriving DecidableEq, Repr

/-- An owner of `call_mutex`. -/
inductive Owner (ι : Type*)
  | thread (i : ι)
  | handoff
  deriving DecidableEq, Repr

/-- The threads, the two locks and the pause. -/
structure Client (ι : Type*) where
  threads : ι → Thread
  callLock : Option (Owner ι)
  writeLock : Option ι
  requestsPaused : Bool
  closed : Bool
  /-- `async_cancelled`. -/
  cancelled : Bool
  pause : Pause

/-- A step of a thread or of the handoff. -/
inductive Action (ι : Type*)
  /-- `rpc_write_start_request` is called. -/
  | start (i : ι) (drain : Bool)
  | lockCall (i : ι)
  /-- A lock cannot be taken. -/
  | lockFails (i : ι)
  | check (i : ι)
  | await (i : ι)
  /-- A wakeup that no broadcast of this model caused. -/
  | wake (i : ι)
  | relock (i : ι)
  | takeBuilder (i : ι)
  /-- The queue is reset and the lane looked up, or one of them fails. -/
  | build (i : ι) (ok : Bool)
  /-- `rpc_write_end` of a request, whether it is written or not. -/
  | finish (i : ι)
  | unlockCall (i : ι)
  /-- `rpc_write_start_response`. -/
  | respond (i : ι) (ok : Bool)
  /-- `rpc_write_end` of a response. -/
  | finishResponse (i : ι)
  /-- `rpc_write_end` without a builder. -/
  | finishNothing (i : ι)
  /-- The thread starts or ends reading a request of the server. -/
  | read (i : ι) (reading : Bool)
  | pauseLock
  | pauseStore
  | pauseUnlock
  /-- `lupine_handoff_resume_requests`. -/
  | resume
  | close
  /-- `rpc_cancel_async_waits`. -/
  | cancel

/-- The actions that go on with what was started. -/
def Action.goesOn {ι : Type*} : Action ι → Bool
  | .lockCall _ | .lockFails _ | .check _ | .await _ | .relock _ | .takeBuilder _ | .build _ _
  | .finish _ | .unlockCall _ | .finishResponse _ => true
  | _ => false

namespace Client

variable {ι : Type*}
variable {s s' : Client ι} {i : ι} {a : Action ι}

def initial : Client ι := ⟨fun _ => .initial, none, none, false, false, false, .running⟩

def wakeAll (s : Client ι) : Client ι := { s with threads := fun i => (s.threads i).wake }

section Step

variable [DecidableEq ι]

def set (s : Client ι) (i : ι) (t : Thread) : Client ι :=
  { s with threads := update s.threads i t }

def move (s : Client ι) (i : ι) (phase : Phase) : Client ι := s.set i ((s.threads i).go phase)

/-- `rpc_release_write_builder`. A nested request gives the builder back to its response. -/
def release (s : Client ι) (i : ι) : Client ι :=
  if (s.threads i).response = true then s else { s with writeLock := none }

/-- One action of one thread. A call that is refused at once changes nothing. -/
def step (s : Client ι) : Action ι → Option (Client ι)
  | .start i drain =>
    if (s.threads i).phase = .idle ∧ s.closed = false then
      some (s.set i { s.threads i with phase := .entering, drain := drain })
    else if (s.threads i).phase = .idle ∨ (s.threads i).phase = .building then some s
    else none
  | .lockCall i =>
    if (s.threads i).phase = .entering then
      if s.callLock = none then
        some { s.set i { s.threads i with
            phase := .checking
            callback := (s.threads i).response || (s.threads i).reading } with
          callLock := some (.thread i) }
      -- a nested request only tries the lock
      else if (s.threads i).response = true then some (s.move i .idle)
      else none
    else none
  | .lockFails i =>
    if (s.threads i).phase = .entering then some (s.move i .idle)
    else if (s.threads i).phase = .admitted ∧ (s.threads i).response = false then
      some (s.move i .leaving)
    else none
  | .check i =>
    if (s.threads i).phase = .checking then
      if (s.threads i).ordinary = false ∨ s.requestsPaused = false then some (s.move i .admitted)
      else some { s.move i .waiting with callLock := none }
    else none
  | .await i =>
    if (s.threads i).phase = .waiting then
      if s.requestsPaused = true ∧ s.cancelled = false then some (s.move i .sleeping)
      else some (s.move i (.relocking s.cancelled))
    else none
  | .wake i => if (s.threads i).phase = .sleeping then some (s.move i .waiting) else none
  | .relock i =>
    match (s.threads i).phase with
    | .relocking cancelled =>
      if s.callLock = none then
        some { s.move i (if cancelled then .refused else .checking) with
          callLock := some (.thread i) }
      else none
    | _ => none
  | .takeBuilder i =>
    if (s.threads i).phase = .admitted then
      if s.closed = true then some (s.move i .leaving)
      else if (s.threads i).response = true then some (s.move i .opened)
      else if s.writeLock = none then some { s.move i .opened with writeLock := some i }
      else none
    else none
  | .build i ok =>
    if (s.threads i).phase = .opened then
      if ok then some (s.move i .building) else some ((s.release i).move i .leaving)
    else none
  | .finish i =>
    if (s.threads i).phase = .building then some ((s.release i).move i .ending) else none
  | .unlockCall i =>
    if (s.threads i).phase = .refused ∨ (s.threads i).phase = .leaving ∨
        (s.threads i).phase = .ending then
      some { s.move i .idle with callLock := none }
    else none
  | .respond i ok =>
    if (s.threads i).phase = .idle ∧ (s.threads i).response = false ∧ s.closed = false then
      if s.writeLock = none then
        if ok then
          some { s.set i { s.threads i with response := true } with writeLock := some i }
        else some s
      else none
    else if (s.threads i).phase = .idle ∨ (s.threads i).phase = .building then some s
    else none
  | .finishResponse i =>
    if (s.threads i).phase = .idle ∧ (s.threads i).response = true then
      some { s.set i { s.threads i with response := false } with writeLock := none }
    else none
  | .finishNothing i =>
    if (s.threads i).phase = .idle ∧ (s.threads i).response = false then some s else none
  | .read i reading =>
    if (s.threads i).phase = .idle ∨ (s.threads i).phase = .building then
      some (s.set i { s.threads i with reading := reading })
    else none
  | .pauseLock =>
    if s.pause = .running ∧ s.callLock = none then
      some { s with pause := .locked, callLock := some .handoff }
    else none
  | .pauseStore =>
    if s.pause = .locked then some { s with pause := .stored, requestsPaused := true } else none
  | .pauseUnlock =>
    if s.pause = .stored then some { s with pause := .paused, callLock := none } else none
  | .resume =>
    if s.pause = .paused then some { s.wakeAll with pause := .running, requestsPaused := false }
    else none
  | .close => some { s with closed := true }
  | .cancel => some { s.wakeAll with cancelled := true }

end Step

/-! ## What an action does to the threads -/

/-- An action of one thread changes no other and no flag. -/
structure Only (s s' : Client ι) (i : ι) : Prop where
  threads : ∀ j, j ≠ i → s'.threads j = s.threads j
  pause : s'.pause = s.pause
  requestsPaused : s'.requestsPaused = s.requestsPaused
  cancelled : s'.cancelled = s.cancelled

/-- What the thread of an action becomes. -/
inductive Turn (s : Client ι) (i : ι) : Action ι → Thread → Prop
  | start (drain : Bool) : (s.threads i).phase = .idle →
      Turn s i (.start i drain) { s.threads i with phase := .entering, drain := drain }
  | lock : (s.threads i).phase = .entering →
      Turn s i (.lockCall i) { s.threads i with
        phase := .checking
        callback := (s.threads i).response || (s.threads i).reading }
  | trylock : (s.threads i).phase = .entering → Turn s i (.lockCall i) ((s.threads i).go .idle)
  | noCall : (s.threads i).phase = .entering → Turn s i (.lockFails i) ((s.threads i).go .idle)
  | noWrite : (s.threads i).phase = .admitted →
      Turn s i (.lockFails i) ((s.threads i).go .leaving)
  | enter : (s.threads i).phase = .checking →
      (s.threads i).ordinary = false ∨ s.requestsPaused = false →
      Turn s i (.check i) ((s.threads i).go .admitted)
  | block : (s.threads i).phase = .checking → s.requestsPaused = true →
      Turn s i (.check i) ((s.threads i).go .waiting)
  | sleep : (s.threads i).phase = .waiting → s.requestsPaused = true → s.cancelled = false →
      Turn s i (.await i) ((s.threads i).go .sleeping)
  | leave : (s.threads i).phase = .waiting → ¬(s.requestsPaused = true ∧ s.cancelled = false) →
      Turn s i (.await i) ((s.threads i).go (.relocking s.cancelled))
  | wake : (s.threads i).phase = .sleeping → Turn s i (.wake i) ((s.threads i).go .waiting)
  | relock (cancelled : Bool) : (s.threads i).phase = .relocking cancelled →
      Turn s i (.relock i) ((s.threads i).go (if cancelled then .refused else .checking))
  | closed : (s.threads i).phase = .admitted →
      Turn s i (.takeBuilder i) ((s.threads i).go .leaving)
  | take : (s.threads i).phase = .admitted → Turn s i (.takeBuilder i) ((s.threads i).go .opened)
  | build : (s.threads i).phase = .opened → Turn s i (.build i true) ((s.threads i).go .building)
  | fail : (s.threads i).phase = .opened → Turn s i (.build i false) ((s.threads i).go .leaving)
  | finish : (s.threads i).phase = .building → Turn s i (.finish i) ((s.threads i).go .ending)
  | unlock : (s.threads i).phase = .refused ∨ (s.threads i).phase = .leaving ∨
      (s.threads i).phase = .ending → Turn s i (.unlockCall i) ((s.threads i).go .idle)
  | respond (ok : Bool) : (s.threads i).phase = .idle →
      Turn s i (.respond i ok) { s.threads i with response := true }
  | finishResponse : (s.threads i).phase = .idle → (s.threads i).response = true →
      Turn s i (.finishResponse i) { s.threads i with response := false }
  | read (reading : Bool) : (s.threads i).phase = .idle ∨ (s.threads i).phase = .building →
      Turn s i (.read i reading) { s.threads i with reading := reading }

/-- A step of thread `i`. -/
def Turns (s s' : Client ι) (a : Action ι) : Prop :=
  ∃ i, Only s s' i ∧ Turn s i a (s'.threads i)

/-- A step that is not a thread's, or a call that is refused at once. -/
def Stays (s s' : Client ι) (a : Action ι) : Prop :=
  a.goesOn = false ∧ ∀ i, s'.threads i = s.threads i ∨ s'.threads i = (s.threads i).wake

/-! ## The invariant -/

/-- What the locks and the flags say about a thread. -/
@[mk_iff]
structure ThreadOk (s : Client ι) (i : ι) (t : Thread) : Prop where
  call : s.callLock = some (.thread i) ↔ t.phase.holdsCall = true
  write : s.writeLock = some i ↔ t.response = true ∨ t.phase.holdsBuilder = true
  nested : t.phase.holdsCall = true → t.response = true → t.callback = true
  waits : t.phase.waits = true → t.ordinary = true ∧ t.response = false
  asleep : t.phase = .sleeping → s.requestsPaused = true ∧ s.cancelled = false
  cancelled : t.phase = .relocking true ∨ t.phase = .refused → s.cancelled = true
  inside : t.phase.inside = true → t.ordinary = true → s.requestsPaused = false

/-- Each thread holds the locks its phase says, and the pause is that of the handoff. -/
structure Inv (s : Client ι) : Prop where
  thread : ∀ i, s.ThreadOk i (s.threads i)
  handoff : s.callLock = some .handoff ↔ s.pause = .locked ∨ s.pause = .stored
  paused : s.requestsPaused = true ↔ s.pause = .stored ∨ s.pause = .paused

theorem inv_initial : (initial : Client ι).Inv where
  thread i := by
    constructor <;> simp [initial, Thread.initial]
  handoff := by simp [initial]
  paused := by simp [initial]

/-- Out of these functions, a thread owns no lock but that of its response. -/
theorem Inv.locks_of_idle (h : s.Inv) (hidle : (s.threads i).phase = .idle) :
    s.callLock ≠ some (.thread i) ∧ (s.writeLock = some i ↔ (s.threads i).response = true) := by
  have hi := h.thread i
  constructor
  · rw [Ne, hi.call, hidle]
    simp
  · rw [hi.write, hidle]
    simp

section Step

variable [DecidableEq ι]

/-- A step of a thread that leaves the locks of the others alone. -/
theorem Inv.turn {t : Thread} {call : Option (Owner ι)} {write : Option ι} (h : s.Inv)
    (hturn : Turn s i a t) (hcall : ∀ o, o ≠ .thread i → (call = some o ↔ s.callLock = some o))
    (hwrite : ∀ j, j ≠ i → (write = some j ↔ s.writeLock = some j))
    (hi : s.ThreadOk i (s.threads i) → ThreadOk { s with callLock := call, writeLock := write } i t)
    (hs' : s' = { s.set i t with callLock := call, writeLock := write }) :
    s'.Inv ∧ (Turns s s' a ∨ Stays s s' a) := by
  subst hs'
  have hself : (s.set i t).threads i = t := update_self ..
  have hother : ∀ j, j ≠ i → (s.set i t).threads j = s.threads j := fun j hj => update_of_ne hj ..
  refine ⟨⟨fun j => ?_, (hcall .handoff nofun).trans h.handoff, h.paused⟩,
    .inl ⟨i, ⟨hother, rfl, rfl, rfl⟩, by rwa [← hself] at hturn⟩⟩
  rcases eq_or_ne j i with rfl | hne
  · have hi := hi (h.thread j)
    rw [← hself] at hi
    exact { hi with }
  · have hj := h.thread j
    rw [← hother j hne] at hj
    exact { hj with
      call := (hcall _ (by simpa using hne)).trans hj.call
      write := (hwrite j hne).trans hj.write }

/-- A step of a thread without a lock operation. -/
theorem Inv.go {t : Thread} (h : s.Inv) (hturn : Turn s i a t)
    (hi : s.ThreadOk i (s.threads i) → s.ThreadOk i t) :
    (s.set i t).Inv ∧ (Turns s (s.set i t) a ∨ Stays s (s.set i t) a) :=
  h.turn hturn (fun _ _ => .rfl) (fun _ _ => .rfl) hi rfl

/-- A free mutex that `x` takes is no other's, before and after. -/
theorem taken_iff {α : Type*} {lock : Option α} {x : α} (h : lock = none) :
    ∀ y, y ≠ x → (some x = some y ↔ lock = some y) := fun y hy => by simp [h, hy.symm]

/-- A mutex that `x` gives back is no other's, before and after. -/
theorem given_iff {α : Type*} {lock : Option α} {x : α} (h : lock = some x) :
    ∀ y, y ≠ x → (none = some y ↔ lock = some y) := fun y hy => by simp [h, hy.symm]

/-- A request gives its builder back, to its response or to the others. -/
theorem Inv.release (h : s.Inv) (hturn : Turn s i a ((s.threads i).go phase))
    (hbuilder : (s.threads i).phase.holdsBuilder = true)
    (hi : ∀ write, (write = some i ↔ (s.threads i).response = true) → s.ThreadOk i (s.threads i) →
      ThreadOk { s with writeLock := write } i ((s.threads i).go phase)) :
    ((s.release i).move i phase).Inv ∧ (Turns s ((s.release i).move i phase) a ∨
      Stays s ((s.release i).move i phase) a) := by
  have hheld : s.writeLock = some i := (h.thread i).write.mpr (.inr hbuilder)
  unfold Client.release
  split
  · rename_i hr
    exact h.go hturn (hi s.writeLock (by simp [hheld, hr]))
  · rename_i hr
    exact h.turn hturn (fun _ _ => .rfl) (given_iff hheld) (hi none (by simp [hr])) rfl

attribute [local simp] Thread.go Thread.ordinary threadOk_iff

omit [DecidableEq ι] in
/-- The broadcasts, while the flag or the cancellation changes. -/
theorem ThreadOk.wake {t : Thread} (h : s.ThreadOk i t) (hcall : s'.callLock = s.callLock)
    (hwrite : s'.writeLock = s.writeLock) (hcancelled : s.cancelled = true → s'.cancelled = true)
    (hpaused : s.requestsPaused = false → s'.requestsPaused = false) : s'.ThreadOk i t.wake := by
  unfold Thread.wake
  split
  · simp_all
  · rename_i hphase
    exact ⟨by rw [hcall]; exact h.call, by rw [hwrite]; exact h.write, h.nested, h.waits,
      fun hp => absurd hp hphase, fun hp => hcancelled (h.cancelled hp),
      fun hp ho => hpaused (h.inside hp ho)⟩

/-- A step keeps the invariant. It is a step of one thread, or one that moves none. -/
theorem Inv.step (h : s.Inv) (hstep : s.step a = some s') :
    s'.Inv ∧ (Turns s s' a ∨ Stays s s' a) := by
  cases a with
  | start i drain =>
    simp only [Client.step] at hstep
    split at hstep
    · rename_i hc
      cases hstep
      exact h.go (.start drain hc.1) fun hi => by simp_all
    · obtain ⟨-, rfl⟩ := of_guarded hstep
      exact ⟨h, .inr ⟨rfl, fun _ => .inl rfl⟩⟩
  | lockCall i =>
    obtain ⟨hp, hstep⟩ := ite_none_right_eq_some.mp hstep
    split at hstep
    · rename_i hfree
      cases hstep
      exact h.turn (.lock hp) (taken_iff hfree) (fun _ _ => .rfl) (fun hi => by simp_all) rfl
    · split at hstep <;> cases hstep
      exact h.go (.trylock hp) fun hi => by simp_all
  | lockFails i =>
    simp only [Client.step] at hstep
    split at hstep
    · rename_i hp
      cases hstep
      exact h.go (.noCall hp) fun hi => by simp_all
    · obtain ⟨hp, rfl⟩ := of_guarded hstep
      exact h.go (.noWrite hp.1) fun hi => by simp_all
  | check i =>
    obtain ⟨hp, hstep⟩ := ite_none_right_eq_some.mp hstep
    split at hstep <;> cases hstep
    · rename_i hc
      exact h.go (.enter hp hc) fun hi => by rcases hc with hc | hc <;> simp_all
    · rename_i hc
      obtain ⟨ho, hpaused⟩ : (s.threads i).ordinary = true ∧ s.requestsPaused = true := by
        simpa using hc
      refine h.turn (.block hp hpaused) (given_iff ((h.thread i).call.mpr (by rw [hp]; rfl)))
        (fun _ _ => .rfl) (fun hi => ?_) rfl
      cases hr : (s.threads i).response <;> simp_all
  | await i =>
    obtain ⟨hp, hstep⟩ := ite_none_right_eq_some.mp hstep
    split at hstep <;> cases hstep
    · rename_i hc
      exact h.go (.sleep hp hc.1 hc.2) fun hi => by simp_all
    · rename_i hc
      exact h.go (.leave hp hc) fun hi => by simp_all
  | wake i =>
    obtain ⟨hp, rfl⟩ := of_guarded hstep
    exact h.go (.wake hp) fun hi => by simp_all
  | relock i =>
    simp only [Client.step] at hstep
    split at hstep
    · rename_i cancelled hp
      obtain ⟨hfree, rfl⟩ := of_guarded hstep
      refine h.turn (.relock cancelled hp) (taken_iff hfree) (fun _ _ => .rfl) (fun hi => ?_) rfl
      cases cancelled <;> simp_all
    · cases hstep
  | takeBuilder i =>
    obtain ⟨hp, hstep⟩ := ite_none_right_eq_some.mp hstep
    split at hstep
    · cases hstep
      exact h.go (.closed hp) fun hi => by simp_all
    · split at hstep
      · cases hstep
        exact h.go (.take hp) fun hi => by simp_all
      · obtain ⟨hfree, rfl⟩ := of_guarded hstep
        exact h.turn (.take hp) (fun _ _ => .rfl) (taken_iff hfree) (fun hi => by simp_all) rfl
  | build i ok =>
    obtain ⟨hp, hstep⟩ := ite_none_right_eq_some.mp hstep
    cases ok <;> cases hstep
    · exact h.release (.fail hp) (by rw [hp]; rfl) fun _ hw hi => by simp_all
    · exact h.go (.build hp) fun hi => by simp_all
  | finish i =>
    obtain ⟨hp, rfl⟩ := of_guarded hstep
    exact h.release (.finish hp) (by rw [hp]; rfl) fun _ hw hi => by simp_all
  | unlockCall i =>
    obtain ⟨hp, rfl⟩ := of_guarded hstep
    have hheld : s.callLock = some (.thread i) := by
      rw [(h.thread i).call]
      rcases hp with hp | hp | hp <;> rw [hp] <;> rfl
    refine h.turn (.unlock hp) (given_iff hheld) (fun _ _ => .rfl) (fun hi => ?_) rfl
    rcases hp with hp | hp | hp <;> simp_all
  | respond i ok =>
    simp only [Client.step] at hstep
    split at hstep
    · rename_i hc
      obtain ⟨hfree, hstep⟩ := ite_none_right_eq_some.mp hstep
      split at hstep <;> cases hstep
      · exact h.turn (.respond ok hc.1) (fun _ _ => .rfl) (taken_iff hfree) (fun hi => by simp_all)
          rfl
      · exact ⟨h, .inr ⟨rfl, fun _ => .inl rfl⟩⟩
    · obtain ⟨-, rfl⟩ := of_guarded hstep
      exact ⟨h, .inr ⟨rfl, fun _ => .inl rfl⟩⟩
  | finishResponse i =>
    obtain ⟨hc, rfl⟩ := of_guarded hstep
    exact h.turn (.finishResponse hc.1 hc.2) (fun _ _ => .rfl)
      (given_iff ((h.thread i).write.mpr (.inl hc.2))) (fun hi => by simp_all) rfl
  | finishNothing i =>
    obtain ⟨-, rfl⟩ := of_guarded hstep
    exact ⟨h, .inr ⟨rfl, fun _ => .inl rfl⟩⟩
  | read i reading =>
    obtain ⟨hp, rfl⟩ := of_guarded hstep
    exact h.go (.read reading hp) fun hi => { hi with }
  | pauseLock =>
    obtain ⟨hc, rfl⟩ := of_guarded hstep
    refine ⟨⟨fun i => ?_, by simp, by simpa [hc.1] using h.paused⟩, .inr ⟨rfl, fun _ => .inl rfl⟩⟩
    have hi := h.thread i
    have hcall := hi.call
    rw [hc.2] at hcall
    exact { hi with call := by simpa using hcall }
  | pauseStore =>
    obtain ⟨hc, rfl⟩ := of_guarded hstep
    have hheld := h.handoff.mpr (.inl hc)
    refine ⟨⟨fun i => ?_, by simp [hheld], by simp⟩, .inr ⟨rfl, fun _ => .inl rfl⟩⟩
    have hi := h.thread i
    refine { hi with asleep := fun hp => ⟨rfl, (hi.asleep hp).2⟩, inside := fun hin => ?_ }
    -- the thread would hold the lock of the handoff thread
    have hcall := hi.call.mpr (Phase.holdsCall_of_inside hin)
    rw [hheld] at hcall
    cases hcall
  | pauseUnlock =>
    obtain ⟨hc, rfl⟩ := of_guarded hstep
    have hheld := h.handoff.mpr (.inr hc)
    refine ⟨⟨fun i => ?_, by simp, by simpa [hc] using h.paused⟩, .inr ⟨rfl, fun _ => .inl rfl⟩⟩
    have hi := h.thread i
    have hcall := hi.call
    rw [hheld] at hcall
    exact { hi with call := by simpa using hcall }
  | resume =>
    obtain ⟨hc, rfl⟩ := of_guarded hstep
    exact ⟨⟨fun i => (h.thread i).wake rfl rfl id fun _ => rfl,
      by simpa [hc, wakeAll] using h.handoff, by simp⟩, .inr ⟨rfl, fun _ => .inr rfl⟩⟩
  | close =>
    cases hstep
    exact ⟨⟨fun i => { h.thread i with }, h.handoff, h.paused⟩, .inr ⟨rfl, fun _ => .inl rfl⟩⟩
  | cancel =>
    cases hstep
    exact ⟨⟨fun i => (h.thread i).wake rfl rfl (fun _ => rfl) id, h.handoff, h.paused⟩,
      .inr ⟨rfl, fun _ => .inr rfl⟩⟩

theorem inv_of_run {as : List (Action ι)} (hrun : exec Client.step initial as = some s) : s.Inv :=
  exec_invariant (fun _ _ _ h hstep => (h.step hstep).1) inv_initial hrun

end Step

end Client

end Lupine.Rpc.Admission
