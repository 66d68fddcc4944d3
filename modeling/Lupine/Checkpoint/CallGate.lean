import Mathlib.Algebra.Group.Pi.Basic
import Mathlib.Algebra.Group.Hom.Defs
import Lupine.Foundations.Monitor

/-!
# The gate of CUDA calls

`cuda_call_gate` of `checkpoint.cpp` keeps CUDA calls out while a checkpoint is taken. Calls are
admitted and end with atomic operations alone as long as no drain is pending: `begin` publishes its
count before it reads `pending_` a second time, and `drain` publishes `pending_` before it reads
the count. Calls that find a drain pending wait for its `resume` under the mutex.

The functions are cut at their atomic accesses and mutex operations; plain accesses under the mutex
belong to the operation before or after. Calls may nest, wake-ups may be spurious, and so may
failures of the compare-and-swap of `end`.
-/

namespace Lupine.Checkpoint.CallGate

open Foundations Monitor

/-- The fields of `cuda_call_gate`. -/
structure Memory where
  active : ℕ
  pending : Bool
  waiters : ℕ
  draining : Bool
  /-- A drain has returned, and no call of `resume` has followed it. No code reads this. -/
  returned : Bool
  deriving DecidableEq

/-- Where a thread is. The places of `end` say whether `begin` has called it to back off. -/
inductive Place
  | idle
  /-- `begin`, at its first load of `pending_`. -/
  | beginLoad
  | beginAdd
  | beginReload
  /-- `begin`, at the mutex. -/
  | beginLock
  | beginCheck
  | beginSleep
  | beginAdmit
  | beginUnlock
  | endLoad (back : Bool)
  /-- `end`, at its compare-and-swap; it has seen `seen + 1` calls. -/
  | endCas (back : Bool) (seen : ℕ)
  /-- `end`, at its load of `pending_`; it has ended the last call. -/
  | endPending (back : Bool)
  | endLock (back : Bool)
  | endNotify (back : Bool)
  | endUnlock (back : Bool)
  | drainLock
  /-- `drain`, before `++drain_waiters_`. -/
  | drainPublish
  /-- `drain`, in its wait for other drains. -/
  | turnCheck
  | turnSleep
  | turnLock
  /-- `drain`, in its wait for the calls. -/
  | emptyLoad
  | emptyWait
  | emptySleep
  | emptyLock
  | drainUnlock
  | resumeLock
  | resumeClear
  | resumeNotify
  | resumeUnlock
  deriving DecidableEq

/-- A thread, with the number of its calls that are admitted and have not ended. -/
structure Thread where
  place : Place
  depth : ℕ
  deriving DecidableEq

/-- The thread goes to another place. -/
@[simp] def Thread.go (l : Thread) (place : Place) : Thread := { l with place := place }

/-- What a thread calls of the gate. -/
inductive Op
  | beginCall
  | endCall
  | drain
  | resume
  deriving DecidableEq

/-- What happens to a thread from outside: it starts an operation, it is woken without a
notification, or its compare-and-swap fails. -/
inductive Event
  | start (op : Op)
  | wake
  | casFails
  deriving DecidableEq

/-! ## The program -/

/-- Where `end` returns to. -/
def finish (back : Bool) : Place := if back then .beginLock else .idle

/-- The test of the loop in `end`, with the count that was read last. -/
def retry (back : Bool) : ℕ → Place
  | 0 => finish back
  | seen + 1 => .endCas back seen

section

variable (m : Memory) (l : Thread)

/-- The compare-and-swap of `end`. -/
def swap (back : Bool) (seen : ℕ) : Instr Memory Thread :=
  if m.active = seen + 1 then
    .run { m with active := seen } (l.go (if seen = 0 then .endPending back else finish back))
  else .run m (l.go (retry back m.active))

/-- The next instruction of a thread. -/
def instr : Instr Memory Thread :=
  match l.place with
  | .idle | .beginSleep | .turnSleep | .emptySleep => .rest
  | .beginLoad => .run m (l.go (if m.pending then .beginLock else .beginAdd))
  | .beginAdd => .run { m with active := m.active + 1 } (l.go .beginReload)
  | .beginReload =>
    if m.pending then .run m (l.go (.endLoad true)) else .run m ⟨.idle, l.depth + 1⟩
  | .beginLock => .lock (l.go .beginCheck)
  | .beginCheck =>
    if m.draining = false ∧ m.waiters = 0 then .run m (l.go .beginAdmit)
    else .unlock m (l.go .beginSleep)
  | .beginAdmit => .run { m with active := m.active + 1 } ⟨.beginUnlock, l.depth + 1⟩
  | .beginUnlock => .unlock m (l.go .idle)
  | .endLoad back => .run m (l.go (retry back m.active))
  | .endCas back seen => swap m l back seen
  | .endPending back => .run m (l.go (if m.pending then .endLock back else finish back))
  | .endLock back => .lock (l.go (.endNotify back))
  | .endNotify back => .notify (l.go (.endUnlock back))
  | .endUnlock back => .unlock m (l.go (finish back))
  | .drainLock => .lock (l.go .drainPublish)
  | .drainPublish =>
    .run { m with waiters := m.waiters + 1, pending := true } (l.go .turnCheck)
  | .turnCheck =>
    if m.draining then .unlock m (l.go .turnSleep)
    else .run { m with waiters := m.waiters - 1, draining := true } (l.go .emptyLoad)
  | .turnLock => .lock (l.go .turnCheck)
  | .emptyLoad => .run m (l.go (if m.active = 0 then .drainUnlock else .emptyWait))
  | .emptyWait => .unlock m (l.go .emptySleep)
  | .emptyLock => .lock (l.go .emptyLoad)
  | .drainUnlock => .unlock { m with returned := true } (l.go .idle)
  | .resumeLock => .lock (l.go .resumeClear)
  | .resumeClear =>
    if m.draining then
      .run { m with draining := false, pending := decide (m.waiters ≠ 0) } (l.go .resumeNotify)
    else .run m (l.go .resumeUnlock)
  | .resumeNotify => .notify (l.go .resumeUnlock)
  | .resumeUnlock => .unlock m (l.go .idle)

/-- Where a sleeping thread wakes up. -/
def Place.woken : Place → Place
  | .beginSleep => .beginLock
  | .turnSleep => .turnLock
  | .emptySleep => .emptyLock
  | p => p

/-- An operation is started by an idle thread. A call is over when its `end` starts. -/
def start : Op → Option (Memory × Thread)
  | .beginCall => if l.place = .idle then some (m, l.go .beginLoad) else none
  | .endCall => if l.place = .idle then some (m, ⟨.endLoad false, l.depth - 1⟩) else none
  | .drain => if l.place = .idle then some (m, l.go .drainLock) else none
  | .resume =>
    if l.place = .idle then some ({ m with returned := false }, l.go .resumeLock) else none

/-- A spurious failure of the compare-and-swap reads the count again. -/
def failCas : Option (Memory × Thread) :=
  match l.place with
  | .endCas back _ => some (m, l.go (retry back m.active))
  | _ => none

/-- What an event does. -/
def outside : Event → Option (Memory × Thread)
  | .start op => start m l op
  | .wake => some (m, l.go l.place.woken)
  | .casFails => failCas m l

end

/-- The gate as a monitor. -/
def program : Program Memory Thread Event := ⟨instr, fun l => l.go l.place.woken, outside⟩

/-- The gate and its threads. -/
abbrev Gate (τ : Type*) := System τ Memory Thread

/-- No call, no drain. -/
def Gate.initial {τ : Type*} : Gate τ := ⟨⟨0, false, 0, false, false⟩, false, fun _ => ⟨.idle, 0⟩⟩

/-- Operations come in pairs: `end` ends a call that its thread has been admitted to, and `resume`
follows a drain that has returned and was not resumed. -/
def Paired (m : Memory) (l : Thread) : Event → Prop
  | .start .endCall => 0 < l.depth
  | .start .resume => m.returned = true
  | _ => True

instance (m : Memory) (l : Thread) (e : Event) : Decidable (Paired m l e) := by
  unfold Paired
  split <;> infer_instance

/-! ## Counts -/

/-- What is counted: calls in `active_calls_`, admitted calls, and threads at certain places. -/
inductive Count
  | active
  | admitted
  /-- Threads that hold the mutex. -/
  | holding
  /-- Threads counted in `drain_waiters_`. -/
  | waiting
  /-- Threads that have `draining_` set for themselves. -/
  | owning
  /-- Those of them that have found no call active. -/
  | closing
  /-- Threads in `begin` that are past the wait. -/
  | entering
  /-- Drains that have found a call active, and those of them that sleep. -/
  | emptyWaiting
  | emptySleeping
  /-- Threads that ended the last call and have not notified the drain. -/
  | announcing
  | turnSleeping
  | blocked
  /-- Threads in `resume` that have not notified. -/
  | resuming
  deriving DecidableEq

/-- Counted in `active_calls_` without being admitted. -/
@[simp] def Place.isCounted : Place → Bool
  | .beginReload | .endLoad _ | .endCas _ _ => true
  | _ => false

/-- With the mutex. -/
@[simp] def Place.holds : Place → Bool
  | .beginCheck | .beginAdmit | .beginUnlock | .endNotify _ | .endUnlock _ | .drainPublish
  | .turnCheck | .emptyLoad | .emptyWait | .drainUnlock | .resumeClear | .resumeNotify
  | .resumeUnlock => true
  | _ => false

/-- Counted in `drain_waiters_`. -/
@[simp] def Place.waits : Place → Bool
  | .turnCheck | .turnSleep | .turnLock => true
  | _ => false

/-- Has `draining_` set for itself. -/
@[simp] def Place.owns : Place → Bool
  | .emptyLoad | .emptyWait | .emptySleep | .emptyLock | .drainUnlock | .resumeLock
  | .resumeClear => true
  | _ => false

/-- Has found no call active. -/
@[simp] def Place.closes : Place → Bool
  | .drainUnlock | .resumeLock | .resumeClear => true
  | _ => false

/-- Ended the last call, not yet notified. -/
@[simp] def Place.announces : Place → Bool
  | .endPending _ | .endLock _ | .endNotify _ => true
  | _ => false

/-- What a thread adds to each count. -/
def weight (l : Thread) : Count → ℕ
  | .active => l.depth + l.place.isCounted.toNat
  | .admitted => l.depth
  | .holding => l.place.holds.toNat
  | .waiting => l.place.waits.toNat
  | .owning => l.place.owns.toNat
  | .closing => l.place.closes.toNat
  | .entering => (decide (l.place = .beginAdmit)).toNat
  | .emptyWaiting => (decide (l.place = .emptyWait)).toNat
  | .emptySleeping => (decide (l.place = .emptySleep)).toNat
  | .announcing => l.place.announces.toNat
  | .turnSleeping => (decide (l.place = .turnSleep)).toNat
  | .blocked => (decide (l.place = .beginSleep)).toNat
  | .resuming => (decide (l.place = .resumeNotify)).toNat

/-- Counts of sleeping threads. -/
def Count.sleeps : Count → Bool
  | .emptySleeping | .turnSleeping | .blocked => true
  | _ => false

/-- A notification leaves no thread asleep. -/
def wakeAll : (Count → ℕ) →+ (Count → ℕ) where
  toFun n c := if c.sleeps then 0 else n c
  map_zero' := by
    funext c
    simp
  map_add' n n' := by
    funext c
    by_cases h : c.sleeps <;> simp [h]

/-- What holds of any number of threads because of where these places are. -/
def placed : AddSubmonoid (Count → ℕ) where
  carrier := { n | n .admitted ≤ n .active ∧
    n .entering + n .emptyWaiting + n .resuming ≤ n .holding ∧
    n .closing + n .emptyWaiting + n .emptySleeping ≤ n .owning }
  zero_mem' := by simp
  add_mem' := by
    rintro n n' ⟨h₁, h₂, h₃⟩ ⟨h₁', h₂', h₃'⟩
    simp only [Set.mem_ofPred_eq, Pi.add_apply]
    omega

theorem mem_placed {n : Count → ℕ} : n ∈ placed ↔ n .admitted ≤ n .active ∧
    n .entering + n .emptyWaiting + n .resuming ≤ n .holding ∧
    n .closing + n .emptyWaiting + n .emptySleeping ≤ n .owning := Iff.rfl

/-- The fields of the gate say how many threads are where; and whoever sleeps has a reason to, or
is about to be notified. -/
structure Account (m : Memory) (locked : Bool) (n : Count → ℕ) : Prop where
  active : m.active = n .active
  holding : n .holding = locked.toNat
  waiting : m.waiters = n .waiting
  pending : m.pending = true ↔ 0 < m.waiters ∨ m.draining = true
  owning : m.draining.toNat = m.returned.toNat + n .owning
  entering : 0 < n .entering → m.draining = false ∧ m.waiters = 0
  closing : 0 < n .closing ∨ m.returned = true → n .admitted = 0
  emptied : 0 < n .emptyWaiting ∨ 0 < n .emptySleeping → m.active = 0 → 0 < n .announcing
  turned : 0 < n .turnSleeping → m.draining = false → 0 < n .resuming
  resumed : 0 < n .blocked → m.draining = false → m.waiters = 0 → 0 < n .resuming

end Lupine.Checkpoint.CallGate
