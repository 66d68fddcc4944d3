import Mathlib.Logic.Function.Basic
import Lupine.Foundations.Execution
import Lupine.Foundations.Span

/-!
# Dirty tracking of host memory

The write side of `cuda_client_memcpy.cpp` for one tracked host allocation and its route. Pages
are read-only until a store faults. The fault handler (`lupine_sigsegv_handler`) queues the
page's range without a lock and then makes the page writable. A flush
(`lupine_flush_dirty_host_pages_to_route`) takes the queued ranges, protects them again, reads
their bytes, sends them and waits for the acknowledgement. `lupine_prepare_rpc` returns once the
flushed epoch has reached the epoch of the calling thread's last publication.

Every function is cut at the points where a signal handler or another thread can act. The order
in which a flush reads the bytes of its ranges, and how they are grouped into acknowledged
messages, is left open, since ranges travel in batches or over the bulk lanes. A range of another
allocation on the same route takes a slot of the queue and is modelled as an empty range.

Two things are only observed: `version` counts the stores to each byte, and `publishers` says
which threads published a range. `device_stale` and `retiring` are those of a fresh, live
allocation throughout.
-/

namespace Lupine.HostMemory

open Foundations Function

/-- The geometry of a tracked allocation. Offsets are relative to `host_base`, which is aligned
to a page. -/
structure Allocation where
  pageSize : ℕ
  pageCount : ℕ
  dataOffset : ℕ
  userSize : ℕ
  pageSize_pos : 0 < pageSize
  data_le : dataOffset + userSize ≤ pageCount * pageSize

namespace Allocation

/-- The size of the whole mapping. -/
def storageSize (A : Allocation) : ℕ := A.pageCount * A.pageSize

/-- The range of a page, as the fault handler queues it. -/
def pageSpan (A : Allocation) (page : ℕ) : Span :=
  ⟨page * A.pageSize, page * A.pageSize + A.pageSize⟩

/-- The offset belongs to the caller's data. -/
def User (A : Allocation) (o : ℕ) : Prop := A.dataOffset ≤ o ∧ o < A.dataOffset + A.userSize

instance (A : Allocation) (o : ℕ) : Decidable (A.User o) := inferInstanceAs (Decidable (_ ∧ _))

end Allocation

/-! ## The queue of dirty ranges -/

/-- A queued range with the threads that published it. -/
structure Entry (Thread : Type) where
  span : Span
  publishers : List Thread

/-- `LUPINE_MAX_MANAGED_HOST_DIRTY_RANGES`. -/
def maxDirtyRanges : ℕ := 64 * 1024

/-- `lupine_dirty_host_range_queue`: a slot is ready when it holds an entry. -/
structure Queue (Thread : Type) where
  next : ℕ
  start : ℕ
  slots : ℕ → Option (Entry Thread)
  fullDirtyPending : Bool

namespace Queue

variable {Thread : Type}

section

variable (q : Queue Thread) (reserved : ℕ)

/-- Every slot that was reserved below `reserved` has been filled. -/
def Ready : Prop :=
  ∀ i < reserved, q.start ≤ i → (q.slots i).isSome = true

instance (q : Queue Thread) (reserved : ℕ) : Decidable (q.Ready reserved) :=
  inferInstanceAs (Decidable (∀ i < reserved, q.start ≤ i → (q.slots i).isSome = true))

/-- The entries of the slots below `reserved`. -/
def entries : List (Entry Thread) :=
  (List.range reserved).filterMap fun i => if q.start ≤ i then q.slots i else none

/-- Take these entries out of the queue. -/
def take : Queue Thread :=
  { q with start := reserved, slots := fun i => if i < reserved then none else q.slots i }

/-- Start over at slot `0` when no slot was reserved meanwhile. -/
def reset : Queue Thread :=
  if q.next = reserved then { q with next := 0, start := 0 } else q

end

end Queue

/-! ## The threads -/

/-- Where a thread is in `lupine_queue_dirty_host_range`, and the page its fault handler is going
to make writable; outside a handler (a collected or exposed range) there is none. -/
inductive Handler
  | idle
  | entered (span : Span) (page : Option ℕ)
  | reserved (slot : ℕ) (span : Span) (page : Option ℕ)
  | filled (page : Option ℕ)
  | overflow (page : Option ℕ)
  /-- `full_dirty` is set. -/
  | overflowed (page : Option ℕ)
  | pendingSet (page : Option ℕ)
  /-- The dirty epoch is taken. -/
  | published (page : Option ℕ)

/-- How far a flush has come. -/
inductive FlushPhase
  /-- It holds the locks and has loaded the dirty epoch. -/
  | locked
  /-- It has loaded `queue.next` and waits for the slots below. -/
  | scanning (reserved : ℕ)
  | scanned (reserved : ℕ) (hasFullDirty : Bool)
  | taken (reserved : ℕ) (hasFullDirty : Bool)
  | queueReset (hasFullDirty : Bool)
  /-- It has cleared `full_dirty_pending`. -/
  | pendingCleared
  | protecting (todo : List Span)
  | sending

/-- A flush of the route: `lupine_host_flush_mutex` and the queue's mutex allow only one. -/
structure Flush (Thread Byte : Type) where
  owner : Thread
  flushEpoch : ℕ
  phase : FlushPhase
  ranges : List (Entry Thread)
  /-- The bytes read and not acknowledged yet, with their versions. -/
  read : ℕ → Option (Byte × ℕ)
  done : ℕ → Bool

/-- A flush that has just taken the locks. -/
def Flush.begin {Thread Byte : Type} (owner : Thread) (flushEpoch : ℕ) : Flush Thread Byte :=
  ⟨owner, flushEpoch, .locked, [], fun _ => none, fun _ => false⟩

/-- The ranges of this allocation among those the flush has taken. -/
def Flush.own {Thread Byte : Type} (f : Flush Thread Byte) : List (Entry Thread) :=
  f.ranges.filter fun e => e.span.start < e.span.stop

/-- The client's view of one allocation, and the server's copy of it. -/
structure Tracker (Thread Byte : Type) where
  memory : ℕ → Byte
  version : ℕ → ℕ
  acknowledged : ℕ → Byte
  acknowledgedVersion : ℕ → ℕ
  writable : ℕ → Bool
  queue : Queue Thread
  fullDirty : Bool
  fullDirtyBy : List Thread
  dirtyHostEpoch : ℕ
  flushedHostEpoch : ℕ
  requiredHostEpoch : Thread → ℕ
  handler : Thread → Handler
  flush : Option (Flush Thread Byte)

/-- A step of a writing thread, of the flush or of a request. -/
inductive Action (Thread Byte : Type)
  | fault (thread : Thread) (page : ℕ)
  /-- `lupine_queue_dirty_host_range` is called outside a fault handler. -/
  | enqueue (thread : Thread) (span : Span)
  | reserve (thread : Thread)
  | fill (thread : Thread)
  | setFullDirty (thread : Thread)
  | setPending (thread : Thread)
  /-- `lupine_require_dirty_host_flush`. -/
  | requireFlush (thread : Thread)
  | unprotect (thread : Thread)
  | store (thread : Thread) (offset : ℕ) (value : Byte)
  | flushLock (thread : Thread)
  | flushStep
  | flushRead (offset : ℕ)
  /-- The server acknowledges these bytes. -/
  | flushAcknowledge (offsets : List ℕ)
  /-- The flush returns success; `lupine_drain_retiring_dirty_ranges` does not store the epoch. -/
  | flushFinish (storeEpoch : Bool)
  | flushFail

namespace Tracker

variable {Thread Byte : Type}

/-- A managed allocation starts equal on both sides. -/
def managed (memory : ℕ → Byte) : Tracker Thread Byte where
  memory := memory
  version := fun _ => 0
  acknowledged := memory
  acknowledgedVersion := fun _ => 0
  writable := fun _ => false
  queue := ⟨0, 0, fun _ => none, false⟩
  fullDirty := false
  fullDirtyBy := []
  dirtyHostEpoch := 0
  flushedHostEpoch := 0
  requiredHostEpoch := fun _ => 0
  handler := fun _ => .idle
  flush := none

/-- `lupine_prepare_rpc` returns `0` to the thread. -/
def Prepared (s : Tracker Thread Byte) (t : Thread) : Prop :=
  s.handler t = .idle ∧ s.requiredHostEpoch t ≤ s.flushedHostEpoch

variable [DecidableEq Thread]

/-- `lupine_expose_host_device_pointer` starts tracking memory of any content and queues all of
it. -/
def exposed (A : Allocation) (thread : Thread) (memory acknowledged : ℕ → Byte) :
    Tracker Thread Byte :=
  { managed memory with
    version := fun _ => 1
    acknowledged := acknowledged
    queue := ⟨1, 0, update (fun _ => none) 0 (some ⟨⟨0, A.storageSize⟩, [thread]⟩), false⟩
    handler := update (fun _ => .idle) thread (.filled none) }

/-- How tracking starts. -/
inductive Start (A : Allocation) : Tracker Thread Byte → Prop
  | managed (memory : ℕ → Byte) : Start A (managed memory)
  | exposed (thread : Thread) (memory acknowledged : ℕ → Byte) :
      Start A (exposed A thread memory acknowledged)

/-! ## Steps -/

section

variable (A : Allocation) (s : Tracker Thread Byte)

/-- The next phase of a flush. -/
def flushStep (f : Flush Thread Byte) : Option (Tracker Thread Byte) :=
  match f.phase with
  | .locked => some { s with flush := some { f with phase := .scanning s.queue.next } }
  | .scanning reserved =>
    if s.queue.Ready reserved then
      some { s with flush := some { f with phase := .scanned reserved s.queue.fullDirtyPending } }
    else none
  | .scanned reserved hasFullDirty =>
    some { s with
      queue := s.queue.take reserved
      flush := some { f with
        phase := .taken reserved hasFullDirty, ranges := s.queue.entries reserved } }
  | .taken reserved hasFullDirty =>
    some { s with
      queue := s.queue.reset reserved
      flush := some { f with phase := .queueReset hasFullDirty } }
  | .queueReset hasFullDirty =>
    if hasFullDirty ∧ s.queue.fullDirtyPending then
      some { s with
        queue := { s.queue with fullDirtyPending := false }
        flush := some { f with phase := .pendingCleared } }
    else
      some { s with flush := some { f with
        phase := .protecting (mergeSpans (f.ranges.map (·.span))) } }
  | .pendingCleared =>
    let ranges :=
      if s.fullDirty then f.ranges ++ [⟨⟨0, A.storageSize⟩, s.fullDirtyBy⟩] else f.ranges
    some { s with
      fullDirty := false
      fullDirtyBy := []
      flush := some { f with
        phase := .protecting (mergeSpans (ranges.map (·.span))), ranges := ranges } }
  | .protecting (span :: todo) =>
    some { s with
      writable := fun page => s.writable page && !decide (span.Touches A.pageSize page)
      flush := some { f with phase := .protecting todo } }
  | .protecting [] => some { s with flush := some { f with phase := .sending } }
  | .sending => none

/-- `release_ranges(true)`: an allocation whose ranges the flush had taken is dirty as a whole
again. -/
def flushFail (f : Flush Thread Byte) : Tracker Thread Byte :=
  if f.own.isEmpty then { s with flush := none }
  else
    { s with
      queue := { s.queue with fullDirtyPending := true }
      fullDirty := true
      fullDirtyBy := s.fullDirtyBy ++ f.own.flatMap (·.publishers)
      flush := none }

/-- The server acknowledges the bytes read at these offsets. -/
def acknowledge (f : Flush Thread Byte) (offsets : List ℕ) : Tracker Thread Byte :=
  { s with
    acknowledged := fun o =>
      match f.read o with
      | some (v, _) => if o ∈ offsets then v else s.acknowledged o
      | none => s.acknowledged o
    acknowledgedVersion := fun o =>
      match f.read o with
      | some (_, n) => if o ∈ offsets then n else s.acknowledgedVersion o
      | none => s.acknowledgedVersion o
    flush := some { f with
      read := fun o => if o ∈ offsets then none else f.read o
      done := fun o => f.done o || decide (o ∈ offsets) } }

/-- Move a thread to another point of the handler. -/
def setHandler (t : Thread) (h : Handler) : Tracker Thread Byte :=
  { s with handler := update s.handler t h }

def step :
    Action Thread Byte → Option (Tracker Thread Byte)
  | .fault t page =>
    match s.handler t with
    | .idle =>
      if page < A.pageCount ∧ s.writable page = false then
        some (s.setHandler t (.entered (A.pageSpan page) (some page)))
      else none
    | _ => none
  | .enqueue t span =>
    match s.handler t with
    | .idle => some (s.setHandler t (.entered span none))
    | _ => none
  | .reserve t =>
    match s.handler t with
    | .entered span page =>
      if s.queue.next < maxDirtyRanges then
        some { s.setHandler t (.reserved s.queue.next span page) with
          queue := { s.queue with next := s.queue.next + 1 } }
      else some (s.setHandler t (.overflow page))
    | _ => none
  | .fill t =>
    match s.handler t with
    | .reserved slot span page =>
      some { s.setHandler t (.filled page) with
        queue := { s.queue with slots := update s.queue.slots slot (some ⟨span, [t]⟩) } }
    | _ => none
  | .setFullDirty t =>
    match s.handler t with
    | .overflow page =>
      some { s.setHandler t (.overflowed page) with
        fullDirty := true, fullDirtyBy := t :: s.fullDirtyBy }
    | _ => none
  | .setPending t =>
    match s.handler t with
    | .overflowed page =>
      some { s.setHandler t (.pendingSet page) with
        queue := { s.queue with fullDirtyPending := true } }
    | _ => none
  | .requireFlush t =>
    match s.handler t with
    | .filled page | .pendingSet page =>
      some { s.setHandler t (.published page) with
        dirtyHostEpoch := s.dirtyHostEpoch + 1
        requiredHostEpoch := update s.requiredHostEpoch t (s.dirtyHostEpoch + 1) }
    | _ => none
  | .unprotect t =>
    match s.handler t with
    | .published (some page) =>
      some { s.setHandler t .idle with writable := update s.writable page true }
    | .published none => some (s.setHandler t .idle)
    | _ => none
  | .store t o v =>
    match s.handler t with
    | .idle =>
      if o < A.storageSize ∧ s.writable (o / A.pageSize) = true then
        some { s with
          memory := update s.memory o v
          version := update s.version o (s.version o + 1) }
      else none
    | _ => none
  | .flushLock t =>
    match s.flush with
    | none =>
      some { s with flush := some (.begin t s.dirtyHostEpoch) }
    | some _ => none
  | .flushStep => s.flush.bind (s.flushStep A)
  | .flushRead o =>
    match s.flush with
    | some f =>
      match f.phase with
      | .sending =>
        if A.User o ∧ Covered (f.ranges.map (·.span)) o ∧ f.read o = none ∧ f.done o = false then
          some { s with flush := some { f with
            read := update f.read o (some (s.memory o, s.version o)) } }
        else none
      | _ => none
    | none => none
  | .flushAcknowledge offsets =>
    match s.flush with
    | some f =>
      match f.phase with
      | .sending =>
        if ∀ o ∈ offsets, (f.read o).isSome = true then some (s.acknowledge f offsets) else none
      | _ => none
    | none => none
  | .flushFinish storeEpoch =>
    match s.flush with
    | some f =>
      match f.phase with
      | .sending =>
        if ∀ o < A.storageSize, A.User o → Covered (f.ranges.map (·.span)) o → f.done o = true then
          some { s with
            flush := none
            flushedHostEpoch := if storeEpoch then f.flushEpoch else s.flushedHostEpoch }
        else none
      | _ => none
    | none => none
  | .flushFail =>
    match s.flush with
    | some f =>
      match f.phase with
      | .locked => some { s with flush := none }
      | .protecting _ | .sending => some (s.flushFail f)
      | _ => none
    | none => none

/-! ## What a step can do -/

/-- The ranges of a flush once it has taken `full_dirty` too. -/
def allRanges (f : Flush Thread Byte) : List (Entry Thread) :=
  if s.fullDirty then f.ranges ++ [⟨⟨0, A.storageSize⟩, s.fullDirtyBy⟩] else f.ranges

end

/-- The branches of `step`, with their guards. -/
inductive Move (A : Allocation) (s : Tracker Thread Byte) :
    Action Thread Byte → Tracker Thread Byte → Prop
  | fault {t page} : s.handler t = .idle → page < A.pageCount → s.writable page = false →
      Move A s (.fault t page) (s.setHandler t (.entered (A.pageSpan page) (some page)))
  | enqueue {t span} : s.handler t = .idle →
      Move A s (.enqueue t span) (s.setHandler t (.entered span none))
  | reserve {t span page} : s.handler t = .entered span page →
      Move A s (.reserve t)
        { s.setHandler t (.reserved s.queue.next span page) with
          queue := { s.queue with next := s.queue.next + 1 } }
  | overflow {t span page} : s.handler t = .entered span page →
      Move A s (.reserve t) (s.setHandler t (.overflow page))
  | fill {t slot span page} : s.handler t = .reserved slot span page →
      Move A s (.fill t)
        { s.setHandler t (.filled page) with
          queue := { s.queue with
            slots := update s.queue.slots slot (some ⟨span, [t]⟩) } }
  | setFullDirty {t page} : s.handler t = .overflow page →
      Move A s (.setFullDirty t)
        { s.setHandler t (.overflowed page) with
          fullDirty := true, fullDirtyBy := t :: s.fullDirtyBy }
  | setPending {t page} : s.handler t = .overflowed page →
      Move A s (.setPending t)
        { s.setHandler t (.pendingSet page) with
          queue := { s.queue with fullDirtyPending := true } }
  | requireFlush {t page} : s.handler t = .filled page ∨ s.handler t = .pendingSet page →
      Move A s (.requireFlush t)
        { s.setHandler t (.published page) with
          dirtyHostEpoch := s.dirtyHostEpoch + 1
          requiredHostEpoch := update s.requiredHostEpoch t (s.dirtyHostEpoch + 1) }
  | unprotect {t page} : s.handler t = .published (some page) →
      Move A s (.unprotect t)
        { s.setHandler t .idle with writable := update s.writable page true }
  | leave {t} : s.handler t = .published none → Move A s (.unprotect t) (s.setHandler t .idle)
  | store {t o v} : s.handler t = .idle → o < A.storageSize →
      s.writable (o / A.pageSize) = true →
      Move A s (.store t o v)
        { s with
          memory := update s.memory o v
          version := update s.version o (s.version o + 1) }
  | flushLock {t} : s.flush = none →
      Move A s (.flushLock t) { s with flush := some (.begin t s.dirtyHostEpoch) }
  | scan {f} : s.flush = some f → f.phase = .locked →
      Move A s .flushStep { s with flush := some { f with phase := .scanning s.queue.next } }
  | loadPending {f reserved} : s.flush = some f → f.phase = .scanning reserved →
      s.queue.Ready reserved →
      Move A s .flushStep
        { s with flush := some { f with phase := .scanned reserved s.queue.fullDirtyPending } }
  | take {f reserved hasFullDirty} : s.flush = some f →
      f.phase = .scanned reserved hasFullDirty →
      Move A s .flushStep
        { s with
          queue := s.queue.take reserved
          flush := some { f with
            phase := .taken reserved hasFullDirty, ranges := s.queue.entries reserved } }
  | reset {f reserved hasFullDirty} : s.flush = some f → f.phase = .taken reserved hasFullDirty →
      Move A s .flushStep
        { s with
          queue := s.queue.reset reserved
          flush := some { f with phase := .queueReset hasFullDirty } }
  | clearPending {f} : s.flush = some f → f.phase = .queueReset true →
      Move A s .flushStep
        { s with
          queue := { s.queue with fullDirtyPending := false }
          flush := some { f with phase := .pendingCleared } }
  | skipFullDirty {f hasFullDirty} : s.flush = some f → f.phase = .queueReset hasFullDirty →
      ¬ (hasFullDirty ∧ s.queue.fullDirtyPending) →
      Move A s .flushStep
        { s with flush := some { f with
          phase := .protecting (mergeSpans (f.ranges.map (·.span))) } }
  | takeFullDirty {f} : s.flush = some f → f.phase = .pendingCleared →
      Move A s .flushStep
        { s with
          fullDirty := false
          fullDirtyBy := []
          flush := some { f with
            phase := .protecting (mergeSpans ((s.allRanges A f).map (·.span)))
            ranges := s.allRanges A f } }
  | protect {f span todo} : s.flush = some f → f.phase = .protecting (span :: todo) →
      Move A s .flushStep
        { s with
          writable := fun page => s.writable page && !decide (span.Touches A.pageSize page)
          flush := some { f with phase := .protecting todo } }
  | send {f} : s.flush = some f → f.phase = .protecting [] →
      Move A s .flushStep { s with flush := some { f with phase := .sending } }
  | read {f o} : s.flush = some f → f.phase = .sending → A.User o →
      Covered (f.ranges.map (·.span)) o → f.read o = none → f.done o = false →
      Move A s (.flushRead o)
        { s with flush := some { f with
          read := update f.read o (some (s.memory o, s.version o)) } }
  | acknowledge {f offsets} : s.flush = some f → f.phase = .sending →
      (∀ o ∈ offsets, (f.read o).isSome = true) →
      Move A s (.flushAcknowledge offsets) (s.acknowledge f offsets)
  | finish {f storeEpoch} : s.flush = some f → f.phase = .sending →
      (∀ o < A.storageSize, A.User o → Covered (f.ranges.map (·.span)) o → f.done o = true) →
      Move A s (.flushFinish storeEpoch)
        { s with
          flush := none
          flushedHostEpoch := if storeEpoch then f.flushEpoch else s.flushedHostEpoch }
  | abort {f} : s.flush = some f → f.phase = .locked → Move A s .flushFail { s with flush := none }
  | fail {f} : s.flush = some f → (∃ todo, f.phase = .protecting todo) ∨ f.phase = .sending →
      Move A s .flushFail (s.flushFail f)

theorem move_of_flushStep {A : Allocation} {s s' : Tracker Thread Byte} {f : Flush Thread Byte}
    (hf : s.flush = some f) (h : s.flushStep A f = some s') : Move A s .flushStep s' := by
  unfold flushStep at h
  split at h
  · cases h
    exact .scan hf (by assumption)
  · split at h
    · cases h
      exact .loadPending hf (by assumption) (by assumption)
    · cases h
  · cases h
    exact .take hf (by assumption)
  · cases h
    exact .reset hf (by assumption)
  · rename_i hasFullDirty hphase
    split at h
    · rename_i hfull
      cases h
      obtain rfl : hasFullDirty = true := hfull.1
      exact .clearPending hf hphase
    · cases h
      exact .skipFullDirty hf hphase (by assumption)
  · cases h
    exact .takeFullDirty hf (by assumption)
  · cases h
    exact .protect hf (by assumption)
  · cases h
    exact .send hf (by assumption)
  · cases h

theorem move_of_step {A : Allocation} {s s' : Tracker Thread Byte} {a : Action Thread Byte}
    (h : s.step A a = some s') : Move A s a s' := by
  cases a with
  | flushStep =>
    obtain ⟨f, hf, h⟩ := Option.bind_eq_some_iff.mp h
    exact move_of_flushStep hf h
  | requireFlush t =>
    simp only [step] at h
    split at h
    · cases h
      exact .requireFlush (.inl (by assumption))
    · cases h
      exact .requireFlush (.inr (by assumption))
    · cases h
  | flushFail =>
    simp only [step] at h
    split at h
    · split at h
      · cases h
        exact .abort (by assumption) (by assumption)
      · cases h
        exact .fail (by assumption) (.inl ⟨_, by assumption⟩)
      · cases h
        exact .fail (by assumption) (.inr (by assumption))
      · cases h
    · cases h
  | fault t page =>
    simp only [step] at h
    split at h
    · obtain ⟨hguard, rfl⟩ := of_guarded h
      exact .fault (by assumption) hguard.1 hguard.2
    · cases h
  | reserve t =>
    simp only [step] at h
    split at h
    · split at h <;> cases h
      · exact .reserve (by assumption)
      · exact .overflow (by assumption)
    · cases h
  | enqueue | fill | setFullDirty | setPending | flushLock =>
    simp only [step] at h
    split at h <;> cases h
    constructor
    assumption
  | unprotect t =>
    simp only [step] at h
    split at h <;> cases h
    · exact .unprotect (by assumption)
    · exact .leave (by assumption)
  | store t o v =>
    simp only [step] at h
    split at h
    · obtain ⟨hguard, rfl⟩ := of_guarded h
      exact .store (by assumption) hguard.1 hguard.2
    · cases h
  | flushRead o =>
    simp only [step] at h
    split at h
    · split at h
      · obtain ⟨⟨huser, hcovered, hread, hdone⟩, rfl⟩ := of_guarded h
        exact .read (by assumption) (by assumption) huser hcovered hread hdone
      · cases h
    · cases h
  | flushAcknowledge | flushFinish =>
    simp only [step] at h
    split at h
    · split at h
      · obtain ⟨hguard, rfl⟩ := of_guarded h
        constructor <;> assumption
      · cases h
    · cases h

end Tracker

end Lupine.HostMemory
