import Mathlib.Algebra.BigOperators.Group.Finset.Basic
import Mathlib.Data.Fintype.Basic
import Lupine.Foundations.Monitor

/-!
# Captures and the queries about them

`cuStreamIsCapturing` and `cuStreamGetCaptureInfo` (`cuda_client.cpp`) answer from two pieces of
client state. While no capture is counted, a known stream is not capturing. A stream that the
server has reported as capturing stays so until a capture ends: the report is cached under an
epoch, which every terminal `cuStreamEndCapture` raises.

The threads take one atomic access at a time, the server acts in between. Each thread that queries
a stream has a record of the states that the server has given to the stream since the query
started (`State.seen`). It is no part of the program.

* `State.step` interleaves the threads and the server.
* `State.Meets` is the condition under which `Lupine.Capture.Answers` proves the answers right.
* `State.Counted.move`: the counter is the number of captures, with those that have not started yet
  and those that have not been taken off yet.
-/

namespace Lupine.Capture

open Function

open Foundations.Monitor (others others_add sum_update)

variable {τ η : Type*}

/-! ## Calls -/

variable {special : η → Bool}

/-- A capture as a query reports it. -/
structure CaptureInfo where
  id : ℕ
  graph : ℕ
  deriving DecidableEq

/-- `lupine_stream_capture_entry`. -/
structure Entry where
  epoch : ℕ
  capture : CaptureInfo
  deriving DecidableEq

/-- `cuStreamIsCapturing` and `cuStreamGetCaptureInfo`. -/
inductive Query
  | isCapturing
  /-- `ready` when the counter may answer: there is a status to write, CUDA is initialised and a
  context is current. `dependencies` when the caller asks for them, too. -/
  | captureInfo (ready dependencies : Bool)
  deriving DecidableEq

def Query.ready : Query → Bool
  | .isCapturing => true
  | .captureInfo ready _ => ready

/-- What a thread calls. -/
inductive Op (η : Type*)
  | beginCapture (stream : η)
  | endCapture (stream : η)
  | query (stream : η) (q : Query)
  deriving DecidableEq

/-- Where a thread is in its call. -/
inductive Place (η : Type*)
  | idle
  /-- `lupine_stream_capture_begin` has counted the capture. -/
  | beginning (stream : η)
  | begun (started : Bool)
  | ending (stream : η)
  | ended
  | raised
  | cleared
  | asked (stream : η) (q : Query)
  /-- The counter was zero. -/
  | uncounted (stream : η) (q : Query)
  | counted (stream : η) (q : Query)
  /-- `cuStreamIsCapturing` has an entry of the cache and not yet its epoch. -/
  | found (stream : η) (entry : Entry)
  /-- `cuStreamGetCaptureInfo` has loaded the epoch. -/
  | stamped (stream : η) (dependencies : Bool) (epoch : ℕ)
  /-- The server is asked, with the epoch for the cache. -/
  | asking (stream : η) (epoch : Option ℕ)
  | replied (stream : η) (entry : Entry)
  /-- The query returns an answer that no server has given. -/
  | answered (stream : η) (answer : Option CaptureInfo)
  deriving DecidableEq

namespace Place

def handle : Place η → Option η
  | .asked h _ | .uncounted h _ | .counted h _ | .found h _ | .stamped h _ _ | .asking h _
  | .replied h _ | .answered h _ => some h
  | _ => none

/-- A report outside the cache. -/
def held : Place η → Option (η × Entry)
  | .found h entry | .replied h entry => some (h, entry)
  | _ => none

/-- The epoch that a lookup will compare with. -/
def stamp : Place η → Option ℕ
  | .stamped _ _ e => some e
  | _ => none

/-- An epoch that has been loaded. -/
def loaded : Place η → Option ℕ
  | .stamped _ _ e => some e
  | .asking _ e => e
  | _ => none

/-- What a query returns or may return next. -/
def claims : Place η → Option (Option CaptureInfo)
  | .uncounted _ _ => some none
  | .answered _ a => some a
  | _ => none

/-- What a thread has added to the counter for no live capture. -/
@[simp] def owed : Place η → ℕ
  | .beginning _ | .begun false | .ended | .raised | .cleared => 1
  | _ => 0

theorem none_of_handle {p : Place η} (h : p.handle = none) :
    p.held = none ∧ p.loaded = none ∧ p.stamp = none ∧ p.claims = none := by
  cases p <;> first | exact ⟨rfl, rfl, rfl, rfl⟩ | cases h

end Place

/-! ## Steps -/

/-- The client with its counter and cache, and the captures of the server. -/
structure State (τ η : Type*) where
  /-- `lupine_active_stream_captures`. -/
  counter : ℤ
  /-- `lupine_stream_capture_epoch`. -/
  epoch : ℕ
  /-- `lupine_stream_capture_cache`. -/
  cache : η → Option Entry
  /-- The streams with an owner on the client. -/
  known : η → Bool
  /-- The streams of the server. -/
  stream : η → Bool
  /-- The capture that a stream is part of, also after it has been invalidated. -/
  capture : η → Option CaptureInfo
  /-- The captures of the server, each with its origin. -/
  live : List (CaptureInfo × η)
  place : τ → Place η
  /-- The states of the queried stream since the query started, newest first. -/
  seen : τ → List (Option CaptureInfo)

variable {s : State τ η}
variable {s' : State τ η}

/-- A step of a thread, of the server or of the application. -/
inductive Action (τ η : Type*)
  | start (t : τ) (op : Op η)
  | own (t : τ)
  /-- The server starts the capture or refuses. -/
  | beginServed (t : τ) (c : Option CaptureInfo)
  /-- The server answers an end. `terminal` for success, an invalidated and an unjoined capture. -/
  | endServed (t : τ) (terminal : Bool)
  /-- The server answers a query. An invalidated capture is not reported as active. -/
  | queryServed (t : τ) (active : Bool)
  /-- A stream waits for an event of a capture. -/
  | join (stream : η) (c : CaptureInfo)
  | create (stream : η)
  | note (stream : η)
  | destroy (stream : η)
  /-- `lupine_forget_stream_owner`. -/
  | forget (stream : η)
  deriving DecidableEq

/-- The NULL stream, the legacy and the per-thread one (`special`) always exist. -/
def State.initial (special : η → Bool) : State τ η where
  counter := 0
  epoch := 0
  cache := fun _ => none
  known := fun _ => false
  stream := special
  capture := fun _ => none
  live := []
  place := fun _ => .idle
  seen := fun _ => []

/-- Every running query sees the state of its stream. -/
def State.record (s : State τ η) : State τ η :=
  { s with
    seen := fun t =>
      match (s.place t).handle with
      | some h => s.capture h :: s.seen t
      | none => [] }

section Step

variable [DecidableEq τ] [DecidableEq η] (special : η → Bool)

section

variable (s : State τ η)

def State.go (t : τ) (p : Place η) : State τ η :=
  { s with place := update s.place t p }

/-- The accesses of a query, which change nothing but its place. -/
def State.answer : Place η → Option (Place η)
  | .asked h q => some (if q.ready ∧ s.counter = 0 then .uncounted h q else .counted h q)
  -- `lupine_stream_handle_is_known`
  | .uncounted h q => some (if special h ∨ s.known h then .answered h none else .counted h q)
  | .counted h .isCapturing =>
    match s.cache h with
    | some entry => some (.found h entry)
    | none => some (.asking h none)
  | .counted h (.captureInfo _ dependencies) => some (.stamped h dependencies s.epoch)
  | .found h entry =>
    some (if entry.epoch = s.epoch then .answered h (some entry.capture) else .asking h none)
  | .stamped h dependencies epoch =>
    match s.cache h with
    | some entry =>
      some (if dependencies = false ∧ entry.epoch = epoch then .answered h (some entry.capture)
        else .asking h (some epoch))
    | none => some (.asking h (some epoch))
  | .answered _ _ => some .idle
  | _ => none

/-- The next step of a thread. -/
def State.own (t : τ) : Option (State τ η) :=
  match s.place t with
  -- `lupine_stream_capture_begin_complete`
  | .begun started =>
    some ({ s with counter := if started then s.counter else s.counter - 1 }.go t .idle)
  -- `lupine_complete_stream_end_capture`
  | .ended => some ({ s with epoch := s.epoch + 1 }.go t .raised)
  | .raised => some ({ s with cache := fun _ => none }.go t .cleared)
  | .cleared => some ({ s with counter := s.counter - 1 }.go t .idle)
  | .replied h entry =>
    some ({ s with cache := update s.cache h (some entry) }.go t .idle)
  | p => (s.answer special p).map (s.go t)

def State.start (t : τ) : Op η → State τ η
  | .beginCapture h => { s with counter := s.counter + 1 }.go t (.beginning h)
  | .endCapture h => s.go t (.ending h)
  | .query h q => s.go t (.asked h q)

/-- The server starts a capture, with an id of its own. -/
def State.beginServed (t : τ) (h : η) : Option CaptureInfo → Option (State τ η)
  | none => some (s.go t (.begun false))
  | some c =>
    if s.stream h = true ∧ s.capture h = none ∧ c ∉ s.live.map Prod.fst then
      some ({ s with
        capture := update s.capture h (some c)
        live := (c, h) :: s.live }.go t (.begun true))
    else none

/-- The server ends the capture of its origin, and with it that of every stream that has joined. -/
def State.endServed (t : τ) (h : η) : Bool → Option (State τ η)
  | false => some (s.go t .idle)
  | true =>
    match s.capture h with
    | some c =>
      if (c, h) ∈ s.live then
        some ({ s with
          capture := fun x => if s.capture x = some c then none else s.capture x
          live := s.live.erase (c, h) }.go t .ended)
      else none
    | none => none

/-- Only the reply to `cuStreamGetCaptureInfo` about an active capture goes into the cache. -/
def State.queryServed (t : τ) (h : η) (epoch : Option ℕ) (active : Bool) : State τ η :=
  match epoch, s.capture h with
  | some e, some c =>
    if active = true ∧ special h = false then s.go t (.replied h ⟨e, c⟩) else s.go t .idle
  | _, _ => s.go t .idle

def State.move : Action τ η → Option (State τ η)
  | .start t op => if s.place t = .idle then some (s.start t op) else none
  | .own t => s.own special t
  | .beginServed t c =>
    match s.place t with
    | .beginning h => s.beginServed t h c
    | _ => none
  | .endServed t terminal =>
    match s.place t with
    | .ending h => s.endServed t h terminal
    | _ => none
  | .queryServed t active =>
    match s.place t with
    | .asking h epoch => some (s.queryServed special t h epoch active)
    | _ => none
  | .join h c =>
    if s.stream h = true ∧ s.capture h = none ∧ c ∈ s.live.map Prod.fst then
      some { s with capture := update s.capture h (some c) }
    else none
  | .create h =>
    if s.stream h = false then some { s with stream := update s.stream h true } else none
  | .note h => some { s with known := update s.known h true }
  -- What was seen of the handle was another stream's.
  | .destroy h =>
    if s.stream h = true then
      some { s with
        stream := update s.stream h false
        capture := update s.capture h none
        seen := fun t => if (s.place t).handle = some h then [] else s.seen t }
    else none
  | .forget h => some { s with known := update s.known h false }

def State.step (a : Action τ η) : Option (State τ η) :=
  (s.move special a).map State.record

/-- A stream is destroyed only when it is not capturing and no query of it is running. No query
starts between the end of a capture on the server and the new epoch. -/
def State.Meets : Action τ η → Prop
  | .start _ (.query _ _) => ∀ u, s.place u ≠ .ended
  | .destroy h => s.capture h = none ∧ ∀ u, (s.place u).handle ≠ some h
  | _ => True

end

instance [Fintype τ] (s : State τ η) (a : Action τ η) : Decidable (s.Meets a) := by
  unfold State.Meets
  split <;> infer_instance

end Step

/-! ## The counter -/

theorem owed_of_answer {p p' : Place η} (h : s.answer special p = some p') :
    p.owed = 0 ∧ p'.owed = 0 := by
  unfold State.answer at h
  split at h <;> (try split at h) <;> cases h <;> (try split) <;> exact ⟨rfl, rfl⟩

section Counter

variable [Fintype τ]

/-- The counter is the number of captures, with what is not yet started or not yet taken off. -/
def State.Counted (s : State τ η) : Prop :=
  s.counter = s.live.length + ((∑ t, (s.place t).owed : ℕ) : ℤ)

theorem State.Counted.live_eq_nil (h : s.Counted) (hzero : s.counter = 0) : s.live = [] := by
  rw [State.Counted, hzero] at h
  exact List.length_eq_zero_iff.mp (by omega)

variable [DecidableEq τ]

/-- A step of one thread is counted when it changes the counter by what it owes more and what the
server has more. -/
theorem State.Counted.go (h : s.Counted) (t : τ) {p : Place η}
    (hplace : s'.place = s.place)
    (hcounter : s'.counter + s.live.length + (s.place t).owed =
      s.counter + s'.live.length + p.owed) : (s'.go t p).Counted := by
  have hsum := others_add (fun u => (s.place u).owed) t
  have hsum' := sum_update Place.owed s.place t p
  rw [State.Counted] at h ⊢
  simp only [State.go, hplace]
  omega

variable [DecidableEq η]

theorem State.Counted.own (h : s.Counted) {t : τ} (hstep : s.own special t = some s') :
    s'.Counted := by
  unfold State.own at hstep
  split at hstep
  · next started hplace =>
    cases hstep
    refine h.go t rfl ?_
    cases started with
    | false =>
      simp [hplace]
      omega
    | true => simp [hplace]
  · next hplace =>
    cases hstep
    exact h.go t rfl (by simp [hplace])
  · next hplace =>
    cases hstep
    exact h.go t rfl (by simp [hplace])
  · next hplace =>
    cases hstep
    refine h.go t rfl ?_
    simp [hplace]
    omega
  · next hplace =>
    cases hstep
    exact h.go t rfl (by simp [hplace])
  · obtain ⟨p, hp, rfl⟩ := Option.map_eq_some_iff.mp hstep
    obtain ⟨howed, howed'⟩ := owed_of_answer hp
    exact h.go t rfl (by rw [howed, howed'])

theorem State.Counted.move (h : s.Counted) {a : Action τ η} (hstep : s.move special a = some s') :
    s'.Counted := by
  cases a with
  | start t op =>
    simp only [State.move, Option.ite_none_right_eq_some] at hstep
    obtain ⟨hplace, hstep⟩ := hstep
    cases hstep
    cases op with
    | beginCapture | endCapture | query =>
      refine h.go t rfl ?_
      simp [hplace]
      try omega
  | own t => exact h.own hstep
  | beginServed t c =>
    simp only [State.move] at hstep
    split at hstep
    · next hplace =>
      cases c with
      | none =>
        cases hstep
        exact h.go t rfl (by simp [hplace])
      | some c =>
        simp only [State.beginServed, Option.ite_none_right_eq_some] at hstep
        obtain ⟨-, hstep⟩ := hstep
        cases hstep
        refine h.go t rfl ?_
        simp [hplace]
        omega
    · cases hstep
  | endServed t terminal =>
    simp only [State.move] at hstep
    split at hstep
    · next hplace =>
      cases terminal with
      | false =>
        cases hstep
        exact h.go t rfl (by simp [hplace])
      | true =>
        simp only [State.endServed] at hstep
        split at hstep
        · simp only [Option.ite_none_right_eq_some] at hstep
          obtain ⟨hmem, hstep⟩ := hstep
          cases hstep
          have hlength := List.length_erase_add_one hmem
          refine h.go t rfl ?_
          simp only [hplace, Place.owed]
          omega
        · cases hstep
    · cases hstep
  | queryServed t active =>
    simp only [State.move] at hstep
    split at hstep <;> cases hstep
    next hplace =>
    unfold State.queryServed
    split
    · split <;> exact h.go t rfl (by simp [hplace])
    · exact h.go t rfl (by simp [hplace])
  | join | create | destroy =>
    simp only [State.move, Option.ite_none_right_eq_some] at hstep
    obtain ⟨-, hstep⟩ := hstep
    cases hstep
    exact h
  | note | forget =>
    cases hstep
    exact h

end Counter

end Lupine.Capture
