import Mathlib.Logic.Function.Basic
import Lupine.Foundations.Execution

/-!
# Bulk lanes and the sessions of the client transport

Large copies use extra connections, the bulk lanes of a session. `transport.cpp` dials them when
`lupine_client_transport_bulk_lanes` is first asked for the lanes of a connection, remembers that
in `bulk_dialed` and keeps the lanes in `bulk`. `lupine_client_transport_close` ends the session:
it shuts the connections down under the mutex, resets them without it, and sets `count` to zero
under the mutex again. It resets neither `bulk` nor `bulk_dialed`.

A connection is a slot of the array `connections`; sessions are numbered, and a lane is
represented by the session whose token it was dialed with. A lookup reads `count` before it takes
the mutex, so its two halves are two actions, and a close has two locked sections.

* `ClientState.lanesCurrent_of_careful`: lookups return only lanes of the open session, in a run
  that opens a session only in slots whose lanes were never asked for and in which every lookup
  gets the mutex while its session is open.
* `ClientState.lanes_of_closed_session`: after a close and a new open, the lookup returns a lane of
  the closed session.
-/

namespace Lupine.Transport

open Foundations Function

/-- `kTransportCapacity`. -/
def capacity : ℕ := 16

/-- A `conn_t` of the array `connections`: its `logical_index`, and the session whose handshake
gave it a bulk token. -/
structure Conn where
  logicalIndex : ℕ
  session : Option ℕ
  deriving DecidableEq, Repr

/-- The connection after `reset_connection`. -/
def Conn.reset : Conn := ⟨0, none⟩

/-- `lupine_bulk_lanes`: the session of each lane, and whether a transfer failed. -/
structure Lanes where
  lanes : List ℕ
  failed : Bool
  deriving DecidableEq, Repr

/-- Where a thread stands: outside, in a lookup that has passed the test of `count`, or in a close
between its two locked sections, with the `count` that it saw. -/
inductive Place
  | idle
  | lookup (slot : ℕ)
  | closing (count : ℕ)
  deriving DecidableEq, Repr

/-- `client_transport_state`. `sessions` counts the opens and `current` is the session that is
open in each slot; both are only observed. -/
structure ClientState (Thread : Type) where
  connections : ℕ → Conn
  bulk : ℕ → Lanes
  bulkDialed : ℕ → Bool
  count : ℕ
  shuttingDown : Bool
  sessions : ℕ
  current : ℕ → Option ℕ
  place : Thread → Place

/-- A session opens or closes, or a thread looks for lanes. -/
inductive Action (Thread : Type)
  /-- `lupine_client_transport_open`, with the number of endpoints that can be connected. -/
  | openSession (connected : ℕ)
  /-- The tests at the head of `lupine_client_transport_bulk_lanes`. -/
  | lookup (t : Thread) (slot : ℕ)
  /-- Its locked section; `dialed` lanes can be connected. -/
  | lanes (t : Thread) (dialed : ℕ)
  /-- A transfer marks the lanes of a slot as failed. -/
  | fail (index : ℕ)
  /-- The first locked section of `lupine_client_transport_close`. -/
  | close (t : Thread)
  /-- The rest of it. -/
  | closed (t : Thread)
  deriving DecidableEq, Repr

namespace ClientState

variable {Thread : Type}
variable {s : ClientState Thread}

def initial : ClientState Thread :=
  ⟨fun _ => .reset, fun _ => ⟨[], false⟩, fun _ => false, 0, false, 0, fun _ => none,
    fun _ => .idle⟩

/-- The connections that one open adds. -/
def opened (connected : ℕ) : ℕ := min connected capacity

section

variable (s : ClientState Thread)

/-- `lupine_client_transport_open`: the endpoints that can be connected fill the first slots. -/
def openSession (connected : ℕ) : ClientState Thread :=
  if s.count ≠ 0 then s
  else
    { s with
      connections := fun i => if i < opened connected then ⟨i, some s.sessions⟩ else s.connections i
      current := fun i => if i < opened connected then some s.sessions else s.current i
      count := opened connected
      sessions := s.sessions + 1 }

/-- `dial_bulk_lanes`: without a token there are no lanes. -/
def dialBulkLanes (slot index dialed : ℕ) : ClientState Thread :=
  match (s.connections slot).session with
  | some k =>
    let lanes := { s.bulk index with lanes := (s.bulk index).lanes ++ List.replicate dialed k }
    { s with bulk := update s.bulk index lanes }
  | none => s

/-- The locked section of `lupine_client_transport_bulk_lanes`. -/
def lookupLocked (slot dialed : ℕ) : ClientState Thread :=
  let index := (s.connections slot).logicalIndex
  if !s.bulkDialed index && !s.shuttingDown then
    { s with bulkDialed := update s.bulkDialed index true }.dialBulkLanes slot index dialed
  else s

/-- The lanes that the lookup returns; none stands for `nullptr`. -/
def result (slot dialed : ℕ) : List ℕ :=
  let lanes := (s.lookupLocked slot dialed).bulk (s.connections slot).logicalIndex
  if lanes.failed then [] else lanes.lanes

/-- `reset_connection` on the connections that a close has seen. -/
def resetConnections (count : ℕ) : ClientState Thread :=
  { s with connections := fun i => if i < count then .reset else s.connections i }

end

section Step

variable [DecidableEq Thread]

def setPlace (s : ClientState Thread) (t : Thread) (p : Place) : ClientState Thread :=
  { s with place := update s.place t p }

def step (s : ClientState Thread) : Action Thread → Option (ClientState Thread)
  | .openSession connected => some (s.openSession connected)
  | .lookup t slot =>
    if s.place t = .idle then
      if (s.connections slot).logicalIndex < s.count then some (s.setPlace t (.lookup slot))
      else some s
    else none
  | .lanes t dialed =>
    match s.place t with
    | .lookup slot => some ((s.lookupLocked slot dialed).setPlace t .idle)
    | _ => none
  | .fail index =>
    some { s with bulk := update s.bulk index { s.bulk index with failed := true } }
  | .close t =>
    if s.place t = .idle then
      if s.shuttingDown then some s
      else
        let s' := s.setPlace t (.closing s.count)
        some
          { s' with
            shuttingDown := true
            current := fun i => if i < s.count then none else s.current i }
    else none
  | .closed t =>
    match s.place t with
    | .closing count =>
      let s' := (s.resetConnections count).setPlace t .idle
      some { s' with count := 0, shuttingDown := false }
    | _ => none

end Step

/-! ## Lanes of the open session -/

/-- A lookup returns only lanes of the session that is open in the slot of its connection. -/
def LanesCurrent (s : ClientState Thread) : Action Thread → Prop
  | .lanes t dialed =>
    ∀ slot, s.place t = .lookup slot → ∀ lane ∈ s.result slot dialed, s.current slot = some lane
  | _ => True

/-- A session is opened only in slots whose lanes were never asked for, and a lookup gets the
mutex while the session of its connection is open. -/
def Careful (s : ClientState Thread) : Action Thread → Prop
  | .openSession connected => s.count = 0 → ∀ i < opened connected, s.bulkDialed i = false
  | .lanes t _ => ∀ slot, s.place t = .lookup slot → slot < s.count ∧ s.shuttingDown = false
  | _ => True

/-- While no close is under way, the slots below `count` hold the open session, and lanes of a
slot belong to the session that is open in it. -/
structure Inv (s : ClientState Thread) : Prop where
  dialed : ∀ i, s.bulkDialed i = false → (s.bulk i).lanes = []
  connected : s.shuttingDown = false →
    ∀ i < s.count, ∃ k, s.connections i = ⟨i, some k⟩ ∧ s.current i = some k
  lanes : ∀ i k, s.current i = some k → ∀ lane ∈ (s.bulk i).lanes, lane = k

theorem initial_inv : Inv (initial : ClientState Thread) where
  dialed _ _ := rfl
  connected := by simp [initial]
  lanes := by simp [initial]

theorem Inv.openSession (hs : Inv s) {connected : ℕ}
    (hfresh : s.count = 0 → ∀ i < opened connected, s.bulkDialed i = false) :
    Inv (s.openSession connected) := by
  unfold ClientState.openSession
  split
  case isTrue => exact hs
  case isFalse hcount =>
    refine ⟨hs.dialed, fun _ i hi => ⟨s.sessions, ?_⟩, fun i k hk => ?_⟩
    · have hlt : i < opened connected := hi
      simp [hlt]
    · dsimp only at hk
      split at hk
      case isTrue hi => simp [hs.dialed i (hfresh (by simpa using hcount) i hi)]
      case isFalse => exact hs.lanes i k hk

/-- The locked section of a lookup whose session is open. -/
theorem Inv.lookupLocked (hs : Inv s) {slot : ℕ} (hslot : slot < s.count)
    (hopen : s.shuttingDown = false) (dialed : ℕ) : Inv (s.lookupLocked slot dialed) := by
  obtain ⟨k, hconn, hcurrent⟩ := hs.connected hopen slot hslot
  cases hdialed : s.bulkDialed slot with
  | true => simpa [ClientState.lookupLocked, hconn, hdialed] using hs
  | false =>
    have hlocked : s.lookupLocked slot dialed =
        { s with
          bulkDialed := update s.bulkDialed slot true
          bulk := update s.bulk slot ⟨List.replicate dialed k, (s.bulk slot).failed⟩ } := by
      simp [ClientState.lookupLocked, dialBulkLanes, hconn, hopen, hdialed, hs.dialed slot hdialed]
    rw [hlocked]
    refine ⟨fun i hi => ?_, hs.connected, fun i k' hk' lane hlane => ?_⟩
    · have hne : i ≠ slot := by
        rintro rfl
        simp at hi
      simp only [update_of_ne hne] at hi ⊢
      exact hs.dialed i hi
    · by_cases hi : i = slot
      · subst hi
        cases hcurrent.symm.trans hk'
        exact List.eq_of_mem_replicate (by simpa using hlane)
      · simp only [update_of_ne hi] at hlane
        exact hs.lanes i k' hk' lane hlane

theorem Inv.fail (hs : Inv s) (index : ℕ) :
    Inv { s with bulk := update s.bulk index { s.bulk index with failed := true } } := by
  have hsame : ∀ i, (update s.bulk index { s.bulk index with failed := true } i).lanes =
      (s.bulk i).lanes := by
    intro i
    by_cases hi : i = index
    · subst hi
      simp
    · simp [hi]
  refine ⟨fun i hi => ?_, hs.connected, fun i k hk => ?_⟩
  · rw [hsame]
    exact hs.dialed i hi
  · rw [hsame]
    exact hs.lanes i k hk

/-- A lookup in a careful run returns lanes of the session that is open. -/
theorem Inv.lanesCurrent {a : Action Thread} (hs : Inv s) (hcareful : Careful s a) :
    LanesCurrent s a := by
  cases a with
  | lanes t dialed =>
    intro slot hplace lane hlane
    obtain ⟨hslot, hopen⟩ := hcareful slot hplace
    obtain ⟨k, hconn, hcurrent⟩ := hs.connected hopen slot hslot
    have hlocked := hs.lookupLocked hslot hopen dialed
    have hcurrent' : (s.lookupLocked slot dialed).current = s.current := by
      unfold ClientState.lookupLocked dialBulkLanes
      dsimp only
      split
      · split <;> rfl
      · rfl
    simp only [result, hconn] at hlane
    split at hlane
    · cases hlane
    · rw [hcurrent, hlocked.lanes slot k (by rw [hcurrent', hcurrent]) lane hlane]
  | openSession connected => trivial
  | lookup t slot => trivial
  | fail index => trivial
  | close t => trivial
  | closed t => trivial

section Runs

variable [DecidableEq Thread]

theorem Inv.setPlace (hs : Inv s) (t : Thread) (p : Place) : Inv (s.setPlace t p) :=
  { hs with }

theorem Inv.step {s' : ClientState Thread} {a : Action Thread} (hs : Inv s) (hcareful : Careful s a)
    (h : step s a = some s') : Inv s' := by
  cases a with
  | openSession connected =>
    cases h
    exact hs.openSession hcareful
  | lookup t slot =>
    obtain ⟨-, h⟩ := Option.ite_none_right_eq_some.mp h
    split at h <;> cases h
    · exact hs.setPlace t _
    · exact hs
  | lanes t dialed =>
    simp only [ClientState.step] at h
    split at h
    case h_1 slot hplace =>
      cases h
      obtain ⟨hslot, hopen⟩ := hcareful slot hplace
      exact (hs.lookupLocked hslot hopen dialed).setPlace t .idle
    case h_2 => cases h
  | fail index =>
    cases h
    exact hs.fail index
  | close t =>
    obtain ⟨-, h⟩ := Option.ite_none_right_eq_some.mp h
    split at h <;> cases h
    · exact hs
    · refine ⟨hs.dialed, nofun, fun i k hk => ?_⟩
      dsimp only at hk
      split at hk
      · cases hk
      · exact hs.lanes i k hk
  | closed t =>
    simp only [ClientState.step] at h
    split at h <;> cases h
    exact ⟨hs.dialed, fun _ i hi => absurd hi (Nat.not_lt_zero i), hs.lanes⟩

/-- **Bulk lanes belong to the open session** in every run that opens sessions only in slots whose
lanes were never asked for and in which a lookup gets the mutex while the session of its
connection is open. -/
theorem lanesCurrent_of_careful {as : List (Action Thread)}
    (hcareful : Along step Careful initial as) : Along step LanesCurrent initial as :=
  hcareful.imp_of_invariant (fun _ _ hs hc => hs.lanesCurrent hc)
    (fun _ _ _ hs hc h => hs.step hc h) initial_inv

end Runs

/-- A session with one lane, its end, and the lookup of the next session. -/
def reopened (t : Thread) : List (Action Thread) :=
  [.openSession 1, .lookup t 0, .lanes t 1, .close t, .closed t, .openSession 1, .lookup t 0]

/-- After a close and an open, the lookup returns the lane of session `0` while session `1` is
open. -/
theorem lanes_of_closed_session :
    ((exec step (initial : ClientState Unit) (reopened ())).map fun s =>
      (s.place (), s.current 0, s.result 0 1)) = some (.lookup 0, some 1, [0]) := by
  decide

/-- The first session of that run is careful. -/
theorem lanesCurrent_first_session :
    Along step Careful (initial : ClientState Unit) ((reopened ()).take 3) ∧
      Along step LanesCurrent (initial : ClientState Unit) ((reopened ()).take 3) := by
  have hcareful : Along step Careful (initial : ClientState Unit) ((reopened ()).take 3) := by
    refine ⟨fun _ _ _ => rfl, fun s hs => ⟨trivial, fun s' hs' => ⟨fun slot hslot => ?_,
      fun _ _ => trivial⟩⟩⟩
    cases hs
    cases hs'
    obtain rfl : 0 = slot := Place.lookup.inj hslot
    decide
  exact ⟨hcareful, lanesCurrent_of_careful hcareful⟩

end ClientState

end Lupine.Transport
