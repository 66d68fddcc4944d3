import Mathlib.Algebra.Group.Nat.Defs
import Mathlib.Algebra.Ring.Int.Defs
import Mathlib.Logic.Function.Basic
import Lupine.Foundations.Execution
import Lupine.Foundations.Int32

/-!
# Request identifiers over the life of a connection

`rpc_write_start_request` numbers the requests of one end of a connection by adding two to the
`int` field `request_id`; `rpc_conn_init` starts it at `0` on the client and at `1` on the
server, so the two ends use the two parities. The peer's `rpc_dispatch` closes the connection
when an identifier is below two or of the wrong parity, and `rpc_read_start` closes it when a
response does not carry the identifier of the request.

The requests of one end (`Side`) are modelled with the lanes of its threads and the first-in
first-out streams that carry them. The client has one stream for each lane. The server issues its
requests on the dispatch stream only and holds the call lock until the response was read. The
addition wraps (`wrapInt`).

* `Side.Ok` is the invariant of the requests of an end whose counter has not wrapped, with the
  step lemma `Side.Ok.step`; `Side.Ok.not_closes` says that such requests close nothing.
* `Connection.identifiersOk_iff`: in a run every identifier is sound and nothing closes the
  connection exactly when each end starts at most `2 ^ 30 - 1` requests.
* `Connection.request_after_last_id`: the next request of a connection that has only seen
  complete exchanges closes it.
-/

namespace Lupine.Rpc.RequestIds

open Foundations Function List

/-! ## The two ends -/

variable {id op : ℤ}

/-- The two ends of a connection. -/
inductive End
  | client
  | server
  deriving DecidableEq, Repr

namespace End

/-- The `request_id` that `rpc_conn_init` is given: by `connect_endpoint` on the client, by
`client_handler` on the server. -/
def initialId : End → ℤ
  | client => 0
  | server => 1

/-- `local_request_parity`, and the `parity` that the peer passes to `rpc_dispatch`. -/
def parity (e : End) : ℤ := e.initialId % 2

end End

/-- The test of `rpc_dispatch` on the identifier in a header. -/
def accepts (parity id : ℤ) : Bool := !(id < 2 || id.tmod 2 ≠ parity)

theorem accepts_iff {parity : ℤ} : accepts parity id ↔ 2 ≤ id ∧ id % 2 = parity := by
  simp only [accepts, Bool.not_eq_true', Bool.or_eq_false_iff, decide_eq_false_iff_not]
  have hmod (hid : 2 ≤ id) : id.tmod 2 = id % 2 := Int.tmod_eq_emod_of_nonneg (by omega)
  constructor
  · rintro ⟨hid, hparity⟩
    omega
  · rintro ⟨hid, hparity⟩
    omega

/-- What one end writes on a stream: the wait marker of a fence or a request. `expects` tells
whether the sender waits for a response. -/
inductive Frame
  | marker
  | request (id op : ℤ) (expects : Bool)
  deriving DecidableEq, Repr

/-- The identifier that a frame's sender waits for. -/
def Frame.awaited : Frame → Option ℤ
  | .marker => none
  | .request id _ expects => if expects then some id else none

@[simp] theorem Frame.awaited_marker : Frame.marker.awaited = none := rfl

@[simp] theorem Frame.awaited_request (id op : ℤ) (expects : Bool) :
    (Frame.request id op expects).awaited = if expects then some id else none := rfl

/-- Where the thread of a lane stands: outside, between `rpc_write_start_request` and
`rpc_write_end`, or between `rpc_write_end` and `rpc_read_start`. -/
inductive Phase
  | idle
  | building (id op : ℤ)
  | waiting (id : ℤ)
  deriving DecidableEq, Repr

/-- One stream, as far as it carries requests of one end: the frames not read yet, the request
that the peer's thread of the stream is handling, and the responses not read yet. -/
structure Channel where
  sent : List Frame
  serving : Option ℤ
  replies : List ℤ
  deriving DecidableEq, Repr

/-- The identifiers on a stream whose response was not read yet, oldest first. -/
def Channel.pending (c : Channel) : List ℤ :=
  c.replies ++ (c.serving.toList ++ c.sent.filterMap Frame.awaited)

/-- The requests of one end: the identifier counter and the holder of `call_mutex` in its
`conn_t`, its threads by their lanes, and the streams. The stream `none` is the dispatch stream,
`some l` the stream of the client's lane `l`. -/
structure Side (Lane : Type) where
  requestId : ℤ
  call : Option Lane
  phase : Lane → Phase
  channels : Option Lane → Channel

/-- The actions of the threads of a healthy connection on the requests of one end. -/
inductive Action (Lane : Type)
  /-- `rpc_write_start_request`; `found` is false when `rpc_http2_lane_stream` fails. -/
  | start (l : Lane) (op : ℤ) (found : Bool)
  /-- `rpc_write_end`, with a wait marker in front of the request or without. -/
  | finish (l : Lane) (marker expects : Bool)
  /-- The peer reads a header in `rpc_dispatch`. -/
  | dispatch (i : Option Lane)
  /-- The peer writes the response. -/
  | respond (i : Option Lane)
  /-- `rpc_read_start` and `rpc_read_end` of the response. -/
  | complete (l : Lane)
  deriving DecidableEq, Repr

/-- The actions that take an identifier. -/
def Action.starts {Lane : Type} : Action Lane → Bool
  | .start _ _ _ => true
  | _ => false

/-- What an action leads to: the next state of the requests, or a closed connection. -/
inductive Outcome (Lane : Type)
  | next (p : Side Lane)
  | closes

namespace Side

variable {Lane : Type}
variable {a : Action Lane}

/-- The requests of an end after `rpc_conn_init`. -/
def initial (e : End) : Side Lane := ⟨e.initialId, none, fun _ => .idle, fun _ => ⟨[], none, []⟩⟩

/-- The identifier that the next request gets. -/
def nextId (p : Side Lane) : ℤ := wrapInt (p.requestId + 2)

/-- Take that identifier. -/
def take (p : Side Lane) : Side Lane := { p with requestId := p.nextId }

/-- `rpc_http2_lane_stream`: the server has only the dispatch stream. -/
def laneStream (l : Lane) : End → Option Lane
  | .client => some l
  | .server => none

section Steps

variable [DecidableEq Lane]

def setPhase (p : Side Lane) (l : Lane) (phase : Phase) : Side Lane :=
  { p with phase := update p.phase l phase }

@[simp] def setChannel (p : Side Lane) (i : Option Lane) (c : Channel) : Side Lane :=
  { p with channels := update p.channels i c }

/-- Lock or unlock `call_mutex`. -/
def setCall (p : Side Lane) (call : Option Lane) : Side Lane := { p with call := call }

/-- `rpc_write_start_request`: the identifier is taken before the stream is looked up. -/
def start (p : Side Lane) (l : Lane) (op : ℤ) (found : Bool) : Option (Outcome Lane) :=
  match p.call, p.phase l with
  | none, .idle =>
    if found then some (.next ((p.take.setPhase l (.building p.nextId op)).setCall (some l)))
    else some (.next p.take)
  | _, _ => none

/-- The frames that `rpc_write_end` puts on the stream. Only a client fences its requests. -/
def frames (e : End) (marker : Bool) (request : Frame) : List Frame :=
  if marker && e = .client then [.marker, request] else [request]

section

variable (e : End) (p : Side Lane)

/-- The message of a request on its stream. -/
def send (l : Lane) (marker : Bool) (request : Frame) : Side Lane :=
  p.setChannel (laneStream l e)
    { p.channels (laneStream l e) with
      sent := (p.channels (laneStream l e)).sent ++ frames e marker request }

/-- `rpc_write_end`. The server keeps the call lock, and each of its requests has a response. -/
def finish (l : Lane) (marker expects : Bool) : Option (Outcome Lane) :=
  match p.phase l, e, expects with
  | .building id op, .client, true =>
    some (.next (((send e p l marker (.request id op true)).setPhase l (.waiting id)).setCall none))
  | .building id op, .client, false =>
    some (.next (((send e p l marker (.request id op false)).setPhase l .idle).setCall none))
  | .building id op, .server, true =>
    some (.next ((send e p l marker (.request id op true)).setPhase l (.waiting id)))
  | _, _, _ => none

/-- `rpc_dispatch` of the peer, which passes the parity of `e`. Only the server reads markers. -/
def dispatch (i : Option Lane) : Option (Outcome Lane) :=
  match (p.channels i).serving, (p.channels i).sent with
  | none, .marker :: rest =>
    if e.parity = 0 then some (.next (p.setChannel i { p.channels i with sent := rest }))
    else some .closes
  | none, .request id _ expects :: rest =>
    if accepts e.parity id then
      some (.next (p.setChannel i
        { p.channels i with sent := rest, serving := if expects then some id else none }))
    else some .closes
  | _, _ => none

/-- `rpc_write_start_response` and `rpc_write_end` of the peer. -/
def respond (i : Option Lane) : Option (Outcome Lane) :=
  match (p.channels i).serving with
  | some id =>
    some (.next (p.setChannel i
      { p.channels i with serving := none, replies := (p.channels i).replies ++ [id] }))
  | none => none

/-- `rpc_read_start`, which compares the identifiers, and `rpc_read_end`. -/
def complete (l : Lane) : Option (Outcome Lane) :=
  match p.phase l, (p.channels (laneStream l e)).replies with
  | .waiting id, header :: rest =>
    if header ≠ id then some .closes
    else
      some (.next (((p.setChannel (laneStream l e)
        { p.channels (laneStream l e) with replies := rest }).setPhase l .idle).setCall
          (if e = .server then none else p.call)))
  | _, _ => none

def step : Action Lane → Option (Outcome Lane)
  | .start l op found => p.start l op found
  | .finish l marker expects => finish e p l marker expects
  | .dispatch i => dispatch e p i
  | .respond i => p.respond i
  | .complete l => complete e p l

end

end Steps

/-! ## The invariant of the requests of one end -/

/-- An identifier that the end has given out, while the counter has not wrapped. -/
def Issued (e : End) (last id : ℤ) : Prop := 2 ≤ id ∧ id ≤ last ∧ id % 2 = e.parity

/-- The requests of an end whose counter has not wrapped. A stream carries the identifier of the
lane that waits on it, and none when no lane does. -/
structure Ok (e : End) (p : Side Lane) : Prop where
  initialId_le : e.initialId ≤ p.requestId
  le_intMax : p.requestId ≤ intMax
  requestId_mod : p.requestId % 2 = e.parity
  building : ∀ l id op, p.phase l = .building id op → Issued e p.requestId id ∧ p.call = some l
  waiting : ∀ l id, p.phase l = .waiting id →
    Issued e p.requestId id ∧ (p.channels (laneStream l e)).pending = [id] ∧
      (e = .server → p.call = some l)
  quiet : ∀ i, (∀ l id, laneStream l e = i → p.phase l ≠ .waiting id) →
    (p.channels i).pending = []
  sent : ∀ i id op expects, .request id op expects ∈ (p.channels i).sent → Issued e p.requestId id
  marker : ∀ i, .marker ∈ (p.channels i).sent → e = .client

/-- The counter has room for the identifier that an action takes. -/
def Room (p : Side Lane) (a : Action Lane) : Prop := a.starts → p.requestId + 2 ≤ intMax

theorem initialId_nonneg (e : End) : 0 ≤ e.initialId := by cases e <;> decide

attribute [local simp] initial

theorem initial_ok (e : End) : Ok e (initial e : Side Lane) where
  initialId_le := Int.le_refl _
  le_intMax := by cases e <;> simp [End.initialId, intMax]
  requestId_mod := rfl
  building := by simp
  waiting := by simp
  quiet := by simp [Channel.pending]
  sent := by simp
  marker := by simp

section Counter

variable {e : End} {p : Side Lane}

theorem Ok.nonneg (hp : Ok e p) : 0 ≤ p.requestId :=
  Int.le_trans (initialId_nonneg e) hp.initialId_le

section

variable (hp : Ok e p) (hroom : p.requestId + 2 ≤ intMax)
include hp hroom

theorem Ok.nextId_eq : p.nextId = p.requestId + 2 :=
  wrapInt_of_le (by have := hp.nonneg; omega) hroom

/-- A new identifier is above those in use. -/
theorem Ok.waiting_ne_nextId (l : Lane) : p.phase l ≠ .waiting p.nextId := by
  intro h
  have hle := (hp.waiting l _ h).1.2.1
  rw [hp.nextId_eq hroom] at hle
  omega

theorem Ok.issued_nextId : Issued e p.nextId p.nextId := by
  have hnonneg := hp.nonneg
  have hmod := hp.requestId_mod
  have hid := hp.nextId_eq hroom
  exact ⟨by omega, Int.le_refl _, by omega⟩

/-- Taking an identifier, whatever becomes of the request. -/
theorem Ok.take : Ok e p.take := by
  have hid : p.take.requestId = p.requestId + 2 := hp.nextId_eq hroom
  have hlow := hp.initialId_le
  have hmod := hp.requestId_mod
  have hmono : ∀ {id}, Issued e p.requestId id → Issued e p.take.requestId id :=
    fun h => ⟨h.1, by have := h.2.1; omega, h.2.2⟩
  exact
    { initialId_le := by omega
      le_intMax := by omega
      requestId_mod := by omega
      building := fun l id op h => ⟨hmono (hp.building l id op h).1, (hp.building l id op h).2⟩
      waiting := fun l id h => ⟨hmono (hp.waiting l id h).1, (hp.waiting l id h).2⟩
      quiet := hp.quiet
      sent := fun i id op expects h => hmono (hp.sent i id op expects h)
      marker := hp.marker }

end

/-- A thread that is inside the protocol shares its stream with no thread that waits: the
client's threads have their own streams, and those of the server hold the call lock. -/
theorem Ok.alone {l : Lane} (hp : Ok e p) (hbusy : p.phase l ≠ .idle) (l' : Lane) (id : ℤ)
    (hl : l' ≠ l) (h : p.phase l' = .waiting id) :
    laneStream l' e ≠ laneStream l e ∧ e ≠ .server := by
  have hwaiting := (hp.waiting l' id h).2.2
  have hcall : e = .server → p.call = some l := by
    cases hphase : p.phase l with
    | idle => exact absurd hphase hbusy
    | building id' op => exact fun _ => (hp.building l id' op hphase).2
    | waiting id' => exact (hp.waiting l id' hphase).2.2
  cases e <;> grind [laneStream]

/-- The stream of a thread that builds a request carries nothing that is awaited. -/
theorem Ok.pending_of_building {l : Lane} (hp : Ok e p) (hphase : p.phase l = .building id op) :
    (p.channels (laneStream l e)).pending = [] := by
  refine hp.quiet _ fun l' id' hstream hwaiting => ?_
  by_cases hl : l' = l
  · simp [hl, hphase] at hwaiting
  · exact (hp.alone (by simp [hphase]) l' id' hl hwaiting).1 hstream

theorem pending_append (c : Channel) (marker expects : Bool) (id op : ℤ) :
    { c with sent := c.sent ++ frames e marker (.request id op expects) : Channel }.pending =
      c.pending ++ if expects then [id] else [] := by
  have hframes : (frames e marker (.request id op expects)).filterMap Frame.awaited =
      if expects then [id] else [] := by
    unfold frames
    split <;> cases expects <;> simp [filterMap_cons]
  simp [Channel.pending, hframes]

theorem request_mem_frames {marker expects expects' : Bool} {id' op' : ℤ}
    (h : .request id' op' expects' ∈ frames e marker (.request id op expects)) : id' = id := by
  unfold frames at h
  split at h <;> simp at h <;> exact h.1

theorem marker_mem_frames {marker expects : Bool}
    (h : .marker ∈ frames e marker (.request id op expects)) : e = .client := by
  unfold frames at h
  split at h
  case isTrue hclient => simpa using (Bool.and_eq_true_iff.mp hclient).2
  case isFalse => simp at h

theorem request_mem_send {i : Option Lane} {marker expects expects' : Bool}
    {id' op' : ℤ} (hp : Ok e p)
    (hid : Issued e p.requestId id)
    (h : .request id' op' expects' ∈
      (p.channels i).sent ++ frames e marker (.request id op expects)) :
    Issued e p.requestId id' := by
  rcases mem_append.mp h with h | h
  · exact hp.sent i id' op' expects' h
  · rw [request_mem_frames h]
    exact hid

theorem marker_mem_send {i : Option Lane} {marker expects : Bool} (hp : Ok e p)
    (h : .marker ∈ (p.channels i).sent ++ frames e marker (.request id op expects)) :
    e = .client := by
  rcases mem_append.mp h with h | h
  · exact hp.marker i h
  · exact marker_mem_frames h

end Counter

section Preservation

variable [DecidableEq Lane] {e : End} {p : Side Lane} {o : Outcome Lane} {l : Lane}
variable {i : Option Lane}

/-- A thread gets the call lock and starts to build a request. -/
theorem Ok.build (hp : Ok e p) (hcall : p.call = none) (hidle : p.phase l = .idle)
    (hid : Issued e p.requestId id) : Ok e ((p.setPhase l (.building id op)).setCall (some l)) := by
  refine { hp with building := ?_, waiting := ?_, quiet := ?_ }
  · intro l' id' op' h
    have hbuilding := hp.building l' id' op'
    simp only [setPhase, setCall, update_apply] at h ⊢
    grind
  · intro l' id' h
    have hwaiting := hp.waiting l' id'
    simp only [setPhase, setCall, update_apply] at h ⊢
    grind
  · intro i hi
    refine hp.quiet i fun l' id' hl' h => hi l' id' hl' ?_
    simp only [setPhase, setCall, update_apply]
    grind

/-! What each action does: the connection stays open and the invariant holds. -/

section

variable (hp : Ok e p)
include hp

theorem Ok.start {found : Bool} (hroom : p.requestId + 2 ≤ intMax) (h : p.start l op found = some o)
    : ∃ q, o = .next q ∧ Ok e q ∧ q.requestId = p.nextId := by
  have hq := hp.take hroom
  unfold Side.start at h
  split at h
  case h_2 => cases h
  case h_1 hcall hidle =>
    split at h <;> cases h
    · exact ⟨_, rfl, hq.build hcall hidle (hp.issued_nextId hroom), rfl⟩
    · exact ⟨_, rfl, hq, rfl⟩

/-- Reading and answering requests moves an identifier along its stream. -/
theorem Ok.setChannel {c : Channel} (hpending : c.pending = (p.channels i).pending)
    (hsent : ∀ id op expects, .request id op expects ∈ c.sent → Issued e p.requestId id)
    (hmarker : .marker ∈ c.sent → e = .client) : Ok e (p.setChannel i c) := by
  have hall : ∀ j, ((p.setChannel i c).channels j).pending = (p.channels j).pending := by
    intro j
    by_cases hj : j = i
    · subst hj
      simp [hpending]
    · simp [hj]
  refine { hp with waiting := ?_, quiet := ?_, sent := ?_, marker := ?_ }
  · intro l id h
    rw [hall]
    exact hp.waiting l id h
  · intro j hj
    rw [hall]
    exact hp.quiet j hj
  · intro j id op expects h
    have hold := hp.sent j id op expects
    simp only [Side.setChannel, update_apply] at h ⊢
    grind
  · intro j h
    have hold := hp.marker j
    simp only [Side.setChannel, update_apply] at h ⊢
    grind

theorem Ok.dispatch (h : dispatch e p i = some o) :
    ∃ q, o = .next q ∧ Ok e q ∧ q.requestId = p.requestId := by
  unfold Side.dispatch at h
  split at h
  case h_1 rest hserving hsent =>
    have hclient := hp.marker i (by simp [hsent])
    rw [if_pos (by rw [hclient]; rfl)] at h
    cases h
    refine ⟨_, rfl, hp.setChannel ?_ (fun id op expects hmem => hp.sent i id op expects ?_)
      (fun _ => hclient), rfl⟩
    · simp [Channel.pending, hsent, filterMap_cons]
    · simp [hsent, hmem]
  case h_2 id op expects rest hserving hsent =>
    obtain ⟨hlow, -, hmod⟩ := hp.sent i id op expects (by simp [hsent])
    rw [if_pos (accepts_iff.mpr ⟨hlow, hmod⟩)] at h
    cases h
    refine ⟨_, rfl, hp.setChannel ?_ (fun id' op' expects' hmem => hp.sent i id' op' expects' ?_)
      (fun hmem => hp.marker i ?_), rfl⟩
    · cases expects <;> simp [Channel.pending, hserving, hsent]
    · simp [hsent, hmem]
    · simp [hsent, hmem]
  case h_3 => cases h

theorem Ok.respond (h : p.respond i = some o) :
    ∃ q, o = .next q ∧ Ok e q ∧ q.requestId = p.requestId := by
  unfold Side.respond at h
  split at h <;> cases h
  case h_1 id hserving =>
    refine ⟨_, rfl, hp.setChannel ?_ (hp.sent i) (hp.marker i), rfl⟩
    simp [Channel.pending, hserving]

/-- The thread of a lane moves on, together with its stream and the call lock. -/
theorem Ok.setThread {c : Channel} {phase : Phase} {call : Option Lane} (hbusy : p.phase l ≠ .idle)
    (hsent : ∀ id op expects, .request id op expects ∈ c.sent → Issued e p.requestId id)
    (hmarker : .marker ∈ c.sent → e = .client)
    (hphase : (phase = .idle ∧ c.pending = []) ∨
      ∃ id, phase = .waiting id ∧ Issued e p.requestId id ∧ c.pending = [id] ∧
        (e = .server → call = some l))
    (hcall : ∀ l', l' ≠ l → p.call = some l' → call = some l') :
    Ok e (((p.setChannel (laneStream l e) c).setPhase l phase).setCall call) := by
  have halone := hp.alone hbusy
  refine ⟨hp.initialId_le, hp.le_intMax, hp.requestId_mod, ?_, ?_, ?_, ?_, ?_⟩
  · intro l' id op h
    have hold := hp.building l' id op
    simp only [Side.setChannel, setPhase, setCall, update_apply] at h ⊢
    grind
  · intro l' id h
    have hold := hp.waiting l' id
    simp only [Side.setChannel, setPhase, setCall, update_apply] at h ⊢
    grind
  · intro j hj
    simp only [Side.setChannel, setPhase, setCall, update_apply] at hj ⊢
    have hold := hp.quiet j
    grind
  · intro j id op expects h
    have hold := hp.sent j id op expects
    simp only [Side.setChannel, setPhase, setCall, update_apply] at h ⊢
    grind
  · intro j h
    have hold := hp.marker j
    simp only [Side.setChannel, setPhase, setCall, update_apply] at h ⊢
    grind

attribute [local simp] pending_append

theorem Ok.finish {marker expects : Bool} (h : finish e p l marker expects = some o) :
    ∃ q, o = .next q ∧ Ok e q ∧ q.requestId = p.requestId := by
  unfold Side.finish at h
  split at h <;> cases h <;> refine ⟨_, rfl, ?_, rfl⟩
  case h_1 id op hphase =>
    obtain ⟨hid, hcall⟩ := hp.building l id op hphase
    refine hp.setThread (by simp [hphase]) (fun _ _ _ => request_mem_send hp hid)
      (marker_mem_send hp) (.inr ⟨id, rfl, hid, ?_, nofun⟩) (by grind)
    simp [hp.pending_of_building hphase]
  case h_2 id op hphase =>
    obtain ⟨hid, hcall⟩ := hp.building l id op hphase
    refine hp.setThread (by simp [hphase]) (fun _ _ _ => request_mem_send hp hid)
      (marker_mem_send hp) (.inl ⟨rfl, ?_⟩) (by grind)
    simp [hp.pending_of_building hphase]
  case h_3 id op hphase =>
    obtain ⟨hid, hcall⟩ := hp.building l id op hphase
    refine hp.setThread (by simp [hphase]) (fun _ _ _ => request_mem_send hp hid)
      (marker_mem_send hp) (.inr ⟨id, rfl, hid, ?_, fun _ => hcall⟩) (fun _ _ h => h)
    simp [hp.pending_of_building hphase]

theorem Ok.complete (h : complete e p l = some o) :
    ∃ q, o = .next q ∧ Ok e q ∧ q.requestId = p.requestId := by
  unfold Side.complete at h
  split at h
  case h_2 => cases h
  case h_1 id header rest hphase hreplies =>
    obtain ⟨hid, hpending, hcall⟩ := hp.waiting l id hphase
    simp only [Channel.pending, hreplies, cons_append, List.cons.injEq] at hpending
    rw [if_neg (not_not.mpr hpending.1)] at h
    cases h
    refine ⟨_, rfl, hp.setThread (by simp [hphase]) (hp.sent _) (hp.marker _) (.inl ⟨rfl, ?_⟩)
      (by grind), rfl⟩
    simpa [Channel.pending] using hpending.2

/-- No identifier in use is refused by the peer or taken for another one. -/
theorem Ok.step (hroom : p.Room a) (h : step e p a = some o) :
    ∃ q, o = .next q ∧ Ok e q ∧
      q.requestId = if a.starts then p.nextId else p.requestId := by
  cases a with
  | start l op found => exact hp.start (hroom rfl) h
  | finish l marker expects => exact hp.finish h
  | dispatch i => exact hp.dispatch h
  | respond i => exact hp.respond h
  | complete l => exact hp.complete h

end

end Preservation

end Side

/-! ## Connections -/

/-- Both ends, and whether the connection is closed. -/
structure Connection (Lane : Type) where
  sides : End → Side Lane
  closed : Bool

namespace Connection

variable {Lane : Type}
variable {s t : Connection Lane}
variable {a : End × Action Lane}

/-- The connection after `rpc_conn_init` on both ends. -/
def initial : Connection Lane := ⟨Side.initial, false⟩

/-- The invariant of a connection whose counters have not wrapped. -/
def Inv (s : Connection Lane) : Prop := s.closed = false ∧ ∀ e, (s.sides e).Ok e

theorem initial_inv : Inv (initial : Connection Lane) := ⟨rfl, Side.initial_ok⟩

/-- The number of requests that an end starts in a run. -/
def startsOf (e : End) (as : List (End × Action Lane)) : ℕ :=
  as.countP fun a => a.1 = e ∧ a.2.starts

theorem startsOf_cons (e : End) (a : End × Action Lane) (as : List (End × Action Lane)) :
    startsOf e (a :: as) = startsOf e as + if a.1 = e ∧ a.2.starts then 1 else 0 := by
  simp [startsOf, countP_cons]

/-- The counter of the end that acts has room. -/
def Room (s : Connection Lane) (a : End × Action Lane) : Prop := (s.sides a.1).Room a.2

/-- A request of the client with its response. -/
def exchange (l : Lane) : List (End × Action Lane) :=
  [(.client, .start l 1 true), (.client, .finish l false true), (.client, .dispatch (some l)),
    (.client, .respond (some l)), (.client, .complete l)]

/-- A connection between two exchanges of the client. -/
def atRest (id : ℤ) : Connection Lane :=
  ⟨update Side.initial .client { Side.initial .client with requestId := id }, false⟩

attribute [local simp] Side.initial atRest

theorem atRest_zero : (atRest 0 : Connection Lane) = initial := by
  simp [initial, End.initialId]

section Runs

variable [DecidableEq Lane]

/-- One action on the requests of one end. No thread acts on a closed connection. -/
def step (s : Connection Lane) (a : End × Action Lane) : Option (Connection Lane) :=
  if s.closed then none
  else
    match Side.step a.1 (s.sides a.1) a.2 with
    | some (.next p) => some { s with sides := update s.sides a.1 p }
    | some .closes => some { s with closed := true }
    | none => none

/-- What is expected of an action: the identifier that it takes is at least two, has the parity
of its end, differs from those that wait for a response and passes the peer's test, and the
action does not close the connection. -/
def IdentifiersOk (s : Connection Lane) (a : End × Action Lane) : Prop :=
  (a.2.starts → 2 ≤ (s.sides a.1).nextId ∧ (s.sides a.1).nextId % 2 = a.1.parity ∧
    (∀ l, (s.sides a.1).phase l ≠ .waiting (s.sides a.1).nextId) ∧
    accepts a.1.parity (s.sides a.1).nextId) ∧
  ∀ t, step s a = some t → t.closed = false

theorem Inv.step (hs : Inv s) (hroom : Room s a) (h : step s a = some t) :
    Inv t ∧ ∀ e, (t.sides e).requestId =
      if a.1 = e ∧ a.2.starts then (s.sides e).nextId else (s.sides e).requestId := by
  rw [Connection.step, if_neg (by simp [hs.1])] at h
  split at h
  · rename_i hp
    cases h
    obtain ⟨q, ⟨⟩, hq, hid⟩ := (hs.2 a.1).step hroom hp
    refine ⟨⟨hs.1, fun e => ?_⟩, fun e => ?_⟩ <;> rcases eq_or_ne a.1 e with rfl | hne
    · simpa using hq
    · simpa [hne.symm] using hs.2 e
    · simpa using hid
    · simp [hne, hne.symm]
  · rename_i hp
    obtain ⟨q, ⟨⟩, -⟩ := (hs.2 a.1).step hroom hp
  · cases h

/-- While the counters have not wrapped, an action is as expected exactly when there is room for
its identifier. -/
theorem Inv.identifiersOk_iff_room (hs : Inv s) (a : End × Action Lane) :
    IdentifiersOk s a ↔ Room s a := by
  have hside := hs.2 a.1
  constructor
  · intro h hstarts
    have htwo := (h.1 hstarts).1
    by_contra hfull
    have hneg : (s.sides a.1).nextId < 0 :=
      wrapInt_of_gt (by omega) (by have := hside.le_intMax; omega)
    omega
  · intro hroom
    refine ⟨fun hstarts => ?_, fun t ht => (hs.step hroom ht).1.1⟩
    obtain ⟨hlow, -, hmod⟩ := hside.issued_nextId (hroom hstarts)
    exact ⟨hlow, hmod, hside.waiting_ne_nextId (hroom hstarts), accepts_iff.mpr ⟨hlow, hmod⟩⟩

/-- There is room at every step exactly when there is room for all requests of the run. -/
theorem along_room_iff {as : List (End × Action Lane)} (hs : Inv s) (h : exec step s as = some t) :
    Along step Room s as ↔ ∀ e, (s.sides e).requestId + 2 * startsOf e as ≤ intMax := by
  induction as generalizing s with
  | nil => simpa [Along, startsOf] using fun e => (hs.2 e).le_intMax
  | cons a as ih =>
    obtain ⟨s', hs', h⟩ := exec_cons_eq_some.mp h
    have hrest : Room s a → (Along step Room s' as ↔
        ∀ e, (s.sides e).requestId + 2 * startsOf e (a :: as) ≤ intMax) := by
      intro hroom
      obtain ⟨hnext, hid⟩ := hs.step hroom hs'
      rw [ih hnext h]
      refine forall_congr' fun e => ?_
      rw [hid, startsOf_cons]
      split
      case isTrue hstarts =>
        obtain ⟨rfl, hstarts⟩ := hstarts
        rw [(hs.2 a.1).nextId_eq (hroom hstarts)]
        omega
      case isFalse => simp
    constructor
    · rintro ⟨hroom, htail⟩
      exact (hrest hroom).mp (htail s' hs')
    · intro hall
      have hroom : Room s a := by
        intro hstarts
        have hbound := hall a.1
        rw [startsOf_cons, if_pos ⟨rfl, hstarts⟩] at hbound
        omega
      refine ⟨hroom, fun t ht => ?_⟩
      cases hs'.symm.trans ht
      exact (hrest hroom).mpr hall

attribute [local simp] Side.nextId Side.laneStream Side.setPhase Side.dispatch

theorem exec_exchange (l : Lane) (hlow : 0 ≤ id) (hmod : id % 2 = 0) (hroom : id + 2 ≤ intMax) :
    exec step (atRest id) (exchange l) = some (atRest (id + 2)) := by
  have hwrap : wrapInt (id + 2) = id + 2 := wrapInt_of_le (by omega) hroom
  have haccepts : accepts 0 (id + 2) = true := accepts_iff.mpr ⟨by omega, by omega⟩
  simp [exchange, exec_cons, step, Side.step, Side.start, Side.finish, Side.respond, Side.complete,
    Side.take, Side.setCall, Side.send, Side.frames, hwrap, haccepts, End.parity, End.initialId]

/-- **Identifiers of a connection.** In a run of the two ends, over any lanes, every identifier
is at least two, has the parity of its end, differs from those that wait for a response and is
accepted by the peer, and no action closes the connection, exactly when neither end starts more
than `2 ^ 30 - 1` requests. -/
theorem identifiersOk_iff {as : List (End × Action Lane)} {t : Connection Lane}
    (h : exec step initial as = some t) :
    Along step IdentifiersOk initial as ↔ ∀ e, startsOf e as ≤ 2 ^ 30 - 1 := by
  have htrue : Along step (fun _ _ => True) (initial : Connection Lane) as :=
    Along.of_forall (C := fun _ => True) (fun _ _ => trivial) _
  rw [along_iff_along (C := IdentifiersOk) (D := Room) (I := Inv)
    (fun s a hs _ => hs.identifiersOk_iff_room a)
    (fun s a t hs _ hok h => (hs.step ((hs.identifiersOk_iff_room a).mp hok) h).1)
    initial_inv htrue, along_room_iff initial_inv h]
  refine forall_congr' fun e => ?_
  cases e <;> simp only [initial, Side.initial, End.initialId, intMax] <;> omega

/-- One complete exchange is such a run. -/
theorem identifiersOk_exchange :
    exec step (initial : Connection Unit) (exchange ()) = some (atRest 2) ∧
      Along step IdentifiersOk (initial : Connection Unit) (exchange ()) := by
  have h : exec step (initial : Connection Unit) (exchange ()) = some (atRest 2) := by
    rw [← atRest_zero]
    exact exec_exchange () (by omega) (by omega) (by simp [intMax])
  exact ⟨h, (identifiersOk_iff h).mpr fun e => by cases e <;> decide⟩

/-- Complete exchanges leave nothing behind but the counter. -/
theorem exec_exchanges (l : Lane) (n : ℕ) (id : ℤ) (hlow : 0 ≤ id) (hmod : id % 2 = 0)
    (hroom : id + 2 * n ≤ intMax) :
    exec step (atRest id) (List.replicate n (exchange l)).flatten = some (atRest (id + 2 * n)) := by
  induction n generalizing id with
  | zero => simp
  | succ n ih =>
    rw [replicate_succ, flatten_cons,
      exec_append (exec_exchange l hlow hmod (by omega)),
      ih (id + 2) (by omega) (by omega) (by omega)]
    congr 2
    omega

/-- A request that finds no room gets a negative identifier, and the peer's `rpc_dispatch`
closes the connection at its header. -/
theorem exec_wrapped (l : Lane) (id : ℤ) (hlow : intMax < id + 2) (hhigh : id ≤ intMax) :
    ((atRest id : Connection Lane).sides .client).nextId < 0 ∧
      ∃ t, exec step (atRest id) ((exchange l).take 3) = some t ∧ t.closed = true := by
  have hwrap : wrapInt (id + 2) < 0 := wrapInt_of_gt hlow (by omega)
  have haccepts : accepts 0 (wrapInt (id + 2)) = false := by
    rw [Bool.eq_false_iff]
    intro h
    have hlow := (accepts_iff.mp h).1
    omega
  refine ⟨by simpa using hwrap, ?_⟩
  simp [exchange, exec_cons, step, Side.step, Side.start, Side.finish, Side.take, Side.setCall,
    Side.send, Side.frames, haccepts, End.parity, End.initialId]

/-- The request number `2 ^ 30` of the client closes a connection that has seen nothing but
complete exchanges. -/
theorem request_after_last_id :
    ∃ s t : Connection Unit,
      exec step initial (List.replicate (2 ^ 30 - 1) (exchange ())).flatten = some s ∧
        s.closed = false ∧ (s.sides .client).nextId < 0 ∧
        exec step s ((exchange ()).take 3) = some t ∧ t.closed = true := by
  have hrun := exec_exchanges () (2 ^ 30 - 1) 0 (by omega) (by omega) (by simp [intMax])
  rw [atRest_zero] at hrun
  obtain ⟨hneg, t, ht, hclosed⟩ := exec_wrapped () (0 + 2 * (2 ^ 30 - 1 : ℕ))
    (by simp [intMax]) (by simp [intMax])
  exact ⟨_, t, hrun, rfl, hneg, ht, hclosed⟩

end Runs

end Connection

end Lupine.Rpc.RequestIds
