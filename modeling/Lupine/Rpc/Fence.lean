import Mathlib.Data.Finset.Card
import Mathlib.Logic.Function.Basic
import Lupine.Foundations.Execution
import Lupine.Foundations.Int32

/-!
# Asynchronous requests and their fences

The part of `rpc.cpp` that orders requests across the lanes (HTTP/2 streams) of one connection.

A fire-and-forget request gets a ticket from `issued_async_sequence`. The client publishes the
number of tickets whose requests are on the wire in `published_async_sequence`. A request that
starts loads this number before it waits for the builder lock; when its lane does not already
order it after all of these tickets, `rpc_write_end` puts the marker `{0, 0, published}` in
front of it. On the server, `rpc_dispatch` makes the lane wait at a marker until
`serving_async_sequence` has reached it, and `rpc_async_sequence_end` advances that counter over
tickets that complete in any order.

The functions are cut at the points where another thread can act: the load of the published count,
the lock, the ticket, the bytes reaching the lane, and the publication are five actions of a client
thread. A lane is a first-in first-out list of frames. The `int` field `request_id` grows by two
with every request, and what a request carries is its wrapped value. Tickets are natural numbers: a
connection ends long before a 64-bit counter could wrap (`Fence.issued_le_requestId`).

The log and the call numbers are only observed: no action reads them.
-/

namespace Lupine.Rpc

open Foundations Function

/-! ## Messages -/

/-- What a client writes on a lane: the wait marker of `rpc_write_end` or a request. Of a
request's payload only the ticket of a fire-and-forget request matters; `call` numbers the
calls of `rpc_write_start_request`. -/
inductive Frame
  | marker (op published : ℕ)
  | request (id : ℤ) (op : ℕ) (sequence : Option ℕ) (call : ℕ)
  deriving DecidableEq, Repr

/-- The observable events, in the order in which they happen. -/
inductive Event
  /-- A request loaded `published_async_sequence`. -/
  | took (call : ℕ)
  /-- The publication of a ticket, the store in `rpc_write_end`. -/
  | published (sequence : ℕ)
  /-- `rpc_dispatch` returned the request of this call. -/
  | dispatched (call : ℕ)
  /-- `rpc_async_sequence_end` ran for this ticket. -/
  | ended (sequence : ℕ)
  deriving DecidableEq, Repr

/-! ## The two ends of a connection -/

/-- The request under construction: the fields of `conn_t` that the builder lock protects from
`rpc_write_start_request` to `rpc_write_end`. -/
structure Builder (Thread Stream : Type) where
  thread : Thread
  writeId : ℤ
  writeOp : ℕ
  writeDependency : ℕ
  writeStreamId : Stream
  sequence : Option ℕ
  call : ℕ
  /-- The bytes are on the stream, the rest of `rpc_write_end` is still to run. -/
  sent : Bool
  deriving DecidableEq

/-- The client's `conn_t`. `taken` holds the dependency and the call number of a thread that
waits for the builder lock. -/
structure Client (Thread Stream : Type) where
  /-- `request_id` before it wraps. -/
  requestId : ℕ
  issuedAsyncSequence : ℕ
  publishedAsyncSequence : ℕ
  asyncPrefixStream : Option Stream
  asyncPrefix : ℕ
  taken : Thread → Option (ℕ × ℕ)
  builder : Option (Builder Thread Stream)
  calls : ℕ

/-- Where the thread of a server lane is. -/
inductive Phase
  /-- In `rpc_dispatch`, reading a header. -/
  | dispatching
  /-- In `rpc_async_sequence_wait`. -/
  | waiting (published : ℕ)
  /-- In the handler of a request. -/
  | handling (sequence : Option ℕ)
  /-- Between `rpc_async_sequence_begin` and `rpc_async_sequence_end`. -/
  | executing
  /-- `rpc_dispatch` or the handler failed: the lane's loop is over. -/
  | stopped
  deriving DecidableEq, Repr

/-- A server lane: the frames it has not read yet and its thread. -/
structure Lane where
  frames : List Frame
  phase : Phase
  /-- The thread-local `executing_async_sequence`. -/
  executingAsyncSequence : ℕ
  deriving DecidableEq

/-- The server's `conn_t`. -/
structure Server (Stream : Type) where
  closed : Bool
  servingAsyncSequence : ℕ
  completedAsyncSequences : Finset ℕ
  asyncCancelled : Bool
  lanes : Stream → Lane

/-- Both ends of the connection and the events so far. -/
structure Fence (Thread Stream : Type) where
  client : Client Thread Stream
  server : Server Stream
  log : List Event

namespace Fence

variable {Thread Stream : Type}

/-- A fresh connection, `rpc_conn_init` with request id `0` on the client. -/
def initial : Fence Thread Stream where
  client :=
    { requestId := 0, issuedAsyncSequence := 0, publishedAsyncSequence := 0,
      asyncPrefixStream := none, asyncPrefix := 0, taken := fun _ => none, builder := none,
      calls := 0 }
  server :=
    { closed := false, servingAsyncSequence := 0, completedAsyncSequences := ∅,
      asyncCancelled := false, lanes := fun _ => ⟨[], .dispatching, 0⟩ }
  log := []

end Fence

/-! ## The client -/

section Client

variable {Thread Stream : Type} [DecidableEq Thread] [DecidableEq Stream]

/-- The prefix a new message starts from: switching lanes forgets it. -/
def Client.currentPrefix (c : Client Thread Stream) (stream : Stream) : ℕ :=
  if c.asyncPrefixStream = some stream then c.asyncPrefix else 0

/-- The frames `rpc_write_end` writes: the marker when the dependency is not covered by the
lane's prefix, then the request. -/
def Client.message (c : Client Thread Stream) (b : Builder Thread Stream) : List Frame :=
  let request := Frame.request b.writeId b.writeOp b.sequence b.call
  if b.writeDependency > c.currentPrefix b.writeStreamId then
    [.marker 0 b.writeDependency, request]
  else [request]

/-- The end of `rpc_write_end` after a successful write: the new prefix and the publication. -/
def Client.publish (c : Client Thread Stream) (b : Builder Thread Stream) : Client Thread Stream :=
  let asyncPrefix := max c.asyncPrefix b.writeDependency
  let published := c.issuedAsyncSequence
  { c with
    builder := none
    asyncPrefix :=
      if published ≠ c.publishedAsyncSequence ∧ published = asyncPrefix + 1 then published
      else asyncPrefix
    publishedAsyncSequence := published }

end Client

/-! ## The server -/

/-- The loop of `rpc_async_sequence_end`: pass the tickets that completed early. Each round
erases one, so `fuel` is the number of them. -/
def catchUp : (fuel : ℕ) → ℕ → Finset ℕ → ℕ × Finset ℕ
  | 0, serving, completed => (serving, completed)
  | fuel + 1, serving, completed =>
    if serving ∈ completed then catchUp fuel (serving + 1) (completed.erase serving)
    else (serving, completed)

/-- `rpc_async_sequence_end` for a ticket. -/
def Server.sequenceEnd {Stream : Type} (v : Server Stream) (sequence : ℕ) : Server Stream :=
  if sequence = v.servingAsyncSequence then
    let r := catchUp v.completedAsyncSequences.card (v.servingAsyncSequence + 1)
      v.completedAsyncSequences
    { v with servingAsyncSequence := r.1, completedAsyncSequences := r.2 }
  else if sequence > v.servingAsyncSequence then
    { v with completedAsyncSequences := insert sequence v.completedAsyncSequences }
  else v

/-- `rpc_mark_connection_closed`. -/
def Server.markClosed {Stream : Type} (v : Server Stream) : Server Stream :=
  { v with closed := true, asyncCancelled := true }

section Server

variable {Stream : Type} [DecidableEq Stream]

def Server.setLane (v : Server Stream) (i : Stream) (l : Lane) : Server Stream :=
  { v with lanes := update v.lanes i l }

def Server.stopLane (v : Server Stream) (i : Stream) : Server Stream :=
  v.setLane i { v.lanes i with phase := .stopped }

end Server

/-! ## Actions -/

/-- The atomic actions of the threads of both ends. -/
inductive Action (Thread Stream : Type)
  /-- `rpc_write_start_request` loads the published count. -/
  | take (thread : Thread)
  /-- `rpc_write_start_request` fails after the load. -/
  | abandon (thread : Thread)
  /-- `rpc_write_start_request` gets the builder lock. -/
  | start (thread : Thread) (op : ℕ)
  /-- `rpc_write_start_async_request` takes a ticket. -/
  | issue (thread : Thread)
  /-- `rpc_write_end` writes the message on the lane. -/
  | send (thread : Thread)
  /-- `rpc_write_end` publishes and releases the builder. -/
  | publish (thread : Thread)
  /-- `rpc_dispatch` reads a header. -/
  | dispatch (stream : Stream)
  /-- `rpc_async_sequence_wait` wakes up. -/
  | wake (stream : Stream)
  /-- `rpc_async_sequence_begin`. -/
  | begin (stream : Stream)
  /-- `rpc_async_sequence_end`. -/
  | finish (stream : Stream)
  /-- The handler of a synchronous request returns. -/
  | respond (stream : Stream)
  /-- The connection is closed for another reason. -/
  | close

namespace Fence

variable {Thread Stream : Type} [DecidableEq Thread] [DecidableEq Stream]

def setLane (s : Fence Thread Stream) (i : Stream) (l : Lane) : Fence Thread Stream :=
  { s with server := s.server.setLane i l }

/-- The next frame of a lane, as `rpc_dispatch` with parity `0` reads it. -/
def dispatchFrame (s : Fence Thread Stream) (i : Stream) (rest : List Frame) :
    Frame → Fence Thread Stream
  | .marker op published =>
    if op ≠ 0 then { s with server := s.server.markClosed.stopLane i }
    else s.setLane i { s.server.lanes i with frames := rest, phase := .waiting published }
  | .request id _ sequence call =>
    if id < 2 ∨ id % 2 ≠ 0 then { s with server := s.server.markClosed.stopLane i }
    else
      let s' := s.setLane i { s.server.lanes i with frames := rest, phase := .handling sequence }
      { s' with log := s.log ++ [.dispatched call] }

/-- One action of one thread; `lane` gives each client thread its lane. -/
def step (lane : Thread → Stream) (s : Fence Thread Stream) :
    Action Thread Stream → Option (Fence Thread Stream)
  | .take t =>
    if s.client.taken t = none ∧ ∀ b ∈ s.client.builder, b.thread ≠ t then
      some
        { s with
          client :=
            { s.client with
              taken := update s.client.taken t
                (some (s.client.publishedAsyncSequence, s.client.calls))
              calls := s.client.calls + 1 }
          log := s.log ++ [.took s.client.calls] }
    else none
  | .abandon t =>
    some { s with client :=
      { s.client with taken := update s.client.taken t none } }
  | .start t op =>
    match s.client.taken t, s.client.builder with
    | some (dependency, call), none =>
      let requestId := s.client.requestId + 2
      some { s with client :=
        { s.client with
          requestId := requestId
          taken := update s.client.taken t none
          builder := some
            { thread := t, writeId := wrapInt requestId, writeOp := op,
              writeDependency := dependency, writeStreamId := lane t, sequence := none,
              call := call, sent := false } } }
    | _, _ => none
  | .issue t =>
    match s.client.builder with
    | some b =>
      if b.thread = t ∧ b.sequence = none ∧ b.sent = false then
        some { s with client :=
          { s.client with
            issuedAsyncSequence := s.client.issuedAsyncSequence + 1
            builder := some { b with sequence := some s.client.issuedAsyncSequence } } }
      else none
    | none => none
  | .send t =>
    match s.client.builder with
    | some b =>
      if b.thread = t ∧ b.sent = false then
        let l := s.server.lanes b.writeStreamId
        let s' := s.setLane b.writeStreamId { l with frames := l.frames ++ s.client.message b }
        some { s' with client :=
          { s.client with
            asyncPrefixStream := some b.writeStreamId
            asyncPrefix := s.client.currentPrefix b.writeStreamId
            builder := some { b with sent := true } } }
      else none
    | none => none
  | .publish t =>
    match s.client.builder with
    | some b =>
      if b.thread = t ∧ b.sent = true then
        some
          { s with
            client := s.client.publish b
            log := s.log ++ b.sequence.toList.map .published }
      else none
    | none => none
  | .dispatch i =>
    match (s.server.lanes i).phase, (s.server.lanes i).frames with
    | .dispatching, f :: rest =>
      if s.server.closed then some { s with server := s.server.stopLane i }
      else some (s.dispatchFrame i rest f)
    | _, _ => none
  | .wake i =>
    match (s.server.lanes i).phase with
    | .waiting published =>
      if s.server.asyncCancelled then some { s with server := s.server.markClosed.stopLane i }
      else if published ≤ s.server.servingAsyncSequence then
        some (s.setLane i { s.server.lanes i with phase := .dispatching })
      else none
    | _ => none
  | .begin i =>
    match (s.server.lanes i).phase with
    | .handling (some sequence) =>
      if s.server.closed then some { s with server := s.server.stopLane i }
      else some (s.setLane i
        { s.server.lanes i with phase := .executing, executingAsyncSequence := sequence })
    | _ => none
  | .finish i =>
    match (s.server.lanes i).phase with
    | .executing =>
      let l := s.server.lanes i
      let server := s.server.sequenceEnd l.executingAsyncSequence
      some
        { s with
          server := server.setLane i { l with phase := .dispatching }
          log := s.log ++ [.ended l.executingAsyncSequence] }
    | _ => none
  | .respond i =>
    match (s.server.lanes i).phase with
    | .handling none =>
      some (s.setLane i { s.server.lanes i with phase := .dispatching })
    | _ => none
  | .close => some { s with server := s.server.markClosed }

omit [DecidableEq Thread] [DecidableEq Stream] in
/-- An action on the request under construction, once it is taken. -/
theorem exists_builder {s s' : Fence Thread Stream} {p : Builder Thread Stream → Prop}
    [DecidablePred p] {f : Builder Thread Stream → Fence Thread Stream}
    (h : (match s.client.builder with
      | some b => if p b then some (f b) else none
      | none => none) = some s') : ∃ b, s.client.builder = some b ∧ p b ∧ s' = f b := by
  split at h
  · exact ⟨_, by assumption, of_guarded h⟩
  · cases h

end Fence

end Lupine.Rpc
