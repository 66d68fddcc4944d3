import Mathlib.Data.Fintype.Card
import Mathlib.Algebra.BigOperators.Fin
import Lupine.Foundations.Execution

/-!
# Pulling bulk copies

A striped device-to-host copy: `lupine_bulk_pull` of the client (`cuda_client_memcpy.cpp`) with
`handle_lupineMemcpyDtoHBulk` and `handle_lupineBulkRead` of the server
(`cuda_server_memcpy.cpp`).

The client sends the committing request on the caller's lane and then asks one reader per bulk
connection. A reader claims chunks from a shared counter, copies each from the device and streams
it back with its offset; an empty frame ends its response. The committing handler waits until all
the readers that the request announced have finished, or, once a bulk connection is lost, all that
have arrived.

The handlers are cut where they release the mutex. What can fail, fails at any time: the context,
the copy of a chunk, a write on a lane, and a connection.
-/

namespace Lupine.Bulk.Pull

open Foundations

/-! ## State -/

/-- A frame of a reader's response. The last one is empty. -/
structure Frame where
  offset : ℕ
  data : List UInt8
  deriving DecidableEq

/-- The thread of the client for one lane. -/
inductive Puller
  | starting
  | receiving
  | done
  | failed
  deriving DecidableEq

/-- The handler of `lupineBulkRead` on one bulk connection. -/
inductive Handler
  | unasked
  /-- The request is on its way. -/
  | requested
  /-- It is counted as arrived, and waits for the committing handler. -/
  | waiting
  /-- In `cuCtxSetCurrent`. -/
  | setting
  /-- It claimed a chunk. -/
  | copying (offset bytes : ℕ)
  /-- It copied and wrote the chunk, or failed to, and takes the mutex again. -/
  | locking (copied written : Bool)
  /-- It is counted as finished, and writes the last frame. -/
  | closing
  | returned
  /-- A write failed: it is counted as finished and shuts the connection down. -/
  | failed
  deriving DecidableEq

/-- Counted in `arrived`. -/
def Handler.arrived : Handler → Bool
  | .unasked | .requested => false
  | _ => true

/-- Counted in `finished`. -/
@[simp] def Handler.finished : Handler → Bool
  | .closing | .returned | .failed => true
  | _ => false

/-- Both ends of a bulk connection. -/
structure Connection where
  puller : Puller
  handler : Handler
  frames : List Frame
  /-- The connection is closed or shut down. -/
  down : Bool
  /-- The server has joined the threads of the connection. -/
  gone : Bool
  deriving DecidableEq

/-- `lupine_bulk_read`, without what is constant. An entry that is not in the table is one with
the default values. -/
structure Read where
  ready : Bool
  total : ℕ
  next : ℕ
  arrived : ℕ
  finished : ℕ
  /-- `result == CUDA_SUCCESS`. -/
  success : Bool
  deriving DecidableEq

/-- An entry that was just inserted. -/
def Read.fresh : Read := ⟨false, 0, 0, 0, 0, true⟩

/-- `handle_lupineMemcpyDtoHBulk`. -/
inductive Commit
  | unsent
  | requested
  | waiting
  | ended (success : Bool)
  deriving DecidableEq

/-- `lupine_bulk_pull`. -/
inductive Call
  | unstarted
  | pulling
  /-- The pullers are joined, and the response is awaited. -/
  | responding (received : Bool)
  | returned (success : Bool)
  deriving DecidableEq

end Pull

/-- One pull: the caller, its commit, the readers on the lanes, and the destination. -/
structure Pull (Lane : Type) where
  call : Pull.Call
  commit : Pull.Commit
  read : Pull.Read
  connectionLost : Bool
  lanes : Lane → Pull.Connection
  destination : ℕ → Option UInt8

namespace Pull

/-- A step of the caller, of a reader or of a connection. -/
inductive Action (Lane : Type)
  /-- `lupine_bulk_pull` sends the committing request. -/
  | start (written : Bool)
  | request (lane : Lane) (written : Bool)
  | deliver (lane : Lane)
  /-- The reader has waited. -/
  | wake (lane : Lane)
  | setContext (lane : Lane) (succeeds : Bool)
  /-- The reader copies its chunk and writes it. -/
  | copy (lane : Lane) (copied written : Bool)
  | lock (lane : Lane)
  | close (lane : Lane) (written : Bool)
  | drop (lane : Lane)
  /-- `lupine_server_bulk_connection_lost`, once the threads of the connection are joined. -/
  | lose (lane : Lane)
  | commit (context : Bool)
  /-- The committing handler has waited. -/
  | finish
  | receive (lane : Lane)
  /-- A puller cannot read any more. -/
  | abort (lane : Lane)
  /-- The pullers are joined; `noted` is the result of `rpc_note_host_allocation_write`. -/
  | join (noted : Bool)
  | respond
  deriving DecidableEq

variable {Lane : Type}

/-- Before the call. -/
def initial : Pull Lane where
  call := .unstarted
  commit := .unsent
  read := .fresh
  connectionLost := false
  lanes := fun _ => ⟨.starting, .unasked, [], false, false⟩
  destination := fun _ => none

section Lanes

variable [DecidableEq Lane]

section

variable (s : Pull Lane) (i : Lane) (l : Connection)

/-- Both ends of a connection change. -/
def setLane : Pull Lane :=
  { s with lanes := Function.update s.lanes i l }

/-- A reader takes the next chunk. -/
def claim (chunkBytes : ℕ) (i : Lane) : Pull Lane :=
  let bytes := min chunkBytes (s.read.total - s.read.next)
  { s.setLane i { s.lanes i with handler := .copying s.read.next bytes } with
    read := { s.read with next := s.read.next + bytes } }

/-- A reader counts itself as finished. -/
def leave : Pull Lane :=
  { s.setLane i l with read := { s.read with finished := s.read.finished + 1 } }

/-- The condition of the loop of a reader. -/
def advance (chunkBytes : ℕ) (i : Lane) : Pull Lane :=
  if s.read.ready = true ∧ s.connectionLost = false ∧ s.read.success = true ∧
      s.read.next < s.read.total then s.claim chunkBytes i
  else s.leave i { s.lanes i with handler := .closing }

/-- What a reader found out about the result. -/
def note (succeeds : Bool) : Pull Lane :=
  { s with read := { s.read with success := s.read.success && succeeds } }

end

/-- A chunk of the device memory. -/
def frame (device : List UInt8) (offset bytes : ℕ) : Frame :=
  ⟨offset, (device.drop offset).take bytes⟩

/-- The puller reads a frame into its place. -/
def store (destination : ℕ → Option UInt8) (f : Frame) : ℕ → Option UInt8 := fun p =>
  if f.offset ≤ p ∧ p < f.offset + f.data.length then f.data[p - f.offset]? else destination p

variable [Fintype Lane] (chunkBytes : ℕ) (device : List UInt8)

/-- One action of one thread. `device` is what the copy is to transfer. -/
def step (s : Pull Lane) : Action Lane → Option (Pull Lane)
  | .start written =>
    if s.call = .unstarted then
      some (if written then { s with call := .pulling, commit := .requested }
        else { s with call := .returned false })
    else none
  | .request i written =>
    let l := s.lanes i
    if s.call = .pulling ∧ l.puller = .starting then
      some (if written then s.setLane i { l with puller := .receiving, handler := .requested }
        else s.setLane i { l with puller := .failed })
    else none
  | .deliver i =>
    let l := s.lanes i
    if l.handler = .requested ∧ l.gone = false then
      some { s.setLane i { l with handler := .waiting } with
        read := { s.read with arrived := s.read.arrived + 1 } }
    else none
  | .wake i =>
    let l := s.lanes i
    if l.handler = .waiting ∧ (s.read.ready = true ∨ s.connectionLost = true) then
      some (if s.read.ready = true ∧ s.read.success = true then
          s.setLane i { l with handler := .setting }
        else s.advance chunkBytes i)
    else none
  | .setContext i succeeds =>
    if (s.lanes i).handler = .setting then some ((s.note succeeds).advance chunkBytes i) else none
  | .copy i copied written =>
    let l := s.lanes i
    match l.handler with
    | .copying offset bytes =>
      some (s.setLane i { l with
        handler := .locking copied (!copied || written)
        frames := if copied && written then l.frames ++ [frame device offset bytes]
          else l.frames })
    | _ => none
  | .lock i =>
    let l := s.lanes i
    match l.handler with
    | .locking copied written =>
      some (if written then (s.note copied).advance chunkBytes i
        else (s.note copied).leave i { l with handler := .failed, down := true })
    | _ => none
  | .close i written =>
    let l := s.lanes i
    if l.handler = .closing then
      some (if written then s.setLane i { l with
          handler := .returned, frames := l.frames ++ [⟨0, []⟩] }
        else s.setLane i { l with handler := .failed, down := true })
    else none
  | .drop i =>
    let l := s.lanes i
    if l.down = false then some (s.setLane i { l with down := true }) else none
  | .lose i =>
    let l := s.lanes i
    if l.down = true ∧ l.gone = false ∧ (l.handler.arrived = false ∨ l.handler = .returned ∨
        l.handler = .failed) then
      some { s.setLane i { l with gone := true } with connectionLost := true }
    else none
  | .commit context =>
    if s.commit = .requested then
      some { s with
        commit := .waiting
        read := { s.read with ready := true, total := device.length, success := context } }
    else none
  | .finish =>
    if s.commit = .waiting ∧ (s.read.finished = Fintype.card Lane ∨
        (s.connectionLost = true ∧ s.read.finished = s.read.arrived)) then
      some { s with
        commit := .ended (s.read.success && decide (s.read.total ≤ s.read.next))
        read := .fresh }
    else none
  | .receive i =>
    let l := s.lanes i
    match l.puller, l.frames with
    | .receiving, f :: rest =>
      some (if f.data = [] then s.setLane i { l with puller := .done, frames := rest }
        else { s.setLane i { l with frames := rest } with
          destination := store s.destination f })
    | _, _ => none
  | .abort i =>
    let l := s.lanes i
    if l.puller = .receiving ∧ l.down = true then some (s.setLane i { l with puller := .failed })
    else none
  | .join noted =>
    if s.call = .pulling ∧ ∀ i, (s.lanes i).puller = .done ∨ (s.lanes i).puller = .failed then
      some { s with call := .responding (decide (∀ i, (s.lanes i).puller = .done) && noted) }
    else none
  | .respond =>
    match s.call, s.commit with
    | .responding received, .ended success =>
      some { s with call := .returned (success && received) }
    | _, _ => none

end Lanes

end Pull

end Lupine.Bulk
