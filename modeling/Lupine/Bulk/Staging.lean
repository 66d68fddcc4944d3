import Mathlib.Order.Interval.Finset.Nat
import Lupine.Foundations.Execution
import Lupine.Foundations.Heap

/-!
# Staging of bulk copies

The server side of a striped host-to-device copy (`cuda_server_memcpy.cpp`). The chunks of a copy
arrive on several bulk connections and are read into one staging buffer, which an entry of
`lupine_bulk_stagings` owns. The committing request on the caller's lane waits until all bytes of
the buffer have landed, removes the entry and copies the buffer to the device; when a bulk
connection is lost meanwhile, it frees the buffer and fails.

`handle_lupineBulkChunk` holds the mutex twice: to find its place in the buffer, and to count what
it read. In between it writes to a pointer that it keeps. The handlers are cut at these points, and
the reads of a chunk into single bytes.

The fields `claimed` and `covered` are only observed: no action reads them.
-/

namespace Lupine.Bulk

open Foundations Function

/-- A chunk as the handler meets it: the header, and the `bytes` bytes that follow it. -/
structure Chunk where
  copyId : ℕ
  total : ℕ
  offset : ℕ
  payload : List UInt8

/-- The places of a chunk in the copy. -/
def Chunk.range (c : Chunk) : Finset ℕ := Finset.Ico c.offset (c.offset + c.payload.length)

/-- `lupine_bulk_staging`. -/
structure Staging where
  data : Option ℕ
  total : ℕ
  landed : ℕ
  deriving DecidableEq

/-- The thread of a bulk connection in `handle_lupineBulkChunk`. -/
inductive Handler
  | idle
  /-- Between the two critical sections, with the buffer it writes to. -/
  | reading (chunk : Chunk) (data received : ℕ)
  /-- A read failed: the connection is shut down and no request follows. -/
  | stopped

/-- The handler works on this copy. -/
def Handler.On (k : ℕ) : Handler → Prop
  | .reading c _ _ => c.copyId = k
  | _ => False

instance (k : ℕ) : (h : Handler) → Decidable (h.On k)
  | .reading c _ _ => inferInstanceAs (Decidable (c.copyId = k))
  | .idle | .stopped => isFalse id

/-- The request of `handle_lupineMemcpyHtoDBulk` for a copy. -/
inductive Commit
  | unsent
  | waiting (bytes : ℕ) (toHost : Bool)
  /-- The entry is removed; `data` is the buffer if it is complete. -/
  | copying (bytes : ℕ) (toHost : Bool) (data : Option ℕ)
  /-- The response: what was copied, on success. -/
  | ended (copied : Option (List (Option UInt8)))

/-- The entry of the copy has been removed. -/
def Commit.Removed : Commit → Prop
  | .copying .. | .ended _ => True
  | _ => False

instance : (c : Commit) → Decidable c.Removed
  | .copying .. | .ended _ => isTrue trivial
  | .unsent | .waiting .. => isFalse id

/-- The staging buffers of the server and the handlers that use them. -/
structure Server (Lane : Type) where
  stagings : ℕ → Option Staging
  connectionLost : Bool
  heap : Heap UInt8
  handlers : Lane → Handler
  commits : ℕ → Commit
  /-- A chunk handler wrote to a buffer that was freed, or outside its bounds. -/
  invalidWrite : Bool
  /-- The places of the chunks that arrived for a copy. -/
  claimed : ℕ → Finset ℕ
  /-- The places of the chunks that landed. -/
  covered : ℕ → Finset ℕ

/-- A step of a chunk handler, of a commit or of a connection. -/
inductive Action (Lane : Type)
  /-- A chunk handler reads the header and finds its buffer. -/
  | arrive (lane : Lane) (chunk : Chunk)
  /-- `rpc_read` stores the next byte. -/
  | receive (lane : Lane)
  /-- The chunk handler counts the chunk and returns. -/
  | land (lane : Lane)
  /-- The connection fails, and with it a handler that reads from it. -/
  | stop (lane : Lane)
  /-- `lupine_server_bulk_connection_lost`, once the threads of the connection are joined. -/
  | lose (lane : Lane)
  | commit (copyId bytes : ℕ) (toHost : Bool)
  /-- The commit has waited: it removes the entry. -/
  | wake (copyId : ℕ)
  /-- The commit copies the buffer and responds. A copy to the device may fail. -/
  | copy (copyId : ℕ) (succeeds : Bool)

namespace Server

variable {Lane : Type}

def initial : Server Lane where
  stagings := fun _ => none
  connectionLost := false
  heap := .empty
  handlers := fun _ => .idle
  commits := fun _ => .unsent
  invalidWrite := false
  claimed := fun _ => ∅
  covered := fun _ => ∅

/-- `lupine_bulk_stagings[copy_id]`, which inserts an entry where there is none. -/
def staging (s : Server Lane) (k : ℕ) : Staging := (s.stagings k).getD ⟨none, 0, 0⟩

/-- `landed == total` of an entry. -/
def Complete (s : Server Lane) (k : ℕ) : Prop := ∃ st ∈ s.stagings k, st.landed = st.total

instance (s : Server Lane) (k : ℕ) : Decidable (s.Complete k) :=
  decidable_of_iff ((s.stagings k).any fun st => st.landed = st.total) (by
    cases h : s.stagings k <;> simp [Complete, h])

section Lanes

variable [DecidableEq Lane]

section

variable (s : Server Lane) (lane : Lane) (c : Chunk)

/-- The first critical section of `handle_lupineBulkChunk`. -/
def arrive : Server Lane :=
  let st := s.staging c.copyId
  let data := st.data.getD s.heap.next
  { s with
    stagings := update s.stagings c.copyId
      (some (if st.data.isNone then { st with data := some data, total := c.total } else st))
    heap := if st.data.isNone then s.heap.malloc c.total else s.heap
    handlers := update s.handlers lane (.reading c data 0)
    claimed := update s.claimed c.copyId (s.claimed c.copyId ∪ c.range) }

def receive (data received : ℕ) : Server Lane :=
  { s with
    heap := s.heap.write data (c.offset + received) (c.payload.getD received 0)
    handlers := update s.handlers lane (.reading c data (received + 1))
    invalidWrite := s.invalidWrite || !decide (s.heap.Writable data (c.offset + received)) }

/-- The second critical section of `handle_lupineBulkChunk`. -/
def land : Server Lane :=
  let st := s.staging c.copyId
  { s with
    stagings := update s.stagings c.copyId
      (some { st with landed := st.landed + c.payload.length })
    handlers := update s.handlers lane .idle
    covered := update s.covered c.copyId (s.covered c.copyId ∪ c.range) }

/-- The critical section of `handle_lupineMemcpyHtoDBulk`, after the wait. -/
def remove (k bytes : ℕ) (toHost : Bool) : Server Lane :=
  let complete : Bool := s.Complete k
  let data := (s.staging k).data
  { s with
    stagings := update s.stagings k none
    heap := if complete then s.heap else data.elim s.heap s.heap.free
    commits := update s.commits k (.copying bytes toHost (if complete then data else none)) }

/-- The copy out of the buffer and its result. -/
def finish (k bytes : ℕ) (toHost succeeds : Bool) (data : Option ℕ) : Server Lane :=
  let copied := data.bind fun d =>
    if toHost || succeeds then some ((List.range bytes).map (s.heap.blocks d).values) else none
  { s with
    heap := data.elim s.heap s.heap.free
    commits := update s.commits k (.ended copied) }

end

def step (s : Server Lane) : Action Lane → Option (Server Lane)
  | .arrive lane c =>
    match s.handlers lane with
    | .idle => some (s.arrive lane c)
    | _ => none
  | .receive lane =>
    match s.handlers lane with
    | .reading c data received =>
      if received < c.payload.length then some (s.receive lane c data received) else none
    | _ => none
  | .land lane =>
    match s.handlers lane with
    | .reading c _ received => if received = c.payload.length then some (s.land lane c) else none
    | _ => none
  | .stop lane => some { s with handlers := update s.handlers lane .stopped }
  | .lose lane =>
    match s.handlers lane with
    | .stopped => some { s with connectionLost := true }
    | _ => none
  | .commit k bytes toHost =>
    match s.commits k with
    | .unsent => some { s with commits := update s.commits k (.waiting bytes toHost) }
    | _ => none
  | .wake k =>
    match s.commits k with
    | .waiting bytes toHost =>
      if s.connectionLost || s.Complete k then some (s.remove k bytes toHost) else none
    | _ => none
  | .copy k succeeds =>
    match s.commits k with
    | .copying bytes toHost data => some (s.finish k bytes toHost succeeds data)
    | _ => none

end Lanes

end Server

end Lupine.Bulk
