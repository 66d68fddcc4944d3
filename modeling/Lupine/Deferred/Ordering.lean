import Mathlib.Data.Set.Basic
import Lupine.Foundations.Execution
import Lupine.Deferred.Registry

/-!
# The order of the work in streams

`Order` is the order that CUDA gives to the work of one connection: the copies ordered before the
work of each stream and before each recorded event, by the order of the streams, the waits on events
and the implicit ordering of the default stream.
-/

namespace Lupine.Deferred

open Foundations Function Registry List

/-- How a stream is ordered with the default stream: `CU_STREAM_PER_THREAD` is a blocking one
that the registry does not treat as such, and `CU_STREAM_LEGACY` is the default stream, by a handle
that the registry takes for another stream. -/
inductive Kind
  | blocking
  | nonBlocking
  | perThread
  /-- `flags`: `cuStreamGetFlags` answers for the handle. -/
  | legacy (flags : Bool)
  deriving DecidableEq

/-- What the driver knows about the streams. Each handle is used in one context. -/
structure Driver (Stream Context : Type) where
  context : Stream → Context
  kind : Stream → Kind

/-- `lupine_note_event_record` marks an event of the default stream in the queue of the stream. -/
def Driver.marks {Stream Context : Type} (D : Driver Stream Context) (s : Stream) : Bool :=
  D.kind s = .blocking || D.kind s = .legacy true

/-- The graph resources of executable graphs, and the number of their copies. -/
structure Graphs (Exec Resource : Type) where
  resources : Exec → Option Resource
  copies : Resource → ℕ

/-- Where a call puts its work: the default stream of a context, by the null handle, or a stream. -/
inductive Target (Stream Context : Type)
  | legacy (context : Context)
  | stream (stream : Stream)
  deriving DecidableEq

namespace Target

variable {Stream Context : Type}

/-- The key of the queue; the default streams of all contexts share one. -/
def key : Target Stream Context → Option Stream
  | legacy _ => none
  | stream s => some s

/-- `cuStreamGetCtx`. -/
def context (D : Driver Stream Context) : Target Stream Context → Context
  | legacy context => context
  | stream s => D.context s

end Target

variable {Stream Event Context Resource Exec : Type}

/-! ## The order of the work -/

/-- The copies ordered before the work of each stream, and before each recorded event. -/
structure Order (Stream Event Context : Type) where
  before : Target Stream Context → Set ℕ
  eventBefore : Event → Set ℕ

namespace Order

/-- What the default stream adds to the order of new work. -/
def implicit (D : Driver Stream Context) (o : Order Stream Event Context) :
    Target Stream Context → Set ℕ
  | .legacy context =>
    {c | ∃ s, D.kind s ≠ .nonBlocking ∧ D.context s = context ∧ c ∈ o.before (.stream s)}
  | .stream s => {c | D.kind s ≠ .nonBlocking ∧ c ∈ o.before (.legacy (D.context s))}

/-- The copies ordered before work that is put into a stream now. -/
def reaching (D : Driver Stream Context) (o : Order Stream Event Context)
    (t : Target Stream Context) : Set ℕ :=
  o.before t ∪ o.implicit D t

variable [DecidableEq Stream] [DecidableEq Context]

/-- New work in a stream, after which the copies in `new` are ordered before the next work. -/
def issue (D : Driver Stream Context) (o : Order Stream Event Context)
    (t : Target Stream Context) (new : Set ℕ) : Order Stream Event Context :=
  { o with before := update o.before t (o.reaching D t ∪ new) }

def record [DecidableEq Event] (D : Driver Stream Context) (o : Order Stream Event Context)
    (e : Event) (t : Target Stream Context) : Order Stream Event Context :=
  { o.issue D t ∅ with eventBefore := update o.eventBefore e (o.reaching D t) }

end Order

end Lupine.Deferred
