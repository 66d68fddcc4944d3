import Lupine.Deferred.Ordering

/-!
# The threads that deliver deferred copies

The registry under concurrent use. The lanes of a connection and the threads that run callbacks
are workers. A worker enqueues a copy with the driver and then puts its item into the registry; it
makes a synchronizing driver call, or waits as a callback for the work before it, and when that
returns it detaches items, writes their bytes to the connection and releases their storage, while
the client receives the bytes and applies them. Between any two of these steps other workers act,
and the device executes copies.

`home`, `storage` and `retained` are tables about the copies that are only observed, like the
order of the work. A driver call returns once the copies ordered before it have been executed;
in which order the device executes the others is left open.
-/

namespace Lupine.Deferred

open Foundations Function

variable {Worker Stream Event Context Resource Exec : Type}

/-- `lupine_dtoh_storage`; a borrowed buffer belongs to the application's allocation or to the
resources of a graph. -/
inductive Storage (Resource : Type)
  | owned
  | borrowed
  | graph (resources : Resource)
  deriving DecidableEq

/-- What a worker synchronizes with. -/
inductive Scope (Stream Event Context Resource : Type)
  | stream (target : Target Stream Context)
  | event (event : Event)
  | context (context : Context)
  /-- `lupine_stream_callback`. -/
  | streamCallback (target : Target Stream Context)
  /-- `lupine_graph_host_callback` of `cuLaunchHostFunc`. -/
  | hostFunction (target : Target Stream Context) (resources : Resource)
  /-- `lupine_graph_host_callback` of a host node. -/
  | graphHostNode (resources : Resource)

/-- A synchronizing call, not a callback. -/
def Scope.isCall : Scope Stream Event Context Resource → Bool
  | .stream _ | .event _ | .context _ => true
  | _ => false

/-- The graph resources whose staging memory is sent. -/
def Scope.snapshot : Scope Stream Event Context Resource → Option Resource
  | .hostFunction _ resources | .graphHostNode resources => some resources
  | _ => none

/-- What a worker is doing. -/
inductive Phase (Stream Event Context Resource : Type)
  | idle
  /-- The driver has the copy, the registry not yet. -/
  | copying (target : Target Stream Context) (id : ℕ)
  | launching (target : Target Stream Context) (resources : Resource) (ids : List ℕ)
  | recording (event : Event) (target : Target Stream Context)
  /-- In the driver call, or queued as a callback, behind the copies `waits`. -/
  | waiting (scope : Scope Stream Event Context Resource) (waits : Set ℕ)
  | returned (scope : Scope Stream Event Context Resource) (waits : Set ℕ)
  | holding (ids : List ℕ)
  /-- The bytes are written; the storage is to be released. -/
  | written (ids : List ℕ)

namespace Phase

/-- Copies on their way into the registry. -/
def staged : Phase Stream Event Context Resource → List ℕ
  | copying _ id => [id]
  | launching _ _ ids => ids
  | _ => []

/-- Detached copies that have not been written. -/
def held : Phase Stream Event Context Resource → List ℕ
  | holding ids => ids
  | _ => []

/-- Written copies whose storage has not been released. -/
def owed : Phase Stream Event Context Resource → List ℕ
  | written ids => ids
  | _ => []

end Phase

/-- The server of one connection and its client. -/
structure Pipeline (Worker Stream Event Context Resource : Type) where
  registry : Registry Stream Event Context Resource
  order : Order Stream Event Context
  next : ℕ
  home : ℕ → Option (Target Stream Context)
  storage : ℕ → Storage Resource
  /-- The copies that the staging memory of a graph is for. Before the first launch it is for
  none, though it may have the place for some. -/
  lastLaunch : Resource → List ℕ
  executed : List ℕ
  phase : Worker → Phase Stream Event Context Resource
  /-- Written, and not applied by the client yet. -/
  inFlight : Worker → List ℕ
  /-- Applied by the client, in this order. -/
  delivered : List ℕ
  released : List ℕ
  /-- `lupine_graph_resources::owners`. -/
  owners : Resource → ℕ
  /-- The pending copies that own the resources. -/
  retained : Resource → List ℕ
  /-- The resources whose staging memory has been given up. -/
  retired : List Resource

namespace Pipeline

/-- `owners` counts the graphs and executable graphs. -/
def init (owners : Resource → ℕ) : Pipeline Worker Stream Event Context Resource where
  registry := .empty
  order := ⟨fun _ => ∅, fun _ => ∅⟩
  next := 0
  home := fun _ => none
  storage := fun _ => .borrowed
  lastLaunch := fun _ => []
  executed := []
  phase := fun _ => .idle
  inFlight := fun _ => []
  delivered := []
  released := []
  owners := owners
  retained := fun _ => []
  retired := []

section Functions

variable [DecidableEq Resource]

/-- Drop one owner of graph resources (`lupine_release_graph_resources`). -/
def dropOwner (resources : Resource) (σ : Pipeline Worker Stream Event Context Resource) :
    Pipeline Worker Stream Event Context Resource :=
  { σ with
    owners := update σ.owners resources (σ.owners resources - 1)
    retired := if σ.owners resources = 1 then σ.retired ++ [resources] else σ.retired }

/-- `lupine_cleanup_pending_dtoh_copies` for one copy. -/
def releaseCopy (σ : Pipeline Worker Stream Event Context Resource) (c : ℕ) :
    Pipeline Worker Stream Event Context Resource :=
  match σ.storage c with
  | .owned => { σ with released := σ.released ++ [c] }
  | .borrowed => σ
  | .graph resources =>
    { σ.dropOwner resources with
      retained := update σ.retained resources ((σ.retained resources).erase c) }

/-- The copies ordered before a synchronizing driver call, or before a callback. -/
def awaited (D : Driver Stream Context) (σ : Pipeline Worker Stream Event Context Resource) :
    Scope Stream Event Context Resource → Set ℕ
  | .stream (.legacy context) => σ.order.reaching D (.legacy context)
  | .stream (.stream s) => σ.order.before (.stream s)
  | .event e => σ.order.eventBefore e
  | .context context => {c | ∃ t, t.context D = context ∧ c ∈ σ.order.before t}
  | .streamCallback t | .hostFunction t _ => σ.order.reaching D t
  | .graphHostNode _ => ∅

variable [DecidableEq Stream] [DecidableEq Event] [DecidableEq Context]

/-- What a worker detaches: the generated handlers of synchronizing calls, `handle_cuEventQuery`
and the callbacks. A host function also sends what is in the staging memory of its graph
resources (`lupine_graph_dtoh_copy_snapshot`). -/
def detached (D : Driver Stream Context) (σ : Pipeline Worker Stream Event Context Resource) :
    Scope Stream Event Context Resource → Registry Stream Event Context Resource × List ℕ
  | .stream t => σ.registry.detach t.key (t.key = none) (some (t.context D))
  | .event e => σ.registry.detachEvent e
  | .context context => σ.registry.detach none true (some context)
  | .streamCallback t => σ.registry.detach t.key false none
  | .hostFunction t resources =>
    ((σ.registry.detach t.key false none).1,
      σ.lastLaunch resources ++ (σ.registry.detach t.key false none).2)
  | .graphHostNode resources => (σ.registry, σ.lastLaunch resources)

end Functions

/-! ## Steps -/

/-- A step of a worker, of the device or of the client. -/
inductive Action (Worker Stream Event Context Resource Exec : Type)
  | enqueue (worker : Worker) (target : Target Stream Context) (pinned : Bool)
  | register (worker : Worker)
  | launch (worker : Worker) (exec : Exec) (target : Target Stream Context)
  | noteLaunch (worker : Worker)
  | record (worker : Worker) (event : Event) (target : Target Stream Context)
  | noteRecord (worker : Worker)
  | waitEvent (worker : Worker) (target : Target Stream Context) (event : Event)
  | execute (id : ℕ)
  | call (worker : Worker) (scope : Scope Stream Event Context Resource)
  | streamCallback (worker : Worker) (target : Target Stream Context)
  | hostFunction (worker : Worker) (target : Target Stream Context) (fresh : Resource)
  | graphHostNode (worker : Worker) (resources : Resource)
  | resume (worker : Worker)
  | detach (worker : Worker)
  | write (worker : Worker)
  | receive (worker : Worker)
  | cleanup (worker : Worker)
  | drop (resources : Resource)

variable [DecidableEq Worker] [DecidableEq Stream] [DecidableEq Event] [DecidableEq Context]
  [DecidableEq Resource]

/-- One step of a worker, of the device or of the client. -/
inductive Step (D : Driver Stream Context) (G : Graphs Exec Resource)
    (σ : Pipeline Worker Stream Event Context Resource) :
    Action Worker Stream Event Context Resource Exec →
      Pipeline Worker Stream Event Context Resource → Prop
  /-- `cuMemcpyDtoHAsync` of the driver, into staging or into a pinned destination. -/
  | enqueue {w t pinned} : σ.phase w = .idle →
      Step D G σ (.enqueue w t pinned) { σ with
        order := σ.order.issue D t {σ.next}
        home := update σ.home σ.next (some t)
        storage := update σ.storage σ.next (if pinned then .borrowed else .owned)
        next := σ.next + 1
        phase := update σ.phase w (.copying t σ.next) }
  | register {w t c} : σ.phase w = .copying t c →
      Step D G σ (.register w) { σ with
        registry := σ.registry.push t.key [.copy c (t.context D) none]
        phase := update σ.phase w .idle }
  /-- `cuGraphLaunch` of the driver; an executable graph owns its resources. -/
  | launch {w x t resources} : σ.phase w = .idle → G.resources x = some resources →
      (σ.retained resources).length < σ.owners resources →
      Step D G σ (.launch w x t) { σ with
        order := σ.order.issue D t {c | c ∈ List.range' σ.next (G.copies resources)}
        home := fun c =>
          if c ∈ List.range' σ.next (G.copies resources) then some t else σ.home c
        storage := fun c =>
          if c ∈ List.range' σ.next (G.copies resources) then .graph resources else σ.storage c
        lastLaunch := update σ.lastLaunch resources
          (List.range' σ.next (G.copies resources))
        next := σ.next + G.copies resources
        phase := update σ.phase w
          (.launching t resources (List.range' σ.next (G.copies resources))) }
  /-- A graph without resources has no copies. -/
  | launchPlain {w x t} : σ.phase w = .idle → G.resources x = none →
      Step D G σ (.launch w x t) { σ with order := σ.order.issue D t ∅ }
  | noteLaunch {w t resources ids} : σ.phase w = .launching t resources ids →
      Step D G σ (.noteLaunch w) { σ with
        registry := σ.registry.noteGraphLaunch resources ids t.key (t.context D)
        owners := update σ.owners resources (σ.owners resources + ids.length)
        retained := update σ.retained resources (σ.retained resources ++ ids)
        phase := update σ.phase w .idle }
  | record {w e t} : σ.phase w = .idle →
      Step D G σ (.record w e t) { σ with
        order := σ.order.record D e t
        phase := update σ.phase w (.recording e t) }
  | noteRecord {w e t} : σ.phase w = .recording e t →
      Step D G σ (.noteRecord w) { σ with
        registry := (σ.registry.recordEventResources e t.key).noteEventRecord
          D.marks e t.key (t.context D)
        phase := update σ.phase w .idle }
  | waitEvent {w t e} : σ.phase w = .idle →
      Step D G σ (.waitEvent w t e) { σ with
        registry := σ.registry.waitEventResources t.key e
        order := σ.order.issue D t (σ.order.eventBefore e) }
  | execute {c} : c < σ.next → c ∉ σ.executed →
      Step D G σ (.execute c) { σ with executed := σ.executed ++ [c] }
  /-- A lane makes its next call when the client has received the last response. -/
  | call {w scope} : σ.phase w = .idle → σ.inFlight w = [] →
      scope.isCall →
      Step D G σ (.call w scope) { σ with
        phase := update σ.phase w (.waiting scope (σ.awaited D scope)) }
  | streamCallback {w t} : σ.phase w = .idle → σ.inFlight w = [] →
      Step D G σ (.streamCallback w t) { σ with
        order := σ.order.issue D t ∅
        phase := update σ.phase w
          (.waiting (.streamCallback t) (σ.awaited D (.streamCallback t))) }
  /-- `cuLaunchHostFunc` takes the resources of the stream, or gives it fresh ones. -/
  | hostFunction {w t fresh} : σ.phase w = .idle → σ.inFlight w = [] → G.copies fresh = 0 →
      Step D G σ (.hostFunction w t fresh) { σ with
        registry := (σ.registry.getStreamResources t.key fresh).1
        order := σ.order.issue D t ∅
        phase := update σ.phase w (.waiting
          (.hostFunction t (σ.registry.getStreamResources t.key fresh).2)
          (σ.awaited D (.hostFunction t (σ.registry.getStreamResources t.key fresh).2))) }
  /-- The driver runs a host node of a graph; what comes before it in the graph is not known. -/
  | graphHostNode {w resources} : σ.phase w = .idle → σ.inFlight w = [] →
      Step D G σ (.graphHostNode w resources) { σ with
        phase := update σ.phase w (.waiting (.graphHostNode resources)
          (σ.awaited D (.graphHostNode resources))) }
  | resume {w scope waits} : σ.phase w = .waiting scope waits → (∀ c ∈ waits, c ∈ σ.executed) →
      Step D G σ (.resume w) { σ with
        phase := update σ.phase w (.returned scope waits) }
  | detach {w scope waits} : σ.phase w = .returned scope waits →
      Step D G σ (.detach w) { σ with
        registry := (σ.detached D scope).1
        phase := update σ.phase w (.holding (σ.detached D scope).2) }
  | write {w ids} : σ.phase w = .holding ids →
      Step D G σ (.write w) { σ with
        inFlight := update σ.inFlight w ids
        phase := update σ.phase w (.written ids) }
  | receive {w} :
      Step D G σ (.receive w) { σ with
        delivered := σ.delivered ++ σ.inFlight w
        inFlight := update σ.inFlight w [] }
  | cleanup {w ids} : σ.phase w = .written ids →
      Step D G σ (.cleanup w) { ids.foldl releaseCopy σ with
        phase := update σ.phase w .idle }
  /-- A graph or an executable graph goes. One that is being launched stays. -/
  | drop {resources} : (σ.retained resources).length < σ.owners resources →
      ((∃ w t ids, σ.phase w = .launching t resources ids) →
        (σ.retained resources).length + 1 < σ.owners resources) →
      Step D G σ (.drop resources) (σ.dropOwner resources)

end Pipeline

end Lupine.Deferred
