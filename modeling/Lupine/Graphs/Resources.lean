import Mathlib.Data.Nat.Notation
import Mathlib.Logic.Function.Basic

/-!
# Resources of captured graphs

A captured device-to-host copy writes into staging on the server, and every launch of the graph
delivers that staging to the client. `lupine_graph_resources` keeps the staging of a graph. It
counts its owners: entries of the graph map and of the exec map, copies of launches that were not
delivered, and later captures into the same graph. The maps of streams and events refer to
resources without owning them. When the last owner goes, the staging is retired, and the handlers
that destroy graphs and execs free what is retired.

References are modelled by one map over everything that can hold one; `Holder.hand` is a reference
that a function has taken out of its place. Resources and staging blocks are numbered in the order
of their creation. Two fields record what the source does not: whether resources have had an
owner, and to which resources a staging block was added.

* `Server.releaseLoop` is `lupine_release_graph_resources`.
* `Server.step` has the handlers of `cuda_server.cpp` that capture, clone, instantiate, update,
  launch, deliver and destroy.
-/

namespace Lupine.Graphs

open Function

/-- What can hold a reference. -/
inductive Holder
  /-- An entry of `lupine_graph_resource_map`. -/
  | graph (g : ℕ)
  /-- An entry of `lupine_graph_exec_resource_map`. -/
  | exec (e : ℕ)
  /-- A copy of a launch, in `lupine_pending_dtoh_copies`. -/
  | launch (copy : ℕ)
  /-- `lupine_graph_resources::earlier`. -/
  | earlier (o : ℕ)
  /-- A local variable. -/
  | hand
  deriving DecidableEq, Repr

/-- `lupine_graph_resources`. -/
structure Resources where
  /-- An atomic `int`; fewer than `2 ^ 31` owners are assumed. -/
  owners : ℕ
  /-- `dtoh_copies`, the newest first. -/
  staging : List ℕ
  /-- There has been an owner. -/
  owned : Bool
  deriving DecidableEq, Repr

/-- The resources, who holds them, and the maps of the capture. -/
structure Server where
  resources : ℕ → Resources
  next : ℕ
  refs : Holder → Option ℕ
  /-- `lupine_stream_capture_resource_map`. -/
  streams : ℕ → Option ℕ
  /-- `lupine_active_stream_capture_resource_map`. -/
  activeStreams : ℕ → Option ℕ
  /-- `lupine_event_capture_resource_map`. -/
  events : ℕ → Option ℕ
  /-- `lupine_active_event_capture_resource_map`. -/
  activeEvents : ℕ → Option ℕ
  /-- The number of copies that launches have noted. -/
  launches : ℕ
  /-- The staging that a copy of a launch delivers. -/
  stagingOf : ℕ → ℕ
  allocated : ℕ
  /-- The resources that a staging block was added to. -/
  home : ℕ → ℕ
  /-- `lupine_retired_dtoh_copies`. -/
  retired : List ℕ
  freed : List ℕ

namespace Server

def initial : Server where
  resources _ := ⟨0, [], false⟩
  next := 0
  refs _ := none
  streams _ := none
  activeStreams _ := none
  events _ := none
  activeEvents _ := none
  launches := 0
  stagingOf _ := 0
  allocated := 0
  home _ := 0
  retired := []
  freed := []

/-! ## References -/

/-- `new lupine_graph_resources`: the next number, whose fields are those of new resources. -/
def create (s : Server) : Server := { s with next := s.next + 1 }

section

variable (s : Server) (k : Holder) (o : ℕ)

/-- `lupine_retain_graph_resources`, and the new reference is stored. -/
def retain : Server :=
  { s with
    resources := update s.resources o
      { s.resources o with owners := (s.resources o).owners + 1, owned := true }
    refs := update s.refs k (some o) }

/-- A reference goes from one place to another, as by `lupine_take_graph_resources`. -/
def move (k j : Holder) : Server :=
  { s with refs := update (update s.refs k none) j (s.refs k) }

/-- `lupine_retire_graph_staging`. -/
def retire : Server :=
  { s with
    resources := update s.resources o { s.resources o with staging := [] }
    retired := (s.resources o).staging ++ s.retired }

/-- The reference in hand is given up. -/
def drop : Server :=
  { s with
    resources := update s.resources o
      { s.resources o with owners := (s.resources o).owners - 1 }
    refs := update s.refs .hand none }

/-- The last owner gives up the resources: their staging is retired, and their own reference to
earlier resources is taken in hand. -/
def expire : Server := ((s.drop o).retire o).move (.earlier o) .hand

end

/-- `lupine_release_graph_resources` of the reference in hand. -/
def releaseLoop : ℕ → Server → Server
  | 0, s => s
  | fuel + 1, s =>
    match s.refs .hand with
    | none => s
    | some o =>
      if (s.resources o).owners = 1 then releaseLoop fuel (s.expire o) else s.drop o

section

variable (s : Server)

/-- Release the reference in hand; the links to earlier resources are fewer than `next`. -/
def release : Server := releaseLoop (s.next + 1) s

/-- `lupine_free_retired_graph_staging`. -/
def freeRetired : Server :=
  { s with freed := s.retired ++ s.freed, retired := [] }

/-! ### What the operations on references change -/

section

variable (k : Holder) (o x : ℕ)

@[simp] theorem retain_owners :
    ((s.retain k o).resources x).owners = (s.resources x).owners + if x = o then 1 else 0 := by
  rcases eq_or_ne x o with rfl | hx <;> simp [retain, *]

@[simp] theorem retain_staging :
    ((s.retain k o).resources x).staging = (s.resources x).staging := by
  rcases eq_or_ne x o with rfl | hx <;> simp [retain, *]

@[simp] theorem retain_owned :
    ((s.retain k o).resources x).owned = true ↔ x = o ∨ (s.resources x).owned = true := by
  rcases eq_or_ne x o with rfl | hx <;> simp [retain, *]

@[simp] theorem drop_owners :
    ((s.drop o).resources x).owners = (s.resources x).owners - if x = o then 1 else 0 := by
  rcases eq_or_ne x o with rfl | hx <;> simp [drop, *]

@[simp] theorem drop_staging : ((s.drop o).resources x).staging = (s.resources x).staging := by
  rcases eq_or_ne x o with rfl | hx <;> simp [drop, *]

@[simp] theorem drop_owned : ((s.drop o).resources x).owned = (s.resources x).owned := by
  rcases eq_or_ne x o with rfl | hx <;> simp [drop, *]

@[simp] theorem retire_owners : ((s.retire o).resources x).owners = (s.resources x).owners := by
  rcases eq_or_ne x o with rfl | hx <;> simp [retire, *]

@[simp] theorem retire_staging :
    ((s.retire o).resources x).staging = if x = o then [] else (s.resources x).staging := by
  rcases eq_or_ne x o with rfl | hx <;> simp [retire, *]

@[simp] theorem retire_owned : ((s.retire o).resources x).owned = (s.resources x).owned := by
  rcases eq_or_ne x o with rfl | hx <;> simp [retire, *]

@[simp] theorem retain_refs_self (o : ℕ) : (s.retain k o).refs k = some o :=
  update_self ..

end

theorem retain_refs_of_ne {k i : Holder} (o : ℕ) (h : i ≠ k) : (s.retain k o).refs i = s.refs i :=
  update_of_ne h _ _

theorem drop_refs (o : ℕ) (i : Holder) :
    (s.drop o).refs i = if i = .hand then none else s.refs i := by
  simp [drop, update_apply]

theorem move_refs (k j i : Holder) :
    (s.move k j).refs i = if i = j then s.refs k else if i = k then none else s.refs i := by
  simp [move, update_apply]

theorem expire_refs (o : ℕ) (i : Holder) :
    (s.expire o).refs i =
      if i = .hand then s.refs (.earlier o) else if i = .earlier o then none else s.refs i := by
  by_cases hi : i = .hand <;> simp [expire, move_refs, retire, drop, hi]

/-! ## Captures -/

/-- `lupine_erase_capture_resources`. -/
def eraseResources (map : ℕ → Option ℕ) (o : ℕ) : ℕ → Option ℕ :=
  fun k => if map k = some o then none else map k

/-- `lupine_begin_stream_capture_resources`. -/
def beginCapture (stream : ℕ) : Server :=
  { s.create with
    streams := update s.streams stream (some s.next)
    activeStreams := update s.activeStreams stream (some s.next) }

/-- `lupine_discard_stream_capture_resources`. -/
def discardCapture (o : ℕ) : Server :=
  { s with
    activeStreams := eraseResources s.activeStreams o
    streams := eraseResources s.streams o }

/-- The first half of `lupine_finish_stream_capture_resources`. -/
def endCapture (o : ℕ) : Server :=
  { s with
    activeStreams := eraseResources s.activeStreams o
    activeEvents := eraseResources s.activeEvents o
    streams := eraseResources s.streams o }

/-- `lupine_finish_stream_capture_resources`. -/
def finishCapture (stream graph : ℕ) (success : Bool) : Server :=
  match s.activeStreams stream with
  | none => s
  | some o =>
    if success then ((s.endCapture o).move (.graph graph) (.earlier o)).retain (.graph graph) o
    else (s.endCapture o).retire o

/-- `lupine_record_event_capture_resources`. -/
def recordEvent (event stream : ℕ) : Server :=
  { s with
    events := update s.events event (s.streams stream)
    activeEvents := update s.activeEvents event (s.activeStreams stream) }

/-- `lupine_forget_event_capture_resources`. -/
def forgetEvent (event : ℕ) : Server :=
  { s with
    events := update s.events event none
    activeEvents := update s.activeEvents event none }

/-- `lupine_wait_event_capture_resources`; `insert` keeps an entry that exists. -/
def waitEvent (stream event : ℕ) : Server :=
  { s with
    streams := update s.streams stream ((s.events event).or (s.streams stream))
    activeStreams := update s.activeStreams stream
      ((s.activeStreams stream).or (s.activeEvents event)) }

/-! ## Copies and graphs -/

/-- `lupine_graph_resources::add_dtoh_copy` with a new staging block. -/
def addCopy (o : ℕ) : Server :=
  { s with
    resources := update s.resources o
      { s.resources o with staging := s.allocated :: (s.resources o).staging }
    allocated := s.allocated + 1
    home := update s.home s.allocated o }

@[simp] theorem addCopy_owners (o x : ℕ) :
    ((s.addCopy o).resources x).owners = (s.resources x).owners := by
  rcases eq_or_ne x o with rfl | hx <;> simp [addCopy, *]

@[simp] theorem addCopy_staging (o x : ℕ) :
    ((s.addCopy o).resources x).staging =
      if x = o then s.allocated :: (s.resources x).staging else (s.resources x).staging := by
  rcases eq_or_ne x o with rfl | hx <;> simp [addCopy, *]

@[simp] theorem addCopy_owned (o x : ℕ) :
    ((s.addCopy o).resources x).owned = (s.resources x).owned := by
  rcases eq_or_ne x o with rfl | hx <;> simp [addCopy, *]

/-- `lupine_get_graph_resources`: the state and the resources. -/
def getGraphResources (graph : ℕ) : Server × ℕ :=
  match s.refs (.graph graph) with
  | some o => (s, o)
  | none => (s.create.retain (.graph graph) s.next, s.next)

/-- `lupine_get_stream_resources`. -/
def getStreamResources (stream : ℕ) : Server × ℕ :=
  match s.streams stream with
  | some o => (s, o)
  | none =>
    ({ s.create with streams := update s.streams stream (some s.next) }, s.next)

/-- `lupine_clone_graph_resources`. -/
def cloneGraph (clone original : ℕ) : Server :=
  match s.refs (.graph original) with
  | some o => s.retain (.graph clone) o
  | none => s

/-- `lupine_associate_graph_exec_resources` with the resources of the graph. -/
def associateExec (exec graph : ℕ) : Server :=
  match s.refs (.graph graph) with
  | some o => s.retain (.exec exec) o
  | none => s

/-- `lupine_rebind_graph_exec_resources`. The new reference is counted before the previous one is
taken, and that one is released after the new one is stored. -/
def rebindExec (exec graph : ℕ) : Server :=
  let taken := s.move (.exec exec) .hand
  match s.refs (.graph graph) with
  | some o => (taken.retain (.exec exec) o).release.freeRetired
  | none => taken.release.freeRetired

/-- `lupine_graph_resources::dtoh_copy_snapshot`. -/
def snapshot (s : Server) : ℕ → ℕ → List ℕ
  | 0, _ => []
  | fuel + 1, o =>
    (match s.refs (.earlier o) with
      | none => []
      | some e => snapshot s fuel e) ++ (s.resources o).staging.reverse

/-- A copy of a launch of the resources. -/
def noteCopy (o : ℕ) (s : Server) (staging : ℕ) : Server :=
  { s.retain (.launch s.launches) o with
    launches := s.launches + 1
    stagingOf := update s.stagingOf s.launches staging }

/-- `lupine_note_graph_launch` after a launch that succeeded. -/
def noteLaunch (exec stream : ℕ) : Server :=
  match s.refs (.exec exec) with
  | none => s
  | some o =>
    let noted := (s.snapshot (s.next + 1) o).foldl (noteCopy o) s
    { noted with streams := update noted.streams stream (some o) }

/-! ## Steps -/

/-- What the handlers do. Calls that the driver refuses change nothing, except where the outcome
is an argument. -/
inductive Action
  | beginCapture (stream : ℕ) (ok : Bool)
  | finishCapture (stream graph : ℕ) (success : Bool)
  | recordEvent (event stream : ℕ)
  | forgetEvent (event : ℕ)
  | waitEvent (stream event : ℕ)
  /-- A device-to-host copy on a stream that captures; `ok` when it could be staged and queued. A
  host function on a stream only looks the resources up, as a copy that fails does. -/
  | captureCopy (stream : ℕ) (ok : Bool)
  /-- A device-to-host copy that is added to a graph as a node. -/
  | memcpyNode (graph : ℕ)
  /-- A host function, or a copy without staging, that is added to a graph as a node. -/
  | hostNode (graph : ℕ)
  | clone (clone original : ℕ)
  | instantiate (exec graph : ℕ)
  | update (exec graph : ℕ)
  | launch (exec stream : ℕ)
  /-- The bytes of a copy of a launch have been written to the client. -/
  | deliver (copy : ℕ)
  | destroyGraph (graph : ℕ)
  /-- `drained` when the work of the exec could be waited for. -/
  | destroyExec (exec : ℕ) (drained : Bool)
  deriving DecidableEq, Repr

/-- One step. A copy that is not there cannot be delivered. -/
def step : Action → Option Server
  | .beginCapture stream ok =>
    some (if ok then s.beginCapture stream else (s.beginCapture stream).discardCapture s.next)
  | .finishCapture stream graph success => some (s.finishCapture stream graph success)
  | .recordEvent event stream => some (s.recordEvent event stream)
  | .forgetEvent event => some (s.forgetEvent event)
  | .waitEvent stream event => some (s.waitEvent stream event)
  | .captureCopy stream ok =>
    let r := s.getStreamResources stream
    some (if ok then r.1.addCopy r.2 else r.1)
  | .memcpyNode graph =>
    let r := s.getGraphResources graph
    some (r.1.addCopy r.2)
  | .hostNode graph => some (s.getGraphResources graph).1
  | .clone clone original => some (s.cloneGraph clone original)
  | .instantiate exec graph => some (s.associateExec exec graph)
  | .update exec graph => some (s.rebindExec exec graph)
  | .launch exec stream => some (s.noteLaunch exec stream)
  | .deliver copy =>
    if (s.refs (.launch copy)).isSome then some (s.move (.launch copy) .hand).release else none
  | .destroyGraph graph => some ((s.move (.graph graph) .hand).release.freeRetired)
  | .destroyExec exec drained =>
    some (if drained then (s.move (.exec exec) .hand).release.freeRetired else s)

end

end Server

end Lupine.Graphs
