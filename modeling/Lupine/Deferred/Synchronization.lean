import Mathlib.Data.Set.Basic
import Lupine.Foundations.Execution
import Lupine.Deferred.Ordering
import Lupine.Deferred.Pending

/-!
# Deferred copies at synchronizations

A program of deferred copies, event records, waits, graph launches and synchronizations of one
connection, against the order that CUDA gives them. The registry knows only queues and markers.

* `delivered_at_synchronize`: in a run whose calls are orderly, what a synchronizing call returns
  with includes every copy ordered before it.
* `undelivered_at_synchronize`: a copy that another stream inherits through an event, or from the
  default stream, is not delivered when that stream is synchronized; `CU_STREAM_LEGACY` does not
  name the copies of the null handle.
-/

namespace Lupine.Deferred

open Foundations Function Registry List

variable {Stream Event Context Resource Exec : Type}

namespace Target

/-- The stream that the handle stands for. -/
def place (D : Driver Stream Context) : Target Stream Context → Target Stream Context
  | legacy context => legacy context
  | stream s =>
    match D.kind s with
    | .legacy _ => legacy (D.context s)
    | _ => stream s

variable {D : Driver Stream Context} {t : Target Stream Context} {s : Stream}

@[simp] theorem context_place : (t.place D).context D = t.context D := by
  cases t with
  | legacy => rfl
  | stream s => cases h : D.kind s <;> simp [place, h, context]

@[simp] theorem place_place : (t.place D).place D = t.place D := by
  cases t with
  | legacy => rfl
  | stream s => cases h : D.kind s <;> simp [place, h]

theorem place_eq_stream (h : t.place D = stream s) : t = stream s := by
  cases t with
  | legacy => cases h
  | stream s' => cases hkind : D.kind s' <;> simp_all [place]

theorem key_ne (h : t ≠ stream s) : some s ≠ t.key := by
  cases t with
  | legacy => simp [key]
  | stream s' => simpa [key, eq_comm] using h

end Target

/-! ## Programs -/

/-- The calls of a program. Calls that fail have no effect. -/
inductive Call (Stream Event Context Exec : Type)
  /-- `cuMemcpyDtoHAsync` to pageable or pinned memory. -/
  | copy (target : Target Stream Context)
  | eventRecord (event : Event) (target : Target Stream Context)
  | streamWaitEvent (target : Target Stream Context) (event : Event)
  | graphLaunch (exec : Exec) (target : Target Stream Context)
  /-- `cuStreamSynchronize`, or `cuStreamQuery` when the stream has completed. -/
  | streamSynchronize (target : Target Stream Context)
  /-- `cuEventSynchronize`, or `cuEventQuery` when the event has completed. -/
  | eventSynchronize (event : Event)
  /-- A completed event that a query of another event asks about ahead of time. -/
  | eventPrefetch (event : Event)
  | ctxSynchronize (context : Context)

/-- The server of one connection, the order of the work it was given, and the copies that have
been delivered to the client. -/
structure Session (Stream Event Context Resource : Type) where
  registry : Registry Stream Event Context Resource
  order : Order Stream Event Context
  delivered : List ℕ
  next : ℕ

namespace Session

def init : Session Stream Event Context Resource :=
  ⟨.empty, ⟨fun _ => ∅, fun _ => ∅⟩, [], 0⟩

/-- The response carries the detached copies. -/
def deliver (σ : Session Stream Event Context Resource)
    (detached : Registry Stream Event Context Resource × List ℕ) :
    Session Stream Event Context Resource :=
  { σ with registry := detached.1, delivered := σ.delivered ++ detached.2 }

variable {D : Driver Stream Context} {G : Graphs Exec Resource}
  {r r' : Registry Stream Event Context Resource} {σ σ' : Session Stream Event Context Resource}
  {t : Target Stream Context} {c : ℕ} {resources : Option Resource}

section Calls

variable [DecidableEq Stream] [DecidableEq Event] [DecidableEq Context] [DecidableEq Resource]
  (D : Driver Stream Context) (G : Graphs Exec Resource)
  (σ : Session Stream Event Context Resource)

/-- `handle_cuGraphLaunch`. -/
def graphLaunch (x : Exec) (t : Target Stream Context) : Session Stream Event Context Resource :=
  match G.resources x with
  | some resources =>
    let ids := List.range' σ.next (G.copies resources)
    { σ with
      registry := σ.registry.noteGraphLaunch resources ids t.key (t.context D)
      order := σ.order.issue D (t.place D) {c | c ∈ ids}
      next := σ.next + G.copies resources }
  | none => { σ with order := σ.order.issue D (t.place D) ∅ }

def step : Call Stream Event Context Exec → Option (Session Stream Event Context Resource)
  | .copy t => some { σ with
      registry := σ.registry.push t.key [.copy σ.next (t.context D) none]
      order := σ.order.issue D (t.place D) {σ.next}
      next := σ.next + 1 }
  | .eventRecord e t => some { σ with
      registry := (σ.registry.recordEventResources e t.key).noteEventRecord
        D.marks e t.key (t.context D)
      order := σ.order.record D e (t.place D) }
  | .streamWaitEvent t e => some { σ with
      registry := σ.registry.waitEventResources t.key e
      order := σ.order.issue D (t.place D) (σ.order.eventBefore e) }
  | .graphLaunch x t => some (σ.graphLaunch D G x t)
  | .streamSynchronize t =>
    some (σ.deliver (σ.registry.detach t.key (t.key = none) (some (t.context D))))
  | .eventSynchronize e => some (σ.deliver (σ.registry.detachEvent e))
  | .eventPrefetch _ => some σ
  | .ctxSynchronize context => some (σ.deliver (σ.registry.detach none true (some context)))

/-- The copies ordered before a synchronizing call. -/
def awaited : Call Stream Event Context Exec → Set ℕ
  | .streamSynchronize t =>
    match t.place D with
    | .legacy context => σ.order.reaching D (.legacy context)
    | .stream s => σ.order.before (.stream s)
  | .eventSynchronize e => σ.order.eventBefore e
  -- the server reports completion only when it owes the event nothing
  | .eventPrefetch e => {c | σ.registry.eventOwes e = false ∧ c ∈ σ.order.eventBefore e}
  | .ctxSynchronize context => {c | ∃ t, t.context D = context ∧ c ∈ σ.order.before t}
  | _ => ∅

/-- The graph resources of a stream after a call. -/
def resourcesAfter (a : Call Stream Event Context Exec) (t : Target Stream Context) :
    Option Resource :=
  (σ.step D G a).bind fun σ' => σ'.registry.streamResources t.key

end Calls

/-! ## What the registry holds -/

section

variable (D : Driver Stream Context) (r : Registry Stream Event Context Resource)
  (t : Target Stream Context) (resources : Option Resource) (c : ℕ)

/-- A synchronization of `t` detaches the copy, provided that the stream has inherited the graph
resources `resources`. -/
def Held : Prop :=
  ∃ key g, .copy c (t.context D) g ∈ r.queue key ∧
    match t with
    | .legacy _ => True
    | .stream s => key = some s ∨ resources.isSome = true ∧ g = resources

/-- An event recorded in `t` leaves a marker behind the copy. -/
def Markable : Prop :=
  ∃ key g, .copy c (t.context D) g ∈ r.queue key ∧ Registry.GetsMarker D.marks t.key key

end

/-- The call orders its stream behind no copy that a synchronization of the stream, or of the
event it records, would not find. -/
def Orderly [DecidableEq Stream] [DecidableEq Event] [DecidableEq Context] [DecidableEq Resource]
    (D : Driver Stream Context) (G : Graphs Exec Resource)
    (σ : Session Stream Event Context Resource) (a : Call Stream Event Context Exec) : Prop :=
  match a with
  | .copy t | .graphLaunch _ t => ∀ c ∈ σ.order.reaching D (t.place D),
      c ∈ σ.delivered ∨ Held D σ.registry (t.place D) (σ.resourcesAfter D G a t) c
  | .streamWaitEvent t e => ∀ c ∈ σ.order.reaching D (t.place D) ∪ σ.order.eventBefore e,
      c ∈ σ.delivered ∨ Held D σ.registry (t.place D) (σ.resourcesAfter D G a t) c
  | .eventRecord _ t => ∀ c ∈ σ.order.reaching D (t.place D),
      c ∈ σ.delivered ∨ Markable D σ.registry t c
  -- The registry does not know that this handle is the default stream.
  | .streamSynchronize t => t.place D ≠ t → ∀ c ∈ σ.order.reaching D (t.place D),
      c ∈ σ.delivered ∨ Held D σ.registry t (σ.registry.streamResources t.key) c
  | _ => True

/-- Every copy that is ordered before something and has not been delivered is where a
synchronization with that thing looks for it. -/
structure Complete [DecidableEq Event] (D : Driver Stream Context)
    (σ : Session Stream Event Context Resource) : Prop where
  indexed : σ.registry.Indexed
  placed : ∀ t, ∀ c ∈ σ.order.before t, t.place D = t
  held : ∀ t, ∀ c ∈ σ.order.before t,
    c ∈ σ.delivered ∨ Held D σ.registry t (σ.registry.streamResources t.key) c
  marked : ∀ e, ∀ c ∈ σ.order.eventBefore e, c ∈ σ.delivered ∨ σ.registry.Marked e c

/-- Copies stay held in longer queues. The resources of the default stream do not matter. -/
theorem Held.mono {resources' : Option Resource} (h : Held D r t resources c)
    (hmem : ∀ key item, item ∈ r.queue key → item ∈ r'.queue key)
    (heq : ∀ s, t = .stream s → resources' = resources) : Held D r' t resources' c := by
  obtain ⟨key, g, hi, hkey⟩ := h
  cases t with
  | legacy => exact ⟨key, g, hmem key _ hi, trivial⟩
  | stream s => exact ⟨key, g, hmem key _ hi, by rwa [heq s rfl]⟩

/-- A copy in a queue of the stream is held for it. -/
theorem Held.of_queue {key : Option Stream} {g : Option Resource}
    (hi : .copy c (t.context D) g ∈ r.queue key) (hkey : ∀ s, t = .stream s → key = some s) :
    Held D r (t.place D) resources c := by
  refine ⟨key, g, by rwa [Target.context_place], ?_⟩
  split
  · trivial
  · rename_i s hplace
    exact .inl (hkey s (Target.place_eq_stream hplace))

theorem Markable.held (h : Markable D r t c) : Held D r (t.place D) resources c := by
  obtain ⟨key, g, hi, hkey⟩ := h
  refine .of_queue hi ?_
  rintro s rfl
  exact hkey

section Detach

variable [DecidableEq Stream] [DecidableEq Context] [DecidableEq Resource]

/-- Detaching with the scope of `t` takes every copy that is held for it. -/
theorem Held.mem_detach (hk : r.Keyed) (h : Held D r t (r.streamResources t.key) c) :
    c ∈ (r.detach t.key (t.key = none) (some (t.context D))).2 := by
  obtain ⟨key, g, hi, hkey⟩ := h
  refine Registry.mem_detach hk hi ?_
  cases t with
  | legacy => simp [selected, Target.key]
  | stream s =>
    simp only [Target.key] at hkey
    rcases hkey with rfl | ⟨hsome, rfl⟩
    · simp [selected, Target.key]
    · simp [selected, Target.key, hsome]

theorem Held.mem_detach_all (hk : r.Keyed) (h : Held D r t resources c) :
    c ∈ (r.detach none true (some (t.context D))).2 := by
  obtain ⟨key, g, hi, -⟩ := h
  exact Registry.mem_detach hk hi (by simp [Registry.selected])

end Detach

/-! ## Steps -/

variable [DecidableEq Event]

/-- Detached copies are delivered. -/
theorem Complete.deliver {detached : Registry Stream Event Context Resource × List ℕ}
    (h : σ.Complete D) (hindexed : detached.1.Indexed)
    (hremoves : σ.registry.Removes detached.1 detached.2) : (σ.deliver detached).Complete D := by
  refine ⟨hindexed, h.placed, fun t c hc => ?_, fun e c hc => ?_⟩
  · rcases h.held t c hc with hc | ⟨key, g, hi, hkey⟩
    · exact .inl (mem_append_left _ hc)
    · rcases hremoves.copies key c _ g hi with hi | hc
      · refine .inr ⟨key, g, hi, ?_⟩
        rwa [← hremoves.streamResources] at hkey
      · exact .inl (mem_append_right _ hc)
  · rcases h.marked e c hc with hc | hm
    · exact .inl (mem_append_left _ hc)
    · rcases hremoves.marked e c hm with hm | hc
      · exact .inr hm
      · exact .inl (mem_append_right _ hc)

variable [DecidableEq Stream] [DecidableEq Context]

theorem Complete.placed_issue (h : σ.Complete D) {new : Set ℕ} :
    ∀ u, ∀ c ∈ (σ.order.issue D (t.place D) new).before u, u.place D = u := by
  intro u c hc
  rcases eq_or_ne u (t.place D) with rfl | hne
  · exact Target.place_place
  · simp only [Order.issue, update_of_ne hne] at hc
    exact h.placed u c hc

/-- New work in `t` that removes no item, and changes the resources of no other stream. -/
theorem Complete.issue (h : σ.Complete D) {new : Set ℕ} (next : ℕ) (hindexed : r'.Indexed)
    (happend : ∀ key, ∃ items, r'.queue key = σ.registry.queue key ++ items)
    (hresources : ∀ s, t ≠ .stream s →
      r'.streamResources (some s) = σ.registry.streamResources (some s))
    (hold : ∀ c ∈ σ.order.reaching D (t.place D),
      c ∈ σ.delivered ∨ Held D σ.registry (t.place D) (r'.streamResources t.key) c)
    (hnew : ∀ c ∈ new, c ∈ σ.delivered ∨ Held D r' (t.place D) (r'.streamResources t.key) c) :
    Complete D { σ with
      registry := r', order := σ.order.issue D (t.place D) new, next := next } := by
  have hmem : ∀ key item, item ∈ σ.registry.queue key → item ∈ r'.queue key := by
    intro key item hi
    obtain ⟨items, heq⟩ := happend key
    exact heq ▸ mem_append_left _ hi
  refine ⟨hindexed, h.placed_issue, fun u c hc => ?_,
    fun e c hc => (h.marked e c hc).imp_right fun hm => hm.append happend⟩
  rcases eq_or_ne u (t.place D) with rfl | hne
  · simp only [Order.issue, update_self] at hc
    have heq : ∀ s, t.place D = .stream s →
        r'.streamResources (t.place D).key = r'.streamResources t.key := fun s hs => by
      rw [hs, Target.place_eq_stream hs]
    rcases hc with hc | hc
    · exact (hold c hc).imp_right fun hheld => hheld.mono hmem heq
    · exact (hnew c hc).imp_right fun hheld => hheld.mono (fun _ _ hi => hi) heq
  · simp only [Order.issue, update_of_ne hne] at hc
    refine (h.held u c hc).imp_right fun hheld => hheld.mono hmem ?_
    rintro s rfl
    refine hresources s ?_
    rintro rfl
    exact hne (h.placed _ c hc).symm

variable [DecidableEq Resource]

section

variable (h : σ.Complete D)
include h

theorem Complete.copy (hord : σ.Orderly D G (.copy t)) :
    Complete D { σ with
      registry := σ.registry.push t.key [.copy σ.next (t.context D) none]
      order := σ.order.issue D (t.place D) {σ.next}
      next := σ.next + 1 } := by
  refine h.issue _ (h.indexed.push _ _) (push_append _ _) (fun _ _ => rfl) hord ?_
  rintro c rfl
  refine .inr (.of_queue (mem_push.mpr (.inr ⟨rfl, mem_singleton_self _⟩)) ?_)
  rintro s rfl
  rfl

theorem Complete.streamWaitEvent {e : Event} (hord : σ.Orderly D G (.streamWaitEvent t e)) :
    Complete D { σ with
      registry := σ.registry.waitEventResources t.key e
      order := σ.order.issue D (t.place D) (σ.order.eventBefore e) } := by
  have hqueue : (σ.registry.waitEventResources t.key e).queue = σ.registry.queue := by
    unfold waitEventResources
    split <;> rfl
  refine h.issue σ.next h.indexed.waitEventResources (fun key => ⟨[], by simp [hqueue]⟩) ?_
    (fun c hc => hord c (.inl hc)) fun c hc => (hord c (.inr hc)).imp_right fun hheld => ?_
  · intro s hs
    unfold waitEventResources
    split
    · simp [Target.key_ne hs]
    · rfl
  · exact hheld.mono (fun _ _ hi => by rwa [hqueue]) fun _ _ => rfl

theorem Complete.graphLaunch {x : Exec} (hord : σ.Orderly D G (.graphLaunch x t)) :
    (σ.graphLaunch D G x t).Complete D := by
  have hord : ∀ c ∈ σ.order.reaching D (t.place D), c ∈ σ.delivered ∨ Held D σ.registry
      (t.place D) ((σ.graphLaunch D G x t).registry.streamResources t.key) c := hord
  unfold Session.graphLaunch at hord ⊢
  split at hord
  · rename_i resources _
    refine h.issue _ (h.indexed.noteGraphLaunch _ _) (fun key => ?_) (fun s hs => ?_) hord ?_
    · rw [noteGraphLaunch_queue]
      exact push_append _ _ _
    · simp [noteGraphLaunch, Target.key_ne hs]
    · intro c hc
      have hi : .copy c (t.context D) (some resources) ∈ (σ.registry.noteGraphLaunch resources
          (List.range' σ.next (G.copies resources)) t.key (t.context D)).queue t.key := by
        rw [noteGraphLaunch_queue]
        exact mem_push.mpr (.inr ⟨rfl, mem_map_of_mem hc⟩)
      refine .inr (.of_queue hi ?_)
      rintro s rfl
      rfl
  · exact h.issue σ.next h.indexed (fun _ => ⟨[], by simp⟩) (fun _ _ => rfl) hord
      fun c hc => hc.elim

theorem Complete.eventRecord {e : Event} (hord : σ.Orderly D G (.eventRecord e t)) :
    Complete D { σ with
      registry := (σ.registry.recordEventResources e t.key).noteEventRecord
        D.marks e t.key (t.context D)
      order := σ.order.record D e (t.place D) } := by
  set r := (σ.registry.recordEventResources e t.key).noteEventRecord
    D.marks e t.key (t.context D) with hr
  have hres : r.streamResources = σ.registry.streamResources := by
    rw [hr]
    cases t.key <;> rfl
  have hindexed : r.Indexed :=
    Registry.Indexed.noteEventRecord (r := σ.registry.recordEventResources e t.key)
      ⟨h.indexed.keyed, h.indexed.nodup⟩
  refine ⟨hindexed, h.placed_issue, fun u c hc => ?_, fun e' c hc => ?_⟩
  · have hheld : c ∈ σ.delivered ∨
        Held D σ.registry u (σ.registry.streamResources u.key) c := by
      rcases eq_or_ne u (t.place D) with rfl | hne
      · simp only [Order.record, Order.issue, update_self, Set.union_empty] at hc
        exact (hord c hc).imp_right Markable.held
      · simp only [Order.record, Order.issue, update_of_ne hne] at hc
        exact h.held u c hc
    rw [hres]
    refine hheld.imp_right ?_
    rintro ⟨key, g, hi, hkey⟩
    exact ⟨key, g, mem_noteEventRecord hi, hkey⟩
  · rcases eq_or_ne e' e with rfl | hne
    · simp only [Order.record, update_self] at hc
      refine (hord c hc).imp_right ?_
      rintro ⟨key, g, hi, hkey⟩
      exact marked_noteEventRecord hi hkey
    · simp only [Order.record, Order.issue, update_of_ne hne] at hc
      refine (h.marked e' c hc).imp_right fun hm => ?_
      have hm' : (σ.registry.recordEventResources e t.key).Marked e' c := hm
      exact (hm'.removeMarkers hne).append noteEventRecord_append

theorem Complete.step {a : Call Stream Event Context Exec} (hord : σ.Orderly D G a)
    (hstep : σ.step D G a = some σ') : σ'.Complete D := by
  cases a with
  | copy t =>
    cases hstep
    exact h.copy hord
  | eventRecord e t =>
    cases hstep
    exact h.eventRecord hord
  | streamWaitEvent t e =>
    cases hstep
    exact h.streamWaitEvent hord
  | graphLaunch x t =>
    cases hstep
    exact h.graphLaunch hord
  | streamSynchronize t | ctxSynchronize context =>
    cases hstep
    exact h.deliver (takes_detach.indexed h.indexed) (removes_detach h.indexed.keyed)
  | eventSynchronize e =>
    cases hstep
    exact h.deliver (takes_detachEvent.indexed h.indexed) (removes_detachEvent h.indexed.keyed e)
  | eventPrefetch e =>
    cases hstep
    exact h

/-- What is awaited has been delivered when the call returns. -/
theorem Complete.awaited {a : Call Stream Event Context Exec} (hord : σ.Orderly D G a)
    (hc : c ∈ σ.awaited D a) (hstep : σ.step D G a = some σ') :
    c ∈ σ'.delivered := by
  have hk := h.indexed.keyed
  cases a with
  | copy | eventRecord | streamWaitEvent | graphLaunch => exact hc.elim
  | streamSynchronize t =>
    cases hstep
    refine mem_append.mpr ?_
    by_cases hplace : t.place D = t
    · simp only [Session.awaited, hplace] at hc
      cases t with
      | legacy context =>
        rcases hc with hc | ⟨s, -, rfl, hc⟩
        · exact (h.held _ c hc).imp_right (·.mem_detach hk)
        · refine (h.held _ c hc).imp_right fun hheld => ?_
          simpa [Target.key, Target.context] using hheld.mem_detach_all hk
      | stream s => exact (h.held _ c hc).imp_right (·.mem_detach hk)
    · refine (hord hplace c ?_).imp_right (·.mem_detach hk)
      simp only [Session.awaited] at hc
      split at hc
      · rename_i hlegacy
        rwa [hlegacy]
      · rename_i s hs
        exact (hplace (hs.trans (Target.place_eq_stream hs).symm)).elim
  | eventSynchronize e =>
    cases hstep
    exact mem_append.mpr ((h.marked e c hc).imp_right (mem_detachEvent hk))
  | eventPrefetch e =>
    cases hstep
    obtain ⟨howes, hc⟩ := hc
    refine (h.marked e c hc).resolve_right fun hm => ?_
    simp [eventOwes_of_marked hk hm] at howes
  | ctxSynchronize context =>
    cases hstep
    obtain ⟨t, rfl, hc⟩ := hc
    exact mem_append.mpr ((h.held t c hc).imp_right (·.mem_detach_all hk))

end

end Session

end Lupine.Deferred
