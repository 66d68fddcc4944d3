import Mathlib.Data.List.TakeDrop
import Mathlib.Data.List.TakeWhile
import Mathlib.Logic.Function.Basic

/-!
# The registry of deferred device-to-host copies

`lupine_pending_dtoh_copies` of `cuda_server.cpp` for one connection, with the graph resources of
`cuda_server_memcpy.cpp`. A device-to-host copy lands in staging memory on the server, and an item
for it waits in the queue of its stream until a synchronizing call detaches it and sends the bytes
along with its response. An event record leaves a marker in the queue.

* `detach`: `lupine_detach_pending_dtoh_copies`, the items of a stream, of the graph resources it
  has inherited, or of all streams.
* `detachEvent`: `lupine_detach_event_dtoh_copies`, the items before the markers of an event.
* `Removes`: what both leave behind.

A copy is represented by a number. The map from streams to queues is a function together with the
list of its keys; a queue that has become empty stays as an empty one.
-/

namespace Lupine.Deferred

open Function List

variable {Stream Event Context Resource : Type}
variable {key : Option Stream} {g : Option Resource}

/-- `lupine_pending_dtoh_item`. -/
inductive Item (Event Context Resource : Type)
  /-- The event was recorded here. -/
  | marker (event : Event) (context : Context)
  | copy (id : ℕ) (context : Context) (graphResources : Option Resource)
  deriving DecidableEq

namespace Item

def context : Item Event Context Resource → Context
  | marker _ context => context
  | copy _ context _ => context

def graphResources : Item Event Context Resource → Option Resource
  | marker _ _ => none
  | copy _ _ graphResources => graphResources

def copy? : Item Event Context Resource → Option ℕ
  | marker _ _ => none
  | copy id _ _ => some id

@[simp] theorem context_marker (e : Event) (ctx : Context) :
    (marker e ctx : Item Event Context Resource).context = ctx := rfl

section

variable (id : ℕ) (ctx : Context) (g : Option Resource)

@[simp] theorem context_copy :
    (copy id ctx g : Item Event Context Resource).context = ctx := rfl

@[simp] theorem graphResources_marker (e : Event) (ctx : Context) :
    (marker e ctx : Item Event Context Resource).graphResources = none := rfl

@[simp] theorem graphResources_copy :
    (copy id ctx g : Item Event Context Resource).graphResources = g := rfl

@[simp] theorem copy?_marker (e : Event) (ctx : Context) :
    (marker e ctx : Item Event Context Resource).copy? = none := rfl

@[simp] theorem copy?_copy :
    (copy id ctx g : Item Event Context Resource).copy? = some id := rfl

end

variable [DecidableEq Event]

/-- `lupine_is_event_dtoh_marker`. -/
def isMarker (event : Event) : Item Event Context Resource → Bool
  | marker e _ => e = event
  | copy _ _ _ => false

@[simp] theorem isMarker_copy (event : Event) (id : ℕ) (context : Context)
    (graphResources : Option Resource) :
    (copy id context graphResources : Item Event Context Resource).isMarker event = false := rfl

@[simp] theorem isMarker_marker (event e : Event) (context : Context) :
    (marker e context : Item Event Context Resource).isMarker event = decide (e = event) := rfl

end Item

variable {item : Item Event Context Resource} {items : List (Item Event Context Resource)}

/-- The queues of one connection, and the graph resources each stream and event has inherited.
The default stream is `none`. -/
structure Registry (Stream Event Context Resource : Type) where
  keys : List (Option Stream)
  queue : Option Stream → List (Item Event Context Resource)
  streamResources : Option Stream → Option Resource
  eventResources : Event → Option Resource

namespace Registry

def empty : Registry Stream Event Context Resource :=
  ⟨[], fun _ => [], fun _ => none, fun _ => none⟩

section Operations

variable [DecidableEq Stream]

def push (r : Registry Stream Event Context Resource) (stream : Option Stream)
    (items : List (Item Event Context Resource)) : Registry Stream Event Context Resource :=
  { r with
    keys := if stream ∈ r.keys then r.keys else r.keys ++ [stream]
    queue := update r.queue stream (r.queue stream ++ items) }

/-- `lupine_note_graph_launch`, for the copies of one launch. -/
def noteGraphLaunch (r : Registry Stream Event Context Resource) (resources : Resource)
    (ids : List ℕ) (stream : Option Stream) (context : Context) :
    Registry Stream Event Context Resource :=
  { (if ids.isEmpty then r
      else r.push stream (ids.map fun id => .copy id context (some resources))) with
    streamResources := update r.streamResources stream (some resources) }

variable [DecidableEq Context] [DecidableEq Resource]

section

variable (r : Registry Stream Event Context Resource) (stream : Option Stream) (allStreams : Bool)
  (context : Option Context)

/-- The items that `lupine_detach_pending_dtoh_copies` takes; no context stands for any. -/
def selected (key : Option Stream) (item : Item Event Context Resource) : Bool :=
  (allStreams || decide (key = stream) ||
    ((r.streamResources stream).isSome &&
      decide (item.graphResources = r.streamResources stream))) &&
  (context.isNone || decide (context = some item.context))

/-- `lupine_detach_pending_dtoh_copies`. -/
def detach : Registry Stream Event Context Resource × List ℕ :=
  ({ r with queue := fun key =>
      (r.queue key).filter fun item => !r.selected stream allStreams context key item },
    r.keys.flatMap fun key =>
      ((r.queue key).filter (r.selected stream allStreams context key)).filterMap Item.copy?)

end

end Operations

section Events

variable [DecidableEq Event]

/-- `lupine_remove_event_dtoh_markers`. -/
def removeMarkers (r : Registry Stream Event Context Resource) (event : Event) :
    Registry Stream Event Context Resource :=
  { r with queue := fun key => (r.queue key).filter fun item => !item.isMarker event }

/-- `lupine_note_event_record`. An event on the default stream is marked in the default queue and
in the queue of every blocking stream that has one. -/
def noteEventRecord [DecidableEq Stream] (blocking : Stream → Bool)
    (r : Registry Stream Event Context Resource) (event : Event) (stream : Option Stream)
    (context : Context) :
    Registry Stream Event Context Resource :=
  let r := r.removeMarkers event
  match stream with
  | some s => r.push (some s) [.marker event context]
  | none =>
    { r.push none [.marker event context] with
      queue := fun key =>
        match key with
        | none => r.queue none ++ [.marker event context]
        | some s =>
          if blocking s && !(r.queue (some s)).isEmpty then
            r.queue (some s) ++ [.marker event context]
          else r.queue (some s) }

/-- `lupine_record_event_capture_resources`. -/
def recordEventResources (r : Registry Stream Event Context Resource) (event : Event)
    (stream : Option Stream) : Registry Stream Event Context Resource :=
  { r with eventResources := update r.eventResources event (r.streamResources stream) }

/-- `lupine_wait_event_capture_resources`. -/
def waitEventResources [DecidableEq Stream] (r : Registry Stream Event Context Resource)
    (stream : Option Stream) (event : Event) : Registry Stream Event Context Resource :=
  match r.eventResources event with
  | some resources =>
    { r with streamResources := update r.streamResources stream (some resources) }
  | none => r

/-- `lupine_get_stream_resources`: the resources of a stream, created if there are none. -/
def getStreamResources [DecidableEq Stream] (r : Registry Stream Event Context Resource)
    (stream : Option Stream) (fresh : Resource) :
    Registry Stream Event Context Resource × Resource :=
  match r.streamResources stream with
  | some resources => (r, resources)
  | none =>
    ({ r with streamResources := update r.streamResources stream (some fresh) }, fresh)

variable [DecidableEq Context]

/-- What `lupine_detach_event_dtoh_copies` does to one queue: what remains, and the copies. -/
def detachThrough (event : Event) (items : List (Item Event Context Resource)) :
    List (Item Event Context Resource) × List ℕ :=
  match items.span fun item => !item.isMarker event with
  | (before, marker :: after) =>
    ((before.filter fun item => !decide (item.context = marker.context)) ++ after,
      (before.filter fun item => decide (item.context = marker.context)).filterMap Item.copy?)
  | (_, []) => (items, [])

/-- `lupine_detach_event_dtoh_copies`. -/
def detachEvent (r : Registry Stream Event Context Resource) (event : Event) :
    Registry Stream Event Context Resource × List ℕ :=
  ({ r with queue := fun key => (detachThrough event (r.queue key)).1 },
    r.keys.flatMap fun key => (detachThrough event (r.queue key)).2)

/-- `lupine_event_owes_dtoh_copies`. -/
def eventOwes (r : Registry Stream Event Context Resource) (event : Event) : Bool :=
  r.keys.any fun key => !(detachThrough event (r.queue key)).2.isEmpty

end Events

/-! ## What detaching leaves -/

variable {r r' : Registry Stream Event Context Resource} {ids : List ℕ} {c : ℕ} {e : Event}

/-- The copy is queued before a marker of the event, which has the same context. -/
def Marked [DecidableEq Event] (r : Registry Stream Event Context Resource) (e : Event) (c : ℕ) :
    Prop :=
  ∃ key context g before after, r.queue key = before ++ .marker e context :: after ∧
    (∀ item ∈ before, item.isMarker e = false) ∧ .copy c context g ∈ before

/-- Items were removed from the queues, `ids` being the copies among them. A marker goes only
with the copies of its context before it. -/
structure Removes [DecidableEq Event] (r r' : Registry Stream Event Context Resource)
    (ids : List ℕ) : Prop where
  streamResources : r'.streamResources = r.streamResources
  copies : ∀ key c context g, .copy c context g ∈ r.queue key →
    .copy c context g ∈ r'.queue key ∨ c ∈ ids
  marked : ∀ e c, r.Marked e c → r'.Marked e c ∨ c ∈ ids

/-- Every stream with a queue is a key. -/
def Keyed (r : Registry Stream Event Context Resource) : Prop :=
  ∀ key, r.queue key ≠ [] → key ∈ r.keys

theorem Keyed.mem (h : r.Keyed) (hi : item ∈ r.queue key) : key ∈ r.keys :=
  h key (ne_nil_of_mem hi)

/-! ### Appending -/

/-- Items appended to a queue stand behind its markers. -/
theorem Marked.append [DecidableEq Event] (h : r.Marked e c)
    (happend : ∀ key, ∃ items, r'.queue key = r.queue key ++ items) : r'.Marked e c := by
  obtain ⟨key, ctx, g, before, after, hq, hnot, hi⟩ := h
  obtain ⟨items, hitems⟩ := happend key
  exact ⟨key, ctx, g, before, after ++ items, by simp [hitems, hq], hnot, hi⟩

section Push

variable [DecidableEq Stream]

theorem mem_push {stream : Option Stream} :
    item ∈ (r.push stream items).queue key ↔ item ∈ r.queue key ∨ key = stream ∧ item ∈ items := by
  rcases eq_or_ne key stream with rfl | hne
  · simp [push]
  · simp [push, hne]

theorem Keyed.push (h : r.Keyed) (stream : Option Stream)
    (items : List (Item Event Context Resource)) : (r.push stream items).Keyed := by
  intro key hne
  have hmono : ∀ key ∈ r.keys, key ∈ (r.push stream items).keys := by
    intro key hkey
    simp only [Registry.push]
    split
    · exact hkey
    · exact mem_append_left _ hkey
  rcases eq_or_ne key stream with rfl | hkey
  · simp only [Registry.push]
    split
    · assumption
    · simp
  · exact hmono key (h key (by simpa [Registry.push, hkey] using hne))

theorem noteGraphLaunch_queue (resources : Resource) (ids : List ℕ) (stream : Option Stream)
    (ctx : Context) : (r.noteGraphLaunch resources ids stream ctx).queue =
      (r.push stream (ids.map fun id => .copy id ctx (some resources))).queue := by
  cases ids with
  | nil => simp [noteGraphLaunch, push]
  | cons => rfl

theorem push_append (stream : Option Stream) (items : List (Item Event Context Resource))
    (key : Option Stream) : ∃ new, (r.push stream items).queue key = r.queue key ++ new := by
  rcases eq_or_ne key stream with rfl | hne
  · exact ⟨items, by simp [push]⟩
  · exact ⟨[], by simp [push, hne]⟩

end Push

/-! ### Markers -/

section Markers

variable [DecidableEq Event]

theorem mem_removeMarkers :
    item ∈ (r.removeMarkers e).queue key ↔ item ∈ r.queue key ∧ item.isMarker e = false := by
  simp [removeMarkers]

theorem Marked.removeMarkers {e' : Event} (h : r.Marked e c) (hne : e ≠ e') :
    (r.removeMarkers e').Marked e c := by
  obtain ⟨key, ctx, g, before, after, hq, hnot, hi⟩ := h
  refine ⟨key, ctx, g, before.filter fun item => !item.isMarker e',
    after.filter fun item => !item.isMarker e', ?_,
    fun item hi => hnot item (mem_filter.mp hi).1, mem_filter.mpr ⟨hi, rfl⟩⟩
  simp [Registry.removeMarkers, hq, filter_append, hne]

variable [DecidableEq Stream] {blocking : Stream → Bool} {stream : Option Stream} {ctx : Context}

/-- The queues that get a marker. -/
def GetsMarker (blocking : Stream → Bool) (stream key : Option Stream) : Prop :=
  match stream with
  | some s => key = some s
  | none => ∀ s, key = some s → blocking s = true

theorem noteEventRecord_append (key : Option Stream) :
    ∃ items, (r.noteEventRecord blocking e stream ctx).queue key =
      (r.removeMarkers e).queue key ++ items := by
  cases stream with
  | some s => exact push_append _ _ _
  | none =>
    cases key with
    | none => exact ⟨_, rfl⟩
    | some s =>
      simp only [noteEventRecord]
      split
      · exact ⟨_, rfl⟩
      · exact ⟨[], by simp⟩

theorem mem_noteEventRecord {c : ℕ} {context : Context} (h : .copy c context g ∈ r.queue key) :
    .copy c context g ∈ (r.noteEventRecord blocking e stream ctx).queue key := by
  have happend : ∃ items, (r.noteEventRecord blocking e stream ctx).queue key =
      (r.removeMarkers e).queue key ++ items := noteEventRecord_append key
  obtain ⟨items, hitems⟩ := happend
  rw [hitems]
  exact mem_append_left _ (mem_removeMarkers.mpr ⟨h, rfl⟩)

/-- A copy in a queue that gets a marker of its context is marked. -/
theorem marked_noteEventRecord (h : .copy c ctx g ∈ r.queue key)
    (hkey : GetsMarker blocking stream key) :
    (r.noteEventRecord blocking e stream ctx).Marked e c := by
  have hmem : .copy c ctx g ∈ (r.removeMarkers e).queue key := mem_removeMarkers.mpr ⟨h, rfl⟩
  refine ⟨key, ctx, g, (r.removeMarkers e).queue key, [], ?_,
    fun item hi => (mem_removeMarkers.mp hi).2, hmem⟩
  cases stream with
  | some s =>
    obtain rfl : key = some s := hkey
    simp [noteEventRecord, push]
  | none =>
    cases key with
    | none => rfl
    | some s =>
      simp [noteEventRecord, hkey s rfl, ne_nil_of_mem hmem]

theorem Keyed.noteEventRecord (h : r.Keyed) : (r.noteEventRecord blocking e stream ctx).Keyed := by
  have hremove : (r.removeMarkers e).Keyed := fun key hne => by
    obtain ⟨item, hi⟩ := exists_mem_of_ne_nil _ hne
    exact h.mem (mem_removeMarkers.mp hi).1
  have hpush := hremove.push stream [.marker e ctx]
  cases stream with
  | some s => exact hpush
  | none =>
    intro key hne
    have hmono : ∀ key ∈ r.keys, key ∈ ((r.removeMarkers e).push none [.marker e ctx]).keys := by
      intro key hkey
      simp only [Registry.push]
      split
      · exact hkey
      · exact mem_append_left _ hkey
    cases key with
    | none => exact hpush none (by simp [Registry.push])
    | some s =>
      refine hmono _ (hremove (some s) fun hnil => hne ?_)
      simp [Registry.noteEventRecord, hnil]

end Markers

/-! ### Detaching -/

section Detach

variable [DecidableEq Stream] [DecidableEq Context] [DecidableEq Resource]
  {stream : Option Stream} {allStreams : Bool} {context : Option Context}

theorem mem_detach (hk : r.Keyed) {ctx : Context} (hi : .copy c ctx g ∈ r.queue key)
    (hs : r.selected stream allStreams context key (.copy c ctx g) = true) :
    c ∈ (r.detach stream allStreams context).2 :=
  mem_flatMap.mpr ⟨key, hk.mem hi, mem_filterMap.mpr ⟨_, mem_filter.mpr ⟨hi, hs⟩, rfl⟩⟩

/-- A marker that is detached is detached with every copy of its context in the queue. -/
theorem selected_copy_of_marker {ctx : Context}
    (h : r.selected stream allStreams context key (.marker e ctx) = true) :
    r.selected stream allStreams context key (.copy c ctx g) = true := by
  simp only [selected, Item.graphResources_marker, Item.graphResources_copy,
    Item.context_marker, Item.context_copy, Bool.and_eq_true, Bool.or_eq_true,
    decide_eq_true_eq] at h ⊢
  obtain ⟨h | ⟨hs, hn⟩, hctx⟩ := h
  · exact ⟨.inl h, hctx⟩
  · rw [← of_decide_eq_true hn] at hs
    simp at hs

theorem removes_detach [DecidableEq Event] (hk : r.Keyed) :
    Removes r (r.detach stream allStreams context).1 (r.detach stream allStreams context).2 := by
  refine ⟨rfl, fun key c ctx g hi => ?_, ?_⟩
  · cases hs : r.selected stream allStreams context key (.copy c ctx g) with
    | true => exact .inr (mem_detach hk hi hs)
    | false => exact .inl (mem_filter.mpr ⟨hi, by simp [hs]⟩)
  · rintro e c ⟨key, ctx, g, before, after, hq, hnot, hmem⟩
    cases hs : r.selected stream allStreams context key (.copy c ctx g) with
    | true => exact .inr (mem_detach hk (by simp [hq, hmem]) hs)
    | false =>
      have hm : r.selected stream allStreams context key (.marker e ctx) = false := by
        by_contra hm
        simp [selected_copy_of_marker (Bool.not_eq_false _ ▸ hm)] at hs
      let p := fun item => !r.selected stream allStreams context key item
      refine .inl ⟨key, ctx, g, before.filter p, after.filter p, ?_, fun item hi =>
        hnot item (mem_filter.mp hi).1, mem_filter.mpr ⟨hmem, by simp [p, hs]⟩⟩
      simp [p, detach, hq, filter_append, hm]

end Detach

section DetachEvent

variable [DecidableEq Event] [DecidableEq Context]

variable {before after : List (Item Event Context Resource)} {context : Context}

/-- A queue that is split at the first marker of the event. -/
theorem detachThrough_split (hnot : ∀ item ∈ before, item.isMarker e = false) :
    detachThrough e (before ++ .marker e context :: after) =
      ((before.filter fun item => !decide (item.context = context)) ++ after,
        (before.filter fun item => decide (item.context = context)).filterMap Item.copy?) := by
  have hbefore : ∀ item ∈ before, (!item.isMarker e) = true := by simpa using hnot
  rw [detachThrough, span_eq_takeWhile_dropWhile, takeWhile_append_of_pos hbefore,
    dropWhile_append_of_pos hbefore, takeWhile_cons_of_neg (by simp), append_nil,
    dropWhile_cons_of_neg (by simp)]
  rfl

/-- The first marker of the event splits the queue. -/
theorem detachThrough_cases (e : Event) (items : List (Item Event Context Resource)) :
    ((∀ item ∈ items, item.isMarker e = false) ∧ detachThrough e items = (items, [])) ∨
    ∃ before context after, items = before ++ .marker e context :: after ∧
      (∀ item ∈ before, item.isMarker e = false) ∧
      detachThrough e items =
        ((before.filter fun item => !decide (item.context = context)) ++ after,
          (before.filter fun item => decide (item.context = context)).filterMap Item.copy?) := by
  cases hfind : items.find? (Item.isMarker e) with
  | none =>
    have hall : ∀ item ∈ items, item.isMarker e = false := by simpa using hfind
    refine .inl ⟨hall, ?_⟩
    have hdrop : items.dropWhile (fun item => !item.isMarker e) = [] := by simpa using hall
    simp [detachThrough, span_eq_takeWhile_dropWhile, hdrop]
  | some m =>
    obtain ⟨hm, before, after, rfl, hnot⟩ := find?_eq_some_iff_append.mp hfind
    have hnot : ∀ item ∈ before, item.isMarker e = false := by simpa using hnot
    cases m with
    | marker e' context =>
      obtain rfl : e' = e := by simpa using hm
      exact .inr ⟨before, context, after, rfl, hnot, detachThrough_split hnot⟩
    | copy => simp at hm

/-- A copy before the marker, of the marker's context, is detached. -/
theorem mem_detachThrough (hq : items = before ++ .marker e context :: after)
    (hnot : ∀ item ∈ before, item.isMarker e = false) (hmem : .copy c context g ∈ before) :
    c ∈ (detachThrough e items).2 := by
  rw [hq, detachThrough_split hnot]
  exact mem_filterMap.mpr ⟨_, mem_filter.mpr ⟨hmem, by simp⟩, rfl⟩

theorem mem_detachThrough_of_notMem (hi : .copy c context g ∈ items)
    (hnot : .copy c context g ∉ (detachThrough e items).1) : c ∈ (detachThrough e items).2 := by
  rcases detachThrough_cases e items with ⟨-, hd⟩ | ⟨before, ctx, after, rfl, -, hd⟩
  · simp [hd, hi] at hnot
  · rw [hd] at hnot ⊢
    simp only [mem_append, mem_filter, not_or, not_and] at hnot
    have hbefore : .copy c context g ∈ before := by
      simp only [mem_append, mem_cons, reduceCtorEq, false_or] at hi
      exact hi.resolve_right hnot.2
    exact mem_filterMap.mpr ⟨_, mem_filter.mpr ⟨hbefore, by simpa using hnot.1 hbefore⟩, rfl⟩

/-- Markers of other events stay in front of the copies that stay, or go with them. -/
theorem marked_detachThrough {e' : Event} (hq : items = before ++ .marker e' context :: after)
    (hnot : ∀ item ∈ before, item.isMarker e' = false) (hmem : .copy c context g ∈ before) :
    c ∈ (detachThrough e items).2 ∨
      ∃ before' after', (detachThrough e items).1 = before' ++ .marker e' context :: after' ∧
        (∀ item ∈ before', item.isMarker e' = false) ∧ .copy c context g ∈ before' := by
  rcases detachThrough_cases e items with ⟨-, hd⟩ | ⟨first, ctx, rest, hq', hnot', hd⟩
  · exact .inr ⟨before, after, by rw [hd, hq], hnot, hmem⟩
  · by_cases hc : c ∈ (detachThrough e items).2
    · exact .inl hc
    · refine .inr ?_
      -- a copy that is not detached either has another context or stands behind the marker
      have hother : .copy c context g ∈ first → context ≠ ctx := by
        rintro hfirst rfl
        exact hc (mem_detachThrough hq' hnot' hfirst)
      have hne : (.marker e' context : Item Event Context Resource) ≠ .marker e ctx := by
        rintro ⟨⟩
        exact hc (mem_detachThrough hq hnot hmem)
      rw [hd]
      rcases append_eq_append_iff.mp (hq.symm.trans hq') with
        ⟨mid, hfirst, hmid⟩ | ⟨mid, hbefore, hmid⟩
      · cases mid with
        | nil => exact (hne (List.cons.inj hmid).1).elim
        | cons m mid =>
          obtain ⟨rfl, rfl⟩ := List.cons.inj hmid
          have hctx : context ≠ ctx := hother (by simp [hfirst, hmem])
          refine ⟨before.filter fun item => !decide (item.context = ctx),
            (mid.filter fun item => !decide (item.context = ctx)) ++ rest, ?_, ?_, ?_⟩
          · simp [hfirst, filter_append, hctx]
          · grind
          · simp [hmem, hctx]
      · cases mid with
        | nil => exact (hne (List.cons.inj hmid).1.symm).elim
        | cons m mid =>
          obtain ⟨rfl, rfl⟩ := List.cons.inj hmid
          refine ⟨(first.filter fun item => !decide (item.context = ctx)) ++ mid, after, ?_, ?_, ?_⟩
          · simp
          · grind
          · simp only [hbefore, mem_append, mem_cons, reduceCtorEq, false_or] at hmem
            simpa using hmem.imp_left fun hfirst => ⟨hfirst, by simp [hother hfirst]⟩

theorem removes_detachEvent (hk : r.Keyed) (e : Event) :
    Removes r (r.detachEvent e).1 (r.detachEvent e).2 := by
  have hmem : ∀ {key c}, key ∈ r.keys → c ∈ (detachThrough e (r.queue key)).2 →
      c ∈ (r.detachEvent e).2 := fun hkey hc => mem_flatMap.mpr ⟨_, hkey, hc⟩
  refine ⟨rfl, fun key c ctx g hi => ?_, ?_⟩
  · by_cases hnot : .copy c ctx g ∈ (r.detachEvent e).1.queue key
    · exact .inl hnot
    · exact .inr (hmem (hk.mem hi) (mem_detachThrough_of_notMem hi hnot))
  · rintro e' c ⟨key, ctx, g, before, after, hq, hnot, hi⟩
    rcases marked_detachThrough (e := e) hq hnot hi with hc | ⟨before', after', hq', hnot', hi'⟩
    · exact .inr (hmem (hk key (by simp [hq])) hc)
    · exact .inl ⟨key, ctx, g, before', after', hq', hnot', hi'⟩

/-- The copies before the markers of an event are the ones that the event detaches. -/
theorem mem_detachEvent (hk : r.Keyed) (h : r.Marked e c) : c ∈ (r.detachEvent e).2 := by
  obtain ⟨key, ctx, g, before, after, hq, hnot, hi⟩ := h
  exact mem_flatMap.mpr ⟨key, hk key (by simp [hq]), mem_detachThrough hq hnot hi⟩

theorem eventOwes_of_marked (hk : r.Keyed) (h : r.Marked e c) : r.eventOwes e = true := by
  obtain ⟨key, ctx, g, before, after, hq, hnot, hi⟩ := h
  have hmem := mem_detachThrough hq hnot hi
  refine any_eq_true.mpr ⟨key, hk key (by simp [hq]), ?_⟩
  simpa using ne_nil_of_mem hmem

end DetachEvent

end Registry

end Lupine.Deferred
