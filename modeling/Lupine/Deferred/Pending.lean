import Mathlib.Data.List.Perm.Basic
import Mathlib.Data.List.Nodup
import Lupine.Deferred.Registry

/-!
# Pending copies

The copies in the queues of the registry, without the markers between them. Every operation of
the registry is described by what it does to them: a new copy goes to the end of its queue,
markers and inherited resources change nothing, and detaching splits each queue into what remains
and what is taken (`Takes`).
-/

namespace Lupine.Deferred.Registry

open Function List

variable {Stream Event Context Resource : Type}
  {r r' : Registry Stream Event Context Resource} {c : ℕ} {e : Event}

/-- The copies in a queue. -/
def pending (r : Registry Stream Event Context Resource) (key : Option Stream) : List ℕ :=
  (r.queue key).filterMap Item.copy?

theorem mem_pending {key : Option Stream} :
    c ∈ r.pending key ↔ ∃ context g, .copy c context g ∈ r.queue key := by
  constructor
  · intro h
    obtain ⟨item, hi, hc⟩ := mem_filterMap.mp h
    cases item with
    | marker => cases hc
    | copy id context g =>
      cases hc
      exact ⟨context, g, hi⟩
  · rintro ⟨context, g, hi⟩
    exact mem_filterMap.mpr ⟨_, hi, rfl⟩

/-- Every stream with a queue is a key, once. -/
structure Indexed (r : Registry Stream Event Context Resource) : Prop where
  keyed : r.Keyed
  nodup : r.keys.Nodup

theorem indexed_empty : (empty : Registry Stream Event Context Resource).Indexed :=
  ⟨fun _ hne => absurd rfl hne, nodup_nil⟩

/-! ## Adding -/

section Adding

variable [DecidableEq Stream] {stream : Option Stream} {ctx : Context}

theorem pending_push (stream : Option Stream) (items : List (Item Event Context Resource)) :
    (r.push stream items).pending =
      update r.pending stream (r.pending stream ++ items.filterMap Item.copy?) := by
  funext key
  rcases eq_or_ne key stream with rfl | hne
  · simp [pending, push]
  · simp [pending, push, hne]

theorem Indexed.push (h : r.Indexed) (stream : Option Stream)
    (items : List (Item Event Context Resource)) : (r.push stream items).Indexed := by
  refine ⟨h.keyed.push stream items, ?_⟩
  simp only [Registry.push]
  split
  · exact h.nodup
  · rename_i hnot
    exact h.nodup.append (nodup_singleton _) (by simpa using hnot)

theorem filterMap_copy?_map (ids : List ℕ) (g : Option Resource) :
    (ids.map fun id => (.copy id ctx g : Item Event Context Resource)).filterMap Item.copy? =
      ids := by
  induction ids with
  | nil => rfl
  | cons id ids ih => simp [ih]

theorem pending_noteGraphLaunch (resources : Resource) (ids : List ℕ) (stream : Option Stream)
    (ctx : Context) :
    (r.noteGraphLaunch resources ids stream ctx).pending =
      update r.pending stream (r.pending stream ++ ids) := by
  cases ids with
  | nil =>
    rw [append_nil, update_eq_self]
    rfl
  | cons id ids =>
    have := pending_push (r := r) stream ((id :: ids).map fun id => .copy id ctx (some resources))
    rw [filterMap_copy?_map] at this
    exact this

theorem Indexed.noteGraphLaunch (h : r.Indexed) (resources : Resource) (ids : List ℕ) :
    (r.noteGraphLaunch resources ids stream ctx).Indexed := by
  cases ids with
  | nil => exact ⟨h.keyed, h.nodup⟩
  | cons id ids =>
    have := h.push stream ((id :: ids).map fun id => .copy id ctx (some resources))
    exact ⟨this.keyed, this.nodup⟩

end Adding

/-! ## Markers and inherited resources -/

section Markers

variable [DecidableEq Stream] [DecidableEq Event] {stream : Option Stream} {ctx : Context}
  {blocking : Stream → Bool}

theorem filterMap_filter_not_isMarker (items : List (Item Event Context Resource)) :
    (items.filter fun item => !item.isMarker e).filterMap Item.copy? =
      items.filterMap Item.copy? := by
  induction items with
  | nil => rfl
  | cons item items ih =>
    cases item with
    | marker e' context =>
      rw [filter_cons, filterMap_cons_none rfl, ← ih]
      split <;> rfl
    | copy id context g =>
      rw [filter_cons_of_pos rfl, filterMap_cons, filterMap_cons, ih]

theorem pending_noteEventRecord :
    (r.noteEventRecord blocking e stream ctx).pending = r.pending := by
  have hremove : (r.removeMarkers e).pending = r.pending :=
    funext fun key => filterMap_filter_not_isMarker _
  rw [← hremove]
  funext key
  cases stream with
  | some s =>
    refine (congrFun (pending_push (r := r.removeMarkers e) (some s) [.marker e ctx]) key).trans ?_
    rw [filterMap_cons_none rfl, filterMap_nil, append_nil, update_eq_self]
  | none =>
    cases key with
    | none =>
      refine filterMap_append.trans ?_
      simp [pending]
    | some s =>
      simp only [pending, noteEventRecord]
      split
      · simp
      · rfl

theorem Indexed.noteEventRecord (h : r.Indexed) :
    (r.noteEventRecord blocking e stream ctx).Indexed := by
  refine ⟨h.keyed.noteEventRecord, ?_⟩
  have hremove : (r.removeMarkers e).Indexed := by
    refine ⟨fun key hne => ?_, h.nodup⟩
    obtain ⟨item, hi⟩ := exists_mem_of_ne_nil _ hne
    exact h.keyed.mem (mem_removeMarkers.mp hi).1
  cases stream with
  | some s => exact (hremove.push (some s) [.marker e ctx]).nodup
  | none => exact (hremove.push none [.marker e ctx]).nodup

end Markers

section Resources

variable [DecidableEq Stream] {stream : Option Stream}

theorem pending_waitEventResources : (r.waitEventResources stream e).pending = r.pending := by
  unfold waitEventResources
  split <;> rfl

theorem Indexed.waitEventResources (h : r.Indexed) : (r.waitEventResources stream e).Indexed := by
  unfold Registry.waitEventResources
  split
  · exact ⟨h.keyed, h.nodup⟩
  · exact h

theorem pending_getStreamResources {fresh : Resource} :
    (r.getStreamResources stream fresh).1.pending = r.pending := by
  unfold getStreamResources
  split <;> rfl

theorem Indexed.getStreamResources (h : r.Indexed) {fresh : Resource} :
    (r.getStreamResources stream fresh).1.Indexed := by
  unfold Registry.getStreamResources
  split
  · exact h
  · exact ⟨h.keyed, h.nodup⟩

end Resources

/-! ## Detaching -/

/-- Each queue is split into what remains and the copies `taken` from it. -/
structure Takes (r r' : Registry Stream Event Context Resource)
    (taken : Option Stream → List ℕ) : Prop where
  keys : r'.keys = r.keys
  sublist : ∀ key, (r'.queue key).Sublist (r.queue key)
  taken_sublist : ∀ key, (taken key).Sublist (r.pending key)
  perm : ∀ key, (r'.pending key ++ taken key).Perm (r.pending key)

theorem Takes.indexed {taken : Option Stream → List ℕ} (h : Takes r r' taken) (hr : r.Indexed) :
    r'.Indexed := by
  refine ⟨fun key hne => ?_, h.keys ▸ hr.nodup⟩
  rw [h.keys]
  exact hr.keyed key fun hnil => hne (sublist_nil.mp (hnil ▸ h.sublist key))

theorem Takes.refl (r : Registry Stream Event Context Resource) : Takes r r fun _ => [] :=
  ⟨rfl, fun _ => .refl _, fun _ => nil_sublist _, fun key => by simp⟩

section Detach

variable [DecidableEq Stream] [DecidableEq Context] [DecidableEq Resource]
  {stream : Option Stream} {allStreams : Bool} {context : Option Context}

theorem takes_detach : Takes r (r.detach stream allStreams context).1 fun key =>
    ((r.queue key).filter (r.selected stream allStreams context key)).filterMap Item.copy? := by
  refine ⟨rfl, fun key => filter_sublist, fun key => filter_sublist.filterMap _, fun key => ?_⟩
  have := (filter_append_perm (r.selected stream allStreams context key)
    (r.queue key)).filterMap Item.copy?
  rw [filterMap_append] at this
  exact perm_append_comm.trans this

theorem mem_detach_iff (hk : r.Keyed) :
    c ∈ (r.detach stream allStreams context).2 ↔ ∃ key ctx g, .copy c ctx g ∈ r.queue key ∧
      r.selected stream allStreams context key (.copy c ctx g) = true := by
  constructor
  · intro h
    obtain ⟨key, -, h⟩ := mem_flatMap.mp h
    obtain ⟨item, hi, hc⟩ := mem_filterMap.mp h
    obtain ⟨hi, hs⟩ := mem_filter.mp hi
    cases item with
    | marker => cases hc
    | copy id ctx g =>
      cases hc
      exact ⟨key, ctx, g, hi, hs⟩
  · rintro ⟨key, ctx, g, hi, hs⟩
    exact mem_detach hk hi hs

end Detach

section DetachEvent

variable [DecidableEq Event] [DecidableEq Context]

theorem detachThrough_sublist (items : List (Item Event Context Resource)) :
    (detachThrough e items).1.Sublist items := by
  rcases detachThrough_cases e items with ⟨-, hd⟩ | ⟨before, ctx, after, rfl, -, hd⟩
  · rw [hd]
  · rw [hd]
    exact filter_sublist.append (sublist_cons_self _ _)

theorem takes_detachEvent :
    Takes r (r.detachEvent e).1 fun key => (detachThrough e (r.queue key)).2 := by
  refine ⟨rfl, fun key => detachThrough_sublist _, fun key => ?_, fun key => ?_⟩
  · rcases detachThrough_cases e (r.queue key) with ⟨-, hd⟩ | ⟨before, ctx, after, hq, -, hd⟩
    · simp [hd]
    · rw [hd, pending, hq]
      exact (filter_sublist.trans (sublist_append_left _ _)).filterMap _
  · simp only [pending, detachEvent]
    rcases detachThrough_cases e (r.queue key) with ⟨-, hd⟩ | ⟨before, ctx, after, hq, -, hd⟩
    · simp [hd]
    · rw [hd, hq]
      have := (filter_append_perm (fun item => decide (item.context = ctx)) before).filterMap
        Item.copy?
      rw [filterMap_append] at this
      simp only [filterMap_append, append_assoc]
      refine (perm_append_comm.append_left _).trans ?_
      rw [← append_assoc]
      exact (perm_append_comm.trans this).append_right _

theorem mem_detachEvent_iff (hk : r.Keyed) : c ∈ (r.detachEvent e).2 ↔ r.Marked e c := by
  refine ⟨fun h => ?_, mem_detachEvent hk⟩
  obtain ⟨key, -, h⟩ := mem_flatMap.mp h
  rcases detachThrough_cases e (r.queue key) with ⟨-, hd⟩ | ⟨before, ctx, after, hq, hnot, hd⟩
  · simp [hd] at h
  · rw [hd] at h
    obtain ⟨item, hi, hc⟩ := mem_filterMap.mp h
    obtain ⟨hmem, hctx⟩ := mem_filter.mp hi
    cases item with
    | marker => cases hc
    | copy id context g =>
      cases hc
      obtain rfl : context = ctx := of_decide_eq_true hctx
      exact ⟨key, context, g, before, after, hq, hnot, hmem⟩

end DetachEvent

end Lupine.Deferred.Registry
