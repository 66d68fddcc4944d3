import Lupine.Graphs.Ownership
import Mathlib.Data.List.Perm.Subperm

/-!
# Lifetimes of graph staging

Staging is retired when the last owner of its resources goes, and it is freed once after that. The
server keeps this as long as no entry that still counts is overwritten and no copy is added to
resources whose last owner has gone. Nothing in the server ensures either: a destroyed exec whose
work could not be drained keeps its entry, and the driver may use its handle again.

* `releaseLoop_settled`: a release ends, with every reference accounted for.
* `mem_snapshot_iff`: a launch notes the copies of the whole chain of captures.
* `Server.sound_of_careful`: every state of a careful run is `Sound`.
* `Server.careless_runs`: three runs that end in a state that is not.
-/

namespace Lupine.Graphs.Server

open Foundations Function List Nat Option

variable {s t : Server} {o : ℕ}

/-! ## Copies of launches -/

namespace Launched

section

variable (h : s.Launched)
include h

/-- The copies are kept when no resources that one of them leads to lose staging. -/
theorem transfer (P : ℕ → Prop)
    (hcopies : ∀ c x, t.refs (.launch c) = some x → s.refs (.launch c) = some x ∧ P x)
    (hlaunches : t.launches = s.launches) (hstagingOf : t.stagingOf = s.stagingOf)
    (hstaging : ∀ x, P x → ∀ b ∈ (s.resources x).staging, b ∈ (t.resources x).staging)
    (hlink : ∀ x e, P x → s.refs (.earlier x) = some e → t.refs (.earlier x) = some e ∧ P e) :
    t.Launched where
  fresh c hc := by
    rw [hlaunches] at hc
    refine eq_none_iff_forall_ne_some.mpr fun x hx => ?_
    have hold := (hcopies c x hx).1
    rw [h.fresh c hc] at hold
    exact some_ne_none x hold.symm
  undelivered c x hx := by
    obtain ⟨hold, hP⟩ := hcopies c x hx
    rw [hstagingOf]
    exact (h.undelivered c x hold).transfer hP hstaging hlink

/-- Neither references nor staging change. -/
theorem congr (hrefs : t.refs = s.refs) (hlaunches : t.launches = s.launches)
    (hstagingOf : t.stagingOf = s.stagingOf)
    (hstaging : ∀ x, ∀ b ∈ (s.resources x).staging, b ∈ (t.resources x).staging) : t.Launched := by
  refine h.transfer (fun _ => True) ?_ hlaunches hstagingOf (fun x _ => hstaging x) ?_
  · intro c x hx
    rw [hrefs] at hx
    exact ⟨hx, trivial⟩
  · intro x e _ he
    rw [hrefs]
    exact ⟨he, trivial⟩

theorem retain {k : Holder} (hlink : ∀ x, k ≠ .earlier x) (hcopy : ∀ c, k ≠ .launch c) :
    (s.retain k o).Launched := by
  refine h.transfer (fun _ => True) ?_ rfl rfl ?_ ?_
  · intro c x hx
    rw [retain_refs_of_ne s o (hcopy c).symm] at hx
    exact ⟨hx, trivial⟩
  · intro x _ b hb
    rw [retain_staging]
    exact hb
  · intro x e _ he
    rw [retain_refs_of_ne s o (hlink x).symm]
    exact ⟨he, trivial⟩

theorem move {k j : Holder} (hk : ∀ x, k ≠ .earlier x) (hj : s.refs j = none)
    (hcopy : ∀ c, j ≠ .launch c) : (s.move k j).Launched := by
  refine h.transfer (fun _ => True) ?_ rfl rfl (fun _ _ _ hb => hb) ?_
  · intro c x hx
    rw [move_refs, if_neg (hcopy c).symm] at hx
    split_ifs at hx
    exact ⟨hx, trivial⟩
  · intro x e _ he
    have hjx : Holder.earlier x ≠ j := by
      rintro rfl
      rw [hj] at he
      exact some_ne_none e he.symm
    rw [move_refs, if_neg hjx, if_neg (hk x).symm]
    exact ⟨he, trivial⟩

theorem drop : (s.drop o).Launched := by
  refine h.transfer (fun _ => True) ?_ rfl rfl ?_ ?_
  · intro c x hx
    exact ⟨hx, trivial⟩
  · intro x _ b hb
    rw [drop_staging]
    exact hb
  · intro x e _ he
    exact ⟨he, trivial⟩

/-- No undelivered copy leads to resources whose last reference is in hand. -/
theorem expire (hc : s.Core) (ho : s.refs .hand = some o) (hlast : (s.resources o).owners = 1) :
    (s.expire o).Launched := by
  have honly : ∀ i x, i ≠ .hand → s.refs i = some x → x ≠ o := by
    rintro i x hi hx rfl
    exact hc.only_hand ho hlast hi hx
  refine h.transfer (fun x => x ≠ o) ?_ rfl rfl ?_ ?_
  · intro c x hx
    exact ⟨hx, honly _ x (by simp) hx⟩
  · intro x hxo b hb
    have hstaging := retire_staging (s.drop o) o x
    rw [if_neg hxo, drop_staging] at hstaging
    change b ∈ (((s.drop o).retire o).resources x).staging
    rwa [hstaging]
  · intro x e hxo he
    rw [expire_refs, if_neg (by simp), if_neg (by simpa using hxo)]
    exact ⟨he, honly _ e (by simp) he⟩

end

end Launched

/-! ## Releases -/

/-- The number of links to earlier resources. -/
def links (s : Server) : ℕ :=
  ((List.range s.next).filter fun x => (s.refs (.earlier x)).isSome).length

theorem links_le (s : Server) : s.links ≤ s.next := by
  have h := length_filter_le (fun x => (s.refs (.earlier x)).isSome) (List.range s.next)
  rwa [length_range] at h

/-- Expiring resources with a link takes the link away. -/
theorem links_expire_lt (h : s.Core) (ho : s.refs .hand = some o) {e : ℕ}
    (he : s.refs (.earlier o) = some e) : (s.expire o).links < s.links := by
  have hrefs : ∀ x, ((s.expire o).refs (.earlier x)).isSome = true →
      x ≠ o ∧ (s.refs (.earlier x)).isSome = true := by
    intro x hx
    rw [expire_refs, if_neg (by simp)] at hx
    split_ifs at hx with hxo
    · simp at hx
    · exact ⟨by simpa using hxo, hx⟩
  have hmem : o ∈ (List.range s.next).filter fun x => (s.refs (.earlier x)).isSome :=
    mem_filter.mpr ⟨mem_range.mpr (h.created _ o ho), by simp [he]⟩
  have hnodup : (o :: (List.range s.next).filter
      fun x => ((s.expire o).refs (.earlier x)).isSome).Nodup := by
    refine nodup_cons.mpr ⟨fun hin => ?_, nodup_range.filter _⟩
    exact (hrefs o (mem_filter.mp hin).2).1 rfl
  have hsub : (o :: (List.range s.next).filter
      fun x => ((s.expire o).refs (.earlier x)).isSome) ⊆
      (List.range s.next).filter fun x => (s.refs (.earlier x)).isSome := by
    refine cons_subset.mpr ⟨hmem, fun x hx => ?_⟩
    obtain ⟨hrange, hsome⟩ := mem_filter.mp hx
    exact mem_filter.mpr ⟨hrange, (hrefs x hsome).2⟩
  exact (subperm_of_subset hnodup hsub).length_le

/-- A release goes down the links and ends with nothing in hand. -/
theorem releaseLoop_settled {fuel : ℕ} (hc : s.Core) (hl : s.Launched) (hfuel : s.links < fuel) :
    (releaseLoop fuel s).Settled := by
  induction fuel generalizing s with
  | zero => omega
  | succ fuel ih =>
    cases ho : s.refs .hand with
    | none =>
      rw [releaseLoop, ho]
      exact ⟨hc, hl, ho⟩
    | some o =>
      simp only [releaseLoop, ho]
      split_ifs with hlast
      · have hc' := hc.expire ho hlast
        have hl' := hl.expire hc ho hlast
        cases he : s.refs (.earlier o) with
        | none =>
          have hhand : (s.expire o).refs .hand = none := by rw [expire_refs, if_pos rfl, he]
          have hstop : releaseLoop fuel (s.expire o) = s.expire o := by
            cases fuel with
            | zero => rfl
            | succ fuel => rw [releaseLoop, hhand]
          rw [hstop]
          exact ⟨hc', hl', hhand⟩
        | some e =>
          have hlt := links_expire_lt hc ho he
          exact ih hc' hl' (by omega)
      · exact ⟨hc.drop ho hlast, hl.drop, by rw [drop_refs, if_pos rfl]⟩

theorem release_settled (hc : s.Core) (hl : s.Launched) : s.release.Settled :=
  releaseLoop_settled hc hl (lt_succ_of_le s.links_le)

/-- A release only retires staging. -/
theorem releaseLoop_gone (fuel : ℕ) (s : Server) :
    s.gone <:+ (releaseLoop fuel s).gone ∧ (releaseLoop fuel s).freed = s.freed := by
  induction fuel generalizing s with
  | zero => exact ⟨suffix_rfl, rfl⟩
  | succ fuel ih =>
    cases ho : s.refs .hand with
    | none =>
      rw [releaseLoop, ho]
      exact ⟨suffix_rfl, rfl⟩
    | some o =>
      simp only [releaseLoop, ho]
      split_ifs
      · obtain ⟨hgone, hfreed⟩ := ih (s.expire o)
        have hretired : (s.expire o).gone = ((s.drop o).resources o).staging ++ s.gone :=
          append_assoc ..
        refine ⟨List.IsSuffix.trans ?_ hgone, hfreed⟩
        rw [hretired]
        exact suffix_append ..
      · exact ⟨suffix_rfl, rfl⟩

/-! ## Captures and graphs -/

/-- The map leads only to resources with the property. -/
def Leads (P : ℕ → Prop) (map : ℕ → Option ℕ) : Prop := ∀ k o, map k = some o → P o

/-- Resources that a capture may still be given. -/
def Open (s : Server) (o : ℕ) : Prop :=
  o < s.next ∧ (s.resources o).owned = false ∧ s.refs (.earlier o) = none ∧ s.Whole o

section Maps

variable {P : ℕ → Prop} {map : ℕ → Option ℕ} {k : ℕ}

theorem Leads.update {v : Option ℕ} (h : Leads P map) (hv : ∀ o, v = some o → P o) :
    Leads P (update map k v) :=
  fun i o hi => (update_eq_some hi).elim (hv o) (h i o)

theorem eraseResources_eq_some {x : ℕ} :
    eraseResources map o k = some x ↔ map k = some x ∧ x ≠ o := by
  rw [eraseResources]
  split_ifs with hk
  · rw [hk, Option.some.injEq]
    exact ⟨fun h => absurd h (by simp), fun h => absurd h.1.symm h.2⟩
  · refine ⟨fun h => ⟨h, ?_⟩, fun h => h.1⟩
    rintro rfl
    exact hk h

theorem Leads.erase (h : Leads P map) (o : ℕ) : Leads P (eraseResources map o) :=
  fun k x hk => h k x (eraseResources_eq_some.mp hk).1

end Maps

namespace Settled

section

variable (h : s.Settled)
include h

theorem freeRetired : s.freeRetired.Settled :=
  ⟨h.core.freeRetired, h.launched.congr rfl rfl rfl fun _ _ hb => hb, h.hand⟩

/-- Taking a reference out of its place and releasing it. -/
theorem release {k : Holder} (hk : ∀ x, k ≠ .earlier x) : (s.move k .hand).release.Settled :=
  release_settled (h.core.move hk h.hand (by simp)) (h.launched.move hk h.hand (by simp))

theorem retain {k j : Holder} (hk : s.refs k = none) (hlink : ∀ x, k ≠ .earlier x)
    (hcopy : ∀ c, k ≠ .launch c) (hhand : k ≠ .hand) (hj : s.refs j = some o) :
    (s.retain k o).Settled :=
  ⟨h.core.retain_of_ref hk hlink hj, h.launched.retain hlink hcopy,
    (retain_refs_of_ne s o hhand.symm).trans h.hand⟩

/-- The maps of streams and events change. -/
theorem remap {streams activeStreams events activeEvents : ℕ → Option ℕ}
    (hstreams : Leads (· < s.next) streams) (hevents : Leads (· < s.next) events)
    (hactiveStreams : Leads s.Open activeStreams) (hactiveEvents : Leads s.Open activeEvents) :
    Settled { s with
      streams := streams
      activeStreams := activeStreams
      events := events
      activeEvents := activeEvents } := by
  refine ⟨h.core.remap (fun k o hk => ?_) fun k o hk => ?_,
    h.launched.congr rfl rfl rfl fun _ _ hb => hb, h.hand⟩
  · exact hk.elim (hstreams k o) (hevents k o)
  · exact hk.elim (hactiveStreams k o) (hactiveEvents k o)

theorem streams : Leads (· < s.next) s.streams :=
  fun k o hk => h.core.entries k o (.inl hk)

theorem events : Leads (· < s.next) s.events :=
  fun k o hk => h.core.entries k o (.inr hk)

theorem activeStreams : Leads s.Open s.activeStreams :=
  fun k o hk => h.core.capturing o ⟨k, .inl hk⟩

theorem activeEvents : Leads s.Open s.activeEvents :=
  fun k o hk => h.core.capturing o ⟨k, .inr hk⟩

theorem create : s.create.Settled :=
  ⟨h.core.create, h.launched.congr rfl rfl rfl fun _ _ hb => hb, h.hand⟩

theorem addCopy (ho : o < s.next) (hlive : ¬ s.Expired o) : (s.addCopy o).Settled := by
  refine ⟨h.core.addCopy ho hlive, h.launched.congr rfl rfl rfl fun x b hb => ?_, h.hand⟩
  rw [addCopy_staging]
  split_ifs
  · exact mem_cons_of_mem _ hb
  · exact hb

theorem open_next : s.create.Open s.next :=
  have ⟨hfalse, hnone⟩ := h.core.unused s.next le_rfl
  ⟨lt_succ_self _, hfalse, hnone, h.core.whole_next⟩

theorem beginCapture (stream : ℕ) : (s.beginCapture stream).Settled := by
  have hc := h.create
  refine hc.remap (hc.streams.update ?_) hc.events (hc.activeStreams.update ?_) hc.activeEvents
  · rintro o ⟨⟩
    exact h.open_next.1
  · rintro o ⟨⟩
    exact h.open_next

theorem discardCapture (o : ℕ) : (s.discardCapture o).Settled :=
  h.remap (h.streams.erase o) h.events (h.activeStreams.erase o) h.activeEvents

theorem endCapture (o : ℕ) : (s.endCapture o).Settled :=
  h.remap (h.streams.erase o) h.events (h.activeStreams.erase o) (h.activeEvents.erase o)

omit h in
/-- Nothing takes part in a capture that has ended. -/
theorem not_capturing_endCapture (s : Server) (o : ℕ) : ¬ (s.endCapture o).Capturing o := by
  rintro ⟨k, hk | hk⟩ <;> exact (eraseResources_eq_some.mp hk).2 rfl

theorem finishCapture (stream graph : ℕ) (success : Bool) :
    (s.finishCapture stream graph success).Settled := by
  cases ho : s.activeStreams stream with
  | none =>
    rw [Server.finishCapture, ho]
    exact h
  | some o =>
    simp only [Server.finishCapture, ho]
    obtain ⟨hlt, hfalse, hnone, hwhole⟩ := h.core.capturing o ⟨stream, .inl ho⟩
    have hended := h.endCapture o
    have hcap := not_capturing_endCapture s o
    split_ifs
    · -- The graph's entry becomes the link, and the graph refers to the new resources.
      have hmoved := hended.core.move (k := .graph graph) (j := .earlier o) (by simp) hnone
        (by simpa using ⟨hlt, hfalse, hcap⟩)
      have hempty : ((s.endCapture o).move (.graph graph) (.earlier o)).refs (.graph graph) =
          none := by
        rw [move_refs, if_neg (by simp), if_pos rfl]
      refine ⟨hmoved.retain hempty (by simp) hlt hcap hwhole, ?_, ?_⟩
      · exact (hended.launched.move (by simp) hnone (by simp)).retain (by simp) (by simp)
      · exact h.hand
    · refine ⟨hended.core.retire hfalse hcap, ?_, h.hand⟩
      -- No copy leads to resources that never had an owner.
      have hfree := hended.core.ne_of_not_owned hfalse
      have hne : ∀ k x, s.refs k = some x → x ≠ o := by
        rintro k x hk rfl
        exact hfree k hk
      refine hended.launched.transfer (fun x => x ≠ o) ?_ rfl rfl ?_ ?_
      · exact fun c x hx => ⟨hx, hne _ x hx⟩
      · intro x hx b hb
        rw [retire_staging, if_neg hx]
        exact hb
      · exact fun x e _ he => ⟨he, hne _ e he⟩

theorem recordEvent (event stream : ℕ) : (s.recordEvent event stream).Settled :=
  h.remap h.streams (h.events.update (h.streams stream)) h.activeStreams
    (h.activeEvents.update (h.activeStreams stream))

theorem forgetEvent (event : ℕ) : (s.forgetEvent event).Settled :=
  h.remap h.streams (h.events.update (by simp)) h.activeStreams (h.activeEvents.update (by simp))

theorem waitEvent (stream event : ℕ) : (s.waitEvent stream event).Settled := by
  refine h.remap (h.streams.update fun o ho => ?_) h.events (h.activeStreams.update fun o ho => ?_)
    h.activeEvents
  · rcases or_eq_some_iff.mp ho with ho | ⟨-, ho⟩
    · exact h.events event o ho
    · exact h.streams stream o ho
  · rcases or_eq_some_iff.mp ho with ho | ⟨-, ho⟩
    · exact h.activeStreams stream o ho
    · exact h.activeEvents event o ho

/-- The resources of a graph are owned by its entry. -/
theorem getGraphResources (graph : ℕ) :
    (s.getGraphResources graph).1.Settled ∧
      (s.getGraphResources graph).1.refs (.graph graph) = some (s.getGraphResources graph).2 := by
  cases hg : s.refs (.graph graph) with
  | some o =>
    simp only [Server.getGraphResources, hg]
    exact ⟨h, trivial⟩
  | none =>
    simp only [Server.getGraphResources, hg, retain_refs_self, and_true]
    have hc := h.create
    have hcap : ¬ s.create.Capturing s.next := fun hcap =>
      lt_irrefl _ (h.core.capturing s.next hcap).1
    refine ⟨hc.core.retain hg (by simp) (lt_succ_self _) hcap h.core.whole_next, ?_, ?_⟩
    · exact hc.launched.retain (by simp) (by simp)
    · exact h.hand

/-- The resources of a stream have lost their last owner only if its entry had. -/
theorem getStreamResources (stream : ℕ) :
    (s.getStreamResources stream).1.Settled ∧
      (s.getStreamResources stream).2 < (s.getStreamResources stream).1.next ∧
      ((∀ o ∈ s.streams stream, ¬ s.Expired o) →
        ¬ (s.getStreamResources stream).1.Expired (s.getStreamResources stream).2) := by
  cases hk : s.streams stream with
  | some o =>
    simp only [Server.getStreamResources, hk]
    exact ⟨h, h.core.entries stream o (.inl hk), fun hlive => hlive o rfl⟩
  | none =>
    simp only [Server.getStreamResources, hk]
    have hc := h.create
    refine ⟨hc.remap (hc.streams.update ?_) hc.events hc.activeStreams hc.activeEvents,
      lt_succ_self _, ?_⟩
    · rintro o ⟨⟩
      exact lt_succ_self _
    · rintro - ⟨howned, -⟩
      exact Bool.false_ne_true ((h.core.unused s.next le_rfl).1.symm.trans howned)

theorem rebindExec (exec graph : ℕ) : (s.rebindExec exec graph).Settled := by
  have hc := h.core.move (k := .exec exec) (by simp) h.hand (by simp)
  have hl := h.launched.move (k := .exec exec) (by simp) h.hand (by simp)
  cases hg : s.refs (.graph graph) with
  | none =>
    simp only [Server.rebindExec, hg]
    exact (release_settled hc hl).freeRetired
  | some o =>
    simp only [Server.rebindExec, hg]
    have hempty : (s.move (.exec exec) .hand).refs (.exec exec) = none := by
      rw [move_refs, if_neg (by simp), if_pos rfl]
    have hgraph : (s.move (.exec exec) .hand).refs (.graph graph) = some o := by
      rw [move_refs, if_neg (by simp), if_neg (by simp), hg]
    exact (release_settled (hc.retain_of_ref hempty (by simp) hgraph)
      (hl.retain (by simp) (by simp))).freeRetired

end

/-! ## Launches -/

theorem inChain_noteCopy (s : Server) (o n : ℕ) {x b : ℕ} (h : s.InChain x b) :
    (noteCopy o s n).InChain x b := by
  refine h.transfer (P := fun _ => True) trivial ?_ ?_
  · intro y _ b hb
    change b ∈ ((s.retain (.launch s.launches) o).resources y).staging
    rw [retain_staging]
    exact hb
  · intro y e _ he
    refine ⟨?_, trivial⟩
    change (s.retain (.launch s.launches) o).refs (.earlier y) = some e
    rwa [retain_refs_of_ne s o (by simp)]

theorem noteCopy (h : s.Settled) {e n : ℕ} (he : s.refs (.exec e) = some o) (hn : s.InChain o n) :
    (noteCopy o s n).Settled := by
  have hfresh := h.launched.fresh s.launches le_rfl
  have hcore := h.core.retain_of_ref hfresh (by simp) he
  refine ⟨{ hcore with stocked := hcore.stocked.congr (fun _ => rfl) rfl rfl rfl }, ?_, ?_⟩
  · constructor
    · intro c hc
      change s.launches + 1 ≤ c at hc
      change (s.retain (.launch s.launches) o).refs (.launch c) = none
      have hne : c ≠ s.launches := by omega
      rw [retain_refs_of_ne s o (by simpa using hne)]
      exact h.launched.fresh c (by omega)
    · intro c x hx
      change (s.retain (.launch s.launches) o).refs (.launch c) = some x at hx
      change (Server.noteCopy o s n).InChain x (update s.stagingOf s.launches n c)
      rcases eq_or_ne c s.launches with rfl | hne
      · rw [retain_refs_self, Option.some.injEq] at hx
        rw [update_self, ← hx]
        exact inChain_noteCopy s o n hn
      · rw [retain_refs_of_ne s o (by simpa using hne)] at hx
        rw [update_of_ne hne]
        exact inChain_noteCopy s o n (h.launched.undelivered c x hx)
  · change (s.retain (.launch s.launches) o).refs .hand = none
    exact h.hand

theorem foldl_noteCopy {copies : List ℕ} (h : s.Settled) {e : ℕ} (he : s.refs (.exec e) = some o)
    (hcopies : ∀ n ∈ copies, s.InChain o n) :
    (copies.foldl (Server.noteCopy o) s).Settled ∧
      (copies.foldl (Server.noteCopy o) s).refs (.exec e) = some o := by
  induction copies generalizing s with
  | nil => exact ⟨h, he⟩
  | cons n copies ih =>
    refine ih (h.noteCopy he (hcopies n mem_cons_self)) ?_ fun m hm =>
      inChain_noteCopy s o n (hcopies m (mem_cons_of_mem n hm))
    change (s.retain (.launch s.launches) o).refs (.exec e) = some o
    rwa [retain_refs_of_ne s o (by simp)]

end Settled

theorem inChain_of_mem_snapshot {fuel b : ℕ} (h : b ∈ s.snapshot fuel o) : s.InChain o b := by
  induction fuel generalizing o with
  | zero => simp [snapshot] at h
  | succ fuel ih =>
    rw [snapshot, mem_append, mem_reverse] at h
    rcases h with h | h
    · cases he : s.refs (.earlier o) with
      | none => simp [he] at h
      | some e =>
        rw [he] at h
        exact .link he (ih h)
    · exact .here h

/-- With the resources that led to `o`, all of higher rank, there is fuel for the rest of the
chain. -/
theorem mem_snapshot_of_inChain (hc : s.Core) {rank : ℕ → ℕ}
    (hrank : ∀ o e, s.refs (.earlier o) = some e → rank e < rank o) {b : ℕ} (h : s.InChain o b)
    {fuel : ℕ} {path : List ℕ} (hnodup : (o :: path).Nodup) (hlt : ∀ x ∈ o :: path, x < s.next)
    (hpath : ∀ x ∈ path, rank o < rank x) (hfuel : s.next < fuel + path.length) :
    b ∈ s.snapshot fuel o := by
  have hlength : ∀ {l : List ℕ}, l.Nodup → (∀ x ∈ l, x < s.next) → l.length ≤ s.next := by
    intro l hl hsub
    have hle := (subperm_of_subset hl fun x hx => mem_range.mpr (hsub x hx)).length_le
    rwa [length_range] at hle
  induction h generalizing fuel path with
  | here hb =>
    have hle := hlength hnodup hlt
    rw [length_cons] at hle
    obtain ⟨fuel, rfl⟩ := exists_eq_succ_of_ne_zero (show fuel ≠ 0 by omega)
    rw [snapshot, mem_append, mem_reverse]
    exact .inr hb
  | @link o e b he _ ih =>
    have hle := hlength hnodup hlt
    rw [length_cons] at hle
    obtain ⟨fuel, rfl⟩ := exists_eq_succ_of_ne_zero (show fuel ≠ 0 by omega)
    have hlower : ∀ x ∈ o :: path, rank e < rank x := by
      intro x hx
      rcases mem_cons.mp hx with rfl | hx
      · exact hrank x e he
      · exact lt_trans (hrank o e he) (hpath x hx)
    have hnew : e ∉ o :: path := fun hin => lt_irrefl _ (hlower e hin)
    rw [snapshot, he, mem_append]
    refine .inl (ih (nodup_cons.mpr ⟨hnew, hnodup⟩) ?_ hlower ?_)
    · intro x hx
      rcases mem_cons.mp hx with rfl | hx
      · exact hc.created _ x he
      · exact hlt x hx
    · rw [length_cons]
      omega

theorem Settled.noteLaunch (h : s.Settled) (exec stream : ℕ) :
    (s.noteLaunch exec stream).Settled := by
  cases he : s.refs (.exec exec) with
  | none =>
    rw [Server.noteLaunch, he]
    exact h
  | some o =>
    simp only [Server.noteLaunch, he]
    obtain ⟨hnoted, he'⟩ := h.foldl_noteCopy he fun n hn => inChain_of_mem_snapshot hn
    refine hnoted.remap (hnoted.streams.update ?_) hnoted.events hnoted.activeStreams
      hnoted.activeEvents
    rintro x ⟨⟩
    exact hnoted.core.created _ o he'

/-! ## Runs -/

/-- The step overwrites no entry that counts, and adds no copy to resources whose last owner has
gone. -/
def Careful (s : Server) : Action → Prop
  | .instantiate exec graph => s.refs (.graph graph) = none ∨ s.refs (.exec exec) = none
  | .clone clone original => s.refs (.graph original) = none ∨ s.refs (.graph clone) = none
  | .captureCopy stream ok => ok = true → ∀ o ∈ s.streams stream, ¬ s.Expired o
  | _ => True

instance (s : Server) : (a : Action) → Decidable (s.Careful a)
  | .instantiate .. => inferInstanceAs (Decidable (_ ∨ _))
  | .clone .. => inferInstanceAs (Decidable (_ ∨ _))
  | .captureCopy stream ok =>
    inferInstanceAs (Decidable (ok = true → ∀ o ∈ s.streams stream, ¬ s.Expired o))
  | .beginCapture .. | .finishCapture .. | .recordEvent .. | .forgetEvent _ | .waitEvent ..
  | .memcpyNode _ | .hostNode _ | .update .. | .launch .. | .deliver _ | .destroyGraph _
  | .destroyExec .. => isTrue trivial

attribute [local simp] initial

theorem settled_initial : initial.Settled where
  core :=
    { counts := fun _ => HeldBy.zero_iff.mpr (by simp)
      created := by simp
      owned := by simp
      expired := by simp [Expired]
      whole := by simp
      unused := by simp
      homes := by simp
      entries := by simp
      capturing := by simp [Capturing]
      stocked := by constructor <;> simp [gone]
      ranked := ⟨fun _ => 0, by simp⟩ }
  launched := ⟨fun _ _ => rfl, by simp⟩
  hand := rfl

theorem Settled.step {a : Action} (h : s.Settled) (ha : s.Careful a) (hst : s.step a = some t) :
    t.Settled := by
  cases a with
  | beginCapture stream ok =>
    cases hst
    split_ifs
    · exact h.beginCapture stream
    · exact (h.beginCapture stream).discardCapture s.next
  | finishCapture stream graph success =>
    cases hst
    exact h.finishCapture stream graph success
  | recordEvent event stream =>
    cases hst
    exact h.recordEvent event stream
  | forgetEvent event =>
    cases hst
    exact h.forgetEvent event
  | waitEvent stream event =>
    cases hst
    exact h.waitEvent stream event
  | captureCopy stream ok =>
    cases hst
    obtain ⟨hr, hlt, hlive⟩ := h.getStreamResources stream
    split_ifs with hok
    · exact hr.addCopy hlt (hlive (ha hok))
    · exact hr
  | memcpyNode graph =>
    cases hst
    obtain ⟨hr, hg⟩ := h.getGraphResources graph
    refine hr.addCopy (hr.core.created _ _ hg) fun hexpired => ?_
    exact absurd hexpired.2 (hr.core.owners_pos hg).ne'
  | hostNode graph =>
    cases hst
    exact (h.getGraphResources graph).1
  | clone clone original =>
    cases hst
    cases hg : s.refs (.graph original) with
    | none =>
      rw [cloneGraph, hg]
      exact h
    | some o =>
      simp only [cloneGraph, hg]
      exact h.retain (ha.resolve_left (by simp [hg])) (by simp) (by simp) (by simp) hg
  | instantiate exec graph =>
    cases hst
    cases hg : s.refs (.graph graph) with
    | none =>
      rw [associateExec, hg]
      exact h
    | some o =>
      simp only [associateExec, hg]
      exact h.retain (ha.resolve_left (by simp [hg])) (by simp) (by simp) (by simp) hg
  | update exec graph =>
    cases hst
    exact h.rebindExec exec graph
  | launch exec stream =>
    cases hst
    exact h.noteLaunch exec stream
  | deliver copy =>
    rw [Server.step, ite_none_right_eq_some, Option.some.injEq] at hst
    obtain ⟨-, rfl⟩ := hst
    exact h.release (by simp)
  | destroyGraph graph =>
    cases hst
    exact (h.release (by simp)).freeRetired
  | destroyExec exec drained =>
    cases hst
    split_ifs
    · exact (h.release (by simp)).freeRetired
    · exact h

/-- What the owner counts are for. -/
structure Sound (s : Server) : Prop where
  /-- The count is the number of entries, undelivered copies and links; nothing is in hand. -/
  owners : ∀ o, HeldBy s.refs o (s.resources o).owners
  hand : s.refs .hand = none
  /-- Staging of resources that had an owner is retired exactly when they have none left. -/
  retired_iff : ∀ b < s.allocated, (s.resources (s.home b)).owned = true →
    (b ∈ s.gone ↔ (s.resources (s.home b)).owners = 0)
  /-- Staging is retired and freed once. -/
  once : s.gone.Nodup
  /-- A copy that is yet to be delivered reads staging that is neither retired nor freed. -/
  undelivered : ∀ c o, s.refs (.launch c) = some o →
    s.stagingOf c < s.allocated ∧ s.stagingOf c ∉ s.gone

theorem Settled.sound (h : s.Settled) : s.Sound where
  owners := h.core.counts
  hand := h.hand
  retired_iff b hb howned := by
    have hkept := h.core.stocked.kept_iff b hb
    constructor
    · intro hgone
      by_contra hne
      exact hkept.mp (h.core.whole _ howned (pos_of_ne_zero hne) b hb rfl) hgone
    · intro hzero
      rw [(h.core.expired _ ⟨howned, hzero⟩).2] at hkept
      exact not_not.mp (mt hkept.mpr not_mem_nil)
  once := h.core.stocked.once
  undelivered c o hc := (h.launched.undelivered c o hc).lt_allocated h.core.stocked

/-- The steps that free what is retired. -/
def Action.frees : Action → Bool
  | .update .. => true
  | .destroyGraph _ => true
  | .destroyExec _ drained => drained
  | _ => false

theorem foldl_noteCopy_gone (copies : List ℕ) (o : ℕ) (s : Server) :
    (copies.foldl (noteCopy o) s).gone = s.gone ∧
      (copies.foldl (noteCopy o) s).freed = s.freed := by
  induction copies generalizing s with
  | nil => exact ⟨rfl, rfl⟩
  | cons n copies ih => exact ih (noteCopy o s n)

/-- A release followed by `lupine_free_retired_graph_staging`. -/
theorem release_freeRetired_gone (s : Server) (P : Prop) :
    s.gone <:+ s.release.freeRetired.gone ∧ s.freed <:+ s.release.freeRetired.freed ∧
      (P → s.release.freeRetired.retired = []) := by
  obtain ⟨hgone, hfreed⟩ := releaseLoop_gone (s.next + 1) s
  refine ⟨hgone, ?_, fun _ => rfl⟩
  rw [← hfreed]
  exact suffix_append ..

/-- What is retired stays retired or is freed, and what is freed stays freed. -/
theorem step_gone {a : Action} (hst : s.step a = some t) :
    s.gone <:+ t.gone ∧ s.freed <:+ t.freed ∧ (a.frees = true → t.retired = []) := by
  have hsame : s.gone <:+ s.gone ∧ s.freed <:+ s.freed ∧ (false = true → s.retired = []) :=
    ⟨suffix_rfl, suffix_rfl, nofun⟩
  cases a with
  | beginCapture stream ok =>
    cases hst
    cases ok <;> exact hsame
  | finishCapture stream graph success =>
    cases hst
    cases ho : s.activeStreams stream with
    | none =>
      rw [finishCapture, ho]
      exact hsame
    | some o =>
      simp only [finishCapture, ho]
      split_ifs
      · exact hsame
      · have hretired : ((s.endCapture o).retire o).gone = (s.resources o).staging ++ s.gone :=
          append_assoc ..
        rw [hretired]
        exact ⟨suffix_append .., suffix_rfl, nofun⟩
  | recordEvent event stream | forgetEvent event | waitEvent stream event =>
    cases hst
    exact hsame
  | captureCopy stream ok =>
    cases hst
    cases hk : s.streams stream <;> cases ok <;> simp only [getStreamResources, hk] <;>
      exact hsame
  | memcpyNode graph | hostNode graph =>
    cases hst
    cases hg : s.refs (.graph graph) <;> simp only [getGraphResources, hg] <;>
      exact hsame
  | clone clone original =>
    cases hst
    cases hg : s.refs (.graph original) <;> simp only [cloneGraph, hg] <;>
      exact hsame
  | instantiate exec graph =>
    cases hst
    cases hg : s.refs (.graph graph) <;> simp only [associateExec, hg] <;>
      exact hsame
  | update exec graph =>
    cases hst
    cases hg : s.refs (.graph graph) <;> simp only [rebindExec, hg]
    · exact release_freeRetired_gone (s.move (.exec exec) .hand) _
    · exact release_freeRetired_gone ((s.move (.exec exec) .hand).retain (.exec exec) _) _
  | launch exec stream =>
    cases hst
    cases he : s.refs (.exec exec) with
    | none =>
      rw [noteLaunch, he]
      exact hsame
    | some o =>
      simp only [noteLaunch, he]
      obtain ⟨hgone, hfreed⟩ := foldl_noteCopy_gone (s.snapshot (s.next + 1) o) o s
      exact ⟨⟨[], hgone.symm⟩, ⟨[], hfreed.symm⟩, nofun⟩
  | deliver copy =>
    rw [step, ite_none_right_eq_some, Option.some.injEq] at hst
    obtain ⟨-, rfl⟩ := hst
    obtain ⟨hgone, hfreed⟩ := releaseLoop_gone (s.next + 1) (s.move (.launch copy) .hand)
    exact ⟨hgone, ⟨[], hfreed.symm⟩, nofun⟩
  | destroyGraph graph =>
    cases hst
    exact release_freeRetired_gone (s.move (.graph graph) .hand) _
  | destroyExec exec drained =>
    cases hst
    cases drained with
    | false => exact hsame
    | true => exact release_freeRetired_gone (s.move (.exec exec) .hand) _

/-- **Graph resource ownership.** In every state of a careful run the owner counts are the numbers
of references, staging is retired exactly when its resources have lost their last owner, and no
copy that is yet to be delivered reads retired staging. From there, what is retired or freed stays
so, and the next update or destruction frees what is retired. -/
theorem sound_of_careful {as : List Action} (hrun : exec step initial as = some s)
    (hcareful : Along step Careful initial as) :
    s.Sound ∧ ∀ a t, s.step a = some t →
      s.gone <:+ t.gone ∧ s.freed <:+ t.freed ∧ (a.frees = true → t.retired = []) := by
  have hsettled : s.Settled :=
    exec_invariant_along (fun _ _ _ h ha hst => h.step ha hst) settled_initial hcareful hrun
  exact ⟨hsettled.sound, fun _ _ => step_gone⟩

/-- Two captures into one graph, a launch that is delivered after the graph and the exec are
destroyed, and the destruction of another graph, which frees the staging. -/
def recapture : List Action :=
  [.beginCapture 0 true, .captureCopy 0 true, .finishCapture 0 10 true, .beginCapture 0 true,
    .captureCopy 0 true, .finishCapture 0 10 true, .instantiate 20 10, .launch 20 0,
    .destroyGraph 10, .destroyExec 20 true, .deliver 0, .deliver 1, .destroyGraph 11]

theorem sound_of_careful_recapture :
    ∃ t, exec step initial recapture = some t ∧ t.freed = [0, 1] ∧ t.Sound :=
  ⟨_, rfl, by decide, (@sound_of_careful _ recapture rfl (by decide)).1⟩

/-- **Copies of a launch.** In every state of a careful run, what a launch takes a snapshot of is
the staging of its resources and of all earlier ones: there is fuel for the whole chain. -/
theorem mem_snapshot_iff {as : List Action} (hrun : exec step initial as = some s)
    (hcareful : Along step Careful initial as) (ho : o < s.next) (b : ℕ) :
    b ∈ s.snapshot (s.next + 1) o ↔ s.InChain o b := by
  have hsettled : s.Settled :=
    exec_invariant_along (fun _ _ _ h ha hst => h.step ha hst) settled_initial hcareful hrun
  obtain ⟨rank, hrank⟩ := hsettled.core.ranked
  refine ⟨inChain_of_mem_snapshot, fun h => ?_⟩
  exact mem_snapshot_of_inChain hsettled.core hrank h (nodup_singleton o) (by simpa using ho)
    (by simp) (by simp)

theorem mem_snapshot_recapture : ∃ t, exec step initial (recapture.take 7) = some t ∧
    (0 ∈ t.snapshot (t.next + 1) 1 ↔ t.InChain 1 0) :=
  ⟨_, rfl, @mem_snapshot_iff _ _ (recapture.take 7) rfl (by decide) (by decide) 0⟩

/-! ## Runs that are not careful -/

/-- The work of the exec cannot be drained when it is destroyed, and the driver gives its handle to
the next exec, whose entry overwrites the one that was left. The capture also holds a copy from
pageable memory, whose callback makes `lupine_drain_htod_graph_exec` drain the exec. -/
def undrainedExec : List Action :=
  [.beginCapture 0 true, .captureCopy 0 true, .finishCapture 0 10 true, .instantiate 20 10,
    .destroyExec 20 false, .instantiate 20 10, .destroyExec 20 true, .destroyGraph 10]

/-- A graph that was destroyed with its parent leaves its entry, and the driver gives its handle
to a clone. -/
def reusedGraph : List Action :=
  [.memcpyNode 11, .hostNode 10, .clone 11 10, .destroyGraph 11, .destroyGraph 10]

/-- A graph is launched into a capture and destroyed, and then a copy is captured. -/
def launchedIntoCapture : List Action :=
  [.hostNode 10, .instantiate 20 10, .beginCapture 0 true, .launch 20 0, .destroyGraph 10,
    .destroyExec 20 true, .captureCopy 0 true]

/-- A count that is not zero is wrong when nothing refers to the resources. -/
theorem not_sound_of_unreferenced (hzero : (s.resources o).owners ≠ 0)
    (hnone : ∀ k, s.refs k ≠ some o) : ¬ s.Sound := fun h =>
  hzero ((h.owners o).eq_zero_iff.mpr hnone)

theorem careless_runs :
    (∃ t, exec step initial undrainedExec = some t ∧ ¬ t.Sound ∧
      (∀ k, t.refs k ≠ some 0) ∧ (t.resources 0).staging = [0]) ∧
    (∃ t, exec step initial reusedGraph = some t ∧ ¬ t.Sound ∧
      (∀ k, t.refs k ≠ some 0) ∧ (t.resources 0).staging = [0]) ∧
    ∃ t, exec step initial launchedIntoCapture = some t ∧ ¬ t.Sound ∧
      (t.resources 0).owners = 0 ∧ (t.resources 0).staging = [0] := by
  have hundrained : ∃ t, exec step initial undrainedExec = some t ∧ (t.resources 0).owners ≠ 0 ∧
      (∀ k, t.refs k ≠ some 0) ∧ (t.resources 0).staging = [0] := by
    refine ⟨_, rfl, by decide, ?_, by decide⟩
    intro k
    by_cases hg : k = .graph 10
    · rw [hg]
      decide
    by_cases he : k = .exec 20
    · rw [he]
      decide
    by_cases hh : k = .hand
    · rw [hh]
      decide
    simp [beginCapture, create, getStreamResources, addCopy, finishCapture, endCapture, move,
      retain, associateExec, release, releaseLoop, drop, freeRetired, hg, he, hh]
  have hreused : ∃ t, exec step initial reusedGraph = some t ∧ (t.resources 0).owners ≠ 0 ∧
      (∀ k, t.refs k ≠ some 0) ∧ (t.resources 0).staging = [0] := by
    refine ⟨_, rfl, by decide, ?_, by decide⟩
    intro k
    by_cases hg : k = .graph 10
    · rw [hg]
      decide
    by_cases hc : k = .graph 11
    · rw [hc]
      decide
    by_cases hh : k = .hand
    · rw [hh]
      decide
    simp [create, getGraphResources, addCopy, cloneGraph, move, retain, release, releaseLoop, drop,
      expire, retire, freeRetired, update_apply, hg, hc, hh]
  obtain ⟨t, ht, hzero, hnone, hstaging⟩ := hundrained
  obtain ⟨u, hu, hzero', hnone', hstaging'⟩ := hreused
  refine ⟨⟨t, ht, not_sound_of_unreferenced hzero hnone, hnone, hstaging⟩,
    ⟨u, hu, not_sound_of_unreferenced hzero' hnone', hnone', hstaging'⟩, _, rfl, ?_, rfl, by decide⟩
  intro h
  exact absurd ((h.retired_iff 0 (by decide) (by decide)).mpr (by decide)) (by decide)

end Lupine.Graphs.Server
