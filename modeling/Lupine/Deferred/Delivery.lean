import Mathlib.Data.List.Range
import Lupine.Foundations.Placement
import Lupine.Deferred.Pending
import Lupine.Deferred.Pipeline

/-!
# Where a deferred copy is

Every copy that has been issued is in one place: with the worker that enqueued it, in a queue of
the registry, with a worker that detached it, on its way to the client, or applied there.

* `Sited`, `Early` and `Ordered` say where copies are, that what was detached has been executed,
  and how the copies of one stream follow each other through the places.
* `Timely` is the condition under which a step keeps them, and `Step.effect` what such a step does
  to the places.
-/

namespace Lupine.Deferred

open Foundations Function Registry List

variable {Worker Stream Event Context Resource Exec : Type}
variable {w : Worker} {old φ : Phase Stream Event Context Resource}

/-- Where a copy can be. -/
inductive Place (Worker Stream : Type)
  | staged (worker : Worker)
  | queued (key : Option Stream)
  | held (worker : Worker)
  | flying (worker : Worker)
  | delivered

namespace Place

/-- Detached. -/
def Out : Place Worker Stream → Prop
  | held _ | flying _ | delivered => True
  | _ => False

/-- When a copy of a stream is in `p'`, an earlier one may be in `p`. -/
def Ahead (p p' : Place Worker Stream) : Prop :=
  p = delivered ∨
    match p' with
    | staged _ => True
    | queued _ => ∀ w, p ≠ staged w
    | held _ | flying _ => p = p'
    | delivered => False

variable {p p' q : Place Worker Stream}

/-- Whatever is past the workers that stage copies may be ahead of what is in its own place. -/
theorem ahead_self (hq : ∀ w, q ≠ staged w) : q.Ahead q := by
  cases q with
  | staged w => exact absurd rfl (hq w)
  | queued => exact .inr hq
  | held | flying => exact .inr rfl
  | delivered => exact .inl rfl

/-- What is ahead of another place stays so when it goes on, and leaves its own place. -/
theorem Ahead.later (h : p.Ahead p') (hp : p ≠ delivered) (hq : ∀ w, q ≠ staged w) :
    q.Ahead p' ∨ p.Out ∧ p' = p := by
  rcases h with hd | hd
  · exact absurd hd hp
  · cases p' with
    | staged => exact .inl (.inr trivial)
    | queued => exact .inl (.inr hq)
    | held | flying => exact .inr ⟨hd ▸ trivial, hd.symm⟩
    | delivered => exact hd.elim

end Place

namespace Pipeline

variable {D : Driver Stream Context} {G : Graphs Exec Resource}
  {σ σ' : Pipeline Worker Stream Event Context Resource}
  {a : Action Worker Stream Event Context Resource Exec}

/-- The copies in a place. -/
def ids (σ : Pipeline Worker Stream Event Context Resource) : Place Worker Stream → List ℕ
  | .staged w => (σ.phase w).staged
  | .queued key => σ.registry.pending key
  | .held w => (σ.phase w).held
  | .flying w => σ.inFlight w
  | .delivered => σ.delivered

end Pipeline

namespace Phase

/-- The stream whose copies are on their way into the registry. -/
def target : Phase Stream Event Context Resource → Option (Target Stream Context)
  | copying t _ | launching t _ _ => some t
  | _ => none

/-- From the driver call to the writing of the response. -/
def busy : Phase Stream Event Context Resource → Bool
  | waiting _ _ | returned _ _ | holding _ => true
  | _ => false

end Phase

namespace Pipeline

variable {D : Driver Stream Context} {G : Graphs Exec Resource}
  {σ σ' : Pipeline Worker Stream Event Context Resource}
  {a : Action Worker Stream Event Context Resource Exec}

/-! ## What holds in every state -/

/-- Every issued copy is in one place, once. -/
structure Sited (σ : Pipeline Worker Stream Event Context Resource) : Prop where
  placed : Placed σ.ids
  issued : ∀ c, (∃ p, c ∈ σ.ids p) ↔ c < σ.next
  indexed : σ.registry.Indexed
  staged_home : ∀ w, ∀ c ∈ (σ.phase w).staged, σ.home c = (σ.phase w).target
  queued_home : ∀ key, ∀ c ∈ σ.registry.pending key, ∃ t, σ.home c = some t ∧ t.key = key
  busy : ∀ w, (σ.phase w).busy = true → σ.inFlight w = []

/-- What has been detached, or waited for, has been executed. -/
structure Early (σ : Pipeline Worker Stream Event Context Resource) : Prop where
  out : ∀ p : Place Worker Stream, p.Out → ∀ c ∈ σ.ids p, c ∈ σ.executed
  returned : ∀ w scope waits, σ.phase w = .returned scope waits → ∀ c ∈ waits, c ∈ σ.executed

/-- The copies of a stream follow each other. -/
structure Ordered (σ : Pipeline Worker Stream Event Context Resource) : Prop where
  sorted : ∀ p, (σ.ids p).Pairwise fun c c' => σ.home c = σ.home c' → c < c'
  ahead : ∀ p p' c c', c ∈ σ.ids p → c' ∈ σ.ids p' → c < c' → σ.home c = σ.home c' →
    p.Ahead p'

/-! ## Moving copies -/

/-- Copies move on from places that are not the last one, and from a worker's hands all at once. -/
theorem Ordered.move {q : Place Worker Stream} {moved : List ℕ} (h : σ.Ordered)
    (hm : Moves σ.ids σ'.ids q moved) (hhome : σ'.home = σ.home) (hq : ∀ w, q ≠ .staged w)
    (hfrom : ∀ c ∈ moved, ∃ p, c ∈ σ.ids p ∧ p ≠ .delivered ∧ (p.Out → ∀ c ∈ σ.ids p, c ∈ moved))
    (hsorted : moved.Pairwise fun c c' => σ.home c = σ.home c' → c < c')
    (hlast : ∀ c ∈ σ.ids q, ∀ c' ∈ moved, σ.home c = σ.home c' → c < c')
    (hin : ∀ p c c', c ∈ σ.ids p → c ∈ σ'.ids p → c' ∈ moved → c < c' → σ.home c = σ.home c' →
      p.Ahead q) : σ'.Ordered := by
  constructor
  · intro p
    rw [hhome]
    by_cases hp : p = q
    · rw [hp, hm.target, pairwise_append]
      exact ⟨h.sorted q, hsorted, hlast⟩
    · exact (h.sorted p).sublist (hm.sublist p hp)
  · intro p p' c c' hc hc' hlt heq
    rw [hhome] at heq
    rcases hm.subset hc with hold | ⟨rfl, hnew⟩ <;> rcases hm.subset hc' with hold' | ⟨rfl, hnew'⟩
    · exact h.ahead p p' c c' hold hold' hlt heq
    · exact hin p c c' hold hc hnew' hlt heq
    · obtain ⟨src, hsrc, hne, hall⟩ := hfrom c hnew
      rcases (h.ahead src p' c c' hsrc hold' hlt heq).later hne hq with ha | ⟨hout, rfl⟩
      · exact ha
      · -- the later copy has moved, too
        by_cases hp : p' = p
        · subst hp
          exact Place.ahead_self hq
        · exact absurd hc' (hm.gone c' (hall hout c' hold') p' hp)
    · exact Place.ahead_self hq

/-- What a step does to the copies, if it is timely. -/
inductive Effect (σ σ' : Pipeline Worker Stream Event Context Resource) : Prop
  | quiet : σ'.ids = σ.ids → σ'.next = σ.next → σ'.home = σ.home → Effect σ σ'
  | issue (w : Worker) (n : ℕ) : Moves σ.ids σ'.ids (.staged w) (List.range' σ.next n) →
      σ.ids (.staged w) = [] → σ'.next = σ.next + n → (∀ c < σ.next, σ'.home c = σ.home c) →
      Effect σ σ'
  | register (w : Worker) (key : Option Stream) :
      Moves σ.ids σ'.ids (.queued key) (σ.ids (.staged w)) → σ'.next = σ.next →
      σ'.home = σ.home →
      (∀ c ∈ σ.ids (.staged w), ∀ w' ≠ w, ∀ c' ∈ σ.ids (.staged w'), σ.home c' = σ.home c →
        c < c') → Effect σ σ'
  | detach (w : Worker) (taken : Option Stream → List ℕ) :
      Moves σ.ids σ'.ids (.held w) (σ.registry.keys.flatMap taken) → σ'.next = σ.next →
      σ'.home = σ.home → σ.ids (.held w) = [] →
      (∀ key, (taken key).Sublist (σ.registry.pending key)) →
      (∀ c ∈ σ.registry.keys.flatMap taken, c ∈ σ.executed ∧ ∀ c' < c, σ.home c' = σ.home c →
        c' ∈ σ.delivered ∨ c' ∈ σ.registry.keys.flatMap taken) → Effect σ σ'
  | write (w : Worker) : Moves σ.ids σ'.ids (.flying w) (σ.ids (.held w)) → σ'.next = σ.next →
      σ'.home = σ.home → σ.ids (.flying w) = [] → Effect σ σ'
  | receive (w : Worker) : Moves σ.ids σ'.ids .delivered (σ.ids (.flying w)) →
      σ'.next = σ.next → σ'.home = σ.home → Effect σ σ'

theorem Effect.issued (h : Effect σ σ') (hs : σ.Sited) :
    Placed σ'.ids ∧ ∀ c, (∃ p, c ∈ σ'.ids p) ↔ c < σ'.next := by
  -- moving what is there adds nothing
  have hmove : ∀ {q : Place Worker Stream} {moved : List ℕ}, Moves σ.ids σ'.ids q moved →
      (∀ c ∈ moved, ∃ p, c ∈ σ.ids p) → σ'.next = σ.next →
      Placed σ'.ids ∧ ∀ c, (∃ p, c ∈ σ'.ids p) ↔ c < σ'.next := by
    intro q moved hm hp hnext
    refine ⟨hs.placed.move hm, fun c => ?_⟩
    rw [hm.exists_iff, hnext, ← hs.issued c]
    exact or_iff_left_of_imp (hp c)
  cases h with
  | quiet hids hnext =>
    rw [hids, hnext]
    exact ⟨hs.placed, hs.issued⟩
  | issue w n hm _ hnext =>
    refine ⟨hs.placed.move hm, fun c => ?_⟩
    rw [hm.exists_iff, hs.issued c, hnext, mem_range'_1]
    omega
  | register w key hm hnext | write w hm hnext | receive w hm hnext =>
    exact hmove hm (fun c hc => ⟨_, hc⟩) hnext
  | detach w taken hm hnext _ _ htaken =>
    refine hmove hm (fun c hc => ?_) hnext
    obtain ⟨key, -, hc⟩ := mem_flatMap.mp hc
    exact ⟨.queued key, (htaken key).subset hc⟩

/-! ### The order of a stream -/

/-- New copies come after all others. -/
theorem Ordered.issue {n : ℕ} (h : σ.Ordered) (hs : σ.Sited)
    (hm : Moves σ.ids σ'.ids (.staged w) (List.range' σ.next n)) (hnil : σ.ids (.staged w) = [])
    (hhome : ∀ c < σ.next, σ'.home c = σ.home c) : σ'.Ordered := by
  have hlt : ∀ p, ∀ c ∈ σ.ids p, c < σ.next := fun p c hc => (hs.issued c).mp ⟨p, hc⟩
  constructor
  · intro p
    by_cases hp : p = .staged w
    · rw [hp, hm.target, hnil, nil_append]
      refine (pairwise_lt_range' 1).imp ?_
      intro c c' hlt _
      exact hlt
    · refine ((h.sorted p).sublist (hm.sublist p hp)).imp_of_mem fun hc hc' hsorted heq => ?_
      have hmem := (hm.sublist p hp).subset
      rw [hhome _ (hlt p _ (hmem hc)), hhome _ (hlt p _ (hmem hc'))] at heq
      exact hsorted heq
  · intro p p' c c' hc hc' hcc heq
    rcases hm.subset hc' with hold' | ⟨rfl, -⟩
    · rcases hm.subset hc with hold | ⟨-, hnew⟩
      · rw [hhome _ (hlt p _ hold), hhome _ (hlt p' _ hold')] at heq
        exact h.ahead p p' c c' hold hold' hcc heq
      · have := hlt p' _ hold'
        have := (mem_range'_1.mp hnew).1
        omega
    · exact .inr trivial

theorem Ordered.register {key : Option Stream} (h : σ.Ordered)
    (hm : Moves σ.ids σ'.ids (.queued key) (σ.ids (.staged w))) (hhome : σ'.home = σ.home)
    (hfirst : ∀ c ∈ σ.ids (.staged w), ∀ w' ≠ w, ∀ c' ∈ σ.ids (.staged w'),
      σ.home c' = σ.home c → c < c') : σ'.Ordered := by
  refine h.move hm hhome (by simp) (fun c hc => ⟨_, hc, by simp, False.elim⟩) (h.sorted _) ?_ ?_
  · intro c hc c' hc' heq
    rcases Nat.lt_trichotomy c c' with hlt | rfl | hlt
    · exact hlt
    · exact absurd hc (hm.fresh c hc')
    · -- the queue holds no copy behind one that is still staged
      rcases h.ahead _ _ c' c hc' hc hlt heq.symm with hd | hd
      · cases hd
      · exact absurd rfl (hd w)
  · rintro p c c' hold hc hc' hlt heq
    refine .inr fun w' hp => ?_
    subst hp
    by_cases hw : w' = w
    · subst hw
      exact hm.gone c hold _ (by simp) hc
    · exact absurd (hfirst c' hc' w' hw c hold heq) (by omega)

theorem Ordered.detach {taken : Option Stream → List ℕ} (h : σ.Ordered)
    (hs : σ.Sited) (hm : Moves σ.ids σ'.ids (.held w) (σ.registry.keys.flatMap taken))
    (hhome : σ'.home = σ.home) (hnil : σ.ids (.held w) = [])
    (htaken : ∀ key, (taken key).Sublist (σ.registry.pending key))
    (hall : ∀ c ∈ σ.registry.keys.flatMap taken, ∀ c' < c, σ.home c' = σ.home c →
      c' ∈ σ.delivered ∨ c' ∈ σ.registry.keys.flatMap taken) : σ'.Ordered := by
  refine h.move hm hhome (by simp) (fun c hc => ?_) ?_ (by simp [hnil]) ?_
  · obtain ⟨key, -, hc⟩ := mem_flatMap.mp hc
    exact ⟨.queued key, (htaken key).subset hc, by simp, False.elim⟩
  · -- two queues hold copies of different streams
    refine pairwise_flatMap.mpr ⟨fun key _ => (h.sorted (.queued key)).sublist (htaken key), ?_⟩
    refine hs.indexed.nodup.imp_of_mem fun {key key'} _ _ hne c hc c' hc' heq => ?_
    obtain ⟨t, ht, hkey⟩ := hs.queued_home key c ((htaken key).subset hc)
    obtain ⟨t', ht', hkey'⟩ := hs.queued_home key' c' ((htaken key').subset hc')
    rw [ht, ht'] at heq
    cases heq
    exact absurd (hkey.symm.trans hkey') hne
  · intro p c c' hold hc hc' hlt heq
    rcases hall c' hc' c hlt heq with hd | htk
    · exact .inl (hs.placed.unique p .delivered c hold hd)
    · by_cases hp : p = .held w
      · exact .inr hp
      · exact absurd hc (hm.gone c htk p hp)

/-- Detached copies go on together. -/
theorem Ordered.forward {src q : Place Worker Stream} (h : σ.Ordered)
    (hm : Moves σ.ids σ'.ids q (σ.ids src)) (hhome : σ'.home = σ.home) (hsrc : src.Out)
    (hne : src ≠ .delivered) (hq : q.Out) (hsq : src ≠ q) : σ'.Ordered := by
  have hahead : ∀ {p}, p.Ahead src → p = .delivered ∨ p = src := by
    intro p hp
    cases src <;> first | exact hp | exact hsrc.elim | exact absurd rfl hne
  refine h.move hm hhome (fun w hw => by simp [hw, Place.Out] at hq)
    (fun c hc => ⟨src, hc, hne, fun _ _ hc' => hc'⟩) (h.sorted _) ?_ ?_
  · intro c hc c' hc' heq
    rcases Nat.lt_trichotomy c c' with hlt | rfl | hlt
    · exact hlt
    · exact absurd hc (hm.fresh c hc')
    · rcases h.ahead src q c' c hc' hc hlt heq.symm with hd | hd
      · exact absurd hd hne
      · cases q <;> first | exact absurd hd hsq | exact hq.elim | exact hd.elim
  · intro p c c' hold hc hc' hlt heq
    rcases hahead (h.ahead p src c c' hold hc' hlt heq) with hd | rfl
    · exact .inl hd
    · exact absurd hc (hm.gone c hold _ hsq)

theorem Effect.ordered (h : Effect σ σ') (hs : σ.Sited) (ho : σ.Ordered) : σ'.Ordered := by
  cases h with
  | quiet hids _ hhome => exact ⟨by rw [hids, hhome]; exact ho.sorted,
      by rw [hids, hhome]; exact ho.ahead⟩
  | issue w n hm hnil _ hhome => exact ho.issue hs hm hnil hhome
  | register w key hm _ hhome hfirst => exact ho.register hm hhome hfirst
  | detach w taken hm _ hhome hnil htaken hall =>
    exact ho.detach hs hm hhome hnil htaken fun c hc => (hall c hc).2
  | write w hm _ hhome | receive w hm _ hhome =>
    exact ho.forward hm hhome trivial (by simp) trivial (by simp)

/-- What is detached afterwards has been executed. -/
theorem Effect.out (h : Effect σ σ') (he : σ.Early) :
    ∀ p : Place Worker Stream, p.Out → ∀ c ∈ σ'.ids p, c ∈ σ.executed := by
  have hmove : ∀ {q : Place Worker Stream} {moved : List ℕ}, Moves σ.ids σ'.ids q moved →
      (q.Out → ∀ c ∈ moved, c ∈ σ.executed) →
      ∀ p : Place Worker Stream, p.Out → ∀ c ∈ σ'.ids p, c ∈ σ.executed := by
    intro q moved hm hq p hp c hc
    rcases hm.subset hc with hold | ⟨rfl, hnew⟩
    · exact he.out p hp c hold
    · exact hq hp c hnew
  cases h with
  | quiet hids =>
    rw [hids]
    exact he.out
  | issue w n hm | register w key hm => exact hmove hm fun hq => hq.elim
  | detach w taken hm _ _ _ _ hall => exact hmove hm fun _ c hc => (hall c hc).1
  | write w hm => exact hmove hm fun _ => he.out (.held w) trivial
  | receive w hm => exact hmove hm fun _ => he.out (.flying w) trivial

/-! ## Timely steps -/

section Timely

variable [DecidableEq Stream] [DecidableEq Event] [DecidableEq Context] [DecidableEq Resource]

/-- A copy that `lupine_detach_pending_dtoh_copies` would take. -/
def Selected (r : Registry Stream Event Context Resource) (stream : Option Stream)
    (allStreams : Bool) (context : Option Context) (c : ℕ) : Prop :=
  ∃ key ctx g, .copy c ctx g ∈ r.queue key ∧
    r.selected stream allStreams context key (.copy c ctx g) = true

/-- A queued copy that the worker would detach. -/
def Due (D : Driver Stream Context) (σ : Pipeline Worker Stream Event Context Resource) :
    Scope Stream Event Context Resource → ℕ → Prop
  | .stream t => Selected σ.registry t.key (t.key = none) (some (t.context D))
  | .event e => σ.registry.Marked e
  | .context context => Selected σ.registry none true (some context)
  | .streamCallback t | .hostFunction t _ => Selected σ.registry t.key false none
  | .graphHostNode _ => fun _ => False

/-- The step comes at its time. A copy enters the registry before the later ones of its stream.
What is detached are copies that the worker waited for, together with all the earlier ones of
their streams that have not been delivered, and a host function has no graph copies to send. -/
def Timely (D : Driver Stream Context) (G : Graphs Exec Resource)
    (σ : Pipeline Worker Stream Event Context Resource) :
    Action Worker Stream Event Context Resource Exec → Prop
  | .register w | .noteLaunch w => ∀ c ∈ (σ.phase w).staged, ∀ w' ≠ w,
      ∀ c' ∈ (σ.phase w').staged, σ.home c' = σ.home c → c < c'
  | .detach w => ∀ scope waits, σ.phase w = .returned scope waits →
      (∀ resources, scope.snapshot = some resources → G.copies resources = 0) ∧
      ∀ c, σ.Due D scope c → c ∈ waits ∧ ∀ c' < c, σ.home c' = σ.home c →
        c' ∈ σ.delivered ∨ σ.Due D scope c'
  | _ => True

/-- A timely host function has no graph copies to send. -/
theorem Timely.snapshot {scope : Scope Stream Event Context Resource} {waits : Set ℕ}
    (h : σ.Timely D G (.detach w)) (hphase : σ.phase w = .returned scope waits)
    (hlaunch : ∀ resources, (σ.lastLaunch resources).length ≤ G.copies resources) :
    ∀ resources, scope.snapshot = some resources → σ.lastLaunch resources = [] := by
  intro resources hs
  have := hlaunch resources
  rw [(h scope waits hphase).1 resources hs] at this
  exact length_eq_zero_iff.mp (Nat.le_zero.mp this)

/-- What a worker detaches is taken from the queues, if it has no graph copies to send. -/
theorem takes_detached (scope : Scope Stream Event Context Resource)
    (hsnapshot : ∀ resources, scope.snapshot = some resources → σ.lastLaunch resources = []) :
    ∃ taken, σ.registry.Takes (σ.detached D scope).1 taken ∧
      (σ.detached D scope).2 = σ.registry.keys.flatMap taken := by
  cases scope with
  | stream | context | streamCallback => exact ⟨_, takes_detach, rfl⟩
  | event e => exact ⟨_, takes_detachEvent, rfl⟩
  | hostFunction t resources =>
    refine ⟨_, takes_detach, ?_⟩
    simp only [detached, hsnapshot resources rfl, nil_append]
    rfl
  | graphHostNode resources =>
    refine ⟨_, Registry.Takes.refl _, ?_⟩
    simp [detached, hsnapshot resources rfl]

theorem subset_detached (hi : σ.registry.Indexed) (scope : Scope Stream Event Context Resource) :
    (σ.detached D scope).1.Indexed ∧ ∀ key, ∀ c ∈ (σ.detached D scope).1.pending key,
      c ∈ σ.registry.pending key := by
  have htakes : ∃ taken, σ.registry.Takes (σ.detached D scope).1 taken := by
    cases scope with
    | stream | context | streamCallback | hostFunction => exact ⟨_, takes_detach⟩
    | event e => exact ⟨_, takes_detachEvent⟩
    | graphHostNode => exact ⟨_, Registry.Takes.refl _⟩
  obtain ⟨taken, ht⟩ := htakes
  exact ⟨ht.indexed hi, fun key c hc => ((ht.sublist key).filterMap _).subset hc⟩

theorem mem_detached_iff (hk : σ.registry.Keyed) (scope : Scope Stream Event Context Resource)
    (hsnapshot : ∀ resources, scope.snapshot = some resources → σ.lastLaunch resources = [])
    (c : ℕ) : c ∈ (σ.detached D scope).2 ↔ σ.Due D scope c := by
  cases scope with
  | stream | context | streamCallback => exact mem_detach_iff hk
  | event e => exact mem_detachEvent_iff hk
  | hostFunction t resources =>
    simp only [detached, hsnapshot resources rfl, nil_append]
    exact mem_detach_iff hk
  | graphHostNode resources => simp [detached, hsnapshot resources rfl, Due]

end Timely

/-! ## Steps -/

section Steps

/-- Releasing storage touches nothing but the storage. -/
theorem foldl_releaseCopy_frame [DecidableEq Resource] (l : List ℕ) :
    ∃ released owners retained retired, l.foldl releaseCopy σ =
      { σ with
        released := released, owners := owners, retained := retained, retired := retired } := by
  induction l generalizing σ with
  | nil => exact ⟨_, _, _, _, rfl⟩
  | cons c l ih =>
    obtain ⟨released, owners, retained, retired, h⟩ := ih (σ := σ.releaseCopy c)
    refine ⟨released, owners, retained, retired, h.trans ?_⟩
    unfold releaseCopy
    split <;> rfl

variable [DecidableEq Worker]

/-- A worker goes from one phase to another, and nothing is sent. -/
structure Turns (σ σ' : Pipeline Worker Stream Event Context Resource) (w : Worker)
    (old φ : Phase Stream Event Context Resource) : Prop where
  old : σ.phase w = old
  phase : σ'.phase = update σ.phase w φ
  flight : σ'.inFlight = σ.inFlight
  delivered : σ'.delivered = σ.delivered

theorem phase_eq_update (h : σ.phase w = φ) : σ.phase = update σ.phase w φ := by
  rw [← h, update_eq_self]

/-- What the two phases have in common, no worker changes. -/
theorem Turns.keeps {β : Type*} (h : Turns σ σ' w old φ)
    (f : Phase Stream Event Context Resource → β) {w' : Worker} (hf : w' = w → f φ = f old) :
    f (σ'.phase w') = f (σ.phase w') := by
  rw [h.phase]
  rcases eq_or_ne w' w with rfl | hne
  · rw [update_self, hf rfl, h.old]
  · rw [update_of_ne hne]

/-- The copies of the other places stay where they are. -/
theorem Turns.ids_eq (h : Turns σ σ' w old φ) {p : Place Worker Stream}
    (hstaged : p = .staged w → φ.staged = old.staged) (hheld : p = .held w → φ.held = old.held)
    (hqueued : ∀ key, p = .queued key → σ'.registry.pending key = σ.registry.pending key) :
    σ'.ids p = σ.ids p := by
  cases p with
  | staged w' => exact h.keeps Phase.staged fun hw => hstaged (hw ▸ rfl)
  | queued key => exact hqueued key rfl
  | held w' => exact h.keeps Phase.held fun hw => hheld (hw ▸ rfl)
  | flying w' => exact congrFun h.flight w'
  | delivered => exact h.delivered

theorem ids_update (h : σ.phase w = old) (hstaged : φ.staged = old.staged)
    (hheld : φ.held = old.held) : { σ with phase := update σ.phase w φ }.ids = σ.ids := by
  have hturn : Turns σ { σ with phase := update σ.phase w φ } w old φ := ⟨h, rfl, rfl, rfl⟩
  exact funext fun _ => hturn.ids_eq (fun _ => hstaged) (fun _ => hheld) fun _ _ => rfl

section

variable (hs : σ.Sited)
include hs

theorem moves_detach {taken : Option Stream → List ℕ} {scope : Scope Stream Event Context Resource}
    {waits : Set ℕ} (ht : σ.registry.Takes σ'.registry taken)
    (hturn : Turns σ σ' w (.returned scope waits) (.holding (σ.registry.keys.flatMap taken))) :
    Moves σ.ids σ'.ids (.held w) (σ.registry.keys.flatMap taken) := by
  refine .gather (f := .queued) hs.placed (fun _ _ h => Place.queued.inj h) (by simp)
    hs.indexed.nodup (fun key => (ht.sublist key).filterMap _) ht.perm ?_ ?_ ?_
  · intro key hne
    obtain ⟨c, hc⟩ := exists_mem_of_ne_nil _ hne
    obtain ⟨ctx, g, hi⟩ := mem_pending.mp ((ht.taken_sublist key).subset hc)
    exact hs.indexed.keyed.mem hi
  · intro p hp hqueued
    exact hturn.ids_eq (fun _ => rfl) (fun h => absurd h hp) fun key h => absurd h (hqueued key)
  · simp only [ids, hturn.phase, update_self, hturn.old]
    rfl

omit hs in
/-- A worker changes its phase, and no copy moves. -/
theorem Effect.of_phase (h : Turns σ σ' w old φ) (hstaged : φ.staged = old.staged)
    (hheld : φ.held = old.held) (hpending : σ'.registry.pending = σ.registry.pending)
    (hnext : σ'.next = σ.next) (hhome : σ'.home = σ.home) : Effect σ σ' :=
  .quiet (funext fun _ => h.ids_eq (fun _ => hstaged) (fun _ => hheld)
    fun key _ => congrFun hpending key) hnext hhome

/-- New copies, which the worker is about to put into the registry. -/
theorem Effect.of_issue {n : ℕ} (h : Turns σ σ' w .idle φ)
    (hstaged : φ.staged = List.range' σ.next n) (hheld : φ.held = [])
    (hpending : σ'.registry.pending = σ.registry.pending) (hnext : σ'.next = σ.next + n)
    (hhome : ∀ c < σ.next, σ'.home c = σ.home c) : Effect σ σ' := by
  have hnil : σ.ids (.staged w) = [] := by
    simp only [ids, h.old]
    rfl
  refine .issue w n (.add ?_ ?_ nodup_range' ?_) hnil hnext hhome
  · rw [hnil, nil_append, ← hstaged]
    simp only [ids, h.phase, update_self]
  · intro p hp
    exact h.ids_eq (fun hp' => absurd hp' hp) (fun _ => hheld) fun key _ => congrFun hpending key
  · intro c hc p hp
    have := (hs.issued c).mp ⟨p, hp⟩
    have := (mem_range'_1.mp hc).1
    omega

/-- The worker puts its copies into a queue. -/
theorem moves_register [DecidableEq Stream] {key : Option Stream} (h : Turns σ σ' w old .idle)
    (hheld : old.held = []) (hpending : σ'.registry.pending = update σ.registry.pending key
      (σ.registry.pending key ++ old.staged)) :
    Moves σ.ids σ'.ids (.queued key) (σ.ids (.staged w)) := by
  refine .transfer hs.placed (by simp) ?_ ?_ ?_
  · simp only [ids, h.phase, update_self]
    rfl
  · simp only [ids, hpending, update_self, h.old]
  · intro p hp hq
    refine h.ids_eq (fun hp' => absurd hp' hp) (fun _ => hheld.symm) fun key' hkey => ?_
    have hne : key' ≠ key := fun h => hq (h ▸ hkey)
    rw [hpending, update_of_ne hne]

theorem moves_write {copies : List ℕ} (hphase : σ.phase w = .holding copies) :
    Moves σ.ids
      { σ with
        inFlight := update σ.inFlight w copies
        phase := update σ.phase w (.written copies) }.ids
      (.flying w) (σ.ids (.held w)) := by
  have hflying : σ.ids (.flying w) = [] := hs.busy w (by rw [hphase]; rfl)
  have hheld : σ.ids (.held w) = copies := by
    simp only [ids, hphase]
    rfl
  refine .transfer hs.placed (by simp) ?_ ?_ ?_
  · simp only [ids, update_self]
    rfl
  · rw [hflying, hheld]
    simp only [ids, update_self, nil_append]
  · intro p hp hq
    cases p with
    | staged w' =>
      rcases eq_or_ne w' w with rfl | hne
      · simp only [ids, update_self, hphase]
        rfl
      · simp only [ids, update_of_ne hne]
    | queued | delivered => rfl
    | held w' =>
      have hne : w' ≠ w := fun h => hp (h ▸ rfl)
      simp only [ids, update_of_ne hne]
    | flying w' =>
      have hne : w' ≠ w := fun h => hq (h ▸ rfl)
      simp only [ids, update_of_ne hne]

theorem moves_receive (w : Worker) :
    Moves σ.ids
      { σ with
        delivered := σ.delivered ++ σ.inFlight w
        inFlight := update σ.inFlight w [] }.ids
      .delivered (σ.ids (.flying w)) := by
  refine .transfer hs.placed (by simp) ?_ rfl ?_
  · simp only [ids, update_self]
  · intro p hp hq
    cases p with
    | staged | queued | held => rfl
    | flying w' =>
      have hne : w' ≠ w := fun h => hp (h ▸ rfl)
      simp only [ids, update_of_ne hne]
    | delivered => exact absurd rfl hq

/-- A worker changes its phase, possibly with new copies. -/
theorem Sited.of_phase (heffect : Effect σ σ') (hphase : σ'.phase = update σ.phase w φ)
    (hindexed : σ'.registry.Indexed) (hhome : ∀ c < σ.next, σ'.home c = σ.home c)
    (hstaged : ∀ c ∈ φ.staged, σ'.home c = φ.target)
    (hqueued : ∀ key, ∀ c ∈ σ'.registry.pending key,
      c ∈ σ.registry.pending key ∨ ∃ t, σ'.home c = some t ∧ t.key = key)
    (hbusy : φ.busy = true → σ'.inFlight w = [])
    (hflight : ∀ w' ≠ w, σ'.inFlight w' = σ.inFlight w') : σ'.Sited := by
  have hlt : ∀ p, ∀ c ∈ σ.ids p, c < σ.next := fun p c hc => (hs.issued c).mp ⟨p, hc⟩
  obtain ⟨hplaced, hissued⟩ := heffect.issued hs
  refine ⟨hplaced, hissued, hindexed, ?_, ?_, ?_⟩
  · rw [hphase]
    refine (forall_update_iff σ.phase
      fun _ φ => ∀ c ∈ φ.staged, σ'.home c = φ.target).mpr ⟨hstaged, fun w' _ c hc => ?_⟩
    rw [hhome c (hlt (.staged w') c hc)]
    exact hs.staged_home w' c hc
  · intro key c hc
    rcases hqueued key c hc with hold | hnew
    · rw [hhome c (hlt (.queued key) c hold)]
      exact hs.queued_home key c hold
    · exact hnew
  · rw [hphase]
    refine (forall_update_iff σ.phase
      fun w' φ => φ.busy = true → σ'.inFlight w' = []).mpr ⟨hbusy, fun w' hne h => ?_⟩
    rw [hflight w' hne]
    exact hs.busy w' h

/-- A worker changes its phase, and the queues keep their copies. -/
theorem Sited.of_phase_quiet (heffect : Effect σ σ') (hphase : σ'.phase = update σ.phase w φ)
    (hindexed : σ'.registry.Indexed) (hhome : σ'.home = σ.home) (hstaged : φ.staged = [])
    (hqueued : ∀ key, ∀ c ∈ σ'.registry.pending key, c ∈ σ.registry.pending key)
    (hbusy : φ.busy = true → σ'.inFlight w = [])
    (hflight : ∀ w' ≠ w, σ'.inFlight w' = σ.inFlight w') : σ'.Sited :=
  hs.of_phase heffect hphase hindexed (fun _ _ => by rw [hhome]) (by simp [hstaged])
    (fun key c hc => .inl (hqueued key c hc)) hbusy hflight

/-- The worker puts its copies into the queue of their stream. -/
theorem Sited.of_register [DecidableEq Stream] {t : Target Stream Context} (heffect : Effect σ σ')
    (h : Turns σ σ' w old .idle) (hindexed : σ'.registry.Indexed) (hhome : σ'.home = σ.home)
    (htarget : old.target = some t)
    (hpending : σ'.registry.pending = update σ.registry.pending t.key
      (σ.registry.pending t.key ++ old.staged)) : σ'.Sited := by
  refine hs.of_phase heffect h.phase hindexed (fun _ _ => by rw [hhome])
    (fun _ hc => absurd hc not_mem_nil) ?_ (fun h => by cases h) fun w' _ => by rw [h.flight]
  intro key c hc
  rw [hpending] at hc
  rcases eq_or_ne key t.key with rfl | hne
  · rw [update_self] at hc
    refine (mem_append.mp hc).imp_right fun hc => ⟨t, ?_, rfl⟩
    rw [hhome, hs.staged_home w c (h.old ▸ hc), h.old, htarget]
  · rw [update_of_ne hne] at hc
    exact .inl hc

end

/-- A worker whose phase changes has not returned, unless its copies have been executed. -/
theorem Early.of_phase (he : σ.Early) (heffect : Effect σ σ')
    (hphase : σ'.phase = update σ.phase w φ) (hexecuted : σ'.executed = σ.executed)
    (hreturned : ∀ scope waits, φ = .returned scope waits → ∀ c ∈ waits, c ∈ σ.executed) :
    σ'.Early := by
  refine ⟨by rw [hexecuted]; exact heffect.out he, ?_⟩
  rw [hphase, hexecuted]
  exact (forall_update_iff σ.phase fun _ φ => ∀ scope waits,
    φ = .returned scope waits → ∀ c ∈ waits, c ∈ σ.executed).mpr
      ⟨hreturned, fun w' _ => he.returned w'⟩

variable [DecidableEq Stream] [DecidableEq Event] [DecidableEq Context] [DecidableEq Resource]

theorem Step.effect (hs : σ.Sited) (he : σ.Early)
    (hlaunch : ∀ resources, (σ.lastLaunch resources).length ≤ G.copies resources)
    (htimely : σ.Timely D G a) (hstep : Step D G σ a σ') : Effect σ σ' := by
  cases hstep with
  | @enqueue w t pinned hidle =>
    refine .of_issue (n := 1) hs ⟨hidle, rfl, rfl, rfl⟩ rfl rfl rfl rfl fun c hc => ?_
    exact update_of_ne (by omega) _ _
  | @register w t c hphase =>
    exact .register w t.key (moves_register hs ⟨hphase, rfl, rfl, rfl⟩ rfl
      (pending_push _ _)) rfl rfl htimely
  | @launch w x t resources hidle =>
    refine .of_issue hs ⟨hidle, rfl, rfl, rfl⟩ rfl rfl rfl rfl fun c hc => if_neg ?_
    rw [mem_range'_1]
    omega
  | launchPlain | execute | drop => exact .quiet rfl rfl rfl
  | @noteLaunch w t resources ids hphase =>
    exact .register w t.key (moves_register hs ⟨hphase, rfl, rfl, rfl⟩ rfl
      (pending_noteGraphLaunch _ _ _ _)) rfl rfl htimely
  | record hphase | call hphase | streamCallback hphase | graphHostNode hphase | resume hphase =>
    exact .of_phase ⟨hphase, rfl, rfl, rfl⟩ rfl rfl rfl rfl rfl
  | noteRecord hphase =>
    exact .of_phase ⟨hphase, rfl, rfl, rfl⟩ rfl rfl pending_noteEventRecord rfl rfl
  | @waitEvent w t e hidle =>
    exact .of_phase ⟨hidle, phase_eq_update hidle, rfl, rfl⟩ rfl rfl pending_waitEventResources rfl
      rfl
  | hostFunction hphase =>
    exact .of_phase ⟨hphase, rfl, rfl, rfl⟩ rfl rfl pending_getStreamResources rfl rfl
  | @detach w scope waits hphase =>
    have hsnapshot := htimely.snapshot hphase hlaunch
    have hdue := (htimely scope waits hphase).2
    obtain ⟨taken, htakes, htaken⟩ := takes_detached (D := D) scope hsnapshot
    have hmem := mem_detached_iff (D := D) hs.indexed.keyed scope hsnapshot
    have hheld : σ.ids (.held w) = [] := by
      simp only [ids, hphase]
      rfl
    rw [htaken] at hmem ⊢
    refine .detach w taken ?_ rfl rfl hheld htakes.taken_sublist ?_
    · exact moves_detach hs htakes ⟨hphase, rfl, rfl, rfl⟩
    · intro c hc
      obtain ⟨hwaits, hearlier⟩ := hdue c ((hmem c).mp hc)
      refine ⟨he.returned w scope waits hphase c hwaits, fun c' hlt heq => ?_⟩
      exact (hearlier c' hlt heq).imp_right (hmem c').mpr
  | @write w copies hphase =>
    exact .write w (moves_write hs hphase) rfl rfl (hs.busy w (by rw [hphase]; rfl))
  | @receive w => exact .receive w (moves_receive hs w) rfl rfl
  | @cleanup w l hphase =>
    obtain ⟨released, owners, retained, retired, h⟩ := foldl_releaseCopy_frame (σ := σ) l
    rw [h]
    exact .of_phase ⟨hphase, rfl, rfl, rfl⟩ rfl rfl rfl rfl rfl

theorem Sited.step (hs : σ.Sited) (heffect : Effect σ σ') (hstep : Step D G σ a σ') : σ'.Sited := by
  obtain ⟨hplaced, hissued⟩ := heffect.issued hs
  have hpending : ∀ {r' : Registry Stream Event Context Resource},
      r'.pending = σ.registry.pending → ∀ key, ∀ c ∈ r'.pending key,
        c ∈ σ.registry.pending key := fun h key c hc => h ▸ hc
  cases hstep with
  | @enqueue w t pinned hidle =>
    refine hs.of_phase heffect rfl hs.indexed (fun c hc => update_of_ne (by omega) _ _)
      ?_ (fun _ _ hc => .inl hc) (fun h => by cases h) fun _ _ => rfl
    intro c hc
    obtain rfl := mem_singleton.mp hc
    exact update_self _ _ _
  | @register w t c hphase =>
    exact hs.of_register (t := t) heffect ⟨hphase, rfl, rfl, rfl⟩ (hs.indexed.push _ _) rfl rfl
      (pending_push _ _)
  | @launch w x t resources hidle =>
    refine hs.of_phase heffect rfl hs.indexed (fun c hc => if_neg ?_)
      (fun c hc => if_pos hc) (fun _ _ hc => .inl hc) (fun h => by cases h) fun _ _ => rfl
    rw [mem_range'_1]
    omega
  | launchPlain | execute | drop =>
    exact { hs with placed := hplaced, issued := hissued }
  | @noteLaunch w t resources ids hphase =>
    exact hs.of_register (t := t) heffect ⟨hphase, rfl, rfl, rfl⟩ (hs.indexed.noteGraphLaunch _ _)
      rfl rfl (pending_noteGraphLaunch _ _ _ _)
  | @record w e t hidle =>
    exact hs.of_phase_quiet heffect rfl hs.indexed rfl rfl (fun _ _ hc => hc)
      (fun h => by cases h) fun _ _ => rfl
  | @noteRecord w e t hphase =>
    exact hs.of_phase_quiet heffect rfl
      (Registry.Indexed.noteEventRecord (r := σ.registry.recordEventResources e t.key)
        ⟨hs.indexed.keyed, hs.indexed.nodup⟩) rfl rfl
      (hpending pending_noteEventRecord) (fun h => by cases h) fun _ _ => rfl
  | @waitEvent w t e hidle =>
    refine ⟨hplaced, hissued, hs.indexed.waitEventResources, hs.staged_home, fun key c hc => ?_,
      hs.busy⟩
    exact hs.queued_home key c (hpending pending_waitEventResources key c hc)
  | call _ hflight | streamCallback _ hflight | graphHostNode _ hflight =>
    exact hs.of_phase_quiet heffect rfl hs.indexed rfl rfl (fun _ _ hc => hc)
      (fun _ => hflight) fun _ _ => rfl
  | @hostFunction w t fresh hidle hflight =>
    exact hs.of_phase_quiet heffect rfl hs.indexed.getStreamResources rfl rfl
      (hpending pending_getStreamResources) (fun _ => hflight) fun _ _ => rfl
  | @resume w scope waits hphase =>
    exact hs.of_phase_quiet heffect rfl hs.indexed rfl rfl (fun _ _ hc => hc)
      (fun _ => hs.busy w (by rw [hphase]; rfl)) fun _ _ => rfl
  | @detach w scope waits hphase =>
    obtain ⟨hindexed, hsub⟩ := subset_detached (D := D) hs.indexed scope
    exact hs.of_phase_quiet heffect rfl hindexed rfl rfl hsub
      (fun _ => hs.busy w (by rw [hphase]; rfl)) fun _ _ => rfl
  | @write w ids hphase =>
    exact hs.of_phase_quiet heffect rfl hs.indexed rfl rfl (fun _ _ hc => hc)
      (fun h => by cases h) fun w' hne => update_of_ne hne _ _
  | @receive w =>
    refine ⟨hplaced, hissued, hs.indexed, hs.staged_home, hs.queued_home, fun w' h => ?_⟩
    rcases eq_or_ne w' w with rfl | hne
    · exact update_self _ _ _
    · exact (update_of_ne hne _ _).trans (hs.busy w' h)
  | @cleanup w l hphase =>
    obtain ⟨released, owners, retained, retired, h⟩ := foldl_releaseCopy_frame (σ := σ) l
    rw [h] at heffect ⊢
    exact hs.of_phase_quiet heffect rfl hs.indexed rfl rfl (fun _ _ hc => hc)
      (fun h => by cases h) fun _ _ => rfl

theorem Early.step (he : σ.Early) (heffect : Effect σ σ') (hstep : Step D G σ a σ') : σ'.Early := by
  cases hstep with
  | enqueue | register | launch | noteLaunch | record | noteRecord | call | streamCallback
  | hostFunction | graphHostNode | detach | write =>
    exact he.of_phase heffect rfl rfl fun _ _ h => by cases h
  | launchPlain | waitEvent | receive | drop => exact ⟨heffect.out he, he.returned⟩
  | execute =>
    exact ⟨fun p hp c hc => mem_append_left _ (heffect.out he p hp c hc),
      fun w scope waits h c hc => mem_append_left _ (he.returned w scope waits h c hc)⟩
  | resume hphase hwaits =>
    refine he.of_phase heffect rfl rfl fun _ _ h => ?_
    cases h
    exact hwaits
  | @cleanup w l hphase =>
    obtain ⟨released, owners, retained, retired, h⟩ := foldl_releaseCopy_frame (σ := σ) l
    rw [h] at heffect ⊢
    exact he.of_phase heffect rfl rfl fun _ _ h => by cases h

/-- The staging memory of a graph is for the copies of one launch. -/
theorem Step.lastLaunch (hstep : Step D G σ a σ')
    (h : ∀ resources, (σ.lastLaunch resources).length ≤ G.copies resources) :
    ∀ resources, (σ'.lastLaunch resources).length ≤ G.copies resources := by
  cases hstep with
  | @launch w x t resources =>
    refine (forall_update_iff σ.lastLaunch
      fun resources ids => ids.length ≤ G.copies resources).mpr ⟨?_, fun r _ => h r⟩
    exact length_range'.le
  | @cleanup w l =>
    obtain ⟨released, owners, retained, retired, hl⟩ := foldl_releaseCopy_frame (σ := σ) l
    rw [hl]
    exact h
  | _ => exact h

end Steps

end Pipeline

end Lupine.Deferred
