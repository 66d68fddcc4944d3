import Lupine.Checkpoint.CallGate

/-!
# What the gate of CUDA calls guarantees

* `Account` ties the fields of `cuda_call_gate` to the number of threads at each place, and says
  that whoever sleeps on the condition variable has a reason to or is about to be notified.
  `counting` proves it for one thread at a time, against any number of others.
* `ranking` bounds what the threads have left to do.
* `call_gate`: in every run with paired operations no call is active between the return of a drain
  and its resume, no call is admitted while a drain is in progress, and the gate comes to rest,
  with drains that wait for an active call or for the resume of another drain, and with blocked
  calls that wait for a drain.
* `two_drains`: a drain does not return while another one has not been resumed, also when no call
  is active; calls blocked by a drain stay blocked after its resume when another drain waits; and
  a resume without a drain of its own lets calls in.
-/

namespace Lupine.Checkpoint.CallGate

open Foundations Monitor Place Thread Nat Bool CallGate

/-! ## The counts are an invariant -/

variable {m m' : Memory} {k : Count → ℕ} {l l' : Thread}

/-- The fields of `Account`, with one thread set apart. -/
theorem account_iff {locked : Bool} :
    Account m locked (k + weight l) ↔
      m.active = k .active + (l.depth + l.place.isCounted.toNat) ∧
      k .holding + l.place.holds.toNat = locked.toNat ∧
      m.waiters = k .waiting + l.place.waits.toNat ∧
      (m.pending = true ↔ 0 < m.waiters ∨ m.draining = true) ∧
      m.draining.toNat = m.returned.toNat + (k .owning + l.place.owns.toNat) ∧
      (0 < k .entering ∨ l.place = .beginAdmit → m.draining = false ∧ m.waiters = 0) ∧
      ((0 < k .closing ∨ l.place.closes = true) ∨ m.returned = true →
        k .admitted = 0 ∧ l.depth = 0) ∧
      ((0 < k .emptyWaiting ∨ l.place = .emptyWait) ∨ (0 < k .emptySleeping ∨
        l.place = .emptySleep) → m.active = 0 → 0 < k .announcing ∨ l.place.announces = true) ∧
      (0 < k .turnSleeping ∨ l.place = .turnSleep → m.draining = false →
        0 < k .resuming ∨ l.place = .resumeNotify) ∧
      (0 < k .blocked ∨ l.place = .beginSleep → m.draining = false → m.waiters = 0 →
        0 < k .resuming ∨ l.place = .resumeNotify) := by
  constructor
  · rintro ⟨h₁, h₂, h₃, h₄, h₅, h₆, h₇, h₈, h₉, h₁₀⟩
    simp only [Pi.add_apply, weight, Nat.add_pos_iff_pos_or_pos, Nat.add_eq_zero_iff, toNat_pos_iff,
      decide_eq_true_eq] at h₁ h₂ h₃ h₅ h₆ h₇ h₈ h₉ h₁₀
    exact ⟨h₁, h₂, h₃, h₄, h₅, h₆, h₇, h₈, h₉, h₁₀⟩
  · rintro ⟨h₁, h₂, h₃, h₄, h₅, h₆, h₇, h₈, h₉, h₁₀⟩
    constructor <;>
      simpa only [Pi.add_apply, weight, Nat.add_pos_iff_pos_or_pos, Nat.add_eq_zero_iff,
        toNat_pos_iff, decide_eq_true_eq]

attribute [local simp] go isCounted holds waits owns closes announces woken Count.sleeps

/-- A step on the memory. A call that backs off was counted, so that its compare-and-swap finds a
positive count; whoever takes the count to zero is about to look at `pending_`, which is set as
long as a drain waits for that. -/
theorem Account.run {locked : Bool} (hk : k ∈ placed) (h : instr m l = .run m' l')
    (hm : Account m locked (k + weight l)) : Account m' locked (k + weight l') := by
  obtain ⟨place, depth⟩ := l
  obtain ⟨active, pending, waiters, draining, returned⟩ := m
  rw [account_iff] at hm ⊢
  obtain ⟨hadmitted, hholding, howning⟩ := mem_placed.mp hk
  have hlocked := toNat_le locked
  cases place <;> simp only [instr, reduceCtorEq, swap] at h <;> (try split at h) <;> try cases h
  all_goals try simp only [retry]
  all_goals try split
  all_goals try (simp only [finish]; split)
  all_goals simp at hm ⊢
  all_goals grind

/-- Taking the mutex changes nothing but the number of its holders. -/
theorem Account.lock (h : instr m l = .lock l') (hm : Account m false (k + weight l)) :
    Account m true (k + weight l') := by
  obtain ⟨place, depth⟩ := l
  rw [account_iff] at hm ⊢
  cases place <;> simp only [instr, reduceCtorEq, swap] at h <;> (try split at h) <;> cases h
  all_goals simp at hm ⊢
  all_goals grind

/-- Releasing it: to sleep, with the condition of the wait false, or to return. A drain that
returns has found no call active. -/
theorem Account.unlock {locked : Bool} (h : instr m l = .unlock m' l')
    (hm : Account m locked (k + weight l)) : Account m' false (k + weight l') := by
  obtain ⟨place, depth⟩ := l
  obtain ⟨active, pending, waiters, draining, returned⟩ := m
  rw [account_iff] at hm ⊢
  have hlocked := toNat_le locked
  have hdraining := toNat_le draining
  cases place <;> simp only [instr, reduceCtorEq, swap] at h <;> (try split at h) <;> cases h
  all_goals try (simp only [finish]; split)
  all_goals simp at hm ⊢
  all_goals grind

/-- A notification wakes all sleepers. The notifier holds the mutex, so that no drain is on its way
to sleep. -/
theorem Account.notify {locked : Bool} (hk : k ∈ placed) (h : instr m l = .notify l')
    (hm : Account m locked (k + weight l)) : Account m locked (wakeAll k + weight l') := by
  obtain ⟨place, depth⟩ := l
  have hwake : ∀ c, wakeAll k c = if c.sleeps then 0 else k c := fun _ => rfl
  rw [account_iff] at hm ⊢
  obtain ⟨-, hholding, -⟩ := mem_placed.mp hk
  have hlocked := toNat_le locked
  cases place <;> simp only [instr, reduceCtorEq, swap] at h <;> (try split at h) <;> cases h
  all_goals simp [hwake] at hm ⊢
  all_goals grind

/-- What happens from outside. A resume takes over what the returned drain has left. -/
theorem Account.outside {locked : Bool} {e : Event} (h : CallGate.outside m l e = some (m', l'))
    (he : Paired m l e) (hm : Account m locked (k + weight l)) :
    Account m' locked (k + weight l') := by
  obtain ⟨place, depth⟩ := l
  obtain ⟨active, pending, waiters, draining, returned⟩ := m
  rw [account_iff] at hm ⊢
  cases e with
  | start op =>
    cases op <;> simp only [outside, start, Option.ite_none_right_eq_some] at h <;>
      obtain ⟨rfl, h⟩ := h <;> cases h <;> simp only [Paired] at he
    all_goals simp at hm ⊢
    all_goals grind
  | wake =>
    simp only [outside, Option.some.injEq, Prod.mk.injEq] at h
    obtain ⟨rfl, rfl⟩ := h
    cases place <;> try exact hm
    all_goals simp at hm ⊢
    all_goals grind
  | casFails =>
    cases place <;> simp only [outside, failCas, reduceCtorEq] at h
    cases h
    cases active with
    | zero => exact absurd hm.1 (by simp)
    | succ seen =>
      simp only [retry, go, isCounted, holds, waits, owns, closes, announces, reduceCtorEq] at hm ⊢
      exact hm

attribute [local simp] weight

/-- **The counts are an invariant** of every run with paired operations. -/
theorem counting : Counting program Paired weight wakeAll placed Account where
  mem l := by
    obtain ⟨place, depth⟩ := l
    cases place <;> simp [mem_placed]
  woken l := by
    obtain ⟨place, depth⟩ := l
    funext c
    cases place <;> cases c <;> rfl
  move hk hmove hm := by
    cases hmove with
    | lock h => exact hm.lock h
    | unlock h => exact hm.unlock h
    | run h => exact hm.run hk h
  notify hk h hm := hm.notify hk h
  outside _ h he hm := hm.outside h he

/-! ## What the threads have left to do -/

/-- The steps that are left after `end`. -/
def afterEnd (back : Bool) : ℕ := if back then 4 else 0

/-- The steps up to the end of the operation or to the next sleep, as long as no other thread
changes the count. -/
def effort (m : Memory) (l : Thread) : ℕ :=
  match l.place with
  | .idle | .beginSleep | .turnSleep | .emptySleep => 0
  | .beginLoad => 13
  | .beginAdd => 12
  | .beginReload => 11
  | .beginLock => 4
  | .beginCheck => 3
  | .beginAdmit => 2
  | .beginUnlock => 1
  | .endLoad back => 6 + afterEnd back
  | .endCas back seen => 5 + afterEnd back + if m.active = seen + 1 then 0 else 1
  | .endPending back => 4 + afterEnd back
  | .endLock back => 3 + afterEnd back
  | .endNotify back => 2 + afterEnd back
  | .endUnlock back => 1 + afterEnd back
  | .drainLock => 5
  | .drainPublish | .turnLock => 4
  | .turnCheck | .emptyLock => 3
  | .emptyLoad => 2
  | .emptyWait | .drainUnlock => 1
  | .resumeLock => 4
  | .resumeClear => 3
  | .resumeNotify => 2
  | .resumeUnlock => 1

/-- The changes of the count and the notifications that the operation can still make. -/
def events (l : Thread) : ℕ :=
  match l.place with
  | .beginLoad | .beginAdd => 4
  | .beginReload => 3
  | .beginLock | .beginCheck | .beginSleep | .beginAdmit => 1
  | .endLoad back | .endCas back _ => 2 + back.toNat
  | .endPending back | .endLock back | .endNotify back => 1 + back.toNat
  | .endUnlock back => back.toNat
  | .resumeLock | .resumeClear | .resumeNotify => 1
  | _ => 0

theorem effort_congr (h : m'.active = m.active) (l : Thread) : effort m' l = effort m l := by
  obtain ⟨place, depth⟩ := l
  cases place <;> simp only [effort, h]

/-- Another thread's change of the count costs a compare-and-swap. -/
theorem effort_le (m m' : Memory) (l : Thread) : effort m' l ≤ effort m l + 4 := by
  obtain ⟨place, depth⟩ := l
  cases place with
  | endCas back seen =>
    simp only [effort]
    split <;> omega
  | _ => exact le_add_right _ 4

theorem effort_finish (m : Memory) (l : Thread) (back : Bool) :
    effort m (l.go (finish back)) = afterEnd back := by
  cases back <;> rfl

theorem events_finish (l : Thread) (back : Bool) : events (l.go (finish back)) = back.toNat := by
  cases back <;> rfl

theorem effort_retry (m : Memory) (l : Thread) (back : Bool) :
    effort m (l.go (retry back m.active)) ≤ 5 + afterEnd back ∧
      events (l.go (retry back m.active)) ≤ 2 + back.toNat := by
  cases hactive : m.active with
  | zero =>
    rw [retry, effort_finish, events_finish]
    omega
  | succ seen =>
    simp only [retry, go, effort, events, hactive, if_true]
    omega

attribute [local simp] events effort

theorem ranking_run (h : instr m l = .run m' l') :
    (effort m' l' < effort m l ∧ events l' ≤ events l ∧ m'.active = m.active) ∨
      (events l' < events l ∧ effort m' l' ≤ effort m l + 4) := by
  have hother := effort_le m m' l'
  obtain ⟨place, depth⟩ := l
  cases place with
  | endLoad back =>
    cases h
    obtain ⟨heffort, hevents⟩ := effort_retry m ⟨.endLoad back, depth⟩ back
    exact .inl ⟨lt_of_le_of_lt heffort (by simp only [effort]; omega), hevents, rfl⟩
  | endCas back seen =>
    simp only [instr, swap] at h
    split at h
    · -- the count changes
      cases h
      refine .inr ?_
      split
      · simp only [go, effort, events]
        omega
      · rw [effort_finish, events_finish]
        simp only [effort, events]
        omega
    · next hseen =>
      cases h
      obtain ⟨heffort, hevents⟩ := effort_retry m ⟨.endCas back seen, depth⟩ back
      refine .inl ⟨lt_of_le_of_lt heffort ?_, hevents, rfl⟩
      simp only [effort, hseen, if_false]
      omega
  | endPending back =>
    cases h
    refine .inl ⟨?_, ?_, rfl⟩ <;> split
    · simp only [go, effort]
      omega
    · rw [effort_finish]
      simp only [effort]
      omega
    · exact le_refl _
    · rw [events_finish]
      simp only [events]
      omega
  | _ =>
    simp only [instr, reduceCtorEq] at h
    try split at h
    all_goals cases h
    all_goals simp [afterEnd]

theorem ranking_lock (h : instr m l = .lock l') :
    effort m l' < effort m l ∧ events l' ≤ events l := by
  obtain ⟨place, depth⟩ := l
  cases place <;> simp only [instr, reduceCtorEq, swap] at h <;> (try split at h) <;> cases h
  all_goals simp

theorem ranking_unlock (h : instr m l = .unlock m' l') :
    effort m' l' < effort m l ∧ events l' ≤ events l ∧ m'.active = m.active := by
  obtain ⟨place, depth⟩ := l
  cases place with
  | endUnlock back =>
    cases h
    rw [effort_finish, events_finish]
    exact ⟨by simp only [effort]; omega, le_refl _, rfl⟩
  | _ =>
    simp only [instr, reduceCtorEq, swap] at h
    try split at h
    all_goals cases h
    all_goals simp

/-- What is left lowers with each step. -/
theorem ranking : Ranking program effort events 4 13 where
  move hmove := by
    cases hmove with
    | lock h =>
      obtain ⟨heffort, hevents⟩ := ranking_lock h
      exact .inl ⟨heffort, hevents, fun _ => rfl⟩
    | unlock h =>
      obtain ⟨heffort, hevents, hactive⟩ := ranking_unlock h
      exact .inl ⟨heffort, hevents, effort_congr hactive⟩
    | run h =>
      rcases ranking_run h with ⟨heffort, hevents, hactive⟩ | ⟨hevents, heffort⟩
      · exact .inl ⟨heffort, hevents, effort_congr hactive⟩
      · exact .inr ⟨hevents, heffort, effort_le _ _⟩
  notify {m l l'} h := by
    obtain ⟨place, depth⟩ := l
    change instr _ _ = _ at h
    cases place <;> simp only [instr, reduceCtorEq, swap] at h <;> (try split at h) <;> cases h
    all_goals simp only [go, effort, events]
    all_goals omega
  woken m l := by
    obtain ⟨place, depth⟩ := l
    cases place <;> simp [program, woken]
  outside {m l e m' l'} h := by
    obtain ⟨place, depth⟩ := l
    change outside _ _ _ = _ at h
    cases e with
    | start op =>
      cases op <;> simp only [outside, start, Option.ite_none_right_eq_some] at h <;>
        obtain ⟨rfl, h⟩ := h <;> cases h <;>
        exact ⟨by simp [afterEnd], by simp, fun x => effort_congr rfl x⟩
    | wake =>
      simp only [outside, Option.some.injEq, Prod.mk.injEq] at h
      obtain ⟨rfl, rfl⟩ := h
      refine ⟨?_, ?_, fun _ => rfl⟩ <;>
        cases place <;> simp [woken]
    | casFails =>
      cases place <;> simp only [outside, failCas, reduceCtorEq] at h
      cases h
      next back seen =>
      obtain ⟨heffort, hevents⟩ := effort_retry m ⟨.endCas back seen, depth⟩ back
      refine ⟨le_trans heffort ?_, le_trans hevents ?_, fun _ => rfl⟩
      · simp only [effort]
        omega
      · simp only [events]
        omega

/-! ## Every run -/

/-- The thread is in a drain that has not returned. -/
def Thread.drains (l : Thread) : Bool :=
  match l.place with
  | .drainLock | .drainPublish | .turnCheck | .turnSleep | .turnLock | .emptyLoad | .emptyWait
  | .emptySleep | .emptyLock | .drainUnlock => true
  | _ => false

/-- The thread is in a `begin` that has not been admitted. -/
def Thread.enters (l : Thread) : Bool :=
  match l.place with
  | .beginLoad | .beginAdd | .beginReload | .beginLock | .beginCheck | .beginSleep
  | .beginAdmit => true
  | .endLoad back | .endCas back _ | .endPending back | .endLock back | .endNotify back
  | .endUnlock back => back
  | _ => false

section Runs

variable {τ : Type*} [Fintype τ]

/-- A drain has registered and was not resumed. -/
def InProgress (s : Gate τ) : Prop := 0 < s.mem.waiters ∨ s.mem.draining = true

theorem account_initial : Counting.Holds Account weight (Gate.initial : Gate τ) := by
  have hsum : (∑ t, weight ((Gate.initial : Gate τ).thread t)) = 0 :=
    Finset.sum_eq_zero fun _ _ => by
      funext c
      cases c <;> rfl
  rw [Counting.Holds, hsum]
  constructor <;> simp [Gate.initial]

variable [DecidableEq τ]

/-- The two places where a call is admitted. -/
theorem depth_le_of_move {b b' : Bool} (h : program.Move m b l m' b' l') :
    l'.depth ≤ l.depth ∨ m.pending = false ∨ l.place = .beginAdmit := by
  obtain ⟨place, depth⟩ := l
  cases h with
  | lock h | unlock h | run h =>
    change instr _ _ = _ at h
    cases place <;> simp only [instr, reduceCtorEq, swap] at h <;> (try split at h) <;> cases h
    all_goals simp_all

theorem depth_eq_of_notify (h : instr m l = .notify l') : l'.depth = l.depth := by
  obtain ⟨place, depth⟩ := l
  cases place <;> simp only [instr, reduceCtorEq, swap] at h <;> (try split at h) <;> cases h <;>
    rfl

theorem depth_le_of_outside {e : Event} (h : CallGate.outside m l e = some (m', l')) :
    l'.depth ≤ l.depth := by
  obtain ⟨place, depth⟩ := l
  cases e with
  | start op =>
    cases op <;> simp only [outside, start, Option.ite_none_right_eq_some] at h <;>
      obtain ⟨-, h⟩ := h <;> cases h <;> simp
  | wake =>
    cases h
    exact le_refl _
  | casFails =>
    cases place <;> simp only [outside, failCas, reduceCtorEq] at h
    cases h
    exact le_refl _

/-- No call is admitted while a drain is in progress: `pending_` is set, and a thread past the wait
rules out a drain. -/
theorem depth_le {s s' : Gate τ} {a : Action τ Event} (hs : Counting.Holds Account weight s)
    (hstep : step program s a = some s') (hdrain : InProgress s) (t : τ) :
    (s'.thread t).depth ≤ (s.thread t).depth := by
  have hpending : s.mem.pending = true := hs.pending.mpr hdrain
  refine step_thread (r := fun l l' => l'.depth ≤ l.depth) (fun _ => le_refl _)
    (fun _ => le_refl _) (fun u m b l hmove => ?_) (fun u l h => ?_)
    (fun u e m l hout => depth_le_of_outside hout) hstep t
  · rcases depth_le_of_move hmove with hle | hfalse | hplace
    · exact hle
    · exact absurd hfalse (by simp [hpending])
    · have hentering : 0 < (∑ t, weight (s.thread t)) .entering :=
        count_pos_iff.mpr ⟨u, by simp [hplace]⟩
      obtain ⟨hdraining, hwaiters⟩ := hs.entering hentering
      rcases hdrain with hdrain | hdrain
      · omega
      · simp [hdrain] at hdraining
  · exact (depth_eq_of_notify h).le

theorem place_of_rest (h : instr m l = .rest) :
    l.place = .idle ∨ l.place = .beginSleep ∨ l.place = .turnSleep ∨ l.place = .emptySleep := by
  obtain ⟨place, depth⟩ := l
  cases place <;> simp only [instr, reduceCtorEq, swap] at h <;> (try split at h) <;>
    (try cases h) <;> simp

/-- Where the gate has come to rest, nobody is about to notify, and calls are counted only because
they have been admitted. -/
theorem rest_of_stuck {s : Gate τ} (hs : Counting.Holds Account weight s)
    (h : Stuck program s) (t : τ) : (s.thread t).place = .idle ∨
      (s.thread t).place = .beginSleep ∨ (s.thread t).place = .turnSleep ∨
      (s.thread t).place = .emptySleep := by
  refine place_of_rest ((stuck_rest (fun m l (hl : l.place.holds) => ?_) (fun hlocked => ?_) h).2 t)
  · obtain ⟨place, depth⟩ := l
    change instr m _ ≠ _ ∧ ∀ next, instr m _ ≠ _
    cases place <;> simp only [holds, false_eq_true] at hl <;>
      simp only [instr] <;> (try split) <;> simp
  · have hholding : 0 < (∑ t, weight (s.thread t)) .holding := by
      rw [hs.holding, hlocked]
      decide
    obtain ⟨u, hu⟩ := count_pos_iff.mp hholding
    exact ⟨u, toNat_pos_iff.mp hu⟩

section Stuck

variable {s : Gate τ} (hs : Counting.Holds Account weight s) (h : Stuck program s)

include hs h

/-- A drain that sleeps until the calls have ended waits for an admitted call. -/
theorem exists_call_of_emptySleep {t : τ} (ht : (s.thread t).place = .emptySleep) :
    ∃ u, 0 < (s.thread u).depth := by
  have hrest := rest_of_stuck hs h
  have hsleep : 0 < (∑ t, weight (s.thread t)) .emptySleeping :=
    count_pos_iff.mpr ⟨t, by simp [ht]⟩
  have hquiet : ¬ 0 < (∑ t, weight (s.thread t)) .announcing := not_count_pos fun u => by
    rcases hrest u with hu | hu | hu | hu <;> simp [hu]
  have hactive : 0 < (∑ t, weight (s.thread t)) .active := by
    rw [← hs.active]
    exact pos_of_ne_zero fun hzero => hquiet (hs.emptied (.inr hsleep) hzero)
  obtain ⟨u, hu⟩ := count_pos_iff.mp hactive
  refine ⟨u, ?_⟩
  rcases hrest u with hplace | hplace | hplace | hplace <;>
    simpa [hplace] using hu

/-- The gate is drained for a drain that has returned, or for one that waits for the calls. -/
theorem owner_of_draining (hdraining : s.mem.draining = true) :
    s.mem.returned = true ∨ ∃ u, (s.thread u).place = .emptySleep := by
  have howning := hs.owning
  rw [hdraining] at howning
  cases hreturned : s.mem.returned with
  | true => exact .inl rfl
  | false =>
    have hpos : 0 < (∑ t, weight (s.thread t)) .owning := by
      rw [hreturned] at howning
      simp only [toNat_true, toNat_false] at howning
      omega
    obtain ⟨u, hu⟩ := count_pos_iff.mp hpos
    refine .inr ⟨u, ?_⟩
    rcases rest_of_stuck hs h u with hplace | hplace | hplace | hplace <;>
      simp_all

theorem not_resuming : ¬ 0 < (∑ t, weight (s.thread t)) .resuming := not_count_pos fun u => by
  rcases rest_of_stuck hs h u with hu | hu | hu | hu <;> simp [hu]

/-- A drain waits for an admitted call or for the resume of another drain. -/
theorem drain_waits {t : τ} (ht : (s.thread t).drains = true) :
    s.mem.returned = true ∨ ∃ u, 0 < (s.thread u).depth := by
  rcases rest_of_stuck hs h t with hplace | hplace | hplace | hplace
  · simp [drains, hplace] at ht
  · simp [drains, hplace] at ht
  · have hsleep : 0 < (∑ t, weight (s.thread t)) .turnSleeping :=
      count_pos_iff.mpr ⟨t, by simp [hplace]⟩
    have hdraining : s.mem.draining = true := by
      cases hdraining : s.mem.draining with
      | true => rfl
      | false => exact absurd (hs.turned hsleep hdraining) (not_resuming hs h)
    rcases owner_of_draining hs h hdraining with hreturned | ⟨u, hu⟩
    · exact .inl hreturned
    · exact .inr (exists_call_of_emptySleep hs h hu)
  · exact .inr (exists_call_of_emptySleep hs h hplace)

/-- A call is blocked by a drain that has not returned or was not resumed. -/
theorem call_waits {t : τ} (ht : (s.thread t).enters = true) :
    s.mem.returned = true ∨ ∃ u, (s.thread u).drains = true := by
  rcases rest_of_stuck hs h t with hplace | hplace | hplace | hplace
  · simp [enters, hplace] at ht
  · have hsleep : 0 < (∑ t, weight (s.thread t)) .blocked :=
      count_pos_iff.mpr ⟨t, by simp [hplace]⟩
    cases hdraining : s.mem.draining with
    | true =>
      rcases owner_of_draining hs h hdraining with hreturned | ⟨u, hu⟩
      · exact .inl hreturned
      · exact .inr ⟨u, by simp [drains, hu]⟩
    | false =>
      have hwaiters : 0 < (∑ t, weight (s.thread t)) .waiting := by
        rw [← hs.waiting]
        exact pos_of_ne_zero fun hzero =>
          not_resuming hs h (hs.resumed hsleep hdraining hzero)
      obtain ⟨u, hu⟩ := count_pos_iff.mp hwaiters
      refine .inr ⟨u, ?_⟩
      rcases rest_of_stuck hs h u with hplace | hplace | hplace | hplace <;>
        simp_all [drains]
  · simp [enters, hplace] at ht
  · simp [enters, hplace] at ht

end Stuck

/-- The steps that an outside event can cause. -/
def budget (τ : Type*) [Fintype τ] : ℕ := 13 + Ranking.price τ 4 * 13

/-- **The call gate.** In every run of any number of threads in which operations come in pairs:
no admitted call is active between the return of a drain and its resume; no call is admitted while
a drain is in progress, so that the calls a drain waits for were admitted before it; the steps of
the gate are bounded by the number of operations started and of spurious wake-ups and failures; and
where it comes to rest, a drain that has not returned waits for an admitted call or for the resume
of another drain, and a call that is not admitted waits for a drain that has not returned or was
not resumed. -/
theorem call_gate (as : List (Action τ Event)) (s : Gate τ)
    (hexec : exec (step program) Gate.initial as = some s)
    (hpaired : Along (step program) (Meets Paired) Gate.initial as) :
    (s.mem.returned = true → ∀ t, (s.thread t).depth = 0) ∧
    (∀ a s', step program s a = some s' → InProgress s →
      ∀ t, (s'.thread t).depth ≤ (s.thread t).depth) ∧
    as.countP Action.isOwn ≤ budget τ * as.countP (fun a => !a.isOwn) ∧
    (Stuck program s →
      (∀ t, (s.thread t).drains = true → s.mem.returned = true ∨ ∃ u, 0 < (s.thread u).depth) ∧
      ∀ t, (s.thread t).enters = true →
        s.mem.returned = true ∨ ∃ u, (s.thread u).drains = true) := by
  have hs : Counting.Holds Account weight s := counting.exec account_initial hpaired hexec
  refine ⟨fun hreturned t => ?_, fun a s' hstep hdrain t => depth_le hs hstep hdrain t, ?_,
    fun hstuck => ⟨fun t ht => drain_waits hs hstuck ht, fun t ht => call_waits hs hstuck ht⟩⟩
  · exact count_eq_zero (hs.closing (.inr hreturned)) t
  · have hcount := ranking.count_le hexec
    have hrank : Ranking.rank effort events 4 (Gate.initial : Gate τ) = 0 := by
      simp [Ranking.rank, Gate.initial]
    rwa [hrank, zero_add] at hcount

end Runs

/-! ## Several drains -/

/-- A thread starts an operation and takes a number of steps. -/
def perform {τ : Type*} (t : τ) (op : Op) (steps : ℕ) : List (Action τ Event) :=
  .outside t (.start op) :: List.replicate steps (.own t)

/-- A call that is admitted and ends while a drain waits for it, with the drain's return. -/
def drained : List (Action (Fin 3) Event) :=
  perform 1 .beginCall 3 ++ perform 0 .drain 5 ++ perform 1 .endCall 6 ++ List.replicate 3 (.own 0)

/-- Two drains, of which the second finds the first not resumed. -/
def secondDrain : List (Action (Fin 3) Event) := perform 0 .drain 5 ++ perform 1 .drain 3

/-- A call is blocked, and the drain that blocks it is resumed while a second one waits. -/
def blockedTwice : List (Action (Fin 3) Event) :=
  perform 0 .drain 5 ++ perform 2 .beginCall 3 ++ perform 1 .drain 3 ++ perform 0 .resume 4 ++
    List.replicate 4 (.own 1) ++ List.replicate 2 (.own 2)

/-- A resume arrives before the drain has returned. -/
def strayResume : List (Action (Fin 3) Event) :=
  perform 1 .beginCall 3 ++ perform 0 .drain 5 ++ perform 2 .resume 4 ++ perform 1 .endCall 3 ++
    List.replicate 3 (.own 0) ++ perform 2 .beginCall 3

theorem call_gate_of_drained : ∃ s : Gate (Fin 3),
    exec (step program) Gate.initial drained = some s ∧ s.mem.returned = true ∧
      ∀ t, (s.thread t).depth = 0 := by
  refine exists_of_any (p := fun s => s.mem.returned = true) (by decide) fun s hs hreturned => ?_
  exact ⟨hreturned, (call_gate drained s hs (by decide)).1 hreturned⟩

/-- A second drain does not return although no call was ever admitted; a call that the first drain
blocked is still blocked after its resume; and a resume that belongs to no drain lets a call in
that is active after the drain has returned. -/
theorem two_drains :
    (Along (step program) (Meets Paired) Gate.initial secondDrain ∧
      (exec (step program) Gate.initial secondDrain).map (fun s =>
        (decide (Stuck program s), (s.thread 1).drains, decide (∀ t, (s.thread t).depth = 0))) =
        some (true, true, true)) ∧
    (Along (step program) (Meets Paired) Gate.initial blockedTwice ∧
      (exec (step program) Gate.initial blockedTwice).map (fun s =>
        (decide (Stuck program s), (s.thread 2).enters)) = some (true, true)) ∧
    (exec (step program) Gate.initial strayResume).map (fun s =>
      (s.mem.returned, (s.thread 2).depth)) = some (true, 1) := by
  decide

end Lupine.Checkpoint.CallGate
