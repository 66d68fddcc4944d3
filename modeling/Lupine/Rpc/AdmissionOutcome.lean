import Mathlib.Algebra.Order.BigOperators.Group.Finset
import Lupine.Rpc.Admission

/-!
# What a pause does to requests

* While requests are paused, no ordinary request is being built (`Client.Inv.not_between`).
* A request that the pause has stopped is admitted when the flag is clear, or it is refused after
  the connection was cancelled (`Client.Inv.step_blocked`). Once the handoff is over or the
  connection cancelled, the threads that are in these functions come out of them, whatever the
  schedule (`Client.progress`).
* A thread that is out of these functions owns the locks that it owned before
  (`Client.locks_kept`).

`Client.admission` puts these together. `Client.reading_request_is_admitted` has a request that a
pause does not keep out, of a thread that is reading a request of the server.
-/

namespace Lupine.Rpc.Admission

open Foundations Thread

variable {t : Thread}

/-- From the return of `rpc_write_start_request` to that of `rpc_write_end`. -/
def Phase.between : Phase → Bool
  | .building | .ending => true
  | _ => false

/-- The request was stopped, or is about to look at the flag. -/
def Phase.blocked (p : Phase) : Bool := p.waits || p == .checking

/-- A thread opens or closes a response. -/
def Action.OfResponse {ι : Type*} (i : ι) : Action ι → Prop
  | .respond j _ | .finishResponse j => i = j
  | _ => False

/-- How far a request is from its end, when the flag does not change. -/
def Phase.rank (paused : Bool) : Phase → ℕ
  | .idle => 0
  | .refused | .leaving | .ending => 1
  | .building => 2
  | .opened => 3
  | .admitted => 4
  | .checking => if paused then 6 else 5
  | .relocking cancelled => if paused then if cancelled then 2 else 7 else 6
  | .waiting => if paused then 5 else 7
  | .sleeping | .entering => 8

/-- At least the steps it has left. -/
def Thread.rank (paused : Bool) (t : Thread) : ℕ :=
  t.phase.rank paused + if t.response then 1 else 0

theorem Thread.rank_go {paused : Bool} {phase : Phase}
    (h : phase.rank paused < t.phase.rank paused) : (t.go phase).rank paused < t.rank paused :=
  Nat.add_lt_add_right h _

namespace Client

variable {ι : Type*}

/-! ## Exclusion -/

variable {s s' : Client ι} {i : ι} {a : Action ι}

theorem Inv.not_between (h : s.Inv) (hpaused : s.pause = .paused)
    (ho : (s.threads i).ordinary = true) : (s.threads i).phase.between = false := by
  have hflag := h.paused.mpr (.inr hpaused)
  cases hb : (s.threads i).phase.between with
  | false => rfl
  | true =>
    have hin : (s.threads i).phase.inside = true := by
      cases hp : (s.threads i).phase <;> simp_all [Phase.between]
    rw [(h.thread i).inside hin ho] at hflag
    cases hflag

theorem wake_blocked (h : t.phase.blocked = true) : t.wake.phase.blocked = true := by
  unfold wake
  split
  · rfl
  · exact h

/-- Nothing keeps requests out any more. -/
def Settled (s : Client ι) : Prop :=
  s.pause = .running ∨ s.pause = .paused ∧ s.cancelled = true

theorem Inv.not_pausing (h : s.Inv) (hs : s.Settled) :
    ¬(s.requestsPaused = true ∧ s.cancelled = false) := by
  rintro ⟨hpaused, hcancelled⟩
  have hpause := h.paused.mp hpaused
  rcases hs with hs | ⟨-, hs⟩
  · simp [hs] at hpause
  · simp [hs] at hcancelled

theorem Only.settled (h : Only s s' i) (hs : s.Settled) : s'.Settled := by
  unfold Settled
  rw [h.pause, h.cancelled]
  exact hs

attribute [local simp] Phase.rank

/-- A thread that goes on comes closer to its end. -/
theorem Inv.rank_lt (h : s.Inv) (hs : s.Settled) (hgoes : a.goesOn = true) (hturn : Turn s i a t) :
    t.rank s.requestsPaused < (s.threads i).rank s.requestsPaused := by
  have hfree := h.not_pausing hs
  cases hturn with
  | start | wake | respond | read => cases hgoes
  | lock hp =>
    simp only [rank, hp, Phase.rank]
    split <;> omega
  | trylock hp | noCall hp | noWrite hp | closed hp | take hp | build hp | fail hp | finish hp =>
    exact rank_go (by rw [hp]; simp)
  | enter hp hc =>
    refine rank_go ?_
    rw [hp]
    simp only [Phase.rank]
    split <;> omega
  | block hp hc => exact rank_go (by rw [hp]; simp [hc])
  | sleep hp hpaused hcancelled => exact absurd ⟨hpaused, hcancelled⟩ hfree
  | leave hp hc =>
    refine rank_go ?_
    rw [hp]
    cases hpaused : s.requestsPaused with
    | false => simp
    | true =>
      have hcancelled : s.cancelled = true := by simpa [hpaused] using hfree
      simp [hcancelled]
  | relock cancelled hp =>
    refine rank_go ?_
    rw [hp]
    cases cancelled with
    | true =>
      change 1 < (if s.requestsPaused then if true then 2 else 7 else 6)
      split <;> simp
    | false =>
      change (if s.requestsPaused then 6 else 5) <
        if s.requestsPaused then if false then 2 else 7 else 6
      split <;> simp
  | unlock hp =>
    refine rank_go ?_
    rcases hp with hp | hp | hp <;> rw [hp] <;> simp
  | finishResponse hp hr => simp [rank, hr]

theorem wake_response (t : Thread) : t.wake.response = t.response := by
  unfold wake
  split <;> rfl

section Step

variable [DecidableEq ι]

/-! ## Blocked requests -/

/-- A blocked request stays blocked, or it is refused by a connection that was cancelled, or it is
admitted while the flag is clear. -/
theorem Inv.step_blocked (h : s.Inv) (hstep : s.step a = some s')
    (hblocked : (s.threads i).phase.blocked = true) (ho : (s.threads i).ordinary = true) :
    (s'.threads i).phase.blocked = true ∨
      (s'.threads i).phase = .refused ∧ s'.cancelled = true ∨
      (s'.threads i).phase = .admitted ∧ s.requestsPaused = false := by
  rcases (h.step hstep).2 with ⟨j, honly, hturn⟩ | ⟨-, hstays⟩
  · rcases eq_or_ne i j with rfl | hne
    · generalize hthread : s'.threads i = t at hturn
      cases hturn with
      | enter hp hc => exact .inr (.inr ⟨rfl, by simpa [ho] using hc⟩)
      | block hp | sleep hp | leave hp | wake hp => exact .inl rfl
      | relock cancelled hp =>
        cases cancelled with
        | false => exact .inl rfl
        | true =>
          refine .inr (.inl ⟨rfl, ?_⟩)
          rw [honly.cancelled]
          exact (h.thread i).cancelled (.inl hp)
      | unlock hp => rcases hp with hp | hp | hp <;> rw [hp] at hblocked <;> cases hblocked
      | read _ hp => rcases hp with hp | hp <;> rw [hp] at hblocked <;> cases hblocked
      | _ => simp_all [Phase.blocked]
    · rw [honly.threads i hne]
      exact .inl hblocked
  · left
    rcases hstays i with heq | heq
    · rw [heq]
      exact hblocked
    · rw [heq]
      exact wake_blocked hblocked

/-! ## Progress -/

/-- Some thread can go on. -/
def CanGoOn (s : Client ι) : Prop := ∃ a : Action ι, a.goesOn = true ∧ (s.step a).isSome = true

attribute [local simp] Client.step

/-- A thread that holds `call_mutex` goes on, or one whose response is in its way does. -/
theorem Inv.canGoOn_of_call (h : s.Inv) {j : ι} (hcall : s.callLock = some (.thread j)) :
    s.CanGoOn := by
  have hj := h.thread j
  have hholds := hj.call.mp hcall
  cases hp : (s.threads j).phase with
  | idle | entering | waiting | sleeping | relocking => simp [hp] at hholds
  | checking =>
    refine ⟨.check j, rfl, ?_⟩
    simp only [Client.step, if_pos hp]
    split <;> rfl
  | refused | leaving | ending => exact ⟨.unlockCall j, rfl, by simp [hp]⟩
  | opened => exact ⟨.build j true, rfl, by simp [hp]⟩
  | building => exact ⟨.finish j, rfl, by simp [hp]⟩
  | admitted =>
    cases hclosed : s.closed with
    | true => exact ⟨.takeBuilder j, rfl, by simp [hp, hclosed]⟩
    | false =>
    cases hr : (s.threads j).response with
    | true => exact ⟨.takeBuilder j, rfl, by simp [hp, hclosed, hr]⟩
    | false =>
    cases hwrite : s.writeLock with
    | none => exact ⟨.takeBuilder j, rfl, by simp [hp, hclosed, hr, hwrite]⟩
    | some k =>
      -- the builder belongs to a response, whose thread does not wait for the call lock
      have hk := h.thread k
      have hne : k ≠ j := by
        rintro rfl
        have hown := hj.write.mp hwrite
        simp [hr, hp] at hown
      have hnot : (s.threads k).phase.holdsCall = false := by
        rw [← Bool.not_eq_true, ← hk.call, hcall]
        simpa using Ne.symm hne
      have hresponse : (s.threads k).response = true := by
        refine (hk.write.mp hwrite).resolve_right fun hb => ?_
        cases hpk : (s.threads k).phase <;> simp_all
      cases hpk : (s.threads k).phase with
      | idle => exact ⟨.finishResponse k, rfl, by simp [hpk, hresponse]⟩
      | entering => exact ⟨.lockCall k, rfl, by simp [hpk, hcall, hresponse]⟩
      | waiting | sleeping | relocking =>
        have hwaits := (hk.waits (by rw [hpk]; rfl)).2
        simp [hresponse] at hwaits
      | _ => simp [hpk] at hnot

/-- As long as a thread is in these functions or has a response open, some thread goes on. -/
theorem Inv.canGoOn (h : s.Inv) (hs : s.Settled)
    (hbusy : (s.threads i).phase ≠ .idle ∨ (s.threads i).response = true) : s.CanGoOn := by
  cases hcall : s.callLock with
  | some owner =>
    cases owner with
    | thread j => exact h.canGoOn_of_call hcall
    | handoff =>
      have hpause := h.handoff.mp hcall
      rcases hs with hs | ⟨hs, -⟩ <;> simp [hs] at hpause
  | none =>
    have hi := h.thread i
    have hnot : (s.threads i).phase.holdsCall = false := by
      rw [← Bool.not_eq_true, ← hi.call, hcall]
      simp
    cases hp : (s.threads i).phase with
    | idle =>
      have hr := hbusy.resolve_left (not_not.mpr hp)
      exact ⟨.finishResponse i, rfl, by simp [hp, hr]⟩
    | entering => exact ⟨.lockCall i, rfl, by simp [hp, hcall]⟩
    | waiting => exact ⟨.await i, rfl, by simp only [Client.step, if_pos hp]; split <;> rfl⟩
    | sleeping => exact absurd (hi.asleep hp) (h.not_pausing hs)
    | relocking cancelled => exact ⟨.relock i, rfl, by simp [hp, hcall]⟩
    | _ => simp [hp] at hnot

/-! ## Locks -/

theorem Inv.response_step (h : s.Inv) (hstep : s.step a = some s') (ha : ¬a.OfResponse i) :
    (s'.threads i).response = (s.threads i).response := by
  rcases (h.step hstep).2 with ⟨j, honly, hturn⟩ | ⟨-, hstays⟩
  · rcases eq_or_ne i j with rfl | hne
    · generalize s'.threads i = t at hturn
      cases hturn with
      | respond | finishResponse => exact absurd rfl ha
      | _ => rfl
    · rw [honly.threads i hne]
  · rcases hstays i with heq | heq
    · rw [heq]
    · rw [heq, wake_response]

theorem Inv.response_exec {t : Client ι} {as : List (Action ι)} (h : s.Inv)
    (hrun : exec Client.step s as = some t)
    (ha : ∀ a ∈ as, ¬a.OfResponse i) : (t.threads i).response = (s.threads i).response := by
  induction as generalizing s with
  | nil => cases hrun; rfl
  | cons a as ih =>
    obtain ⟨s₁, hs₁, hrun⟩ := exec_cons_eq_some.mp hrun
    rw [ih (h.step hs₁).1 hrun fun b hb => ha b (by simp [hb]),
      h.response_step hs₁ (ha a (by simp))]

/-- The thread owns the same locks in both states. -/
def SameLocks (s t : Client ι) (i : ι) : Prop :=
  (t.callLock = some (.thread i) ↔ s.callLock = some (.thread i)) ∧
    (t.writeLock = some i ↔ s.writeLock = some i)

/-- Every way out of a request leaves the locks as the request found them. -/
theorem Inv.locks_kept {t : Client ι} (h : s.Inv) {as : List (Action ι)}
    (hrun : exec Client.step s as = some t) (ha : ∀ a ∈ as, ¬a.OfResponse i)
    (hs : (s.threads i).phase = .idle) (ht : (t.threads i).phase = .idle) : SameLocks s t i := by
  have hinv : t.Inv := exec_invariant (fun _ _ _ h hstep => (h.step hstep).1) h hrun
  obtain ⟨hcall, hwrite⟩ := h.locks_of_idle hs
  obtain ⟨hcall', hwrite'⟩ := hinv.locks_of_idle ht
  exact ⟨iff_of_false hcall' hcall, by rw [hwrite, hwrite', h.response_exec hrun ha]⟩

variable [Fintype ι]

/-- A bound on the actions that are left. -/
def work (s : Client ι) : ℕ := ∑ i, (s.threads i).rank s.requestsPaused

theorem Inv.work_lt (h : s.Inv) (hs : s.Settled) (hgoes : a.goesOn = true)
    (hstep : s.step a = some s') : s'.Settled ∧ s'.work < s.work := by
  rcases (h.step hstep).2 with ⟨i, honly, hturn⟩ | ⟨hstays, -⟩
  · refine ⟨honly.settled hs, ?_⟩
    unfold work
    rw [honly.requestsPaused]
    refine Finset.sum_lt_sum (fun j _ => ?_) ⟨i, Finset.mem_univ i, h.rank_lt hs hgoes hturn⟩
    rcases eq_or_ne j i with rfl | hne
    · exact (h.rank_lt hs hgoes hturn).le
    · rw [honly.threads j hne]
  · rw [hgoes] at hstays
    cases hstays

/-- **Progress.** Once nothing keeps requests out, the threads take a bounded number of actions
until no request and no response is left. -/
theorem progress (h : s.Inv) (hs : s.Settled) {as : List (Action ι)} {t : Client ι}
    (hrun : exec Client.step s as = some t) (hgoes : ∀ a ∈ as, a.goesOn = true) :
    as.length ≤ s.work ∧ (t.CanGoOn ∨
      ∀ i, (t.threads i).phase = .idle ∧ (t.threads i).response = false) := by
  induction as generalizing s with
  | nil =>
    cases hrun
    refine ⟨Nat.zero_le _, ?_⟩
    rcases Classical.em (∀ i, (t.threads i).phase = .idle ∧ (t.threads i).response = false) with
      hidle | hbusy
    · exact .inr hidle
    · obtain ⟨i, hi⟩ := not_forall.mp hbusy
      exact .inl (h.canGoOn hs ((Classical.not_and_iff_not_or_not.mp hi).imp_right fun hr => by
        simpa using hr))
  | cons a as ih =>
    obtain ⟨s₁, hs₁, hrun⟩ := exec_cons_eq_some.mp hrun
    obtain ⟨hsettled, hlt⟩ := h.work_lt hs (hgoes a (by simp)) hs₁
    obtain ⟨hlen, hend⟩ := ih (h.step hs₁).1 hsettled hrun fun b hb => hgoes b (by simp [hb])
    refine ⟨?_, hend⟩
    rw [List.length_cons]
    omega

/-! ## Admission -/

/-- **Admission.** In every state that the threads reach:

* after `lupine_handoff_pause_requests` has returned and until the resume, no ordinary request is
  between the return of its start and the end of its `rpc_write_end`;
* a blocked request stays blocked, is refused by a connection that was cancelled, or is admitted
  while requests are not paused; and when the handoff is over or the connection cancelled, all
  requests come to their end in a bounded number of actions;
* a request that was started holds the call lock and the write lock; every way out of a request, by
  a start that fails or by `rpc_write_end`, leaves both locks to its thread as they were; and
  `lupine_handoff_pause_requests` gives the call lock back. -/
theorem admission {as : List (Action ι)} {s : Client ι}
    (hrun : exec Client.step initial as = some s) :
    (s.pause = .paused → ∀ i, (s.threads i).ordinary = true →
      (s.threads i).phase.between = false) ∧
    (∀ i a t, (s.threads i).phase.blocked = true → (s.threads i).ordinary = true →
      s.step a = some t →
        (t.threads i).phase.blocked = true ∨
        (t.threads i).phase = .refused ∧ t.cancelled = true ∨
        (t.threads i).phase = .admitted ∧ s.requestsPaused = false) ∧
    (s.Settled → ∀ bs t, exec Client.step s bs = some t → (∀ b ∈ bs, b.goesOn = true) →
      bs.length ≤ s.work ∧ (t.CanGoOn ∨
        ∀ i, (t.threads i).phase = .idle ∧ (t.threads i).response = false)) ∧
    (∀ i, (s.threads i).phase = .building →
      s.callLock = some (.thread i) ∧ s.writeLock = some i) ∧
    (∀ i bs t, exec Client.step s bs = some t → (∀ b ∈ bs, ¬b.OfResponse i) →
      (s.threads i).phase = .idle → (t.threads i).phase = .idle → SameLocks s t i) ∧
    (s.pause = .running ∨ s.pause = .paused → s.callLock ≠ some .handoff) := by
  have h := inv_of_run hrun
  refine ⟨fun hpaused i ho => h.not_between hpaused ho,
    fun i a t hblocked ho hstep => h.step_blocked hstep hblocked ho,
    fun hs bs t hbs hgoes => progress h hs hbs hgoes, fun i hp => ⟨?_, ?_⟩,
    fun i bs t hbs hb hs ht => h.locks_kept hbs hb hs ht, ?_⟩
  · exact (h.thread i).call.mpr (by rw [hp]; rfl)
  · exact (h.thread i).write.mpr (.inr (by rw [hp]; rfl))
  · rw [Ne, h.handoff]
    rintro (hp | hp) <;> simp [hp]

end Step

/-- One thread is stopped by the pause, and let in by the resume. -/
def resumed : List (Action Unit) :=
  [.pauseLock, .pauseStore, .pauseUnlock, .start () false, .lockCall (), .check (), .await (),
    .resume, .await (), .relock ()]

theorem admission_of_resume : ∃ s, exec Client.step initial resumed = some s ∧
    (s.threads ()).phase = .checking ∧ (s.threads ()).ordinary = true ∧ s.Settled ∧
    ∀ t, s.step (.check ()) = some t → (t.threads ()).phase.blocked = true ∨
      (t.threads ()).phase = .refused ∧ t.cancelled = true ∨
      (t.threads ()).phase = .admitted ∧ s.requestsPaused = false := by
  refine exists_of_any (p := fun s => (s.threads ()).phase = .checking ∧
    (s.threads ()).ordinary = true ∧ s.pause = .running) (by decide) fun s hs h => ?_
  exact ⟨h.1, h.2.1, .inl h.2.2, fun t ht =>
    (admission hs).2.1 () (.check ()) t (by rw [h.1]; rfl) h.2.1 ht⟩

/-- A request of a thread that is reading a request of the server is built while requests are
paused, although it is neither a drain request nor nested in a response. And a start that succeeds
leaves both locks to its thread, which had none. -/
theorem reading_request_is_admitted : ∃ s : Client Unit,
    exec Client.step initial [.pauseLock, .pauseStore, .pauseUnlock, .read () true,
      .start () false, .lockCall (), .check (), .takeBuilder (), .build () true] = some s ∧
    s.pause = .paused ∧ (s.threads ()).phase = .building ∧ (s.threads ()).drain = false ∧
    (s.threads ()).response = false ∧ ¬SameLocks initial s () :=
  ⟨_, rfl, rfl, rfl, rfl, rfl, fun h => by simpa [initial] using h.1.mp rfl⟩

end Client

end Lupine.Rpc.Admission
