import Lupine.Http2.Handoff

/-!
# Resuming after a barrier

The server of a connection can call a handoff off: with `X` the client is to go on with the socket
it has, and with `R` a server process that was frozen is to go on. Both clear `writer_paused` and
nothing else. A barrier that the writer has not reached keeps its `pause_after_bytes`, and a command
that asks for a barrier keeps its place in the queue, so that the writer may pause after it was
resumed.

`resumes` says when this does not happen: in a run where every `X` and every `R` arrives with no
barrier before the writer and no unanswered command for one, a client whose handoff call has
returned and a server that was resumed have running writers. `paused_after_resume` has the runs
where it does.
-/

namespace Lupine.Http2

open Foundations

namespace Writer

/-- The writer is not paused and will not pause at a barrier. -/
structure Unbarred (w : Writer) : Prop where
  paused : w.paused = false
  pauseAfterBytes : w.pauseAfterBytes = 0

theorem unbarred_initial : initial.Unbarred := ⟨rfl, rfl⟩

theorem Unbarred.queue {w : Writer} (h : w.Unbarred) (data : List UInt8) :
    (w.queue data).Unbarred := ⟨h.paused, h.pauseAfterBytes⟩

/-- Only a barrier pauses the writer. -/
theorem Unbarred.step {w w' : Writer} (h : w.Unbarred) {a : Action} (hstep : w.step a = some w') :
    w'.Unbarred := by
  rcases Classical.em (w.chunk = none) with hchunk | hchunk
  · obtain ⟨-, flushed, -, rfl⟩ := step_of_idle hchunk hstep
    have hq := h.queue flushed
    exact ⟨(batch_paused hq.pauseAfterBytes).trans hq.paused, batch_pauseAfterBytes _⟩
  · obtain ⟨-, -, hpaused, hpause⟩ := step_of_chunk hchunk hstep
    exact ⟨hpaused.trans h.paused, hpause.trans h.pauseAfterBytes⟩

/-- A writer that has stopped at no barrier writes what is queued. -/
def Drains (w : Writer) (past : List UInt8) : Prop :=
  ∀ as w', exec step w as = some w' → (∀ a ∈ as, a.Writes) →
    as.length ≤ w.work ∧
      (past ++ w'.written = w.queued ∨ ∃ a w'', a.Writes ∧ w'.step a = some w'')

theorem Unbarred.drains {w : Writer} (h : w.Unbarred) (hfailed : w.failed = false)
    {past : List UInt8} (hpast : w.Accounts past) : w.Drains past :=
  fun _ _ hrun ha => Writer.drains ⟨h.paused, h.pauseAfterBytes, hfailed⟩ hpast hrun ha

end Writer

/-! ## The client -/

namespace HandoffClient

variable {s : HandoffClient}

/-- `X` arrives when the writer has no barrier before it and the handoff thread neither has taken
an `F` that it has not answered nor will find one. -/
def CancelsClear (s : HandoffClient) (a : Action) : Prop :=
  a = .receive .X → s.writer.pauseAfterBytes = 0 ∧ .F ∉ s.controls ∧ s.handoff ≠ .ordered

instance (s : HandoffClient) (a : Action) : Decidable (s.CancelsClear a) :=
  inferInstanceAs (Decidable (_ → _))

/-- The writer is barred only during a handoff that was not cancelled. -/
structure Resumable (s : HandoffClient) : Prop where
  order : ¬Precedes .F .X s.controls
  ordered : s.handoff = .ordered → .X ∉ s.controls
  unbarred : s.handoff.barred = false ∧ s.handoff ≠ .stopped ∨ .X ∈ s.controls →
    s.writer.Unbarred

theorem resumable_initial : initial.Resumable :=
  ⟨by rintro ⟨l₁, l₂, h, -⟩; simp [initial] at h, by simp [initial],
    fun _ => Writer.unbarred_initial⟩

/-- The handoff thread takes a command and stays on the same side of the barrier. -/
theorem Resumable.pop (h : s.Resumable) {command : Command} {rest : List Command}
    (hcontrols : s.controls = command :: rest) {next : Handoff}
    (hordered : next = .ordered → .X ∉ rest)
    (hnext : next.barred = false ∧ next ≠ .stopped → s.writer.Unbarred) :
    Resumable { s with controls := rest, handoff := next } := by
  refine ⟨?_, hordered, fun hfree => hfree.elim hnext fun hX => h.unbarred (.inr ?_)⟩
  · rintro ⟨l₁, l₂, heq, hF⟩
    have hrest : rest = l₁ ++ .X :: l₂ := heq
    exact h.order ⟨command :: l₁, l₂, by rw [hcontrols, hrest]; rfl, List.mem_cons_of_mem _ hF⟩
  · rw [hcontrols]
    exact List.mem_cons_of_mem _ hX

/-- A step that leaves the commands alone. -/
theorem Resumable.congr {s' : HandoffClient} (h : s.Resumable)
    (hcontrols : s'.controls = s.controls)
    (hunbarred : s.writer.Unbarred → s'.writer.Unbarred)
    (hordered : s'.handoff = .ordered → s.handoff = .ordered)
    (hnext : s'.handoff.barred = false ∧ s'.handoff ≠ .stopped →
      s.handoff.barred = false ∧ s.handoff ≠ .stopped) : s'.Resumable := by
  refine ⟨by rw [hcontrols]; exact h.order, ?_, fun hfree => hunbarred (h.unbarred ?_)⟩
  · rw [hcontrols]
    exact fun ho => h.ordered (hordered ho)
  · rw [hcontrols] at hfree
    exact hfree.imp_left hnext

theorem Resumable.receive {s' : HandoffClient} (h : s.Resumable) {command : Command}
    (hclear : s.CancelsClear (.receive command)) (hstep : s.receive command = some s') :
    s'.Resumable := by
  obtain ⟨hcontrols, hhandoff, -, -, -, -, hwriter⟩ := receive_eq_some hstep
  rcases Classical.em (command = .X) with rfl | hX
  · refine ⟨?_, fun ho => absurd (hhandoff ▸ ho) (hclear rfl).2.2, fun _ => ?_⟩
    · rw [hcontrols, precedes_concat_iff]
      rintro (hold | ⟨-, hF⟩)
      · exact h.order hold
      · exact (hclear rfl).2.1 hF
    · rw [hwriter]
      exact ⟨rfl, (hclear rfl).1⟩
  · rw [if_neg hX] at hwriter
    have hmem : .X ∈ s'.controls → .X ∈ s.controls := fun hmem => by
      rw [hcontrols, List.mem_append, List.mem_singleton] at hmem
      exact hmem.resolve_right (Ne.symm hX)
    refine ⟨?_, fun ho => mt hmem (h.ordered (hhandoff ▸ ho)), fun hfree => ?_⟩
    · rw [hcontrols, precedes_concat_of_ne hX]
      exact h.order
    · rw [hwriter]
      exact h.unbarred (hfree.imp (by rw [hhandoff]; exact id) hmem)

theorem Resumable.step {s' : HandoffClient} (h : s.Resumable) (hinv : s.Inv) {a : Action}
    (hclear : s.CancelsClear a) (hstep : s.step a = some s') : s'.Resumable := by
  cases a with
  | queue data =>
    cases hstep
    exact h.congr rfl (fun hw => hw.queue data) id id
  | write a =>
    obtain ⟨w, hw, rfl⟩ := Option.map_eq_some_iff.mp hstep
    exact h.congr rfl (fun hu => hu.step hw) id id
  | receive command =>
    obtain ⟨-, hstep⟩ := Option.ite_none_right_eq_some.mp hstep
    exact h.receive hclear hstep
  | begin =>
    obtain ⟨rest, hcontrols, hexp, rfl⟩ := pop_eq_some.mp hstep
    refine h.pop hcontrols (by simp) fun _ => h.unbarred (.inl ?_)
    cases hh : s.handoff <;> simp [hh, expected] at hexp
    simp
  | report flushed checkpoint =>
    obtain ⟨hh, rfl⟩ := of_guarded hstep
    exact h.congr rfl (fun hw => (hw.queue flushed).queue _) (by simp) fun _ => by simp [hh]
  | reported =>
    obtain ⟨hc, rfl⟩ := of_guarded hstep
    exact h.congr rfl id (by simp) fun _ => by simp [hc.1]
  | obey =>
    obtain ⟨rest, hcontrols, hexp, rfl⟩ := pop_eq_some.mp hstep
    refine h.pop hcontrols (fun _ hmem => ?_) fun _ => h.unbarred (.inl ?_)
    · obtain ⟨l₁, l₂, hrest⟩ := List.append_of_mem hmem
      exact h.order ⟨.F :: l₁, l₂, by rw [hcontrols, hrest]; rfl, List.mem_cons_self⟩
    · cases hh : s.handoff <;> simp [hh, expected] at hexp
      simp
  | freeze flushed checkpoint =>
    obtain ⟨hh, rfl⟩ := of_guarded hstep
    -- no `X` is left behind `F`, so nothing is claimed of the writer
    have hX := h.ordered hh
    exact ⟨h.order, by simp [sendBarrier], fun hfree => absurd hfree (by simp [sendBarrier, hX])⟩
  | acknowledged | park =>
    obtain ⟨-, rfl⟩ := of_guarded hstep
    exact h.congr rfl id (by simp) (by simp)
  | commit =>
    obtain ⟨rest, hcontrols, -, rfl⟩ := pop_eq_some.mp hstep
    exact h.pop hcontrols (by simp) (by simp)
  | cancel =>
    obtain ⟨rest, hcontrols, -, rfl⟩ := pop_eq_some.mp hstep
    exact h.pop hcontrols (by simp) fun _ => h.unbarred (.inr (by simp [hcontrols]))
  | reject =>
    simp only [HandoffClient.step] at hstep
    split at hstep
    · rename_i c rest hcontrols
      split at hstep <;> cases hstep
      exact h.pop hcontrols (by simp) (by simp)
    · cases hstep
  | attach =>
    obtain ⟨hc, rfl⟩ := of_guarded hstep
    have hpaused := hinv.paused
    rw [hc.1] at hpaused
    exact ⟨h.order, by simp, fun _ => ⟨rfl, hpaused.1⟩⟩

theorem resumable_of_run {as : List Action} (hrun : exec HandoffClient.step initial as = some s)
    (hclear : Along HandoffClient.step CancelsClear initial as) : s.Inv ∧ s.Resumable :=
  exec_invariant_along (I := fun (s : HandoffClient) => s.Inv ∧ s.Resumable)
    (fun _ _ _ h hc hstep => ⟨h.1.step hstep, h.2.step h.1 hc hstep⟩)
    ⟨inv_initial, resumable_initial⟩ hclear hrun

end HandoffClient

/-! ## The server -/

/-- The server's transport. `resumed` says that `R` came after the last `S`; it is only observed. -/
structure HandoffServer where
  writer : Writer
  freezeCheckpoint : List UInt8
  resumed : Bool

namespace HandoffServer

/-- A step of the writer or of the reader of the server. -/
inductive Action
  | queue (data : List UInt8)
  | write (action : Writer.Action)
  /-- The reader receives `S`. -/
  | freeze (checkpoint : List UInt8)
  /-- The reader receives `R`. -/
  | resume
  /-- The reader has handled all it had read. -/
  | handled (flushed : List UInt8)
  deriving DecidableEq

def initial : HandoffServer := ⟨.initial, [], false⟩

/-- `h2_on_frame_recv_callback` of a server, and the end of a round of `h2_read_main`. -/
def step (s : HandoffServer) : Action → Option HandoffServer
  | .queue data => some { s with writer := s.writer.queue data }
  | .write a => (s.writer.step a).map fun writer => { s with writer := writer }
  | .freeze checkpoint =>
    if s.freezeCheckpoint = [] then
      some { s with freezeCheckpoint := checkpoint, resumed := false }
    else none
  | .resume => some { s with writer := s.writer.unpause, resumed := true }
  | .handled flushed =>
    if s.freezeCheckpoint ≠ [] then
      some { s with
        writer := ((s.writer.queue flushed).queue (controlFrame 66 s.freezeCheckpoint)).barrier
        freezeCheckpoint := [] }
    else some s

/-- `R` arrives when the writer has no barrier before it and none is asked for. -/
def ResumesClear (s : HandoffServer) (a : Action) : Prop :=
  a = .resume → s.writer.pauseAfterBytes = 0 ∧ s.freezeCheckpoint = []

instance (s : HandoffServer) (a : Action) : Decidable (s.ResumesClear a) :=
  inferInstanceAs (Decidable (_ → _))

/-- A server that was resumed has a running writer, and no barrier is asked for. -/
structure Resumed (s : HandoffServer) : Prop where
  unbarred : s.resumed = true → s.writer.Unbarred
  unasked : s.resumed = true → s.freezeCheckpoint = []

theorem Resumed.step {s s' : HandoffServer} (h : s.Resumed) {a : Action}
    (hclear : s.ResumesClear a) (hstep : s.step a = some s') : s'.Resumed := by
  cases a with
  | queue data =>
    cases hstep
    exact ⟨fun hr => (h.unbarred hr).queue data, h.unasked⟩
  | write a =>
    obtain ⟨w, hw, rfl⟩ := Option.map_eq_some_iff.mp hstep
    exact ⟨fun hr => (h.unbarred hr).step hw, h.unasked⟩
  | freeze checkpoint =>
    obtain ⟨-, rfl⟩ := of_guarded hstep
    exact ⟨by simp, by simp⟩
  | resume =>
    cases hstep
    exact ⟨fun _ => ⟨rfl, (hclear rfl).1⟩, fun _ => (hclear rfl).2⟩
  | handled flushed =>
    simp only [HandoffServer.step] at hstep
    split at hstep <;> cases hstep
    · rename_i hasked
      exact ⟨fun hr => absurd (h.unasked hr) hasked, fun _ => rfl⟩
    · exact h

theorem resumed_of_run {as : List Action} {s : HandoffServer}
    (hrun : exec HandoffServer.step initial as = some s)
    (hclear : Along HandoffServer.step ResumesClear initial as) : s.Resumed :=
  exec_invariant_along (I := fun (s : HandoffServer) => s.Resumed)
    (fun _ _ _ h hc hstep => h.step hc hstep) ⟨by simp [initial], by simp [initial]⟩ hclear hrun

end HandoffServer

/-! ## Both sides -/

/-- **Resuming.** In every run where each `X` finds no barrier before the writer and no `F` that
waits or is not answered, a client whose handoff call has returned has a writer that neither is
paused nor will pause, and that writes all that is queued. In every run where each `R` finds no
barrier before the writer and none asked for, so has a server that was resumed. -/
theorem resumes {as : List HandoffClient.Action} {s : HandoffClient}
    (hrun : exec HandoffClient.step HandoffClient.initial as = some s)
    (hclear : Along HandoffClient.step HandoffClient.CancelsClear HandoffClient.initial as)
    {bs : List HandoffServer.Action} {t : HandoffServer}
    (hrun' : exec HandoffServer.step HandoffServer.initial bs = some t)
    (hclear' : Along HandoffServer.step HandoffServer.ResumesClear HandoffServer.initial bs) :
    (s.handoff = .idle → s.writer.paused = false ∧ s.writer.pauseAfterBytes = 0 ∧
      (s.writer.failed = false → s.writer.Drains (HandoffClient.past s.retired))) ∧
    (t.resumed = true → t.writer.paused = false ∧ t.writer.pauseAfterBytes = 0) := by
  refine ⟨fun hidle => ?_, fun hresumed => ?_⟩
  · obtain ⟨hinv, hres⟩ := HandoffClient.resumable_of_run hrun hclear
    have hunbarred := hres.unbarred (.inl (by simp [hidle]))
    exact ⟨hunbarred.paused, hunbarred.pauseAfterBytes,
      fun hfailed => hunbarred.drains hfailed hinv.output.accounts⟩
  · have hunbarred := (HandoffServer.resumed_of_run hrun' hclear').unbarred hresumed
    exact ⟨hunbarred.paused, hunbarred.pauseAfterBytes⟩

/-- A handoff up to its barrier. -/
def toBarrier : List HandoffClient.Action :=
  [.receive .P, .begin, .report [] [], .write (.take []), .write (.write 10), .write .wrote,
    .reported, .receive .F, .obey, .freeze [] []]

/-- The writer writes the barrier frame. -/
def barrierWritten : List Writer.Action := [.take [], .write 10, .wrote]

def serverBarrierWritten : List HandoffServer.Action :=
  [.write (.take []), .write (.write 11), .write .wrote]

/-- `X` and `R` after the writer has paused. -/
theorem resumes_of_late_cancel :
    (∃ s, exec HandoffClient.step HandoffClient.initial
        (toBarrier ++ barrierWritten.map .write ++ [.acknowledged, .receive .X, .cancel]) = some s ∧
      s.handoff = .idle ∧ s.writer.paused = false ∧ s.writer.pauseAfterBytes = 0) ∧
    ∃ s, exec HandoffServer.step HandoffServer.initial
        ([.freeze [1], .handled []] ++ serverBarrierWritten ++ [.resume]) = some s ∧
      s.resumed = true ∧ s.writer.paused = false ∧ s.writer.pauseAfterBytes = 0 := by
  refine ⟨exists_of_any (p := fun s => s.handoff = .idle) (by decide) fun s hs hidle => ?_,
    exists_of_any (p := fun s => s.resumed = true) (by decide) fun t ht hresumed => ?_⟩
  · have h := resumes hs (by decide) (rfl : exec HandoffServer.step .initial [] = _) (by decide)
    exact ⟨hidle, (h.1 hidle).1, (h.1 hidle).2.1⟩
  · have h := resumes (rfl : exec HandoffClient.step .initial [] = _) (by decide) ht (by decide)
    exact ⟨hresumed, h.2 hresumed⟩

/-- If `X` comes before the writer has reached the barrier, or `R` before it has, the writer pauses
there. The handoff call of the client returns, and what is queued later is not written. -/
theorem paused_after_resume :
    (∃ s, exec HandoffClient.step HandoffClient.initial
        (toBarrier ++ [.receive .X] ++ barrierWritten.map .write ++
          [.acknowledged, .cancel, .queue [7]]) = some s ∧
      s.handoff = .idle ∧ s.writer.paused = true ∧ s.writer.outbound = [7] ∧
      ∀ a, s.writer.step a = none) ∧
    ∃ s, exec HandoffServer.step HandoffServer.initial
        ([.freeze [1], .handled []] ++ [.resume] ++ serverBarrierWritten) = some s ∧
      s.resumed = true ∧ s.writer.paused = true :=
  ⟨⟨_, rfl, rfl, rfl, rfl, fun a => by cases a <;> rfl⟩, _, rfl, rfl, rfl⟩

end Lupine.Http2
