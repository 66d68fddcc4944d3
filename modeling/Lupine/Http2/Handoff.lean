import Lupine.Http2.Writer

/-!
# Handing a connection over to another process

The client's side of a process handoff (`h2.cpp`, `transport.cpp`). The server announces it with a
control frame `P`. The handoff thread drains the requests and reports that with `D`; on `F` it
sends `A` as a barrier and waits until the writer has paused behind it. Then the server either
commits with `C`, and the thread parks the socket and attaches a replacement, or it cancels with
`X`, and the connection goes on. The reader thread applies the flags of a control frame when it
arrives and queues the command for the handoff thread.

Request writers, the reader and the heartbeat queue output at any time. `C` is the last command
that the server sends on a socket.

The main result here is `handoff_preserves_output`: what the sockets accept is what the session
queued, in this order, and a socket that is replaced has got exactly what was queued up to the
barrier. `barrier` and `retired` are only observed.
-/

namespace Lupine.Http2

open Foundations Writer List

/-! ## The client -/

/-- The control frames that the client receives. -/
inductive Command
  | P
  | F
  | C
  | X
  deriving DecidableEq, Repr

variable {command : Command}

/-- The bytes of a control frame, `h2_queue_process_control_locked`. -/
def controlFrame (command : UInt8) (checkpoint : List UInt8) : List UInt8 :=
  let length := checkpoint.length + 1
  [0, UInt8.ofNat (length / 256), UInt8.ofNat length, 0xf0, 0, 0, 0, 0, 0, command] ++ checkpoint

/-- Where the handoff thread is, `checkpoint_connection` and `checkpoint_handoff`. -/
inductive Handoff
  /-- It waits for `P`; requests are admitted. -/
  | idle
  /-- The drain request is under way. -/
  | draining
  /-- `D` is queued; `h2_drain_output_locked`. -/
  | reporting
  /-- It waits for `F` or `X`. -/
  | awaiting
  /-- It has taken `F`. -/
  | ordered
  /-- `A` is queued; it waits for the writer to pause. -/
  | freezing
  /-- It waits for `C` or `X`. -/
  | frozen
  /-- `lupine_handoff_park_socket`. -/
  | parking
  /-- There is no socket. -/
  | reconnecting
  /-- The handoff failed, and the connection is shut down. -/
  | stopped
  deriving DecidableEq, Repr

variable {h : Handoff}

/-- A barrier was sent, and the socket is not replaced yet. -/
@[simp] def Handoff.barred : Handoff → Bool
  | .freezing | .frozen | .parking | .reconnecting => true
  | _ => false

/-- A socket that was replaced: what it accepted, and how many bytes were queued up to the barrier
of its handoff. -/
structure Retired where
  bytes : List UInt8
  barrier : ℕ

/-- The writer thread, the handoff thread and the state they share with the reader. -/
structure HandoffClient where
  writer : Writer
  handoff : Handoff
  /-- `process_controls`. -/
  controls : List Command
  checkpointPending : Bool
  socketParked : Bool
  retired : List Retired
  /-- The end of the last barrier frame among the bytes queued. -/
  barrier : ℕ

namespace HandoffClient

variable {s s' : HandoffClient}

/-- A step of one of the threads. -/
inductive Action
  /-- A thread that holds the session mutex queues output. -/
  | queue (data : List UInt8)
  | write (action : Writer.Action)
  | receive (command : Command)
  | begin
  /-- The requests are drained: `lupine_handoff_send_control` with `D`. -/
  | report (flushed checkpoint : List UInt8)
  | reported
  | obey
  /-- `lupine_handoff_send_control` with `A`. -/
  | freeze (flushed checkpoint : List UInt8)
  | acknowledged
  | commit
  /-- The handoff call returns, and requests are admitted again. -/
  | cancel
  /-- A command that is out of place. -/
  | reject
  | park
  /-- `lupine_handoff_resume_socket`. -/
  | attach
  deriving DecidableEq

variable {a : Action}

def initial : HandoffClient := ⟨.initial, .idle, [], false, false, [], 0⟩

/-- `h2_on_frame_recv_callback` of a client. -/
def receive (s : HandoffClient) : Command → Option HandoffClient
  | .P =>
    if s.checkpointPending = false then
      some { s with checkpointPending := true, controls := s.controls ++ [.P] }
    else none
  | .F =>
    if s.checkpointPending = true then some { s with controls := s.controls ++ [.F] } else none
  | .C =>
    if s.checkpointPending = true then
      some { s with socketParked := true, controls := s.controls ++ [.C] }
    else none
  | .X =>
    if s.checkpointPending = true then
      some { s with
        checkpointPending := false
        writer := s.writer.unpause
        controls := s.controls ++ [.X] }
    else none

/-- The commands that the handoff thread accepts at this point. -/
def expected : Handoff → List Command
  | .idle => [.P]
  | .awaiting => [.F, .X]
  | .frozen => [.C, .X]
  | _ => []

/-- The handoff thread takes the next command, if it is this one. -/
def pop (s : HandoffClient) (command : Command) (next : Handoff) : Option HandoffClient :=
  match s.controls with
  | c :: rest =>
    if c = command ∧ command ∈ expected s.handoff then
      some { s with controls := rest, handoff := next }
    else none
  | [] => none

/-- `A` with its barrier. -/
def sendBarrier (s : HandoffClient) (flushed checkpoint : List UInt8) : HandoffClient :=
  let writer := (s.writer.queue flushed).queue (controlFrame 65 checkpoint)
  { s with writer := writer.barrier, barrier := writer.queued.length }

def step (s : HandoffClient) : Action → Option HandoffClient
  | .queue data => some { s with writer := s.writer.queue data }
  | .write a => (s.writer.step a).map fun writer => { s with writer := writer }
  | .receive command => if s.socketParked = false then s.receive command else none
  | .begin => s.pop .P .draining
  | .report flushed checkpoint =>
    if s.handoff = .draining then
      some { s with
        handoff := .reporting
        writer := (s.writer.queue flushed).queue (controlFrame 68 checkpoint) }
    else none
  | .reported =>
    if s.handoff = .reporting ∧ s.writer.outbound = [] ∧ s.writer.chunk = none ∧
        s.writer.failed = false then
      some { s with handoff := .awaiting }
    else none
  | .obey => s.pop .F .ordered
  | .freeze flushed checkpoint =>
    if s.handoff = .ordered then
      some ({ s with handoff := .freezing }.sendBarrier flushed checkpoint)
    else none
  | .acknowledged =>
    if s.handoff = .freezing ∧ s.writer.paused = true ∧ s.writer.chunk = none ∧
        s.writer.pauseAfterBytes = 0 ∧ s.writer.failed = false then
      some { s with handoff := .frozen }
    else none
  | .commit => s.pop .C .parking
  | .cancel => s.pop .X .idle
  | .reject =>
    match s.controls with
    | c :: rest =>
      if expected s.handoff ≠ [] ∧ c ∉ expected s.handoff then
        some { s with controls := rest, handoff := .stopped }
      else none
    | [] => none
  | .park =>
    if s.handoff = .parking ∧ s.socketParked = true ∧ s.writer.chunk = none ∧
        s.writer.failed = false then
      some { s with handoff := .reconnecting }
    else none
  | .attach =>
    if s.handoff = .reconnecting ∧ s.writer.failed = false then
      some { s with
        handoff := .idle
        checkpointPending := false
        socketParked := false
        retired := s.retired ++ [⟨s.writer.written, s.barrier⟩]
        writer := { s.writer.unpause with written := [] } }
    else none

theorem pop_eq_some {next : Handoff} :
    s.pop command next = some s' ↔ ∃ rest, s.controls = command :: rest ∧
      command ∈ expected s.handoff ∧ s' = { s with controls := rest, handoff := next } := by
  unfold pop
  cases hc : s.controls with
  | nil => simp
  | cons c rest =>
    simp only [Option.ite_none_right_eq_some, List.cons.injEq, Option.some.injEq]
    constructor
    · rintro ⟨⟨hcommand, hexp⟩, heq⟩
      exact ⟨rest, ⟨hcommand, rfl⟩, hexp, heq.symm⟩
    · rintro ⟨rest', ⟨hcommand, hrest⟩, hexp, heq⟩
      subst hrest
      exact ⟨⟨hcommand, hexp⟩, heq.symm⟩

/-- The frame of a control frame: `X` alone touches the writer. -/
theorem receive_eq_some (h : s.receive command = some s') :
    s'.controls = s.controls ++ [command] ∧ s'.handoff = s.handoff ∧ s'.retired = s.retired ∧
      s'.barrier = s.barrier ∧ (command = .C → s'.socketParked = true) ∧
      (command ≠ .C → s'.socketParked = s.socketParked) ∧
      s'.writer = if command = .X then s.writer.unpause else s.writer := by
  cases command <;> simp only [receive] at h <;> split at h <;> cases h <;> simp

/-! ## The commands -/

/-- `C` ends the exchange on a socket. -/
structure Exchange (s : HandoffClient) : Prop where
  last : .C ∉ s.controls.dropLast
  parked : .C ∈ s.controls → s.socketParked = true
  ended : s.handoff = .parking ∨ s.handoff = .reconnecting →
    s.socketParked = true ∧ s.controls = []

attribute [local simp] initial

theorem exchange_initial : initial.Exchange := ⟨by simp, by simp, by simp⟩

theorem Exchange.receive (h : s.Exchange) (hparked : s.socketParked = false)
    (hstep : s.receive command = some s') : s'.Exchange := by
  obtain ⟨hcontrols, hhandoff, -, -, hC, hother, -⟩ := receive_eq_some hstep
  have hnot : .C ∉ s.controls := fun hmem => by simpa [hparked] using h.parked hmem
  refine ⟨by rwa [hcontrols, dropLast_concat], fun hmem => ?_, fun hend => ?_⟩
  · rw [hcontrols, mem_append, mem_singleton] at hmem
    exact hC (hmem.resolve_left hnot).symm
  · rw [hhandoff] at hend
    simpa [hparked] using (h.ended hend).1

/-- Taking a command that does not lead to a new socket. -/
theorem Exchange.pop (h : s.Exchange) {rest : List Command}
    (hcontrols : s.controls = command :: rest) {next : Handoff}
    (hnext : next ≠ .parking ∧ next ≠ .reconnecting) :
    Exchange { s with controls := rest, handoff := next } := by
  have hlast := h.last
  have hparked := h.parked
  rw [hcontrols] at hlast hparked
  refine ⟨?_, fun hmem => hparked (mem_cons_of_mem _ hmem), fun hend => ?_⟩
  · intro hmem
    cases rest with
    | nil => simp at hmem
    | cons c rest => exact hlast (by rw [dropLast_cons_cons]; exact mem_cons_of_mem _ hmem)
  · exact absurd hend (by simp [hnext])

/-- `C` is the last one. -/
theorem Exchange.rest_eq_nil (h : s.Exchange) {rest : List Command}
    (hcontrols : s.controls = .C :: rest) : rest = [] := by
  have hlast := h.last
  rw [hcontrols] at hlast
  cases rest with
  | nil => rfl
  | cons c rest => exact absurd (by rw [dropLast_cons_cons]; exact mem_cons_self) hlast

/-- A step that leaves the commands alone. -/
theorem Exchange.congr (h : s.Exchange) (hcontrols : s'.controls = s.controls)
    (hparked : s'.socketParked = s.socketParked)
    (hhandoff : s'.handoff = .parking ∨ s'.handoff = .reconnecting →
      s.handoff = .parking ∨ s.handoff = .reconnecting) : s'.Exchange := by
  refine ⟨by rw [hcontrols]; exact h.last, ?_, fun hend => ?_⟩
  · rw [hcontrols, hparked]
    exact h.parked
  · rw [hcontrols, hparked]
    exact h.ended (hhandoff hend)

/-! ## The barrier -/

/-- The server cancels, and does not commit before. -/
def CancelsFirst (controls : List Command) : Prop :=
  ∃ before after, controls = before ++ .X :: after ∧ .C ∉ before

/-- The writer stands at the barrier. -/
structure AtBarrier (s : HandoffClient) : Prop where
  paused : s.writer.paused = true
  chunk : s.writer.chunk = none
  taken : s.writer.taken = s.barrier

/-- Where the writer may be when the handoff thread is at some point. A pause of the writer lasts
until the socket is replaced, unless `X` has arrived. -/
def Paused (s : HandoffClient) : Handoff → Prop
  | .idle | .draining => s.writer.pauseAfterBytes = 0
  | .reporting => s.writer.pauseAfterBytes = 0 ∧ (s.writer.paused = true → s.writer.outbound ≠ [])
  | .awaiting | .ordered => s.writer.pauseAfterBytes = 0 ∧ s.writer.paused = false
  | .freezing =>
    (s.writer.pauseAfterBytes ≠ 0 → s.writer.paused = false ∧
      s.writer.taken + s.writer.pauseAfterBytes = s.barrier) ∧
    (s.writer.pauseAfterBytes = 0 → s.writer.paused = true → s.writer.taken = s.barrier)
  | .frozen => s.writer.pauseAfterBytes = 0 ∧ (s.AtBarrier ∨ CancelsFirst s.controls)
  | .parking | .reconnecting => s.writer.pauseAfterBytes = 0 ∧ s.AtBarrier
  | .stopped => True

theorem CancelsFirst.concat {controls : List Command} (h : CancelsFirst controls) (c : Command) :
    CancelsFirst (controls ++ [c]) := by
  obtain ⟨before, after, rfl, hC⟩ := h
  exact ⟨before, after ++ [c], by simp, hC⟩

theorem not_cancelsFirst_commit (rest : List Command) : ¬CancelsFirst (.C :: rest) := by
  rintro ⟨before, after, heq, hC⟩
  cases before with
  | nil => simp at heq
  | cons c before =>
    obtain ⟨rfl, -⟩ := List.cons.inj heq
    exact hC mem_cons_self

/-- A step that neither moves the barrier nor takes from the queue, and pauses nobody. A writer at
the barrier stays there, unless the server cancels. -/
theorem Paused.congr (hs : s.Paused h)
    (hpause : s'.writer.pauseAfterBytes = s.writer.pauseAfterBytes)
    (hpaused : s'.writer.paused = true → s.writer.paused = true)
    (htaken : s'.writer.taken = s.writer.taken) (hbarrier : s'.barrier = s.barrier)
    (hout : s.writer.outbound ≠ [] → s'.writer.outbound ≠ [])
    (hat : h = .frozen ∨ h = .parking ∨ h = .reconnecting → s.AtBarrier →
      s'.AtBarrier ∨ h = .frozen ∧ CancelsFirst s'.controls)
    (hcancels : CancelsFirst s.controls → CancelsFirst s'.controls) : s'.Paused h := by
  have hunpaused : s.writer.paused = false → s'.writer.paused = false := by
    simpa only [Bool.not_eq_true] using mt hpaused
  cases h with
  | idle | draining => exact hpause.trans hs
  | reporting => exact ⟨hpause.trans hs.1, fun hp => hout (hs.2 (hpaused hp))⟩
  | awaiting | ordered => exact ⟨hpause.trans hs.1, hunpaused hs.2⟩
  | freezing =>
    simp only [Paused, hpause, htaken, hbarrier]
    exact ⟨fun hp => (hs.1 hp).imp_left hunpaused, fun hp hpaused' => hs.2 hp (hpaused hpaused')⟩
  | frozen =>
    refine ⟨hpause.trans hs.1, ?_⟩
    rcases hs.2 with hat' | hc
    · exact (hat (by simp) hat').imp_right And.right
    · exact .inr (hcancels hc)
  | parking | reconnecting =>
    exact ⟨hpause.trans hs.1, (hat (by simp) hs.2).resolve_right (by simp)⟩
  | stopped => trivial

theorem Paused.queue (hs : s.Paused h) (data : List UInt8) :
    Paused { s with writer := s.writer.queue data } h := by
  have htaken : (s.writer.queue data).taken = s.writer.taken := taken_queue _ data
  exact hs.congr rfl id htaken rfl (fun hne => append_ne_nil_of_left_ne_nil hne data)
    (fun _ h => .inl ⟨h.paused, h.chunk, htaken.trans h.taken⟩) id

/-- While a batch is written, the writer changes nothing that the handoff thread looks at. -/
theorem Paused.write_chunk (hs : s.Paused h) (hchunk : s.writer.chunk ≠ none) {a : Writer.Action}
    {w : Writer} (hstep : s.writer.step a = some w) : Paused { s with writer := w } h := by
  obtain ⟨hqueued, hout, hpaused, hpause⟩ := step_of_chunk hchunk hstep
  have htaken : w.taken = s.writer.taken := by rw [taken, hqueued, hout, taken]
  exact hs.congr hpause (hpaused ▸ id) htaken rfl (hout ▸ id) (fun _ h => absurd h.chunk hchunk) id

/-- The batch that ends at the barrier pauses the writer there. -/
theorem Paused.take (hs : s.Paused h) (hle : s.writer.outbound.length ≤ s.writer.queued.length)
    (hpaused : s.writer.paused = false) : Paused { s with writer := s.writer.batch } h := by
  have hpause : s.writer.batch.pauseAfterBytes = 0 := s.writer.batch_pauseAfterBytes
  have hnot : ¬s.AtBarrier := fun h => by simpa [hpaused] using h.paused
  cases h with
  | idle | draining => exact hpause
  | reporting =>
    refine ⟨hpause, fun hp => ?_⟩
    rw [batch_paused hs.1, hpaused] at hp
    cases hp
  | awaiting | ordered => exact ⟨hpause, (batch_paused hs.1).trans hpaused⟩
  | freezing =>
    refine ⟨fun hne => absurd hpause hne, fun _ hp => ?_⟩
    rcases Classical.em (s.writer.pauseAfterBytes = 0) with hzero | hne
    · rw [batch_paused hzero, hpaused] at hp
      cases hp
    · exact (taken_batch hne hle).trans (hs.1 hne).2
  | frozen => exact ⟨hpause, .inr (hs.2.resolve_left hnot)⟩
  | parking | reconnecting => exact absurd hs.2 hnot
  | stopped => trivial

theorem Paused.write (hs : s.Paused h) (hle : s.writer.outbound.length ≤ s.writer.queued.length)
    {a : Writer.Action} {w : Writer} (hstep : s.writer.step a = some w) :
    Paused { s with writer := w } h := by
  rcases Classical.em (s.writer.chunk = none) with hchunk | hchunk
  · obtain ⟨hpaused, flushed, -, rfl⟩ := step_of_idle hchunk hstep
    have hle' : (s.writer.queue flushed).outbound.length ≤
        (s.writer.queue flushed).queued.length := by
      simp only [Writer.queue, length_append]
      omega
    exact (hs.queue flushed).take hle' hpaused
  · exact hs.write_chunk hchunk hstep

/-- `X` resumes the writer, and the handoff thread will meet it before a `C`. -/
theorem Paused.receive (hs : s.Paused s.handoff) (hexch : s.Exchange)
    (hparked : s.socketParked = false) (hstep : s.receive command = some s') :
    s'.Paused s'.handoff := by
  obtain ⟨hcontrols, hhandoff, -, hbarrier, -, -, hwriter⟩ := receive_eq_some hstep
  have hnot : .C ∉ s.controls := fun hmem => by simpa [hparked] using hexch.parked hmem
  have hopen : ¬(s.handoff = .parking ∨ s.handoff = .reconnecting) := fun hend => by
    simpa [hparked] using (hexch.ended hend).1
  rw [hhandoff]
  have hsame : s'.writer.pauseAfterBytes = s.writer.pauseAfterBytes ∧
      (s'.writer.paused = true → s.writer.paused = true) ∧
      s'.writer.taken = s.writer.taken ∧ s'.writer.outbound = s.writer.outbound := by
    rw [hwriter]
    split
    · exact ⟨rfl, nofun, rfl, rfl⟩
    · exact ⟨rfl, id, rfl, rfl⟩
  obtain ⟨hpause, hpaused, htaken, hout⟩ := hsame
  refine hs.congr hpause hpaused htaken hbarrier (hout ▸ id) (fun hh hat => ?_)
    fun hc => hcontrols ▸ hc.concat command
  rcases Classical.em (command = .X) with rfl | hX
  · exact .inr ⟨hh.resolve_right hopen, s.controls, [], hcontrols, hnot⟩
  · rw [if_neg hX] at hwriter
    exact .inl ⟨hwriter ▸ hat.paused, hwriter ▸ hat.chunk, hbarrier ▸ htaken.trans hat.taken⟩

/-! ## The output -/

/-- What the sockets that were replaced have accepted. -/
def past (retired : List Retired) : List UInt8 := (retired.map Retired.bytes).flatten

/-- Some bytes end in a frame `A`. -/
def EndsInBarrier (bytes : List UInt8) : Prop :=
  ∃ checkpoint, controlFrame 65 checkpoint <:+ bytes

/-- The bytes on the sockets are the bytes queued, and every replaced socket ended at its
barrier. -/
structure Output (s : HandoffClient) : Prop where
  accounts : s.writer.Accounts (past s.retired)
  barrier_le : s.barrier ≤ s.writer.queued.length
  frame : s.handoff.barred = true → EndsInBarrier (s.writer.queued.take s.barrier)
  retired : ∀ before r after, s.retired = before ++ r :: after →
    r.barrier ≤ s.writer.queued.length ∧
      past (before ++ [r]) = s.writer.queued.take r.barrier ∧
      EndsInBarrier (past (before ++ [r]))

theorem output_initial : initial.Output where
  accounts := accounts_initial
  barrier_le := Nat.le_refl 0
  frame h := by simp at h
  retired before r after h := by simp at h

/-- A step that only adds to what is queued. -/
theorem Output.grow (h : s.Output) (hgrows : s.writer.queued <+: s'.writer.queued)
    (haccounts : s'.writer.Accounts (past s.retired)) (hretired : s'.retired = s.retired)
    (hbarrier : s'.barrier = s.barrier)
    (hbarred : s'.handoff.barred = true → s.handoff.barred = true) : s'.Output := by
  have htake : ∀ n ≤ s.writer.queued.length,
      s'.writer.queued.take n = s.writer.queued.take n := by
    obtain ⟨more, hmore⟩ := hgrows
    intro n hn
    rw [← hmore, take_append_of_le_length hn]
  refine ⟨by rwa [hretired], ?_, fun hb => ?_, fun before r after heq => ?_⟩
  · rw [hbarrier]
    exact Nat.le_trans h.barrier_le hgrows.length_le
  · rw [hbarrier, htake _ h.barrier_le]
    exact h.frame (hbarred hb)
  · obtain ⟨hle, hpast, hframe⟩ := h.retired before r after (hretired ▸ heq)
    exact ⟨Nat.le_trans hle hgrows.length_le, by rw [htake _ hle]; exact hpast, hframe⟩

/-- A step of the handoff thread that leaves the output alone. -/
theorem Output.congr (h : s.Output) (hwriter : s'.writer = s.writer)
    (hretired : s'.retired = s.retired) (hbarrier : s'.barrier = s.barrier)
    (hbarred : s'.handoff.barred = true → s.handoff.barred = true) : s'.Output :=
  h.grow ⟨[], by rw [append_nil, hwriter]⟩ (by rw [hwriter]; exact h.accounts) hretired
    hbarrier hbarred

theorem Output.sendBarrier (h : s.Output) {flushed checkpoint : List UInt8}
    (hwriter : s'.writer =
      ((s.writer.queue flushed).queue (controlFrame 65 checkpoint)).barrier)
    (hretired : s'.retired = s.retired) (hbarrier : s'.barrier = s'.writer.queued.length) :
    s'.Output := by
  have hqueued : s'.writer.queued = s.writer.queued ++ flushed ++ controlFrame 65 checkpoint := by
    rw [hwriter]
    rfl
  -- what earlier sockets got is settled before the barrier moves
  have hqueue : Output { s with writer := s'.writer } := by
    refine h.grow ⟨flushed ++ controlFrame 65 checkpoint, ?_⟩ ?_ rfl rfl id
    · rw [hqueued, append_assoc]
    · rw [hwriter]
      exact ((h.accounts.queue flushed).queue _).barrier
  refine ⟨?_, Nat.le_of_eq hbarrier, fun _ => ?_, ?_⟩
  · rw [hretired]
    exact hqueue.accounts
  · refine ⟨checkpoint, s.writer.queued ++ flushed, ?_⟩
    rw [hbarrier, take_length, hqueued]
  · rw [hretired]
    exact hqueue.retired

/-- The old socket has got what was queued up to the barrier. -/
theorem Output.attach (h : s.Output) (hat : s.AtBarrier) (hbarred : s.handoff.barred = true)
    (hwriter : s'.writer = { s.writer.unpause with written := [] })
    (hretired : s'.retired = s.retired ++ [⟨s.writer.written, s.barrier⟩])
    (hbarrier : s'.barrier = s.barrier) (hidle : s'.handoff = .idle) : s'.Output := by
  have hqueued : s'.writer.queued = s.writer.queued := by rw [hwriter]; rfl
  have hpast : past (s.retired ++ [⟨s.writer.written, s.barrier⟩]) =
      past s.retired ++ s.writer.written := by simp [past]
  have htake : past s.retired ++ s.writer.written = s.writer.queued.take s.barrier := by
    rw [h.accounts.take_taken hat.chunk, hat.taken]
  refine ⟨?_, by rw [hbarrier, hqueued]; exact h.barrier_le, fun hb => ?_,
    fun before r after heq => ?_⟩
  · rw [hretired, hpast, hwriter]
    have haccounts := h.accounts
    simpa [Writer.Accounts, inFlight, unpause] using haccounts
  · simp [hidle] at hb
  · rw [hretired] at heq
    rw [hqueued]
    rcases concat_eq_append_cons heq with ⟨-, rfl, rfl⟩ | ⟨after', -, hold⟩
    · rw [hpast, htake]
      exact ⟨h.barrier_le, rfl, h.frame hbarred⟩
    · exact h.retired before r after' hold

theorem Output.receive (h : s.Output) (hstep : s.receive command = some s') : s'.Output := by
  obtain ⟨-, hhandoff, hretired, hbarrier, -, -, hwriter⟩ := receive_eq_some hstep
  refine h.grow ?_ ?_ hretired hbarrier (by rw [hhandoff]; exact id)
  · rw [hwriter]
    split <;> exact prefix_refl _
  · rw [hwriter]
    split <;> exact h.accounts

/-- The phase of the handoff agrees with the writer and with the bytes queued. -/
structure Inv (s : HandoffClient) : Prop where
  exchange : s.Exchange
  paused : s.Paused s.handoff
  output : s.Output

theorem inv_initial : initial.Inv := ⟨exchange_initial, rfl, output_initial⟩

theorem Inv.step (h : s.Inv) (hstep : s.step a = some s') : s'.Inv := by
  obtain ⟨hexch, hs, hout⟩ := h
  cases a with
  | queue data =>
    cases hstep
    exact ⟨hexch.congr rfl rfl id, hs.queue data,
      hout.grow ⟨data, rfl⟩ (hout.accounts.queue data) rfl rfl id⟩
  | write a =>
    obtain ⟨w, hw, rfl⟩ := Option.map_eq_some_iff.mp hstep
    exact ⟨hexch.congr rfl rfl id, hs.write hout.accounts.length_le hw,
      hout.grow (queued_step hw) (hout.accounts.step hw) rfl rfl id⟩
  | receive command =>
    obtain ⟨hparked, hstep⟩ := Option.ite_none_right_eq_some.mp hstep
    exact ⟨hexch.receive hparked hstep, hs.receive hexch hparked hstep, hout.receive hstep⟩
  | begin | obey =>
    obtain ⟨rest, hcontrols, hexp, rfl⟩ := pop_eq_some.mp hstep
    cases hh : s.handoff <;> simp [hh, expected] at hexp
    rw [hh] at hs
    exact ⟨hexch.pop hcontrols (by simp), hs, hout.congr rfl rfl rfl (by simp)⟩
  | report flushed checkpoint =>
    obtain ⟨hh, rfl⟩ := of_guarded hstep
    rw [hh] at hs
    exact ⟨hexch.congr rfl rfl (by simp), ⟨hs, fun _ => by simp [queue, controlFrame]⟩,
      hout.grow ⟨flushed ++ controlFrame 68 checkpoint, by simp [queue]⟩
        ((hout.accounts.queue flushed).queue _) rfl rfl (by simp)⟩
  | reported =>
    obtain ⟨hc, rfl⟩ := of_guarded hstep
    rw [hc.1] at hs
    refine ⟨hexch.congr rfl rfl (by simp), ⟨hs.1, ?_⟩, hout.congr rfl rfl rfl (by simp)⟩
    cases hp : s.writer.paused with
    | false => rfl
    | true => exact absurd hc.2.1 (hs.2 hp)
  | freeze flushed checkpoint =>
    obtain ⟨hh, rfl⟩ := of_guarded hstep
    rw [hh] at hs
    -- the barrier is the end of all that is queued
    refine ⟨hexch.congr rfl rfl (by simp [sendBarrier]), ⟨fun _ => ⟨hs.2, ?_⟩, fun hzero => ?_⟩,
      hout.sendBarrier rfl rfl rfl⟩
    · have hle := hout.accounts.length_le
      simp only [sendBarrier, Writer.barrier, Writer.taken, Writer.queue, length_append]
      omega
    · simp [sendBarrier, Writer.barrier, Writer.queue, controlFrame] at hzero
  | acknowledged =>
    obtain ⟨⟨hh, hpaused, hchunk, hzero, -⟩, rfl⟩ := of_guarded hstep
    rw [hh] at hs
    exact ⟨hexch.congr rfl rfl (by simp), ⟨hzero, .inl ⟨hpaused, hchunk, hs.2 hzero hpaused⟩⟩,
      hout.congr rfl rfl rfl (by simp [hh])⟩
  | commit =>
    obtain ⟨rest, hcontrols, hexp, rfl⟩ := pop_eq_some.mp hstep
    obtain rfl := hexch.rest_eq_nil hcontrols
    cases hh : s.handoff <;> simp [hh, expected] at hexp
    rw [hh] at hs
    obtain ⟨hpaused, hchunk, htaken⟩ := hs.2.resolve_right (by
      rw [hcontrols]
      exact not_cancelsFirst_commit [])
    exact ⟨⟨by simp, by simp, fun _ => ⟨hexch.parked (by simp [hcontrols]), rfl⟩⟩,
      ⟨hs.1, hpaused, hchunk, htaken⟩, hout.congr rfl rfl rfl (by simp [hh])⟩
  | cancel =>
    obtain ⟨rest, hcontrols, hexp, rfl⟩ := pop_eq_some.mp hstep
    refine ⟨hexch.pop hcontrols (by simp), ?_, hout.congr rfl rfl rfl (by simp)⟩
    cases hh : s.handoff <;> simp [hh, expected] at hexp
    all_goals
      rw [hh] at hs
      exact hs.1
  | reject =>
    simp only [HandoffClient.step] at hstep
    split at hstep
    · rename_i c rest hcontrols
      split at hstep <;> cases hstep
      exact ⟨hexch.pop hcontrols (by simp), trivial, hout.congr rfl rfl rfl (by simp)⟩
    · cases hstep
  | park =>
    obtain ⟨hc, rfl⟩ := of_guarded hstep
    rw [hc.1] at hs
    exact ⟨hexch.congr rfl rfl fun _ => .inl hc.1,
      ⟨hs.1, hs.2.paused, hs.2.chunk, hs.2.taken⟩, hout.congr rfl rfl rfl (by simp [hc.1])⟩
  | attach =>
    obtain ⟨hc, rfl⟩ := of_guarded hstep
    rw [hc.1] at hs
    have hnil := (hexch.ended (.inr hc.1)).2
    exact ⟨⟨by simp [hnil], by simp [hnil], by simp⟩, hs.1,
      hout.attach hs.2 (by simp [hc.1]) rfl rfl rfl rfl⟩

theorem inv_of_run {as : List Action} (hrun : exec HandoffClient.step initial as = some s) :
    s.Inv :=
  exec_invariant (fun _ _ _ h hstep => Inv.step h hstep) inv_initial hrun

/-- **A handoff preserves the output.** In every state that the threads reach, what the replaced
sockets and the current one have accepted, what the writer has in hand and what is in `outbound`
make up what the session has queued, in this order. The sockets up to a replaced one have accepted
exactly what was queued up to the barrier of its handoff, and this ends in the barrier frame. -/
theorem handoff_preserves_output {as : List Action} {s : HandoffClient}
    (hrun : exec HandoffClient.step initial as = some s) :
    past s.retired ++ (s.writer.written ++ (s.writer.inFlight ++ s.writer.outbound)) =
        s.writer.queued ∧
      ∀ before r after, s.retired = before ++ r :: after →
        past (before ++ [r]) = s.writer.queued.take r.barrier ∧
          EndsInBarrier (past (before ++ [r])) :=
  ⟨(inv_of_run hrun).output.accounts,
    fun before r after heq => ((inv_of_run hrun).output.retired before r after heq).2⟩

/-- A handoff that is committed, with output queued behind the barrier. -/
def committed : List Action :=
  [.queue [1], .receive .P, .begin, .report [] [], .write (.take []), .write (.write 4),
    .write (.write 7), .write .wrote, .reported, .receive .F, .obey, .freeze [] [],
    .queue [2], .write (.take []), .write (.write 10), .write .wrote, .acknowledged, .receive .C,
      .commit,
    .park, .attach, .write (.take []), .write (.write 1)]

theorem handoff_preserves_output_of_commit : ∃ s,
    exec HandoffClient.step initial committed = some s ∧ s.writer.written = [2] ∧
      ∃ r, s.retired = [r] ∧ past [r] = s.writer.queued.take r.barrier ∧
        EndsInBarrier (past [r]) := by
  obtain ⟨s, hs, hwritten, r, hr⟩ : ∃ s, exec HandoffClient.step initial committed = some s ∧
      s.writer.written = [2] ∧ ∃ r, s.retired = [r] := ⟨_, rfl, rfl, _, rfl⟩
  exact ⟨s, hs, hwritten, r, hr, (handoff_preserves_output hs).2 [] r [] hr⟩

end HandoffClient

end Lupine.Http2
