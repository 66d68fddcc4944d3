import Lupine.Rpc.FenceOrder

/-!
# Requests that cannot be written

`rpc_write_end` fails when the connection still stands but `rpc_http2_write_stream` refuses the
request, for example because the peer closed the stream of this lane. The builder is released and
nothing is published. The ticket of a fire-and-forget request is not taken back, though:
`issued_async_sequence` keeps counting it, and the next write that succeeds on any lane publishes
it (`lost_ticket_is_published`). A request that depends on that count makes its lane wait for a
ticket that no lane carries.

`Sends` runs the model of `Lupine.Rpc.Fence` with writes that may fail, and records the tickets
whose requests were handed to the transport. As long as the requests that fail hold no ticket,
whatever is published, sent in a marker or waited for counts only such tickets, and each of them
reaches the server (`counts_only_handed`).

A request that is abandoned between `rpc_write_start_async_request` and `rpc_write_end` keeps the
builder, so it is a thread that does not act any more.
-/

namespace Lupine.Rpc

open Foundations Function List Option Fence

variable {Thread Stream : Type}

/-! ## Writes that fail -/

variable {i : Stream} {b : Builder Thread Stream}
variable {fence : Fence Thread Stream} {l : Lane}

/-- The connection, and the tickets whose requests `rpc_http2_write_stream` took whole. -/
structure Sends (Thread Stream : Type) where
  fence : Fence Thread Stream
  handed : List ℕ

variable {s : Sends Thread Stream}

/-- An action of the connection, or the failing counterpart of `send`: the write stops in front of
the request, with or without its `marker` on the lane. -/
inductive Attempt (Thread Stream : Type)
  | act (action : Action Thread Stream)
  | fail (thread : Thread) (marker : Bool)

section Step

variable [DecidableEq Thread] [DecidableEq Stream]

/-- `rpc_write_end` after a failed write: the cached prefix belongs to this lane, and the builder
is released. -/
def Fence.writeFailed (s : Fence Thread Stream) (b : Builder Thread Stream) (marker : Bool) :
    Fence Thread Stream :=
  let l := s.server.lanes b.writeStreamId
  let written := if marker then (s.client.message b).dropLast else []
  let s' := s.setLane b.writeStreamId { l with frames := l.frames ++ written }
  { s' with client :=
    { s.client with
      asyncPrefixStream := some b.writeStreamId
      asyncPrefix := s.client.currentPrefix b.writeStreamId
      builder := none } }

namespace Sends

def initial : Sends Thread Stream := ⟨.initial, []⟩

/-- The tickets that an action hands over: that of the request it sends. -/
@[simp] def handedBy (s : Fence Thread Stream) : Action Thread Stream → List ℕ
  | .send _ => s.client.builder.toList.flatMap fun b => b.sequence.toList
  | _ => []

def step (lane : Thread → Stream) (s : Sends Thread Stream) :
    Attempt Thread Stream → Option (Sends Thread Stream)
  | .act a => (s.fence.step lane a).map fun fence => ⟨fence, s.handed ++ handedBy s.fence a⟩
  | .fail t marker =>
    match s.fence.client.builder with
    | some b =>
      if b.thread = t ∧ b.sent = false then some ⟨s.fence.writeFailed b marker, s.handed⟩ else none
    | none => none

/-- A write that fails is not one of a fire-and-forget request. -/
def FailsWithoutTicket (s : Sends Thread Stream) : Attempt Thread Stream → Prop
  | .act _ => True
  | .fail _ _ => ∀ b ∈ s.fence.client.builder, b.sequence = none

end Sends

end Step

/-! ## The tickets that a count stands for -/

/-- The lane holds the request with this ticket, or runs it. -/
def Lane.Carries (l : Lane) (sequence : ℕ) : Prop :=
  (∃ id op call, .request id op (some sequence) call ∈ l.frames) ∨
    l.phase = .handling (some sequence) ∨
    (l.phase = .executing ∧ l.executingAsyncSequence = sequence)

/-- The request with this ticket has run or is still to run, unless the connection is closed. -/
def Fence.Arrives (s : Fence Thread Stream) (sequence : ℕ) : Prop :=
  .ended sequence ∈ s.log ∨ (∃ i, (s.server.lanes i).Carries sequence) ∨ s.server.closed = true

namespace Sends

/-- Every ticket below the count was handed over. -/
def Handed (s : Sends Thread Stream) (count : ℕ) : Prop := ∀ q < count, q ∈ s.handed

/-- The published count, every count in a marker on a lane and every count that a lane waits for
stand for tickets that were handed over, and these arrive. -/
structure CountsHanded (s : Sends Thread Stream) : Prop where
  published : s.Handed s.fence.client.publishedAsyncSequence
  marker : ∀ i op count, .marker op count ∈ (s.fence.server.lanes i).frames → s.Handed count
  waiting : ∀ i count, (s.fence.server.lanes i).phase = .waiting count → s.Handed count
  arrives : ∀ q ∈ s.handed, s.fence.Arrives q

/-- Every issued ticket was handed over or is still in the builder. -/
structure Accounted (s : Sends Thread Stream) : Prop extends CountsHanded s where
  issued : ∀ q < s.fence.client.issuedAsyncSequence, q ∈ s.handed ∨
    ∃ b ∈ s.fence.client.builder, b.sent = false ∧ b.sequence = some q
  taken : ∀ t count call, s.fence.client.taken t = some (count, call) → s.Handed count
  dependency : ∀ b ∈ s.fence.client.builder, s.Handed b.writeDependency

attribute [local simp] Fence.initial initial

theorem accounted_initial : (initial : Sends Thread Stream).Accounted where
  published := by simp [Handed]
  marker := by simp
  waiting := by simp
  arrives := by simp
  issued := by simp
  taken := by simp
  dependency := by simp

/-! ### Steps of the server -/

/-- What one step of the thread of a lane keeps: the counts it meets and the tickets it carries. -/
structure LaneMove (s' : Fence Thread Stream) (l l' : Lane) : Prop where
  marker : ∀ op count, .marker op count ∈ l'.frames → .marker op count ∈ l.frames
  waiting : ∀ count, l'.phase = .waiting count →
    l.phase = .waiting count ∨ ∃ op, .marker op count ∈ l.frames
  carries : ∀ q, l.Carries q →
    l'.Carries q ∨ .ended q ∈ s'.log ∨ s'.server.closed = true

theorem LaneMove.refl (s' : Fence Thread Stream) (l : Lane) : LaneMove s' l l where
  marker := fun _ _ h => h
  waiting := fun _ h => .inl h
  carries := fun _ h => .inl h

/-- A step of the server keeps the account when every lane moves. -/
theorem Accounted.server (h : s.Accounted)
    (hclient : fence.client = s.fence.client) (hlog : s.fence.log ⊆ fence.log)
    (hclosed : s.fence.server.closed = true → fence.server.closed = true)
    (hlanes : ∀ i, LaneMove fence (s.fence.server.lanes i) (fence.server.lanes i)) :
    Accounted ⟨fence, s.handed⟩ where
  published := by
    exact hclient ▸ h.published
  marker := fun i op count hm => h.marker i op count ((hlanes i).marker op count hm)
  waiting := by
    intro i count hw
    rcases (hlanes i).waiting count hw with hw | ⟨op, hm⟩
    · exact h.waiting i count hw
    · exact h.marker i op count hm
  arrives := by
    intro q hq
    rcases h.arrives q hq with hended | ⟨i, hi⟩ | hc
    · exact .inl (hlog hended)
    · rcases (hlanes i).carries q hi with hi | hended | hc
      · exact .inr (.inl ⟨i, hi⟩)
      · exact .inl hended
      · exact .inr (.inr hc)
    · exact .inr (.inr (hclosed hc))
  issued := by
    exact hclient ▸ h.issued
  taken := by
    exact hclient ▸ h.taken
  dependency := by
    exact hclient ▸ h.dependency

theorem Accounted.markClosed (h : s.Accounted) :
    Accounted ⟨{ s.fence with server := s.fence.server.markClosed }, s.handed⟩ :=
  h.server rfl (List.Subset.refl _) (fun _ => rfl) fun _ => .refl _ _

section Lanes

variable [DecidableEq Stream]

/-- The other lanes stand still. -/
theorem laneMove_update {s s' : Fence Thread Stream}
    (hlanes : s'.server.lanes = update s.server.lanes i l) (h : LaneMove s' (s.server.lanes i) l)
    (j : Stream) : LaneMove s' (s.server.lanes j) (s'.server.lanes j) := by
  rw [hlanes]
  rcases eq_or_ne j i with rfl | hj
  · simpa using h
  · simpa [hj] using LaneMove.refl s' (s.server.lanes j)

theorem Accounted.setLane (h : s.Accounted) (i : Stream)
    (hl : LaneMove (s.fence.setLane i l) (s.fence.server.lanes i) l) :
    Accounted ⟨s.fence.setLane i l, s.handed⟩ :=
  h.server rfl (List.Subset.refl _) id (laneMove_update rfl hl)

/-- A lane stops only on a closed connection. -/
theorem Accounted.stopLane (h : s.Accounted) (i : Stream) (hclosed : s.fence.server.closed = true) :
    Accounted ⟨{ s.fence with server := s.fence.server.stopLane i }, s.handed⟩ :=
  h.setLane i ⟨fun _ _ hm => hm, by simp, fun _ _ => .inr (.inr hclosed)⟩

theorem Accounted.dispatchFrame (h : s.Accounted) {f : Frame} {rest : List Frame}
    (hphase : (s.fence.server.lanes i).phase = .dispatching)
    (hframes : (s.fence.server.lanes i).frames = f :: rest) :
    Accounted ⟨s.fence.dispatchFrame i rest f, s.handed⟩ := by
  cases f with
  | marker op count =>
    rw [Fence.dispatchFrame]
    split
    · exact h.markClosed.stopLane i rfl
    · refine h.setLane i ⟨fun _ _ hm => hframes ▸ mem_cons_of_mem _ hm, ?_, ?_⟩
      · rintro count' ⟨⟩
        exact .inr ⟨op, by simp [hframes]⟩
      · intro q hq
        left
        simpa [Lane.Carries, hframes, hphase] using hq
  | request id op sequence call =>
    rw [Fence.dispatchFrame]
    split
    · exact h.markClosed.stopLane i rfl
    · refine h.server rfl (subset_append_left _ _) (fun hc => hc) (laneMove_update rfl ⟨?_, ?_, ?_⟩)
      · exact fun _ _ hm => hframes ▸ mem_cons_of_mem _ hm
      · simp
      · intro q hq
        -- the request is either this one, which is being handled now, or still on the lane
        have hq' : (∃ id' op' call', .request id' op' (some q) call' ∈
            Frame.request id op sequence call :: rest) := by
          simpa [Lane.Carries, hframes, hphase] using hq
        obtain ⟨id', op', call', hmem⟩ := hq'
        rcases mem_cons.mp hmem with heq | hmem
        · cases heq
          exact .inl (.inr (.inl rfl))
        · exact .inl (.inl ⟨id', op', call', hmem⟩)

/-- A lane that leaves its frames alone and carries the tickets on. -/
theorem Accounted.advance (h : s.Accounted) (i : Stream)
    (hframes : l.frames = (s.fence.server.lanes i).frames)
    (hphase : ∀ count, l.phase ≠ .waiting count)
    (hcarries : ∀ q, (s.fence.server.lanes i).Carries q → l.Carries q) :
    Accounted ⟨s.fence.setLane i l, s.handed⟩ :=
  h.setLane i ⟨fun _ _ hm => hframes ▸ hm, fun count hw => absurd hw (hphase count),
    fun q hq => .inl (hcarries q hq)⟩

end Lanes

/-! ### Steps of the client -/

theorem Handed.append {count : ℕ} (h : s.Handed count) (fence : Fence Thread Stream)
    (more : List ℕ) : Handed ⟨fence, s.handed ++ more⟩ count :=
  fun q hq => mem_append_left _ (h q hq)

/-- A step of the client that writes nothing. -/
theorem Accounted.client (h : s.Accounted)
    (hserver : fence.server = s.fence.server) (hlog : s.fence.log ⊆ fence.log)
    (hpublished : s.Handed fence.client.publishedAsyncSequence)
    (hissued : ∀ q < fence.client.issuedAsyncSequence, q ∈ s.handed ∨
      ∃ b ∈ fence.client.builder, b.sent = false ∧ b.sequence = some q)
    (htaken : ∀ t count call, fence.client.taken t = some (count, call) → s.Handed count)
    (hdependency : ∀ b ∈ fence.client.builder, s.Handed b.writeDependency) :
    Accounted ⟨fence, s.handed⟩ where
  published := hpublished
  marker := by
    exact hserver ▸ h.marker
  waiting := by
    exact hserver ▸ h.waiting
  arrives := by
    intro q hq
    rcases h.arrives q hq with hended | hrest
    · exact .inl (hlog hended)
    · right
      exact hserver ▸ hrest
  issued := hissued
  taken := htaken
  dependency := hdependency

section Write

variable [DecidableEq Stream]

theorem mem_message {c : Client Thread Stream} {f : Frame} (hf : f ∈ c.message b) :
    f = .marker 0 b.writeDependency ∨
      f = .request b.writeId b.writeOp b.sequence b.call := by
  unfold Client.message at hf
  split_ifs at hf
  · simpa using hf
  · exact .inr (by simpa using hf)

theorem request_mem_message (c : Client Thread Stream) (b : Builder Thread Stream) :
    .request b.writeId b.writeOp b.sequence b.call ∈ c.message b := by
  unfold Client.message
  split_ifs <;> simp

/-- A write of the builder: what reaches the lane is part of its message, and a ticket counts as
handed over only with the request. -/
theorem Accounted.write (h : s.Accounted)
    (hbuilder : s.fence.client.builder = some b) {written : List Frame}
    (hwritten : written ⊆ s.fence.client.message b) (more : List ℕ)
    (hmore : ∀ q ∈ more, ∃ id op call, .request id op (some q) call ∈ written)
    (client : Client Thread Stream)
    (hpublished : client.publishedAsyncSequence = s.fence.client.publishedAsyncSequence)
    (htaken : client.taken = s.fence.client.taken)
    (hissued : ∀ q < client.issuedAsyncSequence, q ∈ s.handed ++ more ∨
      ∃ b ∈ client.builder, b.sent = false ∧ b.sequence = some q)
    (hdependency : ∀ b' ∈ client.builder, b'.writeDependency = b.writeDependency) :
    Accounted ⟨{ s.fence.setLane b.writeStreamId
      { s.fence.server.lanes b.writeStreamId with
        frames := (s.fence.server.lanes b.writeStreamId).frames ++ written } with
      client := client }, s.handed ++ more⟩ where
  published := by
    rw [hpublished]
    exact h.published.append _ more
  marker := by
    intro i op count hm
    rcases eq_or_ne i b.writeStreamId with rfl | hi
    · simp only [setLane_lanes, update_self, mem_append] at hm
      rcases hm with hm | hm
      · exact (h.marker _ op count hm).append _ more
      · rcases mem_message (hwritten hm) with heq | heq
        · cases heq
          exact (h.dependency b hbuilder).append _ more
        · cases heq
    · simp only [setLane_lanes, update_of_ne hi] at hm
      exact (h.marker i op count hm).append _ more
  waiting := by
    intro i count hw
    have hw' : (s.fence.server.lanes i).phase = .waiting count := by
      rcases eq_or_ne i b.writeStreamId with rfl | hi
      · simpa using hw
      · simpa [hi] using hw
    exact (h.waiting i count hw').append _ more
  arrives := by
    intro q hq
    rcases mem_append.mp hq with hq | hq
    · rcases h.arrives q hq with hended | ⟨i, hi⟩ | hc
      · exact .inl hended
      · refine .inr (.inl ⟨i, ?_⟩)
        rcases eq_or_ne i b.writeStreamId with rfl | hne
        · rcases hi with ⟨id, op, call, hmem⟩ | hrest
          · exact .inl ⟨id, op, call, by simp [hmem]⟩
          · exact .inr (by simpa using hrest)
        · simpa [hne] using hi
      · exact .inr (.inr hc)
    · obtain ⟨id, op, call, hmem⟩ := hmore q hq
      exact .inr (.inl ⟨b.writeStreamId, .inl ⟨id, op, call, by simp [hmem]⟩⟩)
  issued := hissued
  taken := by
    intro t count call ht
    rw [htaken] at ht
    exact (h.taken t count call ht).append _ more
  dependency := by
    intro b' hb'
    rw [hdependency b' hb']
    exact (h.dependency b hbuilder).append _ more

theorem Accounted.writeFailed (h : s.Accounted) (hbuilder : s.fence.client.builder = some b)
    (hnone : b.sequence = none) (marker : Bool) :
    Accounted ⟨s.fence.writeFailed b marker, s.handed⟩ := by
  have hwritten : (if marker then (s.fence.client.message b).dropLast else []) ⊆
      s.fence.client.message b := by
    cases marker
    · simp
    · exact dropLast_subset _
  have hrun := h.write hbuilder hwritten [] (by simp)
    (s.fence.writeFailed b marker).client rfl rfl ?_ ?_
  · simpa [Fence.writeFailed] using hrun
  · intro q hq
    have := h.issued q hq
    simp only [hbuilder, mem_def, Option.some.injEq, exists_eq_left', hnone,
      reduceCtorEq, and_false, or_false] at this
    exact .inl (by simpa using this)
  · rintro b' ⟨⟩

end Write

/-! ## Runs -/

variable [DecidableEq Thread] [DecidableEq Stream] {lane : Thread → Stream} {t : Thread}

section

variable (h : s.Accounted)
include h

omit [DecidableEq Stream] in
theorem Accounted.taken_update (t t' : Thread) (count call : ℕ)
    (ht' : update s.fence.client.taken t none t' = some (count, call)) : s.Handed count :=
  h.taken t' count call (update_eq_of_ne ht' (by simp)).2

theorem Accounted.issue (hstep : s.fence.step lane (.issue t) = some fence) :
    Accounted ⟨fence, s.handed⟩ := by
  obtain ⟨b, hbuilder, ⟨-, hnone, hsent⟩, rfl⟩ := exists_builder hstep
  refine h.client rfl (List.Subset.refl _) h.published ?_ h.taken ?_
  · intro q hq
    rcases Nat.lt_succ_iff_lt_or_eq.mp hq with hq | rfl
    · -- the builder had no ticket yet, so that every earlier one was handed over
      have := h.issued q hq
      simp only [hbuilder, mem_def, Option.some.injEq, exists_eq_left', hnone,
        reduceCtorEq, and_false, or_false] at this
      exact .inl this
    · exact .inr ⟨_, rfl, hsent, rfl⟩
  · rintro b' ⟨⟩
    exact h.dependency b hbuilder

theorem Accounted.send (hstep : s.fence.step lane (.send t) = some fence) :
    Accounted ⟨fence, s.handed ++ handedBy s.fence (.send t)⟩ := by
  obtain ⟨b, hbuilder, -, rfl⟩ := exists_builder hstep
  simp only [handedBy, hbuilder, toList_some, flatMap_singleton]
  refine h.write hbuilder (List.Subset.refl _) b.sequence.toList ?_ _ rfl rfl ?_ ?_
  · intro q hq
    have hq' : b.sequence = some q := by simpa using hq
    exact ⟨b.writeId, b.writeOp, b.call, hq' ▸ request_mem_message s.fence.client b⟩
  · intro q hq
    left
    rcases h.issued q hq with hq | ⟨b', hb', -, hq⟩
    · exact mem_append_left _ hq
    · rw [hbuilder] at hb'
      cases hb'
      exact mem_append_right _ (by simp [hq])
  · rintro b' ⟨⟩
    rfl

theorem Accounted.publish (hstep : s.fence.step lane (.publish t) = some fence) :
    Accounted ⟨fence, s.handed⟩ := by
  obtain ⟨b, hbuilder, ⟨-, hsent⟩, rfl⟩ := exists_builder hstep
  have hissued : s.Handed s.fence.client.issuedAsyncSequence := by
    intro q hq
    have := h.issued q hq
    simpa only [hbuilder, mem_def, Option.some.injEq, exists_eq_left', hsent,
      Bool.true_eq_false, false_and, or_false] using this
  refine h.client rfl (subset_append_left _ _) hissued ?_ h.taken ?_
  · exact fun q hq => .inl (hissued q hq)
  · rintro b' ⟨⟩

theorem Accounted.finish (hstep : s.fence.step lane (.finish i) = some fence) :
    Accounted ⟨fence, s.handed⟩ := by
  simp only [Fence.step] at hstep
  split at hstep
  · rename_i hphase
    cases hstep
    have hend : ∀ t, (s.fence.server.sequenceEnd t).lanes = s.fence.server.lanes ∧
        (s.fence.server.sequenceEnd t).closed = s.fence.server.closed := by
      intro t
      unfold Server.sequenceEnd
      split_ifs <;> exact ⟨rfl, rfl⟩
    refine h.server rfl (subset_append_left _ _) ?_ (laneMove_update (l :=
      { s.fence.server.lanes i with phase := .dispatching }) ?_ ⟨fun _ _ hm => hm, by simp, ?_⟩)
    · simp [Server.setLane, (hend _).2]
    · simp [Server.setLane, (hend _).1]
    · intro q hq
      have hq' : (∃ id op call, .request id op (some q) call ∈ (s.fence.server.lanes i).frames) ∨
          (s.fence.server.lanes i).executingAsyncSequence = q := by
        simpa [Lane.Carries, hphase] using hq
      rcases hq' with hq' | rfl
      · exact .inl (.inl hq')
      · exact .inr (.inl (by simp))
  · cases hstep

theorem Accounted.act {a : Action Thread Stream} (hstep : s.fence.step lane a = some fence) :
    Accounted ⟨fence, s.handed ++ handedBy s.fence a⟩ := by
  cases a <;> simp only [handedBy, append_nil]
  case take t =>
    obtain ⟨-, rfl⟩ := of_guarded hstep
    refine h.client rfl (subset_append_left _ _) h.published h.issued ?_ h.dependency
    intro t' count call htaken
    rcases update_eq_cases htaken with ⟨-, ⟨⟩⟩ | ⟨-, htaken⟩
    · exact h.published
    · exact h.taken t' count call htaken
  case abandon t =>
    cases hstep
    exact h.client rfl (List.Subset.refl _) h.published h.issued (h.taken_update t) h.dependency
  case start t op =>
    simp only [Fence.step] at hstep
    split at hstep
    · rename_i dependency call htaken hbuilder
      cases hstep
      refine h.client rfl (List.Subset.refl _) h.published (fun q hq => ?_) (h.taken_update t) ?_
      · have := h.issued q hq
        simp only [hbuilder, mem_def, reduceCtorEq, false_and, exists_false, or_false] at this
        exact .inl this
      · rintro b' ⟨⟩
        exact h.taken t dependency call htaken
    · cases hstep
  case issue t => exact h.issue hstep
  case send t => exact h.send hstep
  case publish t => exact h.publish hstep
  case dispatch i =>
    simp only [Fence.step] at hstep
    split at hstep
    · split at hstep <;> cases hstep
      · exact h.stopLane i (by assumption)
      · exact h.dispatchFrame (by assumption) (by assumption)
    · cases hstep
  case wake i =>
    simp only [Fence.step] at hstep
    split at hstep
    · rename_i hphase
      split at hstep
      · cases hstep
        exact h.markClosed.stopLane i rfl
      · obtain ⟨-, rfl⟩ := of_guarded hstep
        exact h.advance i rfl (by simp) (by simp [Lane.Carries, hphase])
    · cases hstep
  case «begin» i =>
    simp only [Fence.step] at hstep
    split at hstep
    · rename_i hphase
      split at hstep <;> cases hstep
      · exact h.stopLane i (by assumption)
      · exact h.advance i rfl (by simp) (by simp [Lane.Carries, hphase])
    · cases hstep
  case finish i => exact h.finish hstep
  case respond i =>
    simp only [Fence.step] at hstep
    split at hstep
    · rename_i hphase
      cases hstep
      exact h.advance i rfl (by simp) (by simp [Lane.Carries, hphase])
    · cases hstep
  case close =>
    cases hstep
    exact h.markClosed

theorem Accounted.step {s' : Sends Thread Stream} {a : Attempt Thread Stream}
    (hC : s.FailsWithoutTicket a) (hstep : s.step lane a = some s') : s'.Accounted := by
  cases a with
  | act a =>
    simp only [Sends.step, map_eq_some_iff] at hstep
    obtain ⟨fence, hfence, rfl⟩ := hstep
    exact h.act hfence
  | fail t marker =>
    simp only [Sends.step] at hstep
    split at hstep
    · split at hstep
      · rename_i b hbuilder _
        cases hstep
        exact h.writeFailed hbuilder (hC b hbuilder) marker
      · cases hstep
    · cases hstep

end

/-- **Tickets and failed sends.** When no write of a fire-and-forget request fails, every count
that is published, stands in a marker on a lane or is waited for counts only tickets whose
requests were handed to the transport, and these requests arrive. -/
theorem counts_only_handed {s : Sends Thread Stream} {as : List (Attempt Thread Stream)}
    (hrun : exec (step lane) initial as = some s)
    (hC : Along (step lane) FailsWithoutTicket initial as) : s.CountsHanded :=
  (exec_invariant_along (fun _ _ _ h hC hstep => Accounted.step h hC hstep) accounted_initial
    hC hrun).toCountsHanded

/-- A synchronous request fails on the first lane between two fire-and-forget requests on the
second one. -/
theorem counts_only_handed_of_failed_call :
    ∃ s : Sends Bool Bool, s.handed = [0, 1] ∧
      s.fence.client.publishedAsyncSequence = 2 ∧ s.CountsHanded := by
  have hrun : ∃ s : Sends Bool Bool, exec (step id) initial
      [.act (.take true), .act (.start true 7), .act (.issue true), .act (.send true),
        .act (.publish true), .act (.take false), .act (.start false 8), .fail false true,
        .act (.take true), .act (.start true 7), .act (.issue true), .act (.send true),
        .act (.publish true)] = some s ∧
      s.handed = [0, 1] ∧ s.fence.client.publishedAsyncSequence = 2 :=
    ⟨_, rfl, rfl, rfl⟩
  obtain ⟨s, hs, hhanded, hpublished⟩ := hrun
  refine ⟨s, hhanded, hpublished, counts_only_handed hs ?_⟩
  simp [Along, FailsWithoutTicket, step, Fence.step, Client.publish]

/-- The fire-and-forget request of one thread fails, the synchronous request of a second one
succeeds and publishes the lost ticket. The request of a third one carries it in its marker, and
its lane waits for a ticket that no lane carries and that nothing has ended. -/
theorem lost_ticket_is_published : ∃ s : Sends (Fin 3) (Fin 3),
    Reachable (step id) initial s ∧ s.handed = [] ∧ s.fence.server.closed = false ∧
      s.fence.client.publishedAsyncSequence = 1 ∧
      (s.fence.server.lanes 2).phase = .waiting 1 ∧ ¬s.fence.Arrives 0 ∧ ¬s.CountsHanded := by
  have hrun : ∃ s : Sends (Fin 3) (Fin 3), exec (step id) initial
      [.act (.take 0), .act (.start 0 7), .act (.issue 0), .fail 0 false,
        .act (.take 1), .act (.start 1 8), .act (.send 1), .act (.publish 1),
        .act (.take 2), .act (.start 2 8), .act (.send 2), .act (.publish 2),
        .act (.dispatch 2)] = some s ∧ s.handed = [] ∧ s.fence.server.closed = false ∧
      s.fence.client.publishedAsyncSequence = 1 ∧
      s.fence.server.lanes 0 = ⟨[], .dispatching, 0⟩ ∧
      s.fence.server.lanes 1 = ⟨[.request (wrapInt 4) 8 none 1], .dispatching, 0⟩ ∧
      s.fence.server.lanes 2 = ⟨[.request (wrapInt 6) 8 none 2], .waiting 1, 0⟩ ∧
      .ended 0 ∉ s.fence.log :=
    ⟨_, rfl, rfl, rfl, rfl, rfl, rfl, rfl, by decide⟩
  obtain ⟨s, hs, hhanded, hclosed, hpublished, h0, h1, h2, hended⟩ := hrun
  refine ⟨s, ⟨_, hs⟩, hhanded, hclosed, hpublished, congrArg Lane.phase h2, ?_, ?_⟩
  · rintro (h | ⟨i, hi⟩ | h)
    · exact hended h
    · have hcases : ∀ i : Fin 3, i = 0 ∨ i = 1 ∨ i = 2 := by decide
      rcases hcases i with rfl | rfl | rfl
      · simp [Lane.Carries, h0] at hi
      · simp [Lane.Carries, h1] at hi
      · simp [Lane.Carries, h2] at hi
    · rw [hclosed] at h
      cases h
  · intro h
    have := h.published 0 (by rw [hpublished]; exact Nat.one_pos)
    simp [hhanded] at this

end Sends

end Lupine.Rpc
