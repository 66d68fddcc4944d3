import Lupine.Foundations.Update
import Lupine.Rpc.Fence

/-!
# A request is dispatched after the tickets published before it

`Fence.dispatched_after_published`: when `rpc_dispatch` returns a request, every ticket that was
published before this request loaded the published count has completed on the server, in every
interleaving of any number of client threads and server lanes.

The argument is local to a lane. `Ordered log l before t` says that the lane `l` cannot read past
the frames `before` until ticket `t` has ended: it has ended already, or the lane's thread is
waiting for it or executing it, or one of the frames is a marker above `t` or the request of `t`
itself. Every action of a lane's thread moves this from a list of frames to what is left of it
(`LaneStep`), so that what the client established when it wrote a request still holds when the
request comes to the front, where the list is empty and the ticket must have ended.

The client side keeps the fact behind its cache: every ticket below `async_prefix` is `Ordered`
before whatever is appended next to `async_prefix_stream` (`Fence.Inv.covered`).
-/

namespace Lupine.Rpc

open Foundations Function List Nat Fence Server

/-! ## The serving counter -/

variable {Stream : Type} {log log' : List Event} {l l' : Lane} {f : Frame}

/-- Passing completed tickets keeps any property of the tickets that were served or completed. -/
theorem catchUp_forall {P : ℕ → Prop} (fuel serving : ℕ) (completed : Finset ℕ)
    (hs : ∀ t < serving, P t) (hc : ∀ t ∈ completed, P t) :
    (∀ t < (catchUp fuel serving completed).1, P t) ∧
      ∀ t ∈ (catchUp fuel serving completed).2, P t := by
  induction fuel generalizing serving completed with
  | zero => exact ⟨hs, hc⟩
  | succ fuel ih =>
    rw [catchUp]
    split
    · rename_i hmem
      refine ih _ _ (fun t ht => ?_) fun t ht => hc t (Finset.mem_of_mem_erase ht)
      rcases Nat.lt_succ_iff_lt_or_eq.mp ht with ht | rfl
      · exact hs t ht
      · exact hc t hmem
    · exact ⟨hs, hc⟩

/-- The fuel suffices: the loop stops at a ticket that has not completed. -/
theorem catchUp_notMem (fuel serving : ℕ) (completed : Finset ℕ) (h : completed.card ≤ fuel) :
    (catchUp fuel serving completed).1 ∉ (catchUp fuel serving completed).2 := by
  induction fuel generalizing serving completed with
  | zero =>
    obtain rfl : completed = ∅ := Finset.card_eq_zero.mp (by omega)
    simp [catchUp]
  | succ fuel ih =>
    rw [catchUp]
    split
    · rename_i hmem
      apply ih
      rw [Finset.card_erase_of_mem hmem]
      omega
    · assumption

/-- The server's counters only count tickets that have ended. -/
structure Server.Counted {Stream : Type} (v : Server Stream) (log : List Event) : Prop where
  serving : ∀ t < v.servingAsyncSequence, .ended t ∈ log
  completed : ∀ t ∈ v.completedAsyncSequences, .ended t ∈ log

theorem Server.Counted.mono {v : Server Stream} (h : v.Counted log) (hlog : log ⊆ log') :
    v.Counted log' :=
  ⟨fun t ht => hlog (h.serving t ht), fun t ht => hlog (h.completed t ht)⟩

@[simp] theorem Server.counted_markClosed {v : Server Stream} :
    v.markClosed.Counted log ↔ v.Counted log :=
  ⟨fun h => ⟨h.serving, h.completed⟩, fun h => ⟨h.serving, h.completed⟩⟩

@[simp] theorem Server.counted_setLane [DecidableEq Stream] {v : Server Stream} {i : Stream} :
    (v.setLane i l).Counted log ↔ v.Counted log :=
  ⟨fun h => ⟨h.serving, h.completed⟩, fun h => ⟨h.serving, h.completed⟩⟩

theorem Server.Counted.sequenceEnd {v : Server Stream} {t : ℕ} (h : v.Counted log) :
    (v.sequenceEnd t).Counted (log ++ [.ended t]) := by
  have hmono := h.mono (subset_append_left log [.ended t])
  have hself : Event.ended t ∈ log ++ [.ended t] := by simp
  unfold Server.sequenceEnd
  split
  · rename_i ht
    have hserving : ∀ t' < v.servingAsyncSequence + 1, .ended t' ∈ log ++ [.ended t] := by
      intro t' ht'
      rcases Nat.lt_succ_iff_lt_or_eq.mp ht' with ht' | rfl
      · exact hmono.serving t' ht'
      · exact ht ▸ hself
    obtain ⟨h₁, h₂⟩ := catchUp_forall v.completedAsyncSequences.card _ _ hserving hmono.completed
    exact ⟨h₁, h₂⟩
  · split
    · refine ⟨hmono.serving, fun t' ht' => ?_⟩
      rcases Finset.mem_insert.mp ht' with rfl | ht'
      · exact hself
      · exact hmono.completed t' ht'
    · exact hmono

/-! ## What a lane orders -/

/-- A frame after which the lane goes on only when ticket `t` has ended. -/
def Frame.Covers (t : ℕ) : Frame → Prop
  | .marker _ published => t < published
  | .request _ _ sequence _ => sequence = some t

/-- The thread of the lane goes on only when ticket `t` has ended; a stopped one never does. -/
def Lane.Holds (l : Lane) (t : ℕ) : Prop :=
  match l.phase with
  | .dispatching => False
  | .waiting published => t < published
  | .handling sequence => sequence = some t
  | .executing => l.executingAsyncSequence = t
  | .stopped => True

/-- The lane cannot read past the frames `before` until ticket `t` has ended. -/
def Ordered (log : List Event) (l : Lane) (before : List Frame) (t : ℕ) : Prop :=
  .ended t ∈ log ∨ l.Holds t ∨ ∃ f ∈ before, f.Covers t

theorem Ordered.append {before : List Frame} {t : ℕ} (h : Ordered log l before t)
    (more : List Frame) : Ordered log l (before ++ more) t := by
  rcases h with h | h | ⟨f, hf, ht⟩
  · exact .inl h
  · exact .inr (.inl h)
  · exact .inr (.inr ⟨f, mem_append_left _ hf, ht⟩)

attribute [local simp] Lane.Holds

theorem Ordered.ended_of_dispatching {t : ℕ} (h : Ordered log l [] t)
    (hl : l.phase = .dispatching) : .ended t ∈ log := by
  rcases h with h | h | ⟨f, hf, -⟩
  · exact h
  · simp [hl] at h
  · simp at hf

/-- A lane that went from `l` to `l'` while the log went from `log` to `log'`: it read some of
its frames, and what was ordered after these stays ordered. -/
def LaneStep (log log' : List Event) (l l' : Lane) : Prop :=
  ∃ done, l.frames = done ++ l'.frames ∧
    ∀ before t, Ordered log l (done ++ before) t → Ordered log' l' before t

theorem LaneStep.of_holds (hf : l'.frames = l.frames) (hlog : log ⊆ log')
    (h : ∀ t, l.Holds t → .ended t ∈ log' ∨ l'.Holds t) : LaneStep log log' l l' := by
  refine ⟨[], by simp [hf], fun before t ho => ?_⟩
  rcases ho with ho | ho | ho
  · exact .inl (hlog ho)
  · exact (h t ho).imp id .inl
  · exact .inr (.inr ho)

theorem LaneStep.of_subset (hlog : log ⊆ log') : LaneStep log log' l l :=
  .of_holds rfl hlog fun _ h => .inr h

/-- Reading a frame: the thread takes over what the frame covered. -/
theorem LaneStep.read (hf : l.frames = f :: l'.frames) (hlog : log ⊆ log')
    (hl : l.phase = .dispatching) (h : ∀ t, f.Covers t → l'.Holds t) : LaneStep log log' l l' := by
  refine ⟨[f], hf, fun before t ho => ?_⟩
  rcases ho with ho | ho | ⟨g, hg, ht⟩
  · exact .inl (hlog ho)
  · simp [hl] at ho
  · rcases mem_cons.mp hg with rfl | hg
    · exact .inr (.inl (h t ht))
    · exact .inr (.inr ⟨g, hg, ht⟩)

theorem LaneStep.ordered_frames (h : LaneStep log log' l l') {t : ℕ}
    (ho : Ordered log l l.frames t) : Ordered log' l' l'.frames t := by
  obtain ⟨done, hdone, hstep⟩ := h
  exact hstep _ t (hdone ▸ ho)

/-! ## The invariant -/

/-- Ticket `t` was published before call `n` loaded the published count. -/
def PublishedBefore (log : List Event) (t n : ℕ) : Prop := Precedes (.published t) (.took n) log

/-- Every request of the lane is ordered after the tickets published before its call. -/
def Lane.Fenced (log : List Event) (l : Lane) : Prop :=
  ∀ before id op sequence call after,
    l.frames = before ++ .request id op sequence call :: after →
    ∀ t, PublishedBefore log t call → Ordered log l before t

/-- Every dispatch in the log comes after the ends of the tickets published before its call. -/
def DispatchOrdered (log : List Event) : Prop :=
  ∀ l₁ n l₂, log = l₁ ++ .dispatched n :: l₂ → ∀ t, PublishedBefore log t n → .ended t ∈ l₁

theorem LaneStep.fenced (h : LaneStep log log' l l')
    (hpub : ∀ t n, PublishedBefore log' t n → PublishedBefore log t n) (hl : l.Fenced log) :
    l'.Fenced log' := by
  obtain ⟨done, hdone, hstep⟩ := h
  intro before id op sequence call after hf t ht
  refine hstep before t (hl (done ++ before) id op sequence call after ?_ t (hpub t call ht))
  rw [hdone, hf, append_assoc]

/-- Appending an event to an ordered log: a dispatch must come after the ends of the tickets
published before its call, and a load must not be the load of a call already dispatched. -/
theorem DispatchOrdered.concat (h : DispatchOrdered log) {e : Event}
    (htook : ∀ n, .dispatched n ∈ log → e ≠ .took n)
    (hdisp : ∀ n, e = .dispatched n → ∀ t, PublishedBefore log t n → .ended t ∈ log) :
    DispatchOrdered (log ++ [e]) := by
  intro l₁ n l₂ hl t ht
  rcases concat_eq_append_cons hl with ⟨-, rfl, rfl⟩ | ⟨l₂', -, rfl⟩
  · exact hdisp n rfl t ((precedes_concat_of_ne (by simp)).mp ht)
  · exact h l₁ n l₂' rfl t ((precedes_concat_of_ne (htook n (by simp))).mp ht)

/-- The events of the server's threads. -/
def Event.OfServer : Event → Prop
  | .took _ | .published _ => False
  | .dispatched _ | .ended _ => True

/-- The issued tickets are the published ones and the one of the request under construction. -/
def Client.Issued {Thread Stream : Type} (c : Client Thread Stream) : Prop :=
  match c.builder.bind (·.sequence) with
  | none => c.issuedAsyncSequence = c.publishedAsyncSequence
  | some t => t = c.publishedAsyncSequence ∧ c.issuedAsyncSequence = t + 1

/-- Request ids are even and from `2` on until they wrap, and every ticket has a request id. -/
structure Client.Numbered {Thread Stream : Type} (c : Client Thread Stream) : Prop where
  even : c.requestId % 2 = 0
  issued_le : 2 * c.issuedAsyncSequence ≤ c.requestId
  builder : ∀ b ∈ c.builder, (c.requestId ≤ intMax → 2 ≤ b.writeId ∧ b.writeId % 2 = 0) ∧
    (b.sequence = none → 2 * c.issuedAsyncSequence + 2 ≤ c.requestId)

/-- A frame that `rpc_dispatch` with parity `0` accepts. -/
def Frame.Accepted : Frame → Prop
  | .marker op _ => op = 0
  | .request id _ _ _ => 2 ≤ id ∧ id % 2 = 0

namespace Fence

variable {Thread Stream : Type}
variable {s : Fence Thread Stream} {c : Client Thread Stream} {b : Builder Thread Stream}
  {i : Stream}

/-- The call numbers in use are below the next one. -/
structure CallsBelow (s : Fence Thread Stream) : Prop where
  frames : ∀ i id op sequence call,
    .request id op sequence call ∈ (s.server.lanes i).frames → call < s.client.calls
  took : ∀ call, .took call ∈ s.log → call < s.client.calls
  dispatched : ∀ call, .dispatched call ∈ s.log → call < s.client.calls
  taken : ∀ th d call, s.client.taken th = some (d, call) → call < s.client.calls
  builder : ∀ b ∈ s.client.builder, b.call < s.client.calls

/-- What a request depends on was published before it, and the lanes keep that order. -/
structure Inv (s : Fence Thread Stream) : Prop where
  calls : s.CallsBelow
  counted : s.server.Counted s.log
  numbered : s.client.Numbered
  accepted : s.client.requestId ≤ intMax → ∀ i, ∀ f ∈ (s.server.lanes i).frames, f.Accepted
  issued : s.client.Issued
  published : ∀ t, .published t ∈ s.log → t < s.client.publishedAsyncSequence
  /-- A thread that waits for the lock depends on what was published before its load. -/
  taken : ∀ th d call, s.client.taken th = some (d, call) →
    ∀ t, PublishedBefore s.log t call → t < d
  /-- So does the request under construction. -/
  builder : ∀ b ∈ s.client.builder, ∀ t, PublishedBefore s.log t b.call → t < b.writeDependency
  /-- What `async_prefix` promises about the lane it was last used for. -/
  covered : ∀ i, s.client.asyncPrefixStream = some i → ∀ t < s.client.asyncPrefix,
    Ordered s.log (s.server.lanes i) (s.server.lanes i).frames t
  /-- A message on its lane orders its dependency and its own ticket there. -/
  sent : ∀ b ∈ s.client.builder, b.sent = true →
    s.client.asyncPrefixStream = some b.writeStreamId ∧
      ∀ t, t < b.writeDependency ∨ b.sequence = some t →
        Ordered s.log (s.server.lanes b.writeStreamId) (s.server.lanes b.writeStreamId).frames t
  fenced : ∀ i, (s.server.lanes i).Fenced s.log
  dispatched : DispatchOrdered s.log

attribute [local simp] initial

theorem inv_initial : Inv (initial : Fence Thread Stream) where
  calls := ⟨by simp, by simp, by simp, by simp,
    by simp⟩
  counted := ⟨by simp, by simp⟩
  numbered := ⟨rfl, le_rfl, by simp⟩
  accepted := by simp
  issued := rfl
  published := by simp
  taken := by simp
  builder := by simp
  covered := by simp
  sent := by simp
  fenced := by simp [Lane.Fenced]
  dispatched := by simp [DispatchOrdered]

theorem publishedBefore_append {es : List Event} (hes : ∀ n, .took n ∉ es) {t n : ℕ}
    (h : PublishedBefore (log ++ es) t n) : PublishedBefore log t n := by
  induction es using List.reverseRecOn with
  | nil => simpa using h
  | append_singleton es e ih =>
    rw [← append_assoc] at h
    have he : e ≠ .took n := by
      rintro rfl
      exact hes n (by simp)
    exact ih (fun n hn => hes n (by simp [hn])) ((precedes_concat_of_ne he).mp h)

/-! ## The server's actions -/

/-- An action of the server: the client is unchanged and every lane makes a `LaneStep`. -/
theorem Inv.server {s' : Fence Thread Stream} (h : s.Inv) (es : List Event)
    (hclient : s'.client = s.client) (hlog : s'.log = s.log ++ es) (hes : ∀ e ∈ es, e.OfServer)
    (hcounted : s'.server.Counted s'.log)
    (hlane : ∀ i, LaneStep s.log s'.log (s.server.lanes i) (s'.server.lanes i))
    (hcalls : ∀ n, .dispatched n ∈ es → n < s.client.calls) (hdisp : DispatchOrdered s'.log) :
    s'.Inv := by
  have hpub : ∀ t n, PublishedBefore s'.log t n → PublishedBefore s.log t n := fun t n hp =>
    publishedBefore_append (fun n hn => hes _ hn) (hlog ▸ hp)
  refine ⟨?_, hcounted, hclient ▸ h.numbered, fun hle i f hf => ?_, hclient ▸ h.issued, ?_, ?_, ?_,
    ?_, ?_, ?_, hdisp⟩
  · have hold := h.calls
    refine ⟨fun i id op sequence call hf => ?_, fun call hc => ?_, fun call hc => ?_, ?_, ?_⟩
    · obtain ⟨done, hdone, -⟩ := hlane i
      exact hclient ▸ hold.frames i id op sequence call (hdone ▸ mem_append_right _ hf)
    · rcases mem_append.mp (hlog ▸ hc) with hc | hc
      · exact hclient ▸ hold.took call hc
      · exact (hes _ hc).elim
    · rcases mem_append.mp (hlog ▸ hc) with hc | hc
      · exact hclient ▸ hold.dispatched call hc
      · exact hclient ▸ hcalls call hc
    · exact hclient ▸ hold.taken
    · exact hclient ▸ hold.builder
  · obtain ⟨done, hdone, -⟩ := hlane i
    exact h.accepted (hclient ▸ hle) i f (hdone ▸ mem_append_right _ hf)
  · intro t ht
    rcases mem_append.mp (hlog ▸ ht) with ht | ht
    · exact hclient ▸ h.published t ht
    · exact (hes _ ht).elim
  · rw [hclient]
    exact fun th d call hth t ht => h.taken th d call hth t (hpub t call ht)
  · rw [hclient]
    exact fun b hb t ht => h.builder b hb t (hpub t b.call ht)
  · rw [hclient]
    exact fun i hi t ht => (hlane i).ordered_frames (h.covered i hi t ht)
  · rw [hclient]
    intro b hb hsent
    obtain ⟨hstream, hord⟩ := h.sent b hb hsent
    exact ⟨hstream, fun t ht => (hlane _).ordered_frames (hord t ht)⟩
  · exact fun i => (hlane i).fenced hpub (h.fenced i)

theorem Inv.markClosed (h : s.Inv) : Inv { s with server := s.server.markClosed } :=
  h.server [] rfl (by simp) (by simp) (counted_markClosed.mpr h.counted)
    (fun _ => LaneStep.of_subset (List.Subset.refl _)) (by simp) h.dispatched

/-! ## The client's actions -/

/-- Actions of the client that touch neither a lane nor the log. -/
theorem Inv.client (h : s.Inv)
    (hcalls : c.calls = s.client.calls) (hgrows : s.client.requestId ≤ c.requestId)
    (hnumbered : c.Numbered) (hissued : c.Issued)
    (hpublished : c.publishedAsyncSequence = s.client.publishedAsyncSequence)
    (hstream : c.asyncPrefixStream = s.client.asyncPrefixStream)
    (hasync : c.asyncPrefix = s.client.asyncPrefix)
    (htaken : ∀ th d call, c.taken th = some (d, call) → s.client.taken th = some (d, call))
    (hbuilder : ∀ b ∈ c.builder, b ∈ s.client.builder ∨ (b.sent = false ∧
      b.call < s.client.calls ∧ ∀ t, PublishedBefore s.log t b.call → t < b.writeDependency)) :
    Inv { s with client := c } := by
  obtain ⟨hframes, htook, hdispatched, htaken', hbuilder'⟩ := h.calls
  refine ⟨⟨?_, ?_, ?_, fun th d call hth => ?_, fun b hb => ?_⟩, h.counted, hnumbered,
    fun hle => h.accepted ((Int.ofNat_le.mpr hgrows).trans hle), hissued, ?_,
    fun th d call hth => h.taken th d call (htaken th d call hth), fun b hb => ?_, ?_,
    fun b hb hsent => ?_, h.fenced, h.dispatched⟩
  · simpa only [hcalls] using hframes
  · simpa only [hcalls] using htook
  · simpa only [hcalls] using hdispatched
  · exact hcalls ▸ htaken' th d call (htaken th d call hth)
  · exact hcalls ▸ (hbuilder b hb).elim (hbuilder' b) fun hb => hb.2.1
  · simpa only [hpublished] using h.published
  · exact (hbuilder b hb).elim (h.builder b) fun hb => hb.2.2
  · simpa only [hstream, hasync] using h.covered
  · rcases hbuilder b hb with hb | hb
    · simpa only [hstream] using h.sent b hb hsent
    · simp [hb.1] at hsent

section Step

variable [DecidableEq Stream]

theorem laneStep_setLane {v : Server Stream} (hlog : log ⊆ log')
    (h : LaneStep log log' (v.lanes i) l) (j : Stream) :
    LaneStep log log' (v.lanes j) ((v.setLane i l).lanes j) := by
  rcases eq_or_ne j i with rfl | hj
  · simpa [Server.setLane] using h
  · simpa [Server.setLane, hj] using LaneStep.of_subset hlog

@[simp] theorem setLane_log (s : Fence Thread Stream) (i : Stream) (l : Lane) :
    (s.setLane i l).log = s.log := rfl

@[simp] theorem setLane_lanes (s : Fence Thread Stream) (i : Stream) (l : Lane) :
    (s.setLane i l).server.lanes = update s.server.lanes i l := rfl

/-- An action of the thread of lane `i` that logs nothing. -/
theorem Inv.setLane (h : s.Inv) (i : Stream) (hl : LaneStep s.log s.log (s.server.lanes i) l) :
    (s.setLane i l).Inv :=
  h.server [] rfl (by simp [Fence.setLane]) (by simp)
    (counted_setLane.mpr h.counted) (laneStep_setLane (List.Subset.refl _) hl)
    (by simp) h.dispatched

theorem Inv.stopLane (h : s.Inv) (i : Stream) : Inv { s with server := s.server.stopLane i } :=
  h.setLane i (.of_holds rfl (List.Subset.refl _) fun _ _ => .inr trivial)

theorem Inv.dispatchFrame (h : s.Inv) {rest : List Frame}
    (hphase : (s.server.lanes i).phase = .dispatching)
    (hframes : (s.server.lanes i).frames = f :: rest) : (s.dispatchFrame i rest f).Inv := by
  cases f with
  | marker op published =>
    rw [dispatchFrame]
    split
    · exact h.markClosed.stopLane i
    · have hread : LaneStep s.log s.log (s.server.lanes i)
          { s.server.lanes i with frames := rest, phase := .waiting published } :=
        .read hframes (List.Subset.refl _) hphase fun _ ht => ht
      exact h.setLane i hread
  | request id op sequence call =>
    rw [dispatchFrame]
    split
    · exact h.markClosed.stopLane i
    · -- nothing stands before this request, so what it depends on has ended
      have hended : ∀ t, PublishedBefore s.log t call → .ended t ∈ s.log := fun t ht =>
        (h.fenced i [] id op sequence call rest hframes t ht).ended_of_dispatching hphase
      have hlog : s.log ⊆ s.log ++ [.dispatched call] := subset_append_left _ _
      have hcall : call < s.client.calls :=
        h.calls.frames i id op sequence call (by simp [hframes])
      have hread : LaneStep s.log (s.log ++ [.dispatched call]) (s.server.lanes i)
          { s.server.lanes i with frames := rest, phase := .handling sequence } :=
        .read hframes hlog hphase fun _ ht => ht
      refine h.server [.dispatched call] rfl rfl (by simp [Event.OfServer])
        (counted_setLane.mpr (h.counted.mono hlog)) (laneStep_setLane hlog hread)
        (by simp [hcall]) (h.dispatched.concat (by simp) ?_)
      rintro n ⟨⟩
      exact hended

/-- The part of a message in front of the request. -/
def fenceFrames (c : Client Thread Stream) (b : Builder Thread Stream) : List Frame :=
  if b.writeDependency > c.currentPrefix b.writeStreamId then [.marker 0 b.writeDependency] else []

theorem message_eq (c : Client Thread Stream) (b : Builder Thread Stream) :
    c.message b = fenceFrames c b ++ [.request b.writeId b.writeOp b.sequence b.call] := by
  simp only [Client.message, fenceFrames]
  split <;> rfl

/-- The cache is right: behind the marker, if one is needed, the whole dependency is ordered. -/
theorem Inv.ordered_dependency (h : s.Inv) (b : Builder Thread Stream) {t : ℕ}
    (ht : t < b.writeDependency) :
    Ordered s.log (s.server.lanes b.writeStreamId)
      ((s.server.lanes b.writeStreamId).frames ++ fenceFrames s.client b) t := by
  by_cases hfence : b.writeDependency > s.client.currentPrefix b.writeStreamId
  · exact .inr (.inr ⟨.marker 0 b.writeDependency, by simp [fenceFrames, hfence], ht⟩)
  · have ht' : t < s.client.currentPrefix b.writeStreamId := by omega
    unfold Client.currentPrefix at ht'
    split at ht'
    · exact (h.covered _ (by assumption) t ht').append _
    · omega

theorem mem_fenceFrames_ne_request {id : ℤ} {op call : ℕ} {sequence : Option ℕ} :
    .request id op sequence call ∉ fenceFrames c b := by
  unfold fenceFrames
  split <;> simp

theorem accepted_of_mem_message (hb : 2 ≤ b.writeId ∧ b.writeId % 2 = 0)
    (hf : f ∈ c.message b) : f.Accepted := by
  rw [message_eq, fenceFrames] at hf
  rcases mem_append.mp hf with hf | hf
  · split at hf
    · obtain rfl := mem_singleton.mp hf
      rfl
    · simp at hf
  · obtain rfl := mem_singleton.mp hf
    exact hb

/-- A request in a lane's frames after a message was appended is an old one or the new one. -/
theorem append_message_eq {frames before after : List Frame} {id : ℤ} {op call : ℕ}
    {sequence : Option ℕ}
    (h : frames ++ c.message b = before ++ .request id op sequence call :: after) :
    (before = frames ++ fenceFrames c b ∧ call = b.call) ∨
      ∃ after', frames = before ++ .request id op sequence call :: after' := by
  rw [message_eq, ← append_assoc] at h
  rcases concat_eq_append_cons h with ⟨-, hbefore, hreq⟩ | ⟨after', -, h⟩
  · simp only [Frame.request.injEq] at hreq
    exact .inl ⟨hbefore.symm, hreq.2.2.2.symm⟩
  · right
    unfold fenceFrames at h
    split at h
    · rcases concat_eq_append_cons h with ⟨-, -, hreq⟩ | ⟨after'', -, h⟩
      · simp at hreq
      · exact ⟨after'', h⟩
    · exact ⟨after', by simpa using h⟩

/-! ## Steps -/

variable [DecidableEq Thread] {lane : Thread → Stream} {s' : Fence Thread Stream} {th : Thread}
  {op : ℕ}

section

variable (h : s.Inv)
include h

/-- Loading the published count: every ticket published so far is below it. -/
theorem Inv.take (hstep : s.step lane (.take th) = some s') : s'.Inv := by
  obtain ⟨-, rfl⟩ := of_guarded hstep
  have hlog : s.log ⊆ s.log ++ [.took s.client.calls] := subset_append_left _ _
  have hpub : ∀ t call, call < s.client.calls →
      PublishedBefore (s.log ++ [.took s.client.calls]) t call → PublishedBefore s.log t call :=
    fun t call hcall hp => (precedes_concat_of_ne (by simp; omega)).mp hp
  have hlane : ∀ i, LaneStep s.log (s.log ++ [.took s.client.calls]) (s.server.lanes i)
      (s.server.lanes i) := fun i => .of_subset hlog
  obtain ⟨hframes, htook, hdispatched, htaken, hbuilder⟩ := h.calls
  refine ⟨⟨fun i id op sequence call hf => ?_, fun call hc => ?_, fun call hc => ?_,
    fun th' d call hth => ?_, fun b hb => ?_⟩, h.counted.mono hlog,
    { h.numbered with }, h.accepted, h.issued, fun t ht => ?_,
    fun th' d call hth t ht => ?_, fun b hb t ht => ?_, fun i hi t ht => ?_, fun b hb hsent => ?_,
    fun i before id op sequence call after hf t ht => ?_, ?_⟩
  · exact lt_succ_of_lt (hframes i id op sequence call hf)
  · rcases mem_append.mp hc with hc | hc
    · exact lt_succ_of_lt (htook call hc)
    · simp only [mem_singleton, Event.took.injEq] at hc
      exact hc ▸ lt_succ_self _
  · exact lt_succ_of_lt (hdispatched call (by simpa using hc))
  · rcases update_eq_cases hth with ⟨-, ⟨⟩⟩ | ⟨-, hth⟩
    · exact lt_succ_self _
    · exact lt_succ_of_lt (htaken th' d call hth)
  · exact lt_succ_of_lt (hbuilder b hb)
  · exact h.published t (by simpa using ht)
  · rcases update_eq_cases hth with ⟨-, ⟨⟩⟩ | ⟨-, hth⟩
    · exact h.published t (by simpa using ht.mem_left)
    · exact h.taken th' d call hth t (hpub t call (htaken th' d call hth) ht)
  · exact h.builder b hb t (hpub t b.call (hbuilder b hb) ht)
  · exact (hlane i).ordered_frames (h.covered i hi t ht)
  · obtain ⟨hstream, hord⟩ := h.sent b hb hsent
    exact ⟨hstream, fun t ht => (hlane _).ordered_frames (hord t ht)⟩
  · have hf' : (s.server.lanes i).frames = before ++ .request id op sequence call :: after := hf
    have hcall := hframes i id op sequence call (by simp [hf'])
    exact (h.fenced i before id op sequence call after hf' t (hpub t call hcall ht)).imp_left
      fun he => hlog he
  · refine h.dispatched.concat (fun n hn => ?_) (by simp)
    simp only [ne_eq, Event.took.injEq]
    have := hdispatched n hn
    omega

/-- The builder lock: the dependency loaded earlier goes into the request. -/
theorem Inv.start (hstep : s.step lane (.start th op) = some s') : s'.Inv := by
  simp only [step] at hstep
  split at hstep
  · rename_i d call hth hnone
    cases hstep
    have heven := h.numbered.even
    have hle := h.numbered.issued_le
    have hissued := h.issued
    simp only [Client.Issued, hnone, Option.bind_none] at hissued
    refine h.client rfl (le_add_right _ _) ⟨?_, ?_, ?_⟩ ?_ rfl rfl rfl
      (fun _ _ _ hth' => (update_eq_of_ne hth' nofun).2) fun b hb => .inr ?_
    · simpa using heven
    · exact hle.trans (le_add_right _ _)
    · rintro b ⟨⟩
      refine ⟨fun hmax => ?_, fun _ => Nat.add_le_add_right hle 2⟩
      have hwrap : wrapInt ↑(s.client.requestId + 2) = ↑(s.client.requestId + 2) :=
        wrapInt_of_le (by omega) hmax
      simp only [hwrap]
      omega
    · simpa [Client.Issued] using hissued
    · obtain rfl := Option.mem_some_iff.mp hb
      exact ⟨rfl, h.calls.taken th d call hth, h.taken th d call hth⟩
  · cases hstep

/-- The ticket of a fire-and-forget request. -/
theorem Inv.issue (hstep : s.step lane (.issue th) = some s') : s'.Inv := by
  obtain ⟨b, hb, ⟨-, hseq, hsent⟩, rfl⟩ := exists_builder hstep
  obtain ⟨hid, hroom⟩ := h.numbered.builder b (by simp [hb])
  have hissued := h.issued
  simp only [Client.Issued, hb, Option.bind_some, hseq] at hissued
  refine h.client rfl le_rfl ⟨h.numbered.even, ?_, ?_⟩ ?_ rfl rfl rfl (fun _ _ _ hth => hth)
    fun b' hb' => .inr ?_
  · have := hroom hseq
    omega
  · simpa using hid
  · simpa [Client.Issued] using hissued
  · obtain rfl := Option.mem_some_iff.mp hb'
    exact ⟨hsent, h.calls.builder b (by simp [hb]), h.builder b (by simp [hb])⟩

theorem Inv.send (hstep : s.step lane (.send th) = some s') : s'.Inv := by
  obtain ⟨b, hb, -, rfl⟩ := exists_builder hstep
  set i := b.writeStreamId with hi
  obtain ⟨hframes, htook, hdispatched, htaken, hbuilder⟩ := h.calls
  have hcall : b.call < s.client.calls := hbuilder b (by simp [hb])
  have hissued := h.issued
  simp only [Client.Issued, hb, Option.bind_some] at hissued
  refine ⟨⟨fun j id op sequence call hf => ?_, htook, hdispatched, htaken, ?_⟩,
    counted_setLane.mpr h.counted, ⟨h.numbered.even, h.numbered.issued_le, ?_⟩,
    fun hle j f hf => ?_, ?_, h.published, h.taken, ?_, fun j hj t ht => ?_, fun b' hb' hsent => ?_,
    fun j => ?_, h.dispatched⟩
  · rcases eq_or_ne j i with rfl | hj
    · simp only [setLane_lanes, update_self, mem_append] at hf
      rcases hf with hf | hf
      · exact hframes i id op sequence call hf
      · rw [message_eq] at hf
        simp only [mem_append, mem_fenceFrames_ne_request, mem_singleton, false_or,
          Frame.request.injEq] at hf
        exact hf.2.2.2 ▸ hcall
    · exact hframes j id op sequence call (by simpa [hj] using hf)
  · simpa using hcall
  · simpa using h.numbered.builder b (by simp [hb])
  · rcases eq_or_ne j i with rfl | hj
    · simp only [setLane_lanes, update_self, mem_append] at hf
      rcases hf with hf | hf
      · exact h.accepted hle i f hf
      · exact accepted_of_mem_message ((h.numbered.builder b (by simp [hb])).1 hle) hf
    · exact h.accepted hle j f (by simpa [hj] using hf)
  · simpa only [Client.Issued, Option.bind_some] using hissued
  · simpa using h.builder b (by simp [hb])
  · obtain rfl : i = j := by simpa using hj
    simp only [setLane_lanes, update_self]
    have ht' : t < s.client.currentPrefix i := ht
    unfold Client.currentPrefix at ht'
    split at ht'
    · exact (h.covered i (by assumption) t ht').append _
    · omega
  · obtain rfl : b' = { b with sent := true } := by simpa using hb'.symm
    refine ⟨rfl, fun t ht => ?_⟩
    simp only [setLane_lanes, ← hi, update_self, message_eq, ← append_assoc]
    rcases ht with ht | ht
    · exact (h.ordered_dependency b ht).append _
    · exact .inr (.inr ⟨.request b.writeId b.writeOp b.sequence b.call, by simp, ht⟩)
  · rcases eq_or_ne j i with rfl | hj
    · intro before id op sequence call after hf t ht
      simp only [setLane_lanes, update_self] at hf ⊢
      rcases append_message_eq hf with ⟨rfl, rfl⟩ | ⟨after', hf⟩
      · exact h.ordered_dependency b (h.builder b (by simp [hb]) t ht)
      · exact h.fenced i before id op sequence call after' hf t ht
    · simpa [hj] using h.fenced j

attribute [local simp] Client.publish

/-- The publication of a message that is on its lane. -/
theorem Inv.publish (hstep : s.step lane (.publish th) = some s') : s'.Inv := by
  obtain ⟨b, hb, ⟨-, hsent⟩, rfl⟩ := exists_builder hstep
  obtain ⟨hstream, hord⟩ := h.sent b (by simp [hb]) hsent
  have hissued := h.issued
  simp only [Client.Issued, hb, Option.bind_some] at hissued
  set es := b.sequence.toList.map Event.published with hes
  have hlog : s.log ⊆ s.log ++ es := subset_append_left _ _
  have hpub : ∀ t n, PublishedBefore (s.log ++ es) t n → PublishedBefore s.log t n :=
    fun t n => publishedBefore_append (by simp [hes])
  have hlane : ∀ i, LaneStep s.log (s.log ++ es) (s.server.lanes i) (s.server.lanes i) :=
    fun i => .of_subset hlog
  -- the tickets below the new prefix: the old prefix, the dependency and, when these two leave
  -- no gap, the request's own ticket
  have hcovered : ∀ t < (s.client.publish b).asyncPrefix,
      t < s.client.asyncPrefix ∨ t < b.writeDependency ∨ b.sequence = some t := by
    intro t ht
    simp only [Client.publish] at ht
    split at ht
    · cases hseq : b.sequence with
      | none => simp only [hseq] at hissued; omega
      | some t₀ =>
        simp only [hseq] at hissued
        simp only [Option.some.injEq]
        omega
    · omega
  have hle : ∀ t, b.sequence = some t → t < s.client.issuedAsyncSequence := by
    intro t ht
    simp only [ht] at hissued
    omega
  have hge : s.client.publishedAsyncSequence ≤ s.client.issuedAsyncSequence := by
    cases hseq : b.sequence <;> simp only [hseq] at hissued <;> omega
  obtain ⟨hframes, htook, hdispatched, htaken, -⟩ := h.calls
  refine ⟨⟨hframes, fun call hc => ?_, fun call hc => ?_, htaken, by simp⟩,
    h.counted.mono hlog, ⟨h.numbered.even, h.numbered.issued_le, by simp⟩,
    h.accepted, rfl, fun t ht => ?_, fun th d call hth t ht => ?_, by simp,
    fun i hi t ht => ?_, by simp, fun i => ?_, ?_⟩
  · exact htook call (by simpa [hes] using hc)
  · exact hdispatched call (by simpa [hes] using hc)
  · rcases mem_append.mp ht with ht | ht
    · exact (h.published t ht).trans_le hge
    · exact hle t (by simpa [hes] using ht)
  · exact h.taken th d call hth t (hpub t call ht)
  · obtain rfl : b.writeStreamId = i := by
      have : s.client.asyncPrefixStream = some i := hi
      simpa [hstream] using this
    refine (hlane b.writeStreamId).ordered_frames ?_
    rcases hcovered t ht with ht | ht
    · exact h.covered _ hstream t ht
    · exact hord t ht
  · exact (hlane i).fenced hpub (h.fenced i)
  · simp only [hes]
    cases b.sequence with
    | none => simpa using h.dispatched
    | some t => exact h.dispatched.concat (by simp) (by simp)

theorem Inv.finish (hstep : s.step lane (.finish i) = some s') : s'.Inv := by
  simp only [step] at hstep
  split at hstep
  · rename_i hphase
    cases hstep
    set t := (s.server.lanes i).executingAsyncSequence with ht
    have hlog : s.log ⊆ s.log ++ [.ended t] := subset_append_left _ _
    have hlanes : (s.server.sequenceEnd t).lanes = s.server.lanes := by
      unfold sequenceEnd
      split_ifs <;> rfl
    refine h.server [.ended t] rfl rfl (by simp [Event.OfServer])
      (counted_setLane.mpr h.counted.sequenceEnd) (fun j => ?_) (by simp)
      (h.dispatched.concat (by simp) (by simp))
    have hl : LaneStep s.log (s.log ++ [.ended t]) (s.server.lanes i)
        { s.server.lanes i with phase := .dispatching } := by
      refine .of_holds rfl hlog fun t' ht' => .inl ?_
      have : t = t' := by simpa [hphase] using ht'
      simp [this]
    rw [← hlanes] at hl
    have := laneStep_setLane (v := s.server.sequenceEnd t) hlog hl j
    rwa [hlanes] at this
  · cases hstep

theorem Inv.step {a : Action Thread Stream} (hstep : s.step lane a = some s') : s'.Inv := by
  cases a with
  | take th => exact h.take hstep
  | abandon th =>
    cases hstep
    exact h.client rfl le_rfl { h.numbered with } h.issued rfl rfl rfl
      (fun _ _ _ hth => (update_eq_of_ne hth nofun).2) fun _ hb => .inl hb
  | start th op => exact h.start hstep
  | issue th => exact h.issue hstep
  | send th => exact h.send hstep
  | publish th => exact h.publish hstep
  | dispatch i =>
    simp only [Fence.step] at hstep
    split at hstep
    · split at hstep <;> cases hstep
      · exact h.stopLane i
      · exact h.dispatchFrame (by assumption) (by assumption)
    · cases hstep
  | wake i =>
    simp only [Fence.step] at hstep
    split at hstep
    · rename_i published hphase
      split at hstep
      · cases hstep
        exact h.markClosed.stopLane i
      · obtain ⟨hserving, rfl⟩ := of_guarded hstep
        refine h.setLane i (.of_holds rfl (List.Subset.refl _) fun t ht => .inl ?_)
        have ht' : t < published := by simpa [hphase] using ht
        exact h.counted.serving t (by omega)
    · cases hstep
  | «begin» i =>
    simp only [Fence.step] at hstep
    split at hstep
    · rename_i hphase
      split at hstep <;> cases hstep
      · exact h.stopLane i
      · refine h.setLane i (.of_holds rfl (List.Subset.refl _) fun t ht => .inr ?_)
        simpa [hphase] using ht
    · cases hstep
  | finish i => exact h.finish hstep
  | respond i =>
    simp only [Fence.step] at hstep
    split at hstep
    · rename_i hphase
      cases hstep
      refine h.setLane i (.of_holds rfl (List.Subset.refl _) fun t ht => ?_)
      simp [hphase] at ht
    · cases hstep
  | close =>
    cases hstep
    exact h.markClosed

end

theorem Inv.of_reachable (h : Reachable (Fence.step lane) initial s) : s.Inv :=
  h.invariant (fun _ _ _ hs hstep => hs.step hstep) inv_initial

/-- **Asynchronous fence ordering.** When `rpc_dispatch` returns the request of call `n`, every
ticket published before call `n` loaded the published count has ended, in every interleaving. -/
theorem dispatched_after_published {s : Fence Thread Stream}
    (h : Reachable (Fence.step lane) initial s) {before after : List Event} {n t : ℕ}
    (hlog : s.log = before ++ .dispatched n :: after)
    (hpub : Precedes (.published t) (.took n) s.log) : .ended t ∈ before :=
  (Inv.of_reachable h).dispatched before n after hlog t hpub

/-- Two lanes: the second thread starts after the first one published ticket `0`, so its lane
waits at a marker until the handler on the first lane has ended. -/
theorem dispatched_after_published_on_second_lane :
    ∃ s : Fence Bool Bool, Reachable (Fence.step id) initial s ∧
      s.log = [.took 0, .published 0, .took 1, .dispatched 0, .ended 0] ++ [.dispatched 1] ∧
      .ended 0 ∈ [Event.took 0, .published 0, .took 1, .dispatched 0, .ended 0] := by
  have hrun : ∃ s : Fence Bool Bool, Reachable (step id) initial s ∧
      s.log = [.took 0, .published 0, .took 1, .dispatched 0, .ended 0] ++ [.dispatched 1] :=
    ⟨_, ⟨[.take false, .start false 7, .issue false, .send false, .publish false, .take true,
      .start true 8, .send true, .publish true, .dispatch false, .begin false, .dispatch true,
      .finish false, .wake true, .dispatch true], rfl⟩, rfl⟩
  obtain ⟨s, hs, hlog⟩ := hrun
  have hpub : Precedes (.published 0) (.took 1) s.log :=
    ⟨[.took 0, .published 0], [.dispatched 0, .ended 0, .dispatched 1], hlog, by decide⟩
  exact ⟨s, hs, hlog, dispatched_after_published hs hlog hpub⟩

/-- A ticket has its own request id: the 64-bit counter cannot wrap while `request_id` is in the
range of an `int`. -/
theorem issued_le_requestId (h : Reachable (Fence.step lane) initial s) :
    2 * s.client.issuedAsyncSequence ≤ s.client.requestId :=
  (Inv.of_reachable h).numbered.issued_le

omit [DecidableEq Thread] in
/-- The server takes every frame that this client writes while its ids are in range. -/
theorem Inv.dispatchFrame_server (h : s.Inv) (hle : s.client.requestId ≤ intMax) {rest : List Frame}
    (hf : (s.server.lanes i).frames = f :: rest) :
    ∃ l, (s.dispatchFrame i rest f).server = s.server.setLane i l := by
  have haccepted := h.accepted hle i f (by simp [hf])
  cases f with
  | marker op published =>
    obtain rfl : op = 0 := haccepted
    exact ⟨_, rfl⟩
  | request id op sequence call =>
    obtain ⟨hge, heven⟩ : 2 ≤ id ∧ id % 2 = 0 := haccepted
    rw [Fence.dispatchFrame, if_neg (by omega)]
    exact ⟨_, rfl⟩

/-- Only `close` closes a connection whose ids are in range. -/
theorem Inv.open_step {a : Action Thread Stream} (h : s.Inv) (ha : a ≠ .close)
    (hle : s.client.requestId ≤ intMax)
    (hopen : s.server.closed = false ∧ s.server.asyncCancelled = false)
    (hstep : s.step lane a = some s') :
    s'.server.closed = false ∧ s'.server.asyncCancelled = false := by
  obtain ⟨hclosed, hcancelled⟩ := hopen
  cases a with
  | close => exact absurd rfl ha
  | dispatch i =>
    simp only [Fence.step, hclosed, Bool.false_eq_true, if_false] at hstep
    split at hstep <;> cases hstep
    obtain ⟨l, hl⟩ := h.dispatchFrame_server hle (by assumption)
    rw [hl]
    exact ⟨hclosed, hcancelled⟩
  | finish i =>
    simp only [Fence.step, sequenceEnd] at hstep
    split at hstep <;> cases hstep
    split_ifs <;> exact ⟨hclosed, hcancelled⟩
  | _ =>
    simp only [Fence.step, hclosed, hcancelled, Bool.false_eq_true, if_false] at hstep
    repeat' split at hstep
    all_goals cases hstep
    all_goals exact ⟨hclosed, hcancelled⟩

theorem requestId_le_step {a : Action Thread Stream} (hstep : s.step lane a = some s') :
    s.client.requestId ≤ s'.client.requestId := by
  cases a with
  | start th op =>
    simp only [Fence.step] at hstep
    split at hstep <;> cases hstep
    exact le_add_right _ _
  | dispatch i =>
    simp only [Fence.step] at hstep
    repeat' split at hstep
    all_goals cases hstep
    · exact le_rfl
    · unfold Fence.dispatchFrame
      repeat' split
      all_goals exact le_rfl
  | _ =>
    simp only [Fence.step] at hstep
    repeat' split at hstep
    all_goals cases hstep
    all_goals exact le_rfl

/-- **The server goes on.** In every run in which nothing else closes the connection and the client
starts fewer than `2 ^ 30` requests, it stays open: the server takes every frame of this client. -/
theorem open_unless_closed {as : List (Action Thread Stream)}
    (hrun : exec (Fence.step lane) initial as = some s) (has : .close ∉ as)
    (hle : s.client.requestId ≤ intMax) : s.server.closed = false :=
  ((exec_invariant_along (I := fun s => s.Inv ∧ (s.client.requestId ≤ intMax →
      s.server.closed = false ∧ s.server.asyncCancelled = false))
    (fun _ _ _ h ha hstep => ⟨h.1.step hstep, fun hle =>
      have hle := (Int.ofNat_le.mpr (requestId_le_step hstep)).trans hle
      h.1.open_step ha hle (h.2 hle) hstep⟩) ⟨inv_initial, fun _ => ⟨rfl, rfl⟩⟩
    (Along.of_forall (fun _ ha => ne_of_mem_of_not_mem ha has) _) hrun).2 hle).1

theorem open_unless_closed_one_request : ∃ s : Fence Unit Unit,
    s.log = [.took 0, .dispatched 0] ∧ s.server.closed = false :=
  ⟨_, rfl, open_unless_closed (rfl : exec (Fence.step id) initial [.take (), .start () 7,
    .send (), .publish (), .dispatch ()] = some _) (by simp) (by decide)⟩

end Step

end Fence

end Lupine.Rpc
