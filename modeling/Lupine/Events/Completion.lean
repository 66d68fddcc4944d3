import Lupine.Events.Table
import Lupine.Foundations.Execution
import Lupine.Foundations.Update

/-!
# Event completion answers

Threads of a client that record, query and destroy events, over one table: `cuEventRecord`,
`cuEventQuery` and `cuEventDestroy_v2` of `cuda_client.cpp`. A record takes its stamp before the
mutex; a query reads stamps, asks the server, and caches the answers under the stamps it has read.
The server may answer anything, and connections may fail. The lifecycle mutex, which keeps a destroy
away from queries, is left out: nothing here needs it.

* `Client.answers_are_current`: a query is answered locally only if a query that began after the
  latest record of the event, or its destruction, has reported its completion; nothing else is ever
  cached; an event has at most one slot; and a slot that changes hands is not complete.
-/

namespace Lupine.Events

open Foundations Function List Nat

/-! ## Threads -/

variable {results : List Result}

/-- Where a thread is in a record or a query. -/
inductive Phase (Event : Type)
  | idle
  /-- `cuEventRecord` has taken its stamp. -/
  | recording (event : Option Event) (record : ℕ)
  /-- `lupine_event_query_needed` has read the semaphore. -/
  | asking (event : Option Event) (copiesOwed : Bool)
  /-- The query has to reach the server. -/
  | needed (event : Option Event) (record : ℕ)
  /-- Other events ride along. -/
  | collected (batch : List (Stamped Event))
  /-- The request is on its way. -/
  | waiting (batch : List (Stamped Event))
  | replied (batch : List (Stamped Event)) (results : List Result)

/-- The steps of a thread. -/
inductive Op (Event : Type)
  | record (event : Option Event)
  | invalidate
  | forget (event : Option Event)
  | ask (event : Option Event)
  | look
  | collect (resolves : Event → Bool)
  | send
  | reply (results : List Result)
  | cache
  | abandon

/-- A step of a thread or of the copies. -/
inductive Action (Thread Event : Type)
  | run (thread : Thread) (op : Op Event)
  /-- Deferred copies are issued or delivered. -/
  | owe (semaphore : ℕ)

/-- What is observed of a run. -/
inductive Entry (Thread Event : Type)
  /-- `lupine_event_invalidate_completion` or `lupine_event_forget` has had its turn. -/
  | invalidated (event : Option Event)
  /-- A query of these events is sent to the server. -/
  | began (thread : Thread) (events : List (Option Event))
  /-- The server reports that the event is complete. -/
  | completed (thread : Thread) (event : Option Event)
  /-- `lupine_event_query_needed` has returned false. -/
  | answered (event : Option Event)
  deriving DecidableEq

variable {Thread Event : Type}

namespace Phase

/-- A stamp that is not in the table yet. -/
def stamp : Phase Event → Option ℕ
  | recording _ record => some record
  | _ => none

/-- The events that a query is about, with their stamps. -/
def entries : Phase Event → List (Stamped Event)
  | needed event record => [(event, record)]
  | collected batch | waiting batch | replied batch _ => batch
  | _ => []

/-- A query that the server has got, and what it has answered. -/
def query : Phase Event → Option (List (Stamped Event) × List Result)
  | waiting batch => some (batch, [])
  | replied batch results => some (batch, results)
  | _ => none

end Phase

variable {t : Thread} {batch : List (Stamped Event)}
variable {l log : List (Entry Thread Event)}

/-- A client. `log` is only observed. -/
structure Client (Thread Event : Type) where
  table : Table Event
  threads : Thread → Phase Event
  log : List (Entry Thread Event)

namespace Client

variable {s' : Client Thread Event}

def initial : Client Thread Event := ⟨.empty, fun _ => .idle, []⟩

abbrev slots (s : Client Thread Event) : Slots Event := s.table.slots

abbrev recordSeq (s : Client Thread Event) : ℕ := s.table.recordSeq

/-- What the replies to a query report. -/
def reports (thread : Thread) (answers : List (Stamped Event × Result)) :
    List (Entry Thread Event) :=
  (answers.filter fun answer => answer.2 = .success).map fun answer =>
    .completed thread answer.1.1

section Step

variable [DecidableEq Thread]

def next (s : Client Thread Event) (t : Thread) (phase : Phase Event) (slots : Slots Event)
    (recordSeq : ℕ) (log : List (Entry Thread Event)) : Client Thread Event :=
  ⟨⟨slots, recordSeq, s.table.staleSemaphore⟩, update s.threads t phase, s.log ++ log⟩

variable [DecidableEq Event]

def act (s : Client Thread Event) (t : Thread) (op : Op Event) : Option (Client Thread Event) :=
  match op, s.threads t with
  | .record event, .idle =>
    some (s.next t (.recording event (s.recordSeq + 1)) s.slots (s.recordSeq + 1) [])
  | .invalidate, .recording event record =>
    some (s.next t .idle (invalidateCompletion s.slots event record) s.recordSeq
      [.invalidated event])
  | .forget event, .idle =>
    some (s.next t .idle (forget s.slots event) s.recordSeq [.invalidated event])
  | .ask event, .idle =>
    some (s.next t (.asking event (s.table.staleSemaphore ≠ 0)) s.slots s.recordSeq [])
  | .look, .asking event copiesOwed =>
    if (queryNeeded s.slots event copiesOwed).1 then
      some (s.next t (.needed event (queryNeeded s.slots event copiesOwed).2) s.slots s.recordSeq
        [])
    else some (s.next t .idle s.slots s.recordSeq [.answered event])
  | .collect resolves, .needed event record =>
    some (s.next t (.collected ((event, record) :: collectQueryBatch s.slots event resolves))
      s.slots s.recordSeq [])
  | .send, .collected batch =>
    some (s.next t (.waiting batch) s.slots s.recordSeq [.began t (batch.map Prod.fst)])
  | .reply results, .waiting batch =>
    some (s.next t (.replied batch results) s.slots s.recordSeq (reports t (batch.zip results)))
  | .cache, .replied batch results =>
    some (s.next t .idle (cacheCompletions s.slots (batch.zip results)) s.recordSeq [])
  -- the connection fails
  | .abandon, .needed _ _ | .abandon, .collected _ | .abandon, .waiting _ =>
    some (s.next t .idle s.slots s.recordSeq [])
  | _, _ => none

def step (s : Client Thread Event) : Action Thread Event → Option (Client Thread Event)
  | .run t op => s.act t op
  | .owe semaphore => some { s with table := { s.table with staleSemaphore := semaphore } }

end Step

/-! ## Freshness -/

/-- Thread `t` has begun a query of these events, and `since` is what was observed then. -/
def Began (log : List (Entry Thread Event)) (t : Thread) (events : List (Option Event))
    (since : List (Entry Thread Event)) : Prop :=
  ∃ before, log = before ++ .began t events :: since

/-- A query of the event that thread `t` began after the event was last recorded or destroyed has
reported its completion. -/
def FreshBy (log : List (Entry Thread Event)) (t : Thread) (event : Event) : Prop :=
  ∃ events since, Began log t events since ∧ some event ∈ events ∧
    .completed t (some event) ∈ since ∧ .invalidated (some event) ∉ since

/-- A query of the event that some thread began so has reported its completion. -/
def Fresh (log : List (Entry Thread Event)) (event : Event) : Prop := ∃ t, FreshBy log t event

theorem Began.append {events : List (Option Event)} {since : List (Entry Thread Event)}
    (h : Began log t events since) (l : List (Entry Thread Event)) :
    Began (log ++ l) t events (since ++ l) := by
  obtain ⟨before, rfl⟩ := h
  exact ⟨before, by rw [append_assoc, cons_append]⟩

/-- Freshness ends with the next record, or with the event. -/
theorem Fresh.append {event : Event} (h : Fresh log event) (hl : .invalidated (some event) ∉ l) :
    Fresh (log ++ l) event := by
  obtain ⟨t, events, since, hbegan, hmem, hcompleted, hinvalidated⟩ := h
  refine ⟨t, events, since ++ l, hbegan.append l, hmem, mem_append_left _ hcompleted, ?_⟩
  rw [mem_append, not_or]
  exact ⟨hinvalidated, hl⟩

/-! ## Invariant -/

/-- The stamp is new: only this thread has it. -/
structure Unused (s : Client Thread Event) (t : Thread) (record : ℕ) : Prop where
  pos : 0 < record
  le : record ≤ s.recordSeq
  slots : ∀ i, (s.slots i).record ≠ record
  entries : ∀ t', ∀ x ∈ (s.threads t').entries, x.2 ≠ record
  stamps : ∀ t', (s.threads t').stamp = some record → t' = t

/-- A thread has asked the server. The events whose stamps are still in the table have not been
recorded since, and what the server has answered is on record. -/
def Asked (slots : Slots Event) (log : List (Entry Thread Event)) (t : Thread)
    (batch : List (Stamped Event)) (results : List Result) : Prop :=
  ∃ since, Began log t (batch.map Prod.fst) since ∧
    (∀ x ∈ batch, ∀ event, x.1 = some event → slots.Held event x.2 →
      .invalidated (some event) ∉ since) ∧
    ∀ answer ∈ batch.zip results, answer.2 = .success → .completed t answer.1.1 ∈ since

/-- Slots and answers are fresh: no record or destruction came after the completion. -/
structure Inv (s : Client Thread Event) : Prop where
  unique : ∀ event i j, (s.slots i).event = some event → (s.slots j).event = some event → i = j
  current : ∀ event i, (s.slots i).event = some event → (s.slots i).complete = true →
    Fresh s.log event
  answers : ∀ event before after, s.log = before ++ .answered (some event) :: after →
    Fresh before event
  slots_le : ∀ i, (s.slots i).record ≤ s.recordSeq
  entries_le : ∀ t, ∀ x ∈ (s.threads t).entries, x.2 ≤ s.recordSeq
  stamps : ∀ t record, (s.threads t).stamp = some record → s.Unused t record
  asked : ∀ t batch results, (s.threads t).query = some (batch, results) →
    Asked s.slots s.log t batch results

theorem inv_initial : (initial : Client Thread Event).Inv where
  unique _ _ _ h := nomatch h
  current _ _ h := nomatch h
  answers event before after h := by
    cases before <;> cases h
  slots_le _ := le_refl 0
  entries_le _ x hx := absurd hx not_mem_nil
  stamps _ _ h := nomatch h
  asked _ _ _ h := nomatch h

theorem entries_of_query {phase : Phase Event} (h : phase.query = some (batch, results)) :
    phase.entries = batch := by
  cases phase <;> cases h <;> rfl

/-- What a query has asked for stays so, if stamps only disappear from the table and the events
that keep theirs are not recorded. -/
theorem Asked.append {slots slots' : Slots Event} (h : Asked slots log t batch results)
    (hkeep : ∀ x ∈ batch, ∀ event, x.1 = some event → slots'.Held event x.2 →
      slots.Held event x.2 ∧ .invalidated (some event) ∉ l) :
    Asked slots' (log ++ l) t batch results := by
  obtain ⟨since, hbegan, hheld, hcompleted⟩ := h
  refine ⟨since ++ l, hbegan.append l, fun x hx event hevent hslot => ?_, fun answer ha hs =>
    mem_append_left _ (hcompleted answer ha hs)⟩
  obtain ⟨hold, hl⟩ := hkeep x hx event hevent hslot
  rw [mem_append, not_or]
  exact ⟨hheld x hx event hevent hold, hl⟩

/-- What a thread caches is fresh: stamps that are still in the table were not replaced since. -/
theorem Inv.freshBy_of_cached {s : Client Thread Event} (h : s.Inv)
    (hphase : s.threads t = .replied batch results) {event : Event} {i : Index}
    (hevent : (s.slots i).event = some event)
    (hmem : (((s.slots i).event, (s.slots i).record), Result.success) ∈ batch.zip results) :
    FreshBy s.log t event := by
  obtain ⟨since, hbegan, hheld, hcompleted⟩ := h.asked t batch results (by rw [hphase]; rfl)
  have hbatch := (of_mem_zip hmem).1
  have hreport := hcompleted _ hmem rfl
  rw [hevent] at hbatch hreport
  exact ⟨_, since, hbegan, mem_map.mpr ⟨_, hbatch, rfl⟩, hreport,
    hheld _ hbatch event rfl ⟨i, hevent, rfl⟩⟩

/-- A step that is not an answer leaves the answers alone. -/
theorem Inv.answers_append {s : Client Thread Event} (h : s.Inv) (hl : ∀ event, .answered event ∉ l)
    (event : Event) (before after : List (Entry Thread Event))
    (heq : s.log ++ l = before ++ .answered (some event) :: after) : Fresh before event := by
  obtain ⟨after', -, heq⟩ := append_eq_append_cons (hl _) heq
  exact h.answers event before after' heq

theorem mem_reports {answers : List (Stamped Event × Result)} {answer : Stamped Event × Result}
    (hmem : answer ∈ answers) (hsuccess : answer.2 = .success) :
    .completed t answer.1.1 ∈ reports t answers :=
  mem_map.mpr ⟨answer, mem_filter.mpr ⟨hmem, by simpa using hsuccess⟩, rfl⟩

theorem not_mem_reports {answers : List (Stamped Event × Result)} (event : Option Event) :
    .invalidated event ∉ reports t answers ∧ .answered event ∉ reports t answers := by
  simp [reports]

/-- What a thread may have in its next phase: entries that it has read in the table or has had
before, the next stamp, and a query that it has asked. -/
structure Enters (s : Client Thread Event) (t : Thread) (phase : Phase Event)
    (slots' : Slots Event) (recordSeq' : ℕ) (log : List (Entry Thread Event)) : Prop where
  entries : ∀ x ∈ phase.entries,
    (∃ i, (s.slots i).record = x.2) ∨ x.2 = 0 ∨ x ∈ (s.threads t).entries
  seq : s.recordSeq ≤ recordSeq'
  stamp : ∀ record, phase.stamp = some record → record = s.recordSeq + 1 ∧ record ≤ recordSeq'
  asked : ∀ batch results, phase.query = some (batch, results) →
    Asked slots' log t batch results

section Steps

variable [DecidableEq Thread] {s : Client Thread Event} {t : Thread} {phase : Phase Event}
  {slots' : Slots Event} {recordSeq' : ℕ} {l : List (Entry Thread Event)}

/-- The state after a step is as before where the step does not reach. What comes into the table is
the stamp of the thread. -/
theorem Inv.next (h : s.Inv)
    (hunique : ∀ event i j, (slots' i).event = some event → (slots' j).event = some event → i = j)
    (hcurrent : ∀ event i, (slots' i).event = some event → (slots' i).complete = true →
      Fresh (s.log ++ l) event)
    (hanswers : ∀ event before after, s.log ++ l = before ++ .answered (some event) :: after →
      Fresh before event)
    (hrecord : ∀ i, (∃ j, (slots' i).record = (s.slots j).record) ∨ (slots' i).record = 0 ∨
      (s.threads t).stamp = some (slots' i).record)
    (hheld : ∀ event record, slots'.Held event record →
      s.slots.Held event record ∧ .invalidated (some event) ∉ l ∨
        (s.threads t).stamp = some record)
    (hphase : s.Enters t phase slots' recordSeq' (s.log ++ l)) :
    (s.next t phase slots' recordSeq' l).Inv := by
  obtain ⟨hentries, hseq, hstamp, hasked⟩ := hphase
  have hthreads : ∀ t', t' = t ∧ (s.next t phase slots' recordSeq' l).threads t' = phase ∨
      t' ≠ t ∧ (s.next t phase slots' recordSeq' l).threads t' = s.threads t' :=
    update_cases s.threads t phase
  have hslots_le : ∀ i, (slots' i).record ≤ s.recordSeq := by
    intro i
    rcases hrecord i with ⟨j, heq⟩ | heq | heq
    · rw [heq]
      exact h.slots_le j
    · omega
    · exact (h.stamps t _ heq).le
  have hentries_le : ∀ t', ∀ x ∈ ((s.next t phase slots' recordSeq' l).threads t').entries,
      x.2 ≤ s.recordSeq := by
    intro t' x hx
    rcases hthreads t' with ⟨-, heq⟩ | ⟨-, heq⟩ <;> rw [heq] at hx
    · rcases hentries x hx with ⟨i, hi⟩ | hzero | hold
      · rw [← hi]
        exact h.slots_le i
      · omega
      · exact h.entries_le t x hold
    · exact h.entries_le t' x hx
  refine ⟨hunique, hcurrent, hanswers, fun i => le_trans (hslots_le i) hseq,
    fun t' x hx => le_trans (hentries_le t' x hx) hseq, fun t' record hr => ?_,
    fun t' batch results hq => ?_⟩
  · rcases hthreads t' with ⟨rfl, heq⟩ | ⟨hne, heq⟩ <;> rw [heq] at hr
    · -- the next stamp is larger than all others
      obtain ⟨rfl, hle⟩ := hstamp record hr
      refine ⟨succ_pos _, hle, fun i hi => ?_, fun t'' x hx hi => ?_, fun t'' hr' => ?_⟩
      · exact not_succ_le_self _ (hi ▸ hslots_le i)
      · exact not_succ_le_self _ (hi ▸ hentries_le t'' x hx)
      · rcases hthreads t'' with ⟨heq', -⟩ | ⟨-, heq'⟩
        · exact heq'
        · rw [heq'] at hr'
          exact absurd (h.stamps t'' _ hr').le (not_succ_le_self _)
    · have hu := h.stamps t' record hr
      refine ⟨hu.pos, le_trans hu.le hseq, fun i => ?_, fun t'' x hx => ?_, fun t'' hr' => ?_⟩
      · change (slots' i).record ≠ record
        grind [Unused]
      · grind [Unused]
      · grind [Unused]
  · rcases hthreads t' with ⟨rfl, heq⟩ | ⟨-, heq⟩ <;> rw [heq] at hq
    · exact hasked batch results hq
    · refine (h.asked t' batch results hq).append fun x hx event _ hslot => ?_
      rcases hheld event x.2 hslot with hold | hnew
      · exact hold
      · -- no query has a stamp that is not in the table yet
        exact absurd rfl ((h.stamps t _ hnew).entries t' x (by rwa [entries_of_query hq]))

/-- A step that leaves the slots alone or empties some. -/
theorem Inv.quiet (h : s.Inv) (hslots : ∀ i, slots' i = s.slots i ∨ slots' i = .empty)
    (hl : ∀ event i, (slots' i).event = some event → .invalidated (some event) ∉ l)
    (hanswers : ∀ event before after, s.log ++ l = before ++ .answered (some event) :: after →
      Fresh before event)
    (hphase : s.Enters t phase slots' recordSeq' (s.log ++ l)) :
    (s.next t phase slots' recordSeq' l).Inv := by
  have hkept : ∀ event i, (slots' i).event = some event → slots' i = s.slots i := by
    intro event i hevent
    rcases hslots i with heq | heq
    · exact heq
    · rw [heq] at hevent
      cases hevent
  refine h.next (fun event i j hi hj => ?_) (fun event i hi hcomplete => ?_) hanswers
    (fun i => ?_) (fun event record hheld => ?_) hphase
  · grind [h.unique]
  · have heq := hkept event i hi
    have hnot := hl event i hi
    rw [heq] at hi hcomplete
    exact (h.current event i hi hcomplete).append hnot
  · grind [Slot.empty]
  · obtain ⟨i, hi, hr⟩ := hheld
    have heq := hkept event i hi
    have hnot := hl event i hi
    rw [heq] at hi hr
    exact .inl ⟨⟨i, hi, hr⟩, hnot⟩

variable [DecidableEq Event]

/-- A record has its turn. The slot it takes is the only one for its event. -/
theorem Inv.invalidate (h : s.Inv) {event : Option Event} {record : ℕ}
    (hphase : s.threads t = .recording event record) :
    (s.next t .idle (invalidateCompletion s.slots event record) s.recordSeq
      [.invalidated event]).Inv := by
  obtain ⟨i, hupdate, hi⟩ := invalidateCompletion_eq_update s.slots event record
  have hslots : ∀ j, j = i ∧ invalidateCompletion s.slots event record j =
        ⟨event, record, false⟩ ∨
      j ≠ i ∧ invalidateCompletion s.slots event record j = s.slots j :=
    hupdate ▸ update_cases s.slots i _
  have hother : ∀ j, j ≠ i → ∀ e, (s.slots j).event = some e → event ≠ some e := by
    rintro j hj e hevent rfl
    rcases hi with hi | hi
    · exact hj (h.unique e j i hevent hi)
    · exact hi j hevent
  have hnot : ∀ j, j ≠ i → ∀ e, (s.slots j).event = some e →
      .invalidated (some e) ∉ [(.invalidated event : Entry Thread Event)] := by
    intro j hj e hevent hmem
    injection mem_singleton.mp hmem with heq
    exact hother j hj e hevent heq.symm
  have hstamp : (s.threads t).stamp = some record := by rw [hphase]; rfl
  refine h.next (fun e j k hj hk => ?_) (fun e j hevent hcomplete => ?_)
    (h.answers_append (by simp)) (fun j => ?_) (fun e r hheld => ?_)
    ⟨nofun, le_refl _, nofun, nofun⟩
  · rcases hslots j with ⟨hji, heq⟩ | ⟨hji, heq⟩ <;>
      rcases hslots k with ⟨hki, heq'⟩ | ⟨hki, heq'⟩ <;> rw [heq] at hj <;> rw [heq'] at hk
    · rw [hji, hki]
    · exact absurd hj (hother k hki e hk)
    · exact absurd hk (hother j hji e hj)
    · exact h.unique e j k hj hk
  · rcases hslots j with ⟨-, heq⟩ | ⟨hji, heq⟩ <;> rw [heq] at hevent hcomplete
    · cases hcomplete
    · exact (h.current e j hevent hcomplete).append (hnot j hji e hevent)
  · rcases hslots j with ⟨-, heq⟩ | ⟨-, heq⟩ <;> rw [heq]
    · exact .inr (.inr hstamp)
    · exact .inl ⟨j, rfl⟩
  · obtain ⟨j, hj, hr⟩ := hheld
    rcases hslots j with ⟨-, heq⟩ | ⟨hji, heq⟩ <;> rw [heq] at hj hr
    · exact .inr (hstamp.trans (congrArg some hr))
    · exact .inl ⟨⟨j, hj, hr⟩, hnot j hji e hj⟩

/-- The answers of a query are cached. -/
theorem Inv.cache (h : s.Inv) (hphase : s.threads t = .replied batch results) :
    (s.next t .idle (cacheCompletions s.slots (batch.zip results)) s.recordSeq []).Inv := by
  have hslots := caches_cacheCompletions s.slots (batch.zip results)
  refine h.next (fun e j k hj hk => ?_) (fun e j hevent hcomplete => ?_)
    (h.answers_append fun _ => not_mem_nil) (fun j => .inl ⟨j, (hslots j).2.1⟩)
    (fun e r hheld => .inl ⟨?_, not_mem_nil⟩) ⟨nofun, le_refl _, nofun, nofun⟩
  · rw [(hslots j).1] at hj
    rw [(hslots k).1] at hk
    exact h.unique e j k hj hk
  · rw [(hslots j).1] at hevent
    rw [append_nil]
    rcases (hslots j).2.2 hcomplete with hold | hnew
    · exact h.current e j hevent hold
    · exact ⟨t, h.freshBy_of_cached hphase hevent hnew⟩
  · obtain ⟨j, hj, hr⟩ := hheld
    rw [(hslots j).1] at hj
    rw [(hslots j).2.1] at hr
    exact ⟨j, hj, hr⟩

theorem Inv.act (h : s.Inv) {op : Op Event} (hstep : s.act t op = some s') : s'.Inv := by
  have hsame : ∀ i, s.slots i = s.slots i ∨ s.slots i = .empty := fun i => .inl rfl
  have hnone : ∀ event, Entry.answered event ∉ ([] : List (Entry Thread Event)) :=
    fun _ => not_mem_nil
  have hidle : (s.next t .idle s.slots s.recordSeq []).Inv :=
    h.quiet hsame (by simp) (h.answers_append hnone) ⟨nofun, le_refl _, nofun, nofun⟩
  unfold Client.act at hstep
  split at hstep
  · -- a stamp is taken
    cases hstep
    exact h.quiet hsame (by simp) (h.answers_append hnone)
      ⟨nofun, le_succ _, fun r hr => by cases hr; exact ⟨rfl, le_refl _⟩, nofun⟩
  · cases hstep
    exact h.invalidate ‹_›
  · cases hstep
    refine h.quiet (forget_eq_or s.slots _) (fun e i hevent => ?_) (h.answers_append (by simp))
      ⟨nofun, le_refl _, nofun, nofun⟩
    -- a slot that is left is for another event
    unfold forget at hevent
    split at hevent
    · cases hevent
    · rename_i hother
      simpa [← hevent] using hother
  · cases hstep
    exact h.quiet hsame (by simp) (h.answers_append hnone) ⟨nofun, le_refl _, nofun, nofun⟩
  · rename_i event copiesOwed hphase
    split at hstep <;> cases hstep
    · -- the query has to reach the server
      refine h.quiet hsame (by simp) (h.answers_append hnone)
        ⟨fun x hx => ?_, le_refl _, nofun, nofun⟩
      obtain rfl := mem_singleton.mp hx
      rcases queryNeeded_cases s.slots event copiesOwed with heq | ⟨i, -, heq⟩
      · exact .inr (.inl (by rw [heq]))
      · exact .inl ⟨i, by rw [heq]⟩
    · rename_i hneeded
      refine h.quiet hsame (by simp) (fun e before after heq => ?_) ⟨nofun, le_refl _, nofun, nofun⟩
      rcases concat_eq_append_cons heq with ⟨-, rfl, hentry⟩ | ⟨after', -, heq⟩
      · injection hentry with hentry
        obtain ⟨-, i, hevent, hcomplete⟩ :=
          complete_of_queryNeeded (Bool.not_eq_true _ ▸ hneeded)
        exact h.current e i (hevent.trans hentry) hcomplete
      · exact h.answers e before after' heq
  · rename_i resolves event record hphase
    cases hstep
    refine h.quiet hsame (by simp) (h.answers_append hnone)
      ⟨fun x hx => ?_, le_refl _, nofun, nofun⟩
    rcases mem_cons.mp hx with rfl | hx
    · rw [hphase]
      exact .inr (.inr (mem_singleton_self _))
    · obtain ⟨i, -, hi⟩ := exists_of_mem_collect hx
      exact .inl ⟨i, hi⟩
  · rename_i batch hphase
    cases hstep
    refine h.quiet hsame (by simp) (h.answers_append (by simp))
      ⟨fun x hx => ?_, le_refl _, nofun, fun batch' results hq => ?_⟩
    · rw [hphase]
      exact .inr (.inr hx)
    · cases hq
      exact ⟨[], ⟨s.log, rfl⟩, fun _ _ _ _ _ => not_mem_nil, by simp⟩
  · rename_i results batch hphase
    cases hstep
    refine h.quiet hsame (fun _ _ _ => (not_mem_reports _).1)
      (h.answers_append fun event => (not_mem_reports event).2)
      ⟨fun x hx => ?_, le_refl _, nofun, fun batch' results' hq => ?_⟩
    · rw [hphase]
      exact .inr (.inr hx)
    · cases hq
      obtain ⟨since, hbegan, hheld, -⟩ := h.asked t batch [] (by rw [hphase]; rfl)
      refine ⟨since ++ reports t (batch.zip results), hbegan.append _, fun x hx e he hs => ?_,
        fun answer ha hsuccess => mem_append_right _ (mem_reports ha hsuccess)⟩
      rw [mem_append, not_or]
      exact ⟨hheld x hx e he hs, (not_mem_reports _).1⟩
  · cases hstep
    exact h.cache ‹_›
  · cases hstep
    exact hidle
  · cases hstep
    exact hidle
  · cases hstep
    exact hidle
  · cases hstep

theorem Inv.step (h : s.Inv) {a : Action Thread Event} (hstep : s.step a = some s') : s'.Inv := by
  cases a with
  | run t op => exact h.act hstep
  | owe semaphore =>
    cases hstep
    exact ⟨h.unique, h.current, h.answers, h.slots_le, h.entries_le,
      fun t r hr => ⟨(h.stamps t r hr).pos, (h.stamps t r hr).le, (h.stamps t r hr).slots,
        (h.stamps t r hr).entries, (h.stamps t r hr).stamps⟩, h.asked⟩

/-- A slot keeps its event, or it is not complete. -/
theorem act_slots {op : Op Event} (hstep : s.act t op = some s') (i : Index) :
    (s'.slots i).event = (s.slots i).event ∨ (s'.slots i).complete = false := by
  unfold Client.act at hstep
  split at hstep
  case h_2 event record _ =>
    cases hstep
    obtain ⟨j, hupdate, -⟩ := invalidateCompletion_eq_update s.slots event record
    rw [hupdate]
    rcases update_cases s.slots j ⟨event, record, false⟩ i with ⟨-, heq⟩ | ⟨-, heq⟩
    · exact .inr (congrArg Slot.complete heq)
    · exact .inl (congrArg Slot.event heq)
  case h_3 event _ =>
    cases hstep
    rcases forget_eq_or s.slots event i with heq | heq
    · exact .inl (congrArg Slot.event heq)
    · exact .inr (congrArg Slot.complete heq)
  case h_5 => split at hstep <;> cases hstep <;> exact .inl rfl
  case h_9 =>
    cases hstep
    exact .inl (caches_cacheCompletions s.slots _ i).1
  -- the others leave the slots alone, or are none
  all_goals
    cases hstep <;> exact .inl rfl

theorem act_cache (hstep : s.act t .cache = some s') :
    ∃ batch results, s.threads t = .replied batch results ∧
      s' = s.next t .idle (cacheCompletions s.slots (batch.zip results)) s.recordSeq [] := by
  cases hphase : s.threads t with
  | replied batch results =>
    simp only [act, hphase, Option.some.injEq] at hstep
    exact ⟨batch, results, rfl, hstep.symm⟩
  | _ => simp only [act, hphase, reduceCtorEq] at hstep

/-- What the table promises, in a state and in the next step. -/
structure Sound (s : Client Thread Event) : Prop where
  /-- Where `lupine_event_query_needed` has returned false, a query that began after the latest
  record or destruction had reported completion. -/
  answered : ∀ event before after, s.log = before ++ .answered (some event) :: after →
    Fresh before event
  /-- What a thread caches is from a query that it began after the latest record or destruction. -/
  cached : ∀ t s', s.step (.run t .cache) = some s' → ∀ event i,
    (s'.slots i).event = some event → (s'.slots i).complete = true →
      (s.slots i).complete = false → FreshBy s.log t event
  current : ∀ event i, (s.slots i).event = some event → (s.slots i).complete = true →
    Fresh s.log event
  /-- An event has one slot. -/
  unique : ∀ event i j, (s.slots i).event = some event → (s.slots j).event = some event → i = j
  /-- A slot that changes hands is not complete. -/
  reused : ∀ a s', s.step a = some s' → ∀ event i, (s'.slots i).event = some event →
    (s.slots i).event ≠ some event → (s'.slots i).complete = false

theorem Inv.sound (h : s.Inv) : s.Sound where
  answered := h.answers
  current := h.current
  unique := h.unique
  cached t s' hstep event i hevent hcomplete hbefore := by
    obtain ⟨batch, results, hphase, rfl⟩ := act_cache hstep
    obtain ⟨hsame, -, hanswer⟩ := caches_cacheCompletions s.slots (batch.zip results) i
    rcases hanswer hcomplete with hold | hnew
    · rw [hbefore] at hold
      cases hold
    · exact h.freshBy_of_cached hphase (hsame.symm.trans hevent) hnew
  reused a s' hstep event i hevent hother := by
    cases a with
    | run t op =>
      rcases act_slots hstep i with heq | hcomplete
      · exact absurd (heq.symm.trans hevent) hother
      · exact hcomplete
    | owe semaphore =>
      cases hstep
      exact absurd hevent hother

/-- **Event completion answers.** In every run of any number of threads. -/
theorem answers_are_current (as : List (Action Thread Event))
    (hrun : exec step initial as = some s) : s.Sound :=
  (exec_invariant (I := fun (s : Client Thread Event) => s.Inv) (fun _ _ _ h hstep => h.step hstep)
    inv_initial hrun).sound

end Steps

/-- Event 7 is recorded and queried, twice. -/
def twoQueries : List (Action Unit ℕ) :=
  [.run () (.record (some 7)), .run () .invalidate, .run () (.ask (some 7)), .run () .look,
    .run () (.collect fun _ => true), .run () .send, .run () (.reply [.success]), .run () .cache,
    .run () (.ask (some 7)), .run () .look]

/-- The second query is answered locally. -/
theorem answers_are_current_of_query :
    ∃ s, exec step initial twoQueries = some s ∧ .answered (some 7) ∈ s.log ∧ s.Sound :=
  ⟨_, rfl, by decide, answers_are_current twoQueries rfl⟩

end Client

end Lupine.Events
