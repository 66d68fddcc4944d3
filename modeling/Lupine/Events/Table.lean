import Mathlib.Data.List.FinRange
import Mathlib.Logic.Function.Basic

/-!
# The table of event completions

`events.cpp`: the client keeps, for a fixed number of events, the stamp of the current record and
whether it is known to be complete, so that it can answer queries without a round trip; and it
counts the deferred copies that the server still owes, because a query that is answered locally
does not collect any.

Each function here is what its counterpart does while it holds the mutex, with one lemma on what it
does to the slots or what it finds there. Stamps are taken before the mutex, by `fetch_add`. They
are numbers: a process does not record `2 ^ 64` times.
-/

namespace Lupine.Events

open Function List

/-- `kLupineEventQueryBatch`. -/
abbrev eventQueryBatch : ℕ := 16

abbrev Index := Fin eventQueryBatch

/-- A `CUresult`, as far as the client tells them apart. -/
inductive Result
  | success
  | notReady
  | error
  deriving DecidableEq

/-- `lupine_event_slot`. The null event is `none`. -/
structure Slot (Event : Type) where
  event : Option Event
  record : ℕ
  complete : Bool
  deriving DecidableEq

/-- `lupine_event_table`. -/
structure Table (Event : Type) where
  slots : Index → Slot Event
  recordSeq : ℕ
  staleSemaphore : ℕ

variable {Event : Type}

def Slot.empty : Slot Event := ⟨none, 0, false⟩

def Table.empty : Table Event := ⟨fun _ => .empty, 0, 0⟩

abbrev Slots (Event : Type) := Index → Slot Event

/-- An event and the stamp with which it is queried. -/
abbrev Stamped (Event : Type) := Option Event × ℕ

/-- Some slot has the event with this stamp. -/
def Slots.Held (slots : Slots Event) (event : Event) (record : ℕ) : Prop :=
  ∃ i, (slots i).event = some event ∧ (slots i).record = record

variable [DecidableEq Event]

/-! ## Recording -/

/-- The loop of `lupine_event_invalidate_completion`, over the slots that are left. -/
def invalidateFrom (slots : Slots Event) (event : Option Event) (record : ℕ) :
    Index → List Index → Slots Event
  | victim, [] => update slots victim ⟨event, record, false⟩
  | victim, i :: rest =>
    if (slots i).event = event then
      update slots i ⟨(slots i).event, record, false⟩
    else if (slots i).record < (slots victim).record then invalidateFrom slots event record i rest
    else invalidateFrom slots event record victim rest

section

variable (slots : Slots Event)

section

variable (event : Option Event) (record : ℕ)

/-- `lupine_event_invalidate_completion`, with a stamp. -/
def invalidateCompletion : Slots Event :=
  invalidateFrom slots event record 0 (List.finRange eventQueryBatch)

theorem invalidateFrom_eq_update {slots : Slots Event} {event : Option Event} {record : ℕ}
    {victim : Index} {rest : List Index}
    (hrest : ∀ j, j ∈ rest ∨ (slots j).event ≠ event) :
    ∃ i, invalidateFrom slots event record victim rest =
        update slots i ⟨event, record, false⟩ ∧
      ((slots i).event = event ∨ ∀ j, (slots j).event ≠ event) := by
  induction rest generalizing victim with
  | nil => exact ⟨victim, rfl, .inr fun j => (hrest j).resolve_left not_mem_nil⟩
  | cons i rest ih =>
    rw [invalidateFrom]
    split
    · rename_i hevent
      exact ⟨i, by rw [hevent], .inl hevent⟩
    · rename_i hevent
      have hrest' : ∀ j, j ∈ rest ∨ (slots j).event ≠ event := by
        intro j
        rcases hrest j with hj | hj
        · rcases mem_cons.mp hj with rfl | hj
          · exact .inr hevent
          · exact .inl hj
        · exact .inr hj
      split
      · exact ih hrest'
      · exact ih hrest'

/-- The event gets a slot with the stamp: the one it had, or that of another event if it had
none. -/
theorem invalidateCompletion_eq_update :
    ∃ i, invalidateCompletion slots event record =
        update slots i ⟨event, record, false⟩ ∧
      ((slots i).event = event ∨ ∀ j, (slots j).event ≠ event) :=
  invalidateFrom_eq_update fun j => .inl (mem_finRange j)

/-! ## Destruction -/

/-- `lupine_event_forget`. -/
def forget : Slots Event := fun i =>
  if (slots i).event = event then .empty else slots i

theorem forget_eq_or (i : Index) :
    forget slots event i = slots i ∨ forget slots event i = .empty := by
  unfold forget
  split
  · exact .inr rfl
  · exact .inl rfl

/-! ## Queries -/

/-- The loop of `lupine_event_query_needed`. -/
def queryNeededFrom (slots : Slots Event) (event : Option Event) (copiesOwed : Bool) :
    List Index → Bool × ℕ
  | [] => (true, 0)
  | i :: rest =>
    if (slots i).event ≠ event then queryNeededFrom slots event copiesOwed rest
    else (copiesOwed || !(slots i).complete, (slots i).record)

/-- `lupine_event_query_needed`, with what it has read of the semaphore: whether the query has to
reach the server, and the stamp. -/
def queryNeeded (copiesOwed : Bool) : Bool × ℕ :=
  queryNeededFrom slots event copiesOwed (List.finRange eventQueryBatch)

theorem queryNeeded_cases (copiesOwed : Bool) :
    queryNeeded slots event copiesOwed = (true, 0) ∨ ∃ i, (slots i).event = event ∧
      queryNeeded slots event copiesOwed =
        (copiesOwed || !(slots i).complete, (slots i).record) := by
  unfold queryNeeded
  induction List.finRange eventQueryBatch with
  | nil => exact .inl rfl
  | cons i rest ih =>
    rw [queryNeededFrom]
    split
    · exact ih
    · rename_i hevent
      exact .inr ⟨i, not_not.mp hevent, rfl⟩

end

/-- An answer without the server is that of a complete slot, while nothing was owed. -/
theorem complete_of_queryNeeded {slots : Slots Event} {event : Option Event} {copiesOwed : Bool}
    (h : (queryNeeded slots event copiesOwed).1 = false) :
    copiesOwed = false ∧ ∃ i, (slots i).event = event ∧ (slots i).complete = true := by
  rcases queryNeeded_cases slots event copiesOwed with heq | ⟨i, hevent, heq⟩
  · rw [heq] at h
    cases h
  · rw [heq] at h
    simp only [Bool.or_eq_false_iff, Bool.not_eq_false'] at h
    exact ⟨h.1, i, hevent, h.2⟩

/-- The loop of `lupine_event_collect_query_batch`; `resolves` compares the connection. -/
def collectFrom (slots : Slots Event) (exclude : Option Event) (resolves : Event → Bool) :
    ℕ → List Index → List (Stamped Event)
  | _, [] => []
  | count, i :: rest =>
    match (slots i).event with
    | none => collectFrom slots exclude resolves count rest
    | some event =>
      if some event = exclude ∨ (slots i).complete = true ∨ resolves event = false then
        collectFrom slots exclude resolves count rest
      else
        (some event, (slots i).record) ::
          if count + 1 = eventQueryBatch then []
          else collectFrom slots exclude resolves (count + 1) rest

/-- `lupine_event_collect_query_batch`. -/
def collectQueryBatch (exclude : Option Event) (resolves : Event → Bool) : List (Stamped Event) :=
  collectFrom slots exclude resolves 0 (List.finRange eventQueryBatch)

/-- What is collected is in the slots. -/
theorem exists_of_mem_collect {slots : Slots Event} {exclude : Option Event}
    {resolves : Event → Bool} {x : Stamped Event}
    (hx : x ∈ collectQueryBatch slots exclude resolves) :
    ∃ i, (slots i).event = x.1 ∧ (slots i).record = x.2 := by
  unfold collectQueryBatch at hx
  revert hx
  generalize 0 = count
  induction List.finRange eventQueryBatch generalizing count with
  | nil => exact fun hx => absurd hx not_mem_nil
  | cons i rest ih =>
    intro hx
    rw [collectFrom] at hx
    split at hx
    · exact ih count hx
    · rename_i event hevent
      split at hx
      · exact ih count hx
      · rcases mem_cons.mp hx with rfl | hx
        · exact ⟨i, hevent, rfl⟩
        · split at hx
          · cases hx
          · exact ih (count + 1) hx

/-! ## Answers -/

/-- The inner loop of `lupine_event_cache_completions`. -/
def cacheFrom (slots : Slots Event) (x : Stamped Event) : List Index → Slots Event
  | [] => slots
  | j :: rest =>
    if (slots j).event = x.1 ∧ (slots j).record = x.2 then
      update slots j { slots j with complete := true }
    else cacheFrom slots x rest

/-- One round of `lupine_event_cache_completions`. -/
def cacheCompletion (answer : Stamped Event × Result) : Slots Event :=
  if answer.2 ≠ .success ∨ answer.1.2 = 0 then slots
  else cacheFrom slots answer.1 (List.finRange eventQueryBatch)

section

variable (answers : List (Stamped Event × Result))

/-- `lupine_event_cache_completions`. -/
def cacheCompletions : Slots Event :=
  answers.foldl cacheCompletion slots

/-- A slot that is complete after some answers was so before, or one of them is for it. -/
def Caches (slots' : Slots Event) : Prop :=
  ∀ i, (slots' i).event = (slots i).event ∧ (slots' i).record = (slots i).record ∧
    ((slots' i).complete = true → (slots i).complete = true ∨
      (((slots i).event, (slots i).record), .success) ∈ answers)

theorem caches_cacheFrom (x : Stamped Event) (rest : List Index) :
    Caches slots [(x, .success)] (cacheFrom slots x rest) := by
  induction rest with
  | nil => exact fun i => ⟨rfl, rfl, .inl⟩
  | cons j rest ih =>
    rw [cacheFrom]
    split
    · rename_i hmatch
      intro i
      rcases eq_or_ne i j with rfl | hne
      · rw [update_self]
        refine ⟨rfl, rfl, fun _ => .inr ?_⟩
        rw [hmatch.1, hmatch.2]
        exact mem_singleton_self _
      · rw [update_of_ne hne]
        exact ⟨rfl, rfl, .inl⟩
    · exact ih

theorem caches_cacheCompletions : Caches slots answers (cacheCompletions slots answers) := by
  induction answers generalizing slots with
  | nil => exact fun i => ⟨rfl, rfl, .inl⟩
  | cons answer answers ih =>
    have hone : Caches slots [answer] (cacheCompletion slots answer) := by
      unfold cacheCompletion
      split
      · exact fun i => ⟨rfl, rfl, .inl⟩
      · rename_i hsuccess
        rw [not_or, not_not] at hsuccess
        have := caches_cacheFrom slots answer.1 (List.finRange eventQueryBatch)
        rwa [← hsuccess.1] at this
    intro i
    obtain ⟨hevent, hrecord, hcomplete⟩ := ih (cacheCompletion slots answer) i
    obtain ⟨hevent', hrecord', hcomplete'⟩ := hone i
    refine ⟨hevent.trans hevent', hrecord.trans hrecord', fun h => ?_⟩
    rcases hcomplete h with h | h
    · rcases hcomplete' h with h | h
      · exact .inl h
      · exact .inr (mem_cons.mpr (.inl (mem_singleton.mp h)))
    · rw [hevent', hrecord'] at h
      exact .inr (mem_cons_of_mem _ h)

end

end

end Lupine.Events
