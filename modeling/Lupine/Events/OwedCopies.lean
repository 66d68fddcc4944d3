import Mathlib.Data.Finset.Card
import Mathlib.Data.Fintype.Basic
import Lupine.Events.Table
import Lupine.Foundations.Execution

/-!
# Counting owed copies

The semaphore of `events.cpp` counts the deferred device-to-host copies that the server has not
handed back: `cuMemcpyDtoHAsync_v2` raises it after its request was sent, and
`lupine_read_deferred_dtoh_copies` lowers it by the number of copies it has read. Copies also come
back with host functions (`rpc_client_dispatch_thread`), which do not lower it. A copy that is
issued while its stream captures becomes part of a graph. It is counted like any other, and comes
back once for each launch of the graph. All requests succeed.

* `Session.counted_exactly`: in a run whose steps are exact, no event is answered locally while an
  immediate copy is owed, and the semaphore is zero once all copies have been delivered.
* `Session.miscounted`: launching a graph twice makes the client forget a copy that is still owed;
  and a copy that comes back with a host function is owed for ever.
-/

namespace Lupine.Events.OwedCopies

open Foundations Function List

/-- A deferred copy. -/
structure Copy (Graph : Type) where
  id : ℕ
  bytes : ℕ
  /-- The graph that its stream captures into. -/
  graph : Option Graph
  deriving DecidableEq

/-- What a thread is doing about deferred copies. -/
inductive Phase (Event Graph : Type)
  | idle
  /-- `cuMemcpyDtoHAsync_v2` has sent its request. -/
  | sent (copy : Copy Graph)
  /-- `lupine_read_deferred_dtoh_copies` has yet to read `left` of its copies. -/
  | receiving (left copies : List (Copy Graph))
  /-- `lupine_event_stale_semaphore_add` has read the semaphore. -/
  | lowering (copies : List (Copy Graph)) (owed : ℕ)
  /-- The handler of host functions has yet to read `left`. -/
  | calledBack (left : List (Copy Graph))
  /-- `lupine_event_query_needed` has read the semaphore. -/
  | asking (event : Option Event) (copiesOwed : Bool)

namespace Phase

variable {Event Graph : Type}

/-- The copies by which the thread is going to lower the semaphore. -/
def handed : Phase Event Graph → List (Copy Graph)
  | receiving _ copies | lowering copies _ => copies
  | _ => []

/-- The copies of these that it has not read yet. -/
def left : Phase Event Graph → List (Copy Graph)
  | receiving left _ => left
  | _ => []

/-- An immediate copy has been sent and is not counted. -/
def uncounted : Phase Event Graph → Bool
  | sent copy => copy.graph.isNone && copy.bytes ≠ 0
  | _ => false

/-- Nothing was owed when the thread looked. -/
def unowed : Phase Event Graph → Bool
  | asking _ copiesOwed => !copiesOwed
  | _ => false

end Phase

/-- A step of a thread or of the server. -/
inductive Action (Thread Event Graph : Type)
  | issue (thread : Thread) (copy : Copy Graph)
  | count (thread : Thread)
  | accept
  | launch (graph : Graph)
  /-- A call that synchronizes, or a stream callback, brings back `taken`; `rest` is what the server
  still has. -/
  | respond (thread : Thread) (taken rest : List (Copy Graph))
  | receive (thread : Thread)
  | lower (thread : Thread) (spurious : Bool)
  /-- A host function brings back the copies of its graph and `taken`. -/
  | callback (thread : Thread) (graph : Option Graph) (taken rest : List (Copy Graph))
  | ask (thread : Thread) (event : Option Event)
  | look (thread : Thread)
  /-- Events are recorded, completed or destroyed. -/
  | slots (slots : Slots Event)

variable {Thread Event Graph : Type}

/-- A client and its server. What is issued, delivered and owed is only observed: a copy is owed
from when it is counted until the semaphore is lowered for it. -/
structure Session (Thread Event Graph : Type) where
  table : Table Event
  threads : Thread → Phase Event Graph
  requests : List (Copy Graph)
  graphs : Graph → List (Copy Graph)
  pending : List (Copy Graph)
  issued : List (Copy Graph)
  delivered : Finset ℕ
  owed : Finset ℕ

namespace Session

variable {phase : Phase Event Graph} {s s' : Session Thread Event Graph}
  {copies : List (Copy Graph)}

variable {copy : Copy Graph}

def initial : Session Thread Event Graph :=
  ⟨.empty, fun _ => .idle, [], fun _ => [], [], [], ∅, ∅⟩

def ids (copies : List (Copy Graph)) : Finset ℕ := (copies.map Copy.id).toFinset

/-- The copies that a host function of a graph sends. -/
def captured (s : Session Thread Event Graph) : Option Graph → List (Copy Graph)
  | some graph => s.graphs graph
  | none => []

/-- The server stages the copy, or notes it for the graph. -/
def defer [DecidableEq Graph] (s : Session Thread Event Graph) (copy : Copy Graph) :
    Session Thread Event Graph :=
  match copy.graph with
  | some graph =>
    { s with graphs := update s.graphs graph (s.graphs graph ++ [copy]) }
  | none => if copy.bytes = 0 then s else { s with pending := s.pending ++ [copy] }

section Step

variable [DecidableEq Thread]

section

variable (s : Session Thread Event Graph) (t : Thread)

def set (phase : Phase Event Graph) : Session Thread Event Graph :=
  { s with threads := update s.threads t phase }

/-- The semaphore changes, and what is owed. -/
def owing (semaphore : ℕ) (owed : Finset ℕ) : Session Thread Event Graph :=
  { s with table := ⟨s.table.slots, s.table.recordSeq, semaphore⟩, owed := owed }

/-- A copy arrives in client memory. -/
def deliver (copy : Copy Graph) : Session Thread Event Graph :=
  { s with delivered := insert copy.id s.delivered }

/-- One round of the loop in `lupine_event_stale_semaphore_add`. The exchange may fail without a
reason. -/
def exchange (copies : List (Copy Graph)) (owed : ℕ) (spurious : Bool) :
    Session Thread Event Graph :=
  if owed = 0 then s.set t .idle
  else if s.table.staleSemaphore = owed ∧ spurious = false then
    (s.owing (if copies.length ≥ owed then 0 else owed - copies.length) (s.owed \ ids copies)).set t
      .idle
  else s.set t (.lowering copies s.table.staleSemaphore)

end

variable [DecidableEq Graph]

def step (s : Session Thread Event Graph) :
    Action Thread Event Graph → Option (Session Thread Event Graph)
  | .issue t copy =>
    match s.threads t with
    | .idle =>
      if copy.id ∈ s.issued.map Copy.id then none
      else some ({ s with
        requests := s.requests ++ [copy]
        issued := s.issued ++ [copy] }.set t (.sent copy))
    | _ => none
  | .count t =>
    match s.threads t with
    | .sent copy =>
      if copy.bytes = 0 then some (s.set t .idle)
      else some ((s.owing (s.table.staleSemaphore + 1) (insert copy.id s.owed)).set t .idle)
    | _ => none
  | .accept =>
    match s.requests with
    | [] => none
    | copy :: requests => some ({ s with requests := requests }.defer copy)
  | .launch graph => some { s with pending := s.pending ++ s.graphs graph }
  | .respond t taken rest =>
    match s.threads t with
    | .idle =>
      if (taken ++ rest).Perm s.pending then
        some ({ s with pending := rest }.set t (.receiving taken taken))
      else none
    | _ => none
  | .receive t =>
    match s.threads t with
    | .receiving (copy :: left) copies => some ((s.deliver copy).set t (.receiving left copies))
    | .receiving [] copies =>
      if copies = [] then some (s.set t .idle)
      else some (s.set t (.lowering copies s.table.staleSemaphore))
    | .calledBack (copy :: left) => some ((s.deliver copy).set t (.calledBack left))
    | .calledBack [] => some (s.set t .idle)
    | _ => none
  | .lower t spurious =>
    match s.threads t with
    | .lowering copies owed => some (s.exchange t copies owed spurious)
    | _ => none
  | .callback t graph taken rest =>
    match s.threads t with
    | .idle =>
      if (taken ++ rest).Perm s.pending then
        some ({ s with pending := rest }.set t (.calledBack (s.captured graph ++ taken)))
      else none
    | _ => none
  | .ask t event =>
    match s.threads t with
    | .idle => some (s.set t (.asking event (s.table.staleSemaphore ≠ 0)))
    | _ => none
  | .look t =>
    match s.threads t with
    | .asking _ _ => some (s.set t .idle)
    | _ => none
  | .slots slots =>
    some { s with table := ⟨slots, s.table.recordSeq, s.table.staleSemaphore⟩ }

end Step

/-! ## Exactness -/

/-- All immediate copies have been delivered. -/
def Settled (s : Session Thread Event Graph) : Prop :=
  ∀ copy ∈ s.issued, copy.graph = none → copy.bytes ≠ 0 → copy.id ∈ s.delivered

/-- What the semaphore is for. -/
structure Sound [DecidableEq Event] (s : Session Thread Event Graph) : Prop where
  /-- `lupine_event_query_needed` answers no event locally while an immediate copy is owed. -/
  answers : ∀ t event copiesOwed, s.threads t = .asking event copiesOwed →
    (queryNeeded s.table.slots event copiesOwed).1 = false → s.Settled
  /-- Once all copies have been delivered, and no call is in progress, the semaphore is zero. -/
  zero : (∀ t, s.threads t = .idle) →
    (∀ copy ∈ s.issued, copy.bytes ≠ 0 → copy.id ∈ s.delivered) → s.table.staleSemaphore = 0

/-- The copy is owed, and no thread is about to lower the semaphore for it. -/
def Due (s : Session Thread Event Graph) (copy : Copy Graph) : Prop :=
  copy.id ∈ s.owed ∧ ∀ t, ∀ c ∈ (s.threads t).handed, c.id ≠ copy.id

/-- A step that the semaphore can follow: what lowers it brings back each copy once, after it was
counted; what does not lower it brings back nothing new; and no query looks at it while an immediate
copy is sent and not counted, or misses one that is sent before it answers. -/
def Exact (s : Session Thread Event Graph) : Action Thread Event Graph → Prop
  | .issue _ copy => copy.graph = none → copy.bytes ≠ 0 → ∀ t, (s.threads t).unowed = false
  | .ask _ _ => ∀ t, (s.threads t).uncounted = false
  | .respond _ taken _ => (taken.map Copy.id).Nodup ∧ ∀ copy ∈ taken, s.Due copy
  | .callback _ graph taken _ => ∀ copy ∈ s.captured graph ++ taken, copy.id ∈ s.delivered
  | _ => True

/-! ## Invariant -/

/-- What a thread has in hand agrees with what is owed and delivered. -/
@[mk_iff]
structure Ok (s : Session Thread Event Graph) (phase : Phase Event Graph) : Prop where
  nodup : (phase.handed.map Copy.id).Nodup
  owed : ∀ copy ∈ phase.handed, copy.id ∈ s.owed
  read : ∀ copy ∈ phase.handed, copy ∈ phase.left ∨ copy.id ∈ s.delivered
  left : ∀ copy ∈ phase.left, copy ∈ phase.handed
  sent : ∀ copy, phase = .sent copy →
    copy ∈ s.issued ∧ copy.id ∉ s.owed ∧ copy.id ∉ s.delivered
  lowering : ∀ copies owed, phase = .lowering copies owed → copies.length ≤ owed
  calledBack : ∀ left, phase = .calledBack left → ∀ copy ∈ left, copy.id ∈ s.delivered
  unowed : phase.unowed = true → s.Settled

/-- Two threads have different copies in hand. -/
@[mk_iff]
structure Apart (phase phase' : Phase Event Graph) : Prop where
  handed : ∀ copy ∈ phase.handed, ∀ copy' ∈ phase'.handed, copy.id ≠ copy'.id
  sent : ∀ copy copy', phase = .sent copy → phase' = .sent copy' → copy.id ≠ copy'.id

theorem Apart.symm {phase' : Phase Event Graph} (h : Apart phase phase') : Apart phase' phase :=
  ⟨fun c hc c' hc' heq => h.handed c' hc' c hc heq.symm,
    fun c c' hc hc' heq => h.sent c' c hc' hc heq.symm⟩

/-- The semaphore counts the copies that are owed, each for a reason. -/
@[mk_iff]
structure Inv (s : Session Thread Event Graph) : Prop where
  semaphore : s.table.staleSemaphore = s.owed.card
  ids : ∀ copy ∈ s.issued, ∀ copy' ∈ s.issued, copy.id = copy'.id → copy = copy'
  known : ∀ id ∈ s.owed, ∃ copy ∈ s.issued, copy.id = id ∧ copy.bytes ≠ 0
  arrived : ∀ id ∈ s.delivered, ∃ copy ∈ s.issued, copy.id = id
  counted : ∀ copy ∈ s.issued, copy.bytes ≠ 0 → copy.id ∉ s.delivered →
    copy.id ∈ s.owed ∨ ∃ t, s.threads t = .sent copy
  reason : ∀ id ∈ s.owed, id ∉ s.delivered ∨
    ∃ t, ∃ copy ∈ (s.threads t).handed, copy.id = id
  phases : ∀ t, s.Ok (s.threads t)
  apart : ∀ t t', t ≠ t' → Apart (s.threads t) (s.threads t')

attribute [local simp] Phase.handed Phase.left Phase.unowed ok_iff apart_iff Settled

theorem inv_initial : (initial : Session Thread Event Graph).Inv := by
  constructor <;> simp [initial, Table.empty]

/-- The claims about the semaphore follow. -/
theorem Inv.sound [DecidableEq Event] (h : s.Inv) : s.Sound where
  answers t event copiesOwed hphase hanswer := by
    obtain ⟨rfl, -⟩ := complete_of_queryNeeded hanswer
    exact (h.phases t).unowed (by rw [hphase]; rfl)
  zero hidle hdelivered := by
    rw [h.semaphore, Finset.card_eq_zero, Finset.eq_empty_iff_forall_notMem]
    intro id hid
    obtain ⟨copy, hissued, rfl, hbytes⟩ := h.known id hid
    rcases h.reason _ hid with hnot | ⟨t, c, hc, -⟩
    · exact hnot (hdelivered copy hissued hbytes)
    · rw [hidle t] at hc
      exact absurd hc not_mem_nil

/-! ## Steps -/

/-- The two states owe and have delivered the same. -/
structure Agrees (s s' : Session Thread Event Graph) : Prop where
  semaphore : s'.table.staleSemaphore = s.table.staleSemaphore
  owed : s'.owed = s.owed
  issued : s'.issued = s.issued
  delivered : s'.delivered = s.delivered

theorem Agrees.ok (h : Agrees s s') (hok : s.Ok phase) : s'.Ok phase := by
  obtain ⟨-, howed, hissued, hdelivered⟩ := h
  simp_all

/-- A step that no thread takes part in. -/
theorem Inv.agrees (h : s.Inv) (hagrees : Agrees s s') (hthreads : s'.threads = s.threads) :
    s'.Inv := by
  have hok : ∀ t, s'.Ok (s.threads t) := fun t => hagrees.ok (h.phases t)
  obtain ⟨hsemaphore, howed, hissued, hdelivered⟩ := hagrees
  obtain ⟨h₁, h₂, h₃, h₄, h₅, h₆, -, h₈⟩ := h
  constructor <;> simp only [hsemaphore, howed, hissued, hdelivered, hthreads] <;> assumption

theorem Agrees.defer [DecidableEq Graph] (h : Agrees s s') (copy : Copy Graph) :
    Agrees s (s'.defer copy) ∧ (s'.defer copy).threads = s'.threads := by
  unfold Session.defer
  split
  · exact ⟨{ h with }, rfl⟩
  · split
    · exact ⟨h, rfl⟩
    · exact ⟨{ h with }, rfl⟩

/-- What a thread has in hand is counted. -/
theorem Inv.length_handed_le (h : s.Inv) (t : Thread) :
    (s.threads t).handed.length ≤ s.table.staleSemaphore := by
  have hok := h.phases t
  have hsub : Session.ids (s.threads t).handed ⊆ s.owed := by
    intro id hid
    rw [Session.ids, mem_toFinset, mem_map] at hid
    obtain ⟨copy, hc, rfl⟩ := hid
    exact hok.owed copy hc
  calc (s.threads t).handed.length
      = (Session.ids (s.threads t).handed).card := by
        rw [Session.ids, toFinset_card_of_nodup hok.nodup, length_map]
    _ ≤ s.owed.card := Finset.card_le_card hsub
    _ = s.table.staleSemaphore := h.semaphore.symm

/-- What thread `t` and what the others have sent. -/
theorem Inv.counted_split (h : s.Inv) (t : Thread) (hc : copy ∈ s.issued) (hb : copy.bytes ≠ 0)
    (hd : copy.id ∉ s.delivered) :
    copy.id ∈ s.owed ∨ s.threads t = .sent copy ∨ ∃ t' ≠ t, s.threads t' = .sent copy := by
  rcases h.counted copy hc hb hd with ho | ⟨t', hp⟩
  · exact .inl ho
  · rcases eq_or_ne t' t with rfl | hne
    · exact .inr (.inl hp)
    · exact .inr (.inr ⟨t', hne, hp⟩)

/-- What thread `t` and what the others have in hand. -/
theorem Inv.reason_split (h : s.Inv) (t : Thread) {id : ℕ} (hid : id ∈ s.owed) :
    id ∉ s.delivered ∨ (∃ copy ∈ (s.threads t).handed, copy.id = id) ∨
      ∃ t' ≠ t, ∃ copy ∈ (s.threads t').handed, copy.id = id := by
  rcases h.reason id hid with hd | ⟨t', hc⟩
  · exact .inl hd
  · rcases eq_or_ne t' t with rfl | hne
    · exact .inr (.inl hc)
    · exact .inr (.inr ⟨t', hne, hc⟩)

section Steps

variable [DecidableEq Thread] {s s' : Session Thread Event Graph} {t : Thread}
  {old phase : Phase Event Graph}

variable (h : s.Inv)

include h

/-- One thread moves. The others have what they had. -/
theorem Inv.move (hthreads : s'.threads = update s.threads t phase)
    (hsemaphore : s'.table.staleSemaphore = s'.owed.card)
    (hids : ∀ copy ∈ s'.issued, ∀ copy' ∈ s'.issued, copy.id = copy'.id → copy = copy')
    (hknown : ∀ id ∈ s'.owed, ∃ copy ∈ s'.issued, copy.id = id ∧ copy.bytes ≠ 0)
    (harrived : ∀ id ∈ s'.delivered, ∃ copy ∈ s'.issued, copy.id = id)
    (hcounted : ∀ copy ∈ s'.issued, copy.bytes ≠ 0 → copy.id ∉ s'.delivered →
      copy.id ∈ s'.owed ∨ phase = .sent copy ∨ ∃ t' ≠ t, s.threads t' = .sent copy)
    (hreason : ∀ id ∈ s'.owed, id ∉ s'.delivered ∨ (∃ copy ∈ phase.handed, copy.id = id) ∨
      ∃ t' ≠ t, ∃ copy ∈ (s.threads t').handed, copy.id = id)
    (hphase : s'.Ok phase) (hothers : ∀ t' ≠ t, s'.Ok (s.threads t'))
    (hapart : ∀ t' ≠ t, Apart phase (s.threads t')) : s'.Inv := by
  have hself : s'.threads t = phase := by rw [hthreads, update_self]
  have hother : ∀ t' ≠ t, s'.threads t' = s.threads t' := fun t' hne => by
    rw [hthreads, update_of_ne hne]
  refine ⟨hsemaphore, hids, hknown, harrived, fun copy hc hb hd => ?_, fun id hid => ?_,
    fun t' => ?_, fun t₁ t₂ hne => ?_⟩
  · rcases hcounted copy hc hb hd with ho | hp | ⟨t', hne, hp⟩
    · exact .inl ho
    · exact .inr ⟨t, hself.trans hp⟩
    · exact .inr ⟨t', (hother t' hne).trans hp⟩
  · rcases hreason id hid with hd | ⟨copy, hc, heq⟩ | ⟨t', hne, copy, hc, heq⟩
    · exact .inl hd
    · exact .inr ⟨t, copy, by rwa [hself], heq⟩
    · exact .inr ⟨t', copy, by rwa [hother t' hne], heq⟩
  · rcases eq_or_ne t' t with rfl | hne
    · rwa [hself]
    · rw [hother t' hne]
      exact hothers t' hne
  · rcases eq_or_ne t₁ t with rfl | hne₁
    · rw [hself, hother t₂ hne.symm]
      exact hapart t₂ hne.symm
    · rw [hother t₁ hne₁]
      rcases eq_or_ne t₂ t with rfl | hne₂
      · rw [hself]
        exact (hapart t₁ hne₁).symm
      · rw [hother t₂ hne₂]
        exact h.apart t₁ t₂ hne

/-- A thread moves, and nothing is issued, counted or delivered. -/
theorem Inv.stay (hold : s.threads t = old) (hagrees : Agrees s s')
    (hthreads : s'.threads = update s.threads t phase) (hphase : s.Ok phase)
    (hhanded : ∀ copy ∈ old.handed, copy ∈ phase.handed)
    (hsent : ∀ copy, old = .sent copy → copy.bytes = 0)
    (hapart : ∀ t' ≠ t, Apart phase (s.threads t')) : s'.Inv := by
  subst hold
  have hok : ∀ {phase}, s.Ok phase → s'.Ok phase := hagrees.ok
  obtain ⟨hsemaphore, howed, hissued, hdelivered⟩ := hagrees
  refine h.move hthreads ?_ ?_ ?_ ?_ ?_ ?_ (hok hphase) (fun t' _ => hok (h.phases t')) hapart <;>
    simp only [hsemaphore, howed, hissued, hdelivered]
  · exact h.semaphore
  · exact h.ids
  · exact h.known
  · exact h.arrived
  · intro copy hc hb hd
    exact (h.counted_split t hc hb hd).imp_right (.imp_left fun hp => absurd (hsent copy hp) hb)
  · intro id hid
    refine (h.reason_split t hid).imp_right (.imp_left ?_)
    rintro ⟨copy, hc, heq⟩
    exact ⟨copy, hhanded copy hc, heq⟩

/-- A thread that has nothing in hand gets idle. -/
theorem Inv.stay_idle (hold : s.threads t = old) (hhanded : old.handed = [])
    (hsent : ∀ copy, old = .sent copy → copy.bytes = 0) : (s.set t .idle).Inv :=
  h.stay hold ⟨rfl, rfl, rfl, rfl⟩ rfl (by simp) (fun _ hc => absurd (hhanded ▸ hc) not_mem_nil)
    hsent (by simp)

theorem Inv.issue (hidle : s.threads t = .idle)
    (hfresh : copy.id ∉ s.issued.map Copy.id)
    (hexact : copy.graph = none → copy.bytes ≠ 0 → ∀ t, (s.threads t).unowed = false) :
    ({ s with
      requests := s.requests ++ [copy]
      issued := s.issued ++ [copy] }.set t (.sent copy)).Inv := by
  have hnew : ∀ c ∈ s.issued, c.id ≠ copy.id := fun c hc heq => hfresh (heq ▸ mem_map_of_mem hc)
  have hunowned : copy.id ∉ s.owed := fun hid => by
    obtain ⟨c, hc, heq, -⟩ := h.known _ hid
    exact hnew c hc heq
  have hunread : copy.id ∉ s.delivered := fun hid => by
    obtain ⟨c, hc, heq⟩ := h.arrived _ hid
    exact hnew c hc heq
  refine h.move rfl h.semaphore ?_ ?_ ?_ ?_ ?_ ?_ (fun t' _ => ?_) fun t' _ => ?_
  · grind [set, h.ids]
  · grind [set, h.known]
  · grind [set, h.arrived]
  · grind [set, h.counted]
  · grind [set, h.reason, Phase.handed]
  · simp_all [set]
  · have hok := h.phases t'
    simp_all [set]
    grind
  · have hok := h.phases t'
    simp_all
    grind

theorem Inv.count (hsent : s.threads t = .sent copy) (hbytes : copy.bytes ≠ 0) :
    ((s.owing (s.table.staleSemaphore + 1) (insert copy.id s.owed)).set t .idle).Inv := by
  obtain ⟨hissued, hunowned, hunread⟩ := (h.phases t).sent copy hsent
  refine h.move rfl ?_ h.ids ?_ h.arrived ?_ ?_ (by simp) (fun t' hne => ?_) (by simp)
  · simp [set, owing, Finset.card_insert_of_notMem hunowned, h.semaphore]
  · grind [set, owing, h.known]
  · grind [set, owing, h.counted]
  · grind [set, owing, h.reason, Phase.handed]
  · have hok := h.phases t'
    have hapart := h.apart t' t hne
    grind [set, owing, ok_iff, apart_iff, Settled]

/-- A copy that the thread has in hand is read. -/
theorem Inv.receive {left : List (Copy Graph)}
    (hphase : s.threads t = .receiving (copy :: left) copies) :
    ((s.deliver copy).set t (.receiving left copies)).Inv := by
  have hok := h.phases t
  rw [hphase] at hok
  have hcopy : copy ∈ copies := hok.left copy mem_cons_self
  have howed : copy.id ∈ s.owed := hok.owed copy hcopy
  refine h.move rfl h.semaphore h.ids h.known ?_ ?_ ?_ ?_ (fun t' _ => ?_) fun t' hne => ?_
  · grind [set, deliver, h.known, h.arrived]
  · grind [set, deliver, h.counted]
  · grind [set, deliver, h.reason, Phase.handed]
  · grind [set, deliver, ok_iff, Phase.handed, Phase.left, Phase.unowed]
  · have hok := h.phases t'
    grind [set, deliver, ok_iff, Settled]
  · have hapart := h.apart t t' hne.symm
    rw [hphase] at hapart
    exact ⟨hapart.handed, fun _ _ hp => nomatch hp⟩

theorem Inv.lower (hphase : s.threads t = .lowering copies s.table.staleSemaphore) :
    ((s.owing (if copies.length ≥ s.table.staleSemaphore then 0
        else s.table.staleSemaphore - copies.length)
      (s.owed \ Session.ids copies)).set t .idle).Inv := by
  have hok := h.phases t
  rw [hphase] at hok
  have hids : ∀ id, id ∈ Session.ids copies ↔ ∃ copy ∈ copies, copy.id = id := by
    simp [Session.ids]
  have hsub : Session.ids copies ⊆ s.owed := by
    intro id hid
    obtain ⟨copy, hc, rfl⟩ := (hids id).mp hid
    exact hok.owed copy hc
  have hcard : (Session.ids copies).card = copies.length := by
    have hnodup : (copies.map Copy.id).Nodup := hok.nodup
    rw [Session.ids, toFinset_card_of_nodup hnodup, length_map]
  refine h.move rfl ?_ h.ids ?_ h.arrived ?_ ?_ (by simp) (fun t' hne => ?_) (by simp)
  · change (if copies.length ≥ s.table.staleSemaphore then 0
      else s.table.staleSemaphore - copies.length) = (s.owed \ Session.ids copies).card
    rw [Finset.card_sdiff_of_subset hsub, hcard, h.semaphore]
    split <;> omega
  · grind [set, owing, h.known]
  · -- what the thread has in hand it has read
    have hread : ∀ c ∈ copies, c.id ∈ s.delivered :=
      fun c hc => (hok.read c hc).resolve_left not_mem_nil
    grind [set, owing, h.counted]
  · grind [set, owing, h.reason, Phase.handed]
  · have hok' := h.phases t'
    have hapart := (h.apart t t' hne.symm).handed
    rw [hphase] at hapart
    grind [set, owing, ok_iff, Settled, Phase.handed]

/-- Copies that are due are handed to a thread. -/
theorem Inv.respond {taken : List (Copy Graph)} (hidle : s.threads t = .idle)
    (hnodup : (taken.map Copy.id).Nodup) (hdue : ∀ copy ∈ taken, s.Due copy)
    (hagrees : Agrees s s')
    (hthreads : s'.threads = update s.threads t (.receiving taken taken)) : s'.Inv := by
  refine h.stay hidle hagrees hthreads ?_ (by simp) (by simp) fun t' _ => ?_
  · have howed : ∀ c ∈ taken, c.id ∈ s.owed := fun c hc => (hdue c hc).1
    simp_all
  · exact ⟨fun c hc c' hc' heq => (hdue c hc).2 t' c' hc' heq.symm, fun _ _ hp => nomatch hp⟩

/-- A query looks at the semaphore. If it is zero then nothing is owed, and nothing is uncounted. -/
theorem Inv.ask {event : Option Event} (hidle : s.threads t = .idle)
    (hexact : ∀ t, (s.threads t).uncounted = false) :
    (s.set t (.asking event (s.table.staleSemaphore ≠ 0))).Inv := by
  have hsettled : s.table.staleSemaphore = 0 → s.Settled := by
    intro hzero c hc hgraph hb
    rw [h.semaphore, Finset.card_eq_zero] at hzero
    by_contra hd
    rcases h.counted c hc hb hd with ho | ⟨t', hp⟩
    · rw [hzero] at ho
      exact Finset.notMem_empty _ ho
    · have := hexact t'
      rw [hp] at this
      simp [Phase.uncounted, hgraph, hb] at this
  exact h.stay hidle ⟨rfl, rfl, rfl, rfl⟩ rfl (by simpa using hsettled) (by simp) (by simp)
    (by simp)

/-- The semaphore is read in order to lower it. -/
theorem Inv.load (hold : s.threads t = old) (hhanded : old.handed = copies)
    (hleft : old.left = []) (hsent : ∀ copy, old ≠ .sent copy) :
    (s.set t (.lowering copies s.table.staleSemaphore)).Inv := by
  have hok := h.phases t
  have hlength := h.length_handed_le t
  subst hhanded hold
  refine h.stay rfl ⟨rfl, rfl, rfl, rfl⟩ rfl ?_ (fun _ hc => hc)
    (fun copy hp => absurd hp (hsent copy))
    fun t' hne => ⟨(h.apart t t' hne.symm).handed, fun _ _ hp => nomatch hp⟩
  grind [ok_iff, Phase.handed, Phase.left, Phase.unowed]

theorem Inv.exchange {owed : ℕ} {spurious : Bool}
    (hphase : s.threads t = .lowering copies owed) : (s.exchange t copies owed spurious).Inv := by
  have hlength := (h.phases t).lowering copies owed hphase
  unfold Session.exchange
  split
  · have hnil : copies = [] := length_eq_zero_iff.mp (by omega)
    exact h.stay_idle hphase hnil (by simp)
  · split
    · rename_i hsame
      obtain ⟨rfl, -⟩ := hsame
      exact h.lower hphase
    · exact h.load hphase rfl rfl (by simp)

/-- A host function brings back what has been delivered before. -/
theorem Inv.callback {left : List (Copy Graph)} (hold : s.threads t = old)
    (hhanded : old.handed = []) (hsent : ∀ copy, old ≠ .sent copy)
    (hleft : ∀ copy ∈ left, copy.id ∈ s.delivered) (hagrees : Agrees s s')
    (hthreads : s'.threads = update s.threads t (.calledBack left)) : s'.Inv := by
  exact h.stay hold hagrees hthreads (by simpa using hleft)
    (fun _ hc => absurd (hhanded ▸ hc) not_mem_nil) (fun copy hp => absurd hp (hsent copy))
    (by simp)

theorem Inv.step [DecidableEq Graph] {a : Action Thread Event Graph}
    (hexact : s.Exact a) (hs : s.step a = some s') : s'.Inv := by
  cases a with
  | issue t copy =>
    cases hphase : s.threads t <;> simp only [Session.step, hphase, reduceCtorEq] at hs
    obtain ⟨hfresh, ⟨⟩⟩ := Option.ite_none_left_eq_some.mp hs
    exact h.issue hphase hfresh hexact
  | count t =>
    cases hphase : s.threads t <;> simp only [Session.step, hphase, reduceCtorEq] at hs
    split at hs <;> cases hs
    · rename_i hzero
      exact h.stay_idle hphase rfl (by simpa using hzero)
    · rename_i hbytes
      exact h.count hphase hbytes
  | accept =>
    cases hrequests : s.requests with
    | nil => simp only [Session.step, hrequests, reduceCtorEq] at hs
    | cons copy requests =>
      simp only [Session.step, hrequests, Option.some.injEq] at hs
      subst hs
      have hagrees : Agrees s { s with requests := requests } := ⟨rfl, rfl, rfl, rfl⟩
      have hdefer := hagrees.defer copy
      exact h.agrees hdefer.1 hdefer.2
  | launch graph | slots slots =>
    cases hs
    exact h.agrees ⟨rfl, rfl, rfl, rfl⟩ rfl
  | respond t taken rest =>
    cases hphase : s.threads t <;> simp only [Session.step, hphase, reduceCtorEq] at hs
    obtain ⟨-, rfl⟩ := of_guarded hs
    exact h.respond hphase hexact.1 hexact.2 ⟨rfl, rfl, rfl, rfl⟩ rfl
  | receive t =>
    cases hphase : s.threads t with
    | receiving left copies =>
      cases left with
      | cons copy left =>
        simp only [Session.step, hphase, Option.some.injEq] at hs
        subst hs
        exact h.receive hphase
      | nil =>
        simp only [Session.step, hphase] at hs
        split at hs <;> cases hs
        · rename_i hnil
          exact h.stay_idle hphase hnil (by simp)
        · exact h.load hphase rfl rfl (by simp)
    | calledBack left =>
      have hdelivered := (h.phases t).calledBack left hphase
      cases left with
      | cons copy left =>
        simp only [Session.step, hphase, Option.some.injEq] at hs
        subst hs
        exact h.callback hphase rfl (by simp)
          (fun c hc => hdelivered c (mem_cons_of_mem _ hc))
          ⟨rfl, rfl, rfl, Finset.insert_eq_of_mem (hdelivered copy mem_cons_self)⟩ rfl
      | nil =>
        simp only [Session.step, hphase, Option.some.injEq] at hs
        subst hs
        exact h.stay_idle hphase rfl (by simp)
    | _ => simp only [Session.step, hphase, reduceCtorEq] at hs
  | lower t spurious =>
    cases hphase : s.threads t <;> simp only [Session.step, hphase, reduceCtorEq] at hs
    cases hs
    exact h.exchange hphase
  | callback t graph taken rest =>
    cases hphase : s.threads t <;> simp only [Session.step, hphase, reduceCtorEq] at hs
    obtain ⟨-, rfl⟩ := of_guarded hs
    exact h.callback hphase rfl (by simp) hexact ⟨rfl, rfl, rfl, rfl⟩ rfl
  | ask t event =>
    cases hphase : s.threads t <;> simp only [Session.step, hphase, reduceCtorEq] at hs
    cases hs
    exact h.ask hphase hexact
  | look t =>
    cases hphase : s.threads t <;> simp only [Session.step, hphase, reduceCtorEq] at hs
    cases hs
    exact h.stay_idle hphase rfl (by simp)

end Steps

/-! ## Runs -/

variable [DecidableEq Thread] [DecidableEq Event] [DecidableEq Graph]

/-- **Owed copies.** In every run of exact steps, an event is answered locally only when all
immediate copies have been delivered, and the semaphore is zero when nothing is outstanding. -/
theorem counted_exactly {s : Session Thread Event Graph} (as : List (Action Thread Event Graph))
    (hrun : exec step initial as = some s) (hexact : Along step Exact initial as) : s.Sound :=
  (exec_invariant_along (I := fun (s : Session Thread Event Graph) => s.Inv)
    (fun _ _ _ h hexact hs => h.step hexact hs) inv_initial hexact hrun).sound

instance [Fintype Thread] (s : Session Thread Event Graph) (copy : Copy Graph) :
    Decidable (s.Due copy) :=
  inferInstanceAs (Decidable (_ ∧ ∀ t, ∀ c ∈ (s.threads t).handed, c.id ≠ copy.id))

instance [Fintype Thread] (s : Session Thread Event Graph) :
    (a : Action Thread Event Graph) → Decidable (s.Exact a)
  | .issue _ copy =>
    inferInstanceAs (Decidable (copy.graph = none → copy.bytes ≠ 0 →
      ∀ t, (s.threads t).unowed = false))
  | .ask _ _ => inferInstanceAs (Decidable (∀ t, (s.threads t).uncounted = false))
  | .respond _ taken _ =>
    inferInstanceAs (Decidable ((taken.map Copy.id).Nodup ∧ ∀ copy ∈ taken, s.Due copy))
  | .callback _ graph taken _ =>
    inferInstanceAs (Decidable (∀ copy ∈ s.captured graph ++ taken, copy.id ∈ s.delivered))
  | .count _ | .accept | .launch _ | .receive _ | .lower _ _ | .look _ | .slots _ =>
    inferInstanceAs (Decidable True)

/-- A copy is issued and brought back by a synchronization, and then event 7 is queried. -/
def broughtBack : List (Action Unit ℕ Unit) :=
  [.issue () ⟨0, 8, none⟩, .count (), .accept, .respond () [⟨0, 8, none⟩] [], .receive (),
    .receive (), .lower () false, .ask () (some 7)]

/-- The query finds nothing owed. -/
theorem counted_exactly_of_query :
    ∃ s, exec step initial broughtBack = some s ∧ s.threads () = .asking (some 7) false ∧ s.Sound :=
  ⟨_, rfl, rfl, counted_exactly broughtBack rfl (by decide)⟩

/-- Slots in which event 7 has completed. -/
def completed : Slots ℕ :=
  cacheCompletions (invalidateCompletion (fun _ => .empty) (some 7) 1) [((some 7, 1), .success)]

/-- Copy 0 is captured into a graph, which is launched and synchronized. Copy 1 is immediate, and
another launch brings back only copy 0. -/
def launchedTwice : List (Action Unit ℕ Unit) :=
  [.slots completed, .issue () ⟨0, 8, some ()⟩, .count (), .accept,
    .launch (), .respond () [⟨0, 8, some ()⟩] [], .receive (), .receive (), .lower () false,
    .issue () ⟨1, 8, none⟩, .count (), .accept,
    .launch (), .respond () [⟨0, 8, some ()⟩] [⟨1, 8, none⟩], .receive (), .receive (),
    .lower () false, .ask () (some 7)]

/-- A host function brings back an immediate copy. -/
def calledBackOnce : List (Action Unit ℕ Unit) :=
  [.issue () ⟨0, 8, none⟩, .count (), .accept, .callback () none [⟨0, 8, none⟩] [], .receive (),
    .receive ()]

/-- The second launch of the graph takes the count of copy 1, so that event 7 is answered while the
copy is owed; and what the host function brings back stays counted. -/
theorem miscounted :
    (∃ s, exec step initial launchedTwice = some s ∧ s.threads () = .asking (some 7) false ∧
      (queryNeeded s.table.slots (some 7) false).1 = false ∧
      ⟨1, 8, none⟩ ∈ s.issued ∧ 1 ∉ s.delivered) ∧
    ∃ s, exec step initial calledBackOnce = some s ∧ (∀ t, s.threads t = .idle) ∧
      (∀ copy ∈ s.issued, copy.id ∈ s.delivered) ∧ s.table.staleSemaphore = 1 :=
  ⟨⟨_, rfl, rfl, by decide, by decide, by decide⟩,
    ⟨_, rfl, fun _ => rfl, by decide, rfl⟩⟩

end Session

end Lupine.Events.OwedCopies
