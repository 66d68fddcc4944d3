import Lupine.HostMemory.Tracker
import Lupine.Foundations.Update

/-!
# The lock-free queue and the epochs

Two invariants of the tracker that hold in every run.

* `Queued`: the slots of the queue between `start` and `next` are filled or reserved by exactly
  one handler, so that filling a slot never overwrites an entry and a flush leaves no hole behind.
* `Epochs`: whoever published a range that is still queued, set in `full_dirty`, or in the hands of
  a flush requires an epoch above the flushed one, unless it has not taken its epoch yet. What is
  still queued when a flush finishes was published after the flush loaded its epoch.
-/

namespace Lupine.HostMemory

open Foundations Function List

variable {Thread Byte : Type}

/-! ## Slots -/

variable {s s' : Tracker Thread Byte} {f : Flush Thread Byte} {t : Thread} {k : Handler}
  {page : Option ℕ} {e : Entry Thread} {A : Allocation}

variable {u : Thread} {span : Span}

/-- The slot a handler has reserved and not filled yet. -/
def Handler.slot? : Handler → Option ℕ
  | .reserved slot _ _ => some slot
  | _ => none

/-- The thread has published a range and not taken its epoch yet. -/
def Handler.Unpublished : Handler → Prop
  | .filled _ | .overflowed _ | .pendingSet _ => True
  | _ => False

/-- What the phase of a flush says about the queue. -/
def FlushPhase.Scanned (q : Queue Thread) : FlushPhase → Prop
  | .scanning reserved => q.start ≤ reserved ∧ reserved ≤ q.next
  | .scanned reserved _ => q.start ≤ reserved ∧ reserved ≤ q.next ∧ q.Ready reserved
  | .taken reserved _ => q.start = reserved
  | _ => True

namespace Tracker

/-- The slots of the queue. -/
structure Queued (s : Tracker Thread Byte) : Prop where
  start_le : s.queue.start ≤ s.queue.next
  bounds : ∀ i e, s.queue.slots i = some e → s.queue.start ≤ i ∧ i < s.queue.next
  reserved : ∀ t i, (s.handler t).slot? = some i →
    s.queue.start ≤ i ∧ i < s.queue.next ∧ s.queue.slots i = none
  unique : ∀ t u i, (s.handler t).slot? = some i → (s.handler u).slot? = some i → t = u
  scanned : ∀ f, s.flush = some f → f.phase.Scanned s.queue

attribute [local simp] managed

theorem queued_managed (memory : ℕ → Byte) : (managed memory : Tracker Thread Byte).Queued where
  start_le := le_rfl
  bounds := by simp
  reserved := by simp [Handler.slot?]
  unique := by simp [Handler.slot?]
  scanned := by simp

/-- Steps that leave the slots alone and reserve none. -/
theorem Queued.of_slots (h : s.Queued)
    (hslot : ∀ t i, (s'.handler t).slot? = some i → (s.handler t).slot? = some i)
    (hnext : s'.queue.next = s.queue.next) (hstart : s'.queue.start = s.queue.start)
    (hslots : s'.queue.slots = s.queue.slots)
    (hflush : ∀ f, s'.flush = some f → f.phase.Scanned s'.queue) : s'.Queued := by
  refine ⟨?_, ?_, fun t i ht => ?_, fun t u i ht hu => ?_, hflush⟩
  · rw [hnext, hstart]
    exact h.start_le
  · rw [hnext, hstart, hslots]
    exact h.bounds
  · rw [hnext, hstart, hslots]
    exact h.reserved t i (hslot t i ht)
  · exact h.unique t u i (hslot t i ht) (hslot u i hu)

/-- The flush goes on to another phase. -/
theorem Queued.of_flush (h : s.Queued) {g : Flush Thread Byte} (hflush : s'.flush = some g)
    (hscanned : g.phase.Scanned s'.queue) (hhandler : s'.handler = s.handler)
    (hnext : s'.queue.next = s.queue.next) (hstart : s'.queue.start = s.queue.start)
    (hslots : s'.queue.slots = s.queue.slots) : s'.Queued := by
  refine h.of_slots (fun t i ht => hhandler ▸ ht) hnext hstart hslots fun g' hg => ?_
  cases hflush.symm.trans hg
  exact hscanned

theorem Queued.take (h : s.Queued) {reserved : ℕ} {hasFullDirty : Bool}
    {ranges : List (Entry Thread)} (hf : s.flush = some f)
    (hphase : f.phase = .scanned reserved hasFullDirty) :
    Queued { s with
      queue := s.queue.take reserved
      flush := some { f with phase := .taken reserved hasFullDirty, ranges := ranges } } := by
  have hscan := h.scanned f hf
  rw [hphase] at hscan
  obtain ⟨hstart, hnext, hready⟩ := hscan
  refine ⟨hnext, fun i e he => ?_, fun t i ht => ?_, h.unique, fun g hg => ?_⟩
  · simp only [Queue.take] at he ⊢
    split at he
    · simp at he
    · exact ⟨by omega, (h.bounds i e he).2⟩
  · obtain ⟨h₁, h₂, h₃⟩ := h.reserved t i ht
    -- a slot below `reserved` would have been ready
    have hi : ¬ i < reserved := fun hi => by simpa [h₃] using hready i hi h₁
    simp only [Queue.take]
    exact ⟨by omega, h₂, by simpa [hi] using h₃⟩
  · cases hg
    exact rfl

theorem Queued.reset (h : s.Queued) {reserved : ℕ} {hasFullDirty : Bool} (hf : s.flush = some f)
    (hphase : f.phase = .taken reserved hasFullDirty) :
    Queued { s with
      queue := s.queue.reset reserved
      flush := some { f with phase := .queueReset hasFullDirty } } := by
  have hstart := h.scanned f hf
  rw [hphase] at hstart
  change s.queue.start = reserved at hstart
  by_cases hnext : s.queue.next = reserved
  · -- `start = next`: nothing is queued or reserved
    have hempty : ∀ i e, s.queue.slots i ≠ some e := fun i e he => by
      have := h.bounds i e he
      omega
    have hnone : ∀ t i, (s.handler t).slot? ≠ some i := fun t i ht => by
      have := h.reserved t i ht
      omega
    simp only [Queue.reset, hnext, if_true]
    exact ⟨le_rfl, fun i e he => absurd he (hempty i e), fun t i ht => absurd ht (hnone t i),
      fun t u i ht _ => absurd ht (hnone t i), fun g hg => by
        cases hg
        trivial⟩
  · simp only [Queue.reset, hnext, if_false]
    exact h.of_flush rfl trivial rfl rfl rfl rfl

section Handlers

variable [DecidableEq Thread]

theorem slot?_update {handler : Thread → Handler} {h : Handler} {i : ℕ} (hh : h.slot? = none)
    (hu : (update handler t h u).slot? = some i) : u ≠ t ∧ (handler u).slot? = some i := by
  rcases eq_or_ne u t with rfl | hne
  · simp [hh] at hu
  · exact ⟨hne, by simpa [hne] using hu⟩

theorem Queued.reserve (h : s.Queued) :
    Queued { s.setHandler t (.reserved s.queue.next span page) with
      queue := { s.queue with next := s.queue.next + 1 } } := by
  have hold : ∀ u i, u ≠ t →
      (update s.handler t (.reserved s.queue.next span page) u).slot? = some i →
      (s.handler u).slot? = some i := fun u i hne hu => by simpa [hne] using hu
  have hnew : ∀ i, (update s.handler t (.reserved s.queue.next span page) t).slot? =
      some i → i = s.queue.next := fun i hi => by simpa [Handler.slot?, eq_comm] using hi
  have hfree : s.queue.slots s.queue.next = none := by
    cases hs : s.queue.slots s.queue.next with
    | none => rfl
    | some e => exact absurd (h.bounds _ e hs).2 (lt_irrefl _)
  refine ⟨h.start_le.trans (Nat.le_succ _), fun i e he => ?_, fun u i hu => ?_,
    fun u w i hu hw => ?_, fun f hf => ?_⟩
  · exact ⟨(h.bounds i e he).1, Nat.lt_succ_of_lt (h.bounds i e he).2⟩
  · rcases eq_or_ne u t with rfl | hne
    · obtain rfl := hnew i hu
      exact ⟨h.start_le, Nat.lt_succ_self _, hfree⟩
    · obtain ⟨h₁, h₂, h₃⟩ := h.reserved u i (hold u i hne hu)
      exact ⟨h₁, Nat.lt_succ_of_lt h₂, h₃⟩
  · -- the new slot is past every slot reserved before
    rcases eq_or_ne u t with rfl | hut <;> rcases eq_or_ne w u with rfl | hwu
    · rfl
    · have := (h.reserved w i (hold w i hwu hw)).2.1
      exact absurd (hnew i hu) (by omega)
    · rfl
    · rcases eq_or_ne w t with rfl | hwt
      · have := (h.reserved u i (hold u i hut hu)).2.1
        exact absurd (hnew i hw) (by omega)
      · exact h.unique u w i (hold u i hut hu) (hold w i hwt hw)
  · have := h.scanned f hf
    unfold FlushPhase.Scanned at this ⊢
    split at this <;> simp_all [Queue.Ready] <;> omega

theorem Queued.fill (h : s.Queued) {slot : ℕ} (ht : s.handler t = .reserved slot span page) :
    Queued { s.setHandler t (.filled page) with
      queue := { s.queue with slots := update s.queue.slots slot (some e) } } := by
  have hslot : (s.handler t).slot? = some slot := by rw [ht]; rfl
  obtain ⟨h₁, h₂, -⟩ := h.reserved t slot hslot
  refine ⟨h.start_le, fun i e' he => ?_, fun u i hu => ?_, fun u w i hu hw => ?_, fun f hf => ?_⟩
  · rcases update_eq_cases he with ⟨rfl, -⟩ | ⟨-, he⟩
    · exact ⟨h₁, h₂⟩
    · exact h.bounds i e' he
  · obtain ⟨hne, hu⟩ := slot?_update rfl hu
    obtain ⟨h₃, h₄, h₅⟩ := h.reserved u i hu
    have hi : i ≠ slot := fun hi => hne (h.unique u t slot (hi ▸ hu) hslot)
    exact ⟨h₃, h₄, by simpa [hi] using h₅⟩
  · exact h.unique u w i (slot?_update rfl hu).2 (slot?_update rfl hw).2
  · have := h.scanned f hf
    unfold FlushPhase.Scanned at this ⊢
    split at this <;> simp_all only [and_self, true_and]
    intro i hi hstart
    rcases eq_or_ne i slot with rfl | hne
    · simp
    · simpa [hne] using this.2.2 i hi hstart

theorem Queued.of_start (h : Start A s) : s.Queued := by
  cases h with
  | managed memory => exact queued_managed memory
  | exposed t memory acknowledged =>
    have hslot : ∀ u, ((exposed A t memory acknowledged).handler u).slot? = none := by
      intro u
      rcases eq_or_ne u t with rfl | hne
      · simp [exposed, Handler.slot?]
      · simp [exposed, hne, Handler.slot?]
    refine ⟨Nat.zero_le _, fun i e he => ?_, fun u i hu => ?_, fun u w i hu => ?_,
      by simp [exposed]⟩
    · rcases eq_or_ne i 0 with rfl | hne
      · exact ⟨le_rfl, Nat.one_pos⟩
      · simp [exposed, hne] at he
    · simp [hslot u] at hu
    · simp [hslot u] at hu

theorem Queued.step {a : Action Thread Byte} (h : s.Queued) (hmove : Move A s a s') :
    s'.Queued := by
  cases hmove with
  | fault | enqueue | overflow | setFullDirty | setPending | requireFlush | unprotect | leave =>
    exact h.of_slots (fun _ _ hu => (slot?_update rfl hu).2) rfl rfl rfl h.scanned
  | reserve => exact h.reserve
  | fill ht => exact h.fill ht
  | store => exact { h with }
  | take hf hphase => exact h.take hf hphase
  | reset hf hphase => exact h.reset hf hphase
  | scan hf hphase => exact h.of_flush rfl ⟨h.start_le, le_rfl⟩ rfl rfl rfl rfl
  | loadPending hf hphase hready =>
    have hscan := h.scanned _ hf
    rw [hphase] at hscan
    exact h.of_flush rfl ⟨hscan.1, hscan.2, hready⟩ rfl rfl rfl rfl
  | read hf | acknowledge hf =>
    have hscan := h.scanned _ hf
    exact h.of_flush rfl hscan rfl rfl rfl rfl
  | finish | abort => exact h.of_slots (fun _ _ hu => hu) rfl rfl rfl (by simp)
  | fail hf hphase =>
    unfold flushFail
    split <;> exact h.of_slots (fun _ _ hu => hu) rfl rfl rfl (by simp)
  | flushLock | clearPending | skipFullDirty | takeFullDirty | protect | send =>
    exact h.of_flush rfl trivial rfl rfl rfl rfl

end Handlers

/-! ## Epochs -/

/-- Thread `t` requires an epoch above `n`, or is about to take one. -/
def Late (s : Tracker Thread Byte) (n : ℕ) (t : Thread) : Prop :=
  n < s.requiredHostEpoch t ∨ (s.handler t).Unpublished

/-- The slots a flush leaves in the queue: all of them once it has taken its own. -/
def Left : FlushPhase → ℕ → Prop
  | .locked, _ => False
  | .scanning reserved, i | .scanned reserved _, i => reserved ≤ i
  | _, _ => True

/-- The flush leaves `full_dirty` to a later one. -/
def LeavesFullDirty : FlushPhase → Prop
  | .scanned _ hasFullDirty | .taken _ hasFullDirty | .queueReset hasFullDirty =>
    hasFullDirty = false
  | .protecting _ | .sending => True
  | _ => False

/-- The flush has seen `full_dirty_pending` set and is going to clear it. -/
def SeesPending : FlushPhase → Prop
  | .scanned _ hasFullDirty | .taken _ hasFullDirty | .queueReset hasFullDirty =>
    hasFullDirty = true
  | _ => False

/-- The epochs of the ranges that are not acknowledged yet. -/
structure Epochs (s : Tracker Thread Byte) : Prop where
  flushed_le : s.flushedHostEpoch ≤ s.dirtyHostEpoch
  flushEpoch_le : ∀ f, s.flush = some f → f.flushEpoch ≤ s.dirtyHostEpoch
  slots : ∀ i e, s.queue.slots i = some e → ∀ t ∈ e.publishers, s.Late s.flushedHostEpoch t
  fullDirty : ∀ t ∈ s.fullDirtyBy, s.Late s.flushedHostEpoch t
  ranges : ∀ f, s.flush = some f → ∀ e ∈ f.ranges, ∀ t ∈ e.publishers,
    s.Late s.flushedHostEpoch t
  /-- `full_dirty_pending` is set after `full_dirty`, and cleared before it is. -/
  pending : ∀ t ∈ s.fullDirtyBy, s.fullDirty = true ∧ (s.queue.fullDirtyPending = true ∨
    (∃ page, s.handler t = .overflowed page) ∨
      ∃ f, s.flush = some f ∧ f.phase = .pendingCleared)
  seesPending : ∀ f, s.flush = some f → SeesPending f.phase → s.queue.fullDirtyPending = true
  /-- What the flush leaves in the queue was published after it loaded its epoch. -/
  slotsLeft : ∀ f, s.flush = some f → ∀ i e, s.queue.slots i = some e → Left f.phase i →
    ∀ t ∈ e.publishers, s.Late f.flushEpoch t
  fullDirtyLeft : ∀ f, s.flush = some f → LeavesFullDirty f.phase →
    ∀ t ∈ s.fullDirtyBy, s.Late f.flushEpoch t

theorem epochs_managed (memory : ℕ → Byte) : (managed memory : Tracker Thread Byte).Epochs where
  flushed_le := le_rfl
  flushEpoch_le := by simp
  slots := by simp
  fullDirty := by simp
  ranges := by simp
  pending := by simp
  seesPending := by simp
  slotsLeft := by simp
  fullDirtyLeft := by simp

section

variable (h : s.Epochs) (hf : s.flush = some f)
include h hf

/-- Unless the flush has just cleared `full_dirty_pending`, it is set or about to be. -/
theorem Epochs.pending_of_ne (hphase : f.phase ≠ .pendingCleared) (ht : t ∈ s.fullDirtyBy) :
    s.fullDirty = true ∧
      (s.queue.fullDirtyPending = true ∨ ∃ page, s.handler t = .overflowed page) := by
  obtain ⟨hdirty, hp | hp | ⟨g, hg, hphase'⟩⟩ := h.pending t ht
  · exact ⟨hdirty, .inl hp⟩
  · exact ⟨hdirty, .inr hp⟩
  · cases hf.symm.trans hg
    exact absurd hphase' hphase

omit h hf in
/-- Steps that publish nothing and leave the flush alone: it is enough that nobody loses an
epoch it had to reach, nor the mark that `full_dirty_pending` is still to be set. -/
theorem Epochs.of_late (h : s.Epochs)
    (hdirty : s.dirtyHostEpoch ≤ s'.dirtyHostEpoch)
    (hlate : ∀ n t, n ≤ s.dirtyHostEpoch → s.Late n t → s'.Late n t)
    (hover : ∀ t page, s.handler t = .overflowed page →
      s'.queue.fullDirtyPending = true ∨ s'.handler t = .overflowed page)
    (hflushed : s'.flushedHostEpoch = s.flushedHostEpoch)
    (hslots : s'.queue.slots = s.queue.slots) (hfull : s'.fullDirty = s.fullDirty)
    (hby : s'.fullDirtyBy = s.fullDirtyBy) (hflush : s'.flush = s.flush)
    (hpending : s.queue.fullDirtyPending = true → s'.queue.fullDirtyPending = true) :
    s'.Epochs := by
  refine ⟨?_, fun f hf => ?_, fun i e he t ht => ?_, fun t ht => ?_, fun f hf e he t ht => ?_,
    fun t ht => ⟨?_, ?_⟩, fun f hf hsee => ?_, fun f hf i e he hleft t ht => ?_,
    fun f hf hleft t ht => ?_⟩
  · exact hflushed ▸ h.flushed_le.trans hdirty
  · exact (h.flushEpoch_le f (hflush ▸ hf)).trans hdirty
  · exact hflushed ▸ hlate _ t h.flushed_le (h.slots i e (hslots ▸ he) t ht)
  · exact hflushed ▸ hlate _ t h.flushed_le (h.fullDirty t (hby ▸ ht))
  · exact hflushed ▸ hlate _ t h.flushed_le (h.ranges f (hflush ▸ hf) e he t ht)
  · exact hfull ▸ (h.pending t (hby ▸ ht)).1
  · rw [hflush]
    rcases (h.pending t (hby ▸ ht)).2 with hp | ⟨page, hp⟩ | hp
    · exact .inl (hpending hp)
    · exact (hover t page hp).imp id fun hp => .inl ⟨page, hp⟩
    · exact .inr (.inr hp)
  · exact hpending (h.seesPending f (hflush ▸ hf) hsee)
  · exact hlate _ t (h.flushEpoch_le f (hflush ▸ hf))
      (h.slotsLeft f (hflush ▸ hf) i e (hslots ▸ he) hleft t ht)
  · exact hlate _ t (h.flushEpoch_le f (hflush ▸ hf))
      (h.fullDirtyLeft f (hflush ▸ hf) hleft t (hby ▸ ht))

/-- The flush goes on to another phase with the same ranges. -/
theorem Epochs.setFlush {f' : Flush Thread Byte} (hepoch : f'.flushEpoch = f.flushEpoch)
    (hranges : f'.ranges = f.ranges) (hcleared : f.phase ≠ .pendingCleared)
    (hsees : SeesPending f'.phase → s.queue.fullDirtyPending = true)
    (hslots : ∀ i e, s.queue.slots i = some e → Left f'.phase i →
      ∀ t ∈ e.publishers, s.Late f.flushEpoch t)
    (hfull : LeavesFullDirty f'.phase → ∀ t ∈ s.fullDirtyBy, s.Late f.flushEpoch t) :
    Epochs { s with flush := some f' } := by
  refine ⟨h.flushed_le, ?_, h.slots, h.fullDirty, ?_, fun t ht => ?_, ?_, ?_, ?_⟩
  · rintro g ⟨⟩
    exact hepoch ▸ h.flushEpoch_le f hf
  · rintro g ⟨⟩ e he t ht
    exact h.ranges f hf e (hranges ▸ he) t ht
  · exact (h.pending_of_ne hf hcleared ht).imp id (.imp id .inl)
  · rintro g ⟨⟩
    exact hsees
  · rintro g ⟨⟩ i e he hleft t ht
    exact hepoch ▸ hslots i e he hleft t ht
  · rintro g ⟨⟩ hleft t ht
    exact hepoch ▸ hfull hleft t ht

/-- The last phases only read and send: the flush leaves whatever is published now. -/
theorem Epochs.setFlush_of_leaves {f' : Flush Thread Byte} (hepoch : f'.flushEpoch = f.flushEpoch)
    (hranges : f'.ranges = f.ranges) (hleft : ∀ i, Left f'.phase i → Left f.phase i)
    (hleaves : LeavesFullDirty f'.phase → LeavesFullDirty f.phase)
    (hcleared : f.phase ≠ .pendingCleared) (hsees : SeesPending f'.phase → SeesPending f.phase) :
    Epochs { s with flush := some f' } :=
  h.setFlush hf hepoch hranges hcleared (fun hs => h.seesPending f hf (hsees hs))
    (fun i e he hl => h.slotsLeft f hf i e he (hleft i hl))
    fun hl => h.fullDirtyLeft f hf (hleaves hl)

omit h hf in
theorem mem_entries {q : Queue Thread} {reserved : ℕ} :
    e ∈ q.entries reserved ↔ ∃ i, q.start ≤ i ∧ i < reserved ∧ q.slots i = some e := by
  simp only [Queue.entries, mem_filterMap, mem_range]
  constructor
  · rintro ⟨i, hi, he⟩
    split at he
    · exact ⟨i, by assumption, hi, he⟩
    · cases he
  · rintro ⟨i, hstart, hi, he⟩
    exact ⟨i, hi, by simp [hstart, he]⟩

omit h hf in
theorem slots_take {q : Queue Thread} {reserved i : ℕ} (h : (q.take reserved).slots i = some e) :
    reserved ≤ i ∧ q.slots i = some e := by
  simp only [Queue.take] at h
  split at h
  · cases h
  · exact ⟨by omega, h⟩

theorem Epochs.take {reserved : ℕ} {hasFullDirty : Bool}
    (hphase : f.phase = .scanned reserved hasFullDirty) :
    Epochs { s with
      queue := s.queue.take reserved
      flush := some { f with
        phase := .taken reserved hasFullDirty, ranges := s.queue.entries reserved } } := by
  refine ⟨h.flushed_le, ?_, fun i e he => h.slots i e (slots_take he).2, h.fullDirty, ?_,
    fun t ht => ?_, ?_, ?_, ?_⟩
  · rintro g ⟨⟩
    exact h.flushEpoch_le f hf
  · rintro g ⟨⟩ e he
    obtain ⟨i, -, -, he⟩ := mem_entries.mp he
    exact h.slots i e he
  · exact (h.pending_of_ne hf (by simp [hphase]) ht).imp id (.imp id .inl)
  · rintro g ⟨⟩ hsee
    exact h.seesPending f hf (by rw [hphase]; exact hsee)
  · rintro g ⟨⟩ i e he -
    exact h.slotsLeft f hf i e (slots_take he).2 (by rw [hphase]; exact (slots_take he).1)
  · rintro g ⟨⟩ hleft
    exact h.fullDirtyLeft f hf (by rw [hphase]; exact hleft)

omit h hf in
theorem slots_reset (q : Queue Thread) (reserved : ℕ) : (q.reset reserved).slots = q.slots := by
  unfold Queue.reset
  split <;> rfl

omit h hf in
theorem fullDirtyPending_reset (q : Queue Thread) (reserved : ℕ) :
    (q.reset reserved).fullDirtyPending = q.fullDirtyPending := by
  unfold Queue.reset
  split <;> rfl

omit h hf in
theorem Epochs.reset (h : s.Epochs) {reserved : ℕ} :
    Epochs { s with queue := s.queue.reset reserved } :=
  h.of_late le_rfl (fun _ _ _ hl => hl) (fun _ _ hp => .inr hp) rfl (slots_reset _ _) rfl rfl rfl
    fun hp => (fullDirtyPending_reset _ _).trans hp

theorem Epochs.clearPending (hphase : f.phase = .queueReset true) :
    Epochs { s with
      queue := { s.queue with fullDirtyPending := false }
      flush := some { f with phase := .pendingCleared } } := by
  refine ⟨h.flushed_le, ?_, h.slots, h.fullDirty, ?_, fun t ht => ?_, ?_, ?_, ?_⟩
  · rintro g ⟨⟩
    exact h.flushEpoch_le f hf
  · rintro g ⟨⟩
    exact h.ranges f hf
  · exact ⟨(h.pending t ht).1, .inr (.inr ⟨_, rfl, rfl⟩)⟩
  · rintro g ⟨⟩ hsee
    exact hsee.elim
  · rintro g ⟨⟩ i e he -
    exact h.slotsLeft f hf i e he (by rw [hphase]; trivial)
  · rintro g ⟨⟩ hleft
    exact hleft.elim

omit h hf in
theorem mem_allRanges (he : e ∈ s.allRanges A f) :
    e ∈ f.ranges ∨ s.fullDirty = true ∧ e = ⟨⟨0, A.storageSize⟩, s.fullDirtyBy⟩ := by
  unfold allRanges at he
  split at he
  · rcases mem_append.mp he with he | he
    · exact .inl he
    · exact .inr ⟨by assumption, mem_singleton.mp he⟩
  · exact .inl he

theorem Epochs.takeFullDirty {todo : List Span} (hphase : f.phase = .pendingCleared) :
    Epochs { s with
      fullDirty := false
      fullDirtyBy := []
      flush := some { f with phase := .protecting todo, ranges := s.allRanges A f } } := by
  refine ⟨h.flushed_le, ?_, h.slots, by simp, ?_, by simp, ?_, ?_, by simp⟩
  · rintro g ⟨⟩
    exact h.flushEpoch_le f hf
  · rintro g ⟨⟩ e he t ht
    rcases mem_allRanges he with he | ⟨-, rfl⟩
    · exact h.ranges f hf e he t ht
    · exact h.fullDirty t ht
  · rintro g ⟨⟩ hsee
    exact hsee.elim
  · rintro g ⟨⟩ i e he -
    exact h.slotsLeft f hf i e he (by rw [hphase]; trivial)

/-- A finished flush: everything still queued was published after its epoch. -/
theorem Epochs.finish {storeEpoch : Bool} (hphase : f.phase = .sending) :
    Epochs { s with
      flush := none
      flushedHostEpoch := if storeEpoch then f.flushEpoch else s.flushedHostEpoch } := by
  refine ⟨?_, by simp, fun i e he t ht => ?_, fun t ht => ?_, by simp, fun t ht => ?_, by simp,
    by simp, by simp⟩
  · have := h.flushed_le
    have := h.flushEpoch_le f hf
    split <;> assumption
  · have h₁ := h.slots i e he t ht
    have h₂ := h.slotsLeft f hf i e he (by rw [hphase]; trivial) t ht
    cases storeEpoch
    · exact h₁
    · exact h₂
  · have h₁ := h.fullDirty t ht
    have h₂ := h.fullDirtyLeft f hf (by rw [hphase]; trivial) t ht
    cases storeEpoch
    · exact h₁
    · exact h₂
  · exact (h.pending_of_ne hf (by simp [hphase]) ht).imp id (.imp id .inl)

theorem Epochs.fail (hphase : f.phase ≠ .pendingCleared) : (s.flushFail f).Epochs := by
  unfold flushFail
  split
  · refine ⟨h.flushed_le, by simp, h.slots, h.fullDirty, by simp, fun t ht => ?_, by simp, by simp,
      by simp⟩
    exact (h.pending_of_ne hf hphase ht).imp id (.imp id .inl)
  · refine ⟨h.flushed_le, by simp, h.slots, fun t ht => ?_, by simp,
      fun t ht => ⟨rfl, .inl rfl⟩, by simp, by simp, by simp⟩
    rcases mem_append.mp ht with ht | ht
    · exact h.fullDirty t ht
    · obtain ⟨e, he, ht⟩ := mem_flatMap.mp ht
      exact h.ranges f hf e (mem_of_mem_filter he) t ht

end

section Handlers

variable [DecidableEq Thread]

/-- A thread that has nothing unpublished moves on in its handler. -/
theorem late_setHandler {n : ℕ} (ht : ¬ (s.handler t).Unpublished ∨ k.Unpublished)
    (h : s.Late n u) : (s.setHandler t k).Late n u := by
  rcases h with h | h
  · exact .inl h
  · right
    rcases eq_or_ne u t with rfl | hne
    · simpa [setHandler] using ht.resolve_left fun hn => hn h
    · simpa [setHandler, hne] using h

theorem overflowed_setHandler (ht : ∀ p, s.handler t ≠ .overflowed p)
    (h : s.handler u = .overflowed page) : (s.setHandler t k).handler u = .overflowed page := by
  have hne : u ≠ t := by
    rintro rfl
    exact ht page h
  simpa [setHandler, hne] using h

/-- A thread with nothing unpublished moves to another point of its handler. -/
theorem Epochs.setHandler (h : s.Epochs) (ht : ¬ (s.handler t).Unpublished)
    (hhandler : s'.handler = (s.setHandler t k).handler)
    (hdirty : s'.dirtyHostEpoch = s.dirtyHostEpoch)
    (hrequired : s'.requiredHostEpoch = s.requiredHostEpoch)
    (hflushed : s'.flushedHostEpoch = s.flushedHostEpoch) (hslots : s'.queue.slots = s.queue.slots)
    (hfull : s'.fullDirty = s.fullDirty) (hby : s'.fullDirtyBy = s.fullDirtyBy)
    (hflush : s'.flush = s.flush)
    (hpending : s'.queue.fullDirtyPending = s.queue.fullDirtyPending) : s'.Epochs := by
  refine h.of_late hdirty.ge (fun n u _ hu => ?_) (fun u page hu => .inr ?_) hflushed hslots hfull
    hby hflush fun hp => hpending ▸ hp
  · have := late_setHandler (k := k) (.inl ht) hu
    unfold Late at this ⊢
    rw [hhandler, hrequired]
    exact this
  · rw [hhandler]
    refine overflowed_setHandler (fun p hp => ht ?_) hu
    rw [hp]
    trivial

attribute [local simp] Handler.Unpublished Tracker.setHandler

theorem Epochs.fill (h : s.Epochs) {slot : ℕ} (ht : s.handler t = .reserved slot span page) :
    Epochs { s.setHandler t (.filled page) with
      queue := { s.queue with
        slots := update s.queue.slots slot (some ⟨span, [t]⟩) } } := by
  have hlate : ∀ n u, s.Late n u → (s.setHandler t (.filled page)).Late n u := fun n u hu =>
    late_setHandler (.inr trivial) hu
  have hself : ∀ n, (s.setHandler t (.filled page)).Late n t := fun n =>
    .inr (by simp)
  refine ⟨h.flushed_le, h.flushEpoch_le, fun i e he u hu => ?_, fun u hu => ?_,
    fun f hf e he u hu => ?_, fun u hu => ?_, h.seesPending, fun f hf i e he hleft u hu => ?_,
    fun f hf hleft u hu => ?_⟩
  · rcases update_eq_cases he with ⟨-, ⟨⟩⟩ | ⟨-, he⟩
    · obtain rfl := mem_singleton.mp hu
      exact hself _
    · exact hlate _ u (h.slots i e he u hu)
  · exact hlate _ u (h.fullDirty u hu)
  · exact hlate _ u (h.ranges f hf e he u hu)
  · obtain ⟨hfull, hp⟩ := h.pending u hu
    refine ⟨hfull, hp.imp id (.imp ?_ id)⟩
    rintro ⟨p, hp⟩
    exact ⟨p, overflowed_setHandler (by simp [ht]) hp⟩
  · rcases update_eq_cases he with ⟨-, ⟨⟩⟩ | ⟨-, he⟩
    · obtain rfl := mem_singleton.mp hu
      exact hself _
    · exact hlate _ u (h.slotsLeft f hf i e he hleft u hu)
  · exact hlate _ u (h.fullDirtyLeft f hf hleft u hu)

theorem Epochs.setFullDirty (h : s.Epochs) (ht : s.handler t = .overflow page) :
    Epochs { s.setHandler t (.overflowed page) with
      fullDirty := true, fullDirtyBy := t :: s.fullDirtyBy } := by
  have hlate : ∀ n u, s.Late n u → (s.setHandler t (.overflowed page)).Late n u := fun n u hu =>
    late_setHandler (.inr trivial) hu
  have hself : (s.setHandler t (.overflowed page)).handler t = .overflowed page := by
    simp
  have hlate' : ∀ n, (s.setHandler t (.overflowed page)).Late n t := fun n =>
    .inr (by rw [hself]; trivial)
  refine ⟨h.flushed_le, h.flushEpoch_le, fun i e he u hu => hlate _ u (h.slots i e he u hu),
    fun u hu => ?_, fun f hf e he u hu => hlate _ u (h.ranges f hf e he u hu),
    fun u hu => ⟨rfl, ?_⟩, h.seesPending,
    fun f hf i e he hleft u hu => hlate _ u (h.slotsLeft f hf i e he hleft u hu),
    fun f hf hleft u hu => ?_⟩
  · rcases mem_cons.mp hu with rfl | hu
    · exact hlate' _
    · exact hlate _ u (h.fullDirty u hu)
  · rcases mem_cons.mp hu with rfl | hu
    · exact .inr (.inl ⟨page, hself⟩)
    · refine (h.pending u hu).2.imp id (.imp ?_ id)
      rintro ⟨p, hp⟩
      exact ⟨p, overflowed_setHandler (by simp [ht]) hp⟩
  · rcases mem_cons.mp hu with rfl | hu
    · exact hlate' _
    · exact hlate _ u (h.fullDirtyLeft f hf hleft u hu)

theorem Epochs.of_start (h : Start A s) : s.Epochs := by
  cases h with
  | managed memory => exact epochs_managed memory
  | exposed t memory acknowledged =>
    have hflush : (exposed A t memory acknowledged).flush = none := rfl
    refine ⟨le_rfl, by simp [hflush], fun i e he u hu => ?_, by simp [exposed],
      by simp [hflush], by simp [exposed], by simp [hflush], by simp [hflush],
      by simp [hflush]⟩
    rcases eq_or_ne i 0 with rfl | hne
    · obtain rfl : e = ⟨⟨0, A.storageSize⟩, [t]⟩ := by simpa [exposed, eq_comm] using he
      obtain rfl := mem_singleton.mp hu
      exact .inr (by simp [exposed])
    · simp [exposed, hne] at he

attribute [local simp] LeavesFullDirty SeesPending Left

theorem Epochs.step {a : Action Thread Byte} (h : s.Epochs) (hq : s.Queued)
    (hmove : Move A s a s') : s'.Epochs := by
  cases hmove with
  | fault ht | enqueue ht | reserve ht | overflow ht | unprotect ht | leave ht =>
    exact h.setHandler (by simp [ht]) rfl rfl rfl rfl rfl rfl rfl rfl rfl
  | fill ht => exact h.fill ht
  | setFullDirty ht => exact h.setFullDirty ht
  | @setPending t page ht =>
    refine h.of_late le_rfl (fun n u _ hu => ?_) (fun _ _ _ => .inl rfl) rfl rfl rfl rfl rfl
      fun _ => rfl
    exact late_setHandler (k := .pendingSet page) (.inr trivial) hu
  | @requireFlush t page ht =>
    have hne : ∀ p, s.handler t ≠ .overflowed p := by rcases ht with ht | ht <;> simp [ht]
    refine h.of_late (Nat.le_succ _) (fun n u hn hu => ?_)
      (fun u p hu => .inr (overflowed_setHandler hne hu)) rfl rfl rfl rfl rfl id
    -- the new epoch is above every epoch a flush has loaded
    rcases eq_or_ne u t with rfl | hut
    · exact .inl (by simpa using Nat.lt_succ_of_le hn)
    · rcases hu with hu | hu
      · exact .inl (by simpa [hut] using hu)
      · exact .inr (by simpa [hut] using hu)
  | store =>
    exact h.of_late le_rfl (fun _ _ _ hl => hl) (fun _ _ hp => .inr hp) rfl rfl rfl rfl rfl id
  | flushLock hf =>
    refine ⟨h.flushed_le, ?_, h.slots, h.fullDirty, ?_, fun t ht => ?_, ?_, ?_, ?_⟩
    · rintro g ⟨⟩
      exact le_rfl
    · rintro g ⟨⟩
      simp [Flush.begin]
    · obtain ⟨hdirty, hp⟩ := h.pending t ht
      exact ⟨hdirty, hp.imp id (.imp id fun ⟨g, hg, _⟩ => by simp [hf] at hg)⟩
    · rintro g ⟨⟩ hsee
      exact hsee.elim
    · rintro g ⟨⟩ i e he hleft
      exact hleft.elim
    · rintro g ⟨⟩ hleft
      exact hleft.elim
  | scan hf hphase =>
    refine h.setFlush hf rfl rfl (by simp [hphase]) (fun hs => hs.elim) (fun i e he hi => ?_)
      fun hl => hl.elim
    have := (hq.bounds i e he).2
    change s.queue.next ≤ i at hi
    omega
  | loadPending hf hphase =>
    refine h.setFlush hf rfl rfl (by simp [hphase]) (fun hs => hs) (fun i e he hi => ?_)
      fun hl t ht => ?_
    · exact h.slotsLeft _ hf i e he (by rw [hphase]; exact hi)
    · -- whoever set `full_dirty` is still to set `full_dirty_pending`
      have hl : s.queue.fullDirtyPending = false := hl
      rcases (h.pending_of_ne hf (by simp [hphase]) ht).2 with hp | ⟨page, hp⟩
      · simp [hl] at hp
      · exact .inr (by rw [hp]; trivial)
  | take hf hphase => exact h.take hf hphase
  | reset hf hphase =>
    exact h.reset.setFlush_of_leaves hf rfl rfl (by simp [hphase])
      (by simp [hphase]) (by simp [hphase]) (by simp [hphase])
  | clearPending hf hphase => exact h.clearPending hf hphase
  | @skipFullDirty f hasFullDirty hf hphase hskip =>
    have hfalse : hasFullDirty = false := by
      by_contra htrue
      rw [Bool.not_eq_false] at htrue
      exact hskip ⟨htrue, h.seesPending f hf (by rw [hphase]; exact htrue)⟩
    exact h.setFlush_of_leaves hf rfl rfl (by simp [hphase])
      (by simp [hphase, hfalse]) (by simp [hphase]) (by simp)
  | takeFullDirty hf hphase => exact h.takeFullDirty hf hphase
  | @protect f span todo hf hphase =>
    have h' : Epochs { s with flush := some { f with phase := .protecting todo } } :=
      h.setFlush_of_leaves hf rfl rfl (by simp [hphase])
        (by simp [hphase]) (by simp [hphase]) (by simp)
    exact h'.of_late le_rfl (fun _ _ _ hl => hl) (fun _ _ hp => .inr hp) rfl rfl rfl rfl rfl id
  | send hf hphase =>
    exact h.setFlush_of_leaves hf rfl rfl (by simp [hphase])
      (by simp [hphase]) (by simp [hphase]) (by simp)
  | read hf hphase =>
    exact h.setFlush_of_leaves hf rfl rfl (fun _ hl => hl) id (by simp [hphase]) id
  | @acknowledge f offsets hf hphase hread =>
    have h' : Epochs { s with flush := some { f with
        read := fun o => if o ∈ offsets then none else f.read o
        done := fun o => f.done o || decide (o ∈ offsets) } } :=
      h.setFlush_of_leaves hf rfl rfl (fun _ hl => hl) id (by simp [hphase]) id
    exact h'.of_late le_rfl (fun _ _ _ hl => hl) (fun _ _ hp => .inr hp) rfl rfl rfl rfl rfl id
  | finish hf hphase => exact h.finish hf hphase
  | abort hf hphase =>
    refine ⟨h.flushed_le, by simp, h.slots, h.fullDirty, by simp, fun t ht => ?_, by simp, by simp,
      by simp⟩
    exact (h.pending_of_ne hf (by simp [hphase]) ht).imp id (.imp id .inl)
  | fail hf hphase =>
    refine h.fail hf fun hc => ?_
    rcases hphase with ⟨todo, hphase⟩ | hphase <;> simp [hphase] at hc

end Handlers

end Tracker

end Lupine.HostMemory
