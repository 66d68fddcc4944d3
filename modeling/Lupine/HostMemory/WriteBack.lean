import Lupine.HostMemory.QueueOrder

/-!
# Stores reach the server

What the tracker keeps of the stores of the application.

`QueuedBy A s t o` says that a range published by thread `t` and covering offset `o` is in the
queue or in `full_dirty`; `PendingBy` also counts a flush that has taken such a range and not
protected the page again. A page must be writable only while it is pending. The fault handler
makes it so before it unprotects the page, but a flush may take the range and protect the page
in between, and then the handler makes a page writable that nobody is going to flush. `InTime`
excludes exactly this.

* `stores_kept`: in a run in time, every byte of the caller whose value differs from the
  acknowledged one is queued, in `full_dirty`, or in a flush that has not read it or has read
  the very value it has now. A thread that stored a byte while its own range was pending, and
  that later gets `0` from `lupine_prepare_rpc`, knows that the server has acknowledged the
  store or a later one.
* `unacknowledged_stores`: what happens otherwise.
-/

namespace Lupine.HostMemory

open Foundations Function List

variable {Thread Byte : Type}
variable {f : Flush Thread Byte}

/-- Thread `t` published this range, and it covers offset `o`. -/
def Entry.By (e : Entry Thread) (t : Thread) (o : ℕ) : Prop := e.span.Covers o ∧ t ∈ e.publishers

/-- The flush has taken a range that `t` published for `o`. -/
def Flush.TakenBy (f : Flush Thread Byte) (t : Thread) (o : ℕ) : Prop := ∃ e ∈ f.ranges, e.By t o

/-- The flush has taken its ranges and not protected `o` yet. -/
def FlushPhase.Unprotected : FlushPhase → ℕ → Prop
  | .taken _ _, _ | .queueReset _, _ | .pendingCleared, _ => True
  | .protecting todo, o => Covered todo o
  | _, _ => False

/-- The flush has not taken anything yet. -/
def FlushPhase.Untaken : FlushPhase → Prop
  | .locked | .scanning _ | .scanned _ _ => True
  | _ => False

namespace Tracker

section

variable (A : Allocation) (s : Tracker Thread Byte)

/-- A range that `t` published for `o` is in the queue or in `full_dirty`. -/
def QueuedBy (t : Thread) (o : ℕ) : Prop :=
  (∃ i e, s.queue.slots i = some e ∧ e.By t o) ∨
    s.fullDirty = true ∧ t ∈ s.fullDirtyBy ∧ o < A.storageSize

/-- A range that `t` published for `o` is queued, or taken by a flush that has not protected the
page yet. -/
def PendingBy (t : Thread) (o : ℕ) : Prop :=
  s.QueuedBy A t o ∨ ∃ f, s.flush = some f ∧ f.TakenBy t o ∧ f.phase.Unprotected o

/-- A range that `t` published for `o` is queued, or in a flush that is going to have version `n`
of the byte, or a later one, acknowledged. -/
def Owed (t : Thread) (o n : ℕ) : Prop :=
  s.QueuedBy A t o ∨ ∃ f, s.flush = some f ∧ f.TakenBy t o ∧ f.done o = false ∧
    ∀ v m, f.read o = some (v, m) → n ≤ m

/-- The contents of the two copies. -/
structure WriteBack (A : Allocation) (s : Tracker Thread Byte) : Prop where
  version_le : ∀ o, s.acknowledgedVersion o ≤ s.version o
  equal : ∀ o, s.acknowledgedVersion o = s.version o → s.acknowledged o = s.memory o
  untaken : ∀ f, s.flush = some f → f.phase.Untaken → f.ranges = []
  /-- A flush reads only once it has protected its ranges. -/
  early : ∀ f, s.flush = some f → f.phase ≠ .sending → ∀ o, f.read o = none ∧ f.done o = false
  read : ∀ f, s.flush = some f → ∀ o v n, f.read o = some (v, n) →
    A.User o ∧ s.acknowledgedVersion o ≤ n ∧ n ≤ s.version o ∧
      (n = s.version o → v = s.memory o) ∧ (n < s.version o → ∃ t, s.QueuedBy A t o)
  writable : ∀ o, A.User o → s.writable (o / A.pageSize) = true → ∃ t, s.PendingBy A t o
  dirty : ∀ o, A.User o → s.acknowledgedVersion o < s.version o → ∃ t, s.Owed A t o (s.version o)

/-- The handler of a fault makes its page writable while its own range is still pending: no
flush has taken the range and protected the page since the handler queued it. -/
def InTime : Action Thread Byte → Prop
  | .unprotect t => ∀ page, s.handler t = .published (some page) →
      ∀ o, o / A.pageSize = page → A.User o → s.PendingBy A t o
  | _ => True

end

/-! ## What is pending stays pending -/

section Steps

variable {A : Allocation} {s s' : Tracker Thread Byte}
  {a : Action Thread Byte} {t : Thread} {o n : ℕ}

theorem takenBy_entries {q : Queue Thread} {reserved i : ℕ} {e : Entry Thread}
    (hf : f.ranges = q.entries reserved) (hi : q.slots i = some e) (hstart : q.start ≤ i)
    (hlt : i < reserved) (he : e.By t o) : f.TakenBy t o :=
  ⟨e, hf ▸ mem_entries.mpr ⟨i, hstart, hlt, hi⟩, he⟩

theorem takenBy_allRanges (h : f.TakenBy t o) : ∃ e ∈ s.allRanges A f, e.By t o := by
  obtain ⟨e, he, hby⟩ := h
  unfold allRanges
  split
  · exact ⟨e, mem_append_left _ he, hby⟩
  · exact ⟨e, he, hby⟩

theorem covered_of_takenBy {ranges : List (Entry Thread)} (h : ∃ e ∈ ranges, e.By t o) :
    Covered (mergeSpans (ranges.map (·.span))) o := by
  obtain ⟨e, he, hby⟩ := h
  exact covered_mergeSpans.mpr ⟨e.span, mem_map_of_mem he, hby.1⟩

/-- A failed flush puts what it had taken into `full_dirty`. -/
theorem queuedBy_flushFail (ho : o < A.storageSize) (h : f.TakenBy t o) :
    (s.flushFail f).QueuedBy A t o := by
  obtain ⟨e, he, hcov, ht⟩ := h
  have hown : e ∈ f.own := by
    refine mem_filter.mpr ⟨he, ?_⟩
    have := hcov.1
    have := hcov.2
    simp only [decide_eq_true_eq]
    omega
  have hne : f.own.isEmpty = false := by
    cases hf : f.own with
    | nil => simp [hf] at hown
    | cons => rfl
  refine .inr ?_
  simp only [flushFail, hne]
  exact ⟨rfl, mem_append_right _ (mem_flatMap.mpr ⟨e, hown, ht⟩), ho⟩

theorem QueuedBy.of_subset (h : s.QueuedBy A t o)
    (hslots : ∀ i e, s.queue.slots i = some e → s'.queue.slots i = some e)
    (hfull : s.fullDirty = true → s'.fullDirty = true)
    (hby : t ∈ s.fullDirtyBy → t ∈ s'.fullDirtyBy) : s'.QueuedBy A t o := by
  rcases h with ⟨i, e, he, hcov⟩ | ⟨hf, ht, ho⟩
  · exact .inl ⟨i, e, hslots i e he, hcov⟩
  · exact .inr ⟨hfull hf, hby ht, ho⟩

theorem QueuedBy.flushFail (h : s.QueuedBy A t o) : (s.flushFail f).QueuedBy A t o := by
  unfold Tracker.flushFail
  split
  · exact h.of_subset (fun _ _ he => he) id id
  · exact h.of_subset (fun _ _ he => he) (fun _ => rfl) fun ht => mem_append_left _ ht

attribute [local simp] FlushPhase.Unprotected

/-- A store: its page is pending, so the new version is owed. -/
theorem WriteBack.store (h : s.WriteBack A) (v : Byte)
    (hw : s.writable (o / A.pageSize) = true) :
    WriteBack A { s with
      memory := update s.memory o v
      version := update s.version o (s.version o + 1) } := by
  have hle : ∀ o', s.version o' ≤ update s.version o (s.version o + 1) o' := by
    intro o'
    rcases eq_or_ne o' o with rfl | hne
    · simp
    · simp [hne]
  refine ⟨fun o' => (h.version_le o').trans (hle o'), fun o' ho' => ?_, h.untaken, h.early,
    fun f hf o' v' m hread => ?_, h.writable, fun o' hu hlt => ?_⟩
  · rcases eq_or_ne o' o with rfl | hne
    · have := h.version_le o'
      simp only [update_self] at ho'
      omega
    · simpa [hne] using h.equal o' (by simpa [hne] using ho')
  · obtain ⟨hu, h₁, h₂, h₃, h₄⟩ := h.read f hf o' v' m hread
    refine ⟨hu, h₁, h₂.trans (hle o'), fun hm => ?_, fun hm => ?_⟩
    · rcases eq_or_ne o' o with rfl | hne
      · simp only [update_self] at hm
        omega
      · simpa [hne] using h₃ (by simpa [hne] using hm)
    · rcases eq_or_ne o' o with rfl | hne
      · -- the flush is already reading, so the page was made writable for another one
        obtain ⟨t, ht | ⟨g, hg, -, hun⟩⟩ := h.writable o' hu hw
        · exact ⟨t, ht⟩
        · cases hf.symm.trans hg
          have hphase : f.phase ≠ .sending := fun hp => by
            simp [hp] at hun
          simp [(h.early f hf hphase o').1] at hread
      · exact h₄ (by simpa [hne] using hm)
  · rcases eq_or_ne o' o with rfl | hne
    · obtain ⟨t, ht | ⟨g, hg, htaken, hun⟩⟩ := h.writable o' hu hw
      · exact ⟨t, .inl ht⟩
      · have hphase : g.phase ≠ .sending := fun hp => by
          simp [hp] at hun
        obtain ⟨hr, hd⟩ := h.early g hg hphase o'
        exact ⟨t, .inr ⟨g, hg, htaken, hd, by simp [hr]⟩⟩
    · obtain ⟨t, ht⟩ := h.dirty o' hu (by simpa [hne] using hlt)
      refine ⟨t, ?_⟩
      simp only [update_of_ne hne]
      exact ht

variable [DecidableEq Thread]

/-- What is queued stays queued until a flush takes it. -/
theorem QueuedBy.step (h : s.QueuedBy A t o) (hq : s.Queued) (hmove : Move A s a s') :
    s'.QueuedBy A t o ∨ ∃ f f', s.flush = some f ∧ f.phase ≠ .sending ∧ s'.flush = some f' ∧
      f'.TakenBy t o ∧ f'.phase.Unprotected o ∧ f'.read = f.read ∧ f'.done = f.done := by
  cases hmove with
  | fault | enqueue | reserve | overflow | setPending | requireFlush | unprotect | leave | store
  | flushLock | scan | loadPending | clearPending | skipFullDirty | protect | send | read
  | acknowledge | finish | abort => exact .inl (h.of_subset (fun _ _ he => he) id id)
  | @fill u slot span page hu =>
    refine .inl (h.of_subset (fun i e he => ?_) id id)
    have hne : i ≠ slot := by
      rintro rfl
      have := (hq.reserved u i (by rw [hu]; rfl)).2.2
      simp [this] at he
    simpa [hne] using he
  | setFullDirty =>
    exact .inl (h.of_subset (fun _ _ he => he) (fun _ => rfl) fun ht => mem_cons_of_mem _ ht)
  | @take f reserved hasFullDirty hf hphase =>
    rcases h with ⟨i, e, he, hby⟩ | h
    · by_cases hi : i < reserved
      · exact .inr ⟨f, _, hf, by simp [hphase], rfl,
          takenBy_entries rfl he (hq.bounds i e he).1 hi hby, trivial, rfl, rfl⟩
      · exact .inl (.inl ⟨i, e, by simpa [Queue.take, hi] using he, hby⟩)
    · exact .inl (.inr h)
  | reset => exact .inl (h.of_subset (fun _ _ he => by simpa [slots_reset] using he) id id)
  | @takeFullDirty f hf hphase =>
    rcases h with h | ⟨hfull, ht, ho⟩
    · exact .inl (.inl h)
    · have hmem : ∃ e ∈ s.allRanges A f, e.By t o :=
        ⟨⟨⟨0, A.storageSize⟩, s.fullDirtyBy⟩, by simp [allRanges, hfull], ⟨Nat.zero_le _, ho⟩, ht⟩
      exact .inr ⟨f, _, hf, by simp [hphase], rfl, hmem, covered_of_takenBy hmem, rfl, rfl⟩
  | fail hf => exact .inl h.flushFail

/-- What is pending for a page that is writable stays pending. -/
theorem PendingBy.step (h : s.PendingBy A t o) (hq : s.Queued) (ho : o < A.storageSize)
    (hmove : Move A s a s') (hw : s'.writable (o / A.pageSize) = true) : s'.PendingBy A t o := by
  rcases h with h | ⟨f, hf, htaken, hun⟩
  · rcases h.step hq hmove with h | ⟨-, f', -, -, hf', htaken, hun, -⟩
    · exact .inl h
    · exact .inr ⟨f', hf', htaken, hun⟩
  · cases hmove with
    | fault | enqueue | reserve | overflow | fill | setFullDirty | setPending | requireFlush
    | unprotect | leave | store => exact .inr ⟨f, hf, htaken, hun⟩
    | flushLock hf' => simp [hf'] at hf
    | scan hf' hphase | loadPending hf' hphase | take hf' hphase | read hf' hphase
    | acknowledge hf' hphase | finish hf' hphase | abort hf' hphase =>
      cases hf'.symm.trans hf
      simp [hphase] at hun
    | reset hf' | clearPending hf' =>
      cases hf'.symm.trans hf
      exact .inr ⟨_, rfl, htaken, trivial⟩
    | skipFullDirty hf' =>
      cases hf'.symm.trans hf
      exact .inr ⟨_, rfl, htaken, covered_of_takenBy htaken⟩
    | takeFullDirty hf' =>
      cases hf'.symm.trans hf
      have hall := takenBy_allRanges (s := s) (A := A) htaken
      exact .inr ⟨_, rfl, hall, covered_of_takenBy hall⟩
    | @protect g span todo hf' hphase =>
      cases hf'.symm.trans hf
      rw [hphase] at hun
      -- a page of the protected range is not writable any more
      have hspan : ¬ span.Covers o := fun hcov => by
        simp [hcov.touches A.pageSize] at hw
      exact .inr ⟨_, rfl, htaken, (covered_cons.mp hun).resolve_left hspan⟩
    | send hf' hphase =>
      cases hf'.symm.trans hf
      rw [hphase] at hun
      exact absurd hun (covered_nil o)
    | fail hf' =>
      cases hf'.symm.trans hf
      exact .inl (queuedBy_flushFail ho htaken)

theorem storageSize_of_user (hu : A.User o) : o < A.storageSize := by
  have := A.data_le
  have := hu.2
  unfold Allocation.storageSize
  omega

section

variable (hmove : Move A s a s')
include hmove

/-- A byte that is owed stays owed until its version is acknowledged. -/
theorem Owed.step (h : s.Owed A t o n) (hwb : s.WriteBack A) (hq : s.Queued) (hu : A.User o)
    (hn : n ≤ s.version o) :
    n ≤ s'.acknowledgedVersion o ∨ s'.Owed A t o n := by
  rcases h with h | ⟨f, hf, htaken, hdone, hread⟩
  · right
    rcases h.step hq hmove with h | ⟨f, f', hf, hphase, hf', htaken, -, hread, hdone⟩
    · exact .inl h
    · obtain ⟨h₁, h₂⟩ := hwb.early f hf hphase o
      exact .inr ⟨f', hf', htaken, by rw [hdone, h₂], by simp [hread, h₁]⟩
  · have hempty : f.phase.Untaken → False := fun hun => by
      obtain ⟨e, he, -⟩ := htaken
      simp [hwb.untaken f hf hun] at he
    cases hmove with
    | fault | enqueue | reserve | overflow | fill | setFullDirty | setPending | requireFlush
    | unprotect | leave | store => exact .inr (.inr ⟨f, hf, htaken, hdone, hread⟩)
    | flushLock hf' => simp [hf'] at hf
    | scan hf' hphase | loadPending hf' hphase | take hf' hphase | abort hf' hphase =>
      cases hf'.symm.trans hf
      exact (hempty (by rw [hphase]; trivial)).elim
    | reset hf' | clearPending hf' | skipFullDirty hf' | protect hf' | send hf' =>
      cases hf'.symm.trans hf
      exact .inr (.inr ⟨_, rfl, htaken, hdone, hread⟩)
    | takeFullDirty hf' =>
      cases hf'.symm.trans hf
      exact .inr (.inr ⟨_, rfl, takenBy_allRanges htaken, hdone, hread⟩)
    | @read g o' hf' =>
      cases hf'.symm.trans hf
      refine .inr (.inr ⟨_, rfl, htaken, hdone, fun v m hm => ?_⟩)
      rcases eq_or_ne o o' with rfl | hne
      · simp only [update_self, Option.some.injEq, Prod.mk.injEq] at hm
        exact hm.2 ▸ hn
      · exact hread v m (by simpa [hne] using hm)
    | @acknowledge g offsets hf' hphase hsome =>
      cases hf'.symm.trans hf
      by_cases ho : o ∈ offsets
      · obtain ⟨⟨v, m⟩, hm⟩ := Option.isSome_iff_exists.mp (hsome o ho)
        exact .inl (by simpa [acknowledge, hm, ho] using hread v m hm)
      · exact .inr (.inr ⟨_, rfl, htaken, by simpa [ho] using hdone, by simpa [ho] using hread⟩)
    | finish hf' hphase hall =>
      cases hf'.symm.trans hf
      obtain ⟨e, he, hby⟩ := htaken
      have := hall o (storageSize_of_user hu) hu ⟨e.span, mem_map_of_mem he, hby.1⟩
      simp [hdone] at this
    | fail hf' =>
      cases hf'.symm.trans hf
      exact .inr (.inl (queuedBy_flushFail (storageSize_of_user hu) htaken))

/-- The server never goes back to an older version. -/
theorem WriteBack.acknowledgedVersion_le (h : s.WriteBack A) (o : ℕ) :
    s.acknowledgedVersion o ≤ s'.acknowledgedVersion o := by
  cases hmove with
  | acknowledge hf =>
    simp only [acknowledge]
    split
    · rename_i v m hm
      split
      · exact (h.read _ hf o v m hm).2.1
      · exact le_rfl
    · exact le_rfl
  | fail =>
    unfold flushFail
    split <;> exact le_rfl
  | _ => exact le_rfl

/-- Only a store changes the memory. -/
theorem Move.memory_eq (ha : ∀ t o v, a ≠ .store t o v) :
    s'.memory = s.memory ∧ s'.version = s.version := by
  cases hmove with
  | store => exact absurd rfl (ha _ _ _)
  | fail =>
    unfold flushFail
    split <;> exact ⟨rfl, rfl⟩
  | _ => exact ⟨rfl, rfl⟩

attribute [local simp] Tracker.acknowledge

/-- An acknowledgement copies a byte that a flush has read. -/
theorem Move.acknowledged_eq (o : ℕ) :
    (s'.acknowledged o = s.acknowledged o ∧ s'.acknowledgedVersion o = s.acknowledgedVersion o) ∨
      ∃ f, s.flush = some f ∧
        f.read o = some (s'.acknowledged o, s'.acknowledgedVersion o) := by
  cases hmove with
  | @acknowledge f offsets hf hphase hsome =>
    cases hread : f.read o with
    | none => exact .inl (by simp [hread])
    | some r =>
      by_cases ho : o ∈ offsets
      · exact .inr ⟨f, hf, by simp [hread, ho]⟩
      · exact .inl (by simp [hread, ho])
  | fail =>
    unfold flushFail
    split <;> exact .inl ⟨rfl, rfl⟩
  | _ => exact .inl ⟨rfl, rfl⟩

/-- What a flush has read before a step is what it had read, but for the byte read now. -/
theorem Move.read_eq {f' : Flush Thread Byte} (hf' : s'.flush = some f') {v : Byte} {m : ℕ}
    (hread : f'.read o = some (v, m)) :
    (∃ f, s.flush = some f ∧ f.read o = some (v, m)) ∨
      A.User o ∧ v = s.memory o ∧ m = s.version o := by
  cases hmove with
  | fault | enqueue | reserve | overflow | fill | setFullDirty | setPending | requireFlush
  | unprotect | leave | store => exact .inl ⟨f', hf', hread⟩
  | flushLock =>
    cases hf'
    simp [Flush.begin] at hread
  | scan hf | loadPending hf | take hf | reset hf | clearPending hf | skipFullDirty hf
  | takeFullDirty hf | protect hf | send hf =>
    cases hf'
    exact .inl ⟨_, hf, hread⟩
  | @read f o' hf hphase hu =>
    cases hf'
    rcases eq_or_ne o o' with rfl | hne
    · simp only [update_self, Option.some.injEq, Prod.mk.injEq] at hread
      exact .inr ⟨hu, hread.1.symm, hread.2.symm⟩
    · exact .inl ⟨f, hf, by simpa [hne] using hread⟩
  | @acknowledge f offsets hf =>
    cases hf'
    by_cases ho : o ∈ offsets
    · simp [ho] at hread
    · exact .inl ⟨f, hf, by simpa [ho] using hread⟩
  | finish | abort => simp at hf'
  | fail =>
    unfold flushFail at hf'
    split at hf' <;> simp at hf'

theorem WriteBack.untaken_step (h : s.WriteBack A) :
    ∀ f, s'.flush = some f → f.phase.Untaken → f.ranges = [] := by
  intro f' hf' hun
  cases hmove with
  | fault | enqueue | reserve | overflow | fill | setFullDirty | setPending | requireFlush
  | unprotect | leave | store => exact h.untaken f' hf' hun
  | flushLock =>
    cases hf'
    rfl
  | scan hf hphase | loadPending hf hphase =>
    have hold := h.untaken _ hf (by rw [hphase]; trivial)
    cases hf'
    exact hold
  | take | reset | clearPending | skipFullDirty | takeFullDirty | protect | send =>
    cases hf'
    exact hun.elim
  | read hf | acknowledge hf =>
    have hold := h.untaken _ hf
    cases hf'
    exact hold hun
  | finish | abort => simp at hf'
  | fail =>
    unfold flushFail at hf'
    split at hf' <;> simp at hf'

theorem WriteBack.early_step (h : s.WriteBack A) :
    ∀ f, s'.flush = some f → f.phase ≠ .sending → ∀ o, f.read o = none ∧ f.done o = false := by
  intro f' hf' hne o
  cases hmove with
  | fault | enqueue | reserve | overflow | fill | setFullDirty | setPending | requireFlush
  | unprotect | leave | store => exact h.early f' hf' hne o
  | flushLock =>
    cases hf'
    exact ⟨rfl, rfl⟩
  | scan hf hphase | loadPending hf hphase | take hf hphase | reset hf hphase
  | clearPending hf hphase | skipFullDirty hf hphase | takeFullDirty hf hphase
  | protect hf hphase =>
    have hold := h.early _ hf (by simp [hphase]) o
    cases hf'
    exact hold
  | send =>
    cases hf'
    exact absurd rfl hne
  | read hf hphase | acknowledge hf hphase =>
    cases hf'
    exact absurd hphase hne
  | finish | abort => simp at hf'
  | fail =>
    unfold flushFail at hf'
    split at hf' <;> simp at hf'

theorem WriteBack.writable_step (h : s.WriteBack A) (hq : s.Queued) (htime : s.InTime A a)
    (hu : A.User o) (hw : s'.writable (o / A.pageSize) = true) :
    ∃ t, s'.PendingBy A t o := by
  have ho := storageSize_of_user hu
  suffices hs : ∃ t, s.PendingBy A t o by
    obtain ⟨t, ht⟩ := hs
    exact ⟨t, ht.step hq ho hmove hw⟩
  cases hmove with
  | @unprotect t page ht =>
    by_cases hpage : o / A.pageSize = page
    · exact ⟨t, htime page ht o hpage hu⟩
    · exact h.writable o hu (by simpa [hpage] using hw)
  | protect =>
    simp only [Bool.and_eq_true] at hw
    exact h.writable o hu hw.1
  | fail =>
    unfold flushFail at hw
    split at hw <;> exact h.writable o hu hw
  | _ => exact h.writable o hu hw

/-- Every action in time keeps the contents accounted for. -/
theorem WriteBack.step (h : s.WriteBack A) (hq : s.Queued) (htime : s.InTime A a) :
    s'.WriteBack A := by
  by_cases ha : ∃ t o v, a = .store t o v
  · obtain ⟨t, o, v, rfl⟩ := ha
    cases hmove with
    | store _ _ hw => exact h.store v hw
  · have hmem := hmove.memory_eq fun t o v hst => ha ⟨t, o, v, hst⟩
    have hle : ∀ o, s'.acknowledgedVersion o ≤ s.version o := by
      intro o
      rcases hmove.acknowledged_eq o with ⟨-, hv⟩ | ⟨f, hf, hread⟩
      · exact hv ▸ h.version_le o
      · exact (h.read f hf o _ _ hread).2.2.1
    refine ⟨fun o => hmem.2 ▸ hle o, fun o ho => ?_, h.untaken_step hmove, h.early_step hmove,
      fun f' hf' o v m hread => ?_, fun o hu hw => h.writable_step hmove hq htime hu hw,
      fun o hu hlt => ?_⟩
    · rw [hmem.2] at ho
      rw [hmem.1]
      rcases hmove.acknowledged_eq o with ⟨hv, hn⟩ | ⟨f, hf, hread⟩
      · exact hv ▸ h.equal o (hn ▸ ho)
      · exact (h.read f hf o _ _ hread).2.2.2.1 ho
    · rw [hmem.1, hmem.2]
      rcases hmove.read_eq hf' hread with ⟨f, hf, hold⟩ | ⟨hu, rfl, rfl⟩
      · obtain ⟨hu, h₁, h₂, h₃, h₄⟩ := h.read f hf o v m hold
        refine ⟨hu, ?_, h₂, h₃, fun hm => ?_⟩
        · rcases hmove.acknowledged_eq o with ⟨-, hn⟩ | ⟨g, hg, hn⟩
          · exact hn ▸ h₁
          · cases hf.symm.trans hg
            rw [hold, Option.some.injEq, Prod.mk.injEq] at hn
            exact hn.2.ge
        · obtain ⟨t, ht⟩ := h₄ hm
          rcases ht.step hq hmove with ht | ⟨g, -, hg, hphase, -⟩
          · exact ⟨t, ht⟩
          · cases hf.symm.trans hg
            simp [(h.early f hf hphase o).1] at hold
      · exact ⟨hu, hle o, le_rfl, fun _ => rfl, fun hm => absurd hm (lt_irrefl _)⟩
    · rw [hmem.2] at hlt ⊢
      obtain ⟨t, ht⟩ := h.dirty o hu ((h.acknowledgedVersion_le hmove o).trans_lt hlt)
      rcases ht.step hmove h hq hu le_rfl with hn | ht
      · omega
      · exact ⟨t, ht⟩

end

attribute [local simp] managed exposed

theorem WriteBack.of_start (h : Start A s) : s.WriteBack A := by
  cases h with
  | managed memory =>
    exact ⟨fun _ => le_rfl, fun _ _ => rfl, by simp, by simp,
      by simp, by simp, by simp⟩
  | exposed t memory acknowledged =>
    refine ⟨fun _ => Nat.zero_le _, by simp, by simp,
      by simp, by simp, by simp,
      fun o hu _ => ⟨t, .inl (.inl ⟨0, ⟨⟨0, A.storageSize⟩, [t]⟩, by simp, ?_, by simp⟩)⟩⟩
    exact ⟨Nat.zero_le _, storageSize_of_user hu⟩

end Steps

/-! ## Whole runs -/

section Runs

variable {A : Allocation} {s₀ s s' : Tracker Thread Byte} {as : List (Action Thread Byte)}
  {t : Thread} {o n : ℕ}

/-- The three invariants together. -/
structure Kept (A : Allocation) (s : Tracker Thread Byte) : Prop where
  queued : s.Queued
  epochs : s.Epochs
  writeBack : s.WriteBack A

/-- The byte is covered by a queued range, by `full_dirty`, or by a flush that has not been
acknowledged and either has not read the byte or has read the value it has now. -/
def Accounted (s : Tracker Thread Byte) (o : ℕ) : Prop :=
  Covered ((s.queue.entries s.queue.next).map (·.span)) o ∨ s.fullDirty = true ∨
    ∃ f, s.flush = some f ∧ Covered (f.ranges.map (·.span)) o ∧ f.done o = false ∧
      (f.read o = none ∨ ∃ n, f.read o = some (s.memory o, n))

theorem Kept.accounted (h : s.Kept A) (hu : A.User o)
    (hne : s.memory o ≠ s.acknowledged o) : s.Accounted o := by
  have hlt : s.acknowledgedVersion o < s.version o := by
    refine lt_of_le_of_ne (h.writeBack.version_le o) fun he => ?_
    exact hne (h.writeBack.equal o he).symm
  obtain ⟨t, (⟨i, e, he, hby⟩ | ⟨hfull, -⟩) | ⟨f, hf, ⟨e, he, hby⟩, hdone, hread⟩⟩ :=
    h.writeBack.dirty o hu hlt
  · have hi := h.queued.bounds i e he
    exact .inl ⟨e.span, mem_map_of_mem (mem_entries.mpr ⟨i, hi.1, hi.2, he⟩), hby.1⟩
  · exact .inr (.inl hfull)
  · refine .inr (.inr ⟨f, hf, ⟨e.span, mem_map_of_mem he, hby.1⟩, hdone, ?_⟩)
    cases hr : f.read o with
    | none => exact .inl rfl
    | some r =>
      obtain ⟨-, -, hle, heq, -⟩ := h.writeBack.read f hf o r.1 r.2 hr
      have hge := hread r.1 r.2 hr
      exact .inr ⟨r.2, by rw [← heq (by omega)]⟩

/-- A thread that owes a version of a byte has an epoch to wait for. -/
theorem Kept.late_of_owed (h : s.Kept A) (howed : s.Owed A t o n) :
    s.Late s.flushedHostEpoch t := by
  rcases howed with (⟨i, e, he, -, ht⟩ | ⟨-, ht, -⟩) | ⟨f, hf, ⟨e, he, -, ht⟩, -⟩
  · exact h.epochs.slots i e he t ht
  · exact h.epochs.fullDirty t ht
  · exact h.epochs.ranges f hf e he t ht

theorem Prepared.not_late (h : s.Prepared t) : ¬ s.Late s.flushedHostEpoch t := by
  rintro (hlt | hun)
  · exact absurd h.2 (by omega)
  · simp [h.1, Handler.Unpublished] at hun

/-- A byte stored while a range of the storing thread is pending is owed by that thread. -/
theorem Kept.owed_of_pendingBy (h : s.Kept A) (hp : s.PendingBy A t o) (v : Byte) :
    Owed A { s with
      memory := update s.memory o v
      version := update s.version o (s.version o + 1) } t o n := by
  rcases hp with hq | ⟨f, hf, htaken, hun⟩
  · exact .inl hq
  · have hphase : f.phase ≠ .sending := fun hp => by
      simp [hp, FlushPhase.Unprotected] at hun
    obtain ⟨hr, hd⟩ := h.writeBack.early f hf hphase o
    exact .inr ⟨f, hf, htaken, hd, by simp [hr]⟩

variable [DecidableEq Thread]

theorem Kept.step {a : Action Thread Byte} (h : s.Kept A) (htime : s.InTime A a)
    (hstep : s.step A a = some s') : s'.Kept A :=
  have hmove := move_of_step hstep
  ⟨h.queued.step hmove, h.epochs.step h.queued hmove, h.writeBack.step hmove h.queued htime⟩

theorem Kept.exec (h : s.Kept A) (htime : Along (Tracker.step A) (InTime A) s as)
    (hrun : Foundations.exec (Tracker.step A) s as = some s') : s'.Kept A :=
  exec_invariant_along (fun _ _ _ hs htime hstep => hs.step htime hstep) h htime hrun

theorem Kept.of_start (h : Start A s) : s.Kept A :=
  ⟨.of_start h, .of_start h, .of_start h⟩

theorem Move.version_le {a : Action Thread Byte} (hmove : Move A s a s') (o : ℕ) :
    s.version o ≤ s'.version o := by
  cases hmove with
  | @store _ o' =>
    rcases eq_or_ne o o' with rfl | hne
    · simp
    · simp [hne]
  | fail =>
    unfold flushFail
    split <;> exact le_rfl
  | _ => exact le_rfl

/-- A version that thread `t` owes is owed to the end of the run, unless it is acknowledged. -/
theorem Kept.owed_exec (h : s.Kept A) (hu : A.User o) (hn : n ≤ s.version o)
    (howed : s.Owed A t o n) (htime : Along (Tracker.step A) (InTime A) s as)
    (hrun : Foundations.exec (Tracker.step A) s as = some s') :
    n ≤ s'.acknowledgedVersion o ∨ s'.Owed A t o n := by
  have hinv : s'.Kept A ∧ n ≤ s'.version o ∧ (n ≤ s'.acknowledgedVersion o ∨ s'.Owed A t o n) := by
    refine exec_invariant_along (I := fun s => s.Kept A ∧ n ≤ s.version o ∧
      (n ≤ s.acknowledgedVersion o ∨ s.Owed A t o n)) ?_ ⟨h, hn, .inr howed⟩ htime hrun
    rintro u a u' ⟨hk, hle, hor⟩ ht hstep
    have hmove := move_of_step hstep
    refine ⟨hk.step ht hstep, hle.trans (hmove.version_le o), ?_⟩
    rcases hor with hack | hor
    · exact .inl (hack.trans (hk.writeBack.acknowledgedVersion_le hmove o))
    · exact hor.step hmove hk.writeBack hk.queued hu hle
  exact hinv.2.2

/-- **Host writes are kept.** In a run whose fault handlers are in time, every byte of the caller
that differs from the server's copy is accounted for. A thread that stored a byte while its own
range for the page was pending, and for which `lupine_prepare_rpc` later returns `0`, knows that
the server has acknowledged that store or a later one. -/
theorem stores_kept (hstart : Start A s₀) (htime : Along (step A) (InTime A) s₀ as)
    (hrun : exec (step A) s₀ as = some s) :
    (∀ o, A.User o → s.memory o ≠ s.acknowledged o → s.Accounted o) ∧
    ∀ before t o v after s₁, as = before ++ .store t o v :: after →
      exec (step A) s₀ before = some s₁ → A.User o → s₁.PendingBy A t o → s.Prepared t →
      s₁.version o + 1 ≤ s.acknowledgedVersion o := by
  have h₀ := Kept.of_start hstart
  have h := h₀.exec htime hrun
  refine ⟨fun o hu hne => h.accounted hu hne, ?_⟩
  rintro before t o v after s₁ rfl hbefore hu hpending hprepared
  obtain ⟨htime₁, htime₂⟩ := (along_append_iff hbefore).mp htime
  have h₁ := h₀.exec htime₁ hbefore
  rw [exec_append hbefore] at hrun
  obtain ⟨s₂, hstore, hafter⟩ := exec_cons_eq_some.mp hrun
  have h₂ := h₁.step htime₂.1 hstore
  -- the store makes the thread owe the new version
  have howed : s₂.Owed A t o (s₁.version o + 1) ∧ s₁.version o + 1 ≤ s₂.version o := by
    cases move_of_step hstore with
    | store => exact ⟨h₁.owed_of_pendingBy hpending v, by simp⟩
  rcases h₂.owed_exec hu howed.2 howed.1 (htime₂.2 s₂ hstore) hafter with hack | howed
  · exact hack
  · exact absurd (h.late_of_owed howed) hprepared.not_late

/-- **Published ranges.** In every run, also of handlers that are late: when `lupine_prepare_rpc`
returns `0`, no range that the thread published is queued, in `full_dirty` or with a flush. -/
theorem published_acknowledged (hstart : Start A s₀) (hrun : exec (step A) s₀ as = some s)
    (hprepared : s.Prepared t) (o : ℕ) :
    ¬ s.QueuedBy A t o ∧ ∀ f, s.flush = some f → ¬ f.TakenBy t o := by
  obtain ⟨-, h⟩ := exec_invariant (I := fun s => s.Queued ∧ s.Epochs)
    (fun _ _ _ h hstep => ⟨h.1.step (move_of_step hstep), h.2.step h.1 (move_of_step hstep)⟩)
    ⟨.of_start hstart, .of_start hstart⟩ hrun
  refine ⟨?_, fun f hf ⟨e, he, _, ht⟩ => hprepared.not_late (h.ranges f hf e he t ht)⟩
  rintro (⟨i, e, he, -, ht⟩ | ⟨-, ht, -⟩)
  · exact hprepared.not_late (h.slots i e he t ht)
  · exact hprepared.not_late (h.fullDirty t ht)

end Runs

theorem along_inTime_of_notMem [DecidableEq Thread] {A : Allocation}
    {as : List (Action Thread Byte)} (s : Tracker Thread Byte)
    (h : ∀ t, Action.unprotect t ∉ as) : Along (step A) (InTime A) s as := by
  induction as generalizing s with
  | nil => trivial
  | cons a as ih =>
    refine ⟨?_, fun s' _ => ih s' fun t ht => h t (mem_cons_of_mem _ ht)⟩
    cases a with
    | unprotect t => exact absurd mem_cons_self (h t)
    | _ => trivial

/-! ## Runs on one page -/

/-- One page of two bytes. -/
def onePage : Allocation := ⟨2, 1, 0, 2, by decide, by decide⟩

/-- The fault handler up to the publication of the range of page `0`. -/
def publishPage (t : Thread) : List (Action Thread ℕ) :=
  [.fault t 0, .reserve t, .fill t, .requireFlush t]

/-- A flush up to the point where it reads. -/
def flushUpToRead (t : Thread) : List (Action Thread ℕ) :=
  .flushLock t :: List.replicate 7 .flushStep

/-- A flush of both bytes that succeeds. -/
def flushPage (t : Thread) : List (Action Thread ℕ) :=
  flushUpToRead t ++ [.flushRead 0, .flushRead 1, .flushAcknowledge [0, 1], .flushFinish true]

/-- The state after a run of two threads on a page of zeros. -/
def afterRun (as : List (Action Bool ℕ)) : Option (Tracker Bool ℕ) :=
  exec (step onePage) (managed fun _ => 0) as

theorem stores_kept_on_page :
    ∃ s, afterRun (publishPage false ++ [.unprotect false] ++
        .store false 0 7 :: flushPage true) = some s ∧
      s.memory 0 = 7 ∧ s.Prepared false ∧ 1 ≤ s.acknowledgedVersion 0 ∧
      ∀ o, onePage.User o → s.memory o ≠ s.acknowledged o → s.Accounted o := by
  have htime : Along (step onePage) (InTime onePage) (managed fun _ => 0)
      (publishPage false ++ [.unprotect false] ++ .store false 0 7 :: flushPage true) := by
    refine (along_append_iff rfl).mpr ⟨(along_append_iff rfl).mpr ⟨?_, ?_⟩, ?_⟩
    · exact along_inTime_of_notMem _ (by simp [publishPage])
    · refine ⟨fun page hpage o ho hu => .inl (.inl ⟨0, _, rfl, ⟨Nat.zero_le _, hu.2⟩, ?_⟩), ?_⟩
      · exact mem_singleton_self _
      · exact fun _ _ => trivial
    · exact along_inTime_of_notMem _ (by simp [flushPage, flushUpToRead])
  obtain ⟨hkept, hstores⟩ := stores_kept (s := _) (.managed _) htime rfl
  refine ⟨_, rfl, rfl, ⟨rfl, by decide⟩, ?_, hkept⟩
  refine hstores _ false 0 7 _ _ rfl rfl (by decide) ?_ ⟨rfl, by decide⟩
  exact .inl (.inl ⟨0, _, rfl, ⟨by decide, by decide⟩, mem_singleton_self _⟩)

theorem published_acknowledged_on_page :
    ∃ s, afterRun (publishPage false ++ .unprotect false :: flushPage true) = some s ∧
      ¬ s.QueuedBy onePage false 0 := by
  have hrun : ∃ s, afterRun (publishPage false ++ .unprotect false :: flushPage true) = some s ∧
      s.Prepared false := ⟨_, rfl, rfl, by decide⟩
  obtain ⟨s, hs, hprepared⟩ := hrun
  exact ⟨s, hs, (published_acknowledged (.managed _) hs hprepared 0).1⟩

/-- The byte lies in a page covered by a queued range, by `full_dirty`, or by a flush that has
not read that page. -/
def CoveredUnread (A : Allocation) (s : Tracker Thread Byte) (o : ℕ) : Prop :=
  s.fullDirty = true ∨ ∃ o', o' / A.pageSize = o / A.pageSize ∧
    (Covered ((s.queue.entries s.queue.next).map (·.span)) o' ∨
      ∃ f, s.flush = some f ∧ Covered (f.ranges.map (·.span)) o' ∧
        ∀ o'', o'' / A.pageSize = o / A.pageSize → f.read o'' = none ∧ f.done o'' = false)

/-- The invariant with unread flushes alone fails in three ways. A flush that has read a byte and
waits for the acknowledgement is none of the three things. A thread that stores into a page
another thread made writable has published nothing, and `lupine_prepare_rpc` does not make it
wait. And a flush that takes the range and protects the page between the two halves of the fault
handler leaves a writable page that nobody is going to flush, so that even the publishing thread
is told that its store has been sent. -/
theorem unacknowledged_stores :
    (∃ s, afterRun (publishPage false ++ [.unprotect false, .store false 0 7] ++
        flushUpToRead true ++ [.flushRead 0]) = some s ∧
      onePage.User 0 ∧ s.memory 0 ≠ s.acknowledged 0 ∧ ¬ s.CoveredUnread onePage 0) ∧
    (∃ s, afterRun (publishPage false ++ [.unprotect false, .store true 0 7]) = some s ∧
      onePage.User 0 ∧ s.memory 0 ≠ s.acknowledged 0 ∧ s.Prepared true ∧
      s.acknowledgedVersion 0 < s.version 0) ∧
    (∃ s, afterRun (publishPage false ++ flushPage true ++
        [.unprotect false, .store false 0 7]) = some s ∧
      onePage.User 0 ∧ s.memory 0 ≠ s.acknowledged 0 ∧ ¬ s.CoveredUnread onePage 0 ∧
      s.Prepared false ∧ s.acknowledgedVersion 0 < s.version 0) := by
  refine ⟨⟨_, rfl, by decide, by decide, ?_⟩, ⟨_, rfl, by decide, by decide, ⟨rfl, by decide⟩,
    by decide⟩, ⟨_, rfl, by decide, by decide, ?_, ⟨rfl, by decide⟩, by decide⟩⟩
  · rintro (h | ⟨o', -, h | ⟨f, hf, -, h⟩⟩)
    · exact absurd h (by decide)
    · exact covered_nil o' h
    · cases hf
      exact absurd (h 0 rfl).1 (by decide)
  · rintro (h | ⟨o', -, h | ⟨f, hf, -⟩⟩)
    · exact absurd h (by decide)
    · exact covered_nil o' h
    · cases hf

end Tracker

end Lupine.HostMemory
