import Mathlib.Data.Fintype.Basic
import Lupine.Bulk.Staging
import Lupine.Foundations.Update

/-!
# Assembly of bulk copies

What `Lupine.Bulk.Staging` guarantees, and when.

* Nothing checks the header of a chunk: a range that does not fit the buffer is written outside it
  (`out_of_bounds_chunk`).
* A commit that gives up because a connection was lost frees the buffer while handlers of other
  connections still write to it, and a handler that ends after the commit inserts an entry that
  nothing removes (`freed_while_reading`).

When the chunks fit, when no handler works on the copy while its commit removes the entry and none
starts on it later (`Orderly`), there is no invalid write and no entry is left. If the chunks are
moreover parts of a source, each part once, a commit that succeeds has copied that source
(`assembled`).
-/

namespace Lupine.Bulk

open Foundations Function Finset Heap

namespace Server

variable {Lane : Type}

/-! ## Conditions on a run -/

variable {s s' : Server Lane} {c : Chunk} {st : Staging} {lane : Lane}
variable {data k : ℕ}

/-- No chunk handler works on the copy. -/
def Quiet (s : Server Lane) (k : ℕ) : Prop := ∀ lane, ¬(s.handlers lane).On k

instance [Fintype Lane] (s : Server Lane) (k : ℕ) : Decidable (s.Quiet k) :=
  inferInstanceAs (Decidable (∀ lane, ¬(s.handlers lane).On k))

/-- The size of the buffer that a chunk is read into. -/
def bufferSize (s : Server Lane) (c : Chunk) : ℕ :=
  let st := s.staging c.copyId
  if st.data.isNone then c.total else st.total

/-- A chunk fits its buffer and is not too late for its commit, which removes the entry while no
handler works on it. -/
def Orderly (s : Server Lane) : Action Lane → Prop
  | .arrive _ c =>
    c.offset + c.payload.length ≤ s.bufferSize c ∧ ¬(s.commits c.copyId).Removed
  | .wake k => s.Quiet k
  | _ => True

instance [Fintype Lane] (s : Server Lane) : (a : Action Lane) → Decidable (s.Orderly a)
  | .arrive _ c => inferInstanceAs (Decidable
      (c.offset + c.payload.length ≤ s.bufferSize c ∧ ¬(s.commits c.copyId).Removed))
  | .wake k => inferInstanceAs (Decidable (s.Quiet k))
  | .receive _ | .land _ | .stop _ | .lose _ | .commit .. | .copy .. => isTrue trivial

/-- The chunk is a part of the source of its copy. -/
structure Part (source : ℕ → List UInt8) (c : Chunk) : Prop where
  total_eq : c.total = (source c.copyId).length
  le_length : c.offset + c.payload.length ≤ (source c.copyId).length
  payload_eq : c.payload = ((source c.copyId).drop c.offset).take c.payload.length

instance (source : ℕ → List UInt8) (c : Chunk) : Decidable (Part source c) :=
  decidable_of_iff (c.total = (source c.copyId).length ∧
      c.offset + c.payload.length ≤ (source c.copyId).length ∧
      c.payload = ((source c.copyId).drop c.offset).take c.payload.length)
    ⟨fun h => ⟨h.1, h.2.1, h.2.2⟩, fun h => ⟨h.total_eq, h.le_length, h.payload_eq⟩⟩

/-- The chunks of a copy are parts of its source, and no two of them overlap. -/
def FromSource (source : ℕ → List UInt8) (s : Server Lane) : Action Lane → Prop
  | .arrive _ c => Part source c ∧ Disjoint (s.claimed c.copyId) c.range
  | .commit k bytes _ => bytes = (source k).length
  | _ => True

instance (source : ℕ → List UInt8) (s : Server Lane) :
    (a : Action Lane) → Decidable (s.FromSource source a)
  | .arrive _ c => inferInstanceAs (Decidable
      (Part source c ∧ Disjoint (s.claimed c.copyId) c.range))
  | .commit k bytes _ => inferInstanceAs (Decidable (bytes = (source k).length))
  | .receive _ | .land _ | .stop _ | .lose _ | .wake _ | .copy .. => isTrue trivial

/-! ## Buffers -/

/-- What a handler that reads relies on: the entry of its copy has the buffer, and the chunk
fits. -/
structure Placed (s : Server Lane) (c : Chunk) (data received : ℕ) : Prop where
  staged : ∃ st, s.stagings c.copyId = some st ∧ st.data = some data ∧
    c.offset + c.payload.length ≤ st.total
  received_le : received ≤ c.payload.length

/-- The buffers of the server: each belongs to one entry or to one commit. -/
structure Sound (s : Server Lane) : Prop where
  placed : ∀ lane c data received,
    s.handlers lane = .reading c data received → s.Placed c data received
  allocated : ∀ k st, s.stagings k = some st →
    ∃ data, st.data = some data ∧ s.heap.Allocated data st.total
  separate : ∀ k k' st st', s.stagings k = some st → s.stagings k' = some st' →
    st.data = st'.data → k = k'
  taken : ∀ k bytes toHost data, s.commits k = .copying bytes toHost (some data) →
    data < s.heap.next ∧ ∀ k' st, s.stagings k' = some st → st.data ≠ some data
  removed : ∀ k, (s.commits k).Removed → s.stagings k = none ∧ s.Quiet k
  valid : s.invalidWrite = false

theorem Placed.of_stagings {received : ℕ} (h : s.Placed c data received)
    (hst : s'.stagings = s.stagings) : s'.Placed c data received :=
  ⟨hst ▸ h.staged, h.received_le⟩

attribute [local simp] initial Commit.Removed

theorem sound_initial : (initial : Server Lane).Sound where
  placed := by simp
  allocated := by simp
  separate := by simp
  taken := by simp
  removed := by simp
  valid := rfl

theorem Sound.buffer (h : s.Sound) (hst : s.stagings k = some st) (hdata : st.data = some data) :
    s.heap.Allocated data st.total := by
  obtain ⟨data', hdata', ha⟩ := h.allocated k st hst
  obtain rfl : data = data' := by simpa [hdata] using hdata'
  exact ha

theorem Sound.lt_next (h : s.Sound) (hst : s.stagings k = some st) (hdata : st.data = some data) :
    data < s.heap.next :=
  (h.buffer hst hdata).lt_next

theorem Sound.writable (h : s.Sound) {received : ℕ} (hp : s.Placed c data received)
    (hr : received < c.payload.length) : s.heap.Writable data (c.offset + received) := by
  obtain ⟨st, hst, hdata, hle⟩ := hp.staged
  exact (h.buffer hst hdata).writable (by omega)

attribute [local simp] staging

/-- Only an entry has a buffer. -/
theorem exists_of_data (hdata : (s.staging k).data = some data) :
    ∃ st, s.stagings k = some st ∧ st.data = some data := by
  rcases hk : s.stagings k with _ | st
  · simp [hk] at hdata
  · exact ⟨st, rfl, by simpa [hk] using hdata⟩

theorem bufferSize_of_none (hst : s.stagings c.copyId = none) : s.bufferSize c = c.total := by
  simp [bufferSize, hst]

theorem bufferSize_of_some (hst : s.stagings c.copyId = some st) (hdata : st.data = some data) :
    s.bufferSize c = st.total := by
  simp [bufferSize, hst, hdata]

section Lanes

variable [DecidableEq Lane]

theorem arrive_of_none (hst : s.stagings c.copyId = none) :
    s.arrive lane c = { s with
      stagings := update s.stagings c.copyId (some ⟨some s.heap.next, c.total, 0⟩)
      heap := s.heap.malloc c.total
      handlers := update s.handlers lane (.reading c s.heap.next 0)
      claimed := update s.claimed c.copyId (s.claimed c.copyId ∪ c.range) } := by
  simp [arrive, hst]

theorem arrive_of_some (hst : s.stagings c.copyId = some st) (hdata : st.data = some data) :
    s.arrive lane c = { s with
      handlers := update s.handlers lane (.reading c data 0)
      claimed := update s.claimed c.copyId (s.claimed c.copyId ∪ c.range) } := by
  have hsame : update s.stagings c.copyId (some st) = s.stagings := by
    rw [← hst, update_eq_self]
  simp [arrive, hst, hdata, hsame]

/-- A lane that starts to read: the others keep their place. -/
theorem placed_update (h : s.Sound) {handler : Handler}
    (hhandlers : s'.handlers = update s.handlers lane handler)
    (hkeep : ∀ c data received, s.Placed c data received → s'.Placed c data received)
    (hnew : ∀ c data received, handler = .reading c data received → s'.Placed c data received)
    (lane' : Lane) (c : Chunk) (data received : ℕ)
    (hc : s'.handlers lane' = .reading c data received) : s'.Placed c data received := by
  rw [hhandlers] at hc
  rcases update_eq_cases hc with ⟨-, hc⟩ | ⟨-, hc⟩
  · exact hnew c data received hc
  · exact hkeep c data received (h.placed lane' c data received hc)

/-- The copies whose entries are removed stay quiet when a lane turns to another copy. -/
theorem quiet_update (h : s.Quiet k) {handler : Handler} (hoff : ¬handler.On k) (lane' : Lane) :
    ¬(update s.handlers lane handler lane').On k := by
  rcases eq_or_ne lane' lane with rfl | hne
  · simpa using hoff
  · simpa [hne] using h lane'

/-- The first chunk of a copy that arrives: a new buffer for a new entry. -/
theorem Sound.arrive_of_none (h : s.Sound) (hst : s.stagings c.copyId = none)
    (hfits : c.offset + c.payload.length ≤ c.total) (htimely : ¬(s.commits c.copyId).Removed) :
    (s.arrive lane c).Sound := by
  rw [Server.arrive_of_none hst]
  set s' := Server.mk (update s.stagings c.copyId (some ⟨some s.heap.next, c.total, 0⟩)) _
    _ _ _ _ _ _ with hs'
  have hnext : ∀ k st, s.stagings k = some st → st.data ≠ some s.heap.next :=
    fun k st hk heq => (h.lt_next hk heq).false
  constructor
  case placed =>
    refine placed_update h rfl ?_ ?_
    · rintro c' d r ⟨⟨st, hst', hd, hle⟩, hr⟩
      have hne : c'.copyId ≠ c.copyId := by
        intro heq
        rw [heq, hst] at hst'
        cases hst'
      exact ⟨⟨st, by simpa [hs', hne] using hst', hd, hle⟩, hr⟩
    · rintro c' d r ⟨⟩
      exact ⟨⟨_, update_self .., rfl, hfits⟩, Nat.zero_le _⟩
  case allocated =>
    intro k st hk
    rcases update_eq_cases hk with ⟨rfl, ⟨⟩⟩ | ⟨-, hk⟩
    · exact ⟨_, rfl, allocated_malloc⟩
    · obtain ⟨d, hd, ha⟩ := h.allocated k st hk
      exact ⟨d, hd, ha.malloc⟩
  case separate =>
    intro k k' st st' hk hk' heq
    rcases update_eq_cases hk with ⟨rfl, ⟨⟩⟩ | ⟨-, hk⟩ <;>
      rcases update_eq_cases hk' with ⟨rfl, ⟨⟩⟩ | ⟨-, hk'⟩
    · rfl
    · exact absurd heq.symm (hnext k' st' hk')
    · exact absurd heq (hnext k st hk)
    · exact h.separate k k' st st' hk hk' heq
  case taken =>
    intro k bytes toHost d hk
    obtain ⟨hlt, hnot⟩ := h.taken k bytes toHost d hk
    refine ⟨hlt.trans (Nat.lt_succ_self _), fun k' st hk' => ?_⟩
    rcases update_eq_cases hk' with ⟨rfl, ⟨⟩⟩ | ⟨-, hk'⟩
    · simpa using hlt.ne'
    · exact hnot k' st hk'
  case removed =>
    intro k hk
    have hne : k ≠ c.copyId := by
      rintro rfl
      exact htimely hk
    exact ⟨(update_of_ne hne ..).trans (h.removed k hk).1,
      quiet_update (h.removed k hk).2 (by simpa [Handler.On] using hne.symm)⟩
  case valid => exact h.valid

/-- A further chunk of a copy. -/
theorem Sound.arrive_of_some (h : s.Sound) (hst : s.stagings c.copyId = some st)
    (hdata : st.data = some data) (hfits : c.offset + c.payload.length ≤ st.total)
    (htimely : ¬(s.commits c.copyId).Removed) : (s.arrive lane c).Sound := by
  rw [Server.arrive_of_some hst hdata]
  constructor
  case placed =>
    refine placed_update h rfl (fun _ _ _ hp => hp.of_stagings rfl) ?_
    rintro c' d' r ⟨⟩
    exact ⟨⟨st, hst, hdata, hfits⟩, Nat.zero_le _⟩
  case allocated => exact h.allocated
  case separate => exact h.separate
  case taken => exact h.taken
  case removed =>
    intro k hk
    have hne : c.copyId ≠ k := by
      rintro rfl
      exact htimely hk
    exact ⟨(h.removed k hk).1, quiet_update (h.removed k hk).2 hne⟩
  case valid => exact h.valid

theorem Sound.arrive (h : s.Sound) (hC : s.Orderly (.arrive lane c)) : (s.arrive lane c).Sound := by
  obtain ⟨hfits, htimely⟩ := hC
  rcases hst : s.stagings c.copyId with _ | st
  · rw [bufferSize_of_none hst] at hfits
    exact h.arrive_of_none hst hfits htimely
  · obtain ⟨data, hdata, -⟩ := h.allocated _ st hst
    rw [bufferSize_of_some hst hdata] at hfits
    exact h.arrive_of_some hst hdata hfits htimely

theorem Sound.receive (h : s.Sound) {received : ℕ} (hc : s.handlers lane = .reading c data received)
    (hr : received < c.payload.length) : (s.receive lane c data received).Sound := by
  have hp := h.placed lane c data received hc
  constructor
  case placed =>
    refine placed_update h rfl (fun _ _ _ hp => hp.of_stagings rfl) ?_
    rintro c' d r ⟨⟩
    exact ⟨hp.staged, hr⟩
  case allocated =>
    intro k st hk
    obtain ⟨d, hd, ha⟩ := h.allocated k st hk
    exact ⟨d, hd, ha.write⟩
  case separate => exact h.separate
  case taken =>
    intro k bytes toHost d hk
    obtain ⟨hlt, hnot⟩ := h.taken k bytes toHost d hk
    refine ⟨?_, hnot⟩
    change d < (s.heap.write ..).next
    rwa [next_write]
  case removed =>
    refine fun k hk => ⟨(h.removed k hk).1, quiet_update (h.removed k hk).2 ?_⟩
    have := (h.removed k hk).2 lane
    rwa [hc] at this
  case valid =>
    change (s.invalidWrite || !decide _) = false
    simp [h.valid, h.writable hp hr]

theorem Sound.land (h : s.Sound) {received : ℕ} (hc : s.handlers lane = .reading c data received) :
    (s.land lane c).Sound := by
  obtain ⟨st, hst, hdata, -⟩ := (h.placed lane c data received hc).staged
  -- every entry keeps its buffer and its size
  have hentry : ∀ k st', (s.land lane c).stagings k = some st' →
      ∃ st₀, s.stagings k = some st₀ ∧ st₀.data = st'.data ∧ st₀.total = st'.total := by
    intro k st' hk
    rcases update_eq_cases hk with ⟨rfl, ⟨⟩⟩ | ⟨-, hk⟩
    · exact ⟨st, hst, by simp [hst], by simp [hst]⟩
    · exact ⟨st', hk, rfl, rfl⟩
  constructor
  case placed =>
    refine placed_update h rfl ?_ (by simp)
    rintro c' d r ⟨⟨st', hst', hd, hle⟩, hr⟩
    refine ⟨?_, hr⟩
    rcases eq_or_ne c'.copyId c.copyId with heq | hne
    · refine ⟨{ st with landed := st.landed + c.payload.length }, ?_, ?_⟩
      · change update s.stagings c.copyId _ c'.copyId = _
        simp [heq, hst]
      · rw [heq, hst] at hst'
        cases hst'
        exact ⟨hd, hle⟩
    · exact ⟨st', (update_of_ne hne ..).trans hst', hd, hle⟩
  case allocated =>
    intro k st' hk
    obtain ⟨st₀, hk₀, hd, ht⟩ := hentry k st' hk
    exact hd ▸ ht ▸ h.allocated k st₀ hk₀
  case separate =>
    intro k k' st₁ st₂ hk hk' heq
    obtain ⟨st₁', hk₁, hd₁, -⟩ := hentry k st₁ hk
    obtain ⟨st₂', hk₂, hd₂, -⟩ := hentry k' st₂ hk'
    exact h.separate k k' st₁' st₂' hk₁ hk₂ (hd₁.trans (heq.trans hd₂.symm))
  case taken =>
    intro k bytes toHost d hk
    obtain ⟨hlt, hnot⟩ := h.taken k bytes toHost d hk
    refine ⟨hlt, fun k' st' hk' => ?_⟩
    obtain ⟨st₀, hk₀, hd, -⟩ := hentry k' st' hk'
    exact hd ▸ hnot k' st₀ hk₀
  case removed =>
    intro k hk
    have hne : k ≠ c.copyId := by
      rintro rfl
      rw [(h.removed _ hk).1] at hst
      cases hst
    exact ⟨(update_of_ne hne ..).trans (h.removed k hk).1,
      quiet_update (h.removed k hk).2 (by simp [Handler.On])⟩
  case valid => exact h.valid

theorem Sound.stop (h : s.Sound) (lane : Lane) :
    Sound { s with handlers := update s.handlers lane .stopped } where
  placed := placed_update h rfl (fun _ _ _ hp => hp.of_stagings rfl) (by simp)
  allocated := h.allocated
  separate := h.separate
  taken := h.taken
  removed := fun k hk =>
    ⟨(h.removed k hk).1, quiet_update (h.removed k hk).2 (by simp [Handler.On])⟩
  valid := h.valid

end Lanes

theorem Sound.lose (h : s.Sound) : Sound { s with connectionLost := true } :=
  { h with
    placed := fun lane c data received hc => (h.placed lane c data received hc).of_stagings rfl }

theorem Sound.commit (h : s.Sound) (k bytes : ℕ) (toHost : Bool) :
    Sound { s with commits := update s.commits k (.waiting bytes toHost) } where
  placed := fun lane c data received hc => (h.placed lane c data received hc).of_stagings rfl
  allocated := h.allocated
  separate := h.separate
  taken := by
    intro k' bytes' toHost' d hk'
    exact h.taken k' bytes' toHost' d (update_eq_of_ne hk' nofun).2
  removed := by
    intro k' hk'
    rcases eq_or_ne k' k with rfl | hne
    · simp at hk'
    · exact h.removed k' (by simpa [hne] using hk')
  valid := h.valid

attribute [local simp] Server.remove

theorem Sound.remove (h : s.Sound) (hquiet : s.Quiet k) (bytes : ℕ) (toHost : Bool) :
    (s.remove k bytes toHost).Sound := by
  -- an entry that remains is one of another copy, and its buffer is not the one that is freed
  have hentry : ∀ k' st, (s.remove k bytes toHost).stagings k' = some st →
      k' ≠ k ∧ s.stagings k' = some st := by
    intro k' st hk'
    exact update_eq_of_ne hk' nofun
  have hother : ∀ k' st, k' ≠ k → s.stagings k' = some st → ∀ d, (s.staging k).data = some d →
      st.data ≠ some d := by
    intro k' st hne hk' d hd heq
    obtain ⟨st₀, hk, hd₀⟩ := exists_of_data hd
    exact hne (h.separate k' k st st₀ hk' hk (heq.trans hd₀.symm))
  constructor
  case placed =>
    intro lane c d r hc
    change s.handlers lane = _ at hc
    obtain ⟨⟨st, hst, hd, hle⟩, hr⟩ := h.placed lane c d r hc
    have hne : c.copyId ≠ k := by
      intro heq
      exact hquiet lane (by rw [hc]; exact heq)
    exact ⟨⟨st, (update_of_ne hne ..).trans hst, hd, hle⟩, hr⟩
  case allocated =>
    intro k' st hk'
    obtain ⟨hne, hk'⟩ := hentry k' st hk'
    obtain ⟨d, hd, ha⟩ := h.allocated k' st hk'
    refine ⟨d, hd, ?_⟩
    change Heap.Allocated (if _ then s.heap else _) d st.total
    split
    · exact ha
    · cases hdata : (s.staging k).data with
      | none => exact ha
      | some d' =>
        refine ha.free ?_
        rintro rfl
        exact hother k' st hne hk' d hdata hd
  case separate =>
    intro k₁ k₂ st₁ st₂ h₁ h₂ heq
    exact h.separate k₁ k₂ st₁ st₂ (hentry k₁ st₁ h₁).2 (hentry k₂ st₂ h₂).2 heq
  case taken =>
    intro k' bytes' toHost' d hk'
    have hnext : (s.remove k bytes toHost).heap.next = s.heap.next := by
      simp only [Server.remove]
      split
      · rfl
      · cases (s.staging k).data <;> rfl
    rw [hnext]
    rcases update_eq_cases hk' with ⟨rfl, hk'⟩ | ⟨-, hk'⟩
    · obtain ⟨-, -, hif⟩ : bytes = bytes' ∧ toHost = toHost' ∧
          (if (decide (s.Complete k') : Bool) then (s.staging k').data else none) = some d := by
        simpa using hk'
      have hd : (s.staging k').data = some d := by
        split at hif
        · exact hif
        · cases hif
      refine ⟨?_, fun k₁ st h₁ => hother k₁ st (hentry k₁ st h₁).1 (hentry k₁ st h₁).2 d hd⟩
      obtain ⟨st₀, hk, hd₀⟩ := exists_of_data hd
      exact h.lt_next hk hd₀
    · obtain ⟨hlt, hnot⟩ := h.taken k' bytes' toHost' d hk'
      exact ⟨hlt, fun k₁ st h₁ => hnot k₁ st (hentry k₁ st h₁).2⟩
  case removed =>
    intro k' hk'
    rcases eq_or_ne k' k with rfl | hne
    · exact ⟨update_self .., hquiet⟩
    · have hk₀ : (s.commits k').Removed := by simpa [hne] using hk'
      exact ⟨(update_of_ne hne ..).trans (h.removed k' hk₀).1, (h.removed k' hk₀).2⟩
  case valid => exact h.valid

attribute [local simp] Server.finish

theorem Sound.finish (h : s.Sound) {bytes : ℕ} {toHost : Bool} {data : Option ℕ}
    (hk : s.commits k = .copying bytes toHost data) (succeeds : Bool) :
    (s.finish k bytes toHost succeeds data).Sound := by
  have hremoved := h.removed k (by rw [hk]; trivial)
  have hnext : (s.finish k bytes toHost succeeds data).heap.next = s.heap.next := by
    cases data <;> rfl
  constructor
  case placed => exact fun lane c d r hc => (h.placed lane c d r hc).of_stagings rfl
  case allocated =>
    intro k' st hk'
    obtain ⟨d, hd, ha⟩ := h.allocated k' st hk'
    refine ⟨d, hd, ?_⟩
    cases data with
    | none => exact ha
    | some d' =>
      refine ha.free ?_
      rintro rfl
      exact (h.taken k bytes toHost d hk).2 k' st hk' hd
  case separate => exact h.separate
  case taken =>
    intro k' bytes' toHost' d hk'
    rw [hnext]
    exact h.taken k' bytes' toHost' d (update_eq_of_ne hk' nofun).2
  case removed =>
    intro k' hk'
    rcases eq_or_ne k' k with rfl | hne
    · exact hremoved
    · exact h.removed k' (by simpa [hne] using hk')
  case valid => exact h.valid

/-! ## Contents -/

section Contents

variable (source : ℕ → List UInt8)

/-- A place of the buffer holds the byte of the source. -/
def Holds (s : Server Lane) (k data i : ℕ) : Prop :=
  (s.heap.blocks data).values i = (source k)[i]?

/-- What a handler has read so far. -/
structure Reads (s : Server Lane) (c : Chunk) (data received : ℕ) : Prop where
  part : Part source c
  claimed : c.range ⊆ s.claimed c.copyId
  uncovered : Disjoint (s.covered c.copyId) c.range
  holds : ∀ i < received, s.Holds source c.copyId data (c.offset + i)

/-- An entry counts the places that landed, and its buffer holds their bytes. -/
structure Counts (s : Server Lane) (k : ℕ) (st : Staging) : Prop where
  total_eq : st.total = (source k).length
  landed_eq : st.landed = (s.covered k).card
  covered : s.covered k ⊆ Finset.range (source k).length
  holds : ∀ data, st.data = some data → ∀ i ∈ s.covered k, s.Holds source k data i

/-- A commit knows the size of the copy, and what it copies is the source. -/
def Copies (s : Server Lane) (k : ℕ) : Commit → Prop
  | .unsent => True
  | .waiting bytes _ => bytes = (source k).length
  | .copying bytes _ data =>
    bytes = (source k).length ∧ ∀ d ∈ data, ∀ i < bytes, s.Holds source k d i
  | .ended copied => ∀ l ∈ copied, l = (source k).map some

/-- The chunks of each copy carry parts of its source, and what is staged comes from them. -/
structure Faithful (s : Server Lane) : Prop where
  covered_subset : ∀ k, s.covered k ⊆ s.claimed k
  reads : ∀ lane c data received,
    s.handlers lane = .reading c data received → s.Reads source c data received
  apart : ∀ lane lane' c c' data data' received received', lane ≠ lane' →
    s.handlers lane = .reading c data received → s.handlers lane' = .reading c' data' received' →
    c.copyId = c'.copyId → Disjoint c.range c'.range
  unstaged : ∀ k, s.stagings k = none → ¬(s.commits k).Removed → s.covered k = ∅
  counts : ∀ k st, s.stagings k = some st → s.Counts source k st
  copies : ∀ k, s.Copies source k (s.commits k)

variable {source}

theorem faithful_initial : (initial : Server Lane).Faithful source where
  covered_subset := by simp
  reads := by simp
  apart := by simp
  unstaged := by simp
  counts := by simp
  copies := by simp [Copies]

/-- All bytes have landed when the count says so. -/
theorem Counts.holds_of_complete (h : s.Counts source k st) (hst : st.landed = st.total)
    (hdata : st.data = some data) : ∀ i < (source k).length, s.Holds source k data i := by
  have hcard : (Finset.range (source k).length).card ≤ (s.covered k).card := by
    rw [card_range, ← h.landed_eq, hst, h.total_eq]
  have hall := eq_of_subset_of_card_le h.covered hcard
  intro i hi
  exact h.holds data hdata i (hall ▸ mem_range.mpr hi)

theorem Faithful.copied_eq (hf : s.Faithful source) {copied : List (Option UInt8)}
    (hk : s.commits k = .ended (some copied)) : copied = (source k).map some := by
  have hcopies := hf.copies k
  rw [hk] at hcopies
  exact hcopies copied rfl

/-- A step that changes neither the buffers nor what has arrived and landed. -/
theorem Copies.congr {commit : Commit}
    (h : s.Copies source k commit)
    (hvalues : ∀ bytes toHost d, commit = .copying bytes toHost (some d) → ∀ i,
      (s'.heap.blocks d).values i = (s.heap.blocks d).values i) : s'.Copies source k commit := by
  cases commit with
  | unsent => exact h
  | waiting => exact h
  | copying bytes toHost data =>
    refine ⟨h.1, fun d hd i hi => ?_⟩
    obtain rfl : data = some d := hd
    exact (hvalues bytes toHost d rfl i).trans (h.2 d rfl i hi)
  | ended => exact h

/-- A byte of a part is the byte of the source. -/
theorem Part.getElem?_eq (h : Part source c) {i : ℕ} (hi : i < c.payload.length) :
    some (c.payload.getD i 0) = (source c.copyId)[c.offset + i]? := by
  have hget : c.payload[i]? = (source c.copyId)[c.offset + i]? := by
    rw [h.payload_eq, List.getElem?_take_of_lt hi, List.getElem?_drop]
  rw [← hget, List.getD_eq_getElem?_getD, List.getElem?_eq_getElem hi, Option.getD_some]

theorem map_range_values {bytes : ℕ} (hbytes : bytes = (source k).length)
    (h : ∀ i < bytes, s.Holds source k data i) :
    (List.range bytes).map (s.heap.blocks data).values = (source k).map some := by
  subst hbytes
  refine List.ext_getElem (by simp) fun i hi _ => ?_
  have hi' : i < (source k).length := by simpa using hi
  simpa [Holds, hi'] using h i hi'

theorem mem_range_add {i : ℕ} (hi : i < c.payload.length) : c.offset + i ∈ c.range :=
  mem_Ico.mpr ⟨Nat.le_add_right .., Nat.add_lt_add_left hi _⟩

/-- A place that is not the one written to keeps its byte. -/
theorem Holds.write {i data' i' : ℕ} {v : UInt8} (h : s.Holds source k data i)
    (hheap : s'.heap = s.heap.write data' i' v) (hne : data = data' → i ≠ i') :
    s'.Holds source k data i := by
  rw [Holds, hheap, values_write_of_ne hne]
  exact h

section Lanes

variable [DecidableEq Lane]

/-- The buffers that were handed out before keep their bytes when a chunk arrives. -/
theorem values_arrive (s : Server Lane) (lane : Lane) (c : Chunk) (hdata : data < s.heap.next) :
    ((s.arrive lane c).heap.blocks data).values = (s.heap.blocks data).values := by
  simp only [Server.arrive]
  split
  · exact values_malloc hdata
  · rfl

section

variable (hf : s.Faithful source) (h : s.Sound)
include hf h

theorem Faithful.counts_arrive (hpart : Part source c) (htimely : ¬(s.commits c.copyId).Removed)
    (k : ℕ) (st : Staging) (hk : (s.arrive lane c).stagings k = some st) :
    (s.arrive lane c).Counts source k st := by
  have hold : ∀ st', s.stagings k = some st' → (s.arrive lane c).Counts source k st' := by
    intro st' hk'
    obtain ⟨ht, hl, hcov, hh⟩ := hf.counts k st' hk'
    refine ⟨ht, hl, hcov, fun data hdata i hi => ?_⟩
    rw [Holds, values_arrive s lane c (h.lt_next hk' hdata)]
    exact hh data hdata i hi
  rcases hst : s.stagings c.copyId with _ | st₀
  · rw [Server.arrive_of_none hst] at hk
    rcases update_eq_cases hk with ⟨rfl, ⟨⟩⟩ | ⟨-, hk⟩
    · have hempty : (s.arrive lane c).covered c.copyId = ∅ := hf.unstaged _ hst htimely
      exact ⟨hpart.total_eq, by simp [hempty], by simp [hempty], by simp [hempty]⟩
    · exact hold st hk
  · obtain ⟨data, hdata, -⟩ := h.allocated _ st₀ hst
    rw [Server.arrive_of_some hst hdata] at hk
    exact hold st hk

theorem Faithful.arrive (hpart : Part source c) (hnew : Disjoint (s.claimed c.copyId) c.range)
    (htimely : ¬(s.commits c.copyId).Removed) : (s.arrive lane c).Faithful source := by
  have hclaimed : ∀ k, s.claimed k ⊆ (s.arrive lane c).claimed k := by
    intro k
    change s.claimed k ⊆ update s.claimed c.copyId _ k
    rcases eq_or_ne k c.copyId with rfl | hne
    · simp
    · simp [hne]
  -- what other handlers claimed does not meet the new chunk
  have hother : ∀ lane' c' data received, s.handlers lane' = .reading c' data received →
      c'.copyId = c.copyId → Disjoint c'.range c.range := by
    intro lane' c' data received hc' heq
    exact hnew.mono_left (heq ▸ (hf.reads lane' c' data received hc').claimed)
  constructor
  case covered_subset => exact fun k => (hf.covered_subset k).trans (hclaimed k)
  case reads =>
    intro lane' c' data received hc'
    rcases update_eq_cases hc' with ⟨rfl, ⟨⟩⟩ | ⟨-, hc'⟩
    · refine ⟨hpart, ?_, hnew.mono_left (hf.covered_subset _), by simp⟩
      change c.range ⊆ update s.claimed c.copyId _ c.copyId
      simp
    · obtain ⟨hp, hcl, hun, hh⟩ := hf.reads lane' c' data received hc'
      obtain ⟨st, hst, hdata, -⟩ := (h.placed lane' c' data received hc').staged
      refine ⟨hp, hcl.trans (hclaimed _), hun, fun i hi => ?_⟩
      rw [Holds, values_arrive s lane c (h.lt_next hst hdata)]
      exact hh i hi
  case apart =>
    intro l₁ l₂ c₁ c₂ d₁ d₂ r₁ r₂ hne h₁ h₂ heq
    rcases update_eq_cases h₁ with ⟨rfl, ⟨⟩⟩ | ⟨-, hold₁⟩ <;>
      rcases update_eq_cases h₂ with ⟨rfl, ⟨⟩⟩ | ⟨-, hold₂⟩
    · exact absurd rfl hne
    · exact (hother l₂ c₂ d₂ r₂ hold₂ heq.symm).symm
    · exact hother l₁ c₁ d₁ r₁ hold₁ heq
    · exact hf.apart l₁ l₂ c₁ c₂ d₁ d₂ r₁ r₂ hne hold₁ hold₂ heq
  case unstaged =>
    intro k hk hr
    exact hf.unstaged k (update_eq_of_ne hk nofun).2 hr
  case counts => exact hf.counts_arrive h hpart htimely
  case copies =>
    refine fun k => (hf.copies k).congr fun bytes toHost d hk i => ?_
    rw [values_arrive s lane c (h.taken k bytes toHost d hk).1]

theorem Faithful.receive {received : ℕ} (hc : s.handlers lane = .reading c data received)
    (hr : received < c.payload.length) : (s.receive lane c data received).Faithful source := by
  have hplaced := h.placed lane c data received hc
  obtain ⟨hpart, hclaimed, huncovered, hholds⟩ := hf.reads lane c data received hc
  obtain ⟨st, hst, hdata, -⟩ := hplaced.staged
  have hplace : c.offset + received ∈ c.range := mem_range_add hr
  constructor
  case covered_subset => exact hf.covered_subset
  case reads =>
    intro lane' c' data' received' hc'
    rcases update_eq_cases hc' with ⟨rfl, ⟨⟩⟩ | ⟨hne, hold⟩
    · refine ⟨hpart, hclaimed, huncovered, fun i hi => ?_⟩
      rcases Nat.lt_succ_iff_lt_or_eq.mp hi with hi | rfl
      · exact (hholds i hi).write rfl fun _ => by omega
      · exact (values_write_self (h.writable hplaced hr)).trans (hpart.getElem?_eq hr)
    · obtain ⟨hp', hcl', hun', hh'⟩ := hf.reads lane' c' data' received' hold
      refine ⟨hp', hcl', hun', fun i hi => (hh' i hi).write rfl ?_⟩
      rintro rfl heq
      -- the same buffer is the buffer of the same copy, where two chunks do not meet
      obtain ⟨st', hst', hdata', -⟩ := (h.placed lane' c' data' received' hold).staged
      have hk := h.separate _ _ st' st hst' hst (hdata'.trans hdata.symm)
      have hi' : i < c'.payload.length :=
        lt_of_lt_of_le hi (h.placed lane' c' data' received' hold).received_le
      have hdisj := hf.apart lane' lane c' c _ _ _ _ hne hold hc hk
      exact disjoint_left.mp hdisj (mem_range_add hi') (heq ▸ hplace)
  case apart =>
    intro l₁ l₂ c₁ c₂ d₁ d₂ r₁ r₂ hne h₁ h₂ heq
    rcases update_eq_cases h₁ with ⟨rfl, ⟨⟩⟩ | ⟨-, hold₁⟩ <;>
      rcases update_eq_cases h₂ with ⟨rfl, ⟨⟩⟩ | ⟨-, hold₂⟩
    · exact absurd rfl hne
    · exact hf.apart _ l₂ c c₂ _ _ _ _ hne hc hold₂ heq
    · exact hf.apart l₁ _ c₁ c _ _ _ _ hne hold₁ hc heq
    · exact hf.apart l₁ l₂ c₁ c₂ _ _ _ _ hne hold₁ hold₂ heq
  case unstaged => exact hf.unstaged
  case counts =>
    intro k st' hk
    obtain ⟨ht, hl, hcov, hh⟩ := hf.counts k st' hk
    refine ⟨ht, hl, hcov, fun data' hdata' i hi => (hh data' hdata' i hi).write rfl ?_⟩
    rintro rfl rfl
    obtain rfl := h.separate _ _ st' st hk hst (hdata'.trans hdata.symm)
    exact disjoint_left.mp huncovered hi hplace
  case copies =>
    refine fun k => (hf.copies k).congr fun bytes toHost d hk i => ?_
    refine values_write_of_ne ?_
    rintro rfl
    exact absurd hdata ((h.taken k bytes toHost d hk).2 _ st hst)

theorem Faithful.land {received : ℕ} (hc : s.handlers lane = .reading c data received)
    (hr : received = c.payload.length) : (s.land lane c).Faithful source := by
  obtain ⟨hpart, hclaimed, huncovered, hholds⟩ := hf.reads lane c data received hc
  obtain ⟨st, hst, hdata, -⟩ := (h.placed lane c data received hc).staged
  have hhandler : ∀ lane' c' data' received',
      (s.land lane c).handlers lane' = .reading c' data' received' →
        lane' ≠ lane ∧ s.handlers lane' = .reading c' data' received' := by
    intro lane' c' data' received' hc'
    exact update_eq_of_ne hc' nofun
  have hcovered : ∀ k, (s.land lane c).covered k =
      if k = c.copyId then s.covered c.copyId ∪ c.range else s.covered k :=
    fun k => update_apply ..
  constructor
  case covered_subset =>
    intro k
    rw [hcovered]
    split_ifs with hk
    · subst hk
      exact union_subset (hf.covered_subset _) hclaimed
    · exact hf.covered_subset k
  case reads =>
    intro lane' c' data' received' hc'
    obtain ⟨hne, hc'⟩ := hhandler lane' c' data' received' hc'
    obtain ⟨hp', hcl', hun', hh'⟩ := hf.reads lane' c' data' received' hc'
    refine ⟨hp', hcl', ?_, hh'⟩
    rw [hcovered]
    split_ifs with hk
    · exact disjoint_union_left.mpr
        ⟨hk ▸ hun', hf.apart lane lane' c c' _ _ _ _ hne.symm hc hc' hk.symm⟩
    · exact hun'
  case apart =>
    intro l₁ l₂ c₁ c₂ d₁ d₂ r₁ r₂ hne h₁ h₂ heq
    exact hf.apart l₁ l₂ c₁ c₂ d₁ d₂ r₁ r₂ hne (hhandler _ _ _ _ h₁).2 (hhandler _ _ _ _ h₂).2 heq
  case unstaged =>
    intro k hk hrem
    obtain ⟨hne, hk⟩ := update_eq_of_ne hk nofun
    rw [hcovered, if_neg hne]
    exact hf.unstaged k hk hrem
  case counts =>
    intro k st' hk
    rcases update_eq_cases hk with ⟨rfl, hnew⟩ | ⟨hne, hk⟩
    · obtain ⟨ht, hl, hcov, hh⟩ := hf.counts _ st hst
      obtain rfl : { st with landed := st.landed + c.payload.length } = st' := by
        simpa [hst] using hnew
      refine ⟨ht, ?_, ?_, ?_⟩
      · rw [hcovered, if_pos rfl, card_union_of_disjoint huncovered, ← hl]
        simp [Chunk.range]
      · rw [hcovered, if_pos rfl]
        refine union_subset hcov fun i hi => ?_
        have := mem_Ico.mp hi
        exact mem_range.mpr (lt_of_lt_of_le this.2 hpart.le_length)
      · intro data' hdata' i hi
        obtain rfl : data = data' := by simpa [hdata] using hdata'
        rw [hcovered, if_pos rfl, mem_union] at hi
        rcases hi with hi | hi
        · exact hh data hdata i hi
        · obtain ⟨hle, hlt⟩ := mem_Ico.mp hi
          obtain ⟨j, rfl⟩ := Nat.exists_eq_add_of_le hle
          exact hholds j (by omega)
    · obtain ⟨ht, hl, hcov, hh⟩ := hf.counts k st' hk
      refine ⟨ht, ?_, ?_, ?_⟩ <;> rw [hcovered, if_neg hne]
      · exact hl
      · exact hcov
      · exact hh
  case copies => exact fun k => (hf.copies k).congr fun _ _ _ _ _ => rfl

end

end Lanes

section

variable (hf : s.Faithful source)
include hf

/-- A step that only ends handlers or moves a commit: what has landed stays, entries are at most
removed, and no buffer changes. -/
theorem Faithful.commits
    (hhandlers : ∀ lane c data received, s'.handlers lane = .reading c data received →
      s.handlers lane = .reading c data received) (hclaimed : s'.claimed = s.claimed)
    (hcovered : s'.covered = s.covered)
    (hvalues : ∀ data, (s'.heap.blocks data).values = (s.heap.blocks data).values)
    (hstagings : ∀ k st, s'.stagings k = some st → s.stagings k = some st)
    (hunstaged : ∀ k, s'.stagings k = none → ¬(s'.commits k).Removed →
      s.stagings k = none ∧ ¬(s.commits k).Removed)
    (hcopies : ∀ k, s'.commits k = s.commits k ∨ s.Copies source k (s'.commits k)) :
    s'.Faithful source := by
  have hholds : ∀ k data i, s.Holds source k data i → s'.Holds source k data i := by
    intro k data i hi
    rwa [Holds, hvalues]
  constructor
  case covered_subset => exact fun k => hcovered ▸ hclaimed ▸ hf.covered_subset k
  case reads =>
    intro lane c data received hc
    obtain ⟨hp, hcl, hun, hh⟩ := hf.reads lane c data received (hhandlers _ _ _ _ hc)
    exact ⟨hp, hclaimed ▸ hcl, hcovered ▸ hun, fun i hi => hholds _ _ _ (hh i hi)⟩
  case apart =>
    intro l₁ l₂ c₁ c₂ d₁ d₂ r₁ r₂ hne h₁ h₂ heq
    exact hf.apart l₁ l₂ c₁ c₂ d₁ d₂ r₁ r₂ hne (hhandlers _ _ _ _ h₁) (hhandlers _ _ _ _ h₂) heq
  case unstaged =>
    intro k hk hr
    obtain ⟨hk, hr⟩ := hunstaged k hk hr
    exact hcovered ▸ hf.unstaged k hk hr
  case counts =>
    intro k st hk
    obtain ⟨ht, hl, hcov, hh⟩ := hf.counts k st (hstagings k st hk)
    exact ⟨ht, hcovered ▸ hl, hcovered ▸ hcov, fun data hdata i hi =>
      hholds _ _ _ (hh data hdata i (hcovered ▸ hi))⟩
  case copies =>
    intro k
    have : s.Copies source k (s'.commits k) := by
      rcases hcopies k with hk | hk
      · exact hk ▸ hf.copies k
      · exact hk
    exact this.congr fun _ _ d _ i => by rw [hvalues]

theorem Faithful.commit {bytes : ℕ} {toHost : Bool} (hk : s.commits k = .unsent)
    (hbytes : bytes = (source k).length) :
    Faithful source { s with commits := update s.commits k (.waiting bytes toHost) } := by
  refine hf.commits (fun _ _ _ _ h => h) rfl rfl (fun _ => rfl) (fun _ _ h => h) ?_ ?_
  · intro k' hk' hr
    refine ⟨hk', ?_⟩
    rcases eq_or_ne k' k with rfl | hne
    · simp [hk]
    · simpa [hne] using hr
  · intro k'
    rcases eq_or_ne k' k with rfl | hne
    · exact .inr (by simpa [Copies] using hbytes)
    · exact .inl (by simp [hne])

theorem Faithful.remove {bytes : ℕ} {toHost : Bool} (hk : s.commits k = .waiting bytes toHost) :
    (s.remove k bytes toHost).Faithful source := by
  have hbytes : bytes = (source k).length := by
    have := hf.copies k
    rwa [hk] at this
  refine hf.commits (fun _ _ _ _ h => h) rfl rfl ?_ ?_ ?_ ?_
  · intro data
    simp only [Server.remove]
    split
    · rfl
    · cases (s.staging k).data with
      | none => rfl
      | some => exact values_free
  · intro k' st hk'
    exact (update_eq_of_ne hk' nofun).2
  · intro k' hk' hr
    rcases eq_or_ne k' k with rfl | hne
    · simp at hr
    · exact ⟨by simpa [hne] using hk', by simpa [hne] using hr⟩
  · intro k'
    rcases eq_or_ne k' k with rfl | hne
    · right
      have hcopies : s.Copies source k' (.copying bytes toHost
          (if decide (s.Complete k') then (s.staging k').data else none)) := by
        refine ⟨hbytes, fun d hd i hi => ?_⟩
        split at hd
        · rename_i hcomplete
          obtain ⟨st, hst, heq⟩ := of_decide_eq_true hcomplete
          have hst' : s.stagings k' = some st := hst
          have hdata : st.data = some d := by simpa [hst'] using hd
          exact (hf.counts k' st hst').holds_of_complete heq hdata i (hbytes ▸ hi)
        · cases hd
      simpa using hcopies
    · exact .inl (by simp [hne])

theorem Faithful.finish {bytes : ℕ} {toHost : Bool} {data : Option ℕ}
    (hk : s.commits k = .copying bytes toHost data) (succeeds : Bool) :
    (s.finish k bytes toHost succeeds data).Faithful source := by
  have hcopied := hf.copies k
  rw [hk] at hcopied
  refine hf.commits (fun _ _ _ _ h => h) rfl rfl ?_ (fun _ _ h => h) ?_ ?_
  · intro d
    cases data with
    | none => rfl
    | some => exact values_free
  · intro k' hk' hr
    rcases eq_or_ne k' k with rfl | hne
    · simp at hr
    · exact ⟨hk', by simpa [hne] using hr⟩
  · intro k'
    rcases eq_or_ne k' k with rfl | hne
    · right
      have hend : s.Copies source k' (.ended (data.bind fun d =>
          if toHost || succeeds then some ((List.range bytes).map (s.heap.blocks d).values)
          else none)) := by
        intro l hl
        obtain ⟨d, hd, hl⟩ := Option.bind_eq_some_iff.mp hl
        split at hl
        · cases hl
          exact map_range_values hcopied.1 (hcopied.2 d hd)
        · cases hl
      simpa using hend
    · exact .inl (by simp [hne])

end

/-- A step of an orderly run keeps the buffers, and a step with parts of the source what they
hold. -/
theorem Sound.step [DecidableEq Lane] (h : s.Sound) {a : Action Lane} (hC : s.Orderly a)
    (hstep : s.step a = some s') :
    s'.Sound ∧ ∀ source, s.Faithful source → s.FromSource source a → s'.Faithful source := by
  cases a with
  | arrive lane c =>
    simp only [Server.step] at hstep
    split at hstep
    · cases hstep
      exact ⟨h.arrive hC, fun _ hf hS => hf.arrive h hS.1 hS.2 hC.2⟩
    · cases hstep
  | receive lane =>
    simp only [Server.step] at hstep
    split at hstep
    · split at hstep
      · rename_i c data received hc hr
        cases hstep
        exact ⟨h.receive hc hr, fun _ hf _ => hf.receive h hc hr⟩
      · cases hstep
    · cases hstep
  | land lane =>
    simp only [Server.step] at hstep
    split at hstep
    · split at hstep
      · rename_i c data received hc hr
        cases hstep
        exact ⟨h.land hc, fun _ hf _ => hf.land h hc hr⟩
      · cases hstep
    · cases hstep
  | stop lane =>
    cases hstep
    refine ⟨h.stop lane, fun _ hf _ => hf.commits (fun _ _ _ _ hc => ?_) rfl rfl (fun _ => rfl)
      (fun _ _ h => h) (fun _ hk hr => ⟨hk, hr⟩) fun _ => .inl rfl⟩
    exact (update_eq_of_ne hc nofun).2
  | lose lane =>
    simp only [Server.step] at hstep
    split at hstep
    · cases hstep
      exact ⟨h.lose, fun _ hf _ => hf.commits (fun _ _ _ _ h => h) rfl rfl (fun _ => rfl)
        (fun _ _ h => h) (fun _ hk hr => ⟨hk, hr⟩) fun _ => .inl rfl⟩
    · cases hstep
  | commit k bytes toHost =>
    simp only [Server.step] at hstep
    split at hstep
    · rename_i hk
      cases hstep
      exact ⟨h.commit k bytes toHost, fun _ hf hS => hf.commit hk hS⟩
    · cases hstep
  | wake k =>
    simp only [Server.step] at hstep
    split at hstep
    · rename_i hk
      split at hstep
      · cases hstep
        exact ⟨h.remove hC _ _, fun _ hf _ => hf.remove hk⟩
      · cases hstep
    · cases hstep
  | copy k succeeds =>
    simp only [Server.step] at hstep
    split at hstep
    · rename_i hk
      cases hstep
      exact ⟨h.finish hk succeeds, fun _ hf _ => hf.finish hk succeeds⟩
    · cases hstep

end Contents

/-! ## Runs -/

section Runs

variable [DecidableEq Lane]

theorem sound_of_run {as : List (Action Lane)} (hrun : exec step initial as = some s)
    (hC : Along step Orderly initial as) : s.Sound :=
  exec_invariant_along (fun _ _ _ h hC hstep => (h.step hC hstep).1) sound_initial hC hrun

theorem faithful_of_run {source : ℕ → List UInt8} {as : List (Action Lane)}
    (hrun : exec step initial as = some s) (hC : Along step Orderly initial as)
    (hS : Along step (FromSource source) initial as) : s.Faithful source := by
  have hboth : s.Sound ∧ s.Faithful source :=
    exec_invariant_along (I := fun s : Server Lane => s.Sound ∧ s.Faithful source)
      (fun _ _ _ h hC hstep => (h.1.step hC.1 hstep).imp_right fun hf => hf _ h.2 hC.2)
      ⟨sound_initial, faithful_initial⟩ (hC.and hS) hrun
  exact hboth.2

/-- **Bulk assembly.** In an orderly run there is no invalid write and a commit that has ended has
left no entry; when the chunks come from a source, a commit that succeeded has copied it. -/
theorem assembled {s : Server Lane} {as : List (Action Lane)}
    (hrun : exec step initial as = some s) (hC : Along step Orderly initial as) :
    s.invalidWrite = false ∧
      (∀ k copied, s.commits k = .ended copied → s.stagings k = none) ∧
      ∀ source : ℕ → List UInt8, Along step (FromSource source) initial as →
        ∀ k copied, s.commits k = .ended (some copied) → copied = (source k).map some := by
  have hsound := sound_of_run hrun hC
  refine ⟨hsound.valid, ?_, ?_⟩
  · intro k copied hk
    exact (hsound.removed k (by rw [hk]; trivial)).1
  · intro source hS k copied hk
    exact (faithful_of_run hrun hC hS).copied_eq hk

/-- Two lanes bring one byte each. -/
theorem assembled_of_two_lanes : ∃ s : Server Bool,
    exec step initial
      [.arrive false ⟨0, 2, 0, [5]⟩, .arrive true ⟨0, 2, 1, [7]⟩, .receive true, .receive false,
        .commit 0 2 false, .land true, .land false, .wake 0, .copy 0 true] = some s ∧
      s.commits 0 = .ended (some [some 5, some 7]) ∧ s.invalidWrite = false ∧
      s.stagings 0 = none ∧ [some 5, some 7] = ([5, 7] : List UInt8).map some := by
  refine exists_of_any (p := fun _ => True) (by decide) fun s hs _ => ?_
  have hcommit : s.commits 0 = .ended (some [some 5, some 7]) := by cases hs; rfl
  obtain ⟨hvalid, hremoved, hcopied⟩ := assembled hs (by decide)
  exact ⟨hcommit, hvalid, hremoved 0 _ hcommit, hcopied (fun _ => [5, 7]) (by decide) 0 _ hcommit⟩

/-- While one lane reads its byte of a copy, the connection of the other one fails. The commit
gives up and frees the buffer; then the byte is stored, and the chunk is counted in a new entry
that stays. A chunk with a range outside its buffer is written there on any connection. -/
theorem freed_while_reading :
    (∃ (as : List (Action Bool)) (s : Server Bool), exec step initial as = some s ∧
      Along step (FromSource fun _ => [5, 7]) initial as ∧ s.invalidWrite = true ∧
      s.commits 0 = .ended none ∧ s.Quiet 0 ∧ s.stagings 0 ≠ none) ∧
    ∃ s : Server Bool, exec step initial [.arrive false ⟨0, 2, 9, [5]⟩, .receive false] = some s ∧
      s.invalidWrite = true := by
  refine ⟨⟨[.arrive false ⟨0, 2, 0, [5]⟩, .arrive true ⟨0, 2, 1, [7]⟩, .stop false, .lose false,
    .commit 0 2 false, .wake 0, .copy 0 true, .receive true, .land true], _, rfl, ?_, ?_, ?_, ?_,
    ?_⟩, _, rfl, rfl⟩
  · decide
  · rfl
  · rfl
  · decide
  · decide

end Runs

end Server

end Lupine.Bulk
