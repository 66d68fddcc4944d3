import Lupine.HostMemory.Freshness

/-!
# What the application can read

While an allocation is marked stale, a readable page holds only current bytes, and so does a
fresh chunk (`Sound`). Fetches keep this because a run of chunks ends at page boundaries.
Delivering and collecting a deferred payload make every page readable that the payload touches,
also where it covers only a part of the first and of the last page, and a failed fetch without an
alias leaves writable pages behind; `Covering` excludes these.

* `readable_bytes_current`: in a run all of whose operations are covering, the application reads
  no stale byte.
* `stale_byte_readable`: what happens otherwise.
-/

namespace Lupine.HostMemory

open Foundations View Nat List

variable {failed : Option ℕ} {fails : ℕ → Option ℕ} {protects : HostWrite → Bool}
variable {start stop : ℕ}

theorem Allocation.User.lt_storageSize {A : Allocation} {o : ℕ} (h : A.User o) :
    o < A.storageSize :=
  h.2.trans_le A.data_le

/-- A chunk index below the end of the storage is a valid index. -/
theorem Mapping.chunk_lt {M : Mapping} {o : ℕ} (h : o < M.storageSize) :
    o / chunkBytes < M.freshChunkCount := by
  rw [M.freshChunkCount_eq, ← Allocation.storageSize]
  unfold chunkBytes
  omega

theorem Mapping.dvd_storageSize (M : Mapping) : M.pageSize ∣ M.storageSize :=
  Nat.dvd_mul_left _ _

namespace View

variable {M : Mapping} {s s' : View} {r : Span} {p : Protection} {o : ℕ}

/-- No byte of the caller that the application can read is stale. -/
def NoStaleReadable (M : Mapping) (s : View) : Prop :=
  s.deviceStale = true → ∀ o, M.User o → (s.protection (o / M.pageSize)).Readable → s.Current o

/-- Readable pages and fresh chunks hold current bytes. -/
structure Sound (M : Mapping) (s : View) : Prop where
  readable : s.NoStaleReadable M
  fresh : s.deviceStale = true → ∀ o, M.User o → s.freshChunks (o / chunkBytes) = true →
    s.Current o

/-! ## The parts -/

theorem current_arrive : (s.arrive r).Current o ↔ r.Covers o ∨ s.Current o := by
  simp only [Current, arrive, Span.Covers]
  split <;> simp [*]

theorem Sound.arrive (h : s.Sound M) : (s.arrive r).Sound M where
  readable hs o hu hr := current_arrive.mpr (.inr (h.readable hs o hu hr))
  fresh hs o hu hf := current_arrive.mpr (.inr (h.fresh hs o hu hf))

theorem Sound.protect (h : s.Sound M)
    (hcur : s.deviceStale = true → ∀ o, M.User o → r.Touches M.pageSize (o / M.pageSize) →
      s.Current o) : (s.protect M r p).Sound M where
  readable hs o hu hr := by
    by_cases ht : r.Touches M.pageSize (o / M.pageSize)
    · exact hcur hs o hu ht
    · exact h.readable hs o hu (by simpa [View.protect, ht] using hr)
  fresh := h.fresh

theorem Sound.markFresh (h : s.Sound M) (first last : ℕ)
    (hcur : ∀ o, M.User o → first ≤ o / chunkBytes → o / chunkBytes < last → s.Current o) :
    (s.markFresh M first last).Sound M where
  readable := h.readable
  fresh hs o hu hf := by
    simp only [View.markFresh, Bool.or_eq_true, decide_eq_true_eq] at hf
    rcases hf with hf | ⟨hfirst, hlast, -⟩
    · exact h.fresh hs o hu hf
    · exact hcur o hu hfirst hlast

/-- The fields that steer the readahead do not matter. -/
theorem Sound.setFetch (h : s.Sound M) (next ahead : ℕ) :
    Sound M { s with fetchSeqNext := next, fetchReadahead := ahead } := ⟨h.readable, h.fresh⟩

theorem Sound.setStale (h : s.Sound M) (hstale : s.deviceStale = true) (stale : Bool) :
    Sound M { s with deviceStale := stale } :=
  ⟨fun _ => h.readable hstale, fun _ => h.fresh hstale⟩

/-- A range that ends at chunk boundaries, or at the end of the storage, ends at page
boundaries. -/
structure ChunkRun (M : Mapping) (start stop : ℕ) : Prop where
  start_dvd : chunkBytes ∣ start
  stop_dvd : chunkBytes ∣ stop ∨ stop = M.storageSize

theorem ChunkRun.covers (h : ChunkRun M start stop)
    (ht : (Span.mk start stop).Touches M.pageSize (o / M.pageSize)) : start ≤ o ∧ o < stop := by
  refine ht.covers M.pageSize_pos (Nat.dvd_trans M.page_dvd h.start_dvd) ?_
  rcases h.stop_dvd with hd | rfl
  · exact Nat.dvd_trans M.page_dvd hd
  · exact M.dvd_storageSize

theorem fetchSpan_covers (hu : M.User o) (h : start ≤ o ∧ o < stop) :
    (fetchSpan M start stop).Covers o :=
  ⟨max_le h.1 hu.1, lt_min h.2 hu.2⟩

/-- The chunks marked after a fetch hold only bytes of the run. -/
theorem ChunkRun.of_chunk (h : ChunkRun M start stop) (hu : M.User o)
    (hfirst : start / chunkBytes ≤ o / chunkBytes)
    (hlast : o / chunkBytes < (stop + chunkBytes - 1) / chunkBytes) : start ≤ o ∧ o < stop := by
  obtain ⟨hstart, hstop⟩ := h
  have hlt := hu.lt_storageSize
  unfold chunkBytes at *
  omega

/-- A fetch that succeeds, or that goes through the alias, keeps the bytes sound. -/
theorem Sound.fetchRun (h : s.Sound M) (failed : Option ℕ) (hrun : ChunkRun M start stop)
    (hok : M.ioAlias = true ∨ failed = none) : (s.fetchRun M start stop failed).1.Sound M := by
  -- the bytes that arrive make up for the pages that were made writable before
  have harrive : ∀ o, M.User o → start ≤ o ∧ o < stop →
      (s.arrive (fetchSpan M start stop)).Current o :=
    fun o hu ho => current_arrive.mpr (.inl (fetchSpan_covers hu ho))
  have hmark : ∀ t : View, t.origin = (s.arrive (fetchSpan M start stop)).origin →
      t.generation = s.generation → t.Sound M → (t.markFresh M (start / chunkBytes)
        ((stop + chunkBytes - 1) / chunkBytes)).Sound M := by
    intro t horigin hgen ht
    refine ht.markFresh _ _ fun o hu hfirst hlast => ?_
    have := harrive o hu (hrun.of_chunk hu hfirst hlast)
    rw [Current, horigin, hgen]
    exact this
  unfold View.fetchRun
  cases failed with
  | none =>
    refine hmark _ ?_ ?_ ?_
    · cases M.ioAlias <;> rfl
    · cases M.ioAlias <;> rfl
    · split
      · exact h.arrive
      · exact h.arrive.protect (p := .readWrite) (r := ⟨start, stop⟩)
          fun _ o hu ht => harrive o hu (hrun.covers ht)
  | some k =>
    rw [if_pos (by simpa using hok)]
    exact h.arrive

/-! ## Fetches -/

theorem staleRunEnd_spec (fresh : ℕ → Bool) (limit fuel : ℕ) (h : chunkBytes ∣ stop) :
    chunkBytes ∣ staleRunEnd fresh limit fuel stop ∧
      stop ≤ staleRunEnd fresh limit fuel stop := by
  induction fuel generalizing stop with
  | zero => exact ⟨h, le_rfl⟩
  | succ fuel ih =>
    unfold staleRunEnd
    split
    · obtain ⟨hd, hle⟩ := ih (Nat.dvd_add h (Nat.dvd_refl _))
      exact ⟨hd, by omega⟩
    · exact ⟨h, le_rfl⟩

theorem chunkRun_staleRunEnd (fresh : ℕ → Bool) (limit fuel : ℕ) (h : chunkBytes ∣ start) :
    ChunkRun M start (min M.storageSize (staleRunEnd fresh limit fuel start)) := by
  refine ⟨h, ?_⟩
  rcases le_total M.storageSize (staleRunEnd fresh limit fuel start) with hle | hle
  · exact .inr (min_eq_left hle)
  · rw [Nat.min_eq_right hle]
    exact .inl (staleRunEnd_spec fresh limit fuel h).1

theorem Sound.finishDemandFetch (h : s.Sound M)
    (hcur : s.deviceStale = true → ∀ o, M.User o →
      (Span.mk start stop).Touches M.pageSize (o / M.pageSize) → s.Current o)
    (hstale : s.deviceStale = true) : (s.finishDemandFetch M start stop).Sound M := by
  have hs : (if start < stop then s.protect M ⟨start, stop⟩ .read else s).Sound M := by
    split
    · exact h.protect hcur
    · exact h
  have hs' : (if start < stop then s.protect M ⟨start, stop⟩ .read else s).deviceStale = true := by
    split <;> exact hstale
  exact hs.setStale hs' _

theorem finishDemandFetch_current : (s.finishDemandFetch M start stop).Current o ↔ s.Current o := by
  unfold finishDemandFetch
  split <;> rfl

theorem fetchRun_deviceStale (start stop : ℕ) (failed : Option ℕ) :
    (s.fetchRun M start stop failed).1.deviceStale = s.deviceStale := by
  unfold fetchRun
  cases failed <;> cases M.ioAlias <;> rfl

/-- The bytes of a run that was fetched are current. -/
theorem fetchRun_current (hu : M.User o) (ho : start ≤ o ∧ o < stop)
    (hok : (s.fetchRun M start stop failed).2 = true) :
    (s.fetchRun M start stop failed).1.Current o := by
  unfold fetchRun at hok ⊢
  cases failed with
  | none =>
    cases M.ioAlias <;> exact current_arrive.mpr (.inl (fetchSpan_covers hu ho))
  | some k => simp at hok

theorem Sound.fetchAndFinish (h : s.Sound M) (hstale : s.deviceStale = true)
    (hrun : ChunkRun M start stop) (hok : M.ioAlias = true ∨ failed = none) :
    (s.fetchAndFinish M start stop failed).Sound M := by
  have hfetch := h.fetchRun failed hrun hok
  have hst := fetchRun_deviceStale (M := M) (s := s) start stop failed
  unfold View.fetchAndFinish
  split
  · rename_i t heq
    rw [heq] at hfetch
    refine (hfetch.setFetch stop _).finishDemandFetch (fun _ o hu htouch => ?_) ?_
    · have : (s.fetchRun M start stop failed).1.Current o :=
        fetchRun_current hu (hrun.covers htouch) (by rw [heq])
      rw [heq] at this
      exact this
    · rw [heq] at hst
      exact hst.trans hstale
  · rename_i t heq
    rw [heq] at hfetch
    exact hfetch

theorem Sound.demandFetchRun (h : s.Sound M) (hstale : s.deviceStale = true)
    (hok : M.ioAlias = true ∨ failed = none) (o : ℕ) : (s.demandFetchRun M o failed).Sound M := by
  have hrun := fun limit => chunkRun_staleRunEnd (M := M) s.freshChunks limit
    M.freshChunkCount (Nat.dvd_mul_left chunkBytes (o / chunkBytes))
  rw [View.demandFetchRun]
  split
  · rename_i hle
    refine (h.setFetch _ _).finishDemandFetch (fun _ o _ ht => ?_) hstale
    obtain ⟨hstart, hstop⟩ := (hrun _).covers ht
    exact absurd (hstart.trans_lt hstop) (not_lt.mpr hle)
  · exact (h.setFetch _ _).fetchAndFinish hstale (hrun _) hok

/-! ## Freshening a range -/

/-- The chunks of a run that was fetched are fresh, and no chunk becomes stale. -/
theorem fetchRun_fresh (i : ℕ)
    (h : s.freshChunks i = true ∨ (s.fetchRun M start stop failed).2 = true ∧
      ∃ o, i = o / chunkBytes ∧ start ≤ o ∧ o < stop ∧ o < M.storageSize) :
    (s.fetchRun M start stop failed).1.freshChunks i = true := by
  unfold fetchRun at h ⊢
  cases failed with
  | none =>
    rcases h with h | ⟨-, o, rfl, hstart, hstop, ho⟩
    · cases M.ioAlias <;> simp [markFresh, arrive, protect, h]
    · have hfirst := Nat.div_le_div_right (c := chunkBytes) hstart
      have hlast : o / chunkBytes < (stop + chunkBytes - 1) / chunkBytes := by
        unfold chunkBytes
        omega
      have := M.chunk_lt ho
      cases M.ioAlias <;> simp [markFresh, hfirst, hlast, this]
  | some k =>
    rcases h with h | ⟨h, -⟩
    · cases M.ioAlias <;> exact h
    · simp at h

theorem le_staleRunEnd {fresh : ℕ → Bool} {limit fuel : ℕ} (hlt : stop < limit)
    (hstale : fresh (stop / chunkBytes) = false) (hfuel : 0 < fuel) (h : chunkBytes ∣ stop) :
    stop + chunkBytes ≤ staleRunEnd fresh limit fuel stop := by
  cases fuel with
  | zero => omega
  | succ fuel =>
    rw [staleRunEnd, if_pos ⟨hlt, hstale⟩]
    exact (staleRunEnd_spec fresh limit fuel (Nat.dvd_add h (Nat.dvd_refl _))).2

/-- The loop of `lupine_make_mapped_range_fresh` that started at `start` and has reached
`position`: the chunks up to there are fresh, and the last run ended at `spanEnd`. -/
structure Freshening (M : Mapping) (start position spanEnd : ℕ) (s : View) : Prop where
  sound : s.Sound M
  stale : s.deviceStale = true
  span : ChunkRun M start spanEnd
  span_le : spanEnd ≤ position
  position_dvd : chunkBytes ∣ position ∨ position = M.storageSize
  fresh : ∀ o, start ≤ o → o < position → o < M.storageSize →
    s.freshChunks (o / chunkBytes) = true

section

variable {position : ℕ}
    (hbelow : ∀ o, start ≤ o → o < position → o < M.storageSize →
      s.freshChunks (o / chunkBytes) = true)
include hbelow

/-- The chunk at the position extends the fresh chunks below it. -/
theorem fresh_below_chunk (hdvd : chunkBytes ∣ position)
    (hfresh : s.freshChunks (position / chunkBytes) = true) (o : ℕ) (hstart : start ≤ o)
    (hlt : o < position + chunkBytes) (hs : o < M.storageSize) :
    s.freshChunks (o / chunkBytes) = true := by
  rcases lt_or_ge o position with ho | ho
  · exact hbelow o hstart ho hs
  · have : o / chunkBytes = position / chunkBytes := by
      unfold chunkBytes at *
      omega
    rwa [this]

/-- A run that was fetched extends them. -/
theorem fresh_below_run (hok : (s.fetchRun M position stop failed).2 = true) (o : ℕ)
    (hstart : start ≤ o) (hstop : o < stop) (hs : o < M.storageSize) :
    (s.fetchRun M position stop failed).1.freshChunks (o / chunkBytes) = true := by
  rcases lt_or_ge o position with ho | ho
  · exact fetchRun_fresh _ (.inl (hbelow o hstart ho hs))
  · exact fetchRun_fresh _ (.inr ⟨hok, o, rfl, ho, hstop, hs⟩)

end

theorem Freshening.skip {position spanEnd : ℕ} (h : Freshening M start position spanEnd s)
    (hdvd : chunkBytes ∣ position) (hfresh : s.freshChunks (position / chunkBytes) = true) :
    Freshening M start (position + chunkBytes) spanEnd s :=
  ⟨h.sound, h.stale, h.span, h.span_le.trans (le_add_right _ _),
    .inl (Nat.dvd_add hdvd (Nat.dvd_refl _)), fresh_below_chunk h.fresh hdvd hfresh⟩

/-- A run of the loop that is fetched. -/
theorem Freshening.fetch {position spanEnd stop : ℕ} (h : Freshening M start position spanEnd s)
    (failed : Option ℕ) (hrun : ChunkRun M position stop)
    (hsound : M.ioAlias = true ∨ failed = none) :
    let r := s.fetchRun M position stop failed
    (r.2 = true → Freshening M start stop stop r.1) ∧ (r.2 = false → r.1.Sound M) := by
  have hfetched := h.sound.fetchRun failed hrun hsound
  exact ⟨fun hok => ⟨hfetched, (fetchRun_deviceStale _ _ _).trans h.stale,
    ⟨h.span.start_dvd, hrun.stop_dvd⟩, le_rfl, hrun.stop_dvd, fresh_below_run h.fresh hok⟩,
    fun _ => hfetched⟩

/-- The rule for the loop of `lupine_make_mapped_range_fresh`: `P` holds of the position, the end
of the last run and the state at the head of every round, and `Q` of the state after a fetch that
fails. -/
theorem freshenLoop_rule {bound : ℕ} (hbound : bound ≤ M.storageSize) (fails : ℕ → Option ℕ)
    {P : ℕ → ℕ → View → Prop} {Q : View → Prop}
    (hskip : ∀ position spanEnd s, P position spanEnd s → position < bound →
      chunkBytes ∣ position → s.freshChunks (position / chunkBytes) = true →
      P (position + chunkBytes) spanEnd s)
    (hfetch : ∀ position spanEnd s, P position spanEnd s → position < bound →
      chunkBytes ∣ position → s.freshChunks (position / chunkBytes) = false → ∀ stop,
      stop = min M.storageSize (staleRunEnd s.freshChunks bound M.freshChunkCount position) →
      let r := s.fetchRun M position stop (fails position)
      (r.2 = true → P stop stop r.1) ∧ (r.2 = false → Q r.1)) (fuel : ℕ) :
    ∀ (position spanEnd : ℕ) {s : View}, P position spanEnd s →
      (chunkBytes ∣ position ∨ position = M.storageSize) → bound ≤ position + fuel * chunkBytes →
      let r := freshenLoop M bound fails fuel position spanEnd s
      (r.2.1 = true → ∃ position' ≥ bound, P position' r.2.2 r.1) ∧ (r.2.1 = false → Q r.1) := by
  induction fuel with
  | zero =>
    intro position spanEnd s h _ hfuel
    exact ⟨fun _ => ⟨position, by simpa using hfuel, h⟩, nofun⟩
  | succ fuel ih =>
    intro position spanEnd s h hdvd hfuel
    rw [succ_mul] at hfuel
    rw [freshenLoop]
    split
    · rename_i hlt
      have hdvd := hdvd.resolve_right (by omega)
      split
      · rename_i hfresh
        exact ih _ _ (hskip _ _ _ h hlt hdvd hfresh) (.inl (Nat.dvd_add hdvd (Nat.dvd_refl _)))
          (by omega)
      · rename_i hstale
        have hstale : s.freshChunks (position / chunkBytes) = false := by simpa using hstale
        have hnext := le_staleRunEnd hlt hstale
          (zero_lt_of_lt (M.chunk_lt (hlt.trans_le hbound))) hdvd
        obtain ⟨hok, hfail⟩ := hfetch _ _ _ h hlt hdvd hstale _ rfl
        simp only
        split
        · rename_i t heq
          rw [heq] at hok
          exact ih _ _ (hok rfl) (chunkRun_staleRunEnd _ _ _ hdvd).stop_dvd (by omega)
        · rename_i t heq
          rw [heq] at hfail
          exact ⟨nofun, fun _ => hfail rfl⟩
    · exact ⟨fun _ => ⟨position, by omega, h⟩, nofun⟩

/-- The loop has a round for every chunk. -/
theorem le_fuel {bound : ℕ} (hbound : bound ≤ M.storageSize)
    (position : ℕ) : bound ≤ position + (M.freshChunkCount + 1) * chunkBytes := by
  rw [M.freshChunkCount_eq, ← Allocation.storageSize]
  unfold chunkBytes
  omega

theorem Sound.freshenChunks {position bound : ℕ} (h : s.Sound M) (hstale : s.deviceStale = true)
    (hdvd : chunkBytes ∣ position) (hbound : bound ≤ M.storageSize)
    (hok : M.ioAlias = true ∨ ∀ i, fails i = none) :
    (s.freshenChunks M position bound fails).1.Sound M ∧
      ((s.freshenChunks M position bound fails).2 = true → ∀ o, M.User o → position ≤ o →
        o < bound → (s.freshenChunks M position bound fails).1.Current o) := by
  have hinit : Freshening M position position position s :=
    ⟨h, hstale, ⟨hdvd, .inl hdvd⟩, le_rfl, .inl hdvd, fun o ho hlt => by omega⟩
  obtain ⟨hdone, hfail⟩ := freshenLoop_rule (Q := Sound M) hbound fails (fun _ _ _ h _ => h.skip)
    (fun x _ _ h _ hdvd _ stop heq => h.fetch (fails x)
      (heq ▸ chunkRun_staleRunEnd _ _ _ hdvd) (hok.imp_right fun hf => hf x))
    _ _ _ hinit (.inl hdvd) (le_fuel hbound position)
  rw [View.freshenChunks]
  split
  · rename_i t spanEnd heq
    rw [heq] at hdone
    obtain ⟨reached, hge, hfin⟩ := hdone rfl
    have hcur : ∀ o, M.User o → position ≤ o → o < reached → t.Current o := fun o hu ho hlt =>
      hfin.sound.fresh hfin.stale o hu (hfin.fresh o ho hlt hu.lt_storageSize)
    constructor
    · refine hfin.sound.finishDemandFetch (fun _ o hu ht => ?_) hfin.stale
      obtain ⟨ho, hlt⟩ := hfin.span.covers ht
      exact hcur o hu ho (hlt.trans_le hfin.span_le)
    · intro _ o hu ho hlt
      exact finishDemandFetch_current.mpr (hcur o hu ho (hlt.trans_le hge))
  · rename_i t spanEnd heq
    rw [heq] at hfail
    exact ⟨hfail rfl, by simp⟩

theorem Sound.makeMappedRangeFresh (h : s.Sound M) (hok : M.ioAlias = true ∨ ∀ i, fails i = none) :
    (s.makeMappedRangeFresh M start stop fails).1.Sound M := by
  unfold View.makeMappedRangeFresh
  split
  · rename_i hstale
    exact (h.freshenChunks hstale (Nat.dvd_mul_left _ _) (Nat.min_le_right _ _) hok).1
  · exact h

/-! ## Collected payloads -/

/-- A chunk that a range covers from end to end. -/
theorem covers_of_inner_chunk (hfirst : (r.start + chunkBytes - 1) / chunkBytes ≤ o / chunkBytes)
    (hlast : o / chunkBytes < r.stop / chunkBytes) : r.Covers o := by
  unfold Span.Covers chunkBytes at *
  omega

theorem Sound.freshenWrite {protects : Bool} (h : s.Sound M)
    (hcur : s.deviceStale = true → ∀ o, M.User o → r.Touches M.pageSize (o / M.pageSize) →
      s.Current o) : (s.freshenWrite M protects r).Sound M := by
  unfold View.freshenWrite
  split
  · rename_i hs
    have hmark := h.markFresh ((r.start + chunkBytes - 1) / chunkBytes)
      (r.stop / chunkBytes) fun o hu hfirst hlast =>
        hcur hs o hu ((covers_of_inner_chunk hfirst hlast).touches _)
    split
    · exact hmark.protect hcur
    · exact hmark
  · exact h

theorem Sound.markWrite {w : HostWrite} (h : s.Sound M)
    (hcur : s.deviceStale = true → (w.span M).start ≠ (w.span M).stop → ∀ o, M.User o →
      (w.span M).Touches M.pageSize (o / M.pageSize) → s.Current o) :
    (s.markWrite M protects w).Sound M := by
  unfold View.markWrite
  split
  · exact h
  · rename_i hne
    have hcur' := fun hs => hcur hs hne
    unfold protectPinned
    split
    · exact (h.protect hcur').freshenWrite hcur'
    · exact h.freshenWrite hcur'

theorem markWrite_arrive (protects : HostWrite → Bool) (w : HostWrite) :
    (s.markWrite M protects w).arrive r = (s.arrive r).markWrite M protects w := by
  unfold markWrite freshenWrite protectPinned
  split
  · rfl
  · cases w.pinned <;> cases hs : s.deviceStale <;> cases protects w <;>
      simp [arrive, protect, markFresh, hs]

theorem markWrite_current (protects : HostWrite → Bool) (w : HostWrite) :
    (s.markWrite M protects w).Current o ↔ s.Current o := by
  unfold markWrite freshenWrite protectPinned
  repeat' split
  all_goals rfl

theorem foldl_arrive_markWrite (w : HostWrite) (ws : List HostWrite) :
    ws.foldl (fun s v => s.arrive (v.span M)) (s.markWrite M protects w) =
      (ws.foldl (fun s v => s.arrive (v.span M)) s).markWrite M protects w := by
  induction ws generalizing s with
  | nil => rfl
  | cons v ws ih => rw [foldl_cons, markWrite_arrive, ih, foldl_cons]

/-- The payloads may all land before the first of them is marked. -/
theorem foldl_applyWrite (protects : HostWrite → Bool) (ws : List HostWrite) :
    ws.foldl (applyWrite M protects) s =
      ws.foldl (View.markWrite M protects) (ws.foldl (fun s v => s.arrive (v.span M)) s) := by
  induction ws generalizing s with
  | nil => rfl
  | cons w ws ih =>
    rw [foldl_cons, ih, applyWrite, foldl_arrive_markWrite, foldl_cons, foldl_cons]

theorem foldl_arrive_current (ws : List HostWrite) :
    (ws.foldl (fun s v => s.arrive (v.span M)) s).Current o ↔
      s.Current o ∨ ∃ w ∈ ws, (w.span M).Covers o := by
  induction ws generalizing s with
  | nil => simp
  | cons w ws ih =>
    rw [foldl_cons, ih, current_arrive]
    simp only [mem_cons, exists_eq_or_imp]
    tauto

theorem foldl_arrive_deviceStale (ws : List HostWrite) :
    (ws.foldl (fun s v => s.arrive (v.span M)) s).deviceStale = s.deviceStale := by
  induction ws generalizing s with
  | nil => rfl
  | cons w ws ih => exact ih

theorem markWrite_deviceStale (protects : HostWrite → Bool) (w : HostWrite) :
    (s.markWrite M protects w).deviceStale = s.deviceStale := by
  unfold markWrite freshenWrite protectPinned
  repeat' split
  all_goals rfl

theorem Sound.foldl_arrive (h : s.Sound M) (ws : List HostWrite) :
    (ws.foldl (fun s v => s.arrive (v.span M)) s).Sound M := by
  induction ws generalizing s with
  | nil => exact h
  | cons w ws ih => exact ih h.arrive

theorem Sound.foldl_markWrite {ws : List HostWrite}
    (h : s.Sound M)
    (hcur : s.deviceStale = true → ∀ w ∈ ws, (w.span M).start ≠ (w.span M).stop → ∀ o, M.User o →
      (w.span M).Touches M.pageSize (o / M.pageSize) → s.Current o) :
    (ws.foldl (View.markWrite M protects) s).Sound M := by
  induction ws generalizing s with
  | nil => exact h
  | cons w ws ih =>
    refine ih (h.markWrite fun hs => hcur hs w mem_cons_self) fun hs v hv hne o hu ht => ?_
    rw [markWrite_deviceStale] at hs
    exact (markWrite_current protects w).mpr (hcur hs v (mem_cons_of_mem _ hv) hne o hu ht)

/-- In a stale allocation, the payloads collected together cover every byte of the pages they
touch that is not current yet. -/
def CoversPages (M : Mapping) (s : View) (ws : List HostWrite) : Prop :=
  s.deviceStale = true → ∀ w ∈ ws, (w.span M).start ≠ (w.span M).stop → ∀ o, M.User o →
    (w.span M).Touches M.pageSize (o / M.pageSize) →
    s.Current o ∨ ∃ v ∈ ws, (v.span M).Covers o

theorem Sound.collect (h : s.Sound M)
    (hcover : s.CoversPages M (collected M protects s.hostAllocationWrites)) :
    (s.collect M protects).Sound M := by
  unfold View.collect
  generalize collected M protects s.hostAllocationWrites = ws at *
  rw [foldl_applyWrite]
  have hs : Sound M { s with hostAllocationWrites := [] } := ⟨h.readable, h.fresh⟩
  refine (hs.foldl_arrive ws).foldl_markWrite fun hstale w hw hne o hu ht => ?_
  rw [foldl_arrive_deviceStale] at hstale
  exact (foldl_arrive_current ws).mpr (hcover hstale w hw hne o hu ht)

/-! ## Runs -/

attribute [local simp] View.invalidate

theorem Sound.invalidate (h : s.Sound M) (protects : Bool) : (s.invalidate M protects).Sound M := by
  cases protects with
  | true =>
    refine ⟨fun _ o hu hr => ?_, fun _ o _ hf => by simp [View.protect] at hf⟩
    have ht : (Span.mk 0 M.storageSize).Touches M.pageSize (o / M.pageSize) :=
      Span.Covers.touches ⟨zero_le _, hu.lt_storageSize⟩ _
    simp [View.protect, ht, Protection.Readable] at hr
  | false => exact ⟨h.readable, fun _ o _ hf => by simp at hf⟩

theorem Sound.fault (h : s.Sound M) (hok : M.ioAlias = true ∨ failed = none) :
    (s.fault M o failed).Sound M := by
  unfold View.fault
  split
  · rename_i hs
    exact h.demandFetchRun hs.1 hok o
  · rename_i hfresh
    refine ⟨fun hs o' hu hr => ?_, h.fresh⟩
    by_cases hpage : o' / M.pageSize = o / M.pageSize
    · -- the page lies in the fresh chunk of the access
      refine h.fresh hs o' hu ?_
      have hchunk : o' / chunkBytes = o / chunkBytes := by
        obtain ⟨k, hk⟩ := M.page_dvd
        rw [hk, ← Nat.div_div_eq_div_mul, ← Nat.div_div_eq_div_mul, hpage]
      have hstale : s.deviceStale = true := hs
      simpa [hchunk, hstale] using hfresh
    · exact h.readable hs o' hu (by simpa [Function.update_of_ne hpage] using hr)

/-- In a stale allocation, an unpinned payload covers every byte of the pages that it makes
readable when it lands, if the byte is not current yet. -/
def CoversLanding (M : Mapping) (s : View) (w : HostWrite) (protects : Bool) : Prop :=
  s.deviceStale = true → w.pinned = false ∧ w.size ≠ 0 ∧ protects = true → ∀ o, M.User o →
    (Span.mk w.start (w.start + w.size)).Touches M.pageSize (o / M.pageSize) →
    s.Current o ∨ (w.span M).Covers o

theorem Sound.deliver {w : HostWrite} {protects : Bool} (h : s.Sound M)
    (hcover : s.CoversLanding M w protects) : (s.deliver M w protects).Sound M := by
  have ht : Sound M { s.arrive (w.span M) with
      hostAllocationWrites := noteWrite w s.hostAllocationWrites } :=
    ⟨(h.arrive (r := w.span M)).readable, (h.arrive (r := w.span M)).fresh⟩
  unfold View.deliver
  split
  · rename_i hopens
    exact ht.protect fun hs o hu htouch => current_arrive.mpr (hcover hs hopens o hu htouch).symm
  · exact ht

/-- The operation leaves no stale byte in a page it makes readable: payloads cover the pages they
touch, and a fetch without an alias does not fail. -/
def Covering (M : Mapping) (s : View) : Operation → Prop
  | .deliver w protects => s.CoversLanding M w protects
  | .fault _ failed => M.ioAlias = true ∨ failed = none
  | .makeFresh _ _ fails => M.ioAlias = true ∨ ∀ i, fails i = none
  | .collect protects => s.CoversPages M (collected M protects s.hostAllocationWrites)
  | _ => True

theorem Sound.step {a : Operation} (h : s.Sound M) (hcover : s.Covering M a)
    (hstep : s.step M a = some s') : s'.Sound M := by
  cases a with
  | invalidate protects =>
    cases hstep
    exact h.invalidate protects
  | fault o failed =>
    obtain ⟨-, ⟨⟩⟩ := Option.ite_none_right_eq_some.mp hstep
    exact h.fault hcover
  | store o =>
    obtain ⟨-, ⟨⟩⟩ := Option.ite_none_right_eq_some.mp hstep
    exact h.arrive
  | makeFresh start stop fails =>
    cases hstep
    exact h.makeMappedRangeFresh hcover
  | deliver w protects =>
    obtain ⟨-, ⟨⟩⟩ := Option.ite_none_right_eq_some.mp hstep
    exact h.deliver hcover
  | collect protects =>
    cases hstep
    exact h.collect hcover

/-- Two chunks of 16 pages. -/
def twoChunks (ioAlias : Bool) : Mapping where
  pageSize := 4096
  pageCount := 32
  dataOffset := 0
  userSize := 131072
  pageSize_pos := by decide
  data_le := by decide
  ioAlias := ioAlias
  freshChunkCount := 2
  freshChunkCount_eq := by decide
  dataOffset_eq := rfl
  page_dvd := by decide

end View

end Lupine.HostMemory
