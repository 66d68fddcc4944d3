import Lupine.HostMemory.StaleReads

/-!
# Which chunks a fetch asks for

A fault in a stale chunk fetches a run of chunks, widened by the readahead; a range that is made
fresh is fetched run by run. Both look for the end of a run in the same way (`StaleRun`): it holds
stale chunks only, so that no fetch overwrites a chunk that is already fresh (`Keeps`), and it
starts inside the caller's bytes, because the storage is those bytes rounded up to a page and a
run starts at a page.

* `demandRun_within`: the run of a fault, the bytes it requests and the chunks it marks, and what
  `lupine_make_mapped_range_fresh` leaves fresh.
* `retiring_left_stale`: an allocation that is being retired is reported fresh and is not.
-/

namespace Lupine.HostMemory

open Foundations Nat

variable {fresh : ℕ → Bool} {r : Span}

/-- The storage is what `lupine_adopt_host_allocation` maps: whole pages, and one page for an
empty allocation. Memory of the caller is tracked only when it consists of whole pages. -/
def Mapping.Rounded (M : Mapping) : Prop :=
  M.storageSize = if M.userSize = 0 then M.pageSize
    else (M.userSize + M.pageSize - 1) / M.pageSize * M.pageSize

instance (M : Mapping) : Decidable M.Rounded := inferInstanceAs (Decidable (_ = _))

/-- A page of the storage starts inside the caller's bytes, or at their end. -/
theorem Mapping.Rounded.page_le {M : Mapping} (h : M.Rounded) {start : ℕ}
    (hdvd : M.pageSize ∣ start) (hlt : start < M.storageSize) : start ≤ M.userSize := by
  obtain ⟨page, rfl⟩ := hdvd
  rw [h] at hlt
  split at hlt
  · have : page < 1 := Nat.lt_of_mul_lt_mul_left (hlt.trans_eq (Nat.mul_one _).symm)
    simp [show page = 0 by omega]
  · rw [Nat.mul_comm] at hlt
    have hpage : page + 1 ≤ (M.userSize + M.pageSize - 1) / M.pageSize :=
      Nat.lt_of_mul_lt_mul_right hlt
    rw [Nat.le_div_iff_mul_le M.pageSize_pos, Nat.succ_mul, Nat.mul_comm] at hpage
    omega

namespace View

variable {M : Mapping} {s t u : View} {failed : Option ℕ}

/-! ## Runs of stale chunks -/

/-- A run that a fetch may ask for. -/
structure StaleRun (M : Mapping) (fresh : ℕ → Bool) (r : Span) : Prop where
  start_dvd : chunkBytes ∣ r.start
  start_lt : r.start < r.stop
  stop_le : r.stop ≤ M.storageSize
  stale : ∀ x, r.Covers x → fresh (x / chunkBytes) = false

theorem stale_of_lt_staleRunEnd {limit fuel x : ℕ} :
    ∀ {stop : ℕ}, chunkBytes ∣ stop → stop ≤ x → x < staleRunEnd fresh limit fuel stop →
      fresh (x / chunkBytes) = false := by
  induction fuel with
  | zero =>
    intro stop _ hle hlt
    exact absurd hlt (not_lt.mpr hle)
  | succ fuel ih =>
    intro stop hdvd hle hlt
    rw [staleRunEnd] at hlt
    split at hlt
    · rename_i hstale
      rcases lt_or_ge x (stop + chunkBytes) with hx | hx
      · have : x / chunkBytes = stop / chunkBytes := by
          unfold chunkBytes at *
          omega
        rw [this]
        exact hstale.2
      · exact ih (Nat.dvd_add hdvd (Nat.dvd_refl _)) hx hlt
    · exact absurd hlt (not_lt.mpr hle)

/-- The run that both functions look for, from a stale chunk on, covers that chunk. -/
theorem staleRun_of_stale {limit start : ℕ} (hdvd : chunkBytes ∣ start) (hlt : start < limit)
    (hlimit : limit ≤ M.storageSize) (hstale : fresh (start / chunkBytes) = false) : let r : Span :=
      ⟨start, min M.storageSize (staleRunEnd fresh limit M.freshChunkCount start)⟩
    StaleRun M fresh r ∧
      ∀ x < M.storageSize, x / chunkBytes = start / chunkBytes → r.Covers x := by
  have hcount := zero_lt_of_lt (M.chunk_lt (hlt.trans_le hlimit))
  have hend := le_staleRunEnd hlt hstale hcount hdvd
  have hchunk : 0 < chunkBytes := by decide
  refine ⟨⟨hdvd, lt_min (hlt.trans_le hlimit) ((Nat.lt_add_of_pos_right hchunk).trans_le hend),
    min_le_left _ _, fun x hx => ?_⟩,
    fun x hx heq => ?_⟩
  · exact stale_of_lt_staleRunEnd hdvd hx.1 (hx.2.trans_le (min_le_right _ _))
  · have hx' : start ≤ x ∧ x < start + chunkBytes := by
      unfold chunkBytes at *
      omega
    exact ⟨hx'.1, lt_min hx (hx'.2.trans_le hend)⟩

/-- The length `lupine_fetch_stale_range` computes does not wrap, and the bytes it asks for
belong to the caller. -/
theorem StaleRun.requested (h : StaleRun M fresh r) (hround : M.Rounded) :
    (fetchSpan M r.start r.stop).start ≤ (fetchSpan M r.start r.stop).stop ∧
      ∀ x, (fetchSpan M r.start r.stop).Covers x → M.User x ∧ r.Covers x := by
  have hle := hround.page_le (Nat.dvd_trans M.page_dvd h.start_dvd) (h.start_lt.trans_le h.stop_le)
  have hlt := h.start_lt
  have := M.dataOffset_eq
  simp only [fetchSpan, Span.Covers, Allocation.User]
  constructor
  · omega
  · intro x hx
    omega

/-- The chunks of a run are those that are marked after it was fetched. -/
theorem StaleRun.marked_iff (h : StaleRun M fresh r) (i : ℕ) :
    (r.start / chunkBytes ≤ i ∧ i < (r.stop + chunkBytes - 1) / chunkBytes ∧
      i < M.freshChunkCount) ↔ ∃ x, r.Covers x ∧ x / chunkBytes = i := by
  have hdvd := h.start_dvd
  constructor
  · rintro ⟨hfirst, hlast, -⟩
    refine ⟨i * chunkBytes, ⟨?_, ?_⟩, Nat.mul_div_cancel _ (by decide)⟩ <;>
      · unfold chunkBytes at *
        omega
  · rintro ⟨x, ⟨hstart, hstop⟩, rfl⟩
    refine ⟨Nat.div_le_div_right hstart, ?_, M.chunk_lt (hstop.trans_le h.stop_le)⟩
    unfold chunkBytes
    omega

theorem fetchRun_freshChunks (start stop i : ℕ) : (s.fetchRun M start stop none).1.freshChunks i =
    (s.freshChunks i || decide (start / chunkBytes ≤ i ∧ i < (stop + chunkBytes - 1) / chunkBytes ∧
      i < M.freshChunkCount)) := by
  unfold View.fetchRun
  cases M.ioAlias <;> rfl

/-! ## What a fetch leaves alone -/

/-- Chunks that are fresh stay fresh, and their bytes are not fetched again. -/
structure Keeps (s t : View) : Prop where
  fresh : ∀ i, s.freshChunks i = true → t.freshChunks i = true
  origin : ∀ x, s.freshChunks (x / chunkBytes) = true → t.origin x = s.origin x

theorem Keeps.trans (h : Keeps s t) (h' : Keeps t u) : Keeps s u where
  fresh i hi := h'.fresh i (h.fresh i hi)
  origin x hx := (h'.origin x (h.fresh _ hx)).trans (h.origin x hx)

theorem StaleRun.keeps (h : StaleRun M s.freshChunks r) (failed : Option ℕ) :
    Keeps s (s.fetchRun M r.start r.stop failed).1 where
  fresh i hi := fetchRun_fresh i (.inl hi)
  origin x hx := by
    have hout : ¬r.Covers x := fun hc => absurd hx (by simp [h.stale x hc])
    have hspan : ∀ stop ≤ (fetchSpan M r.start r.stop).stop,
        ¬((fetchSpan M r.start r.stop).start ≤ x ∧ x < stop) := fun stop hle hc =>
      hout ⟨(le_max_left _ _).trans hc.1,
        (hc.2.trans_le hle).trans_le (min_le_left _ _)⟩
    unfold View.fetchRun
    cases failed with
    | none => cases M.ioAlias <;> exact if_neg (hspan _ (le_refl _))
    | some k => cases M.ioAlias <;> exact if_neg (hspan _ (min_le_left _ _))

theorem finishDemandFetch_keeps (start stop : ℕ) : Keeps s (s.finishDemandFetch M start stop) := by
  unfold View.finishDemandFetch
  split <;> exact ⟨fun _ hi => hi, fun _ _ => rfl⟩

/-! ## A fault -/

/-- The run that `lupine_demand_fetch_run` chooses. -/
def demandRun (M : Mapping) (s : View) (faultOffset : ℕ) : Span :=
  let start := faultOffset / chunkBytes * chunkBytes
  ⟨start, min M.storageSize (staleRunEnd s.freshChunks
    (min (readahead M s start).1 M.storageSize) M.freshChunkCount start)⟩

theorem lt_readahead {start : ℕ} (hlt : start < M.storageSize) :
    start < (readahead M s start).1 := by
  have hchunk : 0 < chunkBytes := by decide
  unfold readahead
  split
  · split
    · exact hlt
    · simp only
      omega
  · omega

theorem demandRun_spec {o : ℕ} (ho : o < M.storageSize)
    (hstale : s.freshChunks (o / chunkBytes) = false) :
    StaleRun M s.freshChunks (demandRun M s o) ∧
      ∀ x < M.storageSize, x / chunkBytes = o / chunkBytes → (demandRun M s o).Covers x := by
  have hstart : o / chunkBytes * chunkBytes / chunkBytes = o / chunkBytes :=
    Nat.mul_div_cancel _ (by decide)
  have hlt := (div_mul_le_self o chunkBytes).trans_lt ho
  have hspec := staleRun_of_stale (M := M) (Nat.dvd_mul_left chunkBytes (o / chunkBytes))
    (lt_min (lt_readahead (s := s) hlt) hlt) (min_le_right _ _) (hstart ▸ hstale)
  rwa [hstart] at hspec

/-- A fault in a stale chunk fetches the chosen run. -/
theorem demandFetchRun_eq {o : ℕ} (h : (demandRun M s o).start < (demandRun M s o).stop) :
    s.demandFetchRun M o failed = fetchAndFinish M (demandRun M s o).start (demandRun M s o).stop
      failed { s with fetchReadahead := (readahead M s (demandRun M s o).start).2 } :=
  if_neg (not_le.mpr h)

theorem demandFetchRun_fresh_iff {o : ℕ} (ho : o < M.storageSize)
    (hstale : s.freshChunks (o / chunkBytes) = false) (i : ℕ) :
    (s.demandFetchRun M o none).freshChunks i = true ↔
      s.freshChunks i = true ∨ ∃ x, (demandRun M s o).Covers x ∧ x / chunkBytes = i := by
  have hrun := (demandRun_spec ho hstale).1
  have hfinish : ∀ v : View, ∀ start stop,
      (v.finishDemandFetch M start stop).freshChunks = v.freshChunks := by
    intro v start stop
    unfold View.finishDemandFetch
    split <;> rfl
  rw [demandFetchRun_eq hrun.start_lt, ← hrun.marked_iff i, fetchAndFinish]
  change (finishDemandFetch M _ _ { (View.fetchRun M _ _ none _).1 with
    fetchSeqNext := _ }).freshChunks i = true ↔ _
  rw [hfinish]
  rw [fetchRun_freshChunks, Bool.or_eq_true, decide_eq_true_eq]

/-! ## A range -/

/-- `lupine_make_mapped_range_fresh` with its early exits: it succeeds at once in an allocation
that is not stale, and in one that is being retired. -/
def makeRangeFresh (M : Mapping) (retiring : Bool) (start stop : ℕ) (fails : ℕ → Option ℕ)
    (s : View) : View × Bool :=
  if s.deviceStale && retiring then (s, true) else s.makeMappedRangeFresh M start stop fails

/-- The host's copy of a chunk counts as current. -/
def ChunkFresh (s : View) (i : ℕ) : Prop := s.deviceStale = false ∨ s.freshChunks i = true

instance (s : View) (i : ℕ) : Decidable (s.ChunkFresh i) := inferInstanceAs (Decidable (_ ∨ _))

/-- The loop has made the chunks from `position` up to `reached` fresh. -/
structure Freshened (M : Mapping) (s : View) (position reached : ℕ) (t : View) : Prop where
  keeps : Keeps s t
  fresh : ∀ x, position ≤ x → x < reached → x < M.storageSize →
    t.freshChunks (x / chunkBytes) = true

theorem Freshened.fetch {position reached stop : ℕ} (h : Freshened M s position reached t)
    (hrun : StaleRun M t.freshChunks ⟨reached, stop⟩) :
    let r := t.fetchRun M reached stop failed
    (r.2 = true → Freshened M s position stop r.1) ∧ (r.2 = false → Keeps s r.1) := by
  have hkeeps := hrun.keeps failed
  exact ⟨fun hok => ⟨h.keeps.trans hkeeps, fresh_below_run h.fresh hok⟩,
    fun _ => h.keeps.trans hkeeps⟩

theorem freshenChunks_spec {position bound : ℕ} (fails : ℕ → Option ℕ)
    (hdvd : chunkBytes ∣ position) (hbound : bound ≤ M.storageSize) :
    let r := s.freshenChunks M position bound fails
    Keeps s r.1 ∧ (r.2 = true → ∀ x, position ≤ x → x < bound →
      r.1.freshChunks (x / chunkBytes) = true) := by
  obtain ⟨hdone, hfail⟩ := freshenLoop_rule (Q := Keeps s)
    (P := fun reached _ t => Freshened M s position reached t) hbound fails
    (fun _ _ _ h _ hdvd hchunk => ⟨h.keeps, fresh_below_chunk h.fresh hdvd hchunk⟩)
    (fun reached _ t h hlt hdvd hchunk stop hstop => by
      obtain ⟨hrun, -⟩ := staleRun_of_stale (M := M) hdvd hlt hbound hchunk
      rw [← hstop] at hrun
      exact h.fetch hrun)
    (M.freshChunkCount + 1) position position
    ⟨⟨fun _ hi => hi, fun _ _ => rfl⟩, fun x hx hlt => absurd hlt (not_lt.mpr hx)⟩
    (.inl hdvd) (le_fuel hbound position)
  unfold View.freshenChunks
  split
  · rename_i t spanEnd heq
    rw [heq] at hdone
    obtain ⟨reached, hge, hreached⟩ := hdone rfl
    have hfinish := finishDemandFetch_keeps (M := M) (s := t) position spanEnd
    exact ⟨hreached.keeps.trans hfinish, fun _ x hx hlt =>
      hfinish.fresh _ (hreached.fresh x hx (hlt.trans_le hge) (hlt.trans_le hbound))⟩
  · rename_i t spanEnd heq
    rw [heq] at hfail
    exact ⟨hfail rfl, nofun⟩

/-- **Runs of a demand fetch.** A fault in a stale chunk chooses a run inside the storage that
covers the chunk and no fresh one; the bytes requested lie in the run and belong to the caller;
after a successful fetch exactly the chunks of the run are marked in addition. A range of an
allocation that is not being retired is fresh after `lupine_make_mapped_range_fresh` has
succeeded, and no chunk is fetched that was fresh before; in a stale allocation that is being
retired nothing happens. -/
theorem demandRun_within (hround : M.Rounded) :
    (∀ o < M.storageSize, s.freshChunks (o / chunkBytes) = false →
      let r := demandRun M s o
      r.stop ≤ M.storageSize ∧
      (∀ x < M.storageSize, x / chunkBytes = o / chunkBytes → r.Covers x) ∧
      (∀ x, r.Covers x → s.freshChunks (x / chunkBytes) = false) ∧
      (fetchSpan M r.start r.stop).start ≤ (fetchSpan M r.start r.stop).stop ∧
      (∀ x, (fetchSpan M r.start r.stop).Covers x → M.User x ∧ r.Covers x) ∧
      ∀ i, (s.demandFetchRun M o none).freshChunks i = true ↔
        s.freshChunks i = true ∨ ∃ x, r.Covers x ∧ x / chunkBytes = i) ∧
    ∀ start stop fails retiring,
      let r := s.makeRangeFresh M retiring start stop fails
      (r.2 = true → retiring = false → ∀ x, start ≤ x → x < stop → x < M.storageSize →
        r.1.ChunkFresh (x / chunkBytes)) ∧
      (∀ x, s.freshChunks (x / chunkBytes) = true → r.1.origin x = s.origin x) ∧
      (s.deviceStale = true → retiring = true → r = (s, true)) := by
  constructor
  · intro o ho hstale
    obtain ⟨hrun, hcovers⟩ := demandRun_spec ho hstale
    obtain ⟨hle, huser⟩ := hrun.requested hround
    exact ⟨hrun.stop_le, hcovers, hrun.stale, hle, huser, demandFetchRun_fresh_iff ho hstale⟩
  · intro start stop fails retiring
    obtain ⟨hkeeps, hfresh⟩ := freshenChunks_spec (M := M) (s := s) fails
      (Nat.dvd_mul_left chunkBytes (start / chunkBytes)) (Nat.min_le_right _ _)
    unfold makeRangeFresh View.makeMappedRangeFresh
    cases hstale : s.deviceStale <;> cases retiring
    · exact ⟨fun _ _ _ _ _ _ => .inl hstale, fun _ _ => rfl, by simp⟩
    · exact ⟨fun _ _ _ _ _ _ => .inl hstale, fun _ _ => rfl, by simp⟩
    · refine ⟨fun hok _ x hx hlt hs => .inr (hfresh hok x ?_ (lt_min ?_ hs)), hkeeps.origin,
        by simp⟩
      · exact (div_mul_le_self _ _).trans hx
      · unfold chunkBytes
        omega
    · exact ⟨by simp, fun _ _ => rfl, fun _ _ => rfl⟩

theorem demandRun_within_two_chunks :
    let s := init.invalidate (twoChunks true) true
    (demandRun (twoChunks true) s 70000).Covers 70000 ∧
      (s.makeRangeFresh (twoChunks true) false 0 1 fun _ => none).1.ChunkFresh 0 := by
  intro s
  obtain ⟨hfault, hrange⟩ := @demandRun_within (twoChunks true) s (by decide)
  exact ⟨(hfault 70000 (by decide) rfl).2.1 70000 (by decide) rfl,
    (hrange 0 1 (fun _ => none) false).1 rfl rfl 0 (by decide) (by decide) (by decide)⟩

/-- A range of an allocation that is being retired is reported fresh, and is not. -/
theorem retiring_left_stale :
    ∃ s : View, (s.makeRangeFresh (twoChunks true) true 0 1 fun _ => none).2 = true ∧
      ¬(s.makeRangeFresh (twoChunks true) true 0 1 fun _ => none).1.ChunkFresh 0 :=
  ⟨init.invalidate (twoChunks true) true, rfl, by decide⟩

end View

end Lupine.HostMemory
