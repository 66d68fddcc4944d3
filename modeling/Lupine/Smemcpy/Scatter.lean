import Mathlib.Data.Nat.Bitwise
import Lupine.Smemcpy.Kernels

/-!
# Scatter copies on CUDA devices

The dispatcher of `ops/smemcpy_dispatch.cpp` and the kernels of `ops/cuda_smemcpy.cu` together. The
driver's copy and all kernels but the narrow ones put each byte of the fragment where
`destinationAt` says, for fragments of every shape and size. The narrow kernels copy as many bytes
as the grid has threads and a thread has items, and the grid is bounded: beyond that, bytes of the
fragment are not copied.

* `scatters_iff`: a launch copies the fragment if and only if `Covered` holds.
* `last_byte_is_lost`: a fragment of which the last byte is never copied.
-/

namespace Lupine.Smemcpy

open Foundations Nat List Params

/-! ## Grids -/

theorem one_le_blocksFor (bytes bytesPerThread : ℕ) : 1 ≤ blocksFor bytes bytesPerThread := by
  simp only [blocksFor, maximumBlocks]
  omega

theorem blocksFor_le (bytes bytesPerThread : ℕ) :
    blocksFor bytes bytesPerThread ≤ maximumBlocks :=
  min_le_right _ _

theorem threads_le (bytes bytesPerThread : ℕ) :
    128 ≤ blocksFor bytes bytesPerThread * threadsPerBlock :=
  Nat.le_trans (by decide) (Nat.le_mul_of_pos_left 256 (one_le_blocksFor bytes bytesPerThread))

/-- The grid has the largest size, or it is large enough. -/
theorem blocksFor_eq_or (bytes : ℕ) {bytesPerThread : ℕ} (hpos : 0 < bytesPerThread) :
    blocksFor bytes bytesPerThread = maximumBlocks ∨
      bytes ≤ bytesPerThread * (blocksFor bytes bytesPerThread * threadsPerBlock) := by
  have hblock : 0 < threadsPerBlock * bytesPerThread := Nat.mul_pos (by decide) hpos
  have hdiv := div_add_mod' bytes (threadsPerBlock * bytesPerThread)
  have hmod := mod_lt bytes hblock
  have hceil : bytes ≤ (bytes / (threadsPerBlock * bytesPerThread) +
      if bytes % (threadsPerBlock * bytesPerThread) ≠ 0 then 1 else 0) *
        (threadsPerBlock * bytesPerThread) := by
    rw [add_mul]
    split <;> omega
  rcases lt_or_ge (blocksFor bytes bytesPerThread) maximumBlocks with hlt | hge
  · right
    have hle : bytes / (threadsPerBlock * bytesPerThread) +
        (if bytes % (threadsPerBlock * bytesPerThread) ≠ 0 then 1 else 0) ≤
          blocksFor bytes bytesPerThread := by
      simp only [blocksFor] at hlt ⊢
      omega
    have hprod : bytesPerThread * (blocksFor bytes bytesPerThread * threadsPerBlock) =
        blocksFor bytes bytesPerThread * (threadsPerBlock * bytesPerThread) := by
      rw [mul_comm, mul_assoc]
    rw [hprod]
    exact le_trans hceil (mul_le_mul_right _ hle)
  · exact .inl (le_antisymm (blocksFor_le _ _) hge)

/-- The items of all threads are enough if and only if they are for the largest grid. -/
theorem le_items_iff {bytes start items : ℕ} (hitems : 0 < items) :
    bytes ≤ start + items * (blocksFor bytes items * threadsPerBlock) ↔
      bytes ≤ start + items * (maximumBlocks * threadsPerBlock) := by
  rcases blocksFor_eq_or bytes hitems with heq | hle
  · rw [heq]
  · have hmax : items * (blocksFor bytes items * threadsPerBlock) ≤
        items * (maximumBlocks * threadsPerBlock) :=
      mul_le_mul_left _ (mul_le_mul_right _ (blocksFor_le _ _))
    omega

/-! ## Vector kernels -/

section Pitched

variable {p : Params} {w firstDestination : ℕ}

theorem selectPitched_eq_none {l : Launch} :
    selectPitchedVectorLaunch l firstDestination = none ↔
      ∀ w ∈ [16, 8, 4, 2], canVectorizePitched w l.params firstDestination = false := by
  unfold selectPitchedVectorLaunch
  split
  · simp [*]
  split
  · simp [*]
  split
  · simp [*]
  split <;> simp [*]

theorem two_pow_of_mem (hw : w ∈ [16, 8, 4, 2]) : ∃ b, w = 2 ^ b := by
  simp only [mem_cons, not_mem_nil, or_false] at hw
  rcases hw with rfl | rfl | rfl | rfl
  · exact ⟨4, rfl⟩
  · exact ⟨3, rfl⟩
  · exact ⟨2, rfl⟩
  · exact ⟨1, rfl⟩

theorem dvd_and_le_of_mem (hw : w ∈ [16, 8, 4, 2]) : w ∣ 128 ∧ w ≤ 128 ∧ 0 < w := by
  simp only [mem_cons, not_mem_nil, or_false] at hw
  rcases hw with rfl | rfl | rfl | rfl <;> decide

/-- What the masks say. -/
theorem canVectorizePitched_iff (hw : w ∈ [16, 8, 4, 2]) :
    canVectorizePitched w p firstDestination = true ↔
      w ∣ p.width ∧ w ∣ p.destination ∧ w ∣ p.destinationRowStride ∧
        w ∣ p.destinationSliceStride ∧ p.source % w = firstDestination % w := by
  obtain ⟨b, rfl⟩ := two_pow_of_mem hw
  simp only [canVectorizePitched, and_two_pow_sub_one_eq_mod, Bool.and_eq_true,
    decide_eq_true_eq, dvd_iff_mod_eq_zero, xor_mod_two_pow, xor_eq_zero_iff, and_assoc]

/-- Words with an aligned source have an aligned destination, within a row. -/
theorem word_target (hwidth : 0 < p.width) (hrows : 0 < p.rows) (hw : w ∈ [16, 8, 4, 2])
    (h : canVectorizePitched w p p.firstDestination = true) {index : ℕ}
    (hsource : (p.source + index) % w = 0) :
    destinationAt p (p.logicalOffset + index) % w = 0 ∧ ∀ k < w,
      destinationAt p (p.logicalOffset + (index + k)) =
        destinationAt p (p.logicalOffset + index) + k := by
  obtain ⟨⟨c, hc⟩, ⟨d, hd⟩, ⟨r, hr⟩, ⟨s, hs⟩, hfirst⟩ := (canVectorizePitched_iff hw).mp h
  -- an address and an offset have one remainder
  have hmod : ∀ o, destinationAt p o % w = o % w := by
    intro o
    obtain ⟨x, hx, row, hrow, slice, ho⟩ := offset_eq hwidth hrows o
    have hoffset : (slice * p.rows + row) * p.width = w * ((slice * p.rows + row) * c) := by
      rw [hc, mul_left_comm]
    have haddress : p.destination + slice * p.destinationSliceStride +
        row * p.destinationRowStride + x = w * (d + slice * s + row * r) + x := by
      rw [hd, hs, hr, mul_add, mul_add, mul_left_comm slice, mul_left_comm row]
    rw [ho, destinationAt_eq hx hrow, haddress, hoffset, mul_add_mod, mul_add_mod]
  have hoffset : (p.logicalOffset + index) % w = 0 := by
    rw [firstDestination, hmod] at hfirst
    rw [add_mod, ← hfirst, ← add_mod, hsource]
  refine ⟨by rw [hmod, hoffset], fun k hk => ?_⟩
  obtain ⟨x, hx, row, hrow, slice, ho⟩ := offset_eq hwidth hrows (p.logicalOffset + index)
  -- the word does not reach into the next row
  have hroom : x + w ≤ p.width := by
    have hxw : x % w = 0 := by
      rw [ho, hc, mul_left_comm, mul_add_mod] at hoffset
      exact hoffset
    obtain ⟨y, rfl⟩ := dvd_of_mod_eq_zero hxw
    rw [hc] at hx ⊢
    exact Nat.mul_le_mul_left w (Nat.lt_of_mul_lt_mul_left hx)
  rw [← add_assoc, ho, add_assoc, destinationAt_eq (by omega) hrow, destinationAt_eq hx hrow]
  omega

theorem scatters_pitchedVectorBody (hwidth : 0 < p.width) (hrows : 0 < p.rows)
    (hw : w ∈ [16, 8, 4, 2]) (h : canVectorizePitched w p p.firstDestination = true) {n : ℕ}
    (hn : 128 ≤ n) :
    p.ScatteredBy n (pitchedVectorBody w p n) := by
  obtain ⟨hdvd, hle, hpos⟩ := dvd_and_le_of_mem hw
  have haccessible := accessible_destinationAt hwidth hrows
  refine scatters_wordBody hpos (by omega) hn haccessible (fun _ _ => rfl) fun m hend => ?_
  have hsource := source_aligned hdvd hpos hend
  obtain ⟨haddress, htarget⟩ := word_target hwidth hrows hw h hsource
  exact wordOk_word haccessible hend hsource haddress htarget

end Pitched

/-! ## Atomic kernels -/

section Atomic

variable {p : Params} {device : Option Device}

theorem stride_of_power {stride : ℕ} (hlow : 64 ≤ stride) (hhigh : stride ≤ 512)
    (hpower : stride &&& (stride - 1) = 0) : stride % 4 = 0 := by
  have h : ∀ s < 513, 64 ≤ s → s &&& (s - 1) = 0 → s % 4 = 0 := by decide +kernel
  exact h stride (by omega) hlow hpower

theorem atomicGroupThreads_mem {target : AtomicNarrowTarget} {width stride : ℕ}
    (h : atomicGroupThreads target width stride ≠ 0) :
    atomicGroupThreads target width stride ∈ [4, 8, 16] := by
  revert h
  cases target <;> simp only [atomicGroupThreads] <;> repeat' split
  all_goals decide

/-- What an atomic kernel needs, the dispatcher checks. -/
theorem atomicThreads_spec (h : atomicThreads p device ≠ 0) :
    p.logicalOffset % p.width = 0 ∧ p.bytes % p.width = 0 ∧ 4 ≤ p.destinationRowStride ∧
      p.destinationRowStride % 4 = 0 ∧ (p.firstDestination &&& 3) + p.width ≤ 4 ∧
      atomicThreads p device ∈ [4, 8, 16] := by
  unfold atomicThreads at h ⊢
  split at h
  · rename_i hcond
    have hgroup := atomicGroupThreads_mem h
    rw [if_pos hcond]
    have hfit := hcond.2.1
    simp only [rowsFitAtomicWord, Bool.and_eq_true, decide_eq_true_eq] at hfit
    unfold atomicGroupThreads at h
    split at h
    · exact absurd rfl h
    · rename_i hstride
      rw [not_or, not_or, not_not, not_lt, not_lt] at hstride
      obtain ⟨hlow, hhigh, hpower⟩ := hstride
      exact ⟨hfit.1.2.1, hfit.1.2.2, by omega, stride_of_power hlow hhigh hpower, hfit.2, hgroup⟩
  · exact absurd rfl h

section

variable (hwidth : 0 < p.width) (hrows : 0 < p.rows)
include hwidth hrows

/-- Complete rows of one slice. -/
theorem regularRows_fromRow (hoffset : p.logicalOffset % p.width = 0)
    (hbytes : p.bytes % p.width = 0) (hslice : p.first.slice = p.lastSlice) :
    RegularRows p p.fromRow.destination (p.logicalOffset / p.width) 0 (p.bytes / p.width) where
  logicalOffset := (Nat.div_mul_cancel (Nat.dvd_of_mod_eq_zero hoffset)).symm
  bytes := (Nat.div_mul_cancel (Nat.dvd_of_mod_eq_zero hbytes)).symm
  start := by
    intro k hk
    have hlogical := Nat.div_mul_cancel (Nat.dvd_of_mod_eq_zero hoffset)
    have hcount := Nat.div_mul_cancel (Nat.dvd_of_mod_eq_zero hbytes)
    have hx : p.first.x = 0 := by
      change p.logicalOffset - p.logicalOffset / p.width * p.width = 0
      omega
    have hi : k * p.width < p.bytes := by
      rw [← hcount]
      exact Nat.mul_lt_mul_of_pos_right (by omega) hwidth
    have htarget := row_target hwidth hrows hi hslice
    rw [hx, Nat.zero_add, Nat.mul_div_cancel _ hwidth, Nat.sub_self, Nat.add_zero] at htarget
    rw [rowStart, add_mul, hlogical, ← htarget]
    rfl

/-- Complete rows of slices that continue each other. -/
theorem regularRows_fromSlice (hoffset : p.logicalOffset % p.width = 0)
    (hbytes : p.bytes % p.width = 0)
    (hregular : p.destinationSliceStride = p.destinationRowStride * p.rows) :
    RegularRows p p.fromSlice.destination (p.first.slice * p.rows) p.first.row
      (p.bytes / p.width) where
  logicalOffset := by
    have hrow : p.first.slice * p.rows + p.first.row = p.logicalOffset / p.width :=
      Nat.add_sub_cancel' (Nat.div_mul_le_self _ _)
    rw [hrow, Nat.div_mul_cancel (Nat.dvd_of_mod_eq_zero hoffset)]
  bytes := (Nat.div_mul_cancel (Nat.dvd_of_mod_eq_zero hbytes)).symm
  start := by
    have hstart : ∀ row, p.rowStart row = p.destination + row * p.destinationRowStride := by
      intro row
      have hdiv := congrArg (· * p.destinationRowStride) (div_add_mod' row p.rows)
      simp only [add_mul] at hdiv
      rw [rowStart_eq hwidth hrows, hregular, mul_comm p.destinationRowStride, ← mul_assoc]
      omega
    intro k _
    rw [hstart, add_mul, ← add_assoc]
    simp only [fromSlice, hregular]
    rw [mul_comm p.destinationRowStride, mul_assoc]

/-- A launch of an atomic kernel for a fragment of regular rows. -/
theorem scatters_atomic (hatomic : atomicThreads p device ≠ 0) {base first skipped count : ℕ}
    (h : RegularRows p base first skipped count) {p' : Params}
    (hp : p' = { p with destination := base, logicalOffset := skipped * p.width }) (is3D : Bool) :
    p.ScatteredBy
      (narrowKernel { params := p', threads := threadsPerBlock } p device is3D).threadCount
      (narrowKernel { params := p', threads := threadsPerBlock } p device is3D).body := by
  obtain ⟨-, hbytes, hstride, hmod, -⟩ := atomicThreads_spec hatomic
  have hsource' : p'.source = p.source := by rw [hp]
  have hbytes' : p'.bytes = p.bytes := by rw [hp]
  have hcount : p'.bytes / p.width = count := by
    rw [hbytes', h.bytes, Nat.mul_div_cancel _ hwidth]
  have hoffset : p.firstDestination % 4 = p.firstDestination &&& 3 :=
    (and_two_pow_sub_one_eq_mod p.firstDestination 2).symm
  have hok : ∀ c < p'.bytes / p.width, WordOk p'.source p'.bytes
      (fun i => destinationAt p (p.logicalOffset + i)) p.Accessible p.width (c * p.width)
      (rowStores p.width (p.firstDestination &&& 3) p' c) := by
    intro c hc
    rw [hcount] at hc
    rw [hsource', hbytes', hp]
    exact h.wordOk_rowStores hwidth hrows hstride hmod hc hoffset
  have hn := threads_le p'.bytes p.width
  have hgroup : 0 < atomicThreads p device := pos_of_ne_zero hatomic
  have hthreads : (setAtomicLaunch { params := p', threads := threadsPerBlock } p.width
      (p.firstDestination &&& 3) (atomicThreads p device)).threadCount =
      blocksFor p'.bytes p.width * threadsPerBlock := rfl
  rw [narrowKernel, if_pos hatomic, Params.ScatteredBy, ← hsource', ← hbytes', hthreads]
  rcases eq_or_ne p.width 1 with hone | hne
  · rw [hone] at hok
    have hbody : (setAtomicLaunch { params := p', threads := threadsPerBlock } p.width
        (p.firstDestination &&& 3) (atomicThreads p device)).body =
        atomicNarrow2DBody (p.firstDestination &&& 3) (atomicThreads p device) p'
          (blocksFor p'.bytes p.width * threadsPerBlock) := by
      funext t
      simp [Launch.body, setAtomicLaunch, hone]
    rw [hbody]
    exact scatters_atomicNarrow2DBody hgroup (by omega) hok
  · have hbody : (setAtomicLaunch { params := p', threads := threadsPerBlock } p.width
        (p.firstDestination &&& 3) (atomicThreads p device)).body =
        atomicRowsBody p.width (p.firstDestination &&& 3) (atomicThreads p device) p'
          (blocksFor p'.bytes p.width * threadsPerBlock) := by
      funext t
      simp [Launch.body, setAtomicLaunch, hne]
    rw [hbody]
    exact scatters_atomicRowsBody hwidth hgroup (by omega) (by rw [hbytes', hbytes]) hok

end

end Atomic

/-! ## Launches -/

section

variable (p : Params) (device : Option Device)

/-- The items of a thread of a narrow kernel. -/
def Params.narrowItems : ℕ :=
  if latencyHidingNarrow p device then narrowItemsPerThread else 1

/-- The fragment is for a narrow kernel. -/
def Params.IsNarrow : Prop :=
  contiguousDestination p (p.width * p.rows) = false ∧ p.width ≤ 3 ∧ atomicThreads p device = 0 ∧
    (latencyHidingNarrow p device = true ∨
      ∀ w ∈ [16, 8, 4, 2], canVectorizePitched w p p.firstDestination = false)

/-- The largest grid of a narrow kernel has enough threads for the fragment. -/
def Params.FitsGrid : Prop :=
  p.bytes ≤ sourcePrefix p.source p.bytes +
    p.narrowItems device * (maximumBlocks * threadsPerBlock)

/-- The fragment is not for a narrow kernel, or it is small enough for one. -/
def Params.Covered : Prop :=
  p.IsNarrow device → p.FitsGrid device

end

instance (p : Params) (device : Option Device) : Decidable (p.IsNarrow device) :=
  inferInstanceAs (Decidable (_ ∧ _))

instance (p : Params) (device : Option Device) : Decidable (p.FitsGrid device) :=
  inferInstanceAs (Decidable (_ ≤ _))

instance (p : Params) (device : Option Device) : Decidable (p.Covered device) :=
  inferInstanceAs (Decidable (_ → _))

/-- `kKernels` has the kernel of the launch. -/
def Launch.hasKernel (launch : Launch) : Bool :=
  match launch.kernel with
  | .threeD | .twoD => true
  | .pitched => launch.wordBytes ∈ [2, 4, 8, 16]
  | .narrow2D | .narrow3D => launch.width ∈ [1, 2, 3] && launch.items ∈ [1, 4]
  | .atomicNarrow2D => launch.byteOffset ∈ [0, 1, 2, 3] && launch.groupThreads ∈ [4, 8, 16]
  | .atomicRows =>
    (launch.width, launch.byteOffset) ∈ [(2, 0), (2, 1), (2, 2), (3, 0), (3, 1)] &&
      launch.groupThreads ∈ [4, 8, 16]

section Launches

variable {p : Params} {device : Option Device}

attribute [local simp] Launch.hasKernel

/-- The kernels for narrow rows that can be selected are there. -/
theorem narrowKernel_hasKernel (hwidth : 0 < p.width) (hnarrow : p.width ≤ 3) (l : Launch)
    (is3D : Bool) : (narrowKernel l p device is3D).hasKernel = true := by
  have hmem : p.width = 1 ∨ p.width = 2 ∨ p.width = 3 := by omega
  unfold narrowKernel
  split
  · rename_i hatomic
    obtain ⟨-, -, -, -, hfit, hgroup⟩ := atomicThreads_spec hatomic
    generalize p.firstDestination &&& 3 = offset at hfit ⊢
    rcases hmem with h | h | h <;> rw [h] at hfit
    · have : offset = 0 ∨ offset = 1 ∨ offset = 2 ∨ offset = 3 := by omega
      simpa [setAtomicLaunch, h, this] using hgroup
    · have : offset = 0 ∨ offset = 1 ∨ offset = 2 := by omega
      simpa [setAtomicLaunch, h, this] using hgroup
    · have : offset = 0 ∨ offset = 1 := by omega
      simpa [setAtomicLaunch, h, this] using hgroup
  · generalize hitems : (if latencyHidingNarrow p device then narrowItemsPerThread else 1) = items
    have hitems : items = 1 ∨ items = 4 := by
      rw [← hitems]
      split
      · exact .inr rfl
      · exact .inl rfl
    cases is3D <;> simpa [setNarrowLaunch, hmem] using hitems

theorem pitchedLaunch_eq_none : pitchedLaunch p device = none ↔
    atomicThreads p device ≠ 0 ∨ latencyHidingNarrow p device = true ∨
      ∀ w ∈ [16, 8, 4, 2], canVectorizePitched w p p.firstDestination = false := by
  unfold pitchedLaunch
  split
  · rename_i h
    rw [selectPitched_eq_none]
    simp [h]
  · rename_i h
    simp only [true_iff]
    rw [not_and_or, Bool.not_eq_false] at h
    exact h.imp_right .inl

theorem pitchedLaunch_hasKernel {launch : Launch} (h : pitchedLaunch p device = some launch) :
    launch.hasKernel = true := by
  unfold pitchedLaunch at h
  split at h
  · obtain ⟨w, hw, -, rfl⟩ := selectPitched_eq_some h
    simp only [mem_cons, not_mem_nil, or_false] at hw
    rcases hw with rfl | rfl | rfl | rfl <;> rfl
  · cases h

theorem scatterLaunch_hasKernel (hwidth : 0 < p.width) :
    (scatterLaunch p device).hasKernel = true := by
  unfold scatterLaunch
  split
  · exact pitchedLaunch_hasKernel ‹_›
  · split
    · unfold rowsLaunch
      split
      · exact narrowKernel_hasKernel hwidth ‹_› _ _
      · rfl
    · unfold slicesLaunch
      split
      · exact narrowKernel_hasKernel hwidth ‹_› _ _
      · rfl

section

variable (hwidth : 0 < p.width) (hrows : 0 < p.rows)
include hwidth hrows

theorem scatters_pitchedLaunch {launch : Launch} (h : pitchedLaunch p device = some launch) :
    p.ScatteredBy launch.threadCount launch.body := by
  unfold pitchedLaunch at h
  split at h
  · obtain ⟨w, hw, hvector, rfl⟩ := selectPitched_eq_some h
    exact scatters_pitchedVectorBody hwidth hrows hw hvector (threads_le p.bytes w)
  · cases h

omit hwidth hrows in
/-- Where a narrow kernel stores a byte is the target of its launch. -/
theorem scatters_narrow_iff (p' : Params) (hwidth : 0 < p.width) (hrows : 0 < p.rows)
    (hatomic : atomicThreads p device = 0) (hsource : p'.source = p.source)
    (hbytes : p'.bytes = p.bytes) (hp : p'.width = p.width) (is3D : Bool)
    (htarget : ∀ i < p.bytes,
      (narrowKernel { params := p', threads := threadsPerBlock } p device is3D).target i =
        destinationAt p (p.logicalOffset + i)) :
    p.ScatteredBy
      (narrowKernel { params := p', threads := threadsPerBlock } p device is3D).threadCount
      (narrowKernel { params := p', threads := threadsPerBlock } p device is3D).body ↔
      p.FitsGrid device := by
  have hnarrow : narrowKernel { params := p', threads := threadsPerBlock } p device is3D =
      setNarrowLaunch { params := p', threads := threadsPerBlock } is3D p.width
        (p.narrowItems device) := by
    rw [narrowKernel, if_neg (not_not.mpr hatomic)]
    rfl
  have haccessible := accessible_destinationAt hwidth hrows
  have hn := threads_le p'.bytes (p.narrowItems device)
  have hitems : 0 < p.narrowItems device := by
    unfold narrowItems
    split <;> decide
  rw [hnarrow] at htarget ⊢
  rw [Params.ScatteredBy, Params.FitsGrid, ← le_items_iff hitems, ← hsource]
  simp only [← hbytes] at htarget haccessible ⊢
  cases is3D with
  | false =>
    have hscalar : ∀ i < p'.bytes, scatterNarrowStore p.width p' i =
        .store i (destinationAt p (p.logicalOffset + i)) := by
      intro i hi
      rw [← htarget i hi, scatterNarrowStore, rowAddress, ← hp]
      rfl
    exact scatters_narrowBody_iff hn haccessible hscalar
  | true =>
    have hscalar : ∀ i < p'.bytes, scatterNarrow3DStore p.width p' i =
        .store i (destinationAt p (p.logicalOffset + i)) := by
      intro i hi
      rw [← htarget i hi, scatterNarrow3DStore, ← hp]
      rfl
    exact scatters_narrowBody_iff hn haccessible hscalar

theorem scatters_rowsLaunch_iff (hslice : p.first.slice = p.lastSlice) :
    p.ScatteredBy (rowsLaunch p device).threadCount (rowsLaunch p device).body ↔
      (p.width ≤ 3 ∧ atomicThreads p device = 0 → p.FitsGrid device) := by
  have htarget : ∀ i < p.bytes, (rowsLaunch p device).target i =
      destinationAt p (p.logicalOffset + i) :=
    fun i hi => rowsLaunch_target hwidth hrows hi hslice
  unfold rowsLaunch at htarget ⊢
  split at htarget
  · rename_i hnarrow
    rw [if_pos hnarrow]
    rcases eq_or_ne (atomicThreads p device) 0 with hatomic | hatomic
    · rw [scatters_narrow_iff p.fromRow hwidth hrows hatomic rfl rfl rfl false htarget]
      simp [hnarrow, hatomic]
    · obtain ⟨hoffset, hbytes, -⟩ := atomicThreads_spec hatomic
      have hx : p.first.x = 0 * p.width := by
        have := Nat.div_mul_cancel (Nat.dvd_of_mod_eq_zero hoffset)
        change p.logicalOffset - p.logicalOffset / p.width * p.width = _
        omega
      refine iff_of_true (scatters_atomic hwidth hrows hatomic
        (regularRows_fromRow hwidth hrows hoffset hbytes hslice) ?_ false)
        fun h => absurd h.2 hatomic
      rw [← hx]
      rfl
  · rename_i hwide
    rw [if_neg hwide]
    have hscalar : ∀ i < p.bytes, scatter2DByte p.fromRow i =
        .store i (destinationAt p (p.logicalOffset + i)) := by
      intro i hi
      rw [← htarget i hi]
      rfl
    exact iff_of_true (scatters_byteBody (threads_le p.bytes 1)
      (accessible_destinationAt hwidth hrows) hscalar) fun h => absurd h.1 hwide

theorem scatters_slicesLaunch_iff (hslice : p.first.slice ≠ p.lastSlice) :
    p.ScatteredBy (slicesLaunch p device).threadCount (slicesLaunch p device).body ↔
      (p.width ≤ 3 ∧ atomicThreads p device = 0 → p.FitsGrid device) := by
  have htarget : ∀ i < p.bytes, (slicesLaunch p device).target i =
      destinationAt p (p.logicalOffset + i) :=
    fun i hi => slicesLaunch_target hwidth hrows hslice
  unfold slicesLaunch at htarget ⊢
  split at htarget
  · rename_i hnarrow
    rw [if_pos hnarrow]
    rcases eq_or_ne (atomicThreads p device) 0 with hatomic | hatomic
    · rw [scatters_narrow_iff p.fromSlice hwidth hrows hatomic rfl rfl rfl true htarget]
      simp [hnarrow, hatomic]
    · obtain ⟨hoffset, hbytes, -⟩ := atomicThreads_spec hatomic
      have hregular := regularRows_fromSlice hwidth hrows hoffset hbytes
        (regular_of_atomicThreads hatomic hslice)
      refine iff_of_true (scatters_atomic hwidth hrows hatomic hregular ?_ true)
        fun h => absurd h.2 hatomic
      have hlogical : p.fromSlice.logicalOffset = p.first.row * p.width := by
        change p.logicalOffset - p.first.slice * (p.width * p.rows) = _
        have := hregular.logicalOffset
        rw [Nat.mul_comm p.width, ← Nat.mul_assoc, this, Nat.add_mul, Nat.add_sub_cancel_left]
      rw [← hlogical]
      rfl
  · rename_i hwide
    rw [if_neg hwide]
    have hscalar : ∀ i < p.bytes, scatterByte p.fromSlice i =
        .store i (destinationAt p (p.logicalOffset + i)) := by
      intro i hi
      rw [← htarget i hi]
      rfl
    exact iff_of_true (scatters_byteBody (threads_le p.bytes 1)
      (accessible_destinationAt hwidth hrows) hscalar) fun h => absurd h.1 hwide

theorem scatters_scatterLaunch_iff
    (hscattered : contiguousDestination p (p.width * p.rows) = false) :
    p.ScatteredBy (scatterLaunch p device).threadCount (scatterLaunch p device).body ↔
      p.Covered device := by
  unfold scatterLaunch
  rcases hpitched : pitchedLaunch p device with _ | launch
  · -- a narrow kernel if the rows are narrow
    have hcovered : p.Covered device ↔ (p.width ≤ 3 ∧ atomicThreads p device = 0 →
        p.FitsGrid device) := by
      rw [pitchedLaunch_eq_none] at hpitched
      refine imp_congr ⟨fun h => ⟨h.2.1, h.2.2.1⟩, fun h => ⟨hscattered, h.1, h.2, ?_⟩⟩ Iff.rfl
      exact hpitched.resolve_left (not_not.mpr h.2)
    rw [hcovered]
    simp only
    split
    · exact scatters_rowsLaunch_iff hwidth hrows ‹_›
    · exact scatters_slicesLaunch_iff hwidth hrows ‹_›
  · refine iff_of_true (scatters_pitchedLaunch hwidth hrows hpitched) fun h => ?_
    have hnone : pitchedLaunch p device = none := pitchedLaunch_eq_none.mpr (.inr h.2.2.2)
    rw [hnone] at hpitched
    cases hpitched

end

theorem scatteredBy_iff {launch : Launch} (h : prepareDescriptor p device = some launch) :
    launch.hasKernel = true ∧ p.ScatteredBy launch.threadCount launch.body ↔ p.Covered device := by
  unfold prepareDescriptor at h
  split at h
  · cases h
  rename_i hvalid
  obtain ⟨hwidth, hrows⟩ := pos_of_valid (Bool.not_eq_true _ ▸ hvalid)
  split at h
  · rename_i hbytes
    cases h
    refine iff_of_true ⟨rfl, ?_⟩ fun _ => hbytes.trans_le (zero_le _)
    exact scatters_of_stores (fun i hi => by omega) (fun i hi => by omega)
      fun t ht => absurd ht (by simp [Launch.threadCount])
  split at h
  · rename_i hcontiguous
    cases h
    refine iff_of_true ⟨rfl, ?_⟩ fun hnarrow => ?_
    · refine scatters_of_stores (accessible_destinationAt hwidth hrows)
        (fun i hi => ⟨0, one_pos, ?_⟩) fun t _ a ha => ?_
      · rw [← contiguous_target hwidth hrows hcontiguous hi]
        exact mem_map.mpr ⟨i, mem_range.mpr hi, rfl⟩
      · obtain ⟨i, hi, rfl⟩ := mem_map.mp ha
        have hi : i < p.bytes := mem_range.mp hi
        exact ⟨i, hi, by rw [← contiguous_target hwidth hrows hcontiguous hi]⟩
    · rw [hnarrow.1] at hcontiguous
      cases hcontiguous
  · rename_i hscattered
    cases h
    rw [scatters_scatterLaunch_iff hwidth hrows (Bool.not_eq_true _ ▸ hscattered)]
    exact and_iff_right (scatterLaunch_hasKernel hwidth)

/-- **Scatter copies.** The operation that is selected for a fragment exists, puts byte `i` at
`destinationAt (logicalOffset + i)`, for each of its bytes, changes nothing else, and makes only
aligned accesses within the fragment and the accessible destination, if and only if the fragment is
covered. -/
theorem scatters_iff {launch : Launch} (h : prepareDescriptor p device = some launch) :
    launch.hasKernel = true ∧ p.CopiedBy launch.threadCount launch.body ↔ p.Covered device := by
  rw [copiedBy_iff]
  exact scatteredBy_iff h

end Launches

/-- Three rows of one byte. -/
theorem scatters_iff_of_column :
    ∃ launch, prepareDescriptor ⟨4096, 4096, 0, 3, 1, 3, 100, 0⟩ (some ⟨9, 0, false⟩) =
        some launch ∧ launch.hasKernel = true ∧ Params.CopiedBy
          ⟨4096, 4096, 0, 3, 1, 3, 100, 0⟩ launch.threadCount launch.body :=
  ⟨_, rfl, (scatters_iff rfl).mpr (by decide)⟩

/-! ## A byte that is not copied -/

/-- One row of one byte more than the largest grid has threads. -/
def longColumn : Params where
  destination := 4096
  source := 4096
  logicalOffset := 0
  bytes := 16776961
  width := 1
  rows := 16776961
  destinationRowStride := 100
  destinationSliceStride := 0

/-- The launch for it, on a device that does not hide latency with several items. -/
def longColumnLaunch : Launch where
  params := longColumn
  kernel := .narrow2D
  blocks := 65535
  threads := 256
  width := 1
  items := 1

theorem longColumnLaunch_body {t : ℕ} {a : Access} (ha : a ∈ longColumnLaunch.body t) :
    a = .store t (4096 + t * 100) := by
  have ha : a ∈ narrowBody (scatterNarrowStore 1 longColumn) 1 1 4096 16776961 16776960 t := ha
  rcases mem_narrowBody.mp ha with ⟨hlt, -⟩ | ⟨item, hitem, -, rfl⟩
  · have hzero : sourcePrefix 4096 16776961 = 0 := by decide
    omega
  · obtain rfl : item = 0 := by omega
    have hindex : sourcePrefix 4096 16776961 + t + 0 * 16776960 = t := by
      have hzero : sourcePrefix 4096 16776961 = 0 := by decide
      omega
    rw [hindex]
    simp [scatterNarrowStore, rowAddress, longColumn]

/-- The last byte is stored by no thread, and what was at its destination stays there. -/
theorem last_byte_is_lost :
    prepareDescriptor longColumn (some ⟨9, 0, false⟩) = some longColumnLaunch ∧
      ¬longColumn.CopiedBy longColumnLaunch.threadCount longColumnLaunch.body ∧
      ∀ (data memory : ℕ → UInt8) (ts : List (Fin longColumnLaunch.threadCount))
        (g : Grid (Fin longColumnLaunch.threadCount) ℕ UInt8),
        exec Grid.step (grid longColumnLaunch.threadCount longColumnLaunch.body data memory) ts =
          some g →
        g.memory (destinationAt longColumn 16776960) =
          memory (destinationAt longColumn 16776960) := by
  have hcount : longColumnLaunch.threadCount = 16776960 := rfl
  have hlast : destinationAt longColumn 16776960 = 4096 + 16776960 * 100 := by decide
  refine ⟨by decide, fun h => ?_, fun data memory ts g hrun => ?_⟩
  · obtain ⟨t, ht, a, ha, hw⟩ := h.accesses.written 16776960 (by decide)
    rw [longColumnLaunch_body ha] at hw
    have := congrArg Prod.snd (mem_singleton.mp hw)
    omega
  · refine (Grid.ran_of_run hrun).unchanged fun t op hop w hw => ?_
    obtain ⟨a, ha, rfl⟩ := mem_map.mp hop
    rw [longColumnLaunch_body ha] at hw
    obtain rfl := mem_singleton.mp hw
    simp only [ne_eq]
    omega

end Lupine.Smemcpy
