import Lupine.Smemcpy.Scatter

/-!
# Scatter copies on HIP devices

`ops/hip_smemcpy.hip`: the parameters and the destination of a byte are as for CUDA, but there is no
driver copy and no device to ask about, and all kernels have the shape of `wordBody`. The kernels
for bytes load a word at once and store its bytes one by one.

* `Hip.prepareLaunch_copies`: the launch for a fragment copies it, whatever its shape and size.
-/

namespace Lupine.Smemcpy.Hip

open Foundations Nat

/-- The kernels, with their template arguments. -/
inductive Kernel
  | linear (wordBytes : ℕ)
  | pitched (wordBytes : ℕ)
  | twoD
  | threeD
  | narrow2D (width : ℕ)
  | narrow3D (width : ℕ)
  deriving DecidableEq

/-- `lupine_hip_smemcpy_launch`. -/
structure Launch where
  params : Params
  kernel : Kernel
  blocks : ℕ
  threads : ℕ
  deriving DecidableEq

def scatterLoadBytes : ℕ := 8

/-! ## Kernels -/

/-- `smemcpy_linear_kernel`. -/
def linearKernel (wordBytes : ℕ) (p : Params) (step thread : ℕ) : List Access :=
  wordBody (fun index => .store index (p.destination + p.logicalOffset + index))
    (fun index => [.word wordBytes index (p.destination + p.logicalOffset + index)])
    wordBytes p.source p.bytes step thread

/-- What the kernels that unpack words have in common. -/
def unpackingKernel (scalar : ℕ → Access) (loadBytes source bytes step thread : ℕ) :
    List Access :=
  wordBody scalar
    (fun index => .load loadBytes index ::
      (List.range loadBytes).map fun byte => scalar (index + byte))
    loadBytes source bytes step thread

/-- `smemcpy_2d_kernel`. -/
def kernel2D (p : Params) (step thread : ℕ) : List Access :=
  unpackingKernel (scatter2DByte p) scatterLoadBytes p.source p.bytes step thread

/-- `smemcpy_3d_kernel`. -/
def kernel3D (p : Params) (step thread : ℕ) : List Access :=
  unpackingKernel (scatterByte p) scatterLoadBytes p.source p.bytes step thread

/-- `smemcpy_narrow_2d_kernel`. -/
def narrow2DKernel (width : ℕ) (p : Params) (step thread : ℕ) : List Access :=
  unpackingKernel (scatterNarrowStore width p) scatterLoadBytes p.source p.bytes step thread

/-- `smemcpy_narrow_3d_kernel`. -/
def narrow3DKernel (width : ℕ) (p : Params) (step thread : ℕ) : List Access :=
  unpackingKernel (scatterNarrow3DStore width p) scatterLoadBytes p.source p.bytes step thread

namespace Launch

def threadCount (launch : Launch) : ℕ := launch.blocks * launch.threads

/-- What a thread does. `smemcpy_pitched_vector_kernel` is the one for CUDA. -/
def body (launch : Launch) (thread : ℕ) : List Access :=
  match launch.kernel with
  | .linear wordBytes => linearKernel wordBytes launch.params launch.threadCount thread
  | .pitched wordBytes => pitchedVectorBody wordBytes launch.params launch.threadCount thread
  | .twoD => kernel2D launch.params launch.threadCount thread
  | .threeD => kernel3D launch.params launch.threadCount thread
  | .narrow2D width => narrow2DKernel width launch.params launch.threadCount thread
  | .narrow3D width => narrow3DKernel width launch.params launch.threadCount thread

end Launch

/-! ## Dispatch -/

def packedDestination (p : Params) (sliceBytes : ℕ) : Bool :=
  p.destinationRowStride = p.width && p.destinationSliceStride = sliceBytes

section

variable (p : Params) (kernel : Kernel) (wordBytes : ℕ)

/-- A launch of a kernel whose threads copy words of this size. -/
def launchOf : Launch :=
  ⟨p, kernel, blocksFor p.bytes wordBytes, threadsPerBlock⟩

/-- `set_linear_launch`. -/
def setLinearLaunch (p : Params) : Launch :=
  launchOf p (.linear wordBytes) wordBytes

/-- `set_pitched_vector_launch`. -/
def setPitchedVectorLaunch (p : Params) : Launch :=
  launchOf p (.pitched wordBytes) wordBytes

def selectLinearLaunch (firstDestination : ℕ) : Launch :=
  let differentAlignment := p.source ^^^ firstDestination
  if differentAlignment &&& 15 = 0 then setLinearLaunch 16 p
  else if differentAlignment &&& 7 = 0 then setLinearLaunch 8 p
  else if differentAlignment &&& 3 = 0 then setLinearLaunch 4 p
  else if differentAlignment &&& 1 = 0 then setLinearLaunch 2 p
  else setLinearLaunch 1 p

def selectPitchedVectorLaunch (firstDestination : ℕ) : Option Launch :=
  if canVectorizePitched 16 p firstDestination then some (setPitchedVectorLaunch 16 p)
  else if canVectorizePitched 8 p firstDestination then some (setPitchedVectorLaunch 8 p)
  else if canVectorizePitched 4 p firstDestination then some (setPitchedVectorLaunch 4 p)
  else if canVectorizePitched 2 p firstDestination then some (setPitchedVectorLaunch 2 p)
  else none

/-- The template argument of a narrow kernel. -/
def narrowWidth (width : ℕ) : ℕ :=
  match width with
  | 1 => 1
  | 2 => 2
  | _ => 3

/-- The launch for a fragment within one slice. -/
def rowsLaunch : Launch :=
  if p.width ≤ 3 then launchOf p.fromRow (.narrow2D (narrowWidth p.width)) scatterLoadBytes
  else launchOf p.fromRow .twoD scatterLoadBytes

/-- The launch for a fragment of several slices. -/
def slicesLaunch : Launch :=
  if p.width ≤ 3 then launchOf p.fromSlice (.narrow3D (narrowWidth p.width)) scatterLoadBytes
  else launchOf p.fromSlice .threeD scatterLoadBytes

/-- `lupine_hip_smemcpy_prepare_launch`. -/
def prepareLaunch : Option Launch :=
  if p.invalid then none
  else if p.bytes = 0 then some ⟨p, .threeD, 0, threadsPerBlock⟩
  else if packedDestination p (p.width * p.rows) then
    some (selectLinearLaunch p p.firstDestination)
  else
    match selectPitchedVectorLaunch p p.firstDestination with
    | some launch => some launch
    | none => if p.first.slice = p.lastSlice then some (rowsLaunch p) else some (slicesLaunch p)

end

/-! ## Coverage -/

section Coverage

variable {p : Params}

theorem narrowWidth_eq (hpos : 0 < p.width) (hnarrow : p.width ≤ 3) :
    narrowWidth p.width = p.width := by
  have hmem : p.width = 1 ∨ p.width = 2 ∨ p.width = 3 := by omega
  rcases hmem with h | h | h <;> rw [h] <;> rfl

section

variable (hwidth : 0 < p.width) (hrows : 0 < p.rows)
include hwidth hrows

/-- The bytes of a packed destination follow each other. -/
theorem packed_target (h : packedDestination p (p.width * p.rows) = true) (o : ℕ) :
    destinationAt p o = p.destination + o := by
  simp only [packedDestination, Bool.and_eq_true, decide_eq_true_eq] at h
  obtain ⟨x, hx, row, hrow, slice, ho⟩ := offset_eq hwidth hrows o
  have hstep : slice * (p.width * p.rows) = slice * p.rows * p.width := by
    rw [mul_assoc, mul_comm p.width]
  rw [ho, destinationAt_eq hx hrow, h.1, h.2, hstep, add_mul]
  omega

omit hwidth hrows in
/-- The word size of a linear launch suits source and destination. -/
theorem selectLinearLaunch_spec (p : Params) (firstDestination : ℕ) :
    ∃ w, w ∣ 128 ∧ w ≤ 128 ∧ 0 < w ∧ p.source % w = firstDestination % w ∧
      selectLinearLaunch p firstDestination = setLinearLaunch w p := by
  have hmod : ∀ b, (p.source ^^^ firstDestination) &&& (2 ^ b - 1) = 0 →
      p.source % 2 ^ b = firstDestination % 2 ^ b := by
    intro b h
    rwa [and_two_pow_sub_one_eq_mod, xor_mod_two_pow, xor_eq_zero_iff] at h
  unfold selectLinearLaunch
  simp only
  split
  · exact ⟨16, by decide, by decide, by decide, hmod 4 ‹_›, rfl⟩
  split
  · exact ⟨8, by decide, by decide, by decide, hmod 3 ‹_›, rfl⟩
  split
  · exact ⟨4, by decide, by decide, by decide, hmod 2 ‹_›, rfl⟩
  split
  · exact ⟨2, by decide, by decide, by decide, hmod 1 ‹_›, rfl⟩
  · exact ⟨1, by decide, by decide, by decide, by rw [mod_one, mod_one], rfl⟩

theorem scattered_linear (h : packedDestination p (p.width * p.rows) = true) :
    p.ScatteredBy (selectLinearLaunch p p.firstDestination).threadCount
      (selectLinearLaunch p p.firstDestination).body := by
  obtain ⟨w, hdvd, hle, hpos, hmod, hlaunch⟩ := selectLinearLaunch_spec p p.firstDestination
  have haccessible := accessible_destinationAt hwidth hrows
  have htarget : ∀ i, destinationAt p (p.logicalOffset + i) =
      p.destination + p.logicalOffset + i := fun i => by
    rw [packed_target hwidth hrows h, add_assoc]
  have hn := threads_le p.bytes w
  rw [hlaunch]
  change p.ScatteredBy (blocksFor p.bytes w * threadsPerBlock)
    (linearKernel w p (blocksFor p.bytes w * threadsPerBlock))
  refine scatters_wordBody hpos (le_trans hle hn) hn haccessible
    (fun i _ => by rw [htarget]) fun m hend => ?_
  have hsource := source_aligned hdvd hpos hend
  refine wordOk_word haccessible hend hsource ?_ fun k _ => (htarget _).trans (add_assoc _ _ k).symm
  rw [Params.firstDestination, packed_target hwidth hrows h] at hmod
  rw [add_mod, ← hmod, ← add_mod, hsource]

/-- A kernel that unpacks words and knows where the bytes go. -/
theorem scattered_unpacking {scalar : ℕ → Access} {n : ℕ} (hn : 128 ≤ n)
    (hscalar : ∀ i < p.bytes, scalar i = .store i (destinationAt p (p.logicalOffset + i))) :
    p.ScatteredBy n (unpackingKernel scalar scatterLoadBytes p.source p.bytes n) := by
  have haccessible := accessible_destinationAt hwidth hrows
  refine scatters_wordBody (by decide) (le_trans (by decide) hn) hn haccessible hscalar
    fun m hend => ?_
  exact wordOk_unpacked haccessible hend (source_aligned (by decide) (by decide) hend) hscalar

theorem scattered_rows (hslice : p.first.slice = p.lastSlice) :
    p.ScatteredBy (rowsLaunch p).threadCount (rowsLaunch p).body := by
  have hscalar : ∀ i < p.bytes, scatter2DByte p.fromRow i =
      .store i (destinationAt p (p.logicalOffset + i)) := by
    intro i hi
    rw [← row_target hwidth hrows hi hslice]
    rfl
  unfold rowsLaunch
  split
  · rw [narrowWidth_eq hwidth ‹_›]
    exact scattered_unpacking hwidth hrows (threads_le p.bytes scatterLoadBytes) hscalar
  · exact scattered_unpacking hwidth hrows (threads_le p.bytes scatterLoadBytes) hscalar

theorem scattered_slices : p.ScatteredBy (slicesLaunch p).threadCount (slicesLaunch p).body := by
  have hscalar : ∀ i < p.bytes, scatterByte p.fromSlice i =
      .store i (destinationAt p (p.logicalOffset + i)) := by
    intro i _
    rw [scatterByte, destinationAt_fromSlice hwidth hrows]
  unfold slicesLaunch
  split
  · rw [narrowWidth_eq hwidth ‹_›]
    exact scattered_unpacking hwidth hrows (threads_le p.bytes scatterLoadBytes) hscalar
  · exact scattered_unpacking hwidth hrows (threads_le p.bytes scatterLoadBytes) hscalar

end

theorem selectPitched_spec {firstDestination : ℕ} {launch : Launch}
    (h : selectPitchedVectorLaunch p firstDestination = some launch) :
    ∃ w ∈ [16, 8, 4, 2], canVectorizePitched w p firstDestination = true ∧
      launch = setPitchedVectorLaunch w p :=
  exists_wordBytes h

/-- **Scatter copies.** The launch that is selected for a fragment puts byte `i` at
`destinationAt (logicalOffset + i)`, for each of its bytes, changes nothing else, and makes only
aligned accesses within the fragment and the destination. -/
theorem prepareLaunch_copies {launch : Launch} (h : prepareLaunch p = some launch) :
    p.CopiedBy launch.threadCount launch.body := by
  rw [Params.copiedBy_iff]
  unfold prepareLaunch at h
  split at h
  · cases h
  rename_i hvalid
  obtain ⟨hwidth, hrows⟩ := Params.pos_of_valid (Bool.not_eq_true _ ▸ hvalid)
  split at h
  · cases h
    exact scatters_of_stores (fun i hi => by omega) (fun i hi => by omega)
      fun t ht => absurd ht (by simp [Launch.threadCount])
  split at h
  · cases h
    exact scattered_linear hwidth hrows ‹_›
  split at h
  · rename_i hpitched
    cases h
    obtain ⟨w, hw, hvector, rfl⟩ := selectPitched_spec hpitched
    exact scatters_pitchedVectorBody hwidth hrows hw hvector (threads_le p.bytes w)
  split at h
  · cases h
    exact scattered_rows hwidth hrows ‹_›
  · cases h
    exact scattered_slices hwidth hrows

end Coverage

/-- Three rows of one byte. -/
theorem prepareLaunch_copies_of_column :
    ∃ launch, prepareLaunch ⟨4096, 4096, 0, 3, 1, 3, 100, 0⟩ = some launch ∧
      Params.CopiedBy ⟨4096, 4096, 0, 3, 1, 3, 100, 0⟩ launch.threadCount launch.body :=
  ⟨_, rfl, prepareLaunch_copies rfl⟩

end Lupine.Smemcpy.Hip
