import Lupine.Foundations.Region

/-!
# Choosing a scatter copy

`ops/smemcpy_dispatch.cpp`: a packed fragment of a region of rows and slices is copied to its
destination by one `cuMemcpy` if it lands on contiguous bytes there, and by one of several kernels
otherwise. The kernels differ in how they split the bytes among threads, which is the matter of
`Lupine.Smemcpy.Kernels`, and in how they compute the destination of a byte: some know rows and
slices, some only rows, and the dispatcher shifts the destination and the offset to suit them.

* `prepareDescriptor_target`: the launch that is chosen puts each byte where `destinationAt` says.
-/

namespace Lupine.Smemcpy

open Foundations Nat

/-- `lupine_smemcpy_params`. -/
structure Params where
  destination : ℕ
  source : ℕ
  logicalOffset : ℕ
  bytes : ℕ
  width : ℕ
  rows : ℕ
  destinationRowStride : ℕ
  destinationSliceStride : ℕ
  deriving DecidableEq

/-- `lupine_smemcpy_device`. -/
structure Device where
  major : ℤ
  minor : ℤ
  isL4 : Bool

/-- `lupine_smemcpy_kernel_kind`. -/
inductive Kernel
  | threeD
  | twoD
  | pitched
  | narrow2D
  | narrow3D
  | atomicNarrow2D
  | atomicRows
  deriving DecidableEq

/-- `lupine_smemcpy_launch_descriptor`. -/
structure Launch where
  params : Params
  useCudaMemcpy : Bool := false
  kernel : Kernel := .threeD
  blocks : ℕ := 0
  threads : ℕ := 0
  wordBytes : ℕ := 0
  width : ℕ := 0
  items : ℕ := 0
  byteOffset : ℕ := 0
  groupThreads : ℕ := 0
  deriving DecidableEq

/-- The largest `size_t`. -/
def sizeMax : ℕ := 2 ^ 64 - 1

def threadsPerBlock : ℕ := 256

def maximumBlocks : ℕ := 65535

def narrowItemsPerThread : ℕ := 4

/-- Blocks for that many bytes, at least one. -/
def blocksFor (bytes bytesPerThread : ℕ) : ℕ :=
  let blockBytes := threadsPerBlock * bytesPerThread
  let blocks := bytes / blockBytes + if bytes % blockBytes ≠ 0 then 1 else 0
  min (max blocks 1) maximumBlocks

/-- `destination_at`. -/
def destinationAt (params : Params) (logical : ℕ) : ℕ :=
  let p := position params.width params.rows logical
  params.destination + p.slice * params.destinationSliceStride +
    p.row * params.destinationRowStride + p.x

/-- The fragment is one piece at its destination. -/
def contiguousDestination (params : Params) (sliceBytes : ℕ) : Bool :=
  let firstRow := params.logicalOffset / params.width
  let lastRow := (params.logicalOffset + params.bytes - 1) / params.width
  if firstRow = lastRow then true
  else if params.destinationRowStride ≠ params.width then false
  else decide (firstRow / params.rows = lastRow / params.rows) ||
    decide (params.destinationSliceStride = sliceBytes)

/-- Rows consist of words, which source and destination align alike. -/
def canVectorizePitched (wordBytes : ℕ) (params : Params) (firstDestination : ℕ) : Bool :=
  let mask := wordBytes - 1
  params.width &&& mask = 0 && params.destination &&& mask = 0 &&
    params.destinationRowStride &&& mask = 0 && params.destinationSliceStride &&& mask = 0 &&
    (params.source ^^^ firstDestination) &&& mask = 0

/-- A kernel that copies words. -/
def setPitchedVectorLaunch (wordBytes : ℕ) (launch : Launch) : Launch :=
  { launch with
    kernel := .pitched
    wordBytes := wordBytes
    blocks := blocksFor launch.params.bytes wordBytes }

/-- The largest words that fit. -/
def selectPitchedVectorLaunch (launch : Launch) (firstDestination : ℕ) : Option Launch :=
  if canVectorizePitched 16 launch.params firstDestination then
    some (setPitchedVectorLaunch 16 launch)
  else if canVectorizePitched 8 launch.params firstDestination then
    some (setPitchedVectorLaunch 8 launch)
  else if canVectorizePitched 4 launch.params firstDestination then
    some (setPitchedVectorLaunch 4 launch)
  else if canVectorizePitched 2 launch.params firstDestination then
    some (setPitchedVectorLaunch 2 launch)
  else none

/-- A kernel for narrow rows. -/
def setNarrowLaunch (launch : Launch) (is3D : Bool) (width items : ℕ) : Launch :=
  { launch with
    kernel := if is3D then .narrow3D else .narrow2D
    width := width
    items := items
    blocks := blocksFor launch.params.bytes items }

/-- A kernel that updates words atomically. -/
def setAtomicLaunch (launch : Launch) (width byteOffset groupThreads : ℕ) : Launch :=
  { launch with
    kernel := if width = 1 then .atomicNarrow2D else .atomicRows
    width := width
    byteOffset := byteOffset
    groupThreads := groupThreads
    blocks := blocksFor launch.params.bytes width }

/-- The GPUs with a narrow-row kernel of their own. -/
inductive AtomicNarrowTarget
  | none
  | pascal
  | volta
  | turing
  | ampere
  | l4

/-- By compute capability. -/
def atomicTargetFor : Option Device → AtomicNarrowTarget
  | .none => .none
  | some device =>
    if device.major = 6 ∧ device.minor = 0 then .pascal
    else if device.major = 7 ∧ device.minor = 0 then .volta
    else if device.major = 7 ∧ device.minor = 5 then .turing
    else if device.major = 8 ∧ device.minor = 0 then .ampere
    else if device.major = 8 ∧ device.minor = 9 ∧ device.isL4 = true then .l4
    else .none

/-- Threads for a group of rows, or 0; tuned for each GPU. -/
def atomicGroupThreads (target : AtomicNarrowTarget) (width stride : ℕ) : ℕ :=
  if stride < 64 ∨ stride > 512 ∨ stride &&& (stride - 1) ≠ 0 then 0
  else
    match target with
    | .pascal =>
      if width = 1 then if stride ≥ 128 then 4 else 0
      else if stride = 64 then 8 else 4
    | .volta =>
      if width = 1 then if stride ≥ 128 then 4 else 0
      else if stride = 64 ∨ width = 3 ∧ stride = 128 then 16
      else if stride = 128 then 8 else 4
    | .turing =>
      if width = 1 then if stride = 64 then 8 else 4
      else if width = 2 then if stride = 128 ∨ stride = 256 then 4 else 0
      else if stride = 64 then 16 else 4
    | .ampere => if width = 1 ∧ stride ≥ 256 then 8 else 0
    | .l4 => if width = 1 then if stride = 64 then 16 else 8 else 16
    | .none => 0

/-- Whole rows, and one fits into the word of the first byte. -/
def rowsFitAtomicWord (params : Params) (firstDestination : ℕ) : Bool :=
  let ownsCompleteRows :=
    params.logicalOffset % params.width = 0 && params.bytes % params.width = 0
  let byteOffset := firstDestination &&& 3
  params.width ≤ 3 && ownsCompleteRows && byteOffset + params.width ≤ 4

/-- The rows of all slices have one stride. -/
def regularRowsAcrossSlices (params : Params) : Bool :=
  params.destinationRowStride ≤ sizeMax / params.rows &&
    params.destinationSliceStride = params.destinationRowStride * params.rows

/-- The position of the first byte. -/
def Params.first (params : Params) : Position :=
  position params.width params.rows params.logicalOffset

/-- Where the first byte goes. -/
def Params.firstDestination (params : Params) : ℕ := destinationAt params params.logicalOffset

/-- The slice of the last byte. -/
def Params.lastSlice (params : Params) : ℕ :=
  (params.logicalOffset + params.bytes - 1) / params.width / params.rows

/-- `atomic_threads` of `lupine_smemcpy_prepare_descriptor`. -/
def atomicThreads (params : Params) (device : Option Device) : ℕ :=
  if params.width ≤ 3 ∧ rowsFitAtomicWord params params.firstDestination = true ∧
      (params.first.slice = params.lastSlice ∨ regularRowsAcrossSlices params = true) then
    atomicGroupThreads (atomicTargetFor device) params.width params.destinationRowStride
  else 0

/-- `latency_hiding_narrow` of `lupine_smemcpy_prepare_descriptor`. -/
def latencyHidingNarrow (params : Params) : Option Device → Bool
  | some device => params.width ≤ 3 && device.major < 8
  | none => false

/-- The kernel for rows of up to three bytes. -/
def narrowKernel (launch : Launch) (params : Params) (device : Option Device) (is3D : Bool) :
    Launch :=
  if atomicThreads params device ≠ 0 then
    setAtomicLaunch launch params.width (params.firstDestination &&& 3)
      (atomicThreads params device)
  else
    setNarrowLaunch launch is3D params.width
      (if latencyHidingNarrow params device then narrowItemsPerThread else 1)

/-- The destination and the offset from the first row of the fragment. -/
def Params.fromRow (params : Params) : Params :=
  { params with
    destination := params.destination + params.first.slice * params.destinationSliceStride +
      params.first.row * params.destinationRowStride
    logicalOffset := params.first.x }

/-- The destination and the offset from the first slice of the fragment. -/
def Params.fromSlice (params : Params) : Params :=
  { params with
    destination := params.destination + params.first.slice * params.destinationSliceStride
    logicalOffset := params.logicalOffset - params.first.slice * (params.width * params.rows) }

/-- The launch for a fragment within one slice. -/
def rowsLaunch (params : Params) (device : Option Device) : Launch :=
  if params.width ≤ 3 then
    narrowKernel { params := params.fromRow, threads := threadsPerBlock } params device false
  else
    { params := params.fromRow
      threads := threadsPerBlock
      kernel := .twoD
      blocks := blocksFor params.bytes 1 }

/-- The launch for a fragment of several slices. -/
def slicesLaunch (params : Params) (device : Option Device) : Launch :=
  if params.width ≤ 3 then
    narrowKernel { params := params.fromSlice, threads := threadsPerBlock } params device true
  else
    { params := params.fromSlice
      threads := threadsPerBlock
      kernel := .threeD
      blocks := blocksFor params.bytes 1 }

/-- The launch that copies words, if there is one. -/
def pitchedLaunch (params : Params) (device : Option Device) : Option Launch :=
  if atomicThreads params device = 0 ∧ latencyHidingNarrow params device = false then
    selectPitchedVectorLaunch { params := params, threads := threadsPerBlock }
      params.firstDestination
  else none

/-- The part of `lupine_smemcpy_prepare_descriptor` for destinations that are not contiguous. -/
def scatterLaunch (params : Params) (device : Option Device) : Launch :=
  match pitchedLaunch params device with
  | some launch => launch
  | none =>
    if params.first.slice = params.lastSlice then rowsLaunch params device
    else slicesLaunch params device

/-- `CUDA_ERROR_INVALID_VALUE`. -/
def Params.invalid (params : Params) : Bool :=
  params.width = 0 || params.rows = 0 ||
    params.bytes ≠ 0 && (params.source = 0 || params.destination = 0) ||
    params.width > sizeMax / params.rows || params.bytes > sizeMax - params.logicalOffset

/-- `lupine_smemcpy_prepare_descriptor`. -/
def prepareDescriptor (params : Params) (device : Option Device) : Option Launch :=
  if params.invalid then none
  else if params.bytes = 0 then some { params := params, threads := threadsPerBlock }
  else if contiguousDestination params (params.width * params.rows) then
    some {
      params := { params with
        destination := params.firstDestination
        logicalOffset := 0 }
      threads := threadsPerBlock
      useCudaMemcpy := true }
  else some (scatterLaunch params device)

/-- `lupine_smemcpy_prepare_driver_launch`; `device` is what the driver answers, or nothing if one
of the queries fails. -/
def prepareDriverLaunch (params : Params) (device : Option Device) : Option Launch :=
  match prepareDescriptor params none with
  | none => none
  | some launch =>
    if params.bytes = 0 ∨ params.width > 3 ∨ launch.useCudaMemcpy = true then some launch
    else
      match device with
      | none => none
      | some device => prepareDescriptor params (some device)

/-! ## Where the bytes go -/

/-- Where the kernel puts a byte. -/
def Launch.kernelAddress (launch : Launch) (logical : ℕ) : ℕ :=
  match launch.kernel with
  | .threeD | .pitched | .narrow3D => destinationAt launch.params logical
  | .twoD | .narrow2D | .atomicNarrow2D | .atomicRows =>
    let row := logical / launch.params.width
    launch.params.destination + row * launch.params.destinationRowStride +
      (logical - row * launch.params.width)

/-- Where the launch puts byte `i` of its source. -/
def Launch.target (launch : Launch) (i : ℕ) : ℕ :=
  if launch.useCudaMemcpy then launch.params.destination + i
  else launch.kernelAddress (launch.params.logicalOffset + i)

section Target

variable {p : Params} {device : Option Device} {launch : Launch} {i : ℕ}

theorem destinationAt_eq {x row slice : ℕ} (hx : x < p.width) (hrow : row < p.rows) :
    destinationAt p ((slice * p.rows + row) * p.width + x) =
      p.destination + slice * p.destinationSliceStride + row * p.destinationRowStride + x := by
  rw [destinationAt, position_eq hx hrow]

/-- The row of a byte of the fragment is between the first and the last one. -/
theorem row_mem (hi : i < p.bytes) :
    p.logicalOffset / p.width ≤ (p.logicalOffset + i) / p.width ∧
      (p.logicalOffset + i) / p.width ≤ (p.logicalOffset + p.bytes - 1) / p.width :=
  ⟨Nat.div_le_div_right (by omega), Nat.div_le_div_right (by omega)⟩

/-- If first and last byte are in one slice, all are. -/
theorem slice_eq (hi : i < p.bytes)
    (h : p.logicalOffset / p.width / p.rows = p.lastSlice) :
    (p.logicalOffset + i) / p.width / p.rows = p.logicalOffset / p.width / p.rows := by
  obtain ⟨hfirst, hlast⟩ := row_mem hi
  refine Nat.le_antisymm ?_ (Nat.div_le_div_right hfirst)
  rw [h]
  exact Nat.div_le_div_right hlast

section

variable (hwidth : 0 < p.width) (hrows : 0 < p.rows)
include hwidth hrows

theorem contiguous_target (h : contiguousDestination p (p.width * p.rows) = true) (hi : i < p.bytes)
    : p.firstDestination + i = destinationAt p (p.logicalOffset + i) := by
  rw [Params.firstDestination]
  obtain ⟨x, hx, row, hrow, slice, ho⟩ := offset_eq hwidth hrows p.logicalOffset
  obtain ⟨x', hx', row', hrow', slice', ho'⟩ := offset_eq hwidth hrows (p.logicalOffset + i)
  have hindex : p.logicalOffset / p.width = slice * p.rows + row := by
    rw [ho, mul_add_div_of_lt hx]
  have hindex' : (p.logicalOffset + i) / p.width = slice' * p.rows + row' := by
    rw [ho', mul_add_div_of_lt hx']
  obtain ⟨hfirst, hlast⟩ := row_mem hi
  rw [ho', destinationAt_eq hx' hrow']
  rw [ho] at ho' ⊢
  rw [destinationAt_eq hx hrow]
  simp only [contiguousDestination] at h
  split at h
  · -- all bytes are in one row
    have hrow_eq : slice * p.rows + row = slice' * p.rows + row' := by omega
    have hslice : slice = slice' := by
      rw [← mul_add_div_of_lt (q := slice) hrow, hrow_eq, mul_add_div_of_lt hrow']
    subst hslice
    obtain rfl : row = row' := by omega
    omega
  · split at h
    · cases h
    · -- the rows follow each other, within a slice or over all
      rename_i _ hstride
      rw [not_not] at hstride
      rw [hstride]
      rcases Bool.or_eq_true_iff.mp h with hsame | hslices
      · have hslice : slice = slice' := by
          have := slice_eq hi (of_decide_eq_true hsame)
          rwa [hindex, hindex', mul_add_div_of_lt hrow, mul_add_div_of_lt hrow', eq_comm] at this
        subst hslice
        simp only [Nat.add_mul] at ho'
        omega
      · have hstep : ∀ k, k * (p.width * p.rows) = k * p.rows * p.width := fun k => by
          rw [mul_assoc, mul_comm p.width]
        rw [of_decide_eq_true hslices, hstep, hstep]
        simp only [Nat.add_mul] at ho'
        omega

/-- The destination and the offset shifted to the first row, for a kernel that knows only rows. -/
theorem row_target (hi : i < p.bytes) (hslice : p.first.slice = p.lastSlice) :
    p.destination + p.first.slice * p.destinationSliceStride +
        p.first.row * p.destinationRowStride +
        (p.first.x + i) / p.width * p.destinationRowStride +
        (p.first.x + i - (p.first.x + i) / p.width * p.width) =
      destinationAt p (p.logicalOffset + i) := by
  have hsame := slice_eq hi hslice
  obtain ⟨x, hx, row, hrow, slice, ho⟩ := offset_eq hwidth hrows p.logicalOffset
  obtain ⟨x', hx', row', hrow', slice', ho'⟩ := offset_eq hwidth hrows (p.logicalOffset + i)
  obtain rfl : slice' = slice := by
    rwa [ho', ho, mul_add_div_of_lt hx, mul_add_div_of_lt hx', mul_add_div_of_lt hrow,
      mul_add_div_of_lt hrow'] at hsame
  have hfirst := (row_mem hi).1
  rw [ho', ho, mul_add_div_of_lt hx, mul_add_div_of_lt hx'] at hfirst
  have hle : row ≤ row' := by omega
  -- the offset from the first row
  have hshift : x + i = (row' - row) * p.width + x' := by
    rw [ho] at ho'
    simp only [Nat.add_mul, Nat.sub_mul] at ho' ⊢
    have := mul_le_mul_right p.width hle
    omega
  have hdiv : (x + i) / p.width = row' - row := by rw [hshift, mul_add_div_of_lt hx']
  have hrest : x + i - (row' - row) * p.width = x' := by omega
  have hstride := mul_le_mul_right p.destinationRowStride hle
  have hposition : p.first = ⟨x, row, slice'⟩ := by rw [Params.first, ho, position_eq hx hrow]
  rw [ho', destinationAt_eq hx' hrow']
  simp only [hposition, hdiv, hrest]
  rw [Nat.sub_mul]
  omega

/-- The destination and the offset shifted to the first slice. -/
theorem slice_target (i : ℕ) :
    ∃ x < p.width, ∃ row < p.rows, ∃ k,
      p.logicalOffset - p.first.slice * (p.width * p.rows) + i =
        (k * p.rows + row) * p.width + x ∧
      destinationAt p (p.logicalOffset + i) = p.destination +
        p.first.slice * p.destinationSliceStride + k * p.destinationSliceStride +
        row * p.destinationRowStride + x := by
  obtain ⟨x, hx, row, hrow, slice, ho⟩ := offset_eq hwidth hrows p.logicalOffset
  obtain ⟨x', hx', row', hrow', slice', ho'⟩ := offset_eq hwidth hrows (p.logicalOffset + i)
  have hposition : p.first = ⟨x, row, slice⟩ := by rw [Params.first, ho, position_eq hx hrow]
  have hle : slice ≤ slice' := by
    have := Nat.div_le_div_right (c := p.rows) (Nat.div_le_div_right (c := p.width)
      (le_add_right p.logicalOffset i))
    rwa [ho', ho, mul_add_div_of_lt hx, mul_add_div_of_lt hx', mul_add_div_of_lt hrow,
      mul_add_div_of_lt hrow'] at this
  refine ⟨x', hx', row', hrow', slice' - slice, ?_, ?_⟩
  · have hstep : slice * (p.width * p.rows) = slice * p.rows * p.width := by
      rw [mul_assoc, mul_comm p.width]
    have := mul_le_mul_right p.width (mul_le_mul_right p.rows hle)
    rw [hposition]
    simp only [Nat.add_mul, Nat.sub_mul, hstep] at ho ho' ⊢
    omega
  · have := mul_le_mul_right p.destinationSliceStride hle
    rw [ho', destinationAt_eq hx' hrow', hposition, Nat.sub_mul]
    simp only
    omega

theorem destinationAt_fromSlice (i : ℕ) :
    destinationAt p.fromSlice (p.fromSlice.logicalOffset + i) =
      destinationAt p (p.logicalOffset + i) := by
  obtain ⟨x, hx, row, hrow, k, ho, hd⟩ := slice_target hwidth hrows i
  have ho' : p.fromSlice.logicalOffset + i = (k * p.rows + row) * p.width + x := ho
  rw [hd, ho']
  exact destinationAt_eq (p := p.fromSlice) hx hrow

omit hwidth hrows in
theorem Params.pos_of_valid (h : p.invalid = false) : 0 < p.width ∧ 0 < p.rows := by
  simp only [Params.invalid, Bool.or_eq_false_iff, decide_eq_false_iff_not] at h
  omega

omit hwidth hrows in
/-- The first size of a word that can be used. -/
theorem exists_wordBytes {α : Type*} {can : ℕ → Bool} {f : ℕ → α} {a : α}
    (h : (if can 16 then some (f 16) else if can 8 then some (f 8) else if can 4 then some (f 4)
      else if can 2 then some (f 2) else none) = some a) :
    ∃ w ∈ [16, 8, 4, 2], can w = true ∧ a = f w := by
  split at h
  · cases h; exact ⟨16, by simp, ‹_›, rfl⟩
  split at h
  · cases h; exact ⟨8, by simp, ‹_›, rfl⟩
  split at h
  · cases h; exact ⟨4, by simp, ‹_›, rfl⟩
  split at h
  · cases h; exact ⟨2, by simp, ‹_›, rfl⟩
  · cases h

omit hwidth hrows in
theorem selectPitched_eq_some {l l' : Launch} {firstDestination : ℕ}
    (h : selectPitchedVectorLaunch l firstDestination = some l') :
    ∃ w ∈ [16, 8, 4, 2], canVectorizePitched w l.params firstDestination = true ∧
      l' = setPitchedVectorLaunch w l :=
  exists_wordBytes h

omit hwidth hrows in
/-- What the kernels for narrow rows have in common. -/
theorem narrowKernel_spec (l : Launch) (p : Params) (device : Option Device) (is3D : Bool) :
    (narrowKernel l p device is3D).params = l.params ∧
    (narrowKernel l p device is3D).useCudaMemcpy = l.useCudaMemcpy ∧
    ((narrowKernel l p device is3D).kernel = (if is3D then .narrow3D else .narrow2D) ∨
      atomicThreads p device ≠ 0 ∧
        (narrowKernel l p device is3D).kernel ∈ [.atomicNarrow2D, .atomicRows]) := by
  unfold narrowKernel
  split
  · rename_i hatomic
    refine ⟨rfl, rfl, .inr ⟨hatomic, ?_⟩⟩
    simp only [setAtomicLaunch]
    split <;> simp
  · exact ⟨rfl, rfl, .inl rfl⟩

omit hwidth hrows in
/-- An atomic kernel is used within one slice, or where all rows have one stride. -/
theorem regular_of_atomicThreads (h : atomicThreads p device ≠ 0)
    (hne : p.first.slice ≠ p.lastSlice) :
    p.destinationSliceStride = p.destinationRowStride * p.rows := by
  unfold atomicThreads at h
  split at h
  · rename_i hcond
    have := hcond.2.2.resolve_left hne
    simp only [regularRowsAcrossSlices, Bool.and_eq_true, decide_eq_true_eq] at this
    exact this.2
  · exact absurd rfl h

attribute [local simp] Launch.kernelAddress Launch.target

omit hwidth hrows in
/-- Where a kernel that knows only rows puts a byte. -/
theorem target_eq_of_rows (hcuda : launch.useCudaMemcpy = false)
    (hkernel : launch.kernel ∈ [.twoD, .narrow2D, .atomicNarrow2D, .atomicRows]) :
    launch.target i = launch.params.destination +
      (launch.params.logicalOffset + i) / launch.params.width * launch.params.destinationRowStride +
      (launch.params.logicalOffset + i -
        (launch.params.logicalOffset + i) / launch.params.width * launch.params.width) := by
  simp only [List.mem_cons, List.not_mem_nil, or_false] at hkernel
  rcases hkernel with h | h | h | h <;> simp [hcuda, h]

theorem rowsLaunch_target (hi : i < p.bytes) (hslice : p.first.slice = p.lastSlice) :
    (rowsLaunch p device).target i = destinationAt p (p.logicalOffset + i) := by
  rw [← row_target hwidth hrows hi hslice]
  unfold rowsLaunch
  split
  · obtain ⟨hparams, hcuda, hkernel⟩ := narrowKernel_spec
      { params := p.fromRow, threads := threadsPerBlock } p device false
    have hkernel : (narrowKernel { params := p.fromRow, threads := threadsPerBlock } p device
        false).kernel ∈ [.twoD, .narrow2D, .atomicNarrow2D, .atomicRows] := by
      rcases hkernel with h | ⟨-, h⟩
      · simp [h]
      · exact List.mem_cons_of_mem _ (List.mem_cons_of_mem _ h)
    rw [target_eq_of_rows hcuda hkernel, hparams]
    rfl
  · rfl

/-- A kernel that knows only rows needs slices that are as many rows apart as they have. -/
theorem slicesLaunch_target (hslice : p.first.slice ≠ p.lastSlice) :
    (slicesLaunch p device).target i = destinationAt p (p.logicalOffset + i) := by
  obtain ⟨x, hx, row, hrow, k, ho, hd⟩ := slice_target hwidth hrows i
  have ho' : p.fromSlice.logicalOffset + i = (k * p.rows + row) * p.width + x := ho
  have hshifted := destinationAt_fromSlice hwidth hrows i
  unfold slicesLaunch
  split
  · obtain ⟨hparams, hcuda, hkernel⟩ := narrowKernel_spec
      { params := p.fromSlice, threads := threadsPerBlock } p device true
    rcases hkernel with h | ⟨hatomic, h⟩
    · rw [← hshifted]
      simp [hcuda, h, hparams]
    · have hstep : k * p.destinationSliceStride = k * p.rows * p.destinationRowStride := by
        rw [regular_of_atomicThreads hatomic hslice, mul_assoc, mul_comm p.destinationRowStride]
      have hdiv : (p.fromSlice.logicalOffset + i) / p.fromSlice.width = k * p.rows + row := by
        rw [ho']
        exact mul_add_div_of_lt hx
      have hx' : p.fromSlice.logicalOffset + i - (k * p.rows + row) * p.fromSlice.width = x := by
        rw [ho']
        exact Nat.add_sub_cancel_left _ _
      rw [target_eq_of_rows hcuda (List.mem_cons_of_mem _ (List.mem_cons_of_mem _ h)), hparams,
        hdiv, hx', hd, hstep, Nat.add_mul]
      simp only [Params.fromSlice]
      omega
  · rw [← hshifted]
    rfl

theorem scatterLaunch_target (hi : i < p.bytes) :
    (scatterLaunch p device).target i = destinationAt p (p.logicalOffset + i) := by
  unfold scatterLaunch
  split
  · rename_i l hpitched
    unfold pitchedLaunch at hpitched
    split at hpitched
    · obtain ⟨w, -, -, rfl⟩ := selectPitched_eq_some hpitched
      simp [setPitchedVectorLaunch]
    · cases hpitched
  · split
    · exact rowsLaunch_target hwidth hrows hi ‹_›
    · exact slicesLaunch_target hwidth hrows ‹_›

end

/-- The launch copies the bytes of the fragment. -/
theorem scatterLaunch_bytes : (scatterLaunch p device).params.bytes = p.bytes := by
  unfold scatterLaunch
  split
  · rename_i l hpitched
    unfold pitchedLaunch at hpitched
    split at hpitched
    · obtain ⟨w, -, -, rfl⟩ := selectPitched_eq_some hpitched
      rfl
    · cases hpitched
  · split
    · unfold rowsLaunch
      split
      · rw [(narrowKernel_spec _ _ _ _).1]
        rfl
      · rfl
    · unfold slicesLaunch
      split
      · rw [(narrowKernel_spec _ _ _ _).1]
        rfl
      · rfl

/-- **Scatter copies.** The launch for a fragment copies its bytes, each to the place that
`destinationAt` gives. -/
theorem prepareDescriptor_target (h : prepareDescriptor p device = some launch) :
    launch.params.bytes = p.bytes ∧
      ∀ i < p.bytes, launch.target i = destinationAt p (p.logicalOffset + i) := by
  unfold prepareDescriptor at h
  split at h
  · cases h
  · rename_i hvalid
    obtain ⟨hwidth, hrows⟩ := Params.pos_of_valid (Bool.not_eq_true _ ▸ hvalid)
    split at h
    · cases h
      exact ⟨rfl, fun i hi => by omega⟩
    · split at h
      · cases h
        exact ⟨rfl, fun i hi => contiguous_target hwidth hrows ‹_› hi⟩
      · cases h
        exact ⟨scatterLaunch_bytes, fun i hi => scatterLaunch_target hwidth hrows hi⟩

theorem prepareDriverLaunch_target (h : prepareDriverLaunch p device = some launch) :
    launch.params.bytes = p.bytes ∧
      ∀ i < p.bytes, launch.target i = destinationAt p (p.logicalOffset + i) := by
  unfold prepareDriverLaunch at h
  split at h
  · cases h
  · rename_i l hl
    split at h
    · cases h
      exact prepareDescriptor_target hl
    · split at h
      · cases h
      · exact prepareDescriptor_target h

/-- Nothing but an invalid parameter or a failing query is in the way of a launch. -/
theorem exists_prepareDriverLaunch (h : p.invalid = false) (d : Device) :
    ∃ launch, prepareDriverLaunch p (some d) = some launch := by
  have hsome : ∀ device, ∃ launch, prepareDescriptor p device = some launch := by
    intro device
    unfold prepareDescriptor
    rw [if_neg (by simp [h])]
    split
    · exact ⟨_, rfl⟩
    · split <;> exact ⟨_, rfl⟩
  obtain ⟨l, hl⟩ := hsome none
  unfold prepareDriverLaunch
  rw [hl]
  simp only
  split
  · exact ⟨_, rfl⟩
  · exact hsome (some d)

end Target

end Lupine.Smemcpy
