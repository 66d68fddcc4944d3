import Lupine.Smemcpy.Dispatch

/-!
# Pulled host-to-device copies

A host-to-device copy whose source stays with the client (`cuda_server_memcpy.cpp`). The server
cuts the copy into fragments, asks the client for the bytes of each one (`READ_HOST_MEMORY`,
answered in `cuda_client.cpp`), and enqueues a driver copy or a scatter kernel that moves them from
the staging ring to their destination. Server and client each compute positions in the strided
region from an offset into the packed bytes.

Addresses and sizes are natural numbers: a region that is larger than the address space does not
exist. The staging ring is represented by the bytes last fetched into it, and the effect of a
driver copy by the list of the bytes that it writes.
-/

namespace Lupine.HostToDevice

open Foundations

variable {CuArray Byte : Type}

/-! ## The server -/

/-- `lupine_htod_fragment`. -/
structure Fragment where
  logicalOffset : ℕ
  bytes : ℕ
  x : ℕ
  row : ℕ
  slice : ℕ
  width : ℕ := 0
  rows : ℕ := 0
  slices : ℕ := 0

/-- `lupine_htod_copy`. -/
structure Copy (CuArray : Type) where
  source : ℕ := 0
  sourceRowStride : ℕ := 0
  sourceSliceStride : ℕ := 0
  slices : ℕ := 0
  bytes : ℕ := 0
  useCudaMemcpy : Bool := false
  destinationArray : Option CuArray := none
  destinationLod : ℕ := 0
  destinationX : ℕ := 0
  destinationY : ℕ := 0
  destinationZ : ℕ := 0
  smemcpy : Smemcpy.Params := ⟨0, 0, 0, 0, 0, 0, 0, 0⟩

namespace Copy

/-- `lupine_htod_copy::fragment`. -/
def fragment (copy : Copy CuArray) (offset capacity : ℕ) : Fragment :=
  let p := position copy.smemcpy.width copy.smemcpy.rows offset
  if copy.useCudaMemcpy = false then
    ⟨offset, min capacity (copy.bytes - offset), p.x, p.row, p.slice, 0, 0, 0⟩
  else if p.x ≠ 0 ∨ copy.smemcpy.width > capacity then
    let bytes := min (min capacity (copy.smemcpy.width - p.x)) (copy.bytes - offset)
    ⟨offset, bytes, p.x, p.row, p.slice, bytes, 1, 1⟩
  else
    let rowsPerFragment := capacity / copy.smemcpy.width
    if p.row ≠ 0 ∨ rowsPerFragment < copy.smemcpy.rows then
      let rows := min rowsPerFragment (copy.smemcpy.rows - p.row)
      ⟨offset, copy.smemcpy.width * rows, p.x, p.row, p.slice, copy.smemcpy.width, rows, 1⟩
    else
      let sliceBytes := copy.smemcpy.width * copy.smemcpy.rows
      let slices := min (capacity / sliceBytes) (copy.slices - p.slice)
      ⟨offset, sliceBytes * slices, p.x, p.row, p.slice, copy.smemcpy.width, copy.smemcpy.rows,
        slices⟩

/-- The loop of `lupine_enqueue_client_htod_copy`. -/
def fragments (copy : Copy CuArray) (capacity : ℕ) : List Fragment :=
  pieces (fun offset => copy.fragment offset capacity) Fragment.bytes copy.bytes copy.bytes 0

/-- `lupine_htod_copy::destination_at`. -/
def destinationAt (copy : Copy CuArray) (logicalOffset : ℕ) : ℕ :=
  Smemcpy.destinationAt copy.smemcpy logicalOffset

/-- `lupine_make_linear_htod_copy`. -/
def makeLinear (destination source bytes : ℕ) : Copy CuArray where
  source := source
  sourceRowStride := bytes
  sourceSliceStride := bytes
  slices := 1
  bytes := bytes
  useCudaMemcpy := true
  smemcpy := {
    destination := destination
    source := 0
    logicalOffset := 0
    bytes := 0
    width := bytes
    rows := 1
    destinationRowStride := bytes
    destinationSliceStride := bytes }

end Copy

/-- The fields of `CUDA_MEMCPY3D` for a source in host memory. An array is the destination if there
is one, else device memory. -/
structure Memcpy3D (CuArray : Type) where
  srcXInBytes : ℕ
  srcY : ℕ
  srcZ : ℕ
  srcHost : ℕ
  srcPitch : ℕ
  srcHeight : ℕ
  dstXInBytes : ℕ
  dstY : ℕ
  dstZ : ℕ
  dstLOD : ℕ
  dstArray : Option CuArray
  dstDevice : ℕ
  dstPitch : ℕ
  dstHeight : ℕ
  widthInBytes : ℕ
  height : ℕ
  depth : ℕ

/-- `lupine_make_3d_htod_copy`. -/
def Copy.make3D (original : Memcpy3D CuArray) : Copy CuArray :=
  let bytes := original.widthInBytes * original.height * original.depth
  if bytes = 0 then {}
  else
    let sourceSliceStride := original.srcHeight * original.srcPitch
    let copy : Copy CuArray := {
      source := original.srcHost + original.srcZ * sourceSliceStride +
        original.srcY * original.srcPitch + original.srcXInBytes
      sourceRowStride := original.srcPitch
      sourceSliceStride := sourceSliceStride
      slices := original.depth
      bytes := bytes }
    match original.dstArray with
    | some array => { copy with
        useCudaMemcpy := true
        destinationArray := some array
        destinationLod := original.dstLOD
        destinationX := original.dstXInBytes
        destinationY := original.dstY
        destinationZ := original.dstZ
        smemcpy := {
          destination := 0
          source := 0
          logicalOffset := 0
          bytes := 0
          width := original.widthInBytes
          rows := original.height
          destinationRowStride := original.widthInBytes
          destinationSliceStride := original.widthInBytes * original.height } }
    | none => { copy with
        smemcpy := {
          destination := original.dstDevice +
            original.dstZ * original.dstHeight * original.dstPitch +
            original.dstY * original.dstPitch + original.dstXInBytes
          source := 0
          logicalOffset := 0
          bytes := 0
          width := original.widthInBytes
          rows := original.height
          destinationRowStride := original.dstPitch
          destinationSliceStride := original.dstPitch * original.dstHeight } }

/-- What a fragment is copied with. -/
inductive Transfer (CuArray : Type)
  | memcpyHtoD (destination bytes : ℕ)
  /-- `cuMemcpy3DAsync` into an array. -/
  | memcpy3D (srcPitch srcHeight : ℕ) (dstArray : CuArray) (dstLOD dstXInBytes dstY dstZ : ℕ)
      (widthInBytes height depth : ℕ)
  | kernel (launch : Smemcpy.Launch)

/-- The device address of the staging ring, and the device. -/
structure Ring where
  deviceStorage : ℕ
  device : Option Smemcpy.Device

/-- `lupine_htod_side_effect_ring::ring_offset`. -/
def ringOffset (copy : Copy CuArray) (logicalOffset : ℕ) : ℕ :=
  if copy.destinationArray.isNone then copy.destinationAt logicalOffset &&& 15 else 0

/-- `lupine_enqueue_htod_fragment`, the driver calls succeeding. -/
def enqueueFragment (copy : Copy CuArray) (fragment : Fragment) (ring : Ring) :
    Option (Transfer CuArray) :=
  if copy.useCudaMemcpy then
    match copy.destinationArray with
    | none => some (.memcpyHtoD (copy.destinationAt fragment.logicalOffset) fragment.bytes)
    | some array => some (.memcpy3D fragment.width fragment.rows array copy.destinationLod
        (copy.destinationX + fragment.x) (copy.destinationY + fragment.row)
        (copy.destinationZ + fragment.slice) fragment.width fragment.rows fragment.slices)
  else
    let params := { copy.smemcpy with
      source := ring.deviceStorage + ringOffset copy fragment.logicalOffset
      logicalOffset := fragment.logicalOffset
      bytes := fragment.bytes }
    (Smemcpy.prepareDriverLaunch params ring.device).map fun launch =>
      if launch.useCudaMemcpy then .memcpyHtoD launch.params.destination launch.params.bytes
      else .kernel launch

/-! ## The client -/

/-- The request for the bytes of a fragment. -/
structure HostRead where
  source : ℕ
  width : ℕ
  rows : ℕ
  rowStride : ℕ
  slices : ℕ
  sliceStride : ℕ
  logicalOffset : ℕ
  bytes : ℕ

/-- `lupine_htod_side_effect_ring::fetch` sends this. -/
def Copy.hostRead (copy : Copy CuArray) (fragment : Fragment) : HostRead where
  source := copy.source
  width := copy.smemcpy.width
  rows := copy.smemcpy.rows
  rowStride := copy.sourceRowStride
  slices := copy.slices
  sliceStride := copy.sourceSliceStride
  logicalOffset := fragment.logicalOffset
  bytes := fragment.bytes

/-- The memory that the client reads, and the addresses that are device memory of a server other
than the one that asks. -/
structure Client (Byte : Type) where
  memory : ℕ → Byte
  crossRoute : ℕ → Bool

/-- A part of a row, and where it starts. -/
structure Chunk where
  source : ℕ
  bytes : ℕ

/-- The part of a row that the client sends next; `remaining` is what is left up to the end. -/
def HostRead.chunk (read : HostRead) (offset : ℕ) : Chunk :=
  let p := position read.width read.rows offset
  let remaining := read.logicalOffset + read.bytes - offset
  ⟨read.source + p.slice * read.sliceStride + p.row * read.rowStride + p.x,
    min remaining (read.width - p.x)⟩

/-- The client's answer to `LUPINE_SIDE_EFFECT_READ_HOST_MEMORY`. -/
def Client.readHostMemory (client : Client Byte) (read : HostRead) : List Byte :=
  if client.crossRoute (read.source + read.logicalOffset) then
    (List.range read.bytes).map fun i => client.memory (read.source + read.logicalOffset + i)
  else
    (pieces read.chunk Chunk.bytes (read.logicalOffset + read.bytes) read.bytes
      read.logicalOffset).flatMap fun chunk =>
        (List.range chunk.bytes).map fun i => client.memory (chunk.source + i)

/-! ## The device -/

/-- A byte of a destination. -/
inductive Cell (CuArray : Type)
  | memory (address : ℕ)
  | element (array : CuArray) (lod xInBytes y z : ℕ)

/-- The bytes that a transfer writes, when the ring holds `data`. -/
def Transfer.writes [Inhabited Byte] (data : List Byte) :
    Transfer CuArray → List (Cell CuArray × Byte)
  | .memcpyHtoD destination bytes =>
    (List.range bytes).map fun i => (.memory (destination + i), data.getD i default)
  | .memcpy3D srcPitch srcHeight array lod x y z width height depth =>
    (List.range depth).flatMap fun k => (List.range height).flatMap fun j =>
      (List.range width).map fun i =>
        (.element array lod (x + i) (y + j) (z + k),
          data.getD ((k * srcHeight + j) * srcPitch + i) default)
  | .kernel launch =>
    (List.range launch.params.bytes).map fun i =>
      (.memory (launch.target i), data.getD i default)

/-- `lupine_enqueue_client_htod_copy`: what is written for the fragments, one after the other. -/
def Copy.perform [Inhabited Byte] (copy : Copy CuArray) (capacity : ℕ) (ring : Ring)
    (client : Client Byte) : Option (List (Cell CuArray × Byte)) :=
  ((copy.fragments capacity).mapM fun fragment =>
    (enqueueFragment copy fragment ring).map
      (Transfer.writes (client.readHostMemory (copy.hostRead fragment)))).map List.flatten

end Lupine.HostToDevice
