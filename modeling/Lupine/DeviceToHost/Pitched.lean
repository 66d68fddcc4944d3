import Lupine.Foundations.Grid
import Lupine.Foundations.Wire
import Mathlib.Tactic.Ring

/-!
# Pitched device-to-host copies

A copy of rows and slices from the device into client memory. The server has no client memory: it
replaces the destination of the descriptor by a dense buffer of its own
(`lupine_pack_host_destination`), lets the driver copy, and sends the bytes of the buffer. The
client puts them where the descriptor that it was called with says.

A synchronous copy answers with the bytes, which the client reads row by row
(`rpc_read_pitched`). An asynchronous one is deferred: the driver packs the rows into device
scratch, the dense bytes are staged, and at the next synchronization they are sent behind a
`lupine_host_rows`, which describes the rows in client memory; `lupine_read_deferred_rows` reads
them at once when the rows are contiguous and one by one otherwise.

Addresses and sizes are natural numbers: a region that is larger than the address space does not
exist. The effect of a copy is the list of the bytes that it writes, in order. The driver copies as
its descriptor says, or fails.

* `Memcpy3D.writes` says what a descriptor means.
* `Memcpy3D.pitched_copy_lands`: on both paths the client takes exactly the bytes that the server
  sent and writes what its descriptor means, for all extents, also empty ones.
-/

namespace Lupine.DeviceToHost

open Foundations Nat List Consumes

variable {α : Type}

/-- The destination and the extents of a `CUDA_MEMCPY3D`. The source is given by its region. -/
structure Memcpy3D where
  dstXInBytes : ℕ
  dstY : ℕ
  dstZ : ℕ
  /-- `dstHost`, or `dstDevice` for scratch. -/
  dst : ℕ
  dstPitch : ℕ
  dstHeight : ℕ
  widthInBytes : ℕ
  height : ℕ
  depth : ℕ
  deriving DecidableEq, Repr

/-- The destination and the extents of a `CUDA_MEMCPY2D`. -/
structure Memcpy2D where
  dstXInBytes : ℕ
  dstY : ℕ
  dst : ℕ
  dstPitch : ℕ
  widthInBytes : ℕ
  height : ℕ
  deriving DecidableEq, Repr

/-- `lupine_memcpy3d_of`. -/
def Memcpy2D.memcpy3D (flat : Memcpy2D) : Memcpy3D where
  dstXInBytes := flat.dstXInBytes
  dstY := flat.dstY
  dstZ := 0
  dst := flat.dst
  dstPitch := flat.dstPitch
  dstHeight := flat.height
  widthInBytes := flat.widthInBytes
  height := flat.height
  depth := 1

/-- The bytes of the source region, by column, row and slice. -/
abbrev SourceRegion := ℕ → ℕ → ℕ → UInt8

/-! ## What a descriptor means -/

/-- The bytes of a region of `depth` slices of `height` rows, in order. -/
def box {α : Type} (width height depth : ℕ) (f : ℕ → ℕ → ℕ → α) : List α :=
  (List.range depth).flatMap fun z => (List.range height).flatMap fun y =>
    (List.range width).map fun x => f x y z

theorem mem_box {width height depth : ℕ} {f : ℕ → ℕ → ℕ → α} {a : α} :
    a ∈ box width height depth f ↔ ∃ x < width, ∃ y < height, ∃ z < depth, a = f x y z := by
  simp only [box, mem_flatMap, mem_range, mem_map]
  constructor
  · rintro ⟨z, hz, y, hy, x, hx, rfl⟩
    exact ⟨x, hx, y, hy, z, hz, rfl⟩
  · rintro ⟨x, hx, y, hy, z, hz, rfl⟩
    exact ⟨z, hz, y, hy, x, hx, rfl⟩

theorem box_eq_nil {width height depth : ℕ} (h : width * height * depth = 0) (f : ℕ → ℕ → ℕ → α) :
    box width height depth f = [] := by
  refine eq_nil_iff_forall_not_mem.2 fun a ha => ?_
  obtain ⟨x, hx, y, hy, z, hz, -⟩ := mem_box.1 ha
  have hpos : 0 < width * height * depth :=
    mul_pos (mul_pos (zero_lt_of_lt hx) (zero_lt_of_lt hy)) (zero_lt_of_lt hz)
  omega

/-- A region whose bytes depend on the offset in it alone. -/
theorem box_eq_range {width height depth : ℕ} {f : ℕ → ℕ → ℕ → α} {g : ℕ → α}
    (h : ∀ z < depth, ∀ y < height, ∀ x < width, f x y z = g ((z * height + y) * width + x)) :
    box width height depth f = (List.range (width * height * depth)).map g := by
  rw [show width * height * depth = depth * height * width by ring]
  exact flatMap_box h

/-- A region by its rows. -/
theorem box_eq_rows {width height depth : ℕ} (f : ℕ → ℕ → ℕ → α) :
    box width height depth f = (List.range (height * depth)).flatMap fun index =>
      (List.range width).map fun x => f x (index % height) (index / height) := by
  rw [mul_comm height, range_mul, flatMap_assoc]
  refine flatMap_congr fun z _ => ?_
  rw [flatMap_map]
  refine flatMap_congr fun y hy => ?_
  have hlt := mem_range.1 hy
  rw [mul_add_div_of_lt hlt, mul_comm z, mul_add_mod, mod_eq_of_lt hlt]

namespace Memcpy3D

/-- The address that the byte at column `x` of row `y` of slice `z` is copied to. -/
def address (copy : Memcpy3D) (x y z : ℕ) : ℕ :=
  copy.dst + (copy.dstZ + z) * copy.dstHeight * copy.dstPitch +
    (copy.dstY + y) * copy.dstPitch + copy.dstXInBytes + x

section

variable (copy : Memcpy3D) (region : SourceRegion)

/-- What a copy with this descriptor writes. -/
def writes : List (ℕ × UInt8) :=
  box copy.widthInBytes copy.height copy.depth fun x y z => (copy.address x y z, region x y z)

def total : ℕ := copy.widthInBytes * copy.height * copy.depth

/-! ## The server -/

/-- `lupine_pack_host_destination`, and the buffer in the place of the destination. -/
def packHostDestination (buffer : ℕ) : Memcpy3D :=
  { copy with
    dstXInBytes := 0
    dstY := 0
    dstZ := 0
    dst := buffer
    dstPitch := copy.widthInBytes
    dstHeight := copy.height }

/-- The bytes of a buffer after the driver has executed the packed copy. -/
def packed (buffer : ℕ) (memory : ℕ → UInt8) : List UInt8 :=
  (List.range copy.total).map fun i =>
    store memory ((copy.packHostDestination buffer).writes region) (buffer + i)

/-- `lupine_handle_memcpy3d` for a synchronous copy: the bytes that follow the result, which is
`ok` or not. -/
def response (buffer : ℕ) (memory : ℕ → UInt8) (ok : Bool) : List UInt8 :=
  if ok then copy.packed region buffer memory else []

end

end Memcpy3D

/-- `lupine_host_rows`. -/
structure HostRows where
  dst : ℕ
  width : ℕ
  height : ℕ
  pitch : ℕ
  depth : ℕ
  slice : ℕ
  deriving DecidableEq, Repr

namespace HostRows

/-- `lupine_host_rows::bytes`. -/
def bytes (rows : HostRows) : ℕ := rows.width * rows.height * rows.depth

/-- `lupine_host_rows::row`. -/
def row (rows : HostRows) (index : ℕ) : ℕ :=
  rows.dst + index / rows.height * rows.slice + index % rows.height * rows.pitch

end HostRows

/-- The outcomes of the calls that defer a copy: the scratch, the packed copy, the staging (pinned
or from the heap) and the copy to the staging. -/
structure DeferCalls where
  memAllocAsync : Bool
  native : Bool
  staging : Bool
  memcpyDtoHAsync : Bool
  deriving DecidableEq, Repr

def DeferCalls.Succeed (calls : DeferCalls) : Prop :=
  calls.memAllocAsync ∧ calls.native ∧ calls.staging ∧ calls.memcpyDtoHAsync

instance (calls : DeferCalls) : Decidable calls.Succeed := inferInstanceAs (Decidable (_ ∧ _))

namespace Memcpy3D

/-- The rows of the destination in client memory. -/
def hostRows (copy : Memcpy3D) : HostRows :=
  let slice := copy.dstHeight * copy.dstPitch
  { dst := copy.dst + copy.dstZ * slice + copy.dstY * copy.dstPitch + copy.dstXInBytes
    width := copy.widthInBytes
    height := copy.height
    pitch := copy.dstPitch
    depth := copy.depth
    slice := slice }

/-- `lupine_defer_pitched_dtoh` with `lupine_defer_dtoh`: the copy that is left pending, with its
staged bytes. Nothing is left for an empty copy, and nothing when a call fails. -/
def deferPitched (copy : Memcpy3D) (region : SourceRegion) (scratch : ℕ) (memory : ℕ → UInt8)
    (calls : DeferCalls) : Option (HostRows × List UInt8) :=
  if copy.hostRows.bytes ≠ 0 ∧ calls.Succeed then
    some (copy.hostRows, copy.packed region scratch memory)
  else none

end Memcpy3D

/-! ## The client -/

/-- Bytes at consecutive addresses. -/
def landed {Byte : Type} (dst : ℕ) (bytes : List Byte) : List (ℕ × Byte) :=
  bytes.mapIdx fun i byte => (dst + i, byte)

/-- `rpc_read` into client memory, after other writes. -/
def readInto (done : List (ℕ × UInt8)) (dst n : ℕ) : Reader (List (ℕ × UInt8)) := do
  let bytes ← Reader.take n
  pure (done ++ landed dst bytes)

/-- `rpc_read_pitched`. -/
def readPitched (data width rows rowStride slices sliceStride : ℕ) :
    Reader (List (ℕ × UInt8)) :=
  (List.range slices).foldlM (fun done z =>
    (List.range rows).foldlM (fun done row =>
      readInto done (data + z * sliceStride + row * rowStride) width) done) []

/-- The client's part of a synchronous copy in `lupine_memcpy3d`, when the result is `ok` or not. -/
def Memcpy3D.readResponse (copy : Memcpy3D) (ok : Bool) : Reader (List (ℕ × UInt8)) :=
  if ok then
    let slicePitch := copy.dstHeight * copy.dstPitch
    let base := copy.dst + copy.dstZ * slicePitch + copy.dstY * copy.dstPitch + copy.dstXInBytes
    readPitched base copy.widthInBytes copy.height copy.dstPitch copy.depth slicePitch
  else pure []

/-- The rows follow each other without gaps. -/
def HostRows.Contiguous (rows : HostRows) : Prop :=
  rows.height = 1 ∧ rows.depth = 1 ∨ rows.depth = 1 ∧ rows.pitch = rows.width ∨
    rows.pitch = rows.width ∧ rows.slice = rows.height * rows.pitch

instance (rows : HostRows) : Decidable rows.Contiguous := inferInstanceAs (Decidable (_ ∨ _))

/-- `lupine_read_deferred_rows`, after the description of the rows. -/
def readDeferredRows (rows : HostRows) : Reader (List (ℕ × UInt8)) :=
  if rows.width = 0 ∨ rows.height = 0 ∨ rows.depth = 0 then pure []
  else if rows.Contiguous then readInto [] rows.dst rows.bytes
  else
    (List.range (rows.height * rows.depth)).foldlM
      (fun done index => readInto done (rows.row index) rows.width) []

/-! ## Reading -/

theorem landed_map_range {Byte : Type} (dst n : ℕ) (f : ℕ → Byte) :
    landed dst ((List.range n).map f) = (List.range n).map fun i => (dst + i, f i) := by
  refine ext_getElem (by simp [landed]) fun i _ _ => ?_
  simp [landed]

theorem readInto_consumes (done : List (ℕ × UInt8)) (dst n : ℕ) (f : ℕ → UInt8) :
    Consumes (readInto done dst n) ((List.range n).map f)
      fun ws => ws = done ++ (List.range n).map fun i => (dst + i, f i) := by
  refine takeLast (by simp) ?_
  rw [landed_map_range]

/-- Rows read by a loop: the message has the bytes of one row after the other. -/
theorem readRows_consumes (items : List α) (done : List (ℕ × UInt8)) (dst : α → ℕ) (width : ℕ)
    (f : α → ℕ → UInt8) :
    Consumes (items.foldlM (fun done item => readInto done (dst item) width) done)
      (items.flatMap fun item => (List.range width).map (f item))
      fun ws => ws = done ++ items.flatMap fun item =>
        (List.range width).map fun i => (dst item + i, f item i) := by
  refine foldlM (I := fun read ws => ws = done ++ read.flatMap fun item =>
      (List.range width).map fun i => (dst item + i, f item i)) (by simp) ?_
  rintro read item later ws - rfl
  refine (readInto_consumes _ (dst item) width (f item)).mono ?_
  rintro ws rfl
  simp

theorem readPitched_consumes (data width rows rowStride slices sliceStride : ℕ)
    (region : SourceRegion) :
    Consumes (readPitched data width rows rowStride slices sliceStride)
      (box width rows slices region)
      fun ws => ws = box width rows slices fun x y z =>
        (data + z * sliceStride + y * rowStride + x, region x y z) := by
  refine foldlM (I := fun read ws => ws = read.flatMap fun z => (List.range rows).flatMap fun y =>
      (List.range width).map fun x => (data + z * sliceStride + y * rowStride + x, region x y z))
    rfl ?_
  rintro read z later ws - rfl
  refine (readRows_consumes (List.range rows) _ (fun y => data + z * sliceStride + y * rowStride)
    width fun y x => region x y z).mono ?_
  rintro ws rfl
  simp

/-! ## Packing -/

namespace Memcpy3D

/-- The offset of a byte in the packed region. -/
theorem packed_address (copy : Memcpy3D) (buffer x y z : ℕ) :
    (copy.packHostDestination buffer).address x y z =
      buffer + ((z * copy.height + y) * copy.widthInBytes + x) := by
  simp only [address, packHostDestination]
  ring

section

variable (copy : Memcpy3D) (region : SourceRegion) (buffer : ℕ) (memory : ℕ → UInt8)

/-- The packed copy fills the buffer with the region, byte after byte. -/
theorem packed_eq :
    copy.packed region buffer memory =
      box copy.widthInBytes copy.height copy.depth region := by
  have hbox : box copy.widthInBytes copy.height copy.depth region =
      (List.range copy.total).map fun i =>
        store memory ((copy.packHostDestination buffer).writes region) (buffer + i) := by
    refine box_eq_range fun z hz y hy x hx => ?_
    set a := buffer + ((z * copy.height + y) * copy.widthInBytes + x) with ha
    have hmem : (a, region x y z) ∈ (copy.packHostDestination buffer).writes region :=
      mem_box.2 ⟨x, hx, y, hy, z, hz, by rw [packed_address]⟩
    obtain ⟨hnone, -⟩ | hstored :=
      store_apply memory ((copy.packHostDestination buffer).writes region) a
    · exact absurd rfl (hnone _ hmem)
    · -- The byte that is stored last at this offset is the one of this column, row and slice.
      obtain ⟨x', hx', y', hy', z', hz', heq⟩ := mem_box.1 hstored
      have hx' : x' < copy.widthInBytes := hx'
      have hy' : y' < copy.height := hy'
      rw [packed_address, Prod.mk.injEq, ha] at heq
      have hpos : position copy.widthInBytes copy.height
            ((z * copy.height + y) * copy.widthInBytes + x) =
          position copy.widthInBytes copy.height
            ((z' * copy.height + y') * copy.widthInBytes + x') := by
        rw [add_left_cancel heq.1]
      rw [position_eq hx hy, position_eq hx' hy', Position.mk.injEq] at hpos
      obtain ⟨rfl, rfl, rfl⟩ := hpos
      exact heq.2.symm
  exact hbox.symm

/-! ## Landing -/

theorem address_eq (x y z : ℕ) :
    copy.address x y z =
      copy.hostRows.dst + z * copy.hostRows.slice + y * copy.hostRows.pitch + x := by
  simp only [address, hostRows]
  ring

theorem readResponse_consumes (ok : Bool) :
    Consumes (copy.readResponse ok) (copy.response region buffer memory ok)
      fun ws => ws = if ok then copy.writes region else [] := by
  cases ok with
  | false => exact pure rfl
  | true =>
    simp only [readResponse, response, if_true, packed_eq]
    refine (readPitched_consumes _ _ _ _ _ _ region).mono fun ws hws => ?_
    rw [hws, writes]
    simp only [address_eq]
    rfl

/-- Contiguous rows: a byte lands at its offset. -/
theorem address_of_contiguous {copy : Memcpy3D} (h : copy.hostRows.Contiguous) {x y z : ℕ}
    (hy : y < copy.height) (hz : z < copy.depth) :
    copy.address x y z =
      copy.hostRows.dst + ((z * copy.height + y) * copy.widthInBytes + x) := by
  rw [address_eq]
  obtain ⟨hheight, hdepth⟩ | ⟨hdepth, hpitch⟩ | ⟨hpitch, hslice⟩ := h
  · obtain rfl : y = 0 := by have : copy.height = 1 := hheight; omega
    obtain rfl : z = 0 := by have : copy.depth = 1 := hdepth; omega
    simp
  · obtain rfl : z = 0 := by have : copy.depth = 1 := hdepth; omega
    rw [hpitch, show copy.hostRows.width = copy.widthInBytes from rfl]
    simp [add_assoc]
  · rw [hslice, hpitch, show copy.hostRows.width = copy.widthInBytes from rfl,
      show copy.hostRows.height = copy.height from rfl]
    ring

theorem readDeferredRows_consumes {copy : Memcpy3D} (h : copy.hostRows.bytes ≠ 0)
    (region : SourceRegion) :
    Consumes (readDeferredRows copy.hostRows) (box copy.widthInBytes copy.height copy.depth region)
      fun ws => ws = copy.writes region := by
  have hextent : ¬(copy.hostRows.width = 0 ∨ copy.hostRows.height = 0 ∨
      copy.hostRows.depth = 0) := by
    simpa [HostRows.bytes, mul_eq_zero, or_assoc] using h
  rw [readDeferredRows, if_neg hextent]
  split
  · next hcontiguous =>
    -- One read of all the bytes: both sides are written by offsets.
    let f : ℕ → UInt8 := fun i =>
      let p := position copy.widthInBytes copy.height i
      region p.x p.row p.slice
    have hregion : box copy.widthInBytes copy.height copy.depth region =
        (List.range copy.hostRows.bytes).map f :=
      box_eq_range fun z _ y hy x hx => by simp only [f, position_eq hx hy]
    have hwrites : copy.writes region =
        (List.range copy.hostRows.bytes).map fun i => (copy.hostRows.dst + i, f i) :=
      box_eq_range fun z hz y hy x hx => by
        simp only [f, position_eq hx hy, address_of_contiguous hcontiguous hy hz]
    rw [hregion]
    refine (readInto_consumes [] _ _ f).mono fun ws hws => ?_
    rw [hws, hwrites, nil_append]
  · rw [box_eq_rows]
    refine (readRows_consumes _ [] copy.hostRows.row _
      fun index x => region x (index % copy.height) (index / copy.height)).mono fun ws hws => ?_
    rw [hws, writes, box_eq_rows, nil_append]
    simp only [address_eq]
    rfl

/-- Rows without bytes are read without touching the stream. -/
theorem readDeferredRows_of_empty {rows : HostRows} (h : rows.bytes = 0) :
    Consumes (readDeferredRows rows) [] fun ws => ws = [] := by
  have hextent : rows.width = 0 ∨ rows.height = 0 ∨ rows.depth = 0 := by
    simpa [HostRows.bytes, mul_eq_zero, or_assoc] using h
  rw [readDeferredRows, if_pos hextent]
  exact pure rfl

theorem length_packed : (copy.packed region buffer memory).length = copy.total := by
  simp [packed]

/-! ## Client memory -/

/-- Different bytes of the region have different addresses. -/
def Apart : Prop :=
  ∀ x < copy.widthInBytes, ∀ y < copy.height, ∀ z < copy.depth,
    ∀ x' < copy.widthInBytes, ∀ y' < copy.height, ∀ z' < copy.depth,
      copy.address x y z = copy.address x' y' z' → x = x' ∧ y = y' ∧ z = z'

end

/-- A byte of a region that does not overlap itself stays where it was written. -/
theorem store_writes_inside {copy : Memcpy3D} (h : copy.Apart) (region : SourceRegion)
    (memory : ℕ → UInt8) {x y z : ℕ} (hx : x < copy.widthInBytes) (hy : y < copy.height)
    (hz : z < copy.depth) :
    store memory (copy.writes region) (copy.address x y z) = region x y z := by
  obtain ⟨hnone, -⟩ | hmem := store_apply memory (copy.writes region) (copy.address x y z)
  · exact absurd rfl (hnone _ (mem_box.2 ⟨x, hx, y, hy, z, hz, rfl⟩))
  · obtain ⟨x', hx', y', hy', z', hz', heq⟩ := mem_box.1 hmem
    obtain ⟨haddress, hbyte⟩ := Prod.mk.inj heq
    obtain ⟨rfl, rfl, rfl⟩ := h x hx y hy z hz x' hx' y' hy' z' hz' haddress
    exact hbyte

/-- **Pitched copies land where the descriptor says.** On the synchronous and on the deferred path
the client takes exactly the bytes that the server sends, and writes the byte at column `x` of row
`y` of slice `z` to the address that its own descriptor gives that byte; a copy with an empty
extent sends and writes nothing. In client memory no other byte changes, and the bytes of a region
that does not overlap itself are all there. A two-dimensional copy is one slice. -/
theorem pitched_copy_lands (copy : Memcpy3D) (region : SourceRegion) (buffer : ℕ)
    (serverMemory : ℕ → UInt8) :
    (∀ ok, Consumes (copy.readResponse ok) (copy.response region buffer serverMemory ok)
      fun ws => ws = if ok then copy.writes region else []) ∧
    (copy.response region buffer serverMemory true).length = copy.total ∧
    (∀ calls : DeferCalls, calls.Succeed → copy.total ≠ 0 →
      ∃ rows bytes,
        copy.deferPitched region buffer serverMemory calls = some (rows, bytes) ∧
        bytes.length = rows.bytes ∧ rows.bytes = copy.total ∧
        Consumes (readDeferredRows rows) bytes fun ws => ws = copy.writes region) ∧
    (∀ calls : DeferCalls, copy.total = 0 →
      copy.deferPitched region buffer serverMemory calls = none ∧ copy.writes region = []) ∧
    (∀ rows : HostRows, rows.bytes = 0 → Consumes (readDeferredRows rows) [] fun ws => ws = []) ∧
    (∀ (memory : ℕ → UInt8) (a : ℕ),
      (∀ x < copy.widthInBytes, ∀ y < copy.height, ∀ z < copy.depth, copy.address x y z ≠ a) →
        store memory (copy.writes region) a = memory a) ∧
    (copy.Apart → ∀ memory : ℕ → UInt8,
      ∀ x < copy.widthInBytes, ∀ y < copy.height, ∀ z < copy.depth,
        store memory (copy.writes region) (copy.address x y z) = region x y z) ∧
    (∀ (flat : Memcpy2D) (x y : ℕ), flat.memcpy3D.address x y 0 =
      flat.dst + (flat.dstY + y) * flat.dstPitch + flat.dstXInBytes + x) := by
  refine ⟨readResponse_consumes copy region buffer serverMemory,
    length_packed copy region buffer serverMemory, ?_, ?_,
    fun rows hrows => readDeferredRows_of_empty hrows,
    ?_,
    fun h memory x hx y hy z hz => store_writes_inside h region memory hx hy hz, ?_⟩
  · intro calls hcalls htotal
    have hbytes : copy.hostRows.bytes ≠ 0 := htotal
    refine ⟨copy.hostRows, copy.packed region buffer serverMemory, if_pos ⟨hbytes, hcalls⟩,
      length_packed copy region buffer serverMemory, rfl, ?_⟩
    rw [packed_eq]
    exact readDeferredRows_consumes hbytes region
  · intro calls htotal
    exact ⟨if_neg fun h => h.1 htotal, box_eq_nil htotal _⟩
  · intro memory a ha
    obtain ⟨-, hsame⟩ | hmem := store_apply memory (copy.writes region) a
    · exact hsame
    · obtain ⟨x, hx, y, hy, z, hz, heq⟩ := mem_box.1 hmem
      exact absurd (Prod.mk.inj heq).1.symm (ha x hx y hy z hz)
  · intro flat x y
    simp [Memcpy2D.memcpy3D, address]

/-- Two rows of two bytes with a gap between them, at an offset. -/
def twoRows : Memcpy3D where
  dstXInBytes := 1
  dstY := 1
  dstZ := 0
  dst := 100
  dstPitch := 5
  dstHeight := 4
  widthInBytes := 2
  height := 2
  depth := 1

theorem twoRows_apart : twoRows.Apart := by
  intro x hx y hy z hz x' hx' y' hy' z' hz' h
  simp only [twoRows, address] at *
  omega

theorem pitched_copy_lands_of_two_rows :
    (∃ rows bytes,
      twoRows.deferPitched (fun x y _ => if y = 0 then 10 + UInt8.ofNat x else 20) 0 (fun _ => 0)
        ⟨true, true, true, true⟩ = some (rows, bytes) ∧
      bytes.length = rows.bytes ∧ rows.bytes = twoRows.total ∧
      Consumes (readDeferredRows rows) bytes fun ws =>
        ws = twoRows.writes fun x y _ => if y = 0 then 10 + UInt8.ofNat x else 20) ∧
    store (fun _ => 0) (twoRows.writes fun x y _ => if y = 0 then 10 + UInt8.ofNat x else 20)
      (twoRows.address 1 0 0) = 11 := by
  have h := pitched_copy_lands twoRows
    (fun x y _ => if y = 0 then 10 + UInt8.ofNat x else 20) 0 fun _ => 0
  refine ⟨h.2.2.1 _ (by decide) (by decide), ?_⟩
  exact h.2.2.2.2.2.2.1 twoRows_apart (fun _ => 0) 1 (by decide) 0 (by decide) 0 (by decide)

end Memcpy3D

end Lupine.DeviceToHost
