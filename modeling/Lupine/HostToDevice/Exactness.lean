import Lupine.HostToDevice.Copy
import Lupine.Smemcpy.Scatter
import Mathlib.Tactic.Ring

/-!
# Pulled copies are exact

A host-to-device copy of any shape, cut into fragments of any capacity, writes each byte of the
region to its place once, and nothing else.

* `Request` is the specification: the bytes of a region by their offset, the address each is read
  from and the cell it is written to.
* `pulled_copy_exact`: the fragments follow each other and make up the region, the client answers
  each with its bytes, and what is enqueued for them writes the region.
-/

namespace Lupine.HostToDevice

open Foundations Copy Nat List

variable {CuArray Byte : Type}

/-! ## Specification -/

variable {f : Fragment}

/-- The source address of the byte `(x, y, z)` of the region. -/
def Memcpy3D.sourceAddress (copy : Memcpy3D CuArray) (x y z : ℕ) : ℕ :=
  copy.srcHost + (copy.srcZ + z) * (copy.srcHeight * copy.srcPitch) +
    (copy.srcY + y) * copy.srcPitch + (copy.srcXInBytes + x)

/-- The cell that the byte `(x, y, z)` of the region is copied to. -/
def Memcpy3D.cell (copy : Memcpy3D CuArray) (x y z : ℕ) : Cell CuArray :=
  match copy.dstArray with
  | some array => .element array copy.dstLOD (copy.dstXInBytes + x) (copy.dstY + y) (copy.dstZ + z)
  | none => .memory (copy.dstDevice + (copy.dstZ + z) * (copy.dstHeight * copy.dstPitch) +
      (copy.dstY + y) * copy.dstPitch + (copy.dstXInBytes + x))

/-- A linear copy, or one of rows and slices. -/
inductive Request (CuArray : Type)
  | linear (destination source bytes : ℕ)
  | pitched (copy : Memcpy3D CuArray)

namespace Request

/-- The copy that the server makes of a request. -/
def copy : Request CuArray → Copy CuArray
  | linear destination source bytes => .makeLinear destination source bytes
  | pitched copy => .make3D copy

def total : Request CuArray → ℕ
  | linear _ _ bytes => bytes
  | pitched copy => copy.widthInBytes * copy.height * copy.depth

/-- Where the byte at a logical offset is read from. -/
def sourceAddress (request : Request CuArray) (offset : ℕ) : ℕ :=
  match request with
  | linear _ source _ => source + offset
  | pitched copy => copy.sourceAddress (offset % copy.widthInBytes)
      (offset / copy.widthInBytes % copy.height) (offset / copy.widthInBytes / copy.height)

/-- Where the byte at a logical offset is written to. -/
def cell (request : Request CuArray) (offset : ℕ) : Cell CuArray :=
  match request with
  | linear destination _ _ => .memory (destination + offset)
  | pitched copy => copy.cell (offset % copy.widthInBytes)
      (offset / copy.widthInBytes % copy.height) (offset / copy.widthInBytes / copy.height)

end Request

/-! ## Copies -/

namespace Copy

variable {copy : Copy CuArray} {capacity o : ℕ}

/-- Where the byte at an offset is read from. -/
def sourceAt (copy : Copy CuArray) (offset : ℕ) : ℕ :=
  let p := position copy.smemcpy.width copy.smemcpy.rows offset
  copy.source + p.slice * copy.sourceSliceStride + p.row * copy.sourceRowStride + p.x

/-- Where the byte at an offset is written to. -/
def cellAt (copy : Copy CuArray) (offset : ℕ) : Cell CuArray :=
  let p := position copy.smemcpy.width copy.smemcpy.rows offset
  match copy.destinationArray with
  | some array => .element array copy.destinationLod (copy.destinationX + p.x)
      (copy.destinationY + p.row) (copy.destinationZ + p.slice)
  | none => .memory (copy.destinationAt offset)

/-- The bytes are those of the rows and slices; arrays are copied to by the driver, and so is a
single row of device memory. -/
structure Shaped (copy : Copy CuArray) : Prop where
  bytes : copy.bytes = copy.slices * copy.smemcpy.rows * copy.smemcpy.width
  linear : copy.useCudaMemcpy = true → copy.destinationArray = none →
    copy.bytes ≤ copy.smemcpy.width
  array : copy.useCudaMemcpy = false → copy.destinationArray = none

theorem Shaped.pos (h : copy.Shaped) (ho : o < copy.bytes) :
    0 < copy.smemcpy.width ∧ 0 < copy.smemcpy.rows := by
  have hpos : copy.slices * copy.smemcpy.rows * copy.smemcpy.width ≠ 0 := by
    have := h.bytes
    omega
  simp only [ne_eq, Nat.mul_eq_zero, not_or] at hpos
  omega

/-- An offset below the end lies in a slice. -/
theorem Shaped.slice_lt (h : copy.Shaped) {x row slice : ℕ}
    (ho : (slice * copy.smemcpy.rows + row) * copy.smemcpy.width + x < copy.bytes) :
    slice < copy.slices := by
  by_contra hle
  have := Nat.mul_le_mul_right copy.smemcpy.width
    (Nat.mul_le_mul_right copy.smemcpy.rows (Nat.le_of_not_lt hle))
  rw [h.bytes, add_mul] at ho
  omega

/-! ### Fragments -/

/-- What `fragment` cuts off at a position: some bytes for a scatter kernel; for the driver a part
of a row, rows of a slice, or slices. -/
inductive Cut (copy : Copy CuArray) (capacity o x row slice : ℕ) : Fragment → Prop
  | bytes (n : ℕ) : copy.useCudaMemcpy = false → 0 < n → n ≤ capacity → o + n ≤ copy.bytes →
      Cut copy capacity o x row slice ⟨o, n, x, row, slice, 0, 0, 0⟩
  | row (n : ℕ) : copy.useCudaMemcpy = true → 0 < n → n ≤ capacity →
      x + n ≤ copy.smemcpy.width → Cut copy capacity o x row slice ⟨o, n, x, row, slice, n, 1, 1⟩
  | rows (n : ℕ) : copy.useCudaMemcpy = true → x = 0 → 0 < n →
      copy.smemcpy.width * n ≤ capacity → row + n ≤ copy.smemcpy.rows →
      Cut copy capacity o x row slice
        ⟨o, copy.smemcpy.width * n, x, row, slice, copy.smemcpy.width, n, 1⟩
  | slices (n : ℕ) : copy.useCudaMemcpy = true → x = 0 → row = 0 → 0 < n →
      copy.smemcpy.width * copy.smemcpy.rows * n ≤ capacity → slice + n ≤ copy.slices →
      Cut copy capacity o x row slice ⟨o, copy.smemcpy.width * copy.smemcpy.rows * n, x, row, slice,
        copy.smemcpy.width, copy.smemcpy.rows, n⟩

theorem Shaped.fragment_cut (h : copy.Shaped) (hcapacity : 0 < capacity) {x row slice : ℕ}
    (hx : x < copy.smemcpy.width) (hrow : row < copy.smemcpy.rows)
    (ho : o = (slice * copy.smemcpy.rows + row) * copy.smemcpy.width + x) (hlt : o < copy.bytes) :
    Cut copy capacity o x row slice (copy.fragment o capacity) := by
  have hwidth : 0 < copy.smemcpy.width := zero_lt_of_lt hx
  have hslice : slice < copy.slices := h.slice_lt (ho ▸ hlt)
  rw [fragment]
  simp only [ho, position_eq hx hrow]
  split
  · exact .bytes _ ‹_› (by omega) (by omega) (by omega)
  · rename_i hcuda
    rw [Bool.not_eq_false] at hcuda
    split
    · exact .row _ hcuda (by omega) (by omega) (by omega)
    · have hperFragment : 1 ≤ capacity / copy.smemcpy.width :=
        (le_div_iff_mul_le hwidth).mpr (by omega)
      split
      · refine .rows _ hcuda (by omega) (by omega) ?_ (by omega)
        exact (mul_le_mul_left _ (min_le_left _ _)).trans (mul_div_le _ _)
      · have hslices : 1 ≤ capacity / (copy.smemcpy.width * copy.smemcpy.rows) := by
          rw [le_div_iff_mul_le (mul_pos hwidth (by omega)), one_mul, mul_comm,
            ← le_div_iff_mul_le hwidth]
          omega
        refine .slices _ hcuda (by omega) (by omega) (by omega) ?_ (by omega)
        exact (mul_le_mul_left _ (min_le_left _ _)).trans (mul_div_le _ _)

/-- A fragment starts at its offset, is not empty, and does not exceed the capacity or the end. -/
structure Fits (copy : Copy CuArray) (capacity o : ℕ) (f : Fragment) : Prop where
  offset : f.logicalOffset = o
  pos : 0 < f.bytes
  capacity : f.bytes ≤ capacity
  stop : o + f.bytes ≤ copy.bytes

section

variable {x row slice : ℕ} (hcut : Cut copy capacity o x row slice f)
    (hrow : row < copy.smemcpy.rows)
    (ho : o = (slice * copy.smemcpy.rows + row) * copy.smemcpy.width + x)
include hcut hrow ho

theorem Cut.fits (h : copy.Shaped) (hx : x < copy.smemcpy.width) (hlt : o < copy.bytes) :
    Fits copy capacity o f := by
  have hslice : slice < copy.slices := h.slice_lt (ho ▸ hlt)
  -- the end of row `r`, counted over all slices
  have hend : ∀ r, r ≤ copy.slices * copy.smemcpy.rows → r * copy.smemcpy.width ≤ copy.bytes :=
    fun r hr => h.bytes ▸ mul_le_mul_right _ hr
  have hslices : ∀ s, s ≤ copy.slices →
      s * copy.smemcpy.rows ≤ copy.slices * copy.smemcpy.rows :=
    fun s hs => mul_le_mul_right _ hs
  cases hcut with
  | bytes n _ hpos hcap hstop => exact ⟨rfl, hpos, hcap, hstop⟩
  | row n _ hpos hcap hwidth =>
    refine ⟨rfl, hpos, hcap, ?_⟩
    have := hslices (slice + 1) hslice
    have := hend (slice * copy.smemcpy.rows + row + 1) (by rw [add_mul] at this; omega)
    rw [add_mul _ 1] at this
    dsimp only
    omega
  | rows n _ hzero hpos hcap hrows =>
    refine ⟨rfl, mul_pos (zero_lt_of_lt hx) hpos, hcap, ?_⟩
    have := hslices (slice + 1) hslice
    have := hend (slice * copy.smemcpy.rows + row + n) (by rw [add_mul] at this; omega)
    rw [add_mul _ n, mul_comm n] at this
    dsimp only
    omega
  | slices n _ hzero hfirst hpos hcap hstop =>
    refine ⟨rfl, mul_pos (mul_pos (zero_lt_of_lt hx) (by omega)) hpos, hcap, ?_⟩
    have := hend _ (hslices (slice + n) hstop)
    subst hzero hfirst
    calc o + copy.smemcpy.width * copy.smemcpy.rows * n
        = (slice + n) * copy.smemcpy.rows * copy.smemcpy.width := by rw [ho]; ring
      _ ≤ copy.bytes := this

/-- The box that the driver copies for a fragment holds the bytes of the fragment, in order. -/
theorem Cut.box (hcuda : copy.useCudaMemcpy = true) :
    f.slices * f.rows * f.width = f.bytes ∧
      ∀ k < f.slices, ∀ j < f.rows, ∀ i < f.width,
        position copy.smemcpy.width copy.smemcpy.rows (o + ((k * f.rows + j) * f.width + i)) =
          ⟨f.x + i, f.row + j, f.slice + k⟩ := by
  cases hcut with
  | bytes n hkernel => simp [hcuda] at hkernel
  | row n _ hpos _ hwidth =>
    refine ⟨by simp, fun k hk j hj i hi => ?_⟩
    obtain rfl : k = 0 := by simpa using hk
    obtain rfl : j = 0 := by simpa using hj
    dsimp only at hi ⊢
    rw [show o + ((0 * 1 + 0) * n + i) =
      (slice * copy.smemcpy.rows + row) * copy.smemcpy.width + (x + i) by rw [ho]; ring]
    exact position_eq (by omega) hrow
  | rows n _ hzero hpos hcap hrows =>
    refine ⟨by simp [mul_comm], fun k hk j hj i hi => ?_⟩
    obtain rfl : k = 0 := by simpa using hk
    dsimp only at hi hj ⊢
    rw [show o + ((0 * n + j) * copy.smemcpy.width + i) =
      (slice * copy.smemcpy.rows + (row + j)) * copy.smemcpy.width + (x + i) by rw [ho]; ring]
    exact position_eq (by omega) (by omega)
  | slices n _ hzero hfirst hpos hcap hstop =>
    refine ⟨by dsimp only; ring, fun k hk j hj i hi => ?_⟩
    dsimp only at hi hj ⊢
    rw [show o + ((k * copy.smemcpy.rows + j) * copy.smemcpy.width + i) =
      ((slice + k) * copy.smemcpy.rows + (row + j)) * copy.smemcpy.width + (x + i) by
        rw [ho]; ring]
    exact position_eq (by omega) (by omega)

end

section

variable (h : copy.Shaped) (hcapacity : 0 < capacity)
include h hcapacity

theorem Shaped.fragment_fits (hlt : o < copy.bytes) :
    Fits copy capacity o (copy.fragment o capacity) := by
  obtain ⟨hwidth, hrows⟩ := h.pos hlt
  obtain ⟨x, hx, row, hrow, slice, ho⟩ := offset_eq hwidth hrows o
  exact (h.fragment_cut hcapacity hx hrow ho hlt).fits hrow ho h hx hlt

theorem Shaped.cuts :
    Cuts (fun offset => copy.fragment offset capacity) Fragment.bytes copy.bytes :=
  fun _ hlt => ⟨(h.fragment_fits hcapacity hlt).pos, (h.fragment_fits hcapacity hlt).stop⟩

/-- What is collected over the fragments is what one pass over the copy collects. -/
theorem Shaped.flatMap_fragments {β : Type} {g : Fragment → List β} {f : ℕ → β}
    (hg : ∀ o fragment, Fits copy capacity o fragment →
      g fragment = (List.range' o fragment.bytes).map f) :
    (copy.fragments capacity).flatMap g = (List.range copy.bytes).map f := by
  rw [fragments, flatMap_pieces (h.cuts hcapacity) (f := f) ?_ (by omega), Nat.sub_zero,
    range_eq_range']
  exact fun o ho => hg o _ (h.fragment_fits hcapacity ho)

end

/-! ### The client's answer -/

theorem sourceAt_add {x row slice i : ℕ} (hi : x + i < copy.smemcpy.width)
    (hrow : row < copy.smemcpy.rows)
    (ho : o = (slice * copy.smemcpy.rows + row) * copy.smemcpy.width + x) :
    copy.sourceAt (o + i) = copy.source + slice * copy.sourceSliceStride +
      row * copy.sourceRowStride + x + i := by
  have hposition : position copy.smemcpy.width copy.smemcpy.rows (o + i) = ⟨x + i, row, slice⟩ := by
    rw [ho, add_assoc]
    exact position_eq hi hrow
  rw [sourceAt, hposition, add_assoc _ x i]

/-- **The client's answer.** A fragment in host memory is answered with its bytes. -/
theorem Shaped.readHostMemory_eq (h : copy.Shaped) {client : Client Byte}
    (hfits : Fits copy capacity o f) (hhost : client.crossRoute (copy.source + o) = false) :
    client.readHostMemory (copy.hostRead f) =
      (List.range' o f.bytes).map fun i => client.memory (copy.sourceAt i) := by
  obtain ⟨hoffset, hpos, -, hstop⟩ := hfits
  obtain ⟨hwidth, hrows⟩ := h.pos (show o < copy.bytes by omega)
  have hread : (copy.hostRead f).logicalOffset = o := hoffset
  rw [Client.readHostMemory, hread, show (copy.hostRead f).source = copy.source from rfl,
    if_neg (by simp [hhost])]
  have hcuts : Cuts (copy.hostRead f).chunk Chunk.bytes (o + (copy.hostRead f).bytes) := by
    intro p hp
    obtain ⟨x, hx, row, hrow, slice, rfl⟩ := offset_eq hwidth hrows p
    simp only [HostRead.chunk, hostRead, hoffset, position_eq hx hrow] at hp ⊢
    omega
  rw [flatMap_pieces hcuts ?_ le_rfl, Nat.add_sub_cancel_left]
  · rfl
  · intro p hp
    obtain ⟨x, hx, row, hrow, slice, hp⟩ := offset_eq hwidth hrows p
    rw [range'_eq_map_range, map_map]
    refine map_congr_left fun i hi => ?_
    rw [mem_range] at hi
    have hposition :
        position (copy.hostRead f).width (copy.hostRead f).rows p = ⟨x, row, slice⟩ := by
      rw [hp]
      exact position_eq hx hrow
    simp only [HostRead.chunk, hposition] at hi ⊢
    have hin : x + i < copy.smemcpy.width := by
      have : i < copy.smemcpy.width - x := lt_of_lt_of_le hi (min_le_right _ _)
      omega
    rw [Function.comp_apply, sourceAt_add hin hrow hp]
    rfl

/-! ### What is enqueued -/

theorem getD_map_range' [Inhabited Byte] (g : ℕ → Byte) {n i : ℕ} (hi : i < n) :
    ((List.range' o n).map g).getD i default = g (o + i) := by
  simp [getD_eq_getElem?_getD, hi]

/-- Bytes written one after the other, each to its cell. -/
theorem writes_in_order [Inhabited Byte] (g : ℕ → Byte) {n : ℕ} {cell : ℕ → Cell CuArray}
    (hcell : ∀ i < n, cell i = copy.cellAt (o + i)) :
    (List.range n).map (fun i => (cell i, ((List.range' o n).map g).getD i default)) =
      (List.range' o n).map fun i => (copy.cellAt i, g i) := by
  conv_rhs => rw [range'_eq_map_range, map_map]
  refine map_congr_left fun i hi => ?_
  rw [mem_range] at hi
  rw [getD_map_range' g hi, hcell i hi]
  rfl

/-- A single row of device memory: addresses and offsets go together. -/
theorem destinationAt_of_linear (h : copy.bytes ≤ copy.smemcpy.width)
    (hrows : 0 < copy.smemcpy.rows) (ho : o < copy.bytes) :
    copy.destinationAt o = copy.smemcpy.destination + o := by
  have hrow : Smemcpy.destinationAt copy.smemcpy ((0 * copy.smemcpy.rows + 0) *
      copy.smemcpy.width + o) = _ :=
    Smemcpy.destinationAt_eq (by omega) hrows
  simpa [destinationAt] using hrow

/-- A fragment passes the checks of the dispatcher. -/
theorem Shaped.valid (h : copy.Shaped) {source : ℕ} (hsize : copy.bytes ≤ Smemcpy.sizeMax)
    (hfits : Fits copy capacity o f) (hsource : source ≠ 0)
    (hdestination : copy.smemcpy.destination ≠ 0) :
    Smemcpy.Params.invalid { copy.smemcpy with
      source := source, logicalOffset := f.logicalOffset, bytes := f.bytes } = false := by
  obtain ⟨hoffset, hpos, -, hstop⟩ := hfits
  obtain ⟨hwidth, hrows⟩ := h.pos (show o < copy.bytes by omega)
  have hslices : 1 ≤ copy.slices := by
    by_contra hzero
    have := h.bytes
    rw [show copy.slices = 0 by omega] at this
    omega
  have hslice : copy.smemcpy.width * copy.smemcpy.rows ≤ Smemcpy.sizeMax := by
    refine le_trans ?_ hsize
    rw [h.bytes, mul_comm, mul_assoc]
    exact Nat.le_mul_of_pos_left _ hslices
  have hrowLimit := (le_div_iff_mul_le hrows).mpr hslice
  simp only [Smemcpy.Params.invalid, Bool.or_eq_false_iff, decide_eq_false_iff_not,
    Bool.and_eq_false_iff]
  refine ⟨⟨⟨⟨by omega, by omega⟩, .inr ⟨hsource, hdestination⟩⟩, by omega⟩, by omega⟩

/-- A launch writes to its targets, whether it is a kernel or has become a driver copy. -/
theorem launch_writes [Inhabited Byte] (launch : Smemcpy.Launch) (data : List Byte) :
    Transfer.writes data
        (if launch.useCudaMemcpy then .memcpyHtoD launch.params.destination launch.params.bytes
        else .kernel launch : Transfer CuArray) =
      (List.range launch.params.bytes).map fun i =>
        (.memory (launch.target i), data.getD i default) := by
  split
  · rename_i hcuda
    simp only [Transfer.writes, Smemcpy.Launch.target, hcuda, if_true]
  · rfl

/-- The threads of a covered launch do what `Transfer.writes` says of its kernel: when they are at
their end, a cell holds a byte that is written to it, or it is written to by none and has not
changed. -/
theorem kernel_writes {p : Smemcpy.Params} {device : Option Smemcpy.Device}
    {launch : Smemcpy.Launch}
    (h : Smemcpy.prepareDescriptor p device = some launch) (hcovered : p.Covered device)
    {data : List UInt8} {memory : ℕ → UInt8} {ts : List (Fin launch.threadCount)}
    {g : Grid (Fin launch.threadCount) ℕ UInt8}
    (hrun : exec Grid.step
      (Smemcpy.grid _ launch.body (data.getD · default) memory) ts = some g)
    (hdone : g.Done) (a : ℕ) :
    (.memory a, g.memory a) ∈ (Transfer.kernel launch : Transfer CuArray).writes data ∨
      (∀ b, (.memory a, b) ∉ (Transfer.kernel launch : Transfer CuArray).writes data) ∧
        g.memory a = memory a := by
  have hcopies := ((Smemcpy.scatteredBy_iff h).mpr hcovered).2.copies hrun
  obtain ⟨hbytes, htarget⟩ := Smemcpy.prepareDescriptor_target h
  by_cases ha : ∃ i < p.bytes, Smemcpy.destinationAt p (p.logicalOffset + i) = a
  · obtain ⟨i, hi, rfl⟩ := ha
    obtain ⟨j, hj, hsame, hbyte⟩ := hcopies.copied hdone i hi
    refine .inl (mem_map.mpr ⟨j, mem_range.mpr (hbytes ▸ hj), ?_⟩)
    rw [htarget j hj, hsame, hbyte]
  · refine .inr ⟨fun b hb => ?_, hcopies.unchanged a fun i hi heq => ha ⟨i, hi, heq⟩⟩
    obtain ⟨i, hi, heq⟩ := mem_map.mp hb
    rw [mem_range, hbytes] at hi
    rw [htarget i hi] at heq
    injection heq with heq
    injection heq with heq
    exact ha ⟨i, hi, heq⟩

section

variable [Inhabited Byte] {device : Smemcpy.Device} {ring : Ring} (h : copy.Shaped)
    (hcapacity : 0 < capacity) (hsize : copy.bytes ≤ Smemcpy.sizeMax)
    (hstorage : ring.deviceStorage ≠ 0) (hdevice : ring.device = some device)
    (hdestination : copy.useCudaMemcpy = false → copy.smemcpy.destination ≠ 0)
include h hcapacity hsize hstorage hdevice hdestination

/-- **What is enqueued.** A fragment is enqueued, and with the bytes of the fragment in the ring it
writes each one to its cell. -/
theorem Shaped.enqueueFragment_writes (hlt : o < copy.bytes) (g : ℕ → Byte) :
    ∃ transfer, enqueueFragment copy (copy.fragment o capacity) ring = some transfer ∧
      transfer.writes ((List.range' o (copy.fragment o capacity).bytes).map g) =
        (List.range' o (copy.fragment o capacity).bytes).map fun i => (copy.cellAt i, g i) := by
  obtain ⟨hwidth, hrows⟩ := h.pos hlt
  obtain ⟨x, hx, row, hrow, slice, ho⟩ := offset_eq hwidth hrows o
  have hcut := h.fragment_cut hcapacity hx hrow ho hlt
  have hfits := hcut.fits hrow ho h hx hlt
  generalize copy.fragment o capacity = f at hcut hfits
  have hoffset := hfits.offset
  have hstop := hfits.stop
  unfold enqueueFragment
  split
  · rename_i hcuda
    split
    · rename_i harray
      refine ⟨_, rfl, ?_⟩
      have hlinear := h.linear hcuda harray
      refine writes_in_order g fun i hi => ?_
      rw [cellAt, harray, hoffset, destinationAt_of_linear hlinear hrows hlt,
        destinationAt_of_linear hlinear hrows (by omega), add_assoc]
    · rename_i array harray
      refine ⟨_, rfl, ?_⟩
      obtain ⟨hbytes, hbox⟩ := hcut.box hrow ho hcuda
      rw [Transfer.writes, flatMap_box (f := fun i => (copy.cellAt (o + i), g (o + i))), hbytes,
        range'_eq_map_range, map_map]
      · rfl
      · intro k hk j hj i hi
        have hin := box_lt hk hj hi
        rw [hbytes] at hin
        rw [getD_map_range' g hin, cellAt, harray, hbox k hk j hj i hi]
        simp only [add_assoc]
  · rename_i hcuda
    rw [Bool.not_eq_true] at hcuda
    have hsource : ring.deviceStorage + ringOffset copy f.logicalOffset ≠ 0 := by omega
    have hvalid := h.valid hsize hfits hsource (hdestination hcuda)
    obtain ⟨launch, hlaunch⟩ := Smemcpy.exists_prepareDriverLaunch hvalid device
    obtain ⟨hbytes, htarget⟩ := Smemcpy.prepareDriverLaunch_target hlaunch
    simp only [hdevice, hlaunch, Option.map_some]
    refine ⟨_, rfl, ?_⟩
    rw [launch_writes, hbytes]
    refine writes_in_order g fun i hi => ?_
    rw [htarget i hi, cellAt, h.array hcuda, ← hoffset]
    rfl

/-- The whole copy. -/
theorem Shaped.perform_eq {client : Client Byte}
    (hhost : ∀ o < copy.bytes, client.crossRoute (copy.source + o) = false) :
    copy.perform capacity ring client =
      some ((List.range copy.bytes).map fun o =>
        (copy.cellAt o, client.memory (copy.sourceAt o))) := by
  have hfragments : ∀ fragment ∈ copy.fragments capacity,
      (enqueueFragment copy fragment ring).map
          (Transfer.writes (client.readHostMemory (copy.hostRead fragment))) =
        some ((List.range' fragment.logicalOffset fragment.bytes).map fun i =>
          (copy.cellAt i, client.memory (copy.sourceAt i))) := by
    intro fragment hmem
    obtain ⟨o, ho, rfl⟩ := mem_pieces hmem
    obtain ⟨transfer, henqueue, hwrites⟩ := h.enqueueFragment_writes hcapacity hsize hstorage
      hdevice hdestination ho fun i => client.memory (copy.sourceAt i)
    have hfits := h.fragment_fits hcapacity ho
    rw [h.readHostMemory_eq hfits (hhost o ho), henqueue, Option.map_some, hwrites, hfits.offset]
  rw [perform, mapM_eq_some hfragments, Option.map_some, ← flatMap_def,
    h.flatMap_fragments hcapacity]
  intro o fragment hfits
  rw [hfits.offset]

end

end Copy

/-! ## Requests -/

namespace Request

attribute [local simp] makeLinear copy

section

variable (request : Request CuArray)

theorem shaped : request.copy.Shaped := by
  cases request with
  | linear destination source bytes =>
    exact ⟨by simp, fun _ _ => le_rfl, by simp⟩
  | pitched m =>
    have hbytes : m.widthInBytes * m.height * m.depth = m.depth * m.height * m.widthInBytes := by
      ring
    rw [copy, make3D]
    split
    · exact ⟨rfl, by simp, fun _ => rfl⟩
    · split
      · exact ⟨hbytes, by simp, by simp⟩
      · exact ⟨hbytes, by simp, fun _ => rfl⟩

theorem copy_bytes : request.copy.bytes = request.total := by
  cases request with
  | linear destination source bytes => rfl
  | pitched m =>
    rw [copy, make3D, total]
    split
    · rename_i hzero
      exact hzero.symm
    · split <;> rfl

/-- The positions of a copy of rows and slices. -/
theorem position_eq_divMod (width rows o : ℕ) :
    position width rows o = ⟨o % width, o / width % rows, o / width / rows⟩ := by
  rw [position, mod_eq_sub_div_mul, mod_eq_sub_div_mul]

theorem position_of_lt {bytes o : ℕ} (ho : o < bytes) : position bytes 1 o = ⟨o, 0, 0⟩ := by
  rw [position_eq_divMod, mod_eq_of_lt ho, div_eq_of_lt ho]

theorem copy_sourceAt {o : ℕ} (ho : o < request.total) :
    request.copy.sourceAt o = request.sourceAddress o := by
  cases request with
  | linear destination source bytes =>
    have hposition : position bytes 1 o = ⟨o, 0, 0⟩ := position_of_lt ho
    simp [sourceAt, sourceAddress, hposition]
  | pitched m =>
    have hne : m.widthInBytes * m.height * m.depth ≠ 0 := ne_zero_of_lt ho
    rw [copy, make3D, if_neg hne, sourceAt, sourceAddress, Memcpy3D.sourceAddress]
    split
    all_goals
      simp only [position_eq_divMod]
      ring

theorem copy_cellAt {o : ℕ} (ho : o < request.total) : request.copy.cellAt o = request.cell o := by
  cases request with
  | linear destination source bytes =>
    have hposition : position bytes 1 o = ⟨o, 0, 0⟩ := position_of_lt ho
    simp [cellAt, destinationAt, Smemcpy.destinationAt, cell, hposition]
  | pitched m =>
    have hne : m.widthInBytes * m.height * m.depth ≠ 0 := ne_zero_of_lt ho
    cases harray : m.dstArray with
    | some array =>
      simp only [copy, make3D, if_neg hne, harray, cellAt, cell, Memcpy3D.cell, position_eq_divMod]
    | none =>
      simp only [copy, make3D, if_neg hne, harray, cellAt, cell, Memcpy3D.cell,
        destinationAt, Smemcpy.destinationAt, position_eq_divMod]
      congr 1
      ring

end

/-- A copy to device memory has a destination; a linear one goes to the driver as it is. -/
def HasDestination : Request CuArray → Prop
  | linear .. => True
  | pitched copy => copy.dstArray = none → copy.dstDevice ≠ 0

theorem copy_destination {request : Request CuArray} (h : request.HasDestination) {o : ℕ}
    (ho : o < request.total) :
    request.copy.useCudaMemcpy = false → request.copy.smemcpy.destination ≠ 0 := by
  cases request with
  | linear destination source bytes => simp
  | pitched m =>
    have hne : m.widthInBytes * m.height * m.depth ≠ 0 := ne_zero_of_lt ho
    rw [copy, make3D, if_neg hne]
    split
    · simp
    · rename_i harray
      have := h harray
      dsimp only
      omega

end Request

/-- **Pulled copies are exact.** For every linear copy or copy of rows and slices from host memory
and every capacity: the fragments are consecutive and make up the region, and none is empty or
exceeds the capacity; the client answers each one with the bytes at its offsets; and what the server
enqueues writes the byte at each offset to its cell, once, and writes nothing else. -/
theorem pulled_copy_exact [Inhabited Byte] (request : Request CuArray) {capacity : ℕ}
    (hcapacity : 0 < capacity) (hsize : request.total ≤ Smemcpy.sizeMax)
    (hdestination : request.HasDestination) {ring : Ring} (hstorage : ring.deviceStorage ≠ 0)
    (hdevice : ring.device.isSome) {client : Client Byte}
    (hhost : ∀ o < request.total, client.crossRoute (request.copy.source + o) = false) :
    ((request.copy.fragments capacity).flatMap fun fragment =>
        List.range' fragment.logicalOffset fragment.bytes) = List.range request.total ∧
      (∀ fragment ∈ request.copy.fragments capacity,
        0 < fragment.bytes ∧ fragment.bytes ≤ capacity ∧
        client.readHostMemory (request.copy.hostRead fragment) =
          (List.range' fragment.logicalOffset fragment.bytes).map fun o =>
            client.memory (request.sourceAddress o)) ∧
      request.copy.perform capacity ring client =
        some ((List.range request.total).map fun o =>
          (request.cell o, client.memory (request.sourceAddress o))) := by
  have hshaped := request.shaped
  have hbytes := request.copy_bytes
  refine ⟨?_, ?_, ?_⟩
  · rw [hshaped.flatMap_fragments hcapacity (f := id), hbytes, map_id]
    intro o fragment hfits
    rw [hfits.offset, map_id]
  · intro fragment hmem
    obtain ⟨o, ho, rfl⟩ := mem_pieces hmem
    have hfits := hshaped.fragment_fits hcapacity ho
    have hstop := hfits.stop
    refine ⟨hfits.pos, hfits.capacity, ?_⟩
    rw [hshaped.readHostMemory_eq hfits (hhost o (by omega)), hfits.offset]
    refine map_congr_left fun i hi => ?_
    rw [mem_range'_1] at hi
    rw [request.copy_sourceAt (by omega)]
  · obtain ⟨device, hdevice⟩ := Option.isSome_iff_exists.mp hdevice
    rcases Nat.eq_zero_or_pos request.total with hzero | hpos
    · -- an empty region has no fragments
      rw [perform, fragments, hbytes, hzero]
      rfl
    rw [hshaped.perform_eq hcapacity (by omega) hstorage hdevice
      (request.copy_destination hdestination hpos) (fun o ho => hhost o (by omega)), hbytes]
    refine congrArg some (map_congr_left fun o ho => ?_)
    rw [mem_range] at ho
    rw [request.copy_cellAt ho, request.copy_sourceAt ho]

/-- Two rows of three bytes, out of rows of five, to device memory with rows of four; the fragments
have two bytes. -/
theorem pulled_copy_exact_of_two_rows :
    (Request.pitched (⟨1, 0, 0, 100, 5, 2, 0, 0, 0, 0, none, 200, 4, 2, 3, 2, 1⟩ :
        Memcpy3D Unit)).copy.perform 2 ⟨64, some ⟨8, 0, false⟩⟩ ⟨id, fun _ => false⟩ =
      some [(.memory 200, 101), (.memory 201, 102), (.memory 202, 103), (.memory 204, 106),
        (.memory 205, 107), (.memory 206, 108)] := by
  refine Eq.trans
    (pulled_copy_exact _ (by decide) (by decide) ?_ (by decide) rfl fun _ _ => rfl).2.2 rfl
  exact fun _ => by decide

end Lupine.HostToDevice
