import Lupine.Smemcpy.Access

/-!
# The CUDA kernels of scatter copies

`ops/cuda_smemcpy.cu`: what each thread of each kernel does. A grid has `step` threads in all, in
blocks of 256 and warps of 32; the number of a thread in the grid gives its lane.

The byte kernels and the vector kernels go over their bytes in strides of the grid. The narrow
kernels have no such loop: a thread copies a fixed number of bytes, which is all of them only if
the grid is large enough (`scatters_narrowBody_iff`). The atomic kernels put a row into the 32-bit
word around it; they need complete rows at equal distances (`RegularRows.wordOk_rowStores`).

Addresses and indices are numbers here: a fragment and its destination are in one address space,
where what the kernels compute does not wrap.
-/

namespace Lupine.Smemcpy

open Foundations Nat List

/-! ## Stores -/

/-- `scatter_byte`. -/
def scatterByte (p : Params) (index : ℕ) : Access :=
  .store index (destinationAt p (p.logicalOffset + index))

section

variable (width : ℕ) (p : Params)

/-- The address of a byte for a kernel that knows only rows, of this width. -/
def rowAddress (logical : ℕ) : ℕ :=
  let row := logical / width
  let x := logical - row * width
  p.destination + row * p.destinationRowStride + x

/-- `scatter_2d_byte`. -/
def scatter2DByte (index : ℕ) : Access :=
  .store index (rowAddress p.width p (p.logicalOffset + index))

/-- `scatter_narrow_store`. -/
def scatterNarrowStore (index : ℕ) : Access :=
  .store index (rowAddress width p (p.logicalOffset + index))

/-- `scatter_narrow_3d_store`. -/
def scatterNarrow3DStore (index : ℕ) : Access :=
  .store index (destinationAt { p with width := width } (p.logicalOffset + index))

/-- `atomic_store_byte`. Aligning down must not leave the destination. -/
def atomicStoreByte (offset index address accessibleBegin : ℕ) : Access :=
  if offset ≠ 0 ∧ address < accessibleBegin + offset then .store index address
  else .cas offset 1 index address

/-- `atomic_store_row`. -/
def atomicStoreRow (width offset index address accessibleBegin : ℕ) : List Access :=
  if offset ≠ 0 ∧ address < accessibleBegin + offset then
    (List.range width).map fun x => .store (index + x) (address + x)
  else [.cas offset width index address]

/-- `scatter_atomic_2d_store`. -/
def scatterAtomic2DStore (offset : ℕ) (p : Params) (index : ℕ) : Access :=
  let row := p.logicalOffset + index
  atomicStoreByte offset index (p.destination + row * p.destinationRowStride) p.destination

/-! ## Bodies -/

/-- The groups of lanes of a warp take turns. -/
def staggered (groupThreads lane : ℕ) (accesses : List Access) : List Access :=
  (strided 0 32 groupThreads).flatMap fun group =>
    if group ≤ lane ∧ lane < group + groupThreads then accesses else []

/-- `smemcpy_pitched_vector_body`. -/
def pitchedVectorBody (wordBytes : ℕ) (p : Params) (step thread : ℕ) : List Access :=
  wordBody (scatterByte p)
    (fun index => [.word wordBytes index (destinationAt p (p.logicalOffset + index))])
    wordBytes p.source p.bytes step thread

/-- `smemcpy_2d_body`. -/
def body2D (step thread : ℕ) : List Access :=
  byteBody (scatter2DByte p) p.source p.bytes step thread

/-- `smemcpy_3d_body`. -/
def body3D (step thread : ℕ) : List Access :=
  byteBody (scatterByte p) p.source p.bytes step thread

end

/-- What `smemcpy_narrow_2d_body` and `smemcpy_narrow_3d_body` have in common. -/
def narrowBody (scalar : ℕ → Access) (width items source bytes step thread : ℕ) : List Access :=
  let prefix' := sourcePrefix source bytes
  (if thread < prefix' then [scalar thread] else []) ++
    (List.range items).flatMap fun item =>
      let index := prefix' + thread + item * step
      let accesses := if index < bytes then [scalar index] else []
      if items = 1 ∨ width = 3 then accesses
      else staggered (if width = 1 then 4 else 8) (thread % 32) accesses

/-- `smemcpy_narrow_2d_body`. -/
def narrow2DBody (width items : ℕ) (p : Params) (step thread : ℕ) : List Access :=
  narrowBody (scatterNarrowStore width p) width items p.source p.bytes step thread

/-- `smemcpy_narrow_3d_body`. -/
def narrow3DBody (width items : ℕ) (p : Params) (step thread : ℕ) : List Access :=
  narrowBody (scatterNarrow3DStore width p) width items p.source p.bytes step thread

/-- `smemcpy_atomic_narrow_2d_body`. The last byte is stored plainly. -/
def atomicNarrow2DBody (offset groupThreads : ℕ) (p : Params) (step thread : ℕ) : List Access :=
  let prefix' := sourcePrefix p.source p.bytes
  (if thread < prefix' then
    [if thread + 1 = p.bytes then scatterNarrowStore 1 p thread
      else scatterAtomic2DStore offset p thread]
  else []) ++
    (strided (prefix' + thread) p.bytes step).flatMap fun index =>
      if index + 1 = p.bytes then [scatterNarrowStore 1 p index]
      else staggered groupThreads (thread % 32) [scatterAtomic2DStore offset p index]

/-- `smemcpy_atomic_rows_body`. The last row is stored plainly. -/
def atomicRowsBody (width offset groupThreads : ℕ) (p : Params) (step thread : ℕ) : List Access :=
  let copyRows := p.bytes / width
  (strided thread copyRows step).flatMap fun copyRow =>
    let index := copyRow * width
    let address := p.destination + (p.logicalOffset / width + copyRow) * p.destinationRowStride
    if copyRow + 1 = copyRows then
      (List.range width).map fun x => .store (index + x) (address + x)
    else staggered groupThreads (thread % 32)
      (atomicStoreRow width offset index address p.destination)

/-! ## Launches -/

/-- The number of threads. The driver's copy counts as one. -/
def Launch.threadCount (launch : Launch) : ℕ :=
  if launch.useCudaMemcpy then 1 else launch.blocks * launch.threads

/-- What a thread of the selected operation does. -/
def Launch.body (launch : Launch) (thread : ℕ) : List Access :=
  let step := launch.blocks * launch.threads
  if launch.useCudaMemcpy then
    (List.range launch.params.bytes).map fun i => .store i (launch.params.destination + i)
  else
    match launch.kernel with
    | .threeD => body3D launch.params step thread
    | .twoD => body2D launch.params step thread
    | .pitched => pitchedVectorBody launch.wordBytes launch.params step thread
    | .narrow2D => narrow2DBody launch.width launch.items launch.params step thread
    | .narrow3D => narrow3DBody launch.width launch.items launch.params step thread
    | .atomicNarrow2D =>
      atomicNarrow2DBody launch.byteOffset launch.groupThreads launch.params step thread
    | .atomicRows =>
      atomicRowsBody launch.width launch.byteOffset launch.groupThreads launch.params step thread

/-! ## Groups of lanes -/

/-- Every lane has its turn. -/
theorem mem_staggered {groupThreads lane : ℕ} (hgroup : 0 < groupThreads) (hlane : lane < 32)
    {accesses : List Access} {a : Access} :
    a ∈ staggered groupThreads lane accesses ↔ a ∈ accesses := by
  simp only [staggered, mem_flatMap]
  constructor
  · rintro ⟨group, -, ha⟩
    split at ha
    · exact ha
    · cases ha
  · intro ha
    have hdiv := div_add_mod' lane groupThreads
    have hmod := mod_lt lane hgroup
    refine ⟨lane / groupThreads * groupThreads, ?_, ?_⟩
    · rw [mem_strided hgroup]
      exact ⟨by omega, lane / groupThreads, by omega⟩
    · rwa [if_pos ⟨by omega, by omega⟩]

/-! ## Narrow kernels -/

section Narrow

variable {scalar : ℕ → Access} {width items source bytes n : ℕ}

/-- A thread copies its byte of the prefix and the bytes of its items. -/
theorem mem_narrowBody {t : ℕ} {a : Access} :
    a ∈ narrowBody scalar width items source bytes n t ↔
      (t < sourcePrefix source bytes ∧ a = scalar t) ∨
      ∃ item < items, sourcePrefix source bytes + t + item * n < bytes ∧
        a = scalar (sourcePrefix source bytes + t + item * n) := by
  have hlane : t % 32 < 32 := mod_lt _ (by decide)
  simp only [narrowBody, mem_append, mem_flatMap, mem_range]
  refine or_congr ?_ (exists_congr fun item => and_congr_right fun _ => ?_)
  · split <;> simp [*]
  · have hgroup : 0 < if width = 1 then 4 else 8 := by split <;> decide
    have hmem : a ∈ (if sourcePrefix source bytes + t + item * n < bytes then
        [scalar (sourcePrefix source bytes + t + item * n)] else []) ↔
        sourcePrefix source bytes + t + item * n < bytes ∧
          a = scalar (sourcePrefix source bytes + t + item * n) := by
      split <;> simp [*]
    split
    · exact hmem
    · rw [mem_staggered hgroup hlane]
      exact hmem

/-- **Narrow kernels** copy the fragment if and only if the items of all threads are enough. -/
theorem scatters_narrowBody_iff {target : ℕ → ℕ} {accessible : ℕ → Prop} (hn : 128 ≤ n)
    (haccessible : ∀ i < bytes, accessible (target i))
    (hscalar : ∀ i < bytes, scalar i = .store i (target i)) :
    Scatters n source bytes target accessible
        (narrowBody scalar width items source bytes n) ↔
      bytes ≤ sourcePrefix source bytes + items * n := by
  have hprefix := sourcePrefix_lt source bytes
  have hle := sourcePrefix_le source bytes
  constructor
  · intro h
    by_contra hlt
    rw [not_le] at hlt
    -- the byte behind the last item
    obtain ⟨t, ht, a, ha, hw⟩ := h.written _ hlt
    have hindex : ∀ i < bytes, a = scalar i → i = sourcePrefix source bytes + items * n := by
      rintro i hi rfl
      rw [hscalar i hi] at hw
      exact (congrArg Prod.snd (mem_singleton.mp hw)).symm
    rcases mem_narrowBody.mp ha with ⟨hlt', heq⟩ | ⟨item, hitem, hlt', heq⟩
    · have := hindex t (by omega) heq
      omega
    · have := hindex _ hlt' heq
      have := mul_le_mul_right n (succ_le_of_lt hitem)
      rw [succ_mul] at this
      omega
  · intro hfits
    refine scatters_of_stores haccessible (fun i hi => ?_) fun t _ a ha => ?_
    · rw [← hscalar i hi]
      rcases lt_or_ge i (sourcePrefix source bytes) with hlt | hge
      · exact ⟨i, by omega, mem_narrowBody.mpr (.inl ⟨hlt, rfl⟩)⟩
      · obtain ⟨k, rfl⟩ := Nat.exists_eq_add_of_le hge
        have hdiv := div_add_mod' k n
        have hindex : sourcePrefix source bytes + k % n + k / n * n =
            sourcePrefix source bytes + k := by omega
        refine ⟨k % n, mod_lt _ (by omega), mem_narrowBody.mpr (.inr ⟨k / n, ?_, ?_, ?_⟩)⟩
        · rw [div_lt_iff_lt_mul (by omega)]
          omega
        · rwa [hindex]
        · rw [hindex]
    · rcases mem_narrowBody.mp ha with ⟨hlt, rfl⟩ | ⟨item, -, hlt, rfl⟩
      · exact ⟨t, by omega, hscalar t (by omega)⟩
      · exact ⟨_, hlt, hscalar _ hlt⟩

end Narrow

/-! ## Kernels that compare and swap -/

section Atomic

variable {width offset groupThreads n t : ℕ} {p : Params} {a : Access}

/-- What both kernels do for a row. -/
def rowStores (width offset : ℕ) (p : Params) (copyRow : ℕ) : List Access :=
  let index := copyRow * width
  let address := p.destination + (p.logicalOffset / width + copyRow) * p.destinationRowStride
  if copyRow + 1 = p.bytes / width then
    (List.range width).map fun x => .store (index + x) (address + x)
  else atomicStoreRow width offset index address p.destination

theorem mem_atomicRowsBody (hgroup : 0 < groupThreads) :
    a ∈ atomicRowsBody width offset groupThreads p n t ↔
      ∃ c ∈ strided t (p.bytes / width) n, a ∈ rowStores width offset p c := by
  have hlane : t % 32 < 32 := mod_lt _ (by decide)
  simp only [atomicRowsBody, mem_flatMap, rowStores]
  refine exists_congr fun c => and_congr_right fun _ => ?_
  split
  · exact Iff.rfl
  · exact mem_staggered hgroup hlane

/-- Rows of one byte. -/
theorem rowStores_one (index : ℕ) : rowStores 1 offset p index =
    [if index + 1 = p.bytes then scatterNarrowStore 1 p index
      else scatterAtomic2DStore offset p index] := by
  simp only [rowStores, scatterNarrowStore, rowAddress, scatterAtomic2DStore, atomicStoreRow,
    atomicStoreByte, Nat.div_one, Nat.mul_one, Nat.sub_self, Nat.add_zero, range_one,
    map_cons, map_nil]
  split
  · rfl
  · split <;> rfl

theorem mem_atomicNarrow2DBody (hgroup : 0 < groupThreads) :
    a ∈ atomicNarrow2DBody offset groupThreads p n t ↔
      (t < sourcePrefix p.source p.bytes ∧ a ∈ rowStores 1 offset p t) ∨
      ∃ c ∈ strided (sourcePrefix p.source p.bytes + t) p.bytes n,
        a ∈ rowStores 1 offset p c := by
  have hlane : t % 32 < 32 := mod_lt _ (by decide)
  simp only [atomicNarrow2DBody, mem_append, mem_flatMap, rowStores_one]
  refine or_congr ?_ (exists_congr fun c => and_congr_right fun _ => ?_)
  · split <;> simp [*]
  · split
    · exact Iff.rfl
    · exact mem_staggered hgroup hlane

variable {target : ℕ → ℕ} {accessible : ℕ → Prop}

theorem scatters_atomicRowsBody (hwidth : 0 < width) (hgroup : 0 < groupThreads) (hn : 0 < n)
    (hbytes : p.bytes % width = 0)
    (hok : ∀ c < p.bytes / width,
      WordOk p.source p.bytes target accessible width (c * width) (rowStores width offset p c)) :
    Scatters n p.source p.bytes target accessible
      (atomicRowsBody width offset groupThreads p n) := by
  refine scatters_of_words hwidth (Nat.div_mul_cancel (Nat.dvd_of_mod_eq_zero hbytes)).symm hok
    (fun c hc => ?_) fun t _ a ha => ?_
  · refine ⟨c % n, mod_lt c hn, fun a ha => (mem_atomicRowsBody hgroup).mpr ⟨c, ?_, ha⟩⟩
    rw [mem_strided hn]
    exact ⟨hc, c / n, by rw [add_comm, div_add_mod']⟩
  · obtain ⟨c, hc, ha⟩ := (mem_atomicRowsBody hgroup).mp ha
    exact ⟨c, ((mem_strided hn).mp hc).1, ha⟩

theorem scatters_atomicNarrow2DBody (hgroup : 0 < groupThreads) (hn : 128 ≤ n)
    (hok : ∀ c < p.bytes / 1,
      WordOk p.source p.bytes target accessible 1 (c * 1) (rowStores 1 offset p c)) :
    Scatters n p.source p.bytes target accessible (atomicNarrow2DBody offset groupThreads p n) := by
  have hle := sourcePrefix_le p.source p.bytes
  have hlt := sourcePrefix_lt p.source p.bytes
  rw [Nat.div_one] at hok
  refine scatters_of_words one_pos (mul_one _).symm hok (fun c hc => ?_) fun t _ a ha => ?_
  · rcases lt_or_ge c (sourcePrefix p.source p.bytes) with hfirst | hge
    · exact ⟨c, by omega, fun a ha => (mem_atomicNarrow2DBody hgroup).mpr (.inl ⟨hfirst, ha⟩)⟩
    · obtain ⟨t, ht, j, hj, hjc, hcj⟩ :=
        exists_strided (w := 1) (by omega : 0 < n) one_pos hge hc
      obtain rfl : j = c := by omega
      rw [mul_one, mul_one] at hj
      exact ⟨t, ht, fun a ha => (mem_atomicNarrow2DBody hgroup).mpr (.inr ⟨j, hj, ha⟩)⟩
  · rcases (mem_atomicNarrow2DBody hgroup).mp ha with ⟨hfirst, ha⟩ | ⟨c, hc, ha⟩
    · exact ⟨t, by omega, ha⟩
    · exact ⟨c, ((mem_strided (by omega)).mp hc).1, ha⟩

end Atomic

/-! ## Rows at equal distances -/

/-- A fragment of `count` complete rows. They begin at equal distances, behind `skipped` others of
which the first begins at `base`. -/
structure RegularRows (p : Params) (base first skipped count : ℕ) : Prop where
  logicalOffset : p.logicalOffset = (first + skipped) * p.width
  bytes : p.bytes = count * p.width
  start : ∀ k < skipped + count, p.rowStart (first + k) = base + k * p.destinationRowStride

namespace RegularRows

variable {p : Params} {base first skipped count : ℕ}

variable (h : RegularRows p base first skipped count) (hwidth : 0 < p.width)

include h hwidth

theorem target (hrows : 0 < p.rows) {c x : ℕ} (hc : c < count) (hx : x < p.width) :
    destinationAt p (p.logicalOffset + (c * p.width + x)) =
      base + (skipped + c) * p.destinationRowStride + x := by
  have hrow : p.logicalOffset + (c * p.width + x) = (first + (skipped + c)) * p.width + x := by
    rw [h.logicalOffset]
    simp only [Nat.add_mul]
    omega
  rw [hrow, destinationAt_row hwidth hrows _ hx, h.start _ (by omega)]

theorem firstDestination (hrows : 0 < p.rows) (hcount : 0 < count) :
    p.firstDestination = base + skipped * p.destinationRowStride := by
  have := h.target hwidth hrows hcount hwidth
  simpa [Params.firstDestination] using this

theorem lastRow (hcount : 0 < count) : p.lastRow + 1 = first + (skipped + count) := by
  have hlast : p.logicalOffset + p.bytes - 1 =
      (first + skipped + (count - 1)) * p.width + (p.width - 1) := by
    obtain ⟨count, rfl⟩ := exists_eq_succ_of_ne_zero hcount.ne'
    rw [h.logicalOffset, h.bytes, Nat.succ_sub_one, Nat.succ_mul, Nat.add_mul (first + skipped)]
    omega
  rw [Params.lastRow, hlast, mul_add_div_of_lt (by omega)]
  omega

/-- All rows but the last are accessible through their stride. -/
theorem accessible {k x : ℕ} (hk : k + 1 < skipped + count) (hcount : 0 < count)
    (hx : x < p.destinationRowStride) :
    p.Accessible (base + k * p.destinationRowStride + x) := by
  have hlast := h.lastRow hwidth hcount
  refine ⟨first + k, by omega, ?_, ?_⟩
  · rw [h.start k (by omega)]
    exact le_add_right _ _
  · rw [h.start k (by omega), if_pos (by omega)]
    exact Nat.add_lt_add_left (Nat.lt_of_lt_of_le hx (Nat.le_max_right _ _)) _

/-- A row but the last can be put into memory as part of a word. What is before the row in its word
belongs to the row before. -/
theorem cas_safe (hstride : 4 ≤ p.destinationRowStride) (hmod : p.destinationRowStride % 4 = 0)
    {offset c : ℕ} (hoffset : (base + skipped * p.destinationRowStride) % 4 = offset)
    (hc : c + 1 < count)
    (hbegin : ¬(offset ≠ 0 ∧ base + (skipped + c) * p.destinationRowStride < base + offset)) :
    (Access.cas offset p.width (c * p.width) (base + (skipped + c) * p.destinationRowStride)).Safe
      p.source p.bytes p.Accessible := by
  have hend := mul_le_mul_right p.width (le_of_lt hc)
  rw [succ_mul, ← h.bytes] at hend
  have hle : offset ≤ base + (skipped + c) * p.destinationRowStride := by omega
  refine ⟨hend, hle, ?_, fun k hk => ?_⟩
  · obtain ⟨q, hq⟩ := dvd_of_mod_eq_zero hmod
    have hbase : skipped * p.destinationRowStride = 4 * (skipped * q) := by
      rw [hq, mul_left_comm]
    have haddress : (skipped + c) * p.destinationRowStride = 4 * ((skipped + c) * q) := by
      rw [hq, mul_left_comm]
    omega
  · rcases lt_or_ge k offset with hlt | hge
    · -- the padding of the row before
      rcases hrow : skipped + c with _ | r
      · rw [hrow, Nat.zero_mul] at hbegin
        omega
      · rw [hrow] at hle
        have heq : base + (r + 1) * p.destinationRowStride - offset + k =
            base + r * p.destinationRowStride + (p.destinationRowStride - offset + k) := by
          rw [succ_mul] at hle ⊢
          omega
        rw [heq]
        exact h.accessible hwidth (by omega) (by omega) (by omega)
    · have heq : base + (skipped + c) * p.destinationRowStride - offset + k =
          base + (skipped + c) * p.destinationRowStride + (k - offset) := by omega
      rw [heq]
      exact h.accessible hwidth (by omega) (by omega) (by omega)

/-- Each row is put where it belongs. -/
theorem wordOk_rowStores (hrows : 0 < p.rows) (hstride : 4 ≤ p.destinationRowStride)
    (hmod : p.destinationRowStride % 4 = 0) {offset c : ℕ} (hc : c < count)
    (hoffset : p.firstDestination % 4 = offset) :
    WordOk p.source p.bytes (fun i => destinationAt p (p.logicalOffset + i)) p.Accessible p.width
      (c * p.width) (rowStores p.width offset
        { p with destination := base, logicalOffset := skipped * p.width } c) := by
  have hend : c * p.width + p.width ≤ p.bytes := by
    rw [h.bytes, ← succ_mul]
    exact mul_le_mul_right _ hc
  have htarget : ∀ k < p.width, destinationAt p (p.logicalOffset + (c * p.width + k)) =
      base + (skipped + c) * p.destinationRowStride + k := fun k hk => h.target hwidth hrows hc hk
  have hplain : WordOk p.source p.bytes (fun i => destinationAt p (p.logicalOffset + i))
      p.Accessible p.width (c * p.width) ((List.range p.width).map fun x =>
        .store (c * p.width + x) (base + (skipped + c) * p.destinationRowStride + x)) :=
    wordOk_stores (accessible_destinationAt hwidth hrows) hend htarget
  have hcount : p.bytes / p.width = count := by rw [h.bytes, Nat.mul_div_cancel _ hwidth]
  rw [h.firstDestination hwidth hrows (by omega)] at hoffset
  simp only [rowStores, hcount, Nat.mul_div_cancel _ hwidth, atomicStoreRow]
  split
  · exact hplain
  · split
    · exact hplain
    · exact wordOk_singleton rfl hend htarget
        (h.cas_safe hwidth hstride hmod hoffset (by omega) ‹_›)

end RegularRows

end Lupine.Smemcpy
