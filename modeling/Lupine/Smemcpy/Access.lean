import Lupine.Foundations.Grid
import Lupine.Smemcpy.Dispatch

/-!
# What the threads of a scatter copy do

A kernel is a list of accesses for each of its threads. The source fragment is packed and is not
written by the kernel, so an access names the bytes of the fragment by their index; addresses of the
destination are numbers.

* `Scatters` says that the accesses of all threads put each byte of the fragment where it belongs,
  touch nothing else, and are aligned and in bounds.
* `Scatters.copies`: then, in whatever order the threads run, they come to their end and memory is
  as it should be.
* `scatters_wordBody` and `scatters_byteBody` are the two ways in which most kernels divide the
  bytes: a prefix up to an aligned source address, words or bytes in strides of the whole grid, and
  a tail.
-/

namespace Lupine.Smemcpy

open Foundations Nat List

/-! ## Accesses -/

variable {p : Params}

/-- An access of a thread. -/
inductive Access
  /-- Byte `index` of the fragment is stored. -/
  | store (index address : ℕ)
  /-- `size` bytes of the fragment are loaded as one word. -/
  | load (size index : ℕ)
  /-- `size` bytes of the fragment are loaded and stored as one word. -/
  | word (size index address : ℕ)
  /-- `width` bytes of the fragment are put into the 32-bit word that has `address` at `offset`, by
  compare-and-swap. -/
  | cas (offset width index address : ℕ)
  deriving DecidableEq

namespace Access

/-- Which byte of the fragment is stored where: pairs of an address and an index. -/
def writes : Access → List (ℕ × ℕ)
  | .store index address => [(address, index)]
  | .load _ _ => []
  | .word size index address => (List.range size).map fun k => (address + k, index + k)
  | .cas _ width index address => (List.range width).map fun k => (address + k, index + k)

/-- The access as an operation on memory, for the bytes of a fragment. -/
def op (data : ℕ → UInt8) (a : Access) : Op ℕ UInt8 where
  writes := a.writes.map fun w => (w.1, data w.2)
  word :=
    match a with
    | .cas offset _ _ address => some ((List.range 4).map fun k => address - offset + k)
    | _ => none

/-- The access is aligned, inside the fragment, and inside the destination. -/
def Safe (source bytes : ℕ) (accessible : ℕ → Prop) : Access → Prop
  | .store index address => index < bytes ∧ accessible address
  | .load size index => (source + index) % size = 0 ∧ index + size ≤ bytes
  | .word size index address =>
    (source + index) % size = 0 ∧ index + size ≤ bytes ∧ address % size = 0 ∧
      ∀ k < size, accessible (address + k)
  | .cas offset width index address =>
    index + width ≤ bytes ∧ offset ≤ address ∧ (address - offset) % 4 = 0 ∧
      ∀ k < 4, accessible (address - offset + k)

end Access

/-! ## Scatter copies -/

/-- The accesses of `n` threads put byte `i` of the fragment at `target i`, for all of its bytes,
and do nothing else. -/
structure Scatters (n source bytes : ℕ) (target : ℕ → ℕ) (accessible : ℕ → Prop)
    (body : ℕ → List Access) : Prop where
  written : ∀ i < bytes, ∃ t < n, ∃ a ∈ body t, (target i, i) ∈ a.writes
  only : ∀ t < n, ∀ a ∈ body t, ∀ w ∈ a.writes, w.2 < bytes ∧ w.1 = target w.2
  safe : ∀ t < n, ∀ a ∈ body t, a.Safe source bytes accessible

/-- The threads of a kernel on some memory. -/
def grid (n : ℕ) (body : ℕ → List Access) (data memory : ℕ → UInt8) : Grid (Fin n) ℕ UInt8 :=
  Grid.start memory fun t => (body t).map (Access.op data)

/-- **What a kernel leaves behind.** In every run of its threads: nothing changes but the targets of
the bytes; the run has a bounded length, and can go on until all threads are at their end; and then
the target of each byte holds it, or another byte with the same target. -/
structure Copies (n bytes : ℕ) (target : ℕ → ℕ) (body : ℕ → List Access)
    (data memory : ℕ → UInt8) (ts : List (Fin n)) (g : Grid (Fin n) ℕ UInt8) : Prop where
  unchanged : ∀ a, (∀ i < bytes, target i ≠ a) → g.memory a = memory a
  bounded : ts.length ≤ (grid n body data memory).work
  ends : g.Done ∨ ∃ t, (g.step t).isSome = true
  copied : g.Done → ∀ i < bytes, ∃ j < bytes, target j = target i ∧ g.memory (target i) = data j

theorem Scatters.copies {n source bytes : ℕ} {target : ℕ → ℕ} {accessible : ℕ → Prop}
    {body : ℕ → List Access} (h : Scatters n source bytes target accessible body)
    {data memory : ℕ → UInt8} {ts : List (Fin n)} {g : Grid (Fin n) ℕ UInt8}
    (hrun : exec Grid.step (grid n body data memory) ts = some g) :
    Copies n bytes target body data memory ts g := by
  have hran := Grid.ran_of_run hrun
  have hop : ∀ t : Fin n, ∀ op ∈ (body t).map (Access.op data), ∀ w ∈ op.writes,
      ∃ i < bytes, w = (target i, data i) := by
    intro t op hop w hw
    obtain ⟨a, ha, rfl⟩ := mem_map.mp hop
    obtain ⟨v, hv, rfl⟩ := mem_map.mp hw
    obtain ⟨hi, htarget⟩ := h.only t t.isLt a ha v hv
    exact ⟨v.2, hi, by rw [htarget]⟩
  refine ⟨fun a ha => hran.unchanged fun t op ht w hw => ?_, Grid.length_le hrun, ?_,
    fun hdone i hi => ?_⟩
  · obtain ⟨i, hi, rfl⟩ := hop t op ht w hw
    exact ha i hi
  · rcases Classical.em g.Done with hdone | hdone
    · exact .inl hdone
    · exact .inr (Grid.exists_step hdone)
  · obtain ⟨t, ht, a, ha, hw⟩ := h.written i hi
    obtain ⟨t', op, hop', hmem⟩ := hran.stored hdone (t := ⟨t, ht⟩)
      (mem_map.mpr ⟨a, ha, rfl⟩) (mem_map.mpr ⟨(target i, i), hw, rfl⟩)
    obtain ⟨j, hj, heq⟩ := hop t' op hop' _ hmem
    obtain ⟨htarget, hdata⟩ := Prod.mk.inj heq
    exact ⟨j, hj, htarget.symm, hdata⟩

/-- The accesses of one word put its bytes where they belong. -/
structure WordOk (source bytes : ℕ) (target : ℕ → ℕ) (accessible : ℕ → Prop) (word index : ℕ)
    (accesses : List Access) : Prop where
  written : ∀ k < word, ∃ a ∈ accesses, (target (index + k), index + k) ∈ a.writes
  only : ∀ a ∈ accesses, ∀ w ∈ a.writes, w.2 < bytes ∧ w.1 = target w.2
  safe : ∀ a ∈ accesses, a.Safe source bytes accessible

section Assembly

variable {n source bytes : ℕ} {target : ℕ → ℕ} {accessible : ℕ → Prop} {body : ℕ → List Access}

/-- A fragment of words that are copied one by one. -/
theorem scatters_of_words {word count : ℕ} {words : ℕ → List Access} (hword : 0 < word)
    (hbytes : bytes = count * word)
    (hok : ∀ c < count, WordOk source bytes target accessible word (c * word) (words c))
    (hcover : ∀ c < count, ∃ t < n, words c ⊆ body t)
    (hmem : ∀ t < n, ∀ a ∈ body t, ∃ c < count, a ∈ words c) :
    Scatters n source bytes target accessible body := by
  refine ⟨fun i hi => ?_, fun t ht a ha => ?_, fun t ht a ha => ?_⟩
  · have hc : i / word < count := by
      rw [div_lt_iff_lt_mul hword]
      omega
    obtain ⟨a, ha, hw⟩ := (hok _ hc).written (i % word) (mod_lt i hword)
    obtain ⟨t, ht, hsub⟩ := hcover _ hc
    rw [div_add_mod'] at hw
    exact ⟨t, ht, a, hsub ha, hw⟩
  · obtain ⟨c, hc, ha⟩ := hmem t ht a ha
    exact (hok c hc).only a ha
  · obtain ⟨c, hc, ha⟩ := hmem t ht a ha
    exact (hok c hc).safe a ha

/-- A fragment of bytes that are stored one by one. -/
theorem scatters_of_stores (haccessible : ∀ i < bytes, accessible (target i))
    (hcover : ∀ i < bytes, ∃ t < n, .store i (target i) ∈ body t)
    (hmem : ∀ t < n, ∀ a ∈ body t, ∃ i < bytes, a = .store i (target i)) :
    Scatters n source bytes target accessible body := by
  refine ⟨fun i hi => ?_, fun t ht a ha w hw => ?_, fun t ht a ha => ?_⟩
  · obtain ⟨t, ht, ha⟩ := hcover i hi
    exact ⟨t, ht, _, ha, mem_singleton_self _⟩
  · obtain ⟨i, hi, rfl⟩ := hmem t ht a ha
    obtain rfl := mem_singleton.mp hw
    exact ⟨hi, rfl⟩
  · obtain ⟨i, hi, rfl⟩ := hmem t ht a ha
    exact ⟨hi, haccessible i hi⟩

end Assembly

/-! ## The source prefix -/

/-- `source_prefix`: the bytes before the first one with an aligned address. -/
def sourcePrefix (source bytes : ℕ) : ℕ := min ((128 - source % 128) % 128) bytes

theorem sourcePrefix_le (source bytes : ℕ) : sourcePrefix source bytes ≤ bytes :=
  min_le_right _ _

theorem sourcePrefix_lt (source bytes : ℕ) : sourcePrefix source bytes < 128 :=
  lt_of_le_of_lt (min_le_left _ _) (mod_lt _ (by decide))

/-- Behind the prefix, if there is anything, the source is aligned. -/
theorem sourcePrefix_aligned {source bytes : ℕ} (h : sourcePrefix source bytes < bytes) :
    (source + sourcePrefix source bytes) % 128 = 0 := by
  unfold sourcePrefix at h ⊢
  omega

/-! ## Words -/

/-- The bytes that are copied in words, `remaining & ~(word - 1)`. -/
def bulkBytes (word remaining : ℕ) : ℕ := remaining - remaining % word

theorem bulkBytes_eq (word remaining : ℕ) : bulkBytes word remaining = remaining / word * word := by
  have := div_add_mod' remaining word
  unfold bulkBytes
  omega

theorem bulkBytes_le (word remaining : ℕ) : bulkBytes word remaining ≤ remaining :=
  Nat.sub_le _ _

/-- The body of a kernel that copies words: a byte of the prefix, words in strides of the grid, and
a byte of the tail. -/
def wordBody (scalar : ℕ → Access) (wide : ℕ → List Access) (word source bytes step thread : ℕ) :
    List Access :=
  let prefix' := sourcePrefix source bytes
  let bulk := bulkBytes word (bytes - prefix')
  (if thread < prefix' then [scalar thread] else []) ++
    (strided (prefix' + thread * word) (prefix' + bulk) (step * word)).flatMap wide ++
    (if thread < bytes - prefix' - bulk then [scalar (prefix' + bulk + thread)] else [])

section WordBody

variable {scalar : ℕ → Access} {wide : ℕ → List Access} {word source bytes n : ℕ}

/-- The bulk is a whole number of words. -/
theorem word_of_mem_strided (hword : 0 < word) (hn : 0 < n) {t j : ℕ}
    (hj : j ∈ strided (sourcePrefix source bytes + t * word)
      (sourcePrefix source bytes + bulkBytes word (bytes - sourcePrefix source bytes))
      (n * word)) :
    ∃ m, j = sourcePrefix source bytes + m * word ∧ j + word ≤ bytes := by
  rw [mem_strided (Nat.mul_pos hn hword)] at hj
  obtain ⟨hlt, k, rfl⟩ := hj
  have hm : sourcePrefix source bytes + t * word + k * (n * word) =
      sourcePrefix source bytes + (t + k * n) * word := by
    rw [Nat.add_mul, Nat.mul_assoc, Nat.add_assoc]
  refine ⟨t + k * n, hm, ?_⟩
  rw [hm, bulkBytes_eq] at hlt
  have hlast : t + k * n + 1 ≤ (bytes - sourcePrefix source bytes) / word :=
    Nat.lt_of_mul_lt_mul_right (a := word) (Nat.lt_of_add_lt_add_left hlt)
  have hend := mul_le_mul_right word hlast
  rw [succ_mul, ← bulkBytes_eq] at hend
  have hbulk := bulkBytes_le word (bytes - sourcePrefix source bytes)
  omega

/-- A byte is in the prefix, in a word or in the tail. -/
theorem exists_wordBody (scalar : ℕ → Access) (wide : ℕ → List Access) (hword : 0 < word)
    (hle : word ≤ n) (hn : 128 ≤ n) {i : ℕ} (hi : i < bytes) :
    (∃ t < n, scalar i ∈ wordBody scalar wide word source bytes n t) ∨
      ∃ t < n, ∃ m, sourcePrefix source bytes + m * word ≤ i ∧
        i < sourcePrefix source bytes + m * word + word ∧
        sourcePrefix source bytes + m * word + word ≤ bytes ∧
        wide (sourcePrefix source bytes + m * word) ⊆
          wordBody scalar wide word source bytes n t := by
  have hprefix := sourcePrefix_lt source bytes
  have hmod := mod_lt (bytes - sourcePrefix source bytes) hword
  rcases lt_or_ge i (sourcePrefix source bytes) with hlt | hge
  · refine .inl ⟨i, by omega, ?_⟩
    simp [wordBody, hlt]
  rcases lt_or_ge i (sourcePrefix source bytes +
      bulkBytes word (bytes - sourcePrefix source bytes)) with hlt | htail
  · right
    obtain ⟨t, ht, j, hj, hji, hij⟩ := exists_strided (w := word) (by omega : 0 < n) hword hge hlt
    obtain ⟨m, rfl, hend⟩ := word_of_mem_strided hword (by omega) hj
    refine ⟨t, ht, m, hji, hij, hend, fun a ha => ?_⟩
    simp only [wordBody, mem_append, mem_flatMap]
    exact .inl (.inr ⟨_, hj, ha⟩)
  · left
    obtain ⟨t, rfl⟩ := Nat.exists_eq_add_of_le htail
    refine ⟨t, ?_, ?_⟩
    · unfold bulkBytes at hi
      omega
    · have hrest : t < bytes - sourcePrefix source bytes -
          bulkBytes word (bytes - sourcePrefix source bytes) := by omega
      simp [wordBody, hrest]

/-- What a thread does with a byte of the prefix, with a word or with a byte of the tail. -/
theorem mem_wordBody (hword : 0 < word) (hn : 0 < n) {t : ℕ} {a : Access}
    (ha : a ∈ wordBody scalar wide word source bytes n t) :
    (∃ i < bytes, a = scalar i) ∨ ∃ m, sourcePrefix source bytes + m * word + word ≤ bytes ∧
      a ∈ wide (sourcePrefix source bytes + m * word) := by
  have hprefix := sourcePrefix_le source bytes
  simp only [wordBody, mem_append] at ha
  rcases ha with (ha | ha) | ha
  · split at ha
    · exact .inl ⟨t, by omega, mem_singleton.mp ha⟩
    · cases ha
  · obtain ⟨j, hj, ha⟩ := mem_flatMap.mp ha
    obtain ⟨m, rfl, hend⟩ := word_of_mem_strided hword hn hj
    exact .inr ⟨m, hend, ha⟩
  · split at ha
    · exact .inl ⟨_, by omega, mem_singleton.mp ha⟩
    · cases ha

variable {target : ℕ → ℕ} {accessible : ℕ → Prop}

theorem scatters_wordBody (hword : 0 < word) (hle : word ≤ n) (hn : 128 ≤ n)
    (haccessible : ∀ i < bytes, accessible (target i))
    (hscalar : ∀ i < bytes, scalar i = .store i (target i))
    (hwide : ∀ m, sourcePrefix source bytes + m * word + word ≤ bytes →
      WordOk source bytes target accessible word (sourcePrefix source bytes + m * word)
        (wide (sourcePrefix source bytes + m * word))) :
    Scatters n source bytes target accessible (wordBody scalar wide word source bytes n) := by
  refine ⟨fun i hi => ?_, fun t _ a ha w hw => ?_, fun t _ a ha => ?_⟩
  · rcases exists_wordBody scalar wide hword hle hn hi with
      ⟨t, ht, hmem⟩ | ⟨t, ht, m, hmi, him, hend, hsub⟩
    · refine ⟨t, ht, _, hmem, ?_⟩
      rw [hscalar i hi]
      exact mem_singleton_self _
    · obtain ⟨a, ha, hw⟩ := (hwide m hend).written (i - (sourcePrefix source bytes + m * word))
        (by omega)
      rw [Nat.add_sub_cancel' hmi] at hw
      exact ⟨t, ht, a, hsub ha, hw⟩
  · rcases mem_wordBody hword (by omega) ha with ⟨i, hi, rfl⟩ | ⟨m, hend, ha⟩
    · rw [hscalar i hi] at hw
      obtain rfl := mem_singleton.mp hw
      exact ⟨hi, rfl⟩
    · exact (hwide m hend).only a ha w hw
  · rcases mem_wordBody hword (by omega) ha with ⟨i, hi, rfl⟩ | ⟨m, hend, ha⟩
    · rw [hscalar i hi]
      exact ⟨hi, haccessible i hi⟩
    · exact (hwide m hend).safe a ha

/-- A word that one access puts into memory. -/
theorem wordOk_singleton {a : Access} {index address : ℕ}
    (hwrites : a.writes = (List.range word).map fun k => (address + k, index + k))
    (hend : index + word ≤ bytes) (htarget : ∀ k < word, target (index + k) = address + k)
    (hsafe : a.Safe source bytes accessible) :
    WordOk source bytes target accessible word index [a] := by
  refine ⟨fun k hk => ⟨a, mem_singleton_self a, ?_⟩, fun b hb w hw => ?_, fun b hb => ?_⟩
  · rw [hwrites, htarget k hk]
    exact mem_map.mpr ⟨k, mem_range.mpr hk, rfl⟩
  · obtain rfl := mem_singleton.mp hb
    rw [hwrites] at hw
    obtain ⟨k, hk, rfl⟩ := mem_map.mp hw
    rw [mem_range] at hk
    exact ⟨by omega, (htarget k hk).symm⟩
  · obtain rfl := mem_singleton.mp hb
    exact hsafe

section

variable (haccessible : ∀ i < bytes, accessible (target i))
include haccessible

/-- A word that is loaded and stored as one. -/
theorem wordOk_word {index address : ℕ} (hend : index + word ≤ bytes)
    (hsource : (source + index) % word = 0) (haddress : address % word = 0)
    (htarget : ∀ k < word, target (index + k) = address + k) :
    WordOk source bytes target accessible word index [.word word index address] := by
  refine wordOk_singleton rfl hend htarget ⟨hsource, hend, haddress, fun k hk => ?_⟩
  rw [← htarget k hk]
  exact haccessible _ (by omega)

/-- A word that is loaded as one and stored byte by byte. -/
theorem wordOk_unpacked {index : ℕ} (hend : index + word ≤ bytes)
    (hsource : (source + index) % word = 0)
    (hscalar : ∀ i < bytes, scalar i = .store i (target i)) :
    WordOk source bytes target accessible word index
      (.load word index :: (List.range word).map fun k => scalar (index + k)) := by
  have hmem : ∀ a ∈ (List.range word).map fun k => scalar (index + k),
      ∃ i < bytes, a = .store i (target i) := by
    intro a ha
    obtain ⟨k, hk, rfl⟩ := mem_map.mp ha
    rw [mem_range] at hk
    exact ⟨index + k, by omega, hscalar _ (by omega)⟩
  refine ⟨fun k hk => ⟨scalar (index + k), ?_, ?_⟩, fun a ha w hw => ?_, fun a ha => ?_⟩
  · exact mem_cons_of_mem _ (mem_map.mpr ⟨k, mem_range.mpr hk, rfl⟩)
  · rw [hscalar _ (by omega)]
    exact mem_singleton_self _
  · rcases mem_cons.mp ha with rfl | ha
    · cases hw
    · obtain ⟨i, hi, rfl⟩ := hmem a ha
      obtain rfl := mem_singleton.mp hw
      exact ⟨hi, rfl⟩
  · rcases mem_cons.mp ha with rfl | ha
    · exact ⟨hsource, hend⟩
    · obtain ⟨i, hi, rfl⟩ := hmem a ha
      exact ⟨hi, haccessible i hi⟩

/-- A word that is stored byte by byte. -/
theorem wordOk_stores {index address : ℕ} (hend : index + word ≤ bytes)
    (htarget : ∀ k < word, target (index + k) = address + k) :
    WordOk source bytes target accessible word index
      ((List.range word).map fun k => .store (index + k) (address + k)) := by
  refine ⟨fun k hk => ⟨.store (index + k) (address + k), ?_, ?_⟩, fun a ha w hw => ?_,
    fun a ha => ?_⟩
  · exact mem_map.mpr ⟨k, mem_range.mpr hk, rfl⟩
  · rw [htarget k hk]
    exact mem_singleton_self _
  · obtain ⟨k, hk, rfl⟩ := mem_map.mp ha
    rw [mem_range] at hk
    obtain rfl := mem_singleton.mp hw
    exact ⟨by omega, (htarget k hk).symm⟩
  · obtain ⟨k, hk, rfl⟩ := mem_map.mp ha
    rw [mem_range] at hk
    refine ⟨by omega, ?_⟩
    rw [← htarget k hk]
    exact haccessible _ (by omega)

end

/-- Words behind the prefix are aligned in the source. -/
theorem source_aligned (hdvd : word ∣ 128) (hword : 0 < word) {m : ℕ}
    (hend : sourcePrefix source bytes + m * word + word ≤ bytes) :
    (source + (sourcePrefix source bytes + m * word)) % word = 0 := by
  have haligned : (source + sourcePrefix source bytes) % 128 = 0 :=
    sourcePrefix_aligned (by omega)
  have h128 : word ∣ source + sourcePrefix source bytes :=
    dvd_trans hdvd (dvd_of_mod_eq_zero haligned)
  rw [← add_assoc]
  exact Nat.mod_eq_zero_of_dvd (Nat.dvd_add h128 (Nat.dvd_mul_left word m))

end WordBody

/-! ## Bytes -/

/-- The body of a kernel that copies bytes: a byte of the prefix, and the others in strides of the
grid. -/
def byteBody (scalar : ℕ → Access) (source bytes step thread : ℕ) : List Access :=
  let prefix' := sourcePrefix source bytes
  (if thread < prefix' then [scalar thread] else []) ++
    (strided (prefix' + thread) bytes step).map scalar

theorem scatters_byteBody {scalar : ℕ → Access} {source bytes n : ℕ} {target : ℕ → ℕ}
    {accessible : ℕ → Prop} (hn : 128 ≤ n) (haccessible : ∀ i < bytes, accessible (target i))
    (hscalar : ∀ i < bytes, scalar i = .store i (target i)) :
    Scatters n source bytes target accessible (byteBody scalar source bytes n) := by
  refine scatters_of_stores haccessible (fun i hi => ?_) fun t _ a ha => ?_
  · have hprefix := sourcePrefix_lt source bytes
    rw [← hscalar i hi]
    rcases lt_or_ge i (sourcePrefix source bytes) with hlt | hge
    · exact ⟨i, by omega, by simp [byteBody, hlt]⟩
    · obtain ⟨t, ht, j, hj, hji, hij⟩ :=
        exists_strided (w := 1) (by omega : 0 < n) one_pos hge hi
      obtain rfl : j = i := by omega
      rw [mul_one, mul_one] at hj
      refine ⟨t, ht, ?_⟩
      simp only [byteBody, mem_append]
      exact .inr (mem_map.mpr ⟨j, hj, rfl⟩)
  · have hprefix := sourcePrefix_le source bytes
    simp only [byteBody, mem_append] at ha
    rcases ha with ha | ha
    · split at ha
      · exact ⟨t, by omega, (mem_singleton.mp ha).trans (hscalar t (by omega))⟩
      · cases ha
    · obtain ⟨i, hi, rfl⟩ := mem_map.mp ha
      rw [mem_strided (by omega)] at hi
      exact ⟨i, hi.1, hscalar i hi.1⟩

/-! ## The destination -/

/-- The index of the row of the last byte. -/
def Params.lastRow (p : Params) : ℕ := (p.logicalOffset + p.bytes - 1) / p.width

/-- Where a row of the destination begins. -/
def Params.rowStart (p : Params) (row : ℕ) : ℕ := destinationAt p (row * p.width)

/-- The rows of the destination are accessible through their stride, up to the last one that is
copied, of which only the useful bytes are. -/
def Params.Accessible (p : Params) (a : ℕ) : Prop :=
  ∃ row ≤ p.lastRow, p.rowStart row ≤ a ∧
    a < p.rowStart row + if row < p.lastRow then max p.width p.destinationRowStride else p.width

section

variable (hwidth : 0 < p.width) (hrows : 0 < p.rows)
include hwidth hrows

theorem rowStart_eq (row : ℕ) :
    p.rowStart row = p.destination + row / p.rows * p.destinationSliceStride +
      row % p.rows * p.destinationRowStride := by
  have hzero : destinationAt p ((row / p.rows * p.rows + row % p.rows) * p.width + 0) =
      p.destination + row / p.rows * p.destinationSliceStride +
        row % p.rows * p.destinationRowStride + 0 :=
    destinationAt_eq hwidth (mod_lt row hrows)
  rwa [div_add_mod', add_zero, add_zero] at hzero

/-- A byte of a row is at its offset from where the row begins. -/
theorem destinationAt_row (row : ℕ) {x : ℕ} (hx : x < p.width) :
    destinationAt p (row * p.width + x) = p.rowStart row + x := by
  have hrow := mod_lt row hrows
  rw [rowStart_eq hwidth hrows, ← destinationAt_eq hx hrow, div_add_mod']

theorem accessible_destinationAt :
    ∀ i < p.bytes, p.Accessible (destinationAt p (p.logicalOffset + i)) := by
  intro i hi
  have hx := mod_lt (p.logicalOffset + i) hwidth
  have haddress := destinationAt_row hwidth hrows ((p.logicalOffset + i) / p.width) hx
  rw [div_add_mod'] at haddress
  refine ⟨(p.logicalOffset + i) / p.width, (row_mem hi).2, ?_, ?_⟩
  · rw [haddress]
    exact le_add_right _ _
  · rw [haddress]
    split
    · exact Nat.add_lt_add_left (Nat.lt_of_lt_of_le hx (Nat.le_max_left _ _)) _
    · exact Nat.add_lt_add_left hx _

end

/-! ## Fragments -/

/-- The accesses of `n` threads scatter the fragment. -/
abbrev Params.ScatteredBy (p : Params) (n : ℕ) (body : ℕ → List Access) : Prop :=
  Scatters n p.source p.bytes (fun i => destinationAt p (p.logicalOffset + i)) p.Accessible body

/-- The accesses of `n` threads scatter the fragment, and the threads copy it in every run. -/
structure Params.CopiedBy (p : Params) (n : ℕ) (body : ℕ → List Access) : Prop where
  accesses : p.ScatteredBy n body
  runs : ∀ (data memory : ℕ → UInt8) (ts : List (Fin n)) (g : Grid (Fin n) ℕ UInt8),
    exec Grid.step (grid n body data memory) ts = some g →
      Copies n p.bytes (fun i => destinationAt p (p.logicalOffset + i)) body data memory ts g

theorem Params.copiedBy_iff {n : ℕ} {body : ℕ → List Access} :
    p.CopiedBy n body ↔ p.ScatteredBy n body :=
  ⟨Params.CopiedBy.accesses, fun h => ⟨h, fun _ _ _ _ hrun => h.copies hrun⟩⟩

end Lupine.Smemcpy
