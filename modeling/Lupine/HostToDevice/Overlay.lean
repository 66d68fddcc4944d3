import Lupine.DeviceToHost.Pitched
import Lupine.HostToDevice.Exactness
import Mathlib.Order.Interval.Finset.Nat

/-!
# Undelivered copies over pulled bytes

A device-to-host copy that a stream has executed reaches client memory only at the next
synchronization. A host-to-device copy that is queued behind it must see its bytes, and they are
still on the server: `fetch` lays the undelivered copies over the bytes of the fragment in the
staging ring (`lupine_overlay_undelivered_dtoh`), in the order in which they were executed. When
one of them covers the whole fragment the client is not asked; otherwise the client's bytes are
read into the ring and the copies are laid over them again.

The rows of an undelivered copy and the rows of the host-to-device copy are unrelated patterns of
client addresses. They are intersected part of a row by row, and the bytes that were laid over are
counted.

* `undelivered_eq_latest`: the list holds the executed copies that were neither delivered nor
  executed again, in the order of execution.
* `mem_copyWrites`: what one undelivered copy writes into the ring.
* `fetch_overlays`: after `fetch`, a byte of the fragment is the one of the newest undelivered copy
  that covers its client address, or the client's.
-/

namespace Lupine.HostToDevice

open Foundations DeviceToHost List Nat

variable {Conn Staging CuArray Byte : Type}

/-! ## The list of undelivered copies -/

/-- `lupine_undelivered_dtoh`: a copy whose bytes are in `serverSrc`. -/
structure Undelivered (Conn Staging : Type) where
  conn : Conn
  client : HostRows
  serverSrc : Staging

section List

variable [DecidableEq Staging]

/-- `lupine_forget_undelivered_dtoh`. -/
def forget (list : List (Undelivered Conn Staging)) (serverSrc : Staging) :
    List (Undelivered Conn Staging) :=
  list.filter fun u => u.serverSrc ≠ serverSrc

/-- What happens to the list. A callback that runs out of memory only forgets. -/
inductive ListEvent (Conn Staging : Type)
  /-- `lupine_dtoh_undelivered_callback`. -/
  | executed (u : Undelivered Conn Staging)
  | delivered (serverSrc : Staging)

def ListEvent.apply (list : List (Undelivered Conn Staging)) :
    ListEvent Conn Staging → List (Undelivered Conn Staging)
  | .executed u => forget list u.serverSrc ++ [u]
  | .delivered serverSrc => forget list serverSrc

/-- The staging that an event is about. -/
def ListEvent.serverSrc : ListEvent Conn Staging → Staging
  | .executed u => u.serverSrc
  | .delivered serverSrc => serverSrc

section

variable (events : List (ListEvent Conn Staging))

/-- No event is about the staging of the copy. -/
def untouched (u : Undelivered Conn Staging) : Bool :=
  events.all fun e => u.serverSrc ≠ e.serverSrc

/-- The executed copies that no later event touches, in order. -/
def latest : List (ListEvent Conn Staging) → List (Undelivered Conn Staging)
  | [] => []
  | .executed u :: later => if untouched later u then u :: latest later else latest later
  | .delivered _ :: later => latest later

theorem filter_forget (list : List (Undelivered Conn Staging)) (e : ListEvent Conn Staging) :
    (forget list e.serverSrc).filter (untouched events) =
      list.filter (untouched (e :: events)) := by
  rw [forget, filter_filter]
  refine filter_congr fun u _ => ?_
  rw [untouched, untouched, all_cons, Bool.and_comm]

theorem foldl_apply (list : List (Undelivered Conn Staging)) :
    events.foldl ListEvent.apply list = list.filter (untouched events) ++ latest events := by
  induction events generalizing list with
  | nil => exact ((append_nil _).trans (filter_eq_self.2 fun _ _ => rfl)).symm
  | cons e later ih =>
    rw [foldl_cons, ih, ← filter_forget]
    cases e with
    | executed u =>
      rw [ListEvent.apply, filter_append, append_assoc]
      congr 1
      by_cases hu : untouched later u
      · simp [latest, hu]
      · simp [latest, hu]
    | delivered serverSrc => rfl

/-- **The list.** It holds the copies that were executed and then neither delivered nor executed
again, in the order of execution. -/
theorem undelivered_eq_latest : events.foldl ListEvent.apply [] = latest events := by
  rw [foldl_apply, filter_nil, nil_append]

end

end List

/-! ## Overlay -/

/-- A part of a row of the fragment: its offset, its client address and its length. -/
structure Part where
  offset : ℕ
  start : ℕ
  bytes : ℕ

section Loops

variable (copy : Copy CuArray) (fragment : Fragment) (ring : ℕ) (rows : HostRows) (data : ℕ → Byte)

/-- The part of the fragment at an offset. -/
def part (offset : ℕ) : Part :=
  let p := position copy.smemcpy.width copy.smemcpy.rows offset
  ⟨offset, copy.source + p.slice * copy.sourceSliceStride + p.row * copy.sourceRowStride + p.x,
    min (fragment.logicalOffset + fragment.bytes - offset) (copy.smemcpy.width - p.x)⟩

/-- The loop over the parts of a fragment. -/
def parts : List Part :=
  pieces (part copy fragment) Part.bytes (fragment.logicalOffset + fragment.bytes) fragment.bytes
    fragment.logicalOffset

def memcpy (memory : ℕ → Byte) (dst : ℕ) (src : ℕ → Byte) (n : ℕ) : ℕ → Byte :=
  store memory ((List.range n).map fun i => (dst + i, src i))

/-- Lay a row of an undelivered copy with the bytes `data` over a part of the fragment, whose ring
range starts at `ring`. The state is the memory and `covered_bytes`. -/
def overlayRow (p : Part) (s : (ℕ → Byte) × ℕ) (index : ℕ) : (ℕ → Byte) × ℕ :=
  let row := rows.row index
  let lo := max p.start row
  let hi := min (p.start + p.bytes) (row + rows.width)
  if lo < hi then
    (memcpy s.1 (ring + (p.offset - fragment.logicalOffset) + (lo - p.start))
      (fun i => data (index * rows.width + (lo - row) + i)) (hi - lo), s.2 + (hi - lo))
  else s

/-- Lay an undelivered copy over the fragment. -/
def overlayCopy (memory : ℕ → Byte) : (ℕ → Byte) × ℕ :=
  (parts copy fragment).foldl (fun s p =>
    (List.range (rows.height * rows.depth)).foldl (overlayRow fragment ring rows data p) s)
    (memory, 0)

end Loops

/-- The undelivered copies and the bytes that they staged. -/
structure Deliveries (Conn Staging Byte : Type) where
  list : List (Undelivered Conn Staging)
  staging : Staging → ℕ → Byte

section Connection

variable [DecidableEq Conn]

/-- `lupine_overlay_undelivered_dtoh`: the memory after it, and whether one copy covered all of the
fragment. -/
def overlayUndelivered (conn : Conn) (copy : Copy CuArray) (fragment : Fragment) (ring : ℕ)
    (deliveries : Deliveries Conn Staging Byte) (memory : ℕ → Byte) : (ℕ → Byte) × Bool :=
  deliveries.list.foldl (fun s u =>
    if u.conn ≠ conn then s
    else
      let o := overlayCopy copy fragment ring u.client (deliveries.staging u.serverSrc) s.1
      (o.1, s.2 || o.2 = fragment.bytes)) (memory, false)

/-- What `fetch` returns, whether it did not ask the client, and the memory after it. -/
structure Fetched (Byte : Type) where
  ok : Bool
  skipped : Bool
  memory : ℕ → Byte

/-- `lupine_htod_side_effect_ring::fetch`. The connection may fail after `cut` bytes of the
client's answer. The list may change between its two readings. -/
def fetch (conn : Conn) (copy : Copy CuArray) (fragment : Fragment) (client : Client Byte)
    (cut : Option ℕ) (first second : Deliveries Conn Staging Byte) (memory : ℕ → Byte) :
    Fetched Byte :=
  let ring := ringOffset copy fragment.logicalOffset
  let o := overlayUndelivered conn copy fragment ring first memory
  if o.2 then ⟨true, true, o.1⟩
  else
    let answer := client.readHostMemory (copy.hostRead fragment)
    match cut with
    | some n => ⟨false, false, store o.1 (landed ring (answer.take n))⟩
    | none =>
      ⟨true, false,
        (overlayUndelivered conn copy fragment ring second (store o.1 (landed ring answer))).1⟩

end Connection

/-! ## What one copy writes -/

section Copies

variable (copy : Copy CuArray) (fragment : Fragment) (ring : ℕ) (rows : HostRows) (data : ℕ → Byte)

/-- The bytes that a row of an undelivered copy puts over a part of the fragment. -/
def rowWrites (p : Part) (index : ℕ) : List (ℕ × Byte) :=
  let row := rows.row index
  let lo := max p.start row
  let hi := min (p.start + p.bytes) (row + rows.width)
  (List.range (hi - lo)).map fun i =>
    (ring + (p.offset - fragment.logicalOffset) + (lo - p.start) + i,
      data (index * rows.width + (lo - row) + i))

/-- The bytes that an undelivered copy puts over the fragment. -/
def copyWrites : List (ℕ × Byte) :=
  (parts copy fragment).flatMap fun p =>
    (List.range (rows.height * rows.depth)).flatMap (rowWrites fragment ring rows data p)

/-- A loop that stores and counts. -/
theorem foldl_store {α : Type} {w : α → List (ℕ × Byte)}
    {step : (ℕ → Byte) × ℕ → α → (ℕ → Byte) × ℕ}
    (hstep : ∀ s a, step s a = (store s.1 (w a), s.2 + (w a).length)) (items : List α)
    (s : (ℕ → Byte) × ℕ) :
    items.foldl step s = (store s.1 (items.flatMap w), s.2 + (items.flatMap w).length) := by
  induction items generalizing s with
  | nil => rfl
  | cons a items ih =>
    rw [foldl_cons, ih, hstep, flatMap_cons, store_append, length_append, add_assoc]

theorem overlayRow_eq (p : Part) (s : (ℕ → Byte) × ℕ) (index : ℕ) :
    overlayRow fragment ring rows data p s index =
      (store s.1 (rowWrites fragment ring rows data p index),
        s.2 + (rowWrites fragment ring rows data p index).length) := by
  simp only [overlayRow, rowWrites, length_map, length_range]
  split
  · rfl
  · next h =>
    rw [Nat.sub_eq_zero_of_le (Nat.le_of_not_lt h)]
    rfl

theorem overlayCopy_eq (memory : ℕ → Byte) :
    overlayCopy copy fragment ring rows data memory =
      (store memory (copyWrites copy fragment ring rows data),
        (copyWrites copy fragment ring rows data).length) := by
  rw [overlayCopy,
    foldl_store (fun s p => foldl_store (overlayRow_eq fragment ring rows data p) _ s),
    zero_add]
  rfl

/-- The row `index` has a byte at the address. -/
def Covers (rows : HostRows) (index a : ℕ) : Prop :=
  rows.row index ≤ a ∧ a < rows.row index + rows.width

instance (rows : HostRows) (index a : ℕ) : Decidable (Covers rows index a) :=
  inferInstanceAs (Decidable (_ ∧ _))

variable {copy fragment ring rows data}

theorem mem_rowWrites {p : Part} {index : ℕ} {w : ℕ × Byte} :
    w ∈ rowWrites fragment ring rows data p index ↔
      ∃ t < p.bytes, Covers rows index (p.start + t) ∧
        w = (ring + (p.offset - fragment.logicalOffset) + t,
          data (index * rows.width + (p.start + t - rows.row index))) := by
  simp only [rowWrites, mem_map, mem_range, Covers]
  constructor
  · rintro ⟨i, hi, rfl⟩
    refine ⟨max p.start (rows.row index) - p.start + i, by omega, by omega, ?_⟩
    exact Prod.ext (by dsimp only; omega) (congrArg data (by omega))
  · rintro ⟨t, ht, hcovers, rfl⟩
    refine ⟨p.start + t - max p.start (rows.row index), by omega, ?_⟩
    exact Prod.ext (by dsimp only; omega) (congrArg data (by omega))

/-- The bytes of an undelivered copy at a client address. -/
def Provides (rows : HostRows) (data : ℕ → Byte) (a : ℕ) (byte : Byte) : Prop :=
  ∃ index < rows.height * rows.depth, Covers rows index a ∧
    byte = data (index * rows.width + (a - rows.row index))

/-- The rows of a copy do not overlap each other. -/
def RowsApart (rows : HostRows) : Prop :=
  ∀ i < rows.height * rows.depth, ∀ j < rows.height * rows.depth, ∀ a,
    Covers rows i a → Covers rows j a → i = j

theorem nodup_partPositions (hrows : RowsApart rows) (p : Part) :
    (((List.range (rows.height * rows.depth)).flatMap
      (rowWrites fragment ring rows data p)).map Prod.fst).Nodup := by
  rw [map_flatMap]
  refine nodup_flatMap.2 ⟨fun index _ => ?_, ?_⟩
  · simp only [rowWrites, map_map]
    exact nodup_range.map fun i j hij => by
      simpa using hij
  · refine nodup_range.imp_of_mem fun {i j} hi hj hij => ?_
    intro q hqi hqj
    obtain ⟨w, hw, rfl⟩ := mem_map.1 hqi
    obtain ⟨v, hv, hvw⟩ := mem_map.1 hqj
    obtain ⟨t, -, hcovers, rfl⟩ := mem_rowWrites.1 hw
    obtain ⟨u, -, hcovers', rfl⟩ := mem_rowWrites.1 hv
    obtain rfl : u = t := add_left_cancel hvw
    exact hij (hrows i (mem_range.1 hi) j (mem_range.1 hj) _ hcovers hcovers')

/-- The byte that an undelivered copy has for a client address. -/
def byteAt (rows : HostRows) (data : ℕ → Byte) (a : ℕ) : Option Byte :=
  ((List.range (rows.height * rows.depth)).find? fun index => Covers rows index a).map
    fun index => data (index * rows.width + (a - rows.row index))

theorem provides_of_byteAt {a : ℕ} {byte : Byte} (h : byteAt rows data a = some byte) :
    Provides rows data a byte := by
  obtain ⟨index, hfind, rfl⟩ := Option.map_eq_some_iff.1 h
  have hcovers := List.find?_some hfind
  exact ⟨index, mem_range.1 (mem_of_find?_eq_some hfind), by simpa using hcovers, rfl⟩

/-- The byte is the only one, when the rows do not overlap. -/
theorem byteAt_of_provides (hrows : RowsApart rows) {a : ℕ} {byte : Byte}
    (h : Provides rows data a byte) : byteAt rows data a = some byte := by
  obtain ⟨index, hindex, hcovers, rfl⟩ := h
  cases hbyte : byteAt rows data a with
  | none =>
    have hnone := List.find?_eq_none.1 (Option.map_eq_none_iff.1 hbyte) index (mem_range.2 hindex)
    exact absurd hcovers (by simpa using hnone)
  | some byte =>
    obtain ⟨index', hindex', hcovers', rfl⟩ := provides_of_byteAt hbyte
    rw [hrows index hindex index' hindex' a hcovers hcovers']

section Parts

variable (h : copy.Shaped) (hstop : fragment.logicalOffset + fragment.bytes ≤ copy.bytes)

include h hstop

/-- The parts of a fragment are parts of rows: their bytes have consecutive addresses. -/
theorem part_spec {o : ℕ} (ho : o < fragment.logicalOffset + fragment.bytes) :
    0 < (part copy fragment o).bytes ∧
    o + (part copy fragment o).bytes ≤ fragment.logicalOffset + fragment.bytes ∧
    ∀ t < (part copy fragment o).bytes,
      copy.sourceAt (o + t) = (part copy fragment o).start + t := by
  obtain ⟨hwidth, hrows⟩ := h.pos (show o < copy.bytes by omega)
  obtain ⟨x, hx, row, hrow, slice, heq⟩ := offset_eq hwidth hrows o
  have hposition : position copy.smemcpy.width copy.smemcpy.rows o = ⟨x, row, slice⟩ := by
    rw [heq]
    exact position_eq hx hrow
  simp only [part, hposition]
  refine ⟨by omega, by omega, fun t ht => ?_⟩
  exact Copy.sourceAt_add (by omega) hrow heq

theorem parts_cut :
    Cuts (part copy fragment) Part.bytes (fragment.logicalOffset + fragment.bytes) :=
  fun _ ho => ⟨(part_spec h hstop ho).1, (part_spec h hstop ho).2.1⟩

/-- The write for the byte at an offset of the copy. -/
def WriteAt (copy : Copy CuArray) (fragment : Fragment) (ring : ℕ) (rows : HostRows)
    (data : ℕ → Byte) (o : ℕ) (w : ℕ × Byte) : Prop :=
  w.1 = ring + (o - fragment.logicalOffset) ∧ Provides rows data (copy.sourceAt o) w.2

theorem mem_partWrites {o : ℕ}
    (hfirst : fragment.logicalOffset ≤ o) (ho : o < fragment.logicalOffset + fragment.bytes)
    (w : ℕ × Byte) :
    w ∈ (List.range (rows.height * rows.depth)).flatMap
        (rowWrites fragment ring rows data (part copy fragment o)) ↔
      ∃ p, o ≤ p ∧ p < o + (part copy fragment o).bytes ∧
        WriteAt copy fragment ring rows data p w := by
  obtain ⟨-, -, haddress⟩ := part_spec h hstop ho
  simp only [mem_flatMap, mem_range, mem_rowWrites]
  constructor
  · rintro ⟨index, hindex, t, ht, hcovers, rfl⟩
    refine ⟨o + t, by omega, by omega, ?_, index, hindex, ?_⟩
    · change ring + (o - fragment.logicalOffset) + t = _
      omega
    · rw [haddress t ht]
      exact ⟨hcovers, rfl⟩
  · rintro ⟨p, hp, hp', hw, index, hindex, hcovers, hbyte⟩
    obtain ⟨t, rfl⟩ : ∃ t, p = o + t := ⟨p - o, by omega⟩
    have ht : t < (part copy fragment o).bytes := by omega
    rw [haddress t ht] at hcovers hbyte
    refine ⟨index, hindex, t, ht, hcovers, Prod.ext ?_ hbyte⟩
    change _ = ring + (o - fragment.logicalOffset) + t
    omega

/-- **What one copy writes.** For each byte of the fragment whose client address it covers, its
own byte at that address, and nothing else. -/
theorem mem_copyWrites (w : ℕ × Byte) :
    w ∈ copyWrites copy fragment ring rows data ↔
      ∃ p, fragment.logicalOffset ≤ p ∧ p < fragment.logicalOffset + fragment.bytes ∧
        WriteAt copy fragment ring rows data p w :=
  mem_flatMap_pieces (parts_cut h hstop)
    (fun _ hfirst ho w => mem_partWrites h hstop hfirst ho w) (le_refl _) (le_refl _)

/-- A copy writes no byte outside of the fragment's ring range. -/
theorem copyWrites_range {w : ℕ × Byte}
    (hw : w ∈ copyWrites copy fragment ring rows data) :
    ring ≤ w.1 ∧ w.1 < ring + fragment.bytes := by
  obtain ⟨p, hp, hp', hposition, -⟩ := (mem_copyWrites h hstop w).1 hw
  omega

variable (hrows : RowsApart rows)

include hrows

/-- A copy whose rows do not overlap writes no byte twice. -/
theorem nodup_positions :
    ((copyWrites copy fragment ring rows data).map Prod.fst).Nodup := by
  rw [copyWrites, map_flatMap]
  refine nodup_flatMap_pieces (parts_cut h hstop)
    (P := fun o q => fragment.logicalOffset ≤ o ∧
      ∃ byte, WriteAt copy fragment ring rows data o (q, byte))
    ?_ ?_ (fun o _ _ => nodup_partPositions hrows _) (le_refl _) (le_refl _)
  · intro o hfirst ho q
    simp only [mem_map, mem_partWrites h hstop hfirst ho]
    constructor
    · rintro ⟨w, ⟨p, hp, hp', hw⟩, rfl⟩
      exact ⟨p, hp, hp', by omega, w.2, hw⟩
    · rintro ⟨p, hp, hp', -, byte, hw⟩
      exact ⟨(q, byte), ⟨p, hp, hp', hw⟩, rfl⟩
  · rintro o o' q ⟨ho, byte, hq, -⟩ ⟨ho', byte', hq', -⟩
    omega

/-- A copy that writes as many bytes as the fragment has covers each of them. -/
theorem covers_of_length
    (hlength : (copyWrites copy fragment ring rows data).length = fragment.bytes) {j : ℕ}
    (hj : j < fragment.bytes) :
    ∃ byte, Provides rows data (copy.sourceAt (fragment.logicalOffset + j)) byte := by
  let positions := ((copyWrites copy fragment ring rows data).map Prod.fst).toFinset
  have hsubset : positions ⊆ Finset.Ico ring (ring + fragment.bytes) := by
    intro q hq
    obtain ⟨w, hw, rfl⟩ := mem_map.1 (mem_toFinset.1 hq)
    exact Finset.mem_Ico.2 (copyWrites_range h hstop hw)
  have hcard : positions.card = fragment.bytes := by
    rw [toFinset_card_of_nodup (nodup_positions h hstop hrows), length_map, hlength]
  have hall : positions = Finset.Ico ring (ring + fragment.bytes) :=
    Finset.eq_of_subset_of_card_le hsubset (by rw [hcard, card_Ico]; omega)
  have hmem : ring + j ∈ positions := hall ▸ Finset.mem_Ico.2 ⟨by omega, by omega⟩
  obtain ⟨w, hw, hposition⟩ := mem_map.1 (mem_toFinset.1 hmem)
  obtain ⟨p, hp, hp', hwrite, hbyte⟩ := (mem_copyWrites h hstop w).1 hw
  obtain rfl : p = fragment.logicalOffset + j := by omega
  exact ⟨w.2, hbyte⟩

/-- The ring after one copy was laid over it. -/
theorem store_copyWrites (memory : ℕ → Byte) {j : ℕ} (hj : j < fragment.bytes) :
    store memory (copyWrites copy fragment ring rows data) (ring + j) =
      (byteAt rows data (copy.sourceAt (fragment.logicalOffset + j))).getD (memory (ring + j)) := by
  have hwrite (byte : Byte) : (ring + j, byte) ∈ copyWrites copy fragment ring rows data ↔
      Provides rows data (copy.sourceAt (fragment.logicalOffset + j)) byte := by
    rw [mem_copyWrites h hstop]
    constructor
    · rintro ⟨p, hp, hp', hposition, hbyte⟩
      obtain rfl : p = fragment.logicalOffset + j := by
        omega
      exact hbyte
    · intro hbyte
      exact ⟨_, le_add_right _ _, by omega, by dsimp only; omega, hbyte⟩
  obtain ⟨hnone, hsame⟩ | hmem :=
    store_apply memory (copyWrites copy fragment ring rows data) (ring + j)
  · rw [hsame]
    cases hbyte : byteAt rows data (copy.sourceAt (fragment.logicalOffset + j)) with
    | none => rfl
    | some byte => exact absurd rfl (hnone _ ((hwrite byte).2 (provides_of_byteAt hbyte)))
  · rw [byteAt_of_provides hrows ((hwrite _).1 hmem)]
    rfl

end Parts

end Copies

/-! ## The newest copy -/

section Newest

variable [DecidableEq Conn]

section

variable (conn : Conn) (deliveries : Deliveries Conn Staging Byte)

/-- The byte of the newest undelivered copy of the connection that covers the client address. -/
def Deliveries.newest (a : ℕ) : Option Byte :=
  deliveries.list.reverse.findSome? fun u =>
    if u.conn = conn then byteAt u.client (deliveries.staging u.serverSrc) a else none

/-- No copy of the connection overlaps itself. -/
def Deliveries.Apart : Prop :=
  ∀ u ∈ deliveries.list, u.conn = conn → RowsApart u.client

theorem newest_concat (list : List (Undelivered Conn Staging)) (staging : Staging → ℕ → Byte)
    (u : Undelivered Conn Staging) (a : ℕ) :
    Deliveries.newest conn ⟨list ++ [u], staging⟩ a =
      if u.conn = conn then
        (byteAt u.client (staging u.serverSrc) a).or (Deliveries.newest conn ⟨list, staging⟩ a)
      else Deliveries.newest conn ⟨list, staging⟩ a := by
  simp only [Deliveries.newest, reverse_append, reverse_cons, reverse_nil,
    nil_append, cons_append, List.findSome?_cons]
  by_cases hconn : u.conn = conn
  · rw [if_pos hconn, if_pos hconn]
    cases byteAt u.client (staging u.serverSrc) a <;> rfl
  · rw [if_neg hconn, if_neg hconn]

theorem overlayUndelivered_concat (copy : Copy CuArray) (fragment : Fragment) (ring : ℕ)
    (list : List (Undelivered Conn Staging)) (staging : Staging → ℕ → Byte)
    (u : Undelivered Conn Staging) (memory : ℕ → Byte) :
    overlayUndelivered conn copy fragment ring ⟨list ++ [u], staging⟩ memory =
      let s := overlayUndelivered conn copy fragment ring ⟨list, staging⟩ memory
      if u.conn = conn then
        let writes := copyWrites copy fragment ring u.client (staging u.serverSrc)
        (store s.1 writes, s.2 || writes.length = fragment.bytes)
      else s := by
  simp only [overlayUndelivered, foldl_append, foldl_cons, foldl_nil,
    overlayCopy_eq, ne_eq, ite_not]

end

/-- **The overlay.** A byte of the fragment is the one of the newest copy that covers it, or what it
was; nothing else changes; and when all is reported covered, it is. -/
theorem overlayUndelivered_spec {copy : Copy CuArray} {fragment : Fragment} (h : copy.Shaped)
    (hstop : fragment.logicalOffset + fragment.bytes ≤ copy.bytes) {conn : Conn} (ring : ℕ)
    {deliveries : Deliveries Conn Staging Byte} (hapart : deliveries.Apart conn)
    (memory : ℕ → Byte) :
    (∀ j < fragment.bytes,
      (overlayUndelivered conn copy fragment ring deliveries memory).1 (ring + j) =
        (deliveries.newest conn (copy.sourceAt (fragment.logicalOffset + j))).getD
          (memory (ring + j))) ∧
    (∀ p, p < ring ∨ ring + fragment.bytes ≤ p →
      (overlayUndelivered conn copy fragment ring deliveries memory).1 p = memory p) ∧
    ((overlayUndelivered conn copy fragment ring deliveries memory).2 = true →
      ∀ j < fragment.bytes,
        (deliveries.newest conn (copy.sourceAt (fragment.logicalOffset + j))).isSome) := by
  obtain ⟨list, staging⟩ := deliveries
  -- The copy that was executed last is laid over the others.
  induction list using List.reverseRecOn with
  | nil => exact ⟨fun _ _ => rfl, fun _ _ => rfl, fun h => (nomatch h)⟩
  | append_singleton list u ih =>
    obtain ⟨hbytes, houtside, hcovered⟩ :=
      ih fun v hv hconn => hapart v (mem_append_left _ hv) hconn
    simp only [newest_concat, overlayUndelivered_concat]
    by_cases hconn : u.conn = conn
    · have hrows : RowsApart u.client := hapart u (by simp) hconn
      simp only [if_pos hconn]
      refine ⟨fun j hj => ?_, fun p hp => ?_, fun hall j hj => ?_⟩
      · rw [store_copyWrites h hstop hrows _ hj, hbytes j hj]
        cases byteAt u.client (staging u.serverSrc)
          (copy.sourceAt (fragment.logicalOffset + j)) <;> rfl
      · obtain ⟨-, hsame⟩ | hmem := store_apply
          (overlayUndelivered conn copy fragment ring ⟨list, staging⟩ memory).1
          (copyWrites copy fragment ring u.client (staging u.serverSrc)) p
        · rw [hsame, houtside p hp]
        · have hrange := copyWrites_range h hstop hmem
          omega
      · rw [Bool.or_eq_true, decide_eq_true_iff] at hall
        rw [Option.isSome_or, Bool.or_eq_true]
        obtain hall | hlength := hall
        · exact .inr (hcovered hall j hj)
        · obtain ⟨byte, hbyte⟩ := covers_of_length h hstop hrows hlength hj
          rw [byteAt_of_provides hrows hbyte]
          exact .inl rfl
    · simp only [if_neg hconn]
      exact ⟨hbytes, houtside, hcovered⟩

end Newest

/-! ## Fetching a fragment -/

section Fetch

variable [DecidableEq Conn] {copy : Copy CuArray} {fragment : Fragment}

/-- The client's answer to a fragment of any size. -/
theorem readHostMemory_eq (h : copy.Shaped)
    (hstop : fragment.logicalOffset + fragment.bytes ≤ copy.bytes) {client : Client Byte}
    (hhost : client.crossRoute (copy.source + fragment.logicalOffset) = false) :
    client.readHostMemory (copy.hostRead fragment) =
      (List.range fragment.bytes).map fun j =>
        client.memory (copy.sourceAt (fragment.logicalOffset + j)) := by
  rcases Nat.eq_zero_or_pos fragment.bytes with hzero | hpos
  · have hbytes : (copy.hostRead fragment).bytes = 0 := hzero
    rw [Client.readHostMemory, hbytes, hzero]
    split <;> rfl
  · rw [h.readHostMemory_eq ⟨rfl, hpos, le_refl _, hstop⟩ hhost, range'_eq_map_range, map_map]
    rfl

/-- Writing an answer of at most `n` bytes into the ring. -/
theorem store_landed_outside (memory : ℕ → Byte) {ring n : ℕ} {answer : List Byte}
    (hlength : answer.length ≤ n) {p : ℕ} (hp : p < ring ∨ ring + n ≤ p) :
    store memory (landed ring answer) p = memory p := by
  obtain ⟨-, hsame⟩ | hmem := store_apply memory (landed ring answer) p
  · exact hsame
  · obtain ⟨i, hi, heq⟩ := mem_mapIdx.1 hmem
    have := (Prod.mk.inj heq).1
    omega

theorem store_landed_inside (memory : ℕ → Byte) {ring n : ℕ} (f : ℕ → Byte) {j : ℕ} (hj : j < n) :
    store memory (landed ring ((List.range n).map f)) (ring + j) = f j := by
  rw [landed_map_range]
  obtain ⟨hnone, -⟩ | hmem := store_apply memory
    ((List.range n).map fun i => (ring + i, f i)) (ring + j)
  · exact absurd rfl (hnone (ring + j, f j) (mem_map.2 ⟨j, mem_range.2 hj, rfl⟩))
  · obtain ⟨i, -, heq⟩ := mem_map.1 hmem
    obtain ⟨hposition, hbyte⟩ := Prod.mk.inj heq
    rw [← hbyte, add_left_cancel hposition]

/-- **Undelivered copies overlay pulled bytes.** When `fetch` succeeds, the ring holds for every
byte of the fragment the byte of the newest undelivered copy of the connection that covers its
client address, or else the client's byte; `fetch` does without the client only when every byte is
covered, and fails only with the connection; and it writes only the fragment's ring range. -/
theorem fetch_overlays (request : Request CuArray) {fragment : Fragment}
    (hstop : fragment.logicalOffset + fragment.bytes ≤ request.total) {client : Client Byte}
    (hhost : client.crossRoute (request.copy.source + fragment.logicalOffset) = false)
    {conn : Conn} {first second : Deliveries Conn Staging Byte} (hfirst : first.Apart conn)
    (hsecond : second.Apart conn) (cut : Option ℕ) (memory : ℕ → Byte) :
    let fetched := fetch conn request.copy fragment client cut first second memory
    let ring := ringOffset request.copy fragment.logicalOffset
    (fetched.ok = true → ∀ j < fragment.bytes,
      fetched.memory (ring + j) =
        ((if fetched.skipped then first else second).newest conn
          (request.sourceAddress (fragment.logicalOffset + j))).getD
            (client.memory (request.sourceAddress (fragment.logicalOffset + j)))) ∧
    (fetched.skipped = true → ∀ j < fragment.bytes,
      (first.newest conn (request.sourceAddress (fragment.logicalOffset + j))).isSome) ∧
    (∀ p, p < ring ∨ ring + fragment.bytes ≤ p → fetched.memory p = memory p) ∧
    (cut = none → fetched.ok = true) := by
  intro fetched ring
  have hshaped := request.shaped
  have hstop' : fragment.logicalOffset + fragment.bytes ≤ request.copy.bytes := by
    rw [request.copy_bytes]
    exact hstop
  have haddress {j : ℕ} (hj : j < fragment.bytes) :
      request.copy.sourceAt (fragment.logicalOffset + j) =
        request.sourceAddress (fragment.logicalOffset + j) :=
    request.copy_sourceAt (by omega)
  obtain ⟨hbytes, houtside, hcovered⟩ := overlayUndelivered_spec hshaped hstop' ring hfirst memory
  set overlaid := overlayUndelivered conn request.copy fragment ring first memory
  by_cases hskip : overlaid.2 = true
  · have hfetched : fetched = ⟨true, true, overlaid.1⟩ := if_pos hskip
    rw [hfetched]
    have hsome : ∀ j < fragment.bytes,
        (first.newest conn (request.sourceAddress (fragment.logicalOffset + j))).isSome := by
      intro j hj
      rw [← haddress hj]
      exact hcovered hskip j hj
    refine ⟨fun _ j hj => ?_, fun _ => hsome, houtside, fun _ => rfl⟩
    obtain ⟨byte, hbyte⟩ := Option.isSome_iff_exists.1 (hsome j hj)
    simp only [hbytes j hj, haddress hj, hbyte, if_true, Option.getD_some]
  · have hanswer := readHostMemory_eq hshaped hstop' hhost
    set answer := client.readHostMemory (request.copy.hostRead fragment)
    cases cut with
    | some n =>
      have hfetched : fetched = ⟨false, false, store overlaid.1 (landed ring (answer.take n))⟩ :=
        if_neg hskip
      rw [hfetched]
      refine ⟨fun h => (nomatch h), fun h => (nomatch h), fun p hp => ?_, fun h => (nomatch h)⟩
      have hlength : (answer.take n).length ≤ fragment.bytes := by
        rw [hanswer, length_take, length_map, length_range]
        exact min_le_right _ _
      exact (store_landed_outside _ hlength hp).trans (houtside p hp)
    | none =>
      have hfetched : fetched = ⟨true, false, (overlayUndelivered conn request.copy fragment ring
          second (store overlaid.1 (landed ring answer))).1⟩ := if_neg hskip
      obtain ⟨hbytes₂, houtside₂, -⟩ := overlayUndelivered_spec hshaped hstop' ring hsecond
        (store overlaid.1 (landed ring answer))
      rw [hfetched]
      refine ⟨fun _ j hj => ?_, fun h => (nomatch h), fun p hp => ?_, fun _ => rfl⟩
      · simp only [Bool.false_eq_true, if_false]
        rw [hbytes₂ j hj, hanswer, store_landed_inside _ _ hj, haddress hj]
      · have hlength : answer.length ≤ fragment.bytes := by
          rw [hanswer, length_map, length_range]
        exact (houtside₂ p hp).trans ((store_landed_outside _ hlength hp).trans (houtside p hp))

end Fetch

theorem rowsApart_of_single {rows : HostRows} (h : rows.height * rows.depth = 1) :
    RowsApart rows := by
  intro i hi j hj a _ _
  omega

/-- Two copies of two and three bytes, the second one executed later. -/
def twoDeliveries : Deliveries Unit ℕ ℕ where
  list := [⟨(), ⟨101, 2, 1, 0, 1, 0⟩, 0⟩, ⟨(), ⟨102, 3, 1, 0, 1, 0⟩, 1⟩]
  staging s i := 10 * (s + 1) + i

theorem twoDeliveries_apart : twoDeliveries.Apart () := by
  intro u hu _
  simp only [twoDeliveries, mem_cons, not_mem_nil, or_false] at hu
  obtain rfl | rfl := hu
  · exact rowsApart_of_single rfl
  · exact rowsApart_of_single rfl

/-- Four bytes at address 100. -/
def fourBytes : Request Unit := .linear 0 100 4

/-- All of them in one fragment. -/
def fourFragment : Fragment := ⟨0, 4, 0, 0, 0, 4, 1, 1⟩

/-- A client whose bytes are their addresses. -/
def addressClient : Client ℕ := ⟨fun a => a, fun _ => false⟩

def fetchFour : Fetched ℕ :=
  fetch () fourBytes.copy fourFragment addressClient none twoDeliveries twoDeliveries fun _ => 0

/-- The client's byte, one of the first copy, and two of the second. -/
theorem fetch_overlays_of_two_copies :
    fetchFour.memory 0 = 100 ∧ fetchFour.memory 1 = 10 ∧ fetchFour.memory 2 = 20 ∧
      fetchFour.memory 3 = 21 ∧ fetchFour.memory 4 = 0 := by
  have hstop : fourFragment.logicalOffset + fourFragment.bytes ≤ fourBytes.total := by decide
  have hhost : addressClient.crossRoute (fourBytes.copy.source + fourFragment.logicalOffset) =
      false := rfl
  obtain ⟨hbytes, -, houtside, hok⟩ := fetch_overlays fourBytes hstop hhost
    twoDeliveries_apart twoDeliveries_apart none fun _ => 0
  refine ⟨?_, ?_, ?_, ?_, ?_⟩
  · exact (hbytes (hok rfl) 0 (by decide)).trans (by decide)
  · exact (hbytes (hok rfl) 1 (by decide)).trans (by decide)
  · exact (hbytes (hok rfl) 2 (by decide)).trans (by decide)
  · exact (hbytes (hok rfl) 3 (by decide)).trans (by decide)
  · exact houtside 4 (by decide)

end Lupine.HostToDevice
