import Mathlib.Algebra.GroupWithZero.Nat
import Lupine.Foundations.Wire

/-!
# Filtering fatbins

`lupine_filter_fatbin` drops the members of a fatbin that no device of the destination server can
load. A fatbin is a header and members one after the other, each with its own header that says how
long it is. The image is not trusted: every field may be anything. A read that leaves the image is
an error of its own here.

* `filter_keeps_loadable`: the filter always returns, and if it returns an image then that is the
  fatbin of those members that some device can load. Filtering it again removes nothing.
-/

namespace Lupine.Fatbin

open Foundations List

/-! ## The container -/

variable {members : List (List UInt8)} {image : List UInt8}

/-- `LUPINE_FATBIN_MAGIC`. -/
def fatbinMagic : ℕ := 0xba55ed50

/-- `LUPINE_FATBIN_VERSION`. -/
def fatbinVersion : ℕ := 1

/-- `LUPINE_FATBIN_ENTRY_VERSION`. -/
def entryVersion : ℕ := 0x0101

/-- `LUPINE_FATBIN_ENTRY_PTX`. -/
def entryPtx : ℕ := 1

/-- `LUPINE_FATBIN_ENTRY_CUBIN`. -/
def entryCubin : ℕ := 2

/-- `sizeof(lupine_fatbin_header)`. -/
def headerBytes : ℕ := 16

/-- `sizeof(lupine_fatbin_entry)`. -/
def entryBytes : ℕ := 32

/-- An integer at an offset of some bytes. -/
def field (bytes : List UInt8) (offset width : ℕ) : ℕ := decode ((bytes.drop offset).take width)

/-- `lupine_fatbin_header`. -/
structure Header where
  magic : ℕ
  version : ℕ
  headerSize : ℕ
  filesSize : ℕ
  deriving DecidableEq

def Header.parse (bytes : List UInt8) : Header :=
  ⟨field bytes 0 4, field bytes 4 2, field bytes 6 2, field bytes 8 8⟩

def Header.bytes (header : Header) : List UInt8 :=
  encode 4 header.magic ++ encode 2 header.version ++ encode 2 header.headerSize ++
    encode 8 header.filesSize

/-- `lupine_fatbin_entry`, as far as it is read. -/
structure Entry where
  kind : ℕ
  version : ℕ
  headerSize : ℕ
  payloadSize : ℕ
  arch : ℕ
  deriving DecidableEq

def Entry.parse (bytes : List UInt8) : Entry :=
  ⟨field bytes 0 2, field bytes 2 2, field bytes 4 4, field bytes 8 8, field bytes 28 4⟩

def Entry.length (entry : Entry) : ℕ := entry.headerSize + entry.payloadSize

/-- The checks on a member that has `left` bytes at most. -/
def Entry.Valid (entry : Entry) (left : ℕ) : Prop :=
  entry.version = entryVersion ∧ ¬ entry.headerSize < entryBytes ∧ ¬ entry.headerSize > left ∧
    ¬ entry.payloadSize > left - entry.headerSize ∧ entry.arch ≠ 0 ∧
    (entry.kind = entryCubin ∨ entry.kind = entryPtx)

instance (entry : Entry) (left : ℕ) : Decidable (entry.Valid left) :=
  inferInstanceAs (Decidable (_ ∧ _ ∧ _ ∧ _ ∧ _ ∧ _))

/-- The lambda of the filter: the device can load the member. -/
def Entry.loads (entry : Entry) (device : ℕ) : Bool :=
  if entry.kind = entryPtx then entry.arch ≤ device
  else entry.arch / 10 = device / 10 ∧ entry.arch ≤ device

/-! ## The filter -/

/-- `memcpy` from the image. `none` is a read that leaves it. -/
def readAt (image : List UInt8) (offset n : ℕ) : Option (List UInt8) :=
  if offset + n ≤ image.length then some ((image.drop offset).take n) else none

/-- The place of a member in the image. -/
structure Span where
  offset : ℕ
  size : ℕ
  deriving DecidableEq

/-- The scan, from an offset on: the members to keep, or `none` if the image is not one that the
filter knows. -/
def scan (image : List UInt8) (devices : List ℕ) (start : ℕ) : Option (Option (List Span)) :=
  if start < image.length then
    if image.length - start < entryBytes then some none
    else
      match readAt image start entryBytes with
      | none => none
      | some bytes =>
        if (Entry.parse bytes).Valid (image.length - start) then
          match scan image devices (start + (Entry.parse bytes).length) with
          | some (some kept) =>
            if devices.any (Entry.parse bytes).loads then
              some (some (⟨start, (Entry.parse bytes).length⟩ :: kept))
            else some (some kept)
          | other => other
        else some none
  else some (some [])
termination_by image.length - start
decreasing_by
  rename_i hvalid
  have hsize := hvalid.2.1
  have hlength : (Entry.parse bytes).length =
    (Entry.parse bytes).headerSize + (Entry.parse bytes).payloadSize := rfl
  simp only [entryBytes] at hsize
  omega

/-- The spans one after the other. -/
def gather (image : List UInt8) : List Span → Option (List UInt8)
  | [] => some []
  | span :: spans =>
    match readAt image span.offset span.size, gather image spans with
    | some bytes, some rest => some (bytes ++ rest)
    | _, _ => none

/-- The image that is put together from the spans to keep. -/
def rebuild (image : List UInt8) (header : Header) (kept : List Span) : Option (List UInt8) :=
  let selectedSize := headerBytes + (kept.map Span.size).sum
  if kept = [] ∨ selectedSize = image.length then some []
  else (gather image kept).map
    ({ header with filesSize := selectedSize - headerBytes }.bytes ++ ·)

/-- `lupine_filter_fatbin`. An empty result means that the image is forwarded unchanged. -/
def filterFatbin (image : Option (List UInt8)) (devices : List ℕ) : Option (List UInt8) :=
  match image with
  | none => some []
  | some image =>
    if image.length < headerBytes ∨ devices = [] ∨ 0 ∈ devices then some []
    else
      match readAt image 0 headerBytes with
      | none => none
      | some bytes =>
        let header := Header.parse bytes
        if header.magic = fatbinMagic ∧ header.version = fatbinVersion ∧
            header.headerSize = headerBytes ∧ header.filesSize = image.length - headerBytes then
          match scan image devices headerBytes with
          | none => none
          | some none => some []
          | some (some kept) => rebuild image header kept
        else some []

/-! ## What the filter is for -/

/-- The bytes of a member: its header says how long it is. -/
structure IsMember (bytes : List UInt8) : Prop where
  valid : (Entry.parse (bytes.take entryBytes)).Valid bytes.length
  length : (Entry.parse (bytes.take entryBytes)).length = bytes.length

/-- The image is a fatbin with these members. -/
structure IsFatbin (image : List UInt8) (members : List (List UInt8)) : Prop where
  magic : (Header.parse (image.take headerBytes)).magic = fatbinMagic
  version : (Header.parse (image.take headerBytes)).version = fatbinVersion
  headerSize : (Header.parse (image.take headerBytes)).headerSize = headerBytes
  filesSize : (Header.parse (image.take headerBytes)).filesSize = members.flatten.length
  length : image.length = headerBytes + members.flatten.length
  contents : image.drop headerBytes = members.flatten
  isMember : ∀ member ∈ members, IsMember member

/-- A device can load a member. -/
def loads (device : ℕ) (member : List UInt8) : Bool :=
  (Entry.parse (member.take entryBytes)).loads device

section

variable (devices : List ℕ)

/-- Some device can load it. -/
def loadable (member : List UInt8) : Bool := devices.any (loads · member)

/-- What is sent: the image itself if the filter returns nothing. -/
def forwarded (image filtered : List UInt8) : List UInt8 :=
  if filtered = [] then image else filtered

/-- The result of the filter. -/
structure Keeps (image filtered : List UInt8) (devices : List ℕ) (members : List (List UInt8)) :
    Prop where
  input : IsFatbin image members
  unique : ∀ members', IsFatbin image members' → members' = members
  output : IsFatbin filtered (members.filter (loadable devices))
  unchanged : ∀ device ∈ devices,
    (members.filter (loadable devices)).filter (loads device) =
      members.filter (loads device)
  stable : ∃ again, filterFatbin (some filtered) devices = some again ∧
    forwarded filtered again = filtered

/-! ## Members -/

theorem IsMember.entryBytes_le {bytes : List UInt8} (h : IsMember bytes) :
    entryBytes ≤ bytes.length :=
  (not_lt.mp h.valid.2.1).trans (not_lt.mp h.valid.2.2.1)

/-- What follows a member does not matter. -/
theorem IsMember.take_append {bytes : List UInt8} (h : IsMember bytes) (rest : List UInt8) :
    (bytes ++ rest).take entryBytes = bytes.take entryBytes :=
  take_append_of_le_length h.entryBytes_le

/-- A member can be told from the bytes that it starts. -/
theorem IsMember.eq_of_append {bytes bytes' rest rest' : List UInt8} (h : IsMember bytes)
    (h' : IsMember bytes') (heq : bytes ++ rest = bytes' ++ rest') :
    bytes = bytes' ∧ rest = rest' := by
  have hlength : bytes.length = bytes'.length := by
    rw [← h.length, ← h'.length, ← h.take_append rest, ← h'.take_append rest', heq]
  exact append_inj heq hlength

theorem members_unique {members' : List (List UInt8)} (h : ∀ m ∈ members, IsMember m)
    (h' : ∀ m ∈ members', IsMember m) (heq : members.flatten = members'.flatten) :
    members = members' := by
  have hnil : ∀ {ms : List (List UInt8)}, (∀ m ∈ ms, IsMember m) → [] = ms.flatten → ms = [] := by
    intro ms hms hflat
    cases ms with
    | nil => rfl
    | cons m ms =>
      have hpos := (hms m mem_cons_self).entryBytes_le
      have hzero := congrArg List.length hflat
      simp only [flatten_cons, length_append, length_nil, entryBytes] at hzero hpos
      omega
  induction members generalizing members' with
  | nil => exact (hnil h' heq).symm
  | cons m ms ih =>
    cases members' with
    | nil => exact hnil h heq.symm
    | cons m' ms' =>
      obtain ⟨rfl, hrest⟩ := (h m mem_cons_self).eq_of_append (h' m' mem_cons_self) heq
      rw [ih (fun x hx => h x (mem_cons_of_mem _ hx))
        (fun x hx => h' x (mem_cons_of_mem _ hx)) hrest]

/-- An image has one list of members. -/
theorem IsFatbin.unique {members' : List (List UInt8)} (h : IsFatbin image members)
    (h' : IsFatbin image members') : members = members' :=
  members_unique h.isMember h'.isMember (h.contents.symm.trans h'.contents)

/-! ## The scan -/

/-- The places of the members to keep. -/
def spansFrom (devices : List ℕ) : ℕ → List (List UInt8) → List Span
  | _, [] => []
  | start, m :: ms =>
    if loadable devices m then ⟨start, m.length⟩ :: spansFrom devices (start + m.length) ms
    else spansFrom devices (start + m.length) ms

theorem readAt_of_drop {bytes rest : List UInt8} {start n : ℕ}
    (hdrop : image.drop start = bytes ++ rest) (hn : n ≤ bytes.length) (hpos : 0 < n) :
    readAt image start n = some (bytes.take n) := by
  have hlength := congrArg List.length hdrop
  rw [length_drop, length_append] at hlength
  rw [readAt, if_pos (by omega), hdrop, take_append_of_le_length hn]

theorem drop_of_drop {bytes rest : List UInt8} {start : ℕ}
    (hdrop : image.drop start = bytes ++ rest) : image.drop (start + bytes.length) = rest := by
  rw [← drop_drop, hdrop, drop_left]

/-- The scan finds the members of a fatbin. -/
theorem scan_eq {start : ℕ} (hdrop : image.drop start = members.flatten)
    (hm : ∀ m ∈ members, IsMember m) :
    scan image devices start = some (some (spansFrom devices start members)) := by
  induction members generalizing start with
  | nil =>
    have hend : ¬ start < image.length := by
      have hlength := congrArg List.length hdrop
      simp only [flatten_nil, length_drop, length_nil] at hlength
      omega
    rw [scan, if_neg hend, spansFrom]
  | cons m ms ih =>
    have hmember := hm m mem_cons_self
    have hsize := hmember.entryBytes_le
    rw [flatten_cons] at hdrop
    have hlength := congrArg List.length hdrop
    rw [length_drop, length_append] at hlength
    have hpos : 0 < entryBytes := by decide
    have hread := readAt_of_drop hdrop hsize hpos
    have hvalid : (Entry.parse (m.take entryBytes)).Valid (image.length - start) := by
      obtain ⟨hversion, hheader, hleft, hpayload, harch, hkind⟩ := hmember.valid
      exact ⟨hversion, hheader, by omega, by omega, harch, hkind⟩
    have hrest := ih (drop_of_drop hdrop) fun x hx => hm x (mem_cons_of_mem _ hx)
    have hlt : start < image.length := by omega
    have hbytes : ¬ image.length - start < entryBytes := by omega
    rw [scan, if_pos hlt, if_neg hbytes, hread]
    simp only [hvalid, if_true, hmember.length, hrest]
    rw [spansFrom]
    change (if loadable devices m then _ else _) = _
    split <;> rfl

/-- The bytes that a valid entry is at the start of are a member. -/
theorem isMember_take {bytes : List UInt8}
    (h : (Entry.parse (bytes.take entryBytes)).Valid bytes.length) :
    IsMember (bytes.take (Entry.parse (bytes.take entryBytes)).length) := by
  obtain ⟨hversion, hheader, hleft, hpayload, harch, hkind⟩ := h
  have hsum : (Entry.parse (bytes.take entryBytes)).length =
    (Entry.parse (bytes.take entryBytes)).headerSize +
      (Entry.parse (bytes.take entryBytes)).payloadSize := rfl
  generalize hlen : (Entry.parse (bytes.take entryBytes)).length = len at hsum ⊢
  have htake : (bytes.take len).take entryBytes = bytes.take entryBytes := by
    rw [take_take, min_eq_left (by omega)]
  have hlength : (bytes.take len).length = len := by
    rw [length_take, min_eq_left (by omega)]
  refine ⟨?_, by rw [htake, hlen, hlength]⟩
  rw [htake, hlength]
  exact ⟨hversion, hheader, by omega, by omega, harch, hkind⟩

/-- The scan stays in the image. What it does not reject is a list of members. -/
theorem scan_cases (image : List UInt8) {start : ℕ} (hstart : start ≤ image.length) :
    scan image devices start = some none ∨
      ∃ members : List (List UInt8),
        image.drop start = members.flatten ∧ ∀ m ∈ members, IsMember m := by
  induction hleft : image.length - start using Nat.strong_induction_on generalizing start with
  | _ left ih =>
    rw [scan]
    split
    · split
      · exact .inl rfl
      · have hread : readAt image start entryBytes = some ((image.drop start).take entryBytes) :=
          if_pos (by omega)
        have hdrop : (image.drop start).length = image.length - start := length_drop
        rw [hread]
        split
        · rename_i hnone
          cases hnone
        · rename_i bytes hbytes
          cases hbytes
          split
          · rename_i hvalid
            rw [← hdrop] at hvalid
            have hmember := isMember_take hvalid
            generalize hlen : (Entry.parse ((image.drop start).take entryBytes)).length = len at *
            have hfits : len ≤ image.length - start := by
              have hheader := hvalid.2.2.1
              have hpayload := hvalid.2.2.2.1
              simp only [Entry.length] at hlen
              omega
            have hpos := hmember.entryBytes_le
            rw [length_take, min_eq_left (by omega), entryBytes] at hpos
            have hrest := ih (image.length - (start + len)) (by omega) (by omega) rfl
            rcases hrest with hnone | ⟨members, hmembers, hall⟩
            · left
              rw [hnone]
            · right
              refine ⟨(image.drop start).take len :: members, ?_, fun m hm => ?_⟩
              · rw [flatten_cons, ← hmembers, ← drop_drop, take_append_drop]
              · rcases mem_cons.mp hm with rfl | hm
                · exact hmember
                · exact hall m hm
          · exact .inl rfl
    · exact .inr ⟨[], drop_of_length_le (by omega), fun _ hm => absurd hm not_mem_nil⟩

/-! ## The result -/

/-- The members to keep are gathered. -/
theorem gather_spansFrom {start : ℕ} (hdrop : image.drop start = members.flatten)
    (hm : ∀ m ∈ members, IsMember m) :
    gather image (spansFrom devices start members) =
      some (members.filter (loadable devices)).flatten := by
  induction members generalizing start with
  | nil => rfl
  | cons m ms ih =>
    have hrest := ih (drop_of_drop hdrop) fun x hx => hm x (mem_cons_of_mem _ hx)
    rw [spansFrom]
    split
    · rename_i hkeep
      have hpos : 0 < m.length := by
        have := (hm m mem_cons_self).entryBytes_le
        rw [entryBytes] at this
        omega
      rw [gather, readAt_of_drop hdrop le_rfl hpos, hrest, take_length,
        filter_cons_of_pos hkeep, flatten_cons]
    · rename_i hdiscard
      rw [hrest, filter_cons_of_neg hdiscard]

theorem sum_spansFrom (start : ℕ) (members : List (List UInt8)) :
    ((spansFrom devices start members).map Span.size).sum =
      (members.filter (loadable devices)).flatten.length := by
  induction members generalizing start with
  | nil => rfl
  | cons m ms ih =>
    rw [spansFrom]
    split
    · rename_i hkeep
      rw [map_cons, sum_cons, ih, filter_cons_of_pos hkeep, flatten_cons, length_append]
    · rename_i hdiscard
      rw [ih, filter_cons_of_neg hdiscard]

theorem decode_lt (bytes : List UInt8) : decode bytes < 256 ^ bytes.length := by
  induction bytes with
  | nil => decide
  | cons byte bytes ih =>
    rw [decode, length_cons, Nat.pow_succ]
    have := byte.toNat_lt
    omega

theorem field_lt (bytes : List UInt8) (offset width : ℕ) : field bytes offset width < 256 ^ width :=
  (decode_lt _).trans_le (Nat.pow_le_pow_right (by decide) (length_take_le _ _))

/-- A header survives the trip. -/
theorem Header.parse_bytes (header : Header) (hmagic : header.magic < 256 ^ 4)
    (hversion : header.version < 256 ^ 2) (hsize : header.headerSize < 256 ^ 2)
    (hfiles : header.filesSize < 256 ^ 8) : Header.parse header.bytes = header := by
  have h4 := length_encode 4 header.magic
  have h2 := length_encode 2 header.version
  have h2' := length_encode 2 header.headerSize
  have h8 := length_encode 8 header.filesSize
  have hm : field header.bytes 0 4 = header.magic := by
    rw [field, Header.bytes]
    exact decode_encode hmagic
  have hv : field header.bytes 4 2 = header.version := by
    rw [field, Header.bytes]
    exact decode_encode hversion
  have hs : field header.bytes 6 2 = header.headerSize := by
    rw [field, Header.bytes]
    exact decode_encode hsize
  have hf : field header.bytes 8 8 = header.filesSize := by
    exact decode_encode hfiles
  rw [Header.parse, hm, hv, hs, hf]

theorem Header.length_bytes (header : Header) : header.bytes.length = headerBytes := by
  simp [Header.bytes, headerBytes]

/-- The fatbin that is put together. -/
def rebuilt (image : List UInt8) (members : List (List UInt8)) : List UInt8 :=
  { Header.parse (image.take headerBytes) with filesSize := members.flatten.length }.bytes ++
    members.flatten

theorem filterFatbin_of_isFatbin {devices : List ℕ} (hdevices : devices ≠ []) (hknown : 0 ∉ devices)
    (h : IsFatbin image members) :
    filterFatbin (some image) devices =
      if spansFrom devices headerBytes members = [] ∨
          headerBytes + (members.filter (loadable devices)).flatten.length = image.length then
        some []
      else some (rebuilt image (members.filter (loadable devices))) := by
  have hlength := h.length
  have hgo : ¬ (image.length < headerBytes ∨ devices = [] ∨ 0 ∈ devices) := by
    rintro (hlt | hnil | hzero)
    · omega
    · exact hdevices hnil
    · exact hknown hzero
  have hread : readAt image 0 headerBytes = some (image.take headerBytes) := by
    rw [readAt, if_pos (by omega), drop_zero]
  have hfiles : (Header.parse (image.take headerBytes)).filesSize = image.length - headerBytes := by
    rw [h.filesSize, hlength, Nat.add_sub_cancel_left]
  rw [filterFatbin]
  simp only [hgo, if_false, hread]
  rw [if_pos ⟨h.magic, h.version, h.headerSize, hfiles⟩, scan_eq devices h.contents h.isMember]
  dsimp only
  rw [rebuild, sum_spansFrom, gather_spansFrom devices h.contents h.isMember,
    Nat.add_sub_cancel_left]
  rfl

/-- What the filter does not forward unchanged is a fatbin. -/
theorem filterFatbin_cases (image : List UInt8) (devices : List ℕ) :
    filterFatbin (some image) devices = some [] ∨
      devices ≠ [] ∧ 0 ∉ devices ∧ ∃ members, IsFatbin image members := by
  rw [filterFatbin]
  split
  · exact .inl rfl
  · rename_i hgo
    rw [not_or, not_or, not_lt] at hgo
    have hread : readAt image 0 headerBytes = some (image.take headerBytes) := by
      rw [readAt, if_pos (by omega), drop_zero]
    rw [hread]
    simp only
    split
    · rename_i hheader
      rcases scan_cases devices image hgo.1 with hnone | ⟨members, hcontents, hmembers⟩
      · rw [hnone]
        exact .inl rfl
      · obtain ⟨hmagic, hversion, hsize, hfiles⟩ := hheader
        have hflat : members.flatten.length = image.length - headerBytes := by
          rw [← hcontents, length_drop]
        exact .inr ⟨hgo.2.1, hgo.2.2, members, hmagic, hversion, hsize, hfiles.trans hflat.symm,
          by omega, hcontents, hmembers⟩
    · exact .inl rfl

theorem length_flatten_filter_le (p : List UInt8 → Bool) (members : List (List UInt8)) :
    (members.filter p).flatten.length ≤ members.flatten.length := by
  induction members with
  | nil => rfl
  | cons m ms ih =>
    rw [flatten_cons, length_append, filter_cons]
    split
    · rw [flatten_cons, length_append]
      omega
    · omega

theorem isFatbin_rebuilt (h : IsFatbin image members) :
    IsFatbin (rebuilt image (members.filter (loadable devices)))
      (members.filter (loadable devices)) := by
  generalize hkept : members.filter (loadable devices) = kept
  have hle : kept.flatten.length ≤ members.flatten.length := by
    rw [← hkept]
    exact length_flatten_filter_le _ members
  have hfiles : kept.flatten.length < 256 ^ 8 := by
    refine hle.trans_lt ?_
    rw [← h.filesSize]
    exact field_lt _ _ _
  have hparse := Header.parse_bytes
    { Header.parse (image.take headerBytes) with filesSize := kept.flatten.length }
    (field_lt _ _ _) (field_lt _ _ _) (field_lt _ _ _) hfiles
  have hbytes := Header.length_bytes
    { Header.parse (image.take headerBytes) with filesSize := kept.flatten.length }
  have htake : (rebuilt image kept).take headerBytes =
      { Header.parse (image.take headerBytes) with filesSize := kept.flatten.length }.bytes :=
    take_left' hbytes
  refine ⟨?_, ?_, ?_, ?_, ?_, drop_left' hbytes, fun m hm => ?_⟩
  · rw [htake, hparse]
    exact h.magic
  · rw [htake, hparse]
    exact h.version
  · rw [htake, hparse]
    exact h.headerSize
  · rw [htake, hparse]
  · rw [rebuilt, length_append, hbytes]
  · rw [← hkept] at hm
    exact h.isMember m (mem_filter.mp hm).1

end

/-- **Fatbin filtering.** Every read stays in the image, and what the filter returns has the members
that some device can load. -/
theorem filter_keeps_loadable (image : Option (List UInt8)) (devices : List ℕ) :
    ∃ filtered, filterFatbin image devices = some filtered ∧ (filtered ≠ [] →
      ∃ bytes members, image = some bytes ∧ Keeps bytes filtered devices members) := by
  cases image with
  | none => exact ⟨[], rfl, fun h => absurd rfl h⟩
  | some image =>
    rcases filterFatbin_cases image devices with hnone | ⟨hdevices, hknown, members, h⟩
    · exact ⟨[], hnone, fun h => absurd rfl h⟩
    · rw [filterFatbin_of_isFatbin hdevices hknown h]
      split
      · exact ⟨[], rfl, fun h => absurd rfl h⟩
      · have hrebuilt := isFatbin_rebuilt devices h
        refine ⟨_, rfl, fun _ => ⟨image, members, rfl, h, fun _ h' => h'.unique h,
          hrebuilt, fun device hdevice => ?_, [], ?_, if_pos rfl⟩⟩
        · rw [filter_filter]
          refine filter_congr fun member _ => ?_
          rw [Bool.and_eq_left_iff_imp]
          exact fun hloads => any_eq_true.mpr ⟨device, hdevice, hloads⟩
        · -- what is left stays as it is
          rw [filterFatbin_of_isFatbin hdevices hknown hrebuilt, if_pos]
          right
          simp only [filter_filter, Bool.and_self]
          exact hrebuilt.length.symm

end Lupine.Fatbin
