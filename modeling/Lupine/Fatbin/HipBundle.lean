import Lupine.Fatbin.Filter

/-!
# Extent of HIP bundles

`lupine_hip_bundle_size` finds out how long an offload bundle is, from a table at its start that
is not trusted. Sums and differences are those of 64-bit words, and a read beyond the available
bytes is an error of its own here.

* `bundleSize_spec`: nothing is read beyond the available bytes, and an extent covers the table and,
  behind it, the payloads.
-/

namespace Lupine.Fatbin

open Foundations

/-! ## The parser -/

/-- `lupine_hip_max_image_size`. -/
def maxImageSize : ℕ := 256 * 1024 * 1024

def bundleMagic : List UInt8 :=
  "__CLANG_OFFLOAD_BUNDLE__".toList.map fun c => UInt8.ofNat c.toNat

/-- `memcpy` and `memcmp`. `none` is a read beyond the available bytes. -/
def load (memory : ℕ → UInt8) (available offset n : ℕ) : Option (List UInt8) :=
  if offset + n ≤ available then some ((List.range' offset n).map memory) else none

/-- `fields`. -/
structure BundleEntry where
  offset : ℕ
  size : ℕ
  idSize : ℕ

def BundleEntry.parse (bytes : List UInt8) : BundleEntry :=
  ⟨field bytes 0 8, field bytes 8 8, field bytes 16 8⟩

def wordAdd (a b : ℕ) : ℕ := (a + b) % 2 ^ 64

def wordSub (a b : ℕ) : ℕ := (a + (2 ^ 64 - b)) % 2 ^ 64

/-- The variables of the loop. -/
structure BundleScan where
  cursor : ℕ
  extent : ℕ
  firstPayload : ℕ

/-- A turn of the loop. The inner `none` is a return of zero. -/
def BundleScan.next (memory : ℕ → UInt8) (available : ℕ) (s : BundleScan) :
    Option (Option BundleScan) :=
  if s.cursor > available ∨ wordSub available s.cursor < 24 ∨
      wordAdd s.cursor 24 > s.firstPayload then some none
  else
    (load memory available s.cursor 24).map fun bytes =>
      let e := BundleEntry.parse bytes
      if e.offset > maxImageSize ∨ e.size > wordSub maxImageSize e.offset ∨ e.idSize > 4096 then
        none
      else
        let cursor := wordAdd s.cursor 24
        if e.idSize > wordSub available cursor then none
        else some ⟨wordAdd cursor e.idSize, max s.extent (wordAdd e.offset e.size),
          min s.firstPayload e.offset⟩

def BundleScan.loop (memory : ℕ → UInt8) (available : ℕ) :
    ℕ → BundleScan → Option (Option BundleScan)
  | 0, s => some (some s)
  | count + 1, s =>
    match s.next memory available with
    | some (some s') => s'.loop memory available count
    | other => other

/-- `lupine_hip_bundle_size`, for a pointer that may be null. The header has 32 bytes. -/
def bundleSize (image : Option (ℕ → UInt8)) (available : ℕ) : Option ℕ :=
  match image with
  | none => some 0
  | some memory =>
    if available < 32 then some 0
    else
      (load memory available 0 24).bind fun magic =>
        if magic ≠ bundleMagic then some 0
        else
          (load memory available 24 8).bind fun bytes =>
            let count := decode bytes
            if count = 0 ∨ count > 64 then some 0
            else
              (BundleScan.loop memory available count ⟨32, 32, maxImageSize⟩).map fun
                | none => 0
                | some s => if s.cursor > s.firstPayload ∨ s.extent > available then 0 else s.extent

/-! ## The table -/

variable {memory : ℕ → UInt8} {available : ℕ} {entries : List BundleEntry} {s : BundleScan}

/-- The entries behind the header, each with its target ID, and where they end. -/
inductive Table (memory : ℕ → UInt8) : List BundleEntry → ℕ → Prop
  | nil : Table memory [] 32
  | snoc {entries : List BundleEntry} {cursor : ℕ} {e : BundleEntry}
      (h : Table memory entries cursor) (he : .parse ((List.range' cursor 24).map memory) = e) :
      Table memory (entries ++ [e]) (cursor + 24 + e.idSize)

/-- What holds in the loop after some entries. -/
structure BundleScan.Ok (memory : ℕ → UInt8) (available : ℕ) (entries : List BundleEntry)
    (s : BundleScan) : Prop where
  table : Table memory entries s.cursor
  cursor_le : s.cursor ≤ available
  payloads : ∀ e ∈ entries, s.firstPayload ≤ e.offset ∧ e.offset + e.size ≤ s.extent

theorem load_eq {offset n : ℕ} (h : offset + n ≤ available) :
    load memory available offset n = some ((List.range' offset n).map memory) := if_pos h

/-- A turn reads inside the available bytes, and adds an entry if it does not return. -/
theorem BundleScan.Ok.next (h : s.Ok memory available entries) (hword : available < 2 ^ 64) :
    ∃ r, s.next memory available = some r ∧
      ∀ s' ∈ r, ∃ e, s'.Ok memory available (entries ++ [e]) := by
  have hle := h.cursor_le
  unfold BundleScan.next wordSub wordAdd maxImageSize
  split
  · exact ⟨none, rfl, by simp⟩
  rename_i hroom
  rw [load_eq (by omega), Option.map_some]
  generalize he : BundleEntry.parse _ = e
  refine ⟨_, rfl, fun s' hs' => ⟨e, ?_⟩⟩
  dsimp only at hs'
  split at hs'
  · cases hs'
  split at hs'
  · cases hs'
  -- no sum wraps
  have hend : ((s.cursor + 24) % 2 ^ 64 + e.idSize) % 2 ^ 64 = s.cursor + 24 + e.idSize := by omega
  have hextent : (e.offset + e.size) % 2 ^ 64 = e.offset + e.size := by omega
  rw [hend, hextent] at hs'
  cases hs'
  refine ⟨h.table.snoc he, by dsimp only; omega, fun e' he' => ?_⟩
  rcases List.mem_append.mp he' with he' | he'
  · have := h.payloads e' he'
    dsimp only
    omega
  · obtain rfl := List.mem_singleton.mp he'
    exact ⟨Nat.min_le_right _ _, Nat.le_max_right _ _⟩

theorem BundleScan.Ok.loop (hword : available < 2 ^ 64) (count : ℕ)
    (h : s.Ok memory available entries) :
    ∃ r, s.loop memory available count = some r ∧ ∀ s' ∈ r, ∃ all,
      all.length = entries.length + count ∧ s'.Ok memory available all := by
  induction count generalizing s entries with
  | zero => exact ⟨some s, rfl, fun s' hs' => ⟨entries, rfl, by cases hs'; exact h⟩⟩
  | succ count ih =>
    obtain ⟨r, hr, hnext⟩ := h.next hword
    rw [BundleScan.loop, hr]
    cases r with
    | none => exact ⟨none, rfl, by simp⟩
    | some s' =>
      obtain ⟨e, hs'⟩ := hnext s' rfl
      obtain ⟨r, hr, hall⟩ := ih hs'
      refine ⟨r, hr, fun s'' hs'' => ?_⟩
      obtain ⟨all, hlength, hok⟩ := hall s'' hs''
      rw [List.length_append, List.length_singleton, Nat.add_assoc, Nat.add_comm 1] at hlength
      exact ⟨all, hlength, hok⟩

/-- **Extent.** Whatever the memory holds and however many bytes are available, every read is among
them. An extent that is not zero is at most their number, the table of entries is before it, and
every payload is between the end of the table and the extent. -/
theorem bundleSize_spec (image : Option (ℕ → UInt8)) (available : UInt64) :
    ∃ extent, bundleSize image available.toNat = some extent ∧ (extent ≠ 0 →
      extent ≤ available.toNat ∧ ∃ memory entries tableEnd, image = some memory ∧
        Table memory entries tableEnd ∧
        entries.length = decode ((List.range' 24 8).map memory) ∧
        tableEnd ≤ extent ∧ ∀ e ∈ entries, tableEnd ≤ e.offset ∧ e.offset + e.size ≤ extent) := by
  unfold bundleSize
  cases image with
  | none => exact ⟨0, rfl, absurd rfl⟩
  | some memory =>
    dsimp only
    split
    · exact ⟨0, rfl, absurd rfl⟩
    rw [load_eq (by omega), Option.bind_some]
    split
    · exact ⟨0, rfl, absurd rfl⟩
    rw [load_eq (by omega), Option.bind_some]
    split
    · exact ⟨0, rfl, absurd rfl⟩
    have hinit : BundleScan.Ok memory available.toNat [] ⟨32, 32, maxImageSize⟩ :=
      ⟨.nil, by dsimp only; omega, by simp⟩
    obtain ⟨r, hr, hall⟩ := hinit.loop available.toNat_lt (decode ((List.range' 24 8).map memory))
    rw [hr]
    cases r with
    | none => exact ⟨0, rfl, absurd rfl⟩
    | some s =>
      obtain ⟨all, hlength, hok⟩ := hall s rfl
      rw [List.length_nil, zero_add] at hlength
      refine ⟨_, rfl, fun hne => ?_⟩
      dsimp only at hne ⊢
      split at hne
      · exact absurd rfl hne
      rename_i hfits
      rw [if_neg hfits]
      have hpayloads : ∀ e ∈ all, s.cursor ≤ e.offset ∧ e.offset + e.size ≤ s.extent := by
        intro e he
        have := hok.payloads e he
        omega
      -- there is an entry, and the table is before its payload
      obtain ⟨e, he⟩ := List.exists_mem_of_length_pos (by omega : 0 < all.length)
      have := hpayloads e he
      exact ⟨by omega, memory, all, s.cursor, rfl, hok.table, hlength, by omega, hpayloads⟩

end Lupine.Fatbin
