import Mathlib.Algebra.Group.Nat.Defs
import Mathlib.Data.Int.Basic
import Mathlib.Data.List.Basic
import Mathlib.Data.List.Nodup
import Mathlib.Data.Option.Basic
import Lupine.Foundations.Execution

/-!
# Device numbering

The virtual devices of a client are the entries of a table that `routing.cpp` puts together from the
local driver and all connections, narrowed to what `CUDA_VISIBLE_DEVICES` lists
(`visible_devices.cpp`). `lupine_route_for_device` reads the table by ordinal, and
`lupine_virtual_device_for_route` searches it. A connection is known by its logical index.

* `selectVisibleDevices_documented_iff`: for which entries the selection is the documented one.
* `ensureDeviceTable_numbers`: a listed device and its ordinal; and an ordinal, its device and the
  first ordinal of that device.
* `repeated_device_changes_ordinal`: a device that is listed twice has two ordinals.
-/

namespace Lupine.Routing.Devices

open List

/-! ## Selection -/

/-- A blank in a list of devices. -/
def isBlank (c : Char) : Bool := c = ' ' || c = '\t'

/-- The text without blanks around it. -/
def trim (text : List Char) : List Char :=
  ((text.dropWhile isBlank).reverse.dropWhile isBlank).reverse

/-- The prefix of a UUID. -/
def gpu : List Char := ['G', 'P', 'U', '-']

/-- `normalize_token`. -/
def normalizeToken (token : List Char) : List Char :=
  let trimmed := trim token
  let bare := if gpu.isPrefixOf trimmed then trimmed.drop 4 else trimmed
  (bare.filter fun c => c ≠ '-').map Char.toLower

/-- `strtol`, of digits. -/
def strtol (digits : List Char) : ℕ :=
  min (digits.foldl (fun n c => 10 * n + (c.toNat - '0'.toNat)) 0) (2 ^ 63 - 1)

/-- The device that an entry of the list names. -/
def selectToken (count : ℕ) (uuidHex : ℕ → List Char) (token : List Char) : Option ℕ :=
  let token := normalizeToken token
  if token = [] then none
  else if token.all Char.isDigit then
    if strtol token < count then some (strtol token) else none
  else if token.length ≥ 16 then
    (List.range count).find? fun i => uuidHex i ≠ [] ∧ uuidHex i = token
  else none

section

variable (spec : Option (List Char)) (count : ℕ) (uuidHex : ℕ → List Char)

/-- `lupine_select_visible_devices`. -/
def selectVisibleDevices : List ℕ :=
  match spec with
  | none => List.range count
  | some text =>
    if text = [] ∨ text = ['-', '1'] then []
    else (text.splitOn ',').filterMap (selectToken count uuidHex)

/-! ## Documented selection -/

/-- The number that decimal digits stand for. -/
def decimal (digits : List Char) : ℕ :=
  digits.foldl (fun n c => 10 * n + (c.toNat - '0'.toNat)) 0

/-- The device that an entry names by the text of `visible_devices.h`: a physical index, or a UUID,
spelled with or without the prefix and hyphens. -/
def documentedDevice (token : List Char) : Option ℕ :=
  let entry := trim token
  if entry ≠ [] ∧ entry.all Char.isDigit ∧ decimal entry < count then some (decimal entry)
  else (List.range count).find? fun i => uuidHex i ≠ [] ∧ uuidHex i = normalizeToken token

/-- The devices that `visible_devices.h` promises. -/
def documentedDevices : List ℕ :=
  match spec with
  | none => List.range count
  | some text =>
    if text = [] ∨ text = ['-', '1'] then []
    else (text.splitOn ',').filterMap (documentedDevice count uuidHex)

end

theorem normalizeToken_of_digits {token : List Char}
    (h : (trim token).all Char.isDigit = true) :
    normalizeToken token = trim token := by
  rw [all_eq_true] at h
  have hgpu : ¬gpu.isPrefixOf (trim token) = true := by
    rw [ isPrefixOf_iff_prefix]
    intro hgpu
    exact absurd (h 'G' (hgpu.subset (by decide))) (by decide)
  have hhyphen : ∀ c ∈ trim token, decide (c ≠ '-') = true := by
    intro c hc
    rw [decide_eq_true_eq]
    rintro rfl
    exact absurd (h '-' hc) (by decide)
  have hlower : ∀ c ∈ trim token, c.toLower = id c := by
    intro c hc
    have := h c hc
    simp only [Char.isDigit, Bool.and_eq_true, decide_eq_true_eq, UInt32.le_iff_toNat_le] at this
    refine dif_neg fun hupper => ?_
    have := UInt32.le_iff_toNat_le.mp hupper.1
    simp at *
    omega
  simp only [normalizeToken, if_neg hgpu, filter_eq_self.mpr hhyphen, map_congr_left hlower, map_id]

section

variable {count : ℕ} {uuidHex : ℕ → List Char} {token : List Char}

/-- A number below the count is written as one or is the UUID of the device with that index, and
what is not compared with the UUIDs is none of them. -/
def Unambiguous (count : ℕ) (uuidHex : ℕ → List Char) (token : List Char) : Prop :=
  let name := normalizeToken token
  let named := (List.range count).find? fun i => uuidHex i ≠ [] ∧ uuidHex i = name
  (name ≠ [] → name.all Char.isDigit = true →
    if decimal name < count then
      (trim token).all Char.isDigit = true ∨ named = some (decimal name)
    else named = none) ∧
  (name.all Char.isDigit = false → name.length < 16 → named = none)

instance : Decidable (Unambiguous count uuidHex token) := by
  unfold Unambiguous
  infer_instance

theorem selectToken_documented_iff (hcount : count < 2 ^ 31) :
    selectToken count uuidHex token = documentedDevice count uuidHex token ↔
      Unambiguous count uuidHex token := by
  have hvalue : strtol (normalizeToken token) = min (decimal (normalizeToken token)) (2 ^ 63 - 1) :=
    rfl
  have hdigits := @normalizeToken_of_digits token
  have hempty : normalizeToken token = [] →
      (List.range count).find? (fun i => uuidHex i ≠ [] ∧ uuidHex i = normalizeToken token) =
        none := by
    intro h
    simp only [h, List.find?_eq_none, decide_eq_true_eq]
    exact fun i _ h => h.1 h.2
  unfold selectToken documentedDevice Unambiguous
  dsimp only
  -- What is left are the branches of the two definitions, in the name and the device it finds.
  generalize normalizeToken token = name at *
  generalize (List.range count).find? (fun i => uuidHex i ≠ [] ∧ uuidHex i = name) = named at *
  grind

end

/-- What agrees after every entry agrees on every entry. -/
theorem filterMap_take_eq_iff {α β : Type*} {f g : α → Option β} {l : List α} :
    (∀ n, (l.take n).filterMap f = (l.take n).filterMap g) ↔ ∀ x ∈ l, f x = g x := by
  constructor
  · intro h x hx
    obtain ⟨before, after, rfl⟩ := append_of_mem hx
    have hbefore := h before.length
    have hnext := h (before.length + 1)
    rw [take_left] at hbefore
    rw [take_length_add_append, filterMap_append, filterMap_append, hbefore, append_cancel_left_eq]
      at hnext
    cases hf : f x <;> cases hg : g x <;> simp_all
  · exact fun h n => filterMap_congr fun x hx => h x (mem_of_mem_take hx)

/-- The entries that are looked up. -/
def entries (spec : Option (List Char)) : List (List Char) :=
  match spec with
  | none => []
  | some text => if text = [] ∨ text = ['-', '1'] then [] else text.splitOn ','

/-- **Selection.** The devices found are those documented after every entry, exactly if no entry is
ambiguous. The devices of the whole list are then those documented. -/
theorem selectVisibleDevices_documented_iff (spec : Option (List Char)) (count : ℕ)
    (uuidHex : ℕ → List Char) (hcount : count < 2 ^ 31) :
    ((∀ n, ((entries spec).take n).filterMap (selectToken count uuidHex) =
        ((entries spec).take n).filterMap (documentedDevice count uuidHex)) ↔
      ∀ token ∈ entries spec, Unambiguous count uuidHex token) ∧
    ((∀ token ∈ entries spec, Unambiguous count uuidHex token) →
      selectVisibleDevices spec count uuidHex = documentedDevices spec count uuidHex) := by
  constructor
  · rw [filterMap_take_eq_iff]
    exact forall₂_congr fun _ _ => selectToken_documented_iff hcount
  · intro h
    have hentries := filterMap_congr fun token htoken =>
      (selectToken_documented_iff hcount).mpr (h token htoken)
    cases spec with
    | none => rfl
    | some text =>
      unfold entries at hentries
      unfold selectVisibleDevices documentedDevices
      dsimp only at hentries ⊢
      split
      · rfl
      · rename_i hspecial
        rwa [if_neg hspecial] at hentries

/-- An index and a UUID. -/
theorem selectVisibleDevices_documented_of_two :
    selectVisibleDevices (some "1, GPU-ABCDEFAB-CDEFABCD ".toList) 2
      (fun _ => "abcdefabcdefabcd".toList) = [1, 0] := by
  rw [(selectVisibleDevices_documented_iff _ _ _ (by decide)).2 (by decide +kernel)]
  decide +kernel

/-- **Hyphens.** `-1` behind another entry is device 1. -/
theorem negative_selects_device :
    selectVisibleDevices (some "0,-1".toList) 2 (fun _ => []) ≠
      documentedDevices (some "0,-1".toList) 2 (fun _ => []) := by
  decide +kernel

/-! ## The table -/

/-- `lupine_device_entry`. -/
structure Entry where
  isLocal : Bool
  localDevice : ℤ
  connIndex : ℕ
  remoteDevice : ℤ
  deriving DecidableEq

variable {table : List Entry} {entry : Entry}

/-- A driver, here or behind a connection: the number of devices and the handle of each ordinal,
unless the call fails. -/
structure Endpoint where
  count : Option ℤ
  device : ℕ → Option ℤ

/-- What the client finds. -/
structure Fleet where
  /-- The local driver, if it is available. -/
  driver : Option Endpoint
  /-- `rpc_open` succeeded. -/
  opened : Bool
  connections : List Endpoint
  /-- The UUID of a device. It is empty if it cannot be read. -/
  uuidHex : Entry → List Char

/-- The devices of the local driver. -/
def localEntries (endpoint : Endpoint) : List Entry :=
  match endpoint.count with
  | some count => (List.range count.toNat).filterMap fun ordinal =>
      (endpoint.device ordinal).map fun device => ⟨true, device, 0, 0⟩
  | none => []

/-- The devices of a connection. -/
def remoteEntries (endpoint : Endpoint) (index : ℕ) : Option (List Entry) :=
  match endpoint.count with
  | some count => (List.range count.toNat).mapM fun ordinal =>
      (endpoint.device ordinal).map fun device => ⟨false, -1, index, device⟩
  | none => none

/-- The devices of all connections. -/
def connectionEntries (fleet : Fleet) : Option (List Entry) :=
  if fleet.opened then
    (fleet.connections.zipIdx.mapM fun (endpoint, index) => remoteEntries endpoint index).map
      List.flatten
  else some []

/-- `lupine_apply_visible_devices`. -/
def applyVisibleDevices (fleet : Fleet) (spec : Option (List Char)) (devices : List Entry) :
    List Entry :=
  match spec with
  | none => devices
  | some text =>
    (selectVisibleDevices (some text) devices.length fun i =>
      (devices[i]?.map fleet.uuidHex).getD []).filterMap (devices[·]?)

/-- `lupine_ensure_device_table`. It fails if a connection does, or if there are no devices. -/
def ensureDeviceTable (fleet : Fleet) (spec : Option (List Char)) : Option (List Entry) :=
  match connectionEntries fleet with
  | none => none
  | some remote =>
    let devices := (fleet.driver.map localEntries).getD [] ++ remote
    if devices = [] then none else some (applyVisibleDevices fleet spec devices)

/-! ## Routes -/

/-- `lupine_route`. -/
inductive Route
  | remote (conn : ℕ)
  | driver
  | invalid
  | unknownDevice
  deriving DecidableEq

/-- What an entry is for: a route, and the device there. -/
def Entry.target (entry : Entry) : Route × ℤ :=
  if entry.isLocal then (.driver, entry.localDevice)
  else (.remote entry.connIndex, entry.remoteDevice)

/-- `lupine_route_for_device`, with what it leaves in its argument. -/
def routeForDevice (table : List Entry) (device : ℤ) : Route × ℤ :=
  if device < 0 then (.unknownDevice, device)
  else
    match table[device.toNat]? with
    | some mapped => mapped.target
    | none => (.unknownDevice, device)

/-- `lupine_conn_index`. -/
def connIndex (size : ℕ) (conn : ℕ) : ℤ := if conn < size then conn else -1

/-- The candidate that the search of `lupine_virtual_device_for_route` looks for. -/
def Entry.matches (route : Route) (device : ℤ) (candidate : Entry) : Bool :=
  match route with
  | .driver => candidate.isLocal && candidate.localDevice = device
  | .remote conn =>
    !candidate.isLocal && candidate.connIndex = conn && candidate.remoteDevice = device
  | _ => false

/-- The search, from an ordinal on. -/
def searchFrom (route : Route) (device : ℤ) : ℕ → List Entry → ℤ
  | _, [] => -1
  | i, candidate :: rest =>
    if candidate.matches route device then i else searchFrom route device (i + 1) rest

/-- `lupine_virtual_device_for_route`, with the number of connections. -/
def virtualDeviceForRoute (size : ℕ) (table : List Entry) (route : Route) (device : ℤ) : ℤ :=
  match route with
  | .remote conn => if connIndex size conn < 0 then -1 else searchFrom route device 0 table
  | .driver => searchFrom route device 0 table
  | _ => -1

/-- The ordinal of the device that an ordinal is for. -/
def roundTrip (size : ℕ) (table : List Entry) (device : ℤ) : ℤ :=
  virtualDeviceForRoute size table (routeForDevice table device).1 (routeForDevice table device).2

/-! ## Round trips -/

/-- How a table numbers its devices. -/
structure Numbers (size : ℕ) (table : List Entry) : Prop where
  /-- A listed device has an ordinal, which is for that device. -/
  listed : ∀ entry ∈ table, ∃ i < table.length,
    virtualDeviceForRoute size table entry.target.1 entry.target.2 = i ∧
      routeForDevice table i = entry.target
  /-- An ordinal leads to the first one for the same device. -/
  first : ∀ i < table.length, ∃ j ≤ i, roundTrip size table i = j ∧
    routeForDevice table j = routeForDevice table i ∧
      ∀ k < j, routeForDevice table k ≠ routeForDevice table i
  /-- It leads back to itself, if no earlier one is for the same device. -/
  fixed : ∀ i < table.length, roundTrip size table i = i ↔
    ∀ k < i, routeForDevice table k ≠ routeForDevice table i
  /-- All do, if no device is listed twice. -/
  inverse : (∀ i < table.length, roundTrip size table i = i) ↔ (table.map Entry.target).Nodup

theorem routeForDevice_natCast {i : ℕ} (h : table[i]? = some entry) :
    routeForDevice table i = entry.target := by
  rw [routeForDevice, if_neg (by omega), Int.toNat_natCast, h]

theorem matches_iff {route : Route} {device : ℤ} {candidate : Entry} :
    candidate.matches route device = true ↔
      candidate.target = (route, device) := by
  unfold Entry.matches Entry.target
  cases hlocal : candidate.isLocal <;> cases route <;>
    simp [Prod.ext_iff, and_comm]

/-- The search finds the first entry for a device. -/
theorem searchFrom_of_mem (h : entry ∈ table) (i : ℕ) :
    ∃ j < table.length, searchFrom entry.target.1 entry.target.2 i table = (i + j : ℕ) ∧
      (table[j]?.map Entry.target = some entry.target) ∧
      ∀ k < j, table[k]?.map Entry.target ≠ some entry.target := by
  induction table generalizing i with
  | nil => exact absurd h not_mem_nil
  | cons candidate rest ih =>
    rw [searchFrom]
    split
    · rename_i hmatch
      refine ⟨0, Nat.succ_pos _, rfl, ?_, fun k hk => absurd hk (Nat.not_lt_zero k)⟩
      exact congrArg some (matches_iff.mp hmatch)
    · rename_i hmatch
      have hne : candidate.target ≠ entry.target := fun heq => hmatch (matches_iff.mpr heq)
      have hrest : entry ∈ rest := (mem_cons.mp h).resolve_left fun heq => hne (heq ▸ rfl)
      obtain ⟨j, hj, hfound, htarget, hbefore⟩ := ih hrest (i + 1)
      refine ⟨j + 1, Nat.succ_lt_succ hj, ?_, htarget, fun k hk => ?_⟩
      · rw [hfound]
        congr 1
        omega
      · cases k with
        | zero => exact fun heq => hne (Option.some.inj heq)
        | succ k => exact hbefore k (Nat.lt_of_succ_lt_succ hk)

/-- An entry for a connection is for one of those that there are. -/
def WellFormed (size : ℕ) (table : List Entry) : Prop :=
  ∀ entry ∈ table, entry.isLocal = false → entry.connIndex < size

theorem virtualDeviceForRoute_target {size : ℕ} (hwf : WellFormed size table) (h : entry ∈ table) :
    virtualDeviceForRoute size table entry.target.1 entry.target.2 =
      searchFrom entry.target.1 entry.target.2 0 table := by
  cases hlocal : entry.isLocal with
  | true => simp only [Entry.target, hlocal, if_true, virtualDeviceForRoute]
  | false =>
    have hindex : ¬ connIndex size entry.connIndex < 0 := by
      rw [connIndex, if_pos (hwf entry h hlocal)]
      omega
    simp only [Entry.target, hlocal, Bool.false_eq_true, if_false, virtualDeviceForRoute, hindex]

theorem routeForDevice_eq_iff {k : ℕ} (hk : k < table.length) {target : Route × ℤ} :
    routeForDevice table k = target ↔ table[k]?.map Entry.target = some target := by
  have hget := List.getElem?_eq_getElem hk
  rw [routeForDevice_natCast hget, hget, Option.map_some, Option.some.injEq]

/-- The first ordinal for a listed device. -/
theorem exists_first_ordinal {size : ℕ} (hwf : WellFormed size table) (h : entry ∈ table) :
    ∃ j < table.length, virtualDeviceForRoute size table entry.target.1 entry.target.2 = j ∧
      routeForDevice table j = entry.target ∧
      ∀ k < j, routeForDevice table k ≠ entry.target := by
  obtain ⟨j, hj, hfound, htarget, hbefore⟩ := searchFrom_of_mem h 0
  rw [Nat.zero_add] at hfound
  refine ⟨j, hj, (virtualDeviceForRoute_target hwf h).trans hfound,
    (routeForDevice_eq_iff hj).mpr htarget, fun k hk heq => ?_⟩
  exact hbefore k hk ((routeForDevice_eq_iff (Nat.lt_trans hk hj)).mp heq)

theorem WellFormed.numbers {size : ℕ} (hwf : WellFormed size table) : Numbers size table := by
  have hfirst : ∀ i < table.length, ∃ j ≤ i, roundTrip size table i = j ∧
      routeForDevice table j = routeForDevice table i ∧
        ∀ k < j, routeForDevice table k ≠ routeForDevice table i := by
    intro i hi
    have htarget := routeForDevice_natCast (List.getElem?_eq_getElem hi)
    obtain ⟨j, hj, hfound, hroute, hbefore⟩ := exists_first_ordinal hwf (getElem_mem hi)
    refine ⟨j, ?_, ?_, hroute.trans htarget.symm, fun k hk => htarget ▸ hbefore k hk⟩
    · exact not_lt.mp fun hlt => hbefore i hlt htarget
    · rw [roundTrip, htarget, hfound]
  have hfixed : ∀ i < table.length, roundTrip size table i = i ↔
      ∀ k < i, routeForDevice table k ≠ routeForDevice table i := by
    intro i hi
    obtain ⟨j, hji, htrip, hroute, hbefore⟩ := hfirst i hi
    rw [htrip, show (j : ℤ) = i ↔ j = i by omega]
    constructor
    · rintro rfl
      exact hbefore
    · intro hnone
      exact le_antisymm hji (not_lt.mp fun hlt => hnone j hlt hroute)
  refine ⟨fun entry h => ?_, hfirst, hfixed, ?_⟩
  · obtain ⟨j, hj, hfound, hroute, -⟩ := exists_first_ordinal hwf h
    exact ⟨j, hj, hfound, hroute⟩
  · rw [nodup_iff_getElem?_ne_getElem?]
    constructor
    · intro hall k i hki hi heq
      rw [length_map] at hi
      rw [List.getElem?_map, List.getElem?_map, List.getElem?_eq_getElem hi, Option.map_some] at heq
      refine (hfixed i hi).mp (hall i hi) k hki ?_
      rw [routeForDevice_natCast (List.getElem?_eq_getElem hi)]
      exact (routeForDevice_eq_iff (Nat.lt_trans hki hi)).mpr heq
    · intro hnodup i hi
      refine (hfixed i hi).mpr fun k hk heq => hnodup k i hk (by rwa [length_map]) ?_
      rw [List.getElem?_map, List.getElem?_map]
      rw [(routeForDevice_eq_iff (Nat.lt_trans hk hi)).mp heq, (routeForDevice_eq_iff hi).mp rfl]

/-! ## The table of a fleet -/

theorem connIndex_of_mem_remoteEntries {endpoint : Endpoint} {index : ℕ} {entries : List Entry}
    (h : remoteEntries endpoint index = some entries) (hentry : entry ∈ entries) :
    entry.connIndex = index := by
  unfold remoteEntries at h
  split at h
  · obtain ⟨ordinal, -, hdevice⟩ := Foundations.exists_of_mem_mapM h hentry
    obtain ⟨device, -, rfl⟩ := Option.map_eq_some_iff.mp hdevice
    rfl
  · cases h

theorem wellFormed_connectionEntries {fleet : Fleet} {entries : List Entry}
    (h : connectionEntries fleet = some entries) :
    WellFormed fleet.connections.length entries := by
  intro entry hentry _
  unfold connectionEntries at h
  split at h
  · obtain ⟨parts, hparts, rfl⟩ := Option.map_eq_some_iff.mp h
    obtain ⟨part, hpart, hmem⟩ := mem_flatten.mp hentry
    obtain ⟨⟨endpoint, index⟩, hindex, hremote⟩ := Foundations.exists_of_mem_mapM hparts hpart
    rw [connIndex_of_mem_remoteEntries hremote hmem]
    exact (mem_zipIdx' hindex).1
  · cases h
    exact absurd hentry not_mem_nil

theorem isLocal_of_mem_localEntries {endpoint : Endpoint} (h : entry ∈ localEntries endpoint) :
    entry.isLocal = true := by
  unfold localEntries at h
  split at h
  · obtain ⟨ordinal, -, hdevice⟩ := mem_filterMap.mp h
    obtain ⟨device, -, rfl⟩ := Option.map_eq_some_iff.mp hdevice
    rfl
  · exact absurd h not_mem_nil

/-- Selecting does not bring in new entries. -/
theorem mem_of_mem_applyVisibleDevices {fleet : Fleet} {spec : Option (List Char)}
    {devices : List Entry} (h : entry ∈ applyVisibleDevices fleet spec devices) :
    entry ∈ devices := by
  cases spec with
  | none => exact h
  | some text =>
    obtain ⟨i, -, hi⟩ := mem_filterMap.mp h
    exact mem_of_getElem? hi

/-- **Device numbering.** In the table of any fleet, whatever `CUDA_VISIBLE_DEVICES` says, a listed
device has an ordinal that leads back to it, and an ordinal leads to the first of its device. -/
theorem ensureDeviceTable_numbers (fleet : Fleet) (spec : Option (List Char)) {table : List Entry}
    (h : ensureDeviceTable fleet spec = some table) : Numbers fleet.connections.length table := by
  refine WellFormed.numbers fun entry hentry hremote => ?_
  unfold ensureDeviceTable at h
  split at h
  · cases h
  · rename_i remote hconnections
    simp only at h
    split at h
    · cases h
    · cases h
      rcases mem_append.mp (mem_of_mem_applyVisibleDevices hentry) with hlocal | hmem
      · cases hdriver : fleet.driver with
        | none =>
          rw [hdriver] at hlocal
          exact absurd hlocal not_mem_nil
        | some endpoint =>
          rw [hdriver] at hlocal
          rw [isLocal_of_mem_localEntries hlocal] at hremote
          cases hremote
      · exact wellFormed_connectionEntries hconnections entry hmem hremote

/-- Two connections, with two devices and one device. -/
def smallFleet : Fleet where
  driver := none
  opened := true
  connections := [⟨some 2, fun ordinal => some ordinal⟩, ⟨some 1, fun ordinal => some ordinal⟩]
  uuidHex := fun _ => []

/-- The devices of the fleet, in another order. -/
theorem ensureDeviceTable_numbers_of_selection :
    ∃ table, ensureDeviceTable smallFleet (some ['2', ',', '0']) = some table ∧
      table.map Entry.target = [(.remote 1, 0), (.remote 0, 0)] ∧ Numbers 2 table :=
  ⟨_, rfl, by decide, ensureDeviceTable_numbers smallFleet (some ['2', ',', '0']) rfl⟩

/-- If device 0 is listed twice then ordinal 1 leads to ordinal 0. -/
theorem repeated_device_changes_ordinal :
    ∃ table, ensureDeviceTable smallFleet (some ['0', ',', '0']) = some table ∧
      table.length = 2 ∧ roundTrip 2 table 1 = 0 :=
  ⟨_, rfl, by decide, by decide⟩

end Lupine.Routing.Devices
