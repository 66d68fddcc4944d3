import Mathlib.Data.Fintype.Card
import Mathlib.Data.ZMod.Defs
import Mathlib.Tactic.Ring
import Lupine.Foundations.OrderedMap

/-!
# Device-pointer allocations

The table of `cache.cpp` that says which allocation a device pointer belongs to. Records are ordered
by their base and may overlap. The table counts the neighbouring records that do: as long as there
are none, `lupine_deviceptr_allocation_cache_lookup` looks at one record only.

* `Cache.lookup_refines_scan`: after any operations, the count is right, and a lookup chooses what a
  scan of all records would: of those that contain the pointer, the one with the greatest base.
* `covers_sound_iff`: what `lupine_deviceptr_allocation_covers` reports is right, whatever is
  recorded, for a range that runs at most one byte past the end of the address space, and for no
  other; `covers_past_the_end`: a range for which it is wrong.
-/

namespace Lupine.Routing.Allocations

open Foundations Function OrderedMap List
open scoped Fin.CommRing

/-- `CUdeviceptr` and `size_t`. -/
abbrev Word := Fin (2 ^ 64)

/-- `lupine_deviceptr_allocation_record`. -/
structure Record (Context : Type) where
  size : Word
  routeId : ℤ
  context : Context

variable {Context : Type}

abbrev Entry (Context : Type) := Word × Record Context

/-- `deviceptr_allocation_cache`. -/
structure Cache (Context : Type) where
  allocations : OrderedMap Word (Record Context)
  overlappingNeighbors : Word

variable {cache : Cache Context}

/-- A change of the table. -/
inductive Operation (Context : Type)
  | insert (base size : Word) (routeId : ℤ) (context : Context)
  | erase (base : Word)

/-- `overlaps`. `none` is the end of the table. -/
def overlaps : Option (Entry Context) → Option (Entry Context) → Bool
  | some first, some second => second.1 - first.1 < first.2.size
  | _, _ => false

/-- What `overlaps` adds to the count. -/
abbrev overlapping (first second : Option (Entry Context)) : Word := (overlaps first second).toNat

namespace Cache

def empty : Cache Context := ⟨.empty, 0⟩

section

variable (cache : Cache Context) (base : Word)

/-- The record just below a base. -/
def previous : Option (Entry Context) :=
  (cache.allocations.below base).getLast?

/-- The record just above a base. -/
def next : Option (Entry Context) :=
  (cache.allocations.above base).head?

/-- `lupine_deviceptr_allocation_cache_erase`. -/
def erase (cache : Cache Context) (base : Word) : Cache Context :=
  match cache.allocations.find base with
  | none => cache
  | some record =>
    ⟨cache.allocations.erase base, cache.overlappingNeighbors -
        overlapping (cache.previous base) (some (base, record)) -
        overlapping (some (base, record)) (cache.next base) +
        overlapping (cache.previous base) (cache.next base)⟩

/-- A record is put between its neighbours, at a base that has none. -/
def emplace (record : Record Context) : Cache Context :=
  ⟨cache.allocations.insert base record, cache.overlappingNeighbors -
      overlapping (cache.previous base) (cache.next base) +
      overlapping (cache.previous base) (some (base, record)) +
      overlapping (some (base, record)) (cache.next base)⟩

/-- `lupine_deviceptr_allocation_cache_insert`. What the base has is erased first. -/
def insert (record : Record Context) : Cache Context :=
  if base = 0 ∨ record.size = 0 then cache.erase base
  else (cache.erase base).emplace base record

/-- The loop of `lupine_deviceptr_allocation_cache_lookup`, over the records that are left, the last
one first. -/
def lookupFrom (ptr : Word) (overlappingNeighbors : Word) :
    List (Entry Context) → Option (Entry Context)
  | [] => none
  | entry :: rest =>
    if ptr - entry.1 < entry.2.size then some entry
    else if overlappingNeighbors = 0 then none
    else lookupFrom ptr overlappingNeighbors rest

/-- `lupine_deviceptr_allocation_cache_lookup`. The pointer that it returns identifies the entry. -/
def lookup (ptr : Word) : Option (Entry Context) :=
  lookupFrom ptr cache.overlappingNeighbors (cache.allocations.upTo ptr).reverse

end

def apply (cache : Cache Context) : Operation Context → Cache Context
  | .insert base size routeId context => cache.insert base ⟨size, routeId, context⟩
  | .erase base => cache.erase base

end Cache

/-! ## What the table is for -/

/-- The record of each base. -/
abbrev Records (Context : Type) := Word → Option (Record Context)

/-- An operation changes the record of its base. -/
def Records.apply (records : Records Context) : Operation Context → Records Context
  | .insert base size routeId context =>
    update records base
      (if base = 0 ∨ size = 0 then none else some ⟨size, routeId, context⟩)
  | .erase base => update records base none

/-- The half-open span of an entry contains the pointer. -/
def Contains (entry : Entry Context) (ptr : Word) : Prop :=
  entry.1.val ≤ ptr.val ∧ ptr.val < entry.1.val + entry.2.size.val

/-- The number of entries that overlap the one that follows. -/
def overlappingPairs (entries : List (Entry Context)) : ℕ :=
  (adjacentPairs entries).countP fun pair => pair.2.1.val < pair.1.1.val + pair.1.2.size.val

/-- The entry that a scan of all records chooses. -/
structure Chosen (records : Records Context) (ptr : Word) (entry : Entry Context) : Prop where
  recorded : records entry.1 = some entry.2
  contains : Contains entry ptr
  greatest : ∀ other : Entry Context, records other.1 = some other.2 → Contains other ptr →
    other.1 ≤ entry.1

/-- The cache is the table of these records. -/
structure Refines (cache : Cache Context) (records : Records Context) : Prop where
  find : cache.allocations.find = records
  neighbors : cache.overlappingNeighbors.val = overlappingPairs cache.allocations.entries
  lookup : ∀ ptr entry, cache.lookup ptr = some entry ↔ Chosen records ptr entry
  lookup_none : ∀ ptr, cache.lookup ptr = none ↔
    ∀ entry : Entry Context, records entry.1 = some entry.2 → ¬ Contains entry ptr

/-! ## Counting -/

/-- The difference does not wrap. -/
theorem sub_lt_iff {a b size : Word} (h : b ≤ a) : a - b < size ↔ a.val < b.val + size.val := by
  rw [Fin.lt_def, Fin.sub_val_of_le h]
  have := Fin.le_def.mp h
  omega

theorem countP_joint (first second : Option (Entry Context))
    (h : ∀ e ∈ first, ∀ f ∈ second, e.1 ≤ f.1) :
    (joint first second).countP (fun pair => pair.2.1.val < pair.1.1.val + pair.1.2.size.val) =
      (overlaps first second).toNat := by
  cases first with
  | none => rfl
  | some e =>
    cases second with
    | none => rfl
    | some f =>
      have hle := h e rfl f rfl
      simp only [joint, overlaps, countP_singleton, decide_eq_true_eq, sub_lt_iff hle]
      split <;> simp [*]

/-- A record between its neighbours takes one pair apart and makes two. -/
theorem overlappingPairs_insert (m : OrderedMap Word (Record Context)) (base : Word)
    (record : Record Context) :
    overlappingPairs (m.below base ++ (base, record) :: m.above base) +
        (overlaps (m.below base).getLast? (m.above base).head?).toNat =
      overlappingPairs (m.below base ++ m.above base) +
        (overlaps (m.below base).getLast? (some (base, record))).toNat +
        (overlaps (some (base, record)) (m.above base).head?).toNat := by
  have hbelow : ∀ e ∈ (m.below base).getLast?, e.1 ≤ base := fun e he =>
    (mem_below.mp (mem_of_mem_getLast? he)).2.le
  have habove : ∀ e ∈ (m.above base).head?, base ≤ e.1 := fun e he =>
    (mem_above.mp (mem_of_mem_head? he)).2.le
  have hprevious := countP_joint (m.below base).getLast? (some (base, record)) fun e he f hf => by
    obtain rfl := Option.mem_some_iff.mp hf
    exact hbelow e he
  have hnext := countP_joint (some (base, record)) (m.above base).head? fun e he f hf => by
    obtain rfl := Option.mem_some_iff.mp he
    exact habove f hf
  have hskip := countP_joint (m.below base).getLast? (m.above base).head? fun e he f hf =>
    (hbelow e he).trans (habove f hf)
  simp only [overlappingPairs, adjacentPairs_append, adjacentPairs_cons, countP_append,
    List.head?_cons]
  omega

/-- There are fewer pairs than addresses. -/
theorem overlappingPairs_lt (m : OrderedMap Word (Record Context)) :
    overlappingPairs m.entries < 2 ^ 64 := by
  have hnodup : (m.entries.map Prod.fst).Nodup :=
    pairwise_map.mpr (m.sorted.imp fun h => ne_of_lt h)
  have hlength : m.entries.length ≤ 2 ^ 64 := by
    simpa using hnodup.length_le_card
  have hpairs : overlappingPairs m.entries ≤ m.entries.length - 1 :=
    countP_le_length.trans (length_adjacentPairs_le _)
  omega

/-! ## Operations -/

/-- The entries and the count of a cache agree. -/
def Cache.Counted (cache : Cache Context) : Prop :=
  cache.overlappingNeighbors = (overlappingPairs cache.allocations.entries : Word)

/-- The two directions of moving a record between its neighbours, in the arithmetic of `size_t`. -/
theorem count_of_add_eq {inside outside skip previous next : ℕ}
    (h : inside + skip = outside + previous + next) :
    ((outside : Word) - skip + previous + next = inside) ∧
      ((inside : Word) - previous - next + skip = outside) := by
  have hcast := congrArg (Nat.cast : ℕ → Word) h
  push_cast at hcast
  constructor
  · rw [sub_add_eq_add_sub, sub_add_eq_add_sub, ← hcast, add_sub_cancel_right]
  · rw [sub_sub, sub_add_eq_add_sub, hcast]
    ring

theorem Cache.Counted.erase (h : cache.Counted) (base : Word) : (cache.erase base).Counted := by
  unfold Cache.erase
  split
  · exact h
  · rename_i record hfind
    have hentries := entries_eq_of_find hfind
    have hpairs := overlappingPairs_insert cache.allocations base record
    rw [← hentries] at hpairs
    rw [Cache.Counted] at h
    simp only [Cache.Counted, h]
    exact (count_of_add_eq hpairs).2

theorem Cache.Counted.emplace (h : cache.Counted) {base : Word}
    (hfree : cache.allocations.find base = none) (record : Record Context) :
    (cache.emplace base record).Counted := by
  have hentries : cache.allocations.entries =
      cache.allocations.below base ++ cache.allocations.above base := by
    rw [← atLeast_eq_above hfree, below_append_atLeast]
  have hpairs := overlappingPairs_insert cache.allocations base record
  rw [← hentries] at hpairs
  rw [Cache.Counted] at h
  simp only [Cache.Counted, Cache.emplace, h]
  exact (count_of_add_eq hpairs).1

theorem Cache.find_erase (cache : Cache Context) (base : Word) :
    (cache.erase base).allocations.find = update cache.allocations.find base none := by
  unfold Cache.erase
  split
  · rename_i hfind
    rw [← hfind, update_eq_self]
  · exact OrderedMap.find_erase

theorem Cache.find_insert (cache : Cache Context) (base : Word) (record : Record Context) :
    (cache.insert base record).allocations.find = update cache.allocations.find base
      (if base = 0 ∨ record.size = 0 then none else some record) := by
  unfold Cache.insert
  split
  · exact cache.find_erase base
  · rw [Cache.emplace, OrderedMap.find_insert, cache.find_erase, update_idem]

theorem Cache.Counted.insert (h : cache.Counted) (base : Word) (record : Record Context) :
    (cache.insert base record).Counted := by
  unfold Cache.insert
  split
  · exact h.erase base
  · refine (h.erase base).emplace ?_ record
    rw [cache.find_erase, update_self]

/-! ## Lookups -/

/-- If no neighbours overlap then no records do. -/
theorem pairwise_of_overlappingPairs {m : OrderedMap Word (Record Context)}
    (h : overlappingPairs m.entries = 0) :
    m.entries.Pairwise fun e f => e.1.val + e.2.size.val ≤ f.1.val := by
  have : Trans (fun e f : Entry Context => e.1.val + e.2.size.val ≤ f.1.val)
      (fun e f : Entry Context => e.1.val + e.2.size.val ≤ f.1.val)
      (fun e f : Entry Context => e.1.val + e.2.size.val ≤ f.1.val) :=
    ⟨fun hef hfg => by omega⟩
  refine pairwise_of_adjacentPairs fun pair hpair => ?_
  have hnot := countP_eq_zero.mp h pair hpair
  simpa using hnot

/-- The loop finds the last record that contains the pointer, if the records that it does not look
at do not. -/
theorem lookupFrom_spec (ptr neighbors : Word) (entries : List (Entry Context))
    (hle : ∀ e ∈ entries, e.1 ≤ ptr) (hsorted : entries.Pairwise fun e f => f.1 < e.1)
    (hcut : neighbors = 0 → entries.Pairwise fun e f => f.1.val + f.2.size.val ≤ e.1.val) :
    (∀ entry, Cache.lookupFrom ptr neighbors entries = some entry →
      entry ∈ entries ∧ Contains entry ptr ∧ ∀ e ∈ entries, Contains e ptr → e.1 ≤ entry.1) ∧
    (Cache.lookupFrom ptr neighbors entries = none → ∀ e ∈ entries, ¬ Contains e ptr) := by
  induction entries with
  | nil => exact ⟨fun _ h => (nomatch h), fun _ _ he => absurd he not_mem_nil⟩
  | cons e rest ih =>
    obtain ⟨hfirst, hrest⟩ := pairwise_cons.mp hsorted
    have hiff : ptr - e.1 < e.2.size ↔ ptr.val < e.1.val + e.2.size.val :=
      sub_lt_iff (hle e mem_cons_self)
    rw [Cache.lookupFrom]
    split
    · rename_i hin
      refine ⟨fun entry h => ?_, fun h => nomatch h⟩
      cases h
      refine ⟨mem_cons_self, ⟨hle e mem_cons_self, hiff.mp hin⟩, fun f hf _ => ?_⟩
      rcases mem_cons.mp hf with rfl | hf
      · exact le_rfl
      · exact (hfirst f hf).le
    · rename_i hout
      have hhead : ¬ Contains e ptr := fun hc => hout (hiff.mpr hc.2)
      split
      · -- nothing below reaches the record that was looked at
        rename_i hzero
        refine ⟨fun _ h => (nomatch h), fun _ f hf hc => ?_⟩
        rcases mem_cons.mp hf with rfl | hf
        · exact hhead hc
        · have hbelow := (pairwise_cons.mp (hcut hzero)).1 f hf
          have hptr := Fin.le_def.mp (hle e mem_cons_self)
          have := hc.2
          omega
      · obtain ⟨hsome, hnone⟩ := ih (fun f hf => hle f (mem_cons_of_mem _ hf)) hrest
          fun hzero => (pairwise_cons.mp (hcut hzero)).2
        refine ⟨fun entry h => ?_, fun h f hf => ?_⟩
        · obtain ⟨hmem, hc, hmax⟩ := hsome entry h
          refine ⟨mem_cons_of_mem _ hmem, hc, fun f hf hfc => ?_⟩
          rcases mem_cons.mp hf with rfl | hf
          · exact absurd hfc hhead
          · exact hmax f hf hfc
        · rcases mem_cons.mp hf with rfl | hf
          · exact hhead
          · exact hnone h f hf

theorem Cache.Counted.val_eq (h : cache.Counted) :
    cache.overlappingNeighbors.val = overlappingPairs cache.allocations.entries := by
  rw [h, Fin.val_natCast, Nat.mod_eq_of_lt (overlappingPairs_lt _)]

/-- If nothing is counted then the records that are scanned do not overlap. -/
theorem Cache.Counted.pairwise_reverse (h : cache.Counted) (p : Entry Context → Bool)
    (hzero : cache.overlappingNeighbors = 0) :
    (cache.allocations.entries.filter p).reverse.Pairwise
      fun e f => f.1.val + f.2.size.val ≤ e.1.val := by
  have hnone : overlappingPairs cache.allocations.entries = 0 := by
    rw [← h.val_eq, hzero]
    rfl
  exact List.pairwise_reverse.mpr ((pairwise_of_overlappingPairs hnone).filter p)

theorem Cache.Counted.lookup_spec (h : cache.Counted) (ptr : Word) :
    (∀ entry, cache.lookup ptr = some entry →
      Chosen cache.allocations.find ptr entry) ∧
    (cache.lookup ptr = none →
      ∀ e : Entry Context, cache.allocations.find e.1 = some e.2 → ¬ Contains e ptr) := by
  have hmem : ∀ e, e ∈ (cache.allocations.upTo ptr).reverse ↔
      e ∈ cache.allocations.entries ∧ e.1 ≤ ptr := by
    intro e
    rw [mem_reverse, mem_upTo]
  have hscanned : ∀ e : Entry Context, cache.allocations.find e.1 = some e.2 → Contains e ptr →
      e ∈ (cache.allocations.upTo ptr).reverse := fun e he hc =>
    (hmem e).mpr ⟨find_eq_some_iff.mp he, Fin.le_def.mpr hc.1⟩
  obtain ⟨hsome, hnone⟩ := lookupFrom_spec ptr cache.overlappingNeighbors
    (cache.allocations.upTo ptr).reverse (fun e he => ((hmem e).mp he).2)
    (List.pairwise_reverse.mpr (cache.allocations.sorted.filter _)) (h.pairwise_reverse _)
  refine ⟨fun entry hlookup => ?_, fun hlookup e he hc => ?_⟩
  · obtain ⟨he, hc, hmax⟩ := hsome entry hlookup
    exact ⟨find_eq_some_iff.mpr ((hmem entry).mp he).1, hc,
      fun other hother hoc => hmax other (hscanned other hother hoc) hoc⟩
  · exact hnone hlookup e (hscanned e he hc) hc

theorem Chosen.unique {records : Records Context} {ptr : Word} {entry entry' : Entry Context}
    (h : Chosen records ptr entry) (h' : Chosen records ptr entry') : entry = entry' := by
  have hbase : entry.1 = entry'.1 :=
    le_antisymm (h'.greatest entry h.recorded h.contains)
      (h.greatest entry' h'.recorded h'.contains)
  have hrecord := h.recorded.symm.trans (hbase ▸ h'.recorded)
  exact Prod.ext hbase (Option.some.inj hrecord)

theorem Cache.Counted.refines (h : cache.Counted) : Refines cache cache.allocations.find where
  find := rfl
  neighbors := h.val_eq
  lookup ptr entry := by
    obtain ⟨hsome, hnone⟩ := h.lookup_spec ptr
    refine ⟨hsome entry, fun hchosen => ?_⟩
    cases hlookup : cache.lookup ptr with
    | none => exact absurd hchosen.contains (hnone hlookup entry hchosen.recorded)
    | some entry' => rw [(hsome entry' hlookup).unique hchosen]
  lookup_none ptr := by
    obtain ⟨hsome, hnone⟩ := h.lookup_spec ptr
    refine ⟨hnone, fun hall => ?_⟩
    cases hlookup : cache.lookup ptr with
    | none => rfl
    | some entry =>
      exact absurd (hsome entry hlookup).contains (hall entry (hsome entry hlookup).recorded)

/-! ## Histories -/

theorem Cache.Counted.apply (h : cache.Counted) (op : Operation Context) :
    (cache.apply op).Counted := by
  cases op with
  | insert base size routeId context => exact h.insert base _
  | erase base => exact h.erase base

theorem Cache.find_apply (cache : Cache Context) (op : Operation Context) :
    (cache.apply op).allocations.find = Records.apply cache.allocations.find op := by
  cases op with
  | insert base size routeId context => exact cache.find_insert base _
  | erase base => exact cache.find_erase base

theorem Cache.refines_records (ops : List (Operation Context)) :
    Refines (ops.foldl Cache.apply Cache.empty) (ops.foldl Records.apply fun _ => none) := by
  suffices hrun : ∀ cache : Cache Context, cache.Counted → (ops.foldl Cache.apply cache).Counted ∧
      (ops.foldl Cache.apply cache).allocations.find =
        ops.foldl Records.apply cache.allocations.find by
    obtain ⟨hcounted, hfind⟩ := hrun Cache.empty rfl
    change Refines _ (ops.foldl Records.apply (Cache.empty : Cache Context).allocations.find)
    rw [← hfind]
    exact hcounted.refines
  induction ops with
  | nil => exact fun cache h => ⟨h, rfl⟩
  | cons op ops ih =>
    intro cache h
    rw [foldl_cons, foldl_cons, ← cache.find_apply op]
    exact ih (cache.apply op) (h.apply op)

/-- **Allocation lookup.** After any operations the table refines the records that they leave. -/
theorem Cache.lookup_refines_scan (ops : List (Operation Context)) :
    Refines (ops.foldl Cache.apply Cache.empty) (ops.foldl Records.apply fun _ => none) :=
  Cache.refines_records ops

/-! ## Coverage -/

/-- `lupine_deviceptr_allocation_covers`. -/
def Cache.covers (cache : Cache Context) (ptr bytes : Word) (routeId : ℤ) : Bool :=
  bytes ≠ 0 && (cache.lookup ptr).any fun allocation => allocation.2.routeId = routeId &&
    (cache.lookup (ptr + bytes - 1)).map Prod.fst = some allocation.1

theorem Refines.covers_iff {records : Records Context} (h : Refines cache records)
    {ptr bytes : Word} {routeId : ℤ} :
    cache.covers ptr bytes routeId = true ↔ bytes ≠ 0 ∧ ∃ e, Chosen records ptr e ∧
      e.2.routeId = routeId ∧ Chosen records (ptr + bytes - 1) e := by
  simp only [Cache.covers, Bool.and_eq_true, decide_eq_true_eq, Option.any_eq_true,
    Option.map_eq_some_iff, h.lookup]
  refine and_congr_right fun _ => exists_congr fun e => and_congr_right fun he =>
    and_congr_right fun _ => ⟨?_, fun hlast => ⟨e, hlast, rfl⟩⟩
  rintro ⟨last, hlast, hbase⟩
  obtain rfl : last = e :=
    Prod.ext hbase (Option.some.inj (hlast.recorded.symm.trans (hbase ▸ he.recorded)))
  exact hlast

theorem val_last {bytes : Word} (hpos : bytes ≠ 0) (ptr : Word) :
    (ptr + bytes - 1).val = (ptr.val + bytes.val - 1) % 2 ^ 64 := by
  have hbytes : 0 < bytes.val := Nat.pos_of_ne_zero fun h => hpos (Fin.ext h)
  have hlast : (bytes - 1).val = bytes.val - 1 := Fin.sub_val_of_le (Fin.le_def.mpr hbytes)
  rw [add_sub_assoc, Fin.val_add, hlast, Nat.add_sub_assoc hbytes]

/-- Nothing is recorded at the null pointer. -/
theorem records_zero (ops : List (Operation Context)) :
    (ops.foldl Records.apply fun _ => none) 0 = none := by
  refine List.foldlRecOn ops _ (motive := fun r : Records Context => r 0 = none) rfl
    fun _ h op _ => ?_
  cases op with
  | insert base | erase base =>
    rcases eq_or_ne 0 base with rfl | hne
    · simp [Records.apply]
    · simpa [Records.apply, hne] using h

/-- The entry that contains both ends of a range, in a table that has no other. -/
theorem Chosen.of_one {base ptr : Word} {record : Record Context}
    (h : Contains (base, record) ptr) :
    Chosen (update (fun _ => none) base (some record)) ptr (base, record) := by
  refine ⟨update_self .., h, fun other hother _ => ?_⟩
  rcases eq_or_ne other.1 base with heq | hne
  · exact heq.le
  · simp [hne] at hother

/-- **Coverage.** Whatever is recorded, a range that is reported to be covered lies in one recorded
allocation of the route, exactly when it reaches at most one byte past the end of the address
space. -/
theorem covers_sound_iff [Inhabited Context] (ptr bytes : Word) :
    ptr.val + bytes.val ≤ 2 ^ 64 + 1 ↔ ∀ (ops : List (Operation Context)) (routeId : ℤ),
      (ops.foldl Cache.apply Cache.empty).covers ptr bytes routeId = true →
      ∃ e : Entry Context, (ops.foldl Records.apply fun _ => none) e.1 = some e.2 ∧
        e.2.routeId = routeId ∧
        ∀ b, ptr.val ≤ b → b < ptr.val + bytes.val →
          e.1.val ≤ b ∧ b < e.1.val + e.2.size.val := by
  constructor
  · intro hend ops routeId hcovers
    obtain ⟨hpos, e, hfirst, hroute, hlast⟩ := (Cache.refines_records ops).covers_iff.mp hcovers
    obtain ⟨hstart, hstop⟩ := hlast.contains
    have hbase : e.1.val ≠ 0 := fun h => by
      have hrecorded := hlast.recorded
      rw [show e.1 = 0 from Fin.ext h, records_zero] at hrecorded
      cases hrecorded
    rw [val_last hpos] at hstart hstop
    refine ⟨e, hfirst.recorded, hroute, fun b hle hlt => ⟨hfirst.contains.1.trans hle, ?_⟩⟩
    omega
  · -- a record from the last byte, which is looked up below the first one, to the first byte
    intro hsound
    by_contra! hend
    have hpos : bytes ≠ 0 := by
      rintro rfl
      simp at hend
      omega
    have hval := val_last hpos ptr
    set last := ptr + bytes - 1
    have hle : last.val ≤ ptr.val := by omega
    have hsize : ptr.val - last.val + 1 < 2 ^ 64 := by omega
    let record : Record Context := ⟨⟨ptr.val - last.val + 1, hsize⟩, 0, default⟩
    have hbase : last ≠ 0 := fun h => by
      rw [h, Fin.val_zero] at hval
      omega
    let ops : List (Operation Context) := [.insert last record.size 0 default]
    have hone : ops.foldl Records.apply (fun _ => none) =
        update (fun _ => none) last (some record) := by
      simp [ops, Records.apply, hbase, record, Fin.ext_iff]
    have hrefines := Cache.refines_records ops
    rw [hone] at hrefines
    have hfirst : Contains (last, record) ptr := ⟨hle, show ptr.val < last.val + (_ + 1) by omega⟩
    have hstart : Contains (last, record) last :=
      ⟨le_rfl, Nat.lt_add_of_pos_right (Nat.succ_pos _)⟩
    obtain ⟨e, he, -, hall⟩ := hsound ops 0
      (hrefines.covers_iff.mpr ⟨hpos, _, .of_one hfirst, rfl, .of_one hstart⟩)
    have hlt := (hall (ptr.val + 1) (by omega) (by omega)).2
    rw [hone] at he
    rcases eq_or_ne e.1 last with heq | hne
    · rw [heq, update_self, Option.some.injEq] at he
      rw [heq, ← he] at hlt
      simp only [record] at hlt
      omega
    · simp [hne] at he

/-- The last byte of the range is looked up before its first. -/
theorem covers_past_the_end :
    (Cache.empty.apply (.insert 4096 16 0 ()) : Cache Unit).covers 4100 (2 ^ 64 - 2) 0 = true ∧
    ¬ ∃ e : Entry Unit, Records.apply (fun _ => none) (.insert 4096 16 0 ()) e.1 = some e.2 ∧
      ∀ b : Word, 4100 ≤ b.val → Contains e b := by
  refine ⟨by decide, ?_⟩
  rintro ⟨⟨base, record⟩, hrecord, hall⟩
  have hbase : base = 4096 ∧ record = ⟨16, 0, ()⟩ := by
    rcases eq_or_ne base 4096 with rfl | hne
    · simpa [Records.apply, eq_comm] using hrecord
    · simp [Records.apply, hne] at hrecord
  obtain ⟨rfl, rfl⟩ := hbase
  exact absurd (hall 8192 (by decide)).2 (by decide)

end Lupine.Routing.Allocations
