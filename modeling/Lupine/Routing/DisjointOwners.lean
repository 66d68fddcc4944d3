import Lupine.Routing.Allocations

/-!
# Disjoint owners

Two servers may hand out the same device addresses. `lupine_record_disjoint_allocation` of
`routing.cpp` therefore allocates again until the range overlaps no record of another route, and
only then records it.

* `disjoint_owners`: the check finds every record of another route that shares a byte with the
  range, whatever is recorded, exactly when the range ends below the top of the address space; as
  long as all ranges do, the records of different routes stay disjoint.
* `overlap_at_top`: a range that ends at the top is recorded over the record of another route, since
  its end wraps to zero and nothing is scanned.
* `routed_to_owner`: a pointer goes to the server of every record that contains it.
-/

namespace Lupine.Routing.Allocations

open Foundations List Cache OrderedMap

variable {Context : Type} {cache : Cache Context} {base size : Word} {routeId : ℤ}

namespace Cache

/-- The loop of `lupine_deviceptr_allocation_cache_overlaps_other_route`, over the records that are
left, the last one first. -/
def overlapsFrom (base : Word) (routeId : ℤ) (overlappingNeighbors : Word) :
    List (Entry Context) → Bool
  | [] => false
  | entry :: rest =>
    if (base ≤ entry.1 ∨ base - entry.1 < entry.2.size) ∧ entry.2.routeId ≠ routeId then true
    else if entry.1 < base ∧ overlappingNeighbors.val = 0 then false
    else overlapsFrom base routeId overlappingNeighbors rest

/-- `lupine_deviceptr_allocation_cache_overlaps_other_route`. -/
def overlapsOtherRoute (cache : Cache Context) (base size : Word) (routeId : ℤ) : Bool :=
  overlapsFrom base routeId cache.overlappingNeighbors
    (cache.allocations.below (base + size)).reverse

end Cache

/-- What `lupine_routing_mutex` protects of the device pointers. -/
structure Table (Context : Type) where
  /-- `lupine_owners`, with the identities of the routes. -/
  owners : Word → Option ℤ
  cache : Cache Context

namespace Table

/-- `lupine_note_deviceptr_allocation_owner_locked`. -/
def noteOwner (table : Table Context) (size : Word) (routeId : ℤ) (context : Context) (ptr : Word) :
    Table Context :=
  ⟨Function.update table.owners ptr (some routeId),
    table.cache.insert ptr ⟨size, routeId, context⟩⟩

/-- `lupine_note_disjoint_deviceptr_allocation`, with the identity of the route. `none` is `false`:
the range is not recorded. -/
def noteDisjoint (table : Table Context) (size : Word) (routeId : ℤ) (context : Context)
    (ptr : Word) : Option (Table Context) :=
  if ptr.val = 0 ∨ routeId < -1 then some table
  else if table.cache.overlapsOtherRoute ptr size routeId then none
  else some (table.noteOwner size routeId context ptr)

/-- `lupine_record_disjoint_allocation`. The list is what the repeated allocations answer, with
`none` for an error. The result is `some` if the call succeeds. -/
def recordDisjointAllocation (table : Table Context) (size : Word) (routeId : ℤ)
    (context : Context) (ptr : Word) : List (Option Word) → Option (Table Context)
  | [] => table.noteDisjoint size routeId context ptr
  | answer :: again =>
    match table.noteDisjoint size routeId context ptr with
    | some noted => some noted
    | none =>
      match answer with
      | none => none
      | some ptr => table.recordDisjointAllocation size routeId context ptr again

end Table

/-- A call of `lupine_record_disjoint_allocation`. -/
structure Call (Context : Type) where
  ptr : Word
  size : Word
  routeId : ℤ
  context : Context
  again : List (Option Word)

/-- What a call leaves. One that fails records nothing. -/
def Table.record (table : Table Context) (call : Call Context) : Table Context :=
  (table.recordDisjointAllocation call.size call.routeId call.context call.ptr call.again).getD
    table

/-- A record shares a byte with a range. -/
def Shares (entry : Entry Context) (base size : Word) : Prop :=
  ∃ ptr, Contains entry ptr ∧ base.val ≤ ptr.val ∧ ptr.val < base.val + size.val

/-- Every range of the call ends below the top of the address space. -/
def Call.EndsBelowTop (call : Call Context) : Prop :=
  ∀ ptr, some ptr ∈ some call.ptr :: call.again → ptr.val + call.size.val < 2 ^ 64

/-! ## The check -/

/-- What every operation keeps: the count is right, and no record is empty. -/
structure Cache.Sound (cache : Cache Context) : Prop where
  counted : cache.Counted
  sized : ∀ e ∈ cache.allocations.entries, 0 < e.2.size.val

theorem Cache.sound_empty : (Cache.empty : Cache Context).Sound :=
  ⟨rfl, fun _ he => absurd he not_mem_nil⟩

theorem Cache.mem_insert {record : Record Context} {e : Entry Context}
    (h : e ∈ (cache.insert base record).allocations.entries) :
    e = (base, record) ∧ record.size ≠ 0 ∨ e ∈ cache.allocations.entries := by
  rw [← find_eq_some_iff, cache.find_insert, Function.update_apply] at h
  split at h
  · rename_i hbase
    split at h
    · cases h
    · rename_i hsize
      exact .inl ⟨Prod.ext hbase (Option.some.inj h).symm, fun hzero => hsize (.inr hzero)⟩
  · exact .inr (find_eq_some_iff.mp h)

theorem Cache.mem_of_mem_erase {e : Entry Context}
    (h : e ∈ (cache.erase base).allocations.entries) : e ∈ cache.allocations.entries := by
  rw [← find_eq_some_iff, cache.find_erase, Function.update_apply] at h
  split at h
  · cases h
  · exact find_eq_some_iff.mp h

theorem Cache.Sound.insert (h : cache.Sound) (base : Word) (record : Record Context) :
    (cache.insert base record).Sound := by
  refine ⟨h.counted.insert base record, fun e he => ?_⟩
  obtain ⟨rfl, hsize⟩ | he := mem_insert he
  · exact Fin.pos_iff_ne_zero.mpr hsize
  · exact h.sized e he

theorem Cache.Sound.apply (h : cache.Sound) (op : Operation Context) : (cache.apply op).Sound := by
  cases op with
  | insert base size routeId context => exact h.insert base _
  | erase base => exact ⟨h.counted.erase base, fun e he => h.sized e (mem_of_mem_erase he)⟩

theorem Shares.iff {e : Entry Context} (he : 0 < e.2.size.val) (hsize : 0 < size.val) :
    Shares e base size ↔
      e.1.val < base.val + size.val ∧ base.val < e.1.val + e.2.size.val := by
  constructor
  · rintro ⟨ptr, hc, hle, hlt⟩
    obtain ⟨hle', hlt'⟩ := hc
    omega
  · rintro ⟨hbelow, habove⟩
    refine ⟨⟨max e.1.val base.val, by omega⟩, ⟨?_, ?_⟩, ?_, ?_⟩ <;> simp only <;> omega

/-- The loop finds the records that end above the base, if those that it does not look at do not. -/
theorem overlapsFrom_iff {neighbors : Word} {entries : List (Entry Context)}
    (hsized : ∀ e ∈ entries, 0 < e.2.size.val)
    (hcut : neighbors.val = 0 → entries.Pairwise fun e f => f.1.val + f.2.size.val ≤ e.1.val) :
    Cache.overlapsFrom base routeId neighbors entries = true ↔
      ∃ e ∈ entries, base.val < e.1.val + e.2.size.val ∧ e.2.routeId ≠ routeId := by
  induction entries with
  | nil => simp [overlapsFrom]
  | cons e rest ih =>
    have hreach : base ≤ e.1 ∨ base - e.1 < e.2.size ↔ base.val < e.1.val + e.2.size.val := by
      have hpos := hsized e mem_cons_self
      rcases le_total base e.1 with hle | hle
      · have := Fin.le_def.mp hle
        exact iff_of_true (.inl hle) (by omega)
      · rw [sub_lt_iff hle, Fin.le_def]
        omega
    simp only [overlapsFrom, hreach]
    split
    · rename_i hfound
      exact iff_of_true rfl ⟨e, mem_cons_self, hfound⟩
    · rename_i hhead
      simp only [mem_cons, exists_eq_or_imp, hhead, false_or]
      split
      · -- nothing further down reaches the record that was looked at
        rename_i hstop
        refine iff_of_false Bool.false_ne_true ?_
        rintro ⟨f, hf, habove, -⟩
        have hends := (pairwise_cons.mp (hcut hstop.2)).1 f hf
        have := Fin.lt_def.mp hstop.1
        omega
      · exact ih (fun f hf => hsized f (mem_cons_of_mem _ hf)) fun hzero =>
          (pairwise_cons.mp (hcut hzero)).2

theorem Cache.Sound.overlapsOtherRoute_iff (h : cache.Sound) :
    cache.overlapsOtherRoute base size routeId = true ↔
      ∃ e ∈ cache.allocations.entries, e.2.routeId ≠ routeId ∧
        e.1 < base + size ∧ base.val < e.1.val + e.2.size.val := by
  have hsized : ∀ e ∈ (cache.allocations.below (base + size)).reverse, 0 < e.2.size.val :=
    fun e he => h.sized e (mem_below.mp (mem_reverse.mp he)).1
  rw [overlapsOtherRoute, overlapsFrom_iff hsized fun hzero =>
    h.counted.pairwise_reverse _ (Fin.ext hzero)]
  refine exists_congr fun e => ?_
  rw [mem_reverse, mem_below]
  tauto

/-- The check is exact for a range whose end does not wrap. -/
theorem Cache.Sound.overlapsOtherRoute_exact (h : cache.Sound) (hsize : size ≠ 0)
    (hend : base.val + size.val < 2 ^ 64) :
    cache.overlapsOtherRoute base size routeId = true ↔
      ∃ e ∈ cache.allocations.entries, e.2.routeId ≠ routeId ∧ Shares e base size := by
  rw [h.overlapsOtherRoute_iff]
  refine exists_congr fun e => and_congr_right fun he => and_congr_right fun _ => ?_
  rw [Shares.iff (h.sized e he) (Fin.pos_iff_ne_zero.mpr hsize), Fin.lt_def, Fin.val_add,
    Nat.mod_eq_of_lt hend]

theorem Cache.sound_foldl (ops : List (Operation Context)) :
    (ops.foldl apply empty : Cache Context).Sound :=
  List.foldlRecOn ops _ sound_empty fun _ h op _ => h.apply op

/-- A record of one byte at the base is missed if the end wraps. -/
theorem end_lt_of_exact [Inhabited Context] (hsize : size ≠ 0)
    (hexact :
      (Cache.empty.insert base ⟨1, 1, default⟩ : Cache Context).overlapsOtherRoute base size 0 =
          true ↔
      ∃ e ∈ (Cache.empty.insert base ⟨1, 1, default⟩ : Cache Context).allocations.entries,
        e.2.routeId ≠ 0 ∧ Shares e base size) : base.val + size.val < 2 ^ 64 := by
  have hpos : 0 < size.val := Fin.pos_iff_ne_zero.mpr hsize
  by_contra! hwraps
  have hbase : base ≠ 0 := by
    rintro rfl
    have := size.isLt
    simp at hwraps
    omega
  have hmem : (base, (⟨1, 1, default⟩ : Record Context)) ∈
      (Cache.empty.insert base ⟨1, 1, default⟩ : Cache Context).allocations.entries := by
    rw [← find_eq_some_iff, find_insert, Function.update_self, if_neg (by simp [hbase])]
  obtain ⟨e, he, -, hlt, -⟩ := (sound_foldl [.insert base 1 1 default]).overlapsOtherRoute_iff.mp
    (hexact.mpr ⟨_, hmem, one_ne_zero, (Shares.iff one_pos hpos).mpr
      ⟨Nat.lt_add_of_pos_right hpos, Nat.lt_succ_self _⟩⟩)
  obtain ⟨rfl, -⟩ | he := mem_insert he
  · rw [Fin.lt_def, Fin.val_add] at hlt
    simp only at hlt
    omega
  · exact absurd he not_mem_nil

/-! ## Sequences of calls -/

/-- The records of different routes share no byte. -/
def Cache.DisjointOwners (cache : Cache Context) : Prop :=
  ∀ e ∈ cache.allocations.entries, ∀ f ∈ cache.allocations.entries,
    e.2.routeId ≠ f.2.routeId → ¬ Shares e f.1 f.2.size

theorem Shares.symm {e f : Entry Context} (h : Shares e f.1 f.2.size) : Shares f e.1 e.2.size := by
  obtain ⟨ptr, he, hf⟩ := h
  exact ⟨ptr, hf, he⟩

/-- A call writes nothing, or one of its ranges that the check has let pass. -/
theorem Table.record_cases (table : Table Context) (call : Call Context) :
    table.record call = table ∨ ∃ ptr, some ptr ∈ some call.ptr :: call.again ∧ ptr ≠ 0 ∧
      table.cache.overlapsOtherRoute ptr call.size call.routeId = false ∧
      table.record call = table.noteOwner call.size call.routeId call.context ptr := by
  obtain ⟨ptr, size, routeId, context, again⟩ := call
  have hnote : ∀ ptr noted, table.noteDisjoint size routeId context ptr = some noted →
      noted = table ∨ ptr ≠ 0 ∧ table.cache.overlapsOtherRoute ptr size routeId = false ∧
        noted = table.noteOwner size routeId context ptr := by
    intro ptr noted h
    unfold Table.noteDisjoint at h
    split_ifs at h with hnull hfound <;> cases h
    · exact .inl rfl
    · exact .inr ⟨fun h => hnull (.inl (by rw [h]; rfl)), by simpa using hfound, rfl⟩
  simp only [Table.record]
  induction again generalizing ptr with
  | nil =>
    simp only [Table.recordDisjointAllocation]
    cases h : table.noteDisjoint size routeId context ptr with
    | none => exact .inl rfl
    | some noted => exact (hnote ptr noted h).imp id fun h => ⟨ptr, mem_cons_self, h⟩
  | cons answer again ih =>
    simp only [Table.recordDisjointAllocation]
    cases h : table.noteDisjoint size routeId context ptr with
    | some noted => exact (hnote ptr noted h).imp id fun h => ⟨ptr, mem_cons_self, h⟩
    | none =>
      cases answer with
      | none => exact .inl rfl
      | some next =>
        refine (ih next).imp id ?_
        rintro ⟨p, hp, h⟩
        exact ⟨p, mem_cons_of_mem _ hp, h⟩

/-- The table is well formed, and no routes overlap in it. -/
structure Table.Sound (table : Table Context) : Prop where
  cache : table.cache.Sound
  disjoint : table.cache.DisjointOwners

/-- A range that the check lets pass is recorded next to disjoint ones. -/
theorem Table.Sound.record {table : Table Context} (h : table.Sound) {call : Call Context}
    (hend : call.EndsBelowTop) : (table.record call).Sound := by
  obtain heq | ⟨ptr, hptr, -, hfree, heq⟩ := table.record_cases call
  · rwa [heq]
  · rw [heq]
    refine ⟨h.cache.insert ptr _, ?_⟩
    have hnew : ∀ e ∈ table.cache.allocations.entries, call.size ≠ 0 → e.2.routeId ≠ call.routeId →
        ¬ Shares e ptr call.size := fun e he hsize hroute hshares => by
      rw [(h.cache.overlapsOtherRoute_exact hsize (hend ptr hptr)).mpr ⟨e, he, hroute, hshares⟩]
        at hfree
      cases hfree
    intro e he f hf hroute hshares
    obtain ⟨rfl, hsize⟩ | he := mem_insert he
    · obtain ⟨rfl, -⟩ | hf := mem_insert hf
      · exact hroute rfl
      · exact hnew f hf hsize hroute.symm hshares.symm
    · obtain ⟨rfl, hsize⟩ | hf := mem_insert hf
      · exact hnew e he hsize hroute hshares
      · exact h.disjoint e he f hf hroute hshares

def Table.empty : Table Context := ⟨fun _ => none, .empty⟩

theorem Table.sound_empty (owners : Word → Option ℤ) :
    (⟨owners, .empty⟩ : Table Context).Sound :=
  ⟨Cache.sound_empty, fun _ he => absurd he not_mem_nil⟩

/-- **Disjoint owners.** The check is exact on every table for the ranges that end below the top of
the address space, and for no others. Calls with such ranges leave no two records of different
routes that overlap. -/
theorem disjoint_owners [Inhabited Context] :
    (∀ base size : Word, size ≠ 0 → (base.val + size.val < 2 ^ 64 ↔
      ∀ (ops : List (Operation Context)) (routeId : ℤ),
        ((ops.foldl Cache.apply Cache.empty).overlapsOtherRoute base size routeId = true ↔
          ∃ e ∈ (ops.foldl Cache.apply Cache.empty).allocations.entries,
            e.2.routeId ≠ routeId ∧ Shares e base size))) ∧
    ∀ calls : List (Call Context), (∀ call ∈ calls, call.EndsBelowTop) →
      (calls.foldl Table.record Table.empty).cache.DisjointOwners := by
  constructor
  · intro base size hsize
    refine ⟨fun hend ops routeId => ?_, fun h => ?_⟩
    · exact (sound_foldl ops).overlapsOtherRoute_exact hsize hend
    · exact end_lt_of_exact hsize (h [.insert base 1 1 default] 0)
  · intro calls hends
    exact (List.foldlRecOn calls _ (motive := Table.Sound) (Table.sound_empty _)
      fun _ h call hcall => h.record (hends call hcall)).disjoint

theorem disjoint_owners_two :
    ((Cache.empty.insert 4096 ⟨16, 0, ()⟩).overlapsOtherRoute 4100 16 1 = true ↔
      ∃ e ∈ (Cache.empty.insert 4096 ⟨16, 0, ()⟩).allocations.entries,
        e.2.routeId ≠ 1 ∧ Shares e 4100 16) ∧
    ([⟨4096, 16, 0, (), []⟩, ⟨4100, 16, 1, (), [some 4112]⟩].foldl Table.record
      (Table.empty : Table Unit)).cache.DisjointOwners := by
  refine ⟨(disjoint_owners.1 4100 16 (by decide)).mp (by decide) [.insert 4096 16 0 ()] 1,
    disjoint_owners.2 _ fun call hcall ptr hptr => ?_⟩
  simp only [mem_cons, not_mem_nil, or_false] at hcall
  rcases hcall with rfl | rfl <;> simp at hptr
  · subst hptr
    decide
  · rcases hptr with rfl | rfl <;> decide

/-- The last eight bytes of the address space are recorded for a second route. -/
theorem overlap_at_top :
    (Cache.empty.insert (2 ^ 64 - 16) ⟨15, 0, ()⟩).overlapsOtherRoute (2 ^ 64 - 8) 8 1 = false ∧
    ¬ ([⟨2 ^ 64 - 16, 15, 0, (), []⟩, ⟨2 ^ 64 - 8, 8, 1, (), []⟩].foldl Table.record
      (Table.empty : Table Unit)).cache.DisjointOwners := by
  refine ⟨by decide, fun h => ?_⟩
  refine h (2 ^ 64 - 16, ⟨15, 0, ()⟩) ?_ (2 ^ 64 - 8, ⟨8, 1, ()⟩) ?_ (by decide)
    ⟨2 ^ 64 - 8, ⟨by decide, by decide⟩, by decide, by decide⟩
  · exact .head _
  · exact .tail _ (.head _)

/-! ## Routes of pointers -/

/-- An allocation, or a free. -/
inductive Change (Context : Type)
  | allocate (call : Call Context)
  | free (base : Word)

namespace Table

variable {table : Table Context} {ptr : Word}

/-- A free calls `lupine_forget_deviceptr_owner`. -/
def change (table : Table Context) : Change Context → Table Context
  | .allocate call => table.record call
  | .free base => ⟨Function.update table.owners base none, table.cache.erase base⟩

/-- `lupine_route_for_deviceptr`, with the identities of the routes. -/
def routeForDeviceptr (table : Table Context) (otherwise : ℤ) (ptr : Word) : ℤ :=
  (table.owners ptr).getD (((table.cache.lookup ptr).map (·.2.routeId)).getD otherwise)

/-- The owner of a pointer is the route of the record at this pointer. -/
def Owned (table : Table Context) (ptr : Word) : Prop :=
  ∀ routeId ∈ table.owners ptr, ∃ record, table.cache.allocations.find ptr = some record ∧
    record.routeId = routeId

theorem Owned.change (h : table.Owned ptr) {c : Change Context}
    (hsize : ∀ call, c = .allocate call → call.size ≠ 0) : (table.change c).Owned ptr := by
  cases c with
  | allocate call =>
    obtain heq | ⟨p, -, hp, -, heq⟩ := table.record_cases call
    · rwa [Table.change, heq]
    · rw [Table.change, heq, Owned, noteOwner, find_insert]
      rcases eq_or_ne ptr p with rfl | hne
      · simp [hp, hsize call rfl]
      · simpa [hne, Owned] using h
  | free base =>
    rw [Owned, Table.change, Cache.find_erase]
    rcases eq_or_ne ptr base with rfl | hne
    · simp
    · simpa [hne, Owned] using h

end Table

/-- **Pointers go to their server.** After any allocations, whose ranges end below the top of the
address space, and any frees, a pointer is routed to the server of every allocation that contains
it, unless it has an owner that none of the allocations gave it, or one of an empty allocation. -/
theorem routed_to_owner {owners : Word → Option ℤ} {changes : List (Change Context)}
    (hends : ∀ call, .allocate call ∈ changes → call.EndsBelowTop) {table : Table Context}
    (htable : changes.foldl Table.change ⟨owners, .empty⟩ = table) {e : Entry Context} {ptr : Word}
    (he : e ∈ table.cache.allocations.entries) (hptr : Contains e ptr)
    (howner : table.owners ptr = none ∨
      owners ptr = none ∧ ∀ call, .allocate call ∈ changes → call.size ≠ 0) (otherwise : ℤ) :
    table.routeForDeviceptr otherwise ptr = e.2.routeId := by
  subst htable
  have hstep : ∀ t : Table Context, t.Sound → ∀ c ∈ changes, (t.change c).Sound := by
    intro t h c hc
    cases c with
    | allocate call => exact h.record (hends call hc)
    | free base =>
      exact ⟨h.cache.apply (.erase base), fun e he f hf =>
        h.disjoint e (mem_of_mem_erase he) f (mem_of_mem_erase hf)⟩
  obtain ⟨hsound, hdisjoint⟩ :=
    List.foldlRecOn changes _ (motive := Table.Sound) (Table.sound_empty owners) hstep
  have hsame : ∀ f : Entry Context, f ∈ _ → Contains f ptr → f.2.routeId = e.2.routeId :=
    fun f hf hc => by_contra fun hne => hdisjoint f hf e he hne ⟨ptr, hc, hptr⟩
  have howned : (changes.foldl Table.change ⟨owners, .empty⟩).Owned ptr := by
    rcases howner with hnone | ⟨hnone, hsizes⟩
    · simp [Table.Owned, hnone]
    · refine List.foldlRecOn changes _ (motive := (Table.Owned · ptr))
        (by simp [Table.Owned, hnone]) fun t h c hc => h.change ?_
      rintro call rfl
      exact hsizes call hc
  rw [Table.routeForDeviceptr]
  cases howner : (changes.foldl Table.change ⟨owners, .empty⟩).owners ptr with
  | some routeId =>
    obtain ⟨record, hfind, rfl⟩ := howned routeId howner
    have hmem := find_eq_some_iff.mp hfind
    exact hsame (ptr, record) hmem ⟨le_rfl, Nat.lt_add_of_pos_right (hsound.sized _ hmem)⟩
  | none =>
    obtain ⟨hsome, hnone⟩ := hsound.counted.lookup_spec ptr
    cases hlookup : (changes.foldl Table.change ⟨owners, .empty⟩).cache.lookup ptr with
    | none => exact absurd hptr (hnone hlookup e (find_eq_some_iff.mpr he))
    | some f =>
      have hf := hsome f hlookup
      exact hsame f (find_eq_some_iff.mp hf.recorded) hf.contains

theorem routed_to_owner_of_one :
    ([.allocate ⟨4096, 16, 1, (), []⟩, .free 8192].foldl Table.change
      (Table.empty : Table Unit)).routeForDeviceptr 0 4100 = 1 := by
  refine routed_to_owner (e := (4096, ⟨16, 1, ()⟩)) (fun call hcall p hp => ?_) rfl (.head _)
    ⟨by decide, by decide⟩ (.inr ⟨rfl, by simp⟩) 0
  obtain rfl : call = ⟨4096, 16, 1, (), []⟩ := by simpa using hcall
  obtain rfl : p = 4096 := by simpa using hp
  decide

end Lupine.Routing.Allocations
