import Lupine.Foundations.ReplyCache

/-!
# The cache of pointer attributes

`cuPointerGetAttributes` keeps the server's values for pointers into the client's host and managed
allocations, for each allocation and list of attributes. The two attributes that are pointers
themselves are computed anew for each query; the others do not depend on the offset, so that a
query is one of the allocation. Freeing an allocation clears the cache, retires the allocation and
releases it on the server; setting an attribute does not clear anything.

* `cached_attributes_current`: when no change of an allocation overlaps with a query of it, and no
  cached list has the attribute that is set, the cache has what the server would answer.
* `stale_attributes_cached`: an attribute that is set while it is cached, and a reply that is
  inserted after its allocation was freed and the address reused.
-/

namespace Lupine.HostMemory.AttributeCache

open Foundations Foundations.ReplyCache Function

/-- The attributes that `lupine_pointer_attribute_size` knows. -/
inductive Attribute
  | context
  | memoryType
  | devicePointer
  | hostPointer
  | p2pTokens
  | syncMemops
  | isManaged
  | deviceOrdinal
  | isLegacyCudaIpcCapable
  | mapped
  | accessFlags
  | isGpuDirectRdmaCapable
  | isHwDecompressCapable
  | bufferId
  | memoryBlockId
  | rangeStartAddr
  | mappingBaseAddr
  | rangeSize
  | mappingSize
  | allowedHandleTypes
  | mempoolHandle
  deriving DecidableEq

/-- The values of the attributes of an allocation. -/
abbrev Values := Attribute → List UInt8

/-- The server's allocations, by their base, and the client's registry of them. -/
structure Allocations (β : Type*) where
  values : β → Values
  registered : β → Bool

/-- What the calls do to an allocation, step by step. -/
inductive Request (β : Type*)
  /-- `cuPointerSetAttribute`; only `CU_POINTER_ATTRIBUTE_SYNC_MEMOPS` can be set. -/
  | set (base : β) (value : List UInt8)
  /-- The driver allocates or frees memory at the address. -/
  | remap (base : β) (values : Values)
  | register (base : β)
  | unregister (base : β)

variable {β τ : Type*}

def Request.base : Request β → β
  | set b _ | remap b _ | register b | unregister b => b

variable [DecidableEq β]

def Request.perform : Request β → Allocations β → Allocations β
  | set b value, s =>
    let values := update (s.values b) .syncMemops value
    { s with values := update s.values b values }
  | remap b values, s => { s with values := update s.values b values }
  | register b, s => { s with registered := update s.registered b true }
  | unregister b, s => { s with registered := update s.registered b false }

/-- The requests that change the answer to a query. -/
def Request.Affects (key : β × List Attribute) : Request β → Prop
  | set b _ => b = key.1 ∧ .syncMemops ∈ key.2
  | r => r.base = key.1

attribute [local simp] Request.perform

/-- A query of registered memory: its key is `lupine_pointer_attribute_cache_key`. -/
def replier : Replier (Allocations β) (Request β) (β × List Attribute) (List (List UInt8)) where
  apply := Request.perform
  answer s key := key.2.map (s.values key.1)
  askable s key := s.registered key.1 = true
  affects r key := r.Affects key
  answer_apply := by
    rintro (⟨b, value⟩ | ⟨b, values⟩ | b | b) ⟨base, attributes⟩ h s
    · refine List.map_congr_left fun a ha => ?_
      rcases eq_or_ne base b with rfl | hne
      · have hne : a ≠ .syncMemops := fun h' => h ⟨rfl, h' ▸ ha⟩
        simp [hne]
      · simp [hne]
    · have hne : base ≠ b := fun h' => h h'.symm
      simp [hne]
    · rfl
    · rfl
  askable_apply := by
    rintro (⟨b, value⟩ | ⟨b, values⟩ | b | b) ⟨base, attributes⟩ h s ha
    · exact ha
    · exact ha
    all_goals
      have hne : base ≠ b := fun h' => h h'.symm
      simpa [hne] using ha

/-- The calls that change an allocation. -/
inductive Call (β : Type*)
  | pointerSetAttribute (base : β) (value : List UInt8)
  /-- The driver's values for the memory, and for the address after it was freed, are inputs. -/
  | allocate (base : β) (values : Values)
  | free (base : β) (values : Values)

namespace Call

/-- Only a free clears the cache, and all of it. -/
def erased : Call β → β × List Attribute → Bool
  | free .. => fun _ => true
  | _ => fun _ => false

/-- What a call asks of the server. -/
def requests : Call β → List (Request β)
  | pointerSetAttribute b value => [.set b value]
  | allocate b values => [.remap b values, .register b]
  | free b values => [.unregister b, .remap b values]

end Call

variable [DecidableEq τ]

/-- The threads, with the cache they share. -/
abbrev Client (β τ : Type*) :=
  State (Allocations β) (Request β) (β × List Attribute) (List (List UInt8)) τ

/-- A step of the client: a change is made by one of the calls. -/
def Move (s : Client β τ) (a : Action (Request β) (β × List Attribute) τ) (t : Client β τ) :
    Prop :=
  (∀ i erased requests, a = .start i erased requests →
    ∃ c : Call β, erased = c.erased ∧ requests = c.requests) ∧ Step replier s a t

/-- **The cached attributes are the server's** in every state of an orderly run. -/
theorem cached_attributes_current {server : Allocations β}
    {as : List (Action (Request β) (β × List Attribute) τ)} {s : Client β τ}
    (hrun : Trace (fun s a t => Orderly replier s a ∧ Move s a t) (.init server) as s) {base : β}
    {attributes : List Attribute} {cached : List (List UInt8)}
    (hcached : s.cache (base, attributes) = some cached) :
    cached = attributes.map (s.server.values base) :=
  ((hrun.invariant (fun _ _ _ h hstep => h.step hstep.1 hstep.2.2)
    (coherent_init server)).cached _ cached hcached).2

/-- One allocation that is registered, with a value for every attribute. -/
def oneAllocation : Allocations Unit := ⟨fun _ _ => [0], fun _ => true⟩

/-- A query of an attribute that cannot be set, and then `cuPointerSetAttribute`. -/
theorem cached_attributes_current_of_set :
    ∃ s : Client Unit Unit, s.cache ((), [.mapped]) = some [[0]] ∧
      [[0]] = [Attribute.mapped].map (s.server.values ()) := by
  refine ⟨_, rfl, @cached_attributes_current _ _ _ _ oneAllocation
    [.ask () ((), [.mapped]), .serve (), .insert (),
      .start () (Call.erased (.pointerSetAttribute () [1])) [.set () [1]], .apply ()] _
    (.cons ⟨?_, nofun, .ask rfl rfl rfl⟩ <| .cons ⟨trivial, nofun, .serve rfl⟩ <|
      .cons ⟨trivial, nofun, .insert rfl⟩ <| .cons ⟨?_, fun _ _ _ h => ?_, .start rfl⟩ <|
      .cons ⟨trivial, nofun, .apply rfl⟩ <| .nil _) () _ _ rfl⟩
  · exact fun _ r hr => nomatch hr
  · rintro r hr ⟨⟨⟩, attributes⟩ hk -
    obtain rfl := List.mem_singleton.mp hr
    refine ⟨.inr ?_, fun _ h => nomatch h⟩
    have hne : attributes ≠ [.mapped] := by
      rintro rfl
      exact absurd hk.2 (by decide)
    simp [hne, State.init]
  · cases h
    exact ⟨.pointerSetAttribute () [1], rfl, rfl⟩

/-- An attribute is set while it is cached. And a reply is inserted after its allocation was freed
and another one made at the address. In both states no call is active. -/
theorem stale_attributes_cached :
    (∃ (as : _) (s : Client Unit Unit), Trace Move (.init oneAllocation) as s ∧
      (∀ i, s.phase i = .idle) ∧ ∃ cached, s.cache ((), [.syncMemops]) = some cached ∧
        cached ≠ [Attribute.syncMemops].map (s.server.values ())) ∧
    ∃ (as : _) (s : Client Unit Bool), Trace Move (.init oneAllocation) as s ∧
      (∀ i, s.phase i = .idle) ∧ ∃ cached, s.cache ((), [.mapped]) = some cached ∧
        cached ≠ [Attribute.mapped].map (s.server.values ()) := by
  constructor
  · refine ⟨[.ask () ((), [.syncMemops]), .serve (), .insert (),
      .start () (Call.erased (.pointerSetAttribute () [1])) [.set () [1]], .apply (), .finish ()],
      _, .cons ⟨nofun, .ask rfl rfl rfl⟩ <| .cons ⟨nofun, .serve rfl⟩ <|
      .cons ⟨nofun, .insert rfl⟩ <| .cons ⟨fun _ _ _ h => ?_, .start rfl⟩ <|
      .cons ⟨nofun, .apply rfl⟩ <| .cons ⟨nofun, .finish rfl⟩ <| .nil _, fun _ => rfl, _, rfl,
      by decide⟩
    cases h
    exact ⟨.pointerSetAttribute () [1], rfl, rfl⟩
  · refine ⟨[.ask true ((), [.mapped]), .serve true,
      .start false (Call.erased (.free () fun _ => [])) [.unregister (), .remap () fun _ => []],
      .apply false, .apply false, .finish false,
      .start false (Call.erased (.allocate () fun _ => [1])) [.remap () fun _ => [1], .register ()],
      .apply false, .apply false, .finish false, .insert true], _,
      .cons ⟨nofun, .ask rfl rfl rfl⟩ <| .cons ⟨nofun, .serve rfl⟩ <|
      .cons ⟨fun _ _ _ h => ?_, .start rfl⟩ <| .cons ⟨nofun, .apply rfl⟩ <|
      .cons ⟨nofun, .apply rfl⟩ <| .cons ⟨nofun, .finish rfl⟩ <|
      .cons ⟨fun _ _ _ h => ?_, .start rfl⟩ <| .cons ⟨nofun, .apply rfl⟩ <|
      .cons ⟨nofun, .apply rfl⟩ <| .cons ⟨nofun, .finish rfl⟩ <| .cons ⟨nofun, .insert rfl⟩ <|
      .nil _, ?_, _, rfl, by decide⟩
    · cases h
      exact ⟨.free () fun _ => [], rfl, rfl⟩
    · cases h
      exact ⟨.allocate () fun _ => [1], rfl, rfl⟩
    · rintro (_ | _) <;> rfl

end Lupine.HostMemory.AttributeCache
