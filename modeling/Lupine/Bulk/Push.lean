import Lupine.Bulk.Assembly

/-!
# Pushing bulk copies

The client side of a striped host-to-device copy, `lupine_bulk_push` (`cuda_client_memcpy.cpp`).
One feeder per lane takes the next chunk from a shared counter and writes it on its connection;
the committing request follows once every feeder has ended and every chunk was queued. The lanes
are held by one copy at a time.

The server of `Lupine.Bulk.Staging` runs on what the client sends. `Client.fromSource` connects
the two: the chunks that reach the server are parts of their source, each part at most once, so
that the copies of this client are exact (`Client.pushed_exactly`).

`source k` is what the copy with id `k` is to transfer. A connection delivers in order; nothing
here depends on that, and any chunk that was sent may arrive next, on any lane.
-/

namespace Lupine.Bulk

open Foundations Function Nat Finset Option

/-! ## Chunks of a source -/

section Chunks

variable (chunkBytes : ℕ) (source : ℕ → List UInt8)

/-- The number of chunks, rounded up. -/
def chunks (bytes : ℕ) : ℕ := (bytes + chunkBytes - 1) / chunkBytes

/-- Chunk number `i` of a copy, as a feeder writes it. -/
def chunk (k i : ℕ) : Chunk where
  copyId := k
  total := (source k).length
  offset := i * chunkBytes
  payload := ((source k).drop (i * chunkBytes)).take chunkBytes

variable {chunkBytes source} {k i j : ℕ}

/-- `min(LUPINE_RPC_TRANSFER_CHUNK_BYTES, bytes - offset)`. -/
theorem length_chunk :
    (chunk chunkBytes source k i).payload.length =
      min chunkBytes ((source k).length - i * chunkBytes) := by
  simp [chunk]

theorem offset_le (hi : i < chunks chunkBytes (source k).length) :
    i * chunkBytes ≤ (source k).length := by
  have h := Nat.mul_le_of_le_div chunkBytes (i + 1) _ hi
  rw [succ_mul] at h
  omega

theorem part_chunk (hi : i < chunks chunkBytes (source k).length) :
    Server.Part source (chunk chunkBytes source k i) where
  total_eq := rfl
  le_length := by
    have := offset_le hi
    rw [length_chunk]
    simp only [chunk]
    omega
  payload_eq := by
    change List.take chunkBytes _ = List.take (List.length (List.take chunkBytes _))
      (List.drop (i * chunkBytes) (source k))
    rw [List.length_take, ← List.take_take, List.take_length]

/-- Chunk `i` lies between its own offset and the one of the next chunk. -/
theorem mem_range_chunk {p : ℕ} (hp : p ∈ (chunk chunkBytes source k i).range) :
    i * chunkBytes ≤ p ∧ p < (i + 1) * chunkBytes := by
  have h := mem_Ico.mp hp
  rw [length_chunk] at h
  simp only [chunk] at h
  rw [succ_mul]
  omega

theorem disjoint_range_chunk (hij : i ≠ j) :
    Disjoint (chunk chunkBytes source k i).range (chunk chunkBytes source k j).range := by
  refine disjoint_left.mpr fun p hi hj => ?_
  have hi' := mem_range_chunk hi
  have hj' := mem_range_chunk hj
  rcases lt_or_gt_of_ne hij with h | h
  · have : (i + 1) * chunkBytes ≤ j * chunkBytes := mul_le_mul_right _ h
    omega
  · have : (j + 1) * chunkBytes ≤ i * chunkBytes := mul_le_mul_right _ h
    omega

end Chunks

/-! ## The client -/

/-- The thread of one lane in `lupine_bulk_push`. -/
inductive Feeder
  | running
  /-- It took this chunk from the counter. -/
  | writing (chunk : ℕ)
  | ended
  deriving DecidableEq

/-- A copy that holds the lanes. -/
structure Push (Lane : Type) where
  copyId : ℕ
  toHost : Bool
  nextChunk : ℕ
  queued : Bool
  feeders : Lane → Feeder

/-- The client, what it has sent and what has not reached the server yet, and the server. -/
structure Client (Lane : Type) where
  nextCopyId : ℕ
  push : Option (Push Lane)
  /-- `lanes->failed`. -/
  failed : Bool
  /-- The threads that have found the lanes good and have not locked them yet. -/
  waiting : ℕ
  /-- Chunks on their way: copy and number. -/
  chunks : Finset (ℕ × ℕ)
  /-- Committing requests on their way. -/
  commits : Finset (ℕ × Bool)
  server : Server Lane

/-- A step of the caller, of a feeder or of the server. -/
inductive Client.Action (Lane : Type)
  /-- `lupine_client_transport_bulk_lanes` reads `failed`, without the lock. -/
  | choose
  /-- `lupine_bulk_push` locks the lanes and takes an id. -/
  | push (toHost : Bool)
  /-- A feeder takes a number from the counter. -/
  | fetch (lane : Lane)
  /-- A feeder writes its chunk. When this fails, some of it may have been sent. -/
  | write (lane : Lane) (succeeds sent : Bool)
  | join
  | arrive (lane : Lane) (copyId chunk : ℕ)
  | commit (copyId : ℕ) (toHost : Bool)
  /-- Any other step of the server. -/
  | serve (action : Bulk.Action Lane)

namespace Client

variable {Lane : Type}
variable {c : Client Lane} {s : Server Lane}
variable {c' : Client Lane} {s' : Server Lane}

/-- The first id is `1`. -/
def initial : Client Lane := ⟨1, none, false, 0, ∅, ∅, .initial⟩

/-- The steps of the server that need nothing of the client. -/
def isServerOnly : Bulk.Action Lane → Bool
  | .arrive .. | .commit .. => false
  | _ => true

section Step

variable [DecidableEq Lane] [Fintype Lane] (chunkBytes : ℕ) (source : ℕ → List UInt8)

/-- One round of the loop condition of a feeder. -/
def fetch (p : Push Lane) (lane : Lane) : Push Lane :=
  { p with
    nextChunk := p.nextChunk + 1
    feeders := update p.feeders lane
      (if p.nextChunk < Bulk.chunks chunkBytes (source p.copyId).length ∧ p.queued = true then
        .writing p.nextChunk
      else .ended) }

def wrote (p : Push Lane) (lane : Lane) (succeeds : Bool) : Push Lane :=
  { p with
    queued := p.queued && succeeds
    feeders := update p.feeders lane .running }

def step (c : Client Lane) : Action Lane → Option (Client Lane)
  | .choose => if c.failed then none else some { c with waiting := c.waiting + 1 }
  | .push toHost =>
    if c.push = none ∧ 0 < c.waiting then
      some { c with
        waiting := c.waiting - 1
        nextCopyId := c.nextCopyId + 1
        push := some ⟨c.nextCopyId, toHost, 0, true, fun _ => .running⟩ }
    else none
  | .fetch lane =>
    match c.push with
    | some p =>
      if p.feeders lane = .running then
        some { c with push := some (fetch chunkBytes source p lane) }
      else none
    | none => none
  | .write lane succeeds sent =>
    match c.push with
    | some p =>
      match p.feeders lane with
      | .writing i =>
        some { c with
          push := some (wrote p lane succeeds)
          chunks := if succeeds || sent then insert (p.copyId, i) c.chunks else c.chunks }
      | _ => none
    | none => none
  | .join =>
    match c.push with
    | some p =>
      if ∀ lane, p.feeders lane = .ended then
        some { c with
          push := none
          failed := c.failed || !p.queued
          commits := if p.queued then insert (p.copyId, p.toHost) c.commits else c.commits }
      else none
    | none => none
  | .arrive lane k i =>
    if (k, i) ∈ c.chunks then
      (c.server.step (.arrive lane (chunk chunkBytes source k i))).map fun server =>
        { c with chunks := c.chunks.erase (k, i), server := server }
    else none
  | .commit k toHost =>
    if (k, toHost) ∈ c.commits then
      (c.server.step (.commit k (source k).length toHost)).map fun server =>
        { c with commits := c.commits.erase (k, toHost), server := server }
    else none
  | .serve a =>
    if isServerOnly a then (c.server.step a).map fun server => { c with server := server }
    else none

end Step

/-! ## What reaches the server -/

section Invariant

variable (chunkBytes : ℕ) (source : ℕ → List UInt8)

/-- A chunk that no handler has met: it is still with the client or on its way. -/
structure Pending (c : Client Lane) (k i : ℕ) : Prop where
  lt_chunks : i < Bulk.chunks chunkBytes (source k).length
  unclaimed : Disjoint (c.server.claimed k) (chunk chunkBytes source k i).range

/-- The chunks of the copy that holds the lanes: the numbers below the counter are with one
feeder, on their way, or have arrived. -/
structure Feeds (c : Client Lane) (p : Push Lane) : Prop where
  id_lt : p.copyId < c.nextCopyId
  claimed_lt : ∀ n ∈ c.server.claimed p.copyId, n < p.nextChunk * chunkBytes
  chunks_lt : ∀ i, (p.copyId, i) ∈ c.chunks → i < p.nextChunk
  writing : ∀ lane i, p.feeders lane = .writing i →
    i < p.nextChunk ∧ c.Pending chunkBytes source p.copyId i ∧ (p.copyId, i) ∉ c.chunks
  apart : ∀ lane lane' i, p.feeders lane = .writing i → p.feeders lane' = .writing i → lane = lane'

/-- The chunks sent are cut from the sources of the copies, one id for each push. -/
structure Cut (c : Client Lane) : Prop where
  unused : ∀ k, c.nextCopyId ≤ k → c.server.claimed k = ∅ ∧ ∀ i, (k, i) ∉ c.chunks
  pending : ∀ k i, (k, i) ∈ c.chunks → c.Pending chunkBytes source k i
  feeds : ∀ p ∈ c.push, c.Feeds chunkBytes source p

variable {chunkBytes source}

theorem cut_initial : (initial : Client Lane).Cut chunkBytes source where
  unused := by simp [initial, Server.initial]
  pending := by simp [initial]
  feeds := by simp [initial]

section

variable (h : c.Cut chunkBytes source)
include h

/-- A step that leaves the chunks where they are. -/
theorem Cut.congr (hid : c'.nextCopyId = c.nextCopyId) (hpush : ∀ p ∈ c'.push, p ∈ c.push)
    (hchunks : c'.chunks = c.chunks) (hclaimed : c'.server.claimed = c.server.claimed) :
    c'.Cut chunkBytes source where
  unused := by
    rw [hid, hchunks, hclaimed]
    exact h.unused
  pending := by
    intro k i hi
    obtain ⟨hlt, hun⟩ := h.pending k i (hchunks ▸ hi)
    exact ⟨hlt, hclaimed ▸ hun⟩
  feeds := by
    intro p hp
    obtain ⟨hlt, hcl, hch, hw, hap⟩ := h.feeds p (hpush p hp)
    refine ⟨hid ▸ hlt, hclaimed ▸ hcl, hchunks ▸ hch, fun lane i hi => ?_, hap⟩
    obtain ⟨h₁, h₂, h₃⟩ := hw lane i hi
    exact ⟨h₁, ⟨h₂.lt_chunks, hclaimed ▸ h₂.unclaimed⟩, hchunks ▸ h₃⟩

theorem Cut.push (toHost : Bool) :
    Cut chunkBytes source { c with
      waiting := c.waiting - 1
      nextCopyId := c.nextCopyId + 1
      push := some ⟨c.nextCopyId, toHost, 0, true, fun _ => .running⟩ } where
  unused := fun k hk => h.unused k (le_of_succ_le hk)
  pending := fun k i hi => { h.pending k i hi with }
  feeds := by
    rintro p ⟨⟩
    obtain ⟨hclaimed, hchunks⟩ := h.unused c.nextCopyId le_rfl
    refine ⟨lt_succ_self _, ?_, fun i hi => absurd hi (hchunks i), by simp, by simp⟩
    intro n hn
    simp [hclaimed] at hn

/-- A chunk arrives: its places are claimed, and no other chunk has any of them. -/
theorem Cut.arrive {k i : ℕ} (hi : (k, i) ∈ c.chunks) {server : Server Lane}
    (hclaimed : server.claimed = update c.server.claimed k
      (c.server.claimed k ∪ (chunk chunkBytes source k i).range)) :
    Cut chunkBytes source { c with chunks := c.chunks.erase (k, i), server := server } := by
  have hkeep : ∀ k' j, (k', j) ≠ (k, i) → c.Pending chunkBytes source k' j →
      Pending chunkBytes source { c with chunks := c.chunks.erase (k, i), server := server }
        k' j := by
    intro k' j hne hp
    refine ⟨hp.lt_chunks, ?_⟩
    rw [hclaimed]
    rcases eq_or_ne k' k with rfl | hk
    · have hji : i ≠ j := by
        rintro rfl
        exact hne rfl
      rw [update_self]
      exact disjoint_union_left.mpr ⟨hp.unclaimed, disjoint_range_chunk hji⟩
    · rw [update_of_ne hk]
      exact hp.unclaimed
  constructor
  case unused =>
    intro k' hk'
    have hne : k' ≠ k := by
      rintro rfl
      exact (h.unused k' hk').2 i hi
    refine ⟨?_, fun j hj => (h.unused k' hk').2 j (mem_of_mem_erase hj)⟩
    rw [hclaimed, update_of_ne hne]
    exact (h.unused k' hk').1
  case pending =>
    intro k' j hj
    exact hkeep k' j (ne_of_mem_erase hj) (h.pending k' j (mem_of_mem_erase hj))
  case feeds =>
    intro p hp
    obtain ⟨hlt, hcl, hch, hw, hap⟩ := h.feeds p hp
    refine ⟨hlt, ?_, fun j hj => hch j (mem_of_mem_erase hj), ?_, hap⟩
    · intro n hn
      rw [hclaimed] at hn
      rcases eq_or_ne p.copyId k with rfl | hk
      · rw [update_self, mem_union] at hn
        rcases hn with hn | hn
        · exact hcl n hn
        · exact (mem_range_chunk hn).2.trans_le (mul_le_mul_right _ (hch i hi))
      · rw [update_of_ne hk] at hn
        exact hcl n hn
    · intro lane j hj
      obtain ⟨h₁, h₂, h₃⟩ := hw lane j hj
      refine ⟨h₁, hkeep _ j ?_ h₂, fun hmem => h₃ (mem_of_mem_erase hmem)⟩
      intro heq
      exact h₃ (heq ▸ hi)

variable [DecidableEq Lane]

theorem Cut.fetch {p : Push Lane} (hp : c.push = some p) (lane : Lane) :
    Cut chunkBytes source { c with push := some (fetch chunkBytes source p lane) } := by
  obtain ⟨hlt, hcl, hch, hw, hap⟩ := h.feeds p hp
  -- the feeder of the lane got the counter, and the others have smaller numbers
  have hfeeder : ∀ lane' i, (Client.fetch chunkBytes source p lane).feeders lane' = .writing i →
      (lane' = lane ∧ i = p.nextChunk ∧ i < Bulk.chunks chunkBytes (source p.copyId).length) ∨
        (lane' ≠ lane ∧ p.feeders lane' = .writing i) := by
    intro lane' i hi
    change update p.feeders lane _ lane' = _ at hi
    rcases eq_or_ne lane' lane with rfl | hne
    · rw [update_self] at hi
      split_ifs at hi with hcond
      cases hi
      exact .inl ⟨rfl, rfl, hcond.1⟩
    · exact .inr ⟨hne, by simpa [hne] using hi⟩
  refine ⟨h.unused, fun k i hi => { h.pending k i hi with }, ?_⟩
  rintro _ ⟨⟩
  refine ⟨hlt, ?_, fun i hi => (hch i hi).trans (lt_succ_self _), ?_, ?_⟩
  · intro n hn
    exact (hcl n hn).trans_le (mul_le_mul_right _ (le_succ _))
  · intro lane' i hi
    rcases hfeeder lane' i hi with ⟨rfl, rfl, hi⟩ | ⟨-, hi⟩
    · refine ⟨lt_succ_self _, ⟨hi, ?_⟩, fun hmem => lt_irrefl _ (hch _ hmem)⟩
      refine disjoint_left.mpr fun n hn hr => ?_
      exact absurd (hcl n hn) (not_lt.mpr (mem_range_chunk hr).1)
    · obtain ⟨h₁, h₂, h₃⟩ := hw lane' i hi
      exact ⟨h₁.trans (lt_succ_self _), { h₂ with }, h₃⟩
  · intro l₁ l₂ i h₁ h₂
    rcases hfeeder l₁ i h₁ with ⟨rfl, rfl, -⟩ | ⟨-, hold₁⟩ <;>
      rcases hfeeder l₂ _ h₂ with ⟨rfl, heq, -⟩ | ⟨-, hold₂⟩
    · rfl
    · exact absurd (hw l₂ _ hold₂).1 (lt_irrefl _)
    · exact absurd (hw l₁ i hold₁).1 (by omega)
    · exact hap l₁ l₂ i hold₁ hold₂

theorem Cut.write {p : Push Lane} (hp : c.push = some p) {lane : Lane} {i : ℕ}
    (hi : p.feeders lane = .writing i) (succeeds sent : Bool) :
    Cut chunkBytes source { c with
      push := some (wrote p lane succeeds)
      chunks := if sent then insert (p.copyId, i) c.chunks else c.chunks } := by
  obtain ⟨hlt, hcl, hch, hw, hap⟩ := h.feeds p hp
  obtain ⟨hnext, hpending, hnot⟩ := hw lane i hi
  have hchunk : ∀ q, q ∈ (if sent then insert (p.copyId, i) c.chunks else c.chunks) →
      q = (p.copyId, i) ∨ q ∈ c.chunks := by
    intro q hq
    split_ifs at hq
    · exact mem_insert.mp hq
    · exact .inr hq
  have hfeeder : ∀ lane' j, (wrote p lane succeeds).feeders lane' = .writing j →
      lane' ≠ lane ∧ p.feeders lane' = .writing j := by
    intro lane' j hj
    change update p.feeders lane _ lane' = _ at hj
    rcases eq_or_ne lane' lane with rfl | hne
    · simp at hj
    · exact ⟨hne, by simpa [hne] using hj⟩
  constructor
  case unused =>
    intro k hk
    refine ⟨(h.unused k hk).1, fun j hj => ?_⟩
    rcases hchunk _ hj with heq | hj
    · obtain ⟨rfl, -⟩ := Prod.mk.inj heq
      exact absurd hlt (not_lt.mpr hk)
    · exact (h.unused k hk).2 j hj
  case pending =>
    intro k j hj
    rcases hchunk _ hj with heq | hj
    · obtain ⟨rfl, rfl⟩ := Prod.mk.inj heq
      exact { hpending with }
    · exact { h.pending k j hj with }
  case feeds =>
    rintro _ ⟨⟩
    refine ⟨hlt, hcl, ?_, ?_, ?_⟩
    · intro j hj
      rcases hchunk _ hj with heq | hj
      · obtain ⟨-, rfl⟩ := Prod.mk.inj heq
        exact hnext
      · exact hch j hj
    · intro lane' j hj
      obtain ⟨hne, hj⟩ := hfeeder lane' j hj
      obtain ⟨h₁, h₂, h₃⟩ := hw lane' j hj
      refine ⟨h₁, { h₂ with }, fun hmem => ?_⟩
      rcases hchunk _ hmem with heq | hmem
      · obtain ⟨-, rfl⟩ := Prod.mk.inj heq
        exact hne (hap lane' lane j hj hi)
      · exact h₃ hmem
    · intro l₁ l₂ j h₁ h₂
      exact hap l₁ l₂ j (hfeeder l₁ j h₁).2 (hfeeder l₂ j h₂).2

end

end Invariant

/-! ## Runs -/

section Runs

variable {chunkBytes : ℕ} {source : ℕ → List UInt8}

/-- What an action is for the server. -/
def served (chunkBytes : ℕ) (source : ℕ → List UInt8) : Action Lane → Option (Bulk.Action Lane)
  | .arrive lane k i => some (.arrive lane (chunk chunkBytes source k i))
  | .commit k toHost => some (.commit k (source k).length toHost)
  | .serve a => some a
  | _ => none

theorem exists_push {f : Push Lane → Option (Client Lane)}
    (h : (match c.push with
      | some p => f p
      | none => none) = some c') : ∃ p, c.push = some p ∧ f p = some c' := by
  split at h
  · exact ⟨_, by assumption, h⟩
  · cases h

theorem fromSource_of_isServerOnly {a : Bulk.Action Lane} (ha : isServerOnly a = true) :
    s.FromSource source a := by
  cases a <;> first | exact trivial | cases ha

variable [DecidableEq Lane]

theorem claimed_of_isServerOnly {a : Bulk.Action Lane} (ha : isServerOnly a = true)
    (hstep : s.step a = some s') : s'.claimed = s.claimed := by
  cases a <;> simp only [isServerOnly, Bool.false_eq_true] at ha <;>
    simp only [Server.step] at hstep <;> (repeat' split at hstep) <;> cases hstep <;> rfl

theorem claimed_of_commit {k bytes : ℕ} {toHost : Bool}
    (hstep : s.step (.commit k bytes toHost) = some s') : s'.claimed = s.claimed := by
  simp only [Server.step] at hstep
  split at hstep <;> cases hstep
  rfl

theorem claimed_of_arrive {lane : Lane} {d : Chunk} (hstep : s.step (.arrive lane d) = some s') :
    s'.claimed = update s.claimed d.copyId (s.claimed d.copyId ∪ d.range) := by
  simp only [Server.step] at hstep
  split at hstep <;> cases hstep
  rfl

variable [Fintype Lane]

attribute [local simp] served

/-- One action: the chunks stay cut, and the server takes at most a step on parts of the source. -/
theorem Cut.step (h : c.Cut chunkBytes source) {a : Action Lane}
    (hstep : c.step chunkBytes source a = some c') :
    c'.Cut chunkBytes source ∧
      (∀ b ∈ served chunkBytes source a,
        c.server.step b = some c'.server ∧ c.server.FromSource source b) ∧
      (served chunkBytes source a = none → c'.server = c.server) := by
  cases a with
  | choose =>
    obtain ⟨-, hstep⟩ := ite_none_left_eq_some.mp hstep
    cases hstep
    exact ⟨h.congr rfl (fun _ hp => hp) rfl rfl, by simp, fun _ => rfl⟩
  | push toHost =>
    obtain ⟨-, rfl⟩ := of_guarded hstep
    exact ⟨h.push toHost, by simp, fun _ => rfl⟩
  | fetch lane =>
    obtain ⟨p, hp, hstep⟩ := exists_push hstep
    obtain ⟨-, rfl⟩ := of_guarded hstep
    exact ⟨h.fetch hp lane, by simp, fun _ => rfl⟩
  | write lane succeeds sent =>
    obtain ⟨p, hp, hstep⟩ := exists_push hstep
    split at hstep <;> cases hstep
    exact ⟨h.write hp (by assumption) succeeds _, by simp, fun _ => rfl⟩
  | join =>
    obtain ⟨p, -, hstep⟩ := exists_push hstep
    obtain ⟨-, rfl⟩ := of_guarded hstep
    exact ⟨h.congr rfl (by simp) rfl rfl, by simp, fun _ => rfl⟩
  | arrive lane k i =>
    obtain ⟨hmem, hstep⟩ := ite_none_right_eq_some.mp hstep
    obtain ⟨server, hserver, rfl⟩ := map_eq_some_iff.mp hstep
    have hp := h.pending k i hmem
    refine ⟨h.arrive hmem (claimed_of_arrive hserver), ?_, by simp⟩
    rintro b ⟨⟩
    exact ⟨hserver, part_chunk hp.lt_chunks, hp.unclaimed⟩
  | commit k toHost =>
    obtain ⟨-, hstep⟩ := ite_none_right_eq_some.mp hstep
    obtain ⟨server, hserver, rfl⟩ := map_eq_some_iff.mp hstep
    refine ⟨h.congr rfl (fun _ hp => hp) rfl (claimed_of_commit hserver), ?_, by simp⟩
    rintro b ⟨⟩
    exact ⟨hserver, rfl⟩
  | serve b =>
    obtain ⟨hb, hstep⟩ := ite_none_right_eq_some.mp hstep
    obtain ⟨server, hserver, rfl⟩ := map_eq_some_iff.mp hstep
    refine ⟨h.congr rfl (fun _ hp => hp) rfl (claimed_of_isServerOnly hb hserver), ?_,
      by simp⟩
    rintro b' ⟨⟩
    exact ⟨hserver, fromSource_of_isServerOnly hb⟩

/-- **The client's chunks come from its sources.** In every run of the client and the server, the
steps of the server are a run of its own on parts of the sources. -/
theorem fromSource {as : List (Action Lane)} (h : c.Cut chunkBytes source)
    (hrun : exec (step chunkBytes source) c as = some c') :
    exec Server.step c.server (as.filterMap (served chunkBytes source)) = some c'.server ∧
      Along Server.step (Server.FromSource source) c.server
        (as.filterMap (served chunkBytes source)) := by
  induction as generalizing c with
  | nil =>
    cases hrun
    exact ⟨rfl, trivial⟩
  | cons a as ih =>
    obtain ⟨c₁, hc₁, hrun⟩ := exec_cons_eq_some.mp hrun
    obtain ⟨hcut, hsome, hnone⟩ := h.step hc₁
    obtain ⟨hexec, halong⟩ := ih hcut hrun
    cases ha : served chunkBytes source a with
    | none =>
      rw [List.filterMap_cons_none ha, ← hnone ha]
      exact ⟨hexec, halong⟩
    | some b =>
      obtain ⟨hb, hfrom⟩ := hsome b ha
      rw [List.filterMap_cons_some ha]
      refine ⟨exec_cons_eq_some.mpr ⟨_, hb, hexec⟩, hfrom, fun s hs => ?_⟩
      cases hb.symm.trans hs
      exact halong

/-- **Pushed copies are exact.** A copy of this client that the server reports as a success is
exact, in every run in which the server's steps are orderly. -/
theorem pushed_exactly {as : List (Action Lane)}
    (hrun : exec (step chunkBytes source) initial as = some c)
    (hC : Along Server.step Server.Orderly Server.initial
      (as.filterMap (served chunkBytes source))) {k : ℕ} {copied : List (Option UInt8)}
    (hk : c.server.commits k = .ended (some copied)) : copied = (source k).map some := by
  obtain ⟨hexec, hfrom⟩ := fromSource cut_initial hrun
  exact (Server.faithful_of_run hexec hC hfrom).copied_eq hk

/-- One feeder pushes two chunks of one byte. -/
theorem pushed_exactly_of_two : ∃ c : Client Unit, exec (step 1 fun _ => [5, 7]) initial
      [.choose, .push false, .fetch (), .write () true true, .fetch (), .write () true true,
        .fetch (), .join, .arrive () 1 0, .serve (.receive ()), .serve (.land ()),
        .arrive () 1 1, .serve (.receive ()), .commit 1 false, .serve (.land ()),
        .serve (.wake 1), .serve (.copy 1 true)] = some c ∧
          c.server.commits 1 = .ended (some [some 5, some 7]) ∧
      [some 5, some 7] = ([5, 7] : List UInt8).map some := by
  refine exists_of_any (p := fun _ => True) (by decide) fun c hc _ => ?_
  have hk : c.server.commits 1 = .ended (some [some 5, some 7]) := by cases hc; rfl
  exact ⟨hk, pushed_exactly hc (by decide) hk⟩

end Runs

end Client

end Lupine.Bulk
