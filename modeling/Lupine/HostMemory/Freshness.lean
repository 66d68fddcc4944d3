import Lupine.HostMemory.Tracker

/-!
# Freshness of mapped memory

The read side of `cuda_client_memcpy.cpp` for one tracked host allocation. After device work the
allocation is invalidated: its pages become inaccessible and the next access of a page fetches
the server's bytes. Freshness is kept for chunks of 64 KiB, protection for pages, and the
payloads of deferred device-to-host copies, collected after the invalidation, cover arbitrary
byte ranges.

Each operation is one step here; the states `2` and `3` of `device_stale` exist only inside an
operation. `origin` and `generation` are only observed: `generation` counts the invalidations and
`origin` says after which of them a byte got its contents. A collected payload counts as
delivered when it is collected, which makes its pages readable once more.
-/

namespace Lupine.HostMemory

open Foundations

/-- `LUPINE_DEMAND_FETCH_CHUNK_BYTES`. -/
def chunkBytes : ℕ := 64 * 1024

/-- `LUPINE_DEMAND_FETCH_READAHEAD_CAP`. -/
def readaheadCap : ℕ := 4 * 1024 * 1024

/-- A tracked allocation with its fetch geometry. No constructor of an allocation sets
`data_offset`, and the page size of the system divides a chunk. -/
structure Mapping extends Allocation where
  /-- There is a second, always writable view of the memory. -/
  ioAlias : Bool
  freshChunkCount : ℕ
  freshChunkCount_eq : freshChunkCount = (pageCount * pageSize + chunkBytes - 1) / chunkBytes
  dataOffset_eq : dataOffset = 0
  page_dvd : pageSize ∣ chunkBytes

/-- What `mprotect` allows of a page. -/
inductive Protection
  | none
  | read
  | readWrite
  deriving DecidableEq, Repr

def Protection.Readable (p : Protection) : Prop := p ≠ .none

instance (p : Protection) : Decidable p.Readable := inferInstanceAs (Decidable (_ ≠ _))

/-- `rpc_host_allocation_write`: where the payload of a deferred copy has landed, and whether it
was addressed to the alias of a pinned destination. -/
structure HostWrite where
  start : ℕ
  size : ℕ
  pinned : Bool

/-- The part of the payload inside the allocation. -/
def HostWrite.span (M : Mapping) (w : HostWrite) : Span :=
  ⟨w.start, w.start + min w.size (M.userSize - w.start)⟩

/-- The writes that `rpc_note_host_allocation_write` leaves: a payload that follows the last one
extends it. The address of a pinned one is that of the alias. -/
def noteWrite (w : HostWrite) (ws : List HostWrite) : List HostWrite :=
  match ws.getLast? with
  | some last =>
    if last.start + last.size = w.start ∧ last.pinned = false ∧ w.pinned = false then
      ws.dropLast ++ [{ last with size := last.size + w.size }]
    else ws ++ [w]
  | none => [w]

/-- The client's view of one mapped allocation. -/
structure View where
  generation : ℕ
  origin : ℕ → ℕ
  protection : ℕ → Protection
  deviceStale : Bool
  freshChunks : ℕ → Bool
  fetchSeqNext : ℕ
  fetchReadahead : ℕ
  hostAllocationWrites : List HostWrite

namespace View

/-- The byte was fetched, delivered or stored after the last invalidation. -/
def Current (s : View) (o : ℕ) : Prop := s.origin o = s.generation

instance (s : View) (o : ℕ) : Decidable (s.Current o) := inferInstanceAs (Decidable (_ = _))

/-- Tracking starts with read-only pages. -/
def init : View where
  generation := 0
  origin := fun _ => 0
  protection := fun _ => .read
  deviceStale := false
  freshChunks := fun _ => false
  fetchSeqNext := 0
  fetchReadahead := 0
  hostAllocationWrites := []

/-! ## The parts of the operations -/

section

variable (M : Mapping)

/-- `mprotect` of the pages a range touches. -/
def protect (r : Span) (p : Protection) (s : View) : View :=
  { s with protection := fun page =>
      if r.Touches M.pageSize page then p else s.protection page }

/-- The bytes of a range get new contents. -/
def arrive (r : Span) (s : View) : View :=
  { s with origin := fun o => if r.start ≤ o ∧ o < r.stop then s.generation else s.origin o }

/-- Set `fresh_chunks[first .. last)`. -/
def markFresh (first last : ℕ) (s : View) : View :=
  { s with freshChunks := fun i =>
      s.freshChunks i || decide (first ≤ i ∧ i < last ∧ i < M.freshChunkCount) }

/-- The range `lupine_fetch_stale_range` asks for: the part that belongs to the caller. -/
def fetchSpan (start stop : ℕ) : Span :=
  ⟨max start M.dataOffset, min stop (M.dataOffset + M.userSize)⟩

/-- Fetch the stale run `[start, stop)`: make it writable unless there is an alias, read the
server's bytes and mark the chunks. If `failed` is `some k`, the fetch fails after `k` bytes. -/
def fetchRun (start stop : ℕ) (failed : Option ℕ) (s : View) : View × Bool :=
  let s := if M.ioAlias then s else s.protect M ⟨start, stop⟩ .readWrite
  let r := fetchSpan M start stop
  match failed with
  | none =>
    ((s.arrive r).markFresh M (start / chunkBytes) ((stop + chunkBytes - 1) / chunkBytes), true)
  | some k => (s.arrive ⟨r.start, min r.stop (r.start + k)⟩, false)

/-- The loop that looks for the end of a run of stale chunks; no run has more chunks than the
allocation. -/
def staleRunEnd (fresh : ℕ → Bool) (limit : ℕ) : ℕ → ℕ → ℕ
  | 0, stop => stop
  | fuel + 1, stop =>
    if stop < limit ∧ fresh (stop / chunkBytes) = false then
      staleRunEnd fresh limit fuel (stop + chunkBytes)
    else stop

/-- Every chunk is fresh. -/
def allFresh (s : View) : Bool :=
  decide (∀ i < M.freshChunkCount, s.freshChunks i = true)

/-- `lupine_finish_demand_fetch`. -/
def finishDemandFetch (start stop : ℕ) (s : View) : View :=
  { (if start < stop then s.protect M ⟨start, stop⟩ .read else s) with
    deviceStale := !s.allFresh M }

/-- How far ahead a fetch at `start` reads, and the new `fetch_readahead`. -/
def readahead (s : View) (start : ℕ) : ℕ × ℕ :=
  if start ≠ 0 ∧ start = s.fetchSeqNext ∧ chunkBytes ≤ s.fetchReadahead then
    if readaheadCap ≤ s.fetchReadahead then (M.storageSize, s.fetchReadahead)
    else
      let ahead := min (s.fetchReadahead * 2) readaheadCap
      (start + ahead, ahead)
  else (start + chunkBytes, chunkBytes)

/-- Fetch one run and publish it when the fetch succeeds. -/
def fetchAndFinish (start stop : ℕ) (failed : Option ℕ) (s : View) : View :=
  match s.fetchRun M start stop failed with
  | (s, true) => finishDemandFetch M start stop { s with fetchSeqNext := stop }
  | (s, false) => s

/-- `lupine_demand_fetch_run` and, when it succeeds, `lupine_finish_demand_fetch`. -/
def demandFetchRun (faultOffset : ℕ) (failed : Option ℕ) (s : View) : View :=
  let start := faultOffset / chunkBytes * chunkBytes
  let ahead := readahead M s start
  let s := { s with fetchReadahead := ahead.2 }
  let stop := min M.storageSize
    (staleRunEnd s.freshChunks (min ahead.1 M.storageSize) M.freshChunkCount start)
  if stop ≤ start then
    finishDemandFetch M start stop { s with fetchSeqNext := start + chunkBytes }
  else fetchAndFinish M start stop failed s

/-- The loop of `lupine_make_mapped_range_fresh`, with the end of the last run. `fails` says for
each run whether its fetch fails, and after how many bytes. -/
def freshenLoop (M : Mapping) (bound : ℕ) (fails : ℕ → Option ℕ) :
    ℕ → ℕ → ℕ → View → View × Bool × ℕ
  | 0, _, spanEnd, s => (s, true, spanEnd)
  | fuel + 1, position, spanEnd, s =>
    if position < bound then
      if s.freshChunks (position / chunkBytes) = true then
        freshenLoop M bound fails fuel (position + chunkBytes) spanEnd s
      else
        let runEnd := min M.storageSize
          (staleRunEnd s.freshChunks bound M.freshChunkCount position)
        match s.fetchRun M position runEnd (fails position) with
        | (s, true) => freshenLoop M bound fails fuel runEnd runEnd s
        | (s, false) => (s, false, spanEnd)
    else (s, true, spanEnd)

/-- Freshen the chunks from `position` up to `bound`. -/
def freshenChunks (position bound : ℕ) (fails : ℕ → Option ℕ) (s : View) : View × Bool :=
  match freshenLoop M bound fails (M.freshChunkCount + 1) position position s with
  | (s, true, spanEnd) => (finishDemandFetch M position spanEnd s, true)
  | (s, false, _) => (s, false)

/-- `lupine_make_mapped_range_fresh`. -/
def makeMappedRangeFresh (start stop : ℕ) (fails : ℕ → Option ℕ) (s : View) : View × Bool :=
  if s.deviceStale then
    s.freshenChunks M (start / chunkBytes * chunkBytes)
      (min ((stop + chunkBytes - 1) / chunkBytes * chunkBytes) M.storageSize) fails
  else (s, true)

/-- The fault handler, for an access to an allocation that is not being retired. The queueing of
the dirty page is the business of the write side. -/
def fault (o : ℕ) (failed : Option ℕ) (s : View) : View :=
  if s.deviceStale = true ∧ s.freshChunks (o / chunkBytes) = false then
    s.demandFetchRun M o failed
  else
    { s with protection := Function.update s.protection (o / M.pageSize) .readWrite }

/-- `lupine_sync_mapped_device_to_host` and `lupine_invalidate_launched_managed`; `protects` says
whether `mprotect` succeeds. -/
def invalidate (protects : Bool) (s : View) : View :=
  let s := { s with freshChunks := fun _ => false, fetchSeqNext := 0, fetchReadahead := 0 }
  if protects then
    { s.protect M ⟨0, M.storageSize⟩ .none with
      generation := s.generation + 1
      deviceStale := true }
  else s

/-- A payload lands. The pages of an unpinned one become readable at once, and writable if it runs
over the end of the allocation; `protects` says whether this `mprotect` succeeds. -/
def deliver (w : HostWrite) (protects : Bool) (s : View) : View :=
  let t := { s.arrive (w.span M) with
    hostAllocationWrites := noteWrite w s.hostAllocationWrites }
  if w.pinned = false ∧ w.size ≠ 0 ∧ protects = true then
    t.protect M ⟨w.start, w.start + w.size⟩
      (if w.start + w.size ≤ M.storageSize then .read else .readWrite)
  else t

/-- The payload of a pinned destination is already current on the server: its pages become
readable, not dirty. -/
def protectPinned (w : HostWrite) (s : View) : View :=
  if w.pinned then s.protect M (w.span M) .read else s

/-- In a stale allocation the chunks that the payload covers become fresh, and the pages that it
touches readable. -/
def freshenWrite (protects : Bool) (r : Span) (s : View) : View :=
  if s.deviceStale then
    if protects then
      (s.markFresh M ((r.start + chunkBytes - 1) / chunkBytes) (r.stop / chunkBytes)).protect M r
        .read
    else s.markFresh M ((r.start + chunkBytes - 1) / chunkBytes) (r.stop / chunkBytes)
  else s

section

variable (protects : HostWrite → Bool) (s : View)

/-- What collecting a write does to protection and freshness. -/
def markWrite (w : HostWrite) : View :=
  if (w.span M).start = (w.span M).stop then s
  else (s.protectPinned M w).freshenWrite M (protects w) (w.span M)

/-- One write of `lupine_collect_host_allocation_writes`. -/
def applyWrite (w : HostWrite) : View :=
  markWrite M protects (s.arrive (w.span M)) w

/-- The writes that are applied: it gives up at a pinned one whose pages cannot be protected. -/
def collected (ws : List HostWrite) : List HostWrite :=
  ws.takeWhile fun w => decide ((w.span M).start = (w.span M).stop) || !w.pinned || protects w

/-- `lupine_collect_host_allocation_writes`. -/
def collect : View :=
  (collected M protects s.hostAllocationWrites).foldl (applyWrite M protects)
    { s with hostAllocationWrites := [] }

end

/-! ## Steps -/

/-- What happens to the allocation. -/
inductive Operation
  | invalidate (protects : Bool)
  /-- An access the protection of the page does not allow. -/
  | fault (offset : ℕ) (failed : Option ℕ)
  | store (offset : ℕ)
  | makeFresh (start stop : ℕ) (fails : ℕ → Option ℕ)
  /-- The payload of a deferred copy lands. -/
  | deliver (write : HostWrite) (protects : Bool)
  | collect (protects : HostWrite → Bool)

def step (s : View) : Operation → Option View
  | .invalidate protects => some (s.invalidate M protects)
  | .fault o failed =>
    if o < M.storageSize ∧ s.protection (o / M.pageSize) ≠ .readWrite then
      some (s.fault M o failed)
    else none
  | .store o =>
    if o < M.storageSize ∧ s.protection (o / M.pageSize) = .readWrite then
      some (s.arrive ⟨o, o + 1⟩)
    else none
  | .makeFresh start stop fails => some (s.makeMappedRangeFresh M start stop fails).1
  | .deliver w protects => if w.start < M.userSize then some (s.deliver M w protects) else none
  | .collect protects => some (s.collect M protects)

end

end View

end Lupine.HostMemory
