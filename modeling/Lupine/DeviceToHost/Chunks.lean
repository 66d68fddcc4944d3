import Mathlib.Data.Nat.Notation
import Mathlib.Logic.Function.Basic

/-!
# Chunked device-to-host responses

A synchronous device-to-host copy answers with frames of at most `LUPINE_RPC_TRANSFER_CHUNK_BYTES`,
each led by its result; a failed chunk ends the response. Large copies go through a pipeline of two
pinned slots: while a chunk is written to the connection, the next one is copied into the other
slot. When a resource of the pipeline fails, the rest of the copy is done by the serial path, which
stages one chunk at a time.

The driver is given by the results of its calls, in order, and so is the transport. A frame names
the bytes of the source that it carries. Besides the fields of `lupine_dtoh_pipeline_slot` a slot
has two that record what the source only implies: whether a copy into the slot may still be running
(from an attempted submission until an event or the stream proves the end of it), and whether it
holds bytes that were not written to the connection. `safe` turns false when a slot is submitted or
written against that, or when the pinned storage is released under a running copy.

* `Response`: what a response looks like.
* `loop_spec`, `fill_spec`, `serialLoop_spec`: what the loops keep.
* `dtoh_chunks_agree`: for every size, every driver and every transport, the response is one that
  the reader takes frame by frame to the end, the slots are used safely, and the handler fails only
  with the transport. Its response is without an error if no call of the driver fails.
-/

namespace Lupine.DeviceToHost

open Function List

/-- A `CUresult`; zero is `CUDA_SUCCESS`. -/
abbrev CUresult := ℕ

/-- `CUDA_ERROR_OUT_OF_MEMORY`. -/
def outOfMemory : CUresult := 2

/-- `LUPINE_RPC_TRANSFER_CHUNK_BYTES`, also `LUPINE_DTOH_PIPELINE_SLOT_BYTES`. -/
def chunkBytes : ℕ := 4194304

/-- `LUPINE_DTOH_PIPELINE_MIN_BYTES`. -/
def pipelineMinBytes : ℕ := 8 * chunkBytes

/-- A frame of the response: bytes of the source, or an error. -/
inductive Frame
  | chunk (offset bytes : ℕ)
  | error (result : CUresult)
  deriving DecidableEq, Repr

variable {fs : List Frame}

/-- The results of the driver's calls, whether the staging of the serial path can be allocated, and
whether the writes to the connection succeed. -/
structure Env where
  driver : ℕ → CUresult
  resize : Bool
  transport : ℕ → Bool

/-- A call of the driver fails, or the staging cannot be allocated. -/
def Env.Fails (env : Env) : Prop := (∃ k, env.driver k ≠ 0) ∨ env.resize = false

/-! ## The server -/

/-- `lupine_dtoh_pipeline_slot`, with what is known of its bytes. -/
structure Slot where
  offset : ℕ
  bytes : ℕ
  inFlight : Bool
  eventRecorded : Bool
  /-- A copy into the slot may still be running. -/
  running : Bool
  /-- The slot holds bytes that were not written to the connection. -/
  unsent : Bool
  deriving DecidableEq, Repr

/-- The state of `lupine_copy_dtoh_pipelined`, with the calls and the frames so far. -/
structure Pipeline where
  calls : ℕ
  frames : List Frame
  slots : Bool → Slot
  sent : ℕ
  submitted : ℕ
  /-- The pending error and its offset. -/
  terminal : Option (ℕ × CUresult)
  freed : Bool
  safe : Bool

/-- How a part of the handler ends. -/
inductive Ending
  /-- The response is written. -/
  | complete
  /-- The serial path has to go on. -/
  | fallback
  | transport
  | unfinished
  deriving DecidableEq, Repr

namespace Pipeline

def start : Pipeline where
  calls := 0
  frames := []
  slots _ := ⟨0, 0, false, false, false, false⟩
  sent := 0
  submitted := 0
  terminal := none
  freed := false
  safe := true

def called (s : Pipeline) : Pipeline := { s with calls := s.calls + 1 }

section

variable (env : Env) (s : Pipeline) (f : Frame)

/-- `lupine_write_dtoh_chunk_response`. -/
def write : Option Pipeline :=
  if env.transport s.frames.length then some { s with frames := s.frames ++ [f] } else none

/-- Write a last frame. -/
def respond : Ending × Pipeline :=
  match s.write env f with
  | some s' => (.complete, s')
  | none => (.transport, s)

/-- The copy into a slot is known to be over. -/
def confirm (i : Bool) : Pipeline :=
  { s with slots := update s.slots i { s.slots i with running := false } }

/-- All copies are known to be over. -/
def confirmAll : Pipeline :=
  { s with slots := fun i => { s.slots i with running := false } }

/-- `cuMemFreeHost` of the pinned storage. -/
def release : Pipeline :=
  { s with
    freed := true
    safe := s.safe && !(s.slots false).running && !(s.slots true).running }

/-- `cuStreamSynchronize`. -/
def synchronizeStream : CUresult × Pipeline :=
  (env.driver s.calls, if env.driver s.calls = 0 then s.called.confirmAll else s.called)

end

/-- The loop of `lupine_cleanup_dtoh_pipeline` over the events: its result, whether completion is
confirmed, and the state. -/
def synchronizeEvents (env : Env) : List Bool → Pipeline → CUresult × Bool × Pipeline
  | [], s => (0, true, s)
  | i :: rest, s =>
    if (s.slots i).inFlight && (s.slots i).eventRecorded then
      if env.driver s.calls = 0 then synchronizeEvents env rest (s.called.confirm i)
      else
        let r := s.called.synchronizeStream env
        (env.driver s.calls, r.1 = 0, r.2)
    else synchronizeEvents env rest s

/-- A slot in flight without an event. -/
def unproven (s : Pipeline) (i : Bool) : Bool := (s.slots i).inFlight && !(s.slots i).eventRecorded

/-- `lupine_cleanup_dtoh_pipeline`. -/
def cleanup (env : Env) (s : Pipeline) (synchronize : Bool) : CUresult × Pipeline :=
  if synchronize || s.unproven false || s.unproven true then
    let r := s.synchronizeStream env
    (r.1, if r.1 = 0 then r.2.release else r.2)
  else
    let r := synchronizeEvents env [false, true] s
    (r.1, if r.2.1 then r.2.2.release else r.2.2)

/-- Give up the pipeline: an error if its copies cannot be waited for, or else the serial path. -/
def recover (env : Env) (s : Pipeline) : Ending × Pipeline :=
  let r := s.cleanup env true
  if r.1 = 0 then (.fallback, r.2) else r.2.respond env (.error r.1)

/-- What a submission comes back with. -/
inductive Submission
  | ok
  | eventRecordFailed
  | failed (result : CUresult)

/-- A submission was attempted. -/
def attempt (total : ℕ) (s : Pipeline) (i : Bool) (offset : ℕ) : Pipeline :=
  { s with
    slots := update s.slots i
      { offset := offset
        bytes := min chunkBytes (total - offset)
        inFlight := true
        eventRecorded := false
        running := true
        unsent := true }
    safe := s.safe && !(s.slots i).unsent && !s.freed }

def recordEvent (s : Pipeline) (i : Bool) : Pipeline :=
  { s with slots := update s.slots i { s.slots i with eventRecorded := true } }

section

variable (env : Env) (total : ℕ) (s : Pipeline) (i : Bool) (offset : ℕ)

/-- `submit`. -/
def submit : Submission × Pipeline :=
  let s := s.attempt total i offset
  if env.driver s.calls = 0 then
    if env.driver (s.calls + 1) = 0 then (.ok, s.called.called.recordEvent i)
    else (.eventRecordFailed, s.called.called)
  else (.failed (env.driver s.calls), s.called)

/-- Submit the next chunk into a slot and go on: with the error pending when the copy was refused,
or with the chunk submitted. Without an event the pipeline is given up. -/
def submitNext (refused submitted : Pipeline → Ending × Pipeline) : Ending × Pipeline :=
  match s.submit env total i s.submitted with
  | (.eventRecordFailed, s) => s.recover env
  | (.failed e, s) => refused { s with terminal := some (s.submitted, e) }
  | (.ok, s) => submitted { s with submitted := s.submitted + (s.slots i).bytes }

/-- Write the bytes of a slot to the connection. -/
def writeSlot : Option Pipeline :=
  ({ s with
    slots := update s.slots i { s.slots i with unsent := false }
    safe := s.safe && !(s.slots i).running && !s.freed }).write env
      (.chunk (s.slots i).offset (s.slots i).bytes)

/-- The chunk of a slot was written. -/
def advance : Pipeline :=
  { s with
    sent := s.sent + (s.slots i).bytes
    slots := update s.slots i
      { s.slots i with inFlight := false, eventRecorded := false } }

/-- The error that is due at the current offset. -/
def due : Option CUresult :=
  (s.terminal.filter fun t => t.1 = s.sent).map Prod.snd

def slotIndex : Bool := offset / chunkBytes % 2 = 1

end

/-- The loop of `lupine_copy_dtoh_pipelined`. -/
def loop (env : Env) (total : ℕ) : ℕ → Pipeline → Ending × Pipeline
  | 0, s => (.unfinished, s)
  | fuel + 1, s =>
    if s.sent < total then
      match s.due with
      | some e =>
        let r := s.respond env (.error e)
        (r.1, (r.2.cleanup env false).2)
      | none =>
        let i := slotIndex s.sent
        if (s.slots i).inFlight && (s.slots i).eventRecorded && (s.slots i).offset = s.sent then
          if env.driver s.calls = 0 then
            match (s.called.confirm i).writeSlot env i with
            | none => (.transport, ((s.called.confirm i).cleanup env false).2)
            | some s =>
              let s := s.advance i
              if s.submitted < total && s.terminal.isNone then
                s.submitNext env total i (loop env total fuel) (loop env total fuel)
              else loop env total fuel s
          else
            let r := s.called.respond env (.error (env.driver s.calls))
            (r.1, (r.2.cleanup env true).2)
        else s.recover env
    else (.complete, (s.cleanup env false).2)

/-- The first submissions, and the loop after them. -/
def fill (env : Env) (total : ℕ) : List Bool → Pipeline → Ending × Pipeline
  | [], s => loop env total (total + 1) s
  | i :: rest, s =>
    if s.submitted = total then loop env total (total + 1) s
    else s.submitNext env total i (loop env total (total + 1)) (fill env total rest)

/-- `lupine_copy_dtoh_pipelined`: the pinned storage, the two events, and the copy. -/
def pipelined (env : Env) (total : ℕ) (s : Pipeline) : Ending × Pipeline :=
  if env.driver s.calls = 0 then
    if env.driver (s.calls + 1) = 0 then
      if env.driver (s.calls + 2) = 0 then
        fill env total [false, true] s.called.called.called
      else (.fallback, (s.called.called.called.cleanup env false).2)
    else (.fallback, (s.called.called.cleanup env false).2)
  else (.fallback, s.called)

/-- The loop of `lupine_write_dtoh_chunks`. -/
def serialLoop (env : Env) (total staging : ℕ) : ℕ → ℕ → Pipeline → Ending × Pipeline
  | 0, _, s => (.unfinished, s)
  | fuel + 1, offset, s =>
    let chunk := min (total - offset) staging
    if env.driver s.calls = 0 then
      match s.called.write env (.chunk offset chunk) with
      | none => (.transport, s.called)
      | some s =>
        if offset + chunk < total then serialLoop env total staging fuel (offset + chunk) s
        else (.complete, s)
    else s.called.respond env (.error (env.driver s.calls))

/-- `lupine_copy_dtoh_serial`. -/
def serial (env : Env) (total offset : ℕ) (s : Pipeline) : Ending × Pipeline :=
  if total < offset then (.transport, s)
  else if env.resize then
    serialLoop env total (min (total - offset) chunkBytes) (total + 1) offset s
  else s.respond env (.error outOfMemory)

/-- `handle_cuMemcpyDtoH_v2`. -/
def handle (env : Env) (total : ℕ) : Ending × Pipeline :=
  if pipelineMinBytes ≤ total then
    match pipelined env total start with
    | (.fallback, s) => serial env total s.sent s
    | r => r
  else serial env total 0 start

end Pipeline

/-! ## The client -/

/-- What `lupine_read_dtoh_chunks` returns, what it wrote (the offset in client memory, the offset
in the source and the number of bytes), and the frames that it left. -/
structure Reading where
  result : CUresult
  copies : List (ℕ × ℕ × ℕ)
  rest : List Frame
  deriving DecidableEq, Repr

/-- `lupine_read_dtoh_chunks`. There is no reading of a frame with another number of bytes than
expected. -/
def readDtohChunks (total : ℕ) : ℕ → List Frame → Option Reading
  | _, [] => none
  | _, .error e :: rest => some ⟨e, [], rest⟩
  | offset, .chunk source bytes :: rest =>
    if bytes = min (total - offset) chunkBytes then
      if offset + bytes < total then
        (readDtohChunks total (offset + bytes) rest).map fun r =>
          { r with copies := (offset, source, bytes) :: r.copies }
      else some ⟨0, [(offset, source, bytes)], rest⟩
    else none

/-! ## Responses -/

/-- Chunks of the expected sizes, from offset zero up to `o`. -/
inductive Chunks (total : ℕ) : List Frame → ℕ → Prop
  | nil : Chunks total [] 0
  | snoc {fs : List Frame} {o : ℕ} : Chunks total fs o → o < total →
      Chunks total (fs ++ [.chunk o (min (total - o) chunkBytes)])
        (o + min (total - o) chunkBytes)

/-- A response: all chunks, or some and an error. -/
inductive Response (total : ℕ) : List Frame → Prop
  | complete {fs : List Frame} : Chunks total fs total → 0 < total → Response total fs
  | empty : total = 0 → Response total [.chunk 0 0]
  | error {fs : List Frame} {o : ℕ} {e : CUresult} : Chunks total fs o → o < total ∨ total = 0 →
      e ≠ 0 → Response total (fs ++ [.error e])

theorem chunkBytes_pos : 0 < chunkBytes := by decide

theorem Chunks.le {total o : ℕ} (h : Chunks total fs o) : o ≤ total := by
  cases h <;> omega

theorem Chunks.last {total o : ℕ} (h : Chunks total fs o) (ho : 0 < o) :
    ∃ fs' o', Chunks total fs' o' ∧ o' < total ∧ o = o' + min (total - o') chunkBytes ∧
      fs = fs' ++ [.chunk o' (min (total - o') chunkBytes)] := by
  cases h with
  | nil => omega
  | snoc h hlt => exact ⟨_, _, h, hlt, rfl, rfl⟩

theorem Chunks.of_empty {o : ℕ} (h : Chunks 0 fs o) : o = 0 ∧ fs = [] := by
  cases h with
  | nil => exact ⟨rfl, rfl⟩
  | snoc _ hlt => omega

theorem Chunks.error_notMem {total o : ℕ} (h : Chunks total fs o) (e : CUresult) :
    Frame.error e ∉ fs := by
  induction h with
  | nil => simp
  | snoc _ _ ih => simp [ih]

/-! ### The reader -/

/-- The copies that the chunks of a response ask for: every chunk to its own offset. -/
def copiesOf (fs : List Frame) : List (ℕ × ℕ × ℕ) :=
  fs.filterMap fun
    | .chunk offset bytes => some (offset, offset, bytes)
    | .error _ => none

attribute [local simp] copiesOf

/-- The reader takes the chunks one after the other. -/
theorem Chunks.read {total o : ℕ} (h : Chunks total fs o) (ho : o < total ∨ fs = [])
    (tail : List Frame) :
    readDtohChunks total 0 (fs ++ tail) =
      (readDtohChunks total o tail).map fun r => { r with copies := copiesOf fs ++ r.copies } := by
  induction h generalizing tail with
  | nil => simp
  | @snoc fs o _ hlt ih =>
    obtain ho | ho := ho
    · rw [append_assoc, ih (.inl hlt), singleton_append, readDtohChunks, if_pos rfl,
        if_pos ho, Option.map_map]
      congr 1
      funext r
      simp
    · simp at ho

/-- **The reader and the response.** It takes every frame, copies every chunk to its offset, and
returns the error if there is one. -/
theorem Response.read {total : ℕ} (h : Response total fs) :
    ∃ reading, readDtohChunks total 0 fs = some reading ∧ reading.rest = [] ∧
      reading.copies = copiesOf fs ∧ (reading.result = 0 ↔ ∀ e, Frame.error e ∉ fs) := by
  cases h with
  | complete hchunks hpos =>
    -- The last chunk ends the reading.
    obtain ⟨fs', o, hfs, hlt, hstop, rfl⟩ := hchunks.last hpos
    rw [hfs.read (.inl hlt), readDtohChunks, if_pos rfl, if_neg (by omega)]
    refine ⟨_, rfl, rfl, by simp, ?_⟩
    simpa using hfs.error_notMem
  | empty hzero =>
    subst hzero
    exact ⟨⟨0, [(0, 0, 0)], []⟩, by decide, rfl, rfl, by simp⟩
  | @error fs o e hchunks ho he =>
    have ho' : o < total ∨ fs = [] := by
      obtain ho | ho := ho
      · exact .inl ho
      · subst ho
        exact .inr hchunks.of_empty.2
    rw [hchunks.read ho']
    refine ⟨⟨e, copiesOf fs, []⟩, by simp [readDtohChunks], rfl, ?_, ?_⟩
    · simp
    · simp only [he, false_iff, not_forall, not_not]
      exact ⟨e, by simp⟩

/-! ## Cleaning up -/

namespace Pipeline

variable {env : Env} {total : ℕ} {s : Pipeline}

/-- Copies run only in slots that are in flight. -/
structure Guarded (s : Pipeline) : Prop where
  safe : s.safe = true
  running : ∀ i, (s.slots i).running = true → (s.slots i).inFlight = true

theorem Guarded.confirm (h : Guarded s) (i : Bool) : Guarded (s.called.confirm i) := by
  refine ⟨h.safe, ?_⟩
  exact (forall_update_iff s.slots fun _ slot => slot.running = true → slot.inFlight = true).2
    ⟨fun hrun => (nomatch hrun), fun j _ => h.running j⟩

/-- The frames and the offset of the next one are the same. -/
def SameFrames (s t : Pipeline) : Prop := t.frames = s.frames ∧ t.sent = s.sent

/-- What the loop over the events does: copies end, none starts, and when completion is confirmed
the copies into its slots are over. -/
theorem synchronizeEvents_spec (env : Env) (l : List Bool) (h : Guarded s)
    (hproven : ∀ i, s.unproven i = false) :
    (synchronizeEvents env l s).2.2.safe = true ∧
    SameFrames s (synchronizeEvents env l s).2.2 ∧
    (∀ i, ((synchronizeEvents env l s).2.2.slots i).running = true →
      (s.slots i).running = true) ∧
    ((synchronizeEvents env l s).2.1 = true → ∀ i ∈ l,
      ((synchronizeEvents env l s).2.2.slots i).running = false) := by
  induction l generalizing s with
  | nil => exact ⟨h.safe, ⟨rfl, rfl⟩, fun _ hi => hi, fun _ i hi => (nomatch hi)⟩
  | cons j rest ih =>
    rw [synchronizeEvents]
    split
    · split
      · -- The event proves the end of the copy into the slot.
        have hslot (i : Bool) : ((s.called.confirm j).slots i).inFlight = (s.slots i).inFlight ∧
            ((s.called.confirm j).slots i).eventRecorded = (s.slots i).eventRecorded ∧
            (((s.called.confirm j).slots i).running = true →
              i ≠ j ∧ (s.slots i).running = true) := by
          by_cases hij : i = j
          · subst hij
            simp [confirm, called]
          · simp [confirm, called, hij]
        have hproven' (i : Bool) : (s.called.confirm j).unproven i = false := by
          rw [unproven, (hslot i).1, (hslot i).2.1]
          exact hproven i
        obtain ⟨hsafe, hsame, hmono, hdone⟩ := ih (h.confirm j) hproven'
        refine ⟨hsafe, hsame, fun i hi => ((hslot i).2.2 (hmono i hi)).2, fun hok i hi => ?_⟩
        obtain rfl | hi := mem_cons.1 hi
        · exact Bool.eq_false_iff.2 fun hrun => ((hslot i).2.2 (hmono i hrun)).1 rfl
        · exact hdone hok i hi
      · dsimp only [synchronizeStream]
        split
        · exact ⟨h.safe, ⟨rfl, rfl⟩, fun i hi => (nomatch hi), fun _ i _ => rfl⟩
        · next hfail =>
          exact ⟨h.safe, ⟨rfl, rfl⟩, fun i hi => hi, fun hok => absurd hok (by simpa using hfail)⟩
    · next hidle =>
      obtain ⟨hsafe, hsame, hmono, hdone⟩ := ih h hproven
      refine ⟨hsafe, hsame, hmono, fun hok i hi => ?_⟩
      obtain rfl | hi := mem_cons.1 hi
      · -- A slot without a recorded event is not in flight, so no copy runs in it.
        refine Bool.eq_false_iff.2 fun hrun => hidle ?_
        have hflight := h.running i (hmono i hrun)
        have hevent := hproven i
        rw [unproven, hflight] at hevent
        rw [hflight]
        simpa using hevent
      · exact hdone hok i hi

/-- The pinned storage is released only when no copy into it can still be running. -/
theorem cleanup_spec (env : Env) (h : Guarded s) (synchronize : Bool) :
    (s.cleanup env synchronize).2.safe = true ∧
      SameFrames s (s.cleanup env synchronize).2 := by
  rw [cleanup]
  split
  · dsimp only [synchronizeStream]
    split
    · next hok =>
      refine ⟨?_, rfl, rfl⟩
      simp [release, confirmAll, called, h.safe]
    · exact ⟨h.safe, rfl, rfl⟩
  · next hproven =>
    simp only [Bool.or_eq_true, not_or, Bool.not_eq_true] at hproven
    have hproven' (i : Bool) : s.unproven i = false := by
      cases i
      · exact hproven.1.2
      · exact hproven.2
    obtain ⟨hsafe, hsame, -, hdone⟩ := synchronizeEvents_spec env [false, true] h hproven'
    dsimp only
    split
    · next hok =>
      refine ⟨?_, hsame⟩
      simp [release, hsafe, hdone hok false (by simp), hdone hok true (by simp)]
    · exact ⟨hsafe, hsame⟩

/-! ## Ends of the handler -/

/-- The response is written, without an error if nothing failed, or the transport failed. -/
def Finished (env : Env) (total : ℕ) (r : Ending × Pipeline) : Prop :=
  r.2.safe = true ∧
    (r.1 = .complete ∧ Response total r.2.frames ∧ (env.Fails ∨ ∀ e, .error e ∉ r.2.frames) ∨
      r.1 = .transport ∧ ∃ k, env.transport k = false)

/-- The pipeline finished, or it left the rest of the chunks to the serial path. -/
def Ended (env : Env) (total : ℕ) (r : Ending × Pipeline) : Prop :=
  Finished env total r ∨
    r.2.safe = true ∧ r.1 = .fallback ∧ Chunks total r.2.frames r.2.sent ∧ r.2.sent < total

theorem Finished.cleanup {r : Ending × Pipeline} (h : Finished env total r) (hguard : Guarded r.2)
    (synchronize : Bool) : Finished env total (r.1, (r.2.cleanup env synchronize).2) := by
  obtain ⟨hsafe, hframes, -⟩ := cleanup_spec env hguard synchronize
  refine ⟨hsafe, ?_⟩
  rw [hframes]
  exact h.2

theorem write_cases (env : Env) (s : Pipeline) (f : Frame) :
    s.write env f = some { s with frames := s.frames ++ [f] } ∨
      s.write env f = none ∧ ∃ k, env.transport k = false := by
  rw [write]
  split
  · exact .inl rfl
  · next hfail => exact .inr ⟨rfl, _, by simpa using hfail⟩

theorem respond_finished (env : Env) {o : ℕ} {e : CUresult} (hsafe : s.safe = true)
    (hchunks : Chunks total s.frames o) (ho : o < total ∨ total = 0) (he : e ≠ 0)
    (hfails : env.Fails) : Finished env total (s.respond env (.error e)) := by
  rw [respond]
  obtain hsome | ⟨hnone, hfail⟩ := write_cases env s (.error e)
  · rw [hsome]
    exact ⟨hsafe, .inl ⟨rfl, .error hchunks ho he, .inl hfails⟩⟩
  · rw [hnone]
    exact ⟨hsafe, .inr ⟨rfl, hfail⟩⟩

theorem respond_guarded (h : Guarded s) (f : Frame) : Guarded (s.respond env f).2 := by
  rw [respond]
  obtain hsome | ⟨hnone, -⟩ := write_cases env s f
  · rw [hsome]
    exact ⟨h.safe, h.running⟩
  · rw [hnone]
    exact h

theorem recover_ended (h : Guarded s) (hchunks : Chunks total s.frames s.sent)
    (hlt : s.sent < total) : Ended env total (s.recover env) := by
  obtain ⟨hsafe, hframes, hsent⟩ := cleanup_spec env h true
  rw [← hframes, ← hsent] at hchunks
  rw [← hsent] at hlt
  rw [recover]
  split
  · exact .inr ⟨hsafe, rfl, hchunks, hlt⟩
  · next hfail =>
    exact .inl (respond_finished env hsafe hchunks (.inl hlt) hfail (.inl ⟨s.calls, hfail⟩))

/-! ## The pipeline -/

/-- What holds of a slot: copies run only in flight, the chunk has the expected size, and once its
event is recorded it counts as submitted. -/
structure SlotOk (total submitted : ℕ) (slot : Slot) : Prop where
  running : slot.running = true → slot.inFlight = true
  bytes : slot.inFlight = true → slot.bytes = min (total - slot.offset) chunkBytes
  behind : slot.inFlight = true → slot.eventRecorded = true → slot.offset + slot.bytes ≤ submitted

theorem SlotOk.mono {submitted submitted' : ℕ} {slot : Slot} (h : SlotOk total submitted slot)
    (hle : submitted ≤ submitted') : SlotOk total submitted' slot :=
  { h with behind := fun hflight hevent => Nat.le_trans (h.behind hflight hevent) hle }

/-- What holds between the rounds of the pipeline. -/
structure Inv (env : Env) (total : ℕ) (s : Pipeline) : Prop where
  safe : s.safe = true
  freed : s.freed = false
  slots : ∀ i, SlotOk total s.submitted (s.slots i)
  sent_le : s.sent ≤ s.submitted
  submitted_le : s.submitted ≤ total
  terminal : ∀ t ∈ s.terminal, t.2 ≠ 0 ∧ env.Fails
  chunks : Chunks total s.frames s.sent

section

variable (h : Inv env total s)
include h

theorem Inv.guarded : Guarded s := ⟨h.safe, fun i => (h.slots i).running⟩

theorem Inv.called : Inv env total s.called := { h with }

attribute [local simp] Pipeline.attempt

theorem Inv.attempt {i : Bool} (hunsent : (s.slots i).unsent = false) (offset : ℕ) :
    Inv env total (s.attempt total i offset) where
  safe := by simp [h.safe, h.freed, hunsent]
  freed := h.freed
  slots := by
    refine (forall_update_iff s.slots fun _ => SlotOk total s.submitted).2
      ⟨⟨fun _ => rfl, fun _ => Nat.min_comm _ _, fun _ hevent => (nomatch hevent)⟩,
        fun j _ => h.slots j⟩
  sent_le := h.sent_le
  submitted_le := h.submitted_le
  terminal := h.terminal
  chunks := h.chunks

/-- A submission that succeeded: its chunk counts as submitted. -/
theorem Inv.recorded {i : Bool} (hoffset : (s.slots i).offset = s.submitted)
    (hflight : (s.slots i).inFlight = true) (hlt : s.submitted < total) :
    Inv env total { s.recordEvent i with
      submitted := s.submitted + ((s.recordEvent i).slots i).bytes } := by
  have hslot := h.slots i
  have hbytes := hslot.bytes hflight
  have hsame : ((s.recordEvent i).slots i).bytes = (s.slots i).bytes := by simp [recordEvent]
  rw [hsame]
  exact {
    safe := h.safe
    freed := h.freed
    slots := by
      refine (forall_update_iff s.slots
        fun _ => SlotOk total (s.submitted + (s.slots i).bytes)).2 ⟨⟨hslot.running, hslot.bytes,
          fun _ _ => ?_⟩, fun j _ => (h.slots j).mono (Nat.le_add_right _ _)⟩
      exact Nat.le_of_eq (congrArg (· + (s.slots i).bytes) hoffset)
    sent_le := Nat.le_trans h.sent_le (Nat.le_add_right _ _)
    submitted_le := by
      dsimp only
      omega
    terminal := h.terminal
    chunks := h.chunks }

theorem submit_cases {i : Bool} (hunsent : (s.slots i).unsent = false) (hlt : s.submitted < total)
    {sub : Submission} {t : Pipeline} (hsubmit : s.submit env total i s.submitted = (sub, t)) :
    (∀ j, j ≠ i → t.slots j = s.slots j) ∧ t.sent = s.sent ∧ t.submitted = s.submitted ∧
    (sub = .eventRecordFailed ∧ Inv env total t ∨
      (∃ e, (e ≠ 0 ∧ env.Fails) ∧ sub = .failed e) ∧ Inv env total t ∨
      sub = .ok ∧ Inv env total { t with submitted := t.submitted + (t.slots i).bytes }) := by
  have hattempt := h.attempt hunsent s.submitted
  have hslots (j : Bool) (hj : j ≠ i) : (s.attempt total i s.submitted).slots j = s.slots j :=
    update_of_ne hj _ _
  simp only [submit] at hsubmit
  split at hsubmit
  · split at hsubmit
    · cases hsubmit
      refine ⟨fun j hj => (update_of_ne hj _ _).trans (hslots j hj), rfl, rfl,
        .inr (.inr ⟨rfl, ?_⟩)⟩
      exact hattempt.called.called.recorded (by simp [Pipeline.called])
        (by simp [Pipeline.called]) hlt
    · cases hsubmit
      exact ⟨hslots, rfl, rfl, .inl ⟨rfl, hattempt.called.called⟩⟩
  · next hfail =>
    cases hsubmit
    exact ⟨hslots, rfl, rfl, .inr (.inl ⟨⟨_, ⟨hfail, .inl ⟨_, hfail⟩⟩, rfl⟩, hattempt.called⟩)⟩

/-- A chunk was written: its slot is free, and the next chunk is due. -/
theorem Inv.written {i : Bool} (hflight : (s.slots i).inFlight = true)
    (hevent : (s.slots i).eventRecorded = true) (hoffset : (s.slots i).offset = s.sent)
    (hlt : s.sent < total) {t : Pipeline} (hwrite : (s.called.confirm i).writeSlot env i = some t) :
    Inv env total (t.advance i) ∧ ((t.advance i).slots i).unsent = false ∧
      s.sent < (t.advance i).sent := by
  have hbytes := (h.slots i).bytes hflight
  have hbehind := (h.slots i).behind hflight hevent
  rw [hoffset] at hbytes hbehind
  have hpos := chunkBytes_pos
  rw [writeSlot, write] at hwrite
  split at hwrite
  · cases hwrite
    simp only [advance, confirm, Pipeline.called, update_self, update_idem]
    have hchunks := h.chunks.snoc hlt
    rw [← hbytes, ← hoffset] at hchunks
    refine ⟨⟨?_, h.freed, ?_, ?_, h.submitted_le, h.terminal, ?_⟩, ?_, ?_⟩
    · simp [h.safe, h.freed]
    · exact (forall_update_iff s.slots fun _ => SlotOk total s.submitted).2
        ⟨⟨fun hrun => (nomatch hrun), fun hin => (nomatch hin), fun hin => (nomatch hin)⟩,
          fun j _ => h.slots j⟩
    · exact hbehind
    · simpa [hoffset] using hchunks
    · trivial
    · omega
  · cases hwrite

/-- Submitting a chunk ends the pipeline, or goes on with what holds between the rounds. -/
theorem submitNext_ended {i : Bool} (hunsent : (s.slots i).unsent = false)
    (hlt : s.submitted < total) {refused submitted : Pipeline → Ending × Pipeline}
    (hrefused : ∀ t, Inv env total t → t.sent = s.sent → Ended env total (refused t))
    (hsubmitted : ∀ t, Inv env total t → t.sent = s.sent → (∀ j, j ≠ i → t.slots j = s.slots j) →
      Ended env total (submitted t)) :
    Ended env total (s.submitNext env total i refused submitted) := by
  rw [submitNext]
  rcases hsubmit : s.submit env total i s.submitted with ⟨sub, t⟩
  obtain ⟨hslots, hsent, hsub, ⟨rfl, hinv⟩ | ⟨⟨e, he, rfl⟩, hinv⟩ | ⟨rfl, hinv⟩⟩ :=
    submit_cases h hunsent hlt hsubmit
  · have hle := h.sent_le
    exact recover_ended hinv.guarded hinv.chunks (by omega)
  · exact hrefused _ { hinv with terminal := by simpa using he } hsent
  · exact hsubmitted _ hinv hsent hslots

end

theorem writeSlot_none {i : Bool} (h : s.writeSlot env i = none) :
    ∃ k, env.transport k = false := by
  rw [writeSlot] at h
  obtain hsome | ⟨-, hfail⟩ := write_cases env _ _
  · rw [hsome] at h
    cases h
  · exact hfail

/-- **The loop.** With enough rounds left the pipeline ends. -/
theorem loop_spec (hpos : 0 < total) (fuel : ℕ) (h : Inv env total s)
    (hfuel : total < s.sent + fuel) : Ended env total (loop env total fuel s) := by
  induction fuel generalizing s with
  | zero =>
    have := h.sent_le
    have := h.submitted_le
    omega
  | succ fuel ih =>
    rw [loop]
    split
    · next hlt =>
      split
      · next e hdue =>
        obtain ⟨t, ht, rfl⟩ := Option.map_eq_some_iff.1 hdue
        obtain ⟨he, hfails⟩ := h.terminal t (Option.filter_eq_some_iff.1 ht).1
        have hfinished := respond_finished env h.safe h.chunks (.inl hlt) he hfails
        exact .inl (hfinished.cleanup (respond_guarded h.guarded _) false)
      · dsimp only
        split
        · next hslot =>
          simp only [Bool.and_eq_true, decide_eq_true_iff] at hslot
          obtain ⟨⟨hflight, hevent⟩, hoffset⟩ := hslot
          split
          · split
            · next hnone =>
              refine .inl ⟨?_, .inr ⟨rfl, writeSlot_none hnone⟩⟩
              exact (cleanup_spec env (h.guarded.confirm _) false).1
            · next t hwrite =>
              obtain ⟨hinv, hunsent, hsent⟩ := h.written hflight hevent hoffset hlt hwrite
              split
              · next hmore =>
                simp only [Bool.and_eq_true, decide_eq_true_iff] at hmore
                exact submitNext_ended hinv hunsent hmore.1
                  (fun u hu husent => ih hu (by omega)) fun u hu husent _ => ih hu (by omega)
              · exact ih hinv (by omega)
          · next hfail =>
            have hfinished := respond_finished env h.called.safe h.called.chunks (.inl hlt) hfail
              (.inl ⟨_, hfail⟩)
            exact .inl (hfinished.cleanup (respond_guarded h.called.guarded _) true)
        · exact recover_ended h.guarded h.chunks hlt
    · next hge =>
      have hle := h.sent_le
      have hle' := h.submitted_le
      have hsent : s.sent = total := by omega
      refine .inl ⟨(cleanup_spec env h.guarded false).1, .inl ⟨rfl, ?_⟩⟩
      rw [(cleanup_spec env h.guarded false).2.1]
      exact ⟨.complete (hsent ▸ h.chunks) hpos, .inr h.chunks.error_notMem⟩

/-- The first submissions fill slots that hold nothing. -/
theorem fill_spec (hpos : 0 < total) (slots : List Bool) (hslots : slots.Nodup)
    (h : Inv env total s) (hunsent : ∀ i ∈ slots, (s.slots i).unsent = false) :
    Ended env total (fill env total slots s) := by
  have hloop (t : Pipeline) (ht : Inv env total t) :
      Ended env total (loop env total (total + 1) t) :=
    loop_spec hpos _ ht (by omega)
  induction slots generalizing s with
  | nil => exact hloop s h
  | cons i rest ih =>
    rw [fill]
    split
    · exact hloop s h
    · next hmore =>
      have hle := h.submitted_le
      obtain ⟨hi, hrest⟩ := nodup_cons.1 hslots
      refine submitNext_ended h (hunsent i (mem_cons_self ..)) (by omega)
        (fun t ht _ => hloop t ht) fun t ht _ hsame => ih hrest ht fun j hj => ?_
      rw [hsame j fun hji => hi (hji ▸ hj)]
      exact hunsent j (mem_cons_of_mem _ hj)

theorem start_inv (env : Env) (total : ℕ) : Inv env total start where
  safe := rfl
  freed := rfl
  slots _ := ⟨fun h => (nomatch h), fun h => (nomatch h), fun h => (nomatch h)⟩
  sent_le := Nat.le_refl 0
  submitted_le := Nat.zero_le total
  terminal _ h := (nomatch h)
  chunks := .nil

theorem pipelined_spec (env : Env) (hpos : 0 < total) :
    Ended env total (pipelined env total start) := by
  have hstart := start_inv env total
  have hsetup (t : Pipeline) (ht : Inv env total t) (hsent : t.sent = 0) :
      Ended env total (.fallback, (t.cleanup env false).2) := by
    obtain ⟨hsafe, hframes, hsame⟩ := cleanup_spec env ht.guarded false
    refine .inr ⟨hsafe, rfl, ?_, ?_⟩
    · rw [hframes, hsame]
      exact ht.chunks
    · dsimp only
      omega
  rw [pipelined]
  split
  · split
    · split
      · exact fill_spec hpos [false, true] (by decide) hstart.called.called.called fun _ _ => rfl
      · exact hsetup _ hstart.called.called.called rfl
    · exact hsetup _ hstart.called.called rfl
  · exact .inr ⟨rfl, rfl, .nil, hpos⟩

/-! ## The serial path -/

/-- The serial loop goes on with chunks of the expected sizes. -/
theorem serialLoop_spec {first : ℕ} (fuel o : ℕ) (hsafe : s.safe = true)
    (hchunks : Chunks total s.frames o) (hfirst : first ≤ o) (ho : o < total ∨ total = 0)
    (hfuel : total < o + fuel) :
    Finished env total (serialLoop env total (min (total - first) chunkBytes) fuel o s) := by
  have hpos := chunkBytes_pos
  have hle := hchunks.le
  induction fuel generalizing s o with
  | zero => omega
  | succ fuel ih =>
    have hchunk : min (total - o) (min (total - first) chunkBytes) =
        min (total - o) chunkBytes := by omega
    rw [serialLoop]
    simp only [hchunk]
    split
    · obtain hsome | ⟨hnone, hfail⟩ :=
        write_cases env s.called (.chunk o (min (total - o) chunkBytes))
      · rw [hsome]
        dsimp only
        split
        · next hmore =>
          have hnext := hchunks.snoc (Nat.lt_of_le_of_lt (Nat.le_add_right _ _) hmore)
          exact ih _ hsafe hnext (by omega) (.inl hmore) (by omega) hnext.le
        · next hlast =>
          refine ⟨hsafe, .inl ⟨rfl, ?_⟩⟩
          obtain ho | rfl := ho
          · have hstop : o + min (total - o) chunkBytes = total := by omega
            have hall := hchunks.snoc ho
            rw [hstop] at hall
            exact ⟨.complete hall (by omega), .inr hall.error_notMem⟩
          · -- An empty copy is one chunk without bytes.
            obtain ⟨rfl, hframes⟩ := hchunks.of_empty
            simpa [called, hframes] using Response.empty rfl
      · rw [hnone]
        exact ⟨hsafe, .inr ⟨rfl, hfail⟩⟩
    · next hfail => exact respond_finished env hsafe hchunks ho hfail (.inl ⟨_, hfail⟩)

theorem serial_spec (hsafe : s.safe = true) {o : ℕ} (hchunks : Chunks total s.frames o)
    (ho : o < total ∨ total = 0) : Finished env total (serial env total o s) := by
  have hle := hchunks.le
  rw [serial, if_neg (by omega)]
  split
  · exact serialLoop_spec _ o hsafe hchunks (Nat.le_refl o) ho (by omega)
  · next hresize =>
    exact respond_finished env hsafe hchunks ho (by decide) (.inr (by simpa using hresize))

theorem handle_spec (env : Env) (total : ℕ) : Finished env total (handle env total) := by
  rw [handle]
  split
  · next hlarge =>
    have hpos : 0 < total := Nat.lt_of_lt_of_le (by decide) hlarge
    have hended := pipelined_spec env hpos
    generalize pipelined env total start = r at hended
    obtain ⟨ending, s⟩ := r
    obtain ⟨hsafe, ⟨rfl, hr⟩ | ⟨rfl, hr⟩⟩ | ⟨hsafe, rfl, hchunks, hlt⟩ := hended
    · exact ⟨hsafe, .inl ⟨rfl, hr⟩⟩
    · exact ⟨hsafe, .inr ⟨rfl, hr⟩⟩
    · exact serial_spec hsafe hchunks (.inl hlt)
  · exact serial_spec rfl .nil (by omega)

end Pipeline

/-- **Chunked responses and their reader.** For every size and every outcome of the driver's calls,
the handler writes chunks of the expected sizes from offset zero on, up to the size of the copy or
followed by one error, unless the transport fails; without a failure it writes them all. The reader
takes exactly these frames and puts every chunk to its own offset. No slot is submitted before its
bytes were written to the connection, none is written while a copy into it may be running, and the
pinned storage is released only when no copy into it can be running. -/
theorem dtoh_chunks_agree (env : Env) (total : ℕ) :
    (Pipeline.handle env total).2.safe = true ∧
    (((Pipeline.handle env total).1 = .complete ∧
        Response total (Pipeline.handle env total).2.frames ∧
        (env.Fails ∨ ∀ e, Frame.error e ∉ (Pipeline.handle env total).2.frames) ∧
        ∃ reading, readDtohChunks total 0 (Pipeline.handle env total).2.frames = some reading ∧
          reading.rest = [] ∧
          reading.copies = copiesOf (Pipeline.handle env total).2.frames ∧
          (reading.result = 0 ↔
            ∀ e, Frame.error e ∉ (Pipeline.handle env total).2.frames)) ∨
      (Pipeline.handle env total).1 = .transport ∧ ∃ k, env.transport k = false) := by
  obtain ⟨hsafe, ⟨hcomplete, hresponse, hfails⟩ | htransport⟩ := Pipeline.handle_spec env total
  · exact ⟨hsafe, .inl ⟨hcomplete, hresponse, hfails, hresponse.read⟩⟩
  · exact ⟨hsafe, .inr htransport⟩

end Lupine.DeviceToHost
