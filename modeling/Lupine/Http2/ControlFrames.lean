import Mathlib.Algebra.Group.Nat.Defs
import Lupine.Http2.Resume

/-!
# Control frames and the barriers they ask for

The receiving side of the control frames of `h2.cpp`. The session reads the header of a frame and
hands its payload on in pieces, as the socket delivers the bytes (`Session`); the callback for
pieces fills `control_payload`, and the one for complete frames splits it into the command and its
checkpoint. At the end of a round the reader of a server queues a barrier `B` if `freeze_checkpoint`
is not empty, which is also how a pending request is told from none.

`barrier_per_freeze` says that control frames are received as they were sent, and that a server
queues one barrier for each freeze request if none has an empty checkpoint. An empty one leads to
no barrier (`freeze_without_barrier`).
-/

namespace Lupine.Http2

open Foundations List HandoffServer

/-- `nghttp2_frame_hd`. -/
structure FrameHeader where
  length : ℕ
  flags : UInt8
  streamId : ℕ

/-- The header that the first nine bytes of a frame stand for. -/
def FrameHeader.ofBytes (bytes : List UInt8) : FrameHeader :=
  let number := fun l : List UInt8 => l.foldl (fun n b => n * 256 + b.toNat) 0
  ⟨number (bytes.take 3), bytes.getD 4 0, number ((bytes.drop 5).take 4) % 2 ^ 31⟩

/-- The callback for a piece of a control frame, with `control_payload`. -/
def chunkRecv (hd : FrameHeader) (payload piece : List UInt8) : Option (List UInt8) :=
  if hd.streamId ≠ 0 ∨ hd.flags ≠ 0 ∨ hd.length > 512 ∨
      payload.length + piece.length > hd.length then none
  else some (payload ++ piece)

/-- An `nghttp2` session that receives a frame in segments: the header that it reads, and the pieces
of the payload that it hands on. -/
structure Session where
  header : List UInt8 → FrameHeader
  pieces : List (List UInt8) → List (List UInt8)

/-- What the callbacks rely on: the header is read as it is laid out, and the payload is handed on
in order and as a whole. -/
structure Session.Delivers (S : Session) : Prop where
  header : ∀ bytes, S.header bytes = .ofBytes bytes
  pieces : ∀ segments, (S.pieces segments).flatten = segments.flatten.drop 9

/-- The command and the checkpoint of a control frame whose bytes come in segments
(`h2_on_frame_recv_callback`). -/
def Session.receiveControl (S : Session) (segments : List (List UInt8)) :
    Option (UInt8 × List UInt8) :=
  match (S.pieces segments).foldlM (chunkRecv (S.header (segments.flatten.take 9))) [] with
  | some (command :: checkpoint) => some (command, checkpoint)
  | _ => none

/-- The pieces of a payload that fits add up to it. -/
theorem foldlM_chunkRecv {hd : FrameHeader} (hplain : hd.streamId = 0 ∧ hd.flags = 0)
    (hlimit : hd.length ≤ 512) {segments : List (List UInt8)} {payload : List UInt8}
    (hfits : payload.length + segments.flatten.length ≤ hd.length) :
    segments.foldlM (chunkRecv hd) payload = some (payload ++ segments.flatten) := by
  induction segments generalizing payload with
  | nil => simp
  | cons segment segments ih =>
    rw [flatten_cons, length_append, ← Nat.add_assoc] at hfits
    have hchunk : chunkRecv hd payload segment = some (payload ++ segment) := by
      rw [chunkRecv, if_neg]
      simp only [hplain, ne_eq, not_true, false_or, not_or, Nat.not_lt]
      omega
    rw [foldlM_cons, hchunk, flatten_cons, ← append_assoc]
    exact ih (by rwa [length_append])

/-- A control frame is received as it was sent, however its bytes are cut. -/
theorem Session.Delivers.receiveControl {S : Session} (hS : S.Delivers) (command : UInt8)
    {checkpoint : List UInt8} (hcheckpoint : checkpoint.length ≤ 511)
    {segments : List (List UInt8)} (hbytes : segments.flatten = controlFrame command checkpoint) :
    S.receiveControl segments = some (command, checkpoint) := by
  have hpayload : (S.pieces segments).flatten = command :: checkpoint := by
    rw [hS.pieces, hbytes]
    rfl
  have hheader : FrameHeader.ofBytes ((controlFrame command checkpoint).take 9) =
      ⟨checkpoint.length + 1, 0, 0⟩ := by
    simp [FrameHeader.ofBytes, controlFrame]
    omega
  rw [Session.receiveControl, hS.header, hbytes, hheader,
    foldlM_chunkRecv ⟨rfl, rfl⟩ (show checkpoint.length + 1 ≤ 512 by omega) (by simp [hpayload]),
    hpayload]
  rfl

/-- A session that hands on one byte at a time. -/
def Session.bytewise : Session := ⟨.ofBytes, fun segments => (segments.flatten.drop 9).map ([·])⟩

theorem Session.bytewise_delivers : Session.bytewise.Delivers :=
  ⟨fun _ => rfl, fun _ => flatMap_singleton' _⟩

/-! ## Barriers -/

/-- The request that waits for the end of the round. -/
def HandoffServer.asked (s : HandoffServer) : List (List UInt8) :=
  if s.freezeCheckpoint = [] then [] else [s.freezeCheckpoint]

/-- A server's transport. The checkpoints of the requests that it has accepted and of the barriers
that it has queued are only observed. -/
structure Freezer where
  server : HandoffServer
  freezes : List (List UInt8)
  barriers : List (List UInt8)

namespace Freezer

variable {s s' : Freezer}

def initial : Freezer := ⟨.initial, [], []⟩

def step (s : Freezer) (a : HandoffServer.Action) : Option Freezer :=
  (s.server.step a).map fun server =>
    match a with
    | .freeze checkpoint => ⟨server, s.freezes ++ [checkpoint], s.barriers⟩
    | .handled _ => ⟨server, s.freezes, s.barriers ++ s.server.asked⟩
    | _ => ⟨server, s.freezes, s.barriers⟩

/-- Requests with a checkpoint have had their barriers, or the last one waits for the end of the
round. -/
def Kept (s : Freezer) : Prop := [] ∉ s.freezes → s.freezes = s.barriers ++ s.server.asked

theorem asked_of_handled {t t' : HandoffServer} {flushed : List UInt8}
    (h : t.step (.handled flushed) = some t') : t'.asked = [] ∧
      t'.writer.queued = t.writer.queued ++
        t.asked.flatMap fun checkpoint => flushed ++ controlFrame 66 checkpoint := by
  simp only [HandoffServer.step] at h
  split at h <;> cases h
  · simp_all [asked, Writer.queue, Writer.barrier]
  · simp_all [asked]

theorem Kept.step {a : HandoffServer.Action} (h : s.Kept) (hstep : s.step a = some s') :
    s'.Kept := by
  obtain ⟨t, ht, rfl⟩ := Option.map_eq_some_iff.mp hstep
  intro hne
  cases a with
  | freeze checkpoint =>
    obtain ⟨hasked, rfl⟩ := of_guarded ht
    rw [mem_append, not_or, mem_singleton] at hne
    simp [h hne.1, asked, hasked, Ne.symm hne.2]
  | handled flushed => simp [h hne, (asked_of_handled ht).1]
  | write a =>
    obtain ⟨w, -, rfl⟩ := Option.map_eq_some_iff.mp ht
    exact h hne
  | queue | resume =>
    cases ht
    exact h hne

/-- **A barrier for every freeze request.** A control frame is received as it was sent, however its
bytes are cut; and in a run where no freeze request has an empty checkpoint, the server queues, at
the end of the round, one barrier for each that it has accepted, with its checkpoint. -/
theorem barrier_per_freeze {S : Session} (hS : S.Delivers) (command : UInt8)
    (checkpoint : List UInt8) (segments : List (List UInt8)) (as : List HandoffServer.Action)
    (s : Freezer) :
    (checkpoint.length ≤ 511 → segments.flatten = controlFrame command checkpoint →
      S.receiveControl segments = some (command, checkpoint)) ∧
    (exec step initial as = some s → [] ∉ s.freezes →
      s.freezes = s.barriers ++ s.server.asked ∧
      ∀ flushed s', s.step (.handled flushed) = some s' → s'.barriers = s'.freezes ∧
        s'.server.writer.queued = s.server.writer.queued ++
          s.server.asked.flatMap fun checkpoint => flushed ++ controlFrame 66 checkpoint) := by
  refine ⟨fun hlength hbytes => hS.receiveControl command hlength hbytes,
    fun hrun hne => ?_⟩
  have hkept : s.Kept := exec_invariant (fun _ _ _ => Kept.step) (fun _ => rfl) hrun
  refine ⟨hkept hne, fun flushed s' hstep => ?_⟩
  obtain ⟨t, ht, rfl⟩ := Option.map_eq_some_iff.mp hstep
  exact ⟨(hkept hne).symm, (asked_of_handled ht).2⟩

theorem barrier_per_freeze_of_one :
    Session.bytewise.receiveControl [[0, 0], [2, 0xf0, 0, 0, 0, 0, 0, 83], [], [7]] =
      some (83, [7]) ∧
    ∃ s, exec step initial [.freeze [7], .handled []] = some s ∧ s.freezes = [[7]] ∧
      s.freezes = s.barriers ++ s.server.asked :=
  ⟨(barrier_per_freeze Session.bytewise_delivers 83 [7] _ [] initial).1 (by decide) rfl, _, rfl,
    rfl,
    ((barrier_per_freeze Session.bytewise_delivers 83 [7] [] [.freeze [7], .handled []] _).2 rfl
      (by decide)).1⟩

/-- A freeze request without a checkpoint is accepted and forgotten. -/
theorem freeze_without_barrier :
    Session.bytewise.receiveControl [controlFrame 83 []] = some (83, []) ∧
    ∃ s, exec step initial [.freeze [], .handled []] = some s ∧ s.freezes = [[]] ∧
      s.barriers = [] ∧ s.server.asked = [] ∧ s.server.writer.queued = [] :=
  ⟨rfl, _, rfl, rfl, rfl, rfl, rfl⟩

end Freezer

end Lupine.Http2
