import Lupine.Http2.Receive
import Lupine.Http2.Send

/-!
# A stream from end to end

What the reader of a stream gets is what its writers wrote. On the way the frames are cut into
chunks anywhere; the chunks that have arrived are the first bytes of those framed.
-/

namespace Lupine.Http2

open Foundations List

variable {σ ρ : Type} {encoder : Encoder σ} {decoder : Decoder ρ} 
  {content : List UInt8 → List UInt8}
  {At : ρ → List UInt8 → List UInt8 → Prop} {capacity : ℕ} {s : Outbound σ} {r : Inbound ρ}

/-- **A stream from end to end.** Let the decoder undo the encoder. In every run of the two ends the
bytes that the reads got, those that failed included, are the first ones that the compressor has
taken; and once these are flushed, framed and arrived, all of them were read or are buffered. -/
theorem received_is_sent {sends : List Outbound.Action} {receives : List Inbound.Action}
    (hcodec : decoder.Correct content At)
    (hinverse : ∀ e taken given, encoder.Reached e taken given → content given <+: taken)
    (hsend : exec (Outbound.step encoder capacity) .start sends = some s) (hopen : s.closed = false)
    (hreceive : exec (Inbound.step decoder) .start receives = some r)
    (harrived : r.body <+: s.framed) :
    r.calls.flatMap Call.bytes <+: s.accepted ∧
      (r.body = s.framed → content s.framed = s.accepted → r.closed = false → r.stopped = false →
        r.placed ++ r.buffered = s.accepted) := by
  have hsent : s.Sound encoder :=
    exec_invariant (fun _ _ _ h hstep => (h.step hstep).1) Outbound.sound_start hsend
  have hgot : r.Sound decoder content At :=
    exec_invariant (fun _ _ _ h hstep => h.step hcodec hstep) (Inbound.sound_start hcodec) hreceive
  obtain ⟨taken, given, htaken, hgiven, hplaced, hflows, hall⟩ := hgot.order
  refine ⟨?_, fun hbody hflushed hreading hrunning => ?_⟩
  · obtain ⟨rest, hrest⟩ := htaken.trans (harrived.trans (prefix_append _ s.backlog))
    calc r.calls.flatMap Call.bytes
      _ <+: r.placed := prefix_append ..
      _ <+: given := hplaced
      _ <+: content taken := hgiven
      _ <+: content (s.framed ++ s.backlog) := hrest ▸ hcodec.content_mono taken rest
      _ <+: s.accepted := hinverse _ _ _ (hsent.carries hopen).output
  · rw [(hflows hreading).1, (hall hreading hrunning).2, hbody, hflushed]

/-- Three bytes in two frames: the second one is cut, and a read waits for it. -/
theorem received_is_sent_of_three :
    ∃ (s : Outbound Unit) (r : Inbound Unit), s.accepted = [1, 2, 3] ∧
      r.calls = [⟨2, [1, 2], .complete⟩] ∧ r.calls.flatMap Call.bytes <+: s.accepted := by
  have hinverse : ∀ e taken given, Encoder.identity.Reached e taken given → id given <+: taken := by
    intro e taken given h
    suffices heq : given = taken from heq ▸ prefix_rfl
    induction h with
    | start => rfl
    | step _ hstep ih =>
      cases hstep
      rw [ih]
      rcases le_total (length ‹_›) ‹ℕ› with h | h <;> simp [h]
  exact ⟨_, _, rfl, rfl, (received_is_sent Decoder.identity_correct hinverse
    (rfl : exec (Outbound.step Encoder.identity 4) .start
      [.enter, .block [1, 2, 3] 1 true, .frame 1, .frame 8] = some _) rfl
    (rfl : exec (Inbound.step Decoder.identity) .start
      [.contentEncoding true, .read 2, .chunk [1] 2, .chunk [2] 2, .finish] = some _)
    ⟨[3], rfl⟩).1⟩

end Lupine.Http2
