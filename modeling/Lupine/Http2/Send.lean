import Lupine.Foundations.Execution
import Lupine.Foundations.Streaming

/-!
# Sending on a stream

How the body of a stream is compressed and framed (`h2.cpp`). Writers append compressed bytes to
`encoded` behind `encoded_size`; `nghttp2` frames them from `encoded_offset` on, as the window
allows, at any later time. `h2_reserve_encoded` reclaims the framed bytes in front. A section under
`session_mutex` is one action: a writer gives the mutex up between two blocks, so that it may go on
after another thread has ended the stream.

`backlog_is_output` is the result: the bounds of the buffer, that what was framed and the backlog
are the output of the compressor, and that END_STREAM goes out once, with the last byte of the
backlog of an encoder that has finished.
-/

namespace Lupine.Http2

open Foundations List Option

/-! ## A stream -/

/-- A `DATA` frame. -/
structure DataFrame where
  bytes : List UInt8
  endStream : Bool
  deriving DecidableEq

/-- What `nghttp2` knows of the DATA item of a stream. -/
inductive Item
  | absent
  | active
  | deferred
  /-- The read callback has set the EOF flag: it is not called again. -/
  | done
  deriving DecidableEq

/-- The writers' part of `h2_stream`. -/
structure Outbound (σ : Type) where
  encoded : List UInt8
  encodedSize : ℕ
  encodedOffset : ℕ
  encoder : Option σ
  encoderFinished : Bool
  closed : Bool
  providerSubmitted : Bool
  providerDeferred : Bool
  flushQueued : Bool
  item : Item
  /-- The threads in `h2_write_stream_locked` that have passed its checks. -/
  writers : ℕ
  /-- What the compressor has taken. -/
  accepted : List UInt8
  frames : List DataFrame

namespace Outbound

variable {σ : Type}
variable {s s' : Outbound σ}

def start : Outbound σ where
  encoded := []
  encodedSize := 0
  encodedOffset := 0
  encoder := none
  encoderFinished := false
  closed := false
  providerSubmitted := false
  providerDeferred := false
  flushQueued := false
  item := .absent
  writers := 0
  accepted := []
  frames := []

/-- The bytes `[encoded_offset, encoded_size)`. -/
def backlog (s : Outbound σ) : List UInt8 := (s.encoded.take s.encodedSize).drop s.encodedOffset

/-! ## Encoding -/

/-- Reclaim the framed bytes in front of the backlog, if they are needed and are not less. -/
def compact (s : Outbound σ) (capacity : ℕ) : Outbound σ :=
  let pending := s.encodedSize - s.encodedOffset
  if s.encoded.length < s.encodedSize + capacity && s.encodedOffset ≠ 0 &&
      s.encodedOffset ≥ pending then
    { s with
      encoded := s.backlog ++ s.encoded.drop pending
      encodedSize := pending
      encodedOffset := 0 }
  else s

def resize (s : Outbound σ) (required : ℕ) : Outbound σ :=
  if s.encoded.length < required then
    { s with encoded := s.encoded ++ List.replicate (required - s.encoded.length) 0 }
  else s

/-- `h2_reserve_encoded`. -/
def reserveEncoded (s : Outbound σ) (capacity : ℕ) : Outbound σ :=
  (s.compact capacity).resize ((s.compact capacity).encodedSize + capacity)

/-- One call of the compressor: its output goes behind `encoded_size`. -/
def compress (codec : Encoder σ) (capacity : ℕ) (s : Outbound σ) (e : σ) (input : List UInt8)
    (directive : Directive) : Option (Outbound σ × Encoded σ) :=
  let s := s.reserveEncoded capacity
  (codec.compress e input capacity directive).map fun r =>
    ({ s with
      encoded := s.encoded.take s.encodedSize ++ r.output ++
        s.encoded.drop (s.encodedSize + r.output.length)
      encodedSize := s.encodedSize + r.output.length
      encoder := some r.state
      accepted := s.accepted ++ input.take r.used }, r)

/-- `h2_encode_locked`, and whether it succeeds. There is no result if it takes more than `fuel`
rounds. -/
def encode (codec : Encoder σ) (capacity : ℕ) :
    ℕ → Outbound σ → σ → List UInt8 → Option (Outbound σ × Bool)
  | 0, _, _, _ => none
  | fuel + 1, s, e, input =>
    match s.compress codec capacity e input .proceed with
    | none => some (s.reserveEncoded capacity, false)
    | some (s, r) =>
      if r.used < input.length then encode codec capacity fuel s r.state (input.drop r.used)
      else some (s, true)

/-- `h2_encode_terminal_locked`. -/
def encodeTerminal (codec : Encoder σ) (capacity : ℕ) (finish : Bool) :
    ℕ → Outbound σ → σ → Option (Outbound σ × Bool)
  | 0, _, _ => none
  | fuel + 1, s, e =>
    match s.compress codec capacity e [] (if finish then .finish else .flush) with
    | none => some (s.reserveEncoded capacity, false)
    | some (s, r) =>
      if r.remaining ≠ 0 then encodeTerminal codec capacity finish fuel s r.state
      else some (if finish then { s with encoderFinished := true } else s, true)

/-! ## Framing -/

/-- `h2_pump_stream_locked`, up to the frames. `accepts` says whether `nghttp2` takes the request;
it does not take a second DATA item while there is one. -/
def pump (s : Outbound σ) (accepts : Bool) : Outbound σ :=
  if s.encodedOffset = s.encodedSize then s
  else if !accepts then s
  else if !s.providerSubmitted then { s with item := .active, providerSubmitted := true }
  else if s.providerDeferred then
    { s with
      item := if s.item = .deferred then .active else s.item
      providerDeferred := false }
  else s

/-- `h2_send_data_callback`. With the EOF flag, the frame ends the stream and the item is done. -/
def sendData (s : Outbound σ) (length : ℕ) (eof : Bool) : Outbound σ :=
  let empty := s.encodedOffset + length = s.encodedSize
  { s with
    frames := s.frames ++ [⟨(s.encoded.drop s.encodedOffset).take length, eof⟩]
    item := if eof then .done else s.item
    encodedSize := if empty then 0 else s.encodedSize
    encodedOffset := if empty then 0 else s.encodedOffset + length }

/-- `h2_data_source_read_callback`, and what `nghttp2` does with its answer. -/
def frameOut (s : Outbound σ) (length : ℕ) : Outbound σ :=
  let available := s.encodedSize - s.encodedOffset
  if available = 0 then { s with providerDeferred := true, item := .deferred }
  else
    let produced := min available length
    s.sendData produced (produced = available && s.encoderFinished)

/-! ## Steps -/

/-- A step of a thread that writes, or of `nghttp2`. -/
inductive Action
  /-- `h2_write_stream_locked` passes its checks. -/
  | enter
  /-- It compresses a block and hands it to `nghttp2`. -/
  | block (input : List UInt8) (fuel : ℕ) (accepts : Bool)
  /-- It returns, and leaves the tail to the write thread. -/
  | leave
  /-- It returns -1. -/
  | giveUp
  /-- `h2_flush_pending_locked`. -/
  | flush (fuel : ℕ) (accepts : Bool)
  /-- `h2_end_stream_locked`. -/
  | endStream (fuel : ℕ) (accepts : Bool)
  /-- `nghttp2` sends. -/
  | frame (length : ℕ)
  /-- `h2_on_stream_close_callback`. -/
  | close

/-- A function that refuses or fails in part changes nothing more. -/
def andPump (accepts : Bool) (result : Outbound σ × Bool) : Outbound σ :=
  if result.2 then result.1.pump accepts else result.1

def step (codec : Encoder σ) (capacity : ℕ) (s : Outbound σ) : Action → Option (Outbound σ)
  | .enter =>
    if s.closed || s.encoderFinished then none
    else some { s with
      encoder := some (s.encoder.getD codec.start)
      writers := s.writers + 1 }
  | .block input fuel accepts =>
    if s.writers = 0 || s.closed then none
    else s.encoder.bind fun e => (encode codec capacity fuel s e input).map fun result =>
      if result.1.encodedSize - result.1.encodedOffset ≠ s.encodedSize - s.encodedOffset then
        andPump accepts result
      else result.1
  | .leave =>
    if s.writers = 0 then none
    else some { s with writers := s.writers - 1, flushQueued := true }
  | .giveUp => if s.writers = 0 then none else some { s with writers := s.writers - 1 }
  | .flush fuel accepts =>
    if !s.flushQueued then none
    else
      let s := { s with flushQueued := false }
      if s.closed || s.encoderFinished then some s
      else s.encoder.bind fun e =>
        (encodeTerminal codec capacity false fuel s e).map (andPump accepts)
  | .endStream fuel accepts =>
    if s.closed || s.encoderFinished then some s
    else
      let e := s.encoder.getD codec.start
      (encodeTerminal codec capacity true fuel { s with encoder := some e } e).map (andPump accepts)
  | .frame length => if s.closed || s.item ≠ .active then none else some (s.frameOut length)
  | .close => some { s with encoder := none, encoded := [], closed := true }

/-! ## The buffer -/

/-- `0 ≤ encoded_offset ≤ encoded_size ≤ encoded.size()`. -/
structure Bounded (s : Outbound σ) : Prop where
  offset_le : s.encodedOffset ≤ s.encodedSize
  size_le : s.encodedSize ≤ s.encoded.length

theorem Bounded.length_backlog (h : s.Bounded) :
    s.backlog.length = s.encodedSize - s.encodedOffset := by
  have := h.size_le
  simp only [backlog, length_drop, length_take]
  omega

/-- Everything but the buffer and the compressor. -/
structure SameFrames (s s' : Outbound σ) : Prop where
  frames : s'.frames = s.frames
  item : s'.item = s.item
  submitted : s'.providerSubmitted = s.providerSubmitted
  closed : s'.closed = s.closed

theorem SameFrames.trans {s'' : Outbound σ} (h : SameFrames s s') (h' : SameFrames s' s'') :
    SameFrames s s'' :=
  ⟨h'.frames.trans h.frames, h'.item.trans h.item, h'.submitted.trans h.submitted,
    h'.closed.trans h.closed⟩

/-- The stream is the same up to unused room in its buffer. -/
structure SameContent (s s' : Outbound σ) : Prop where
  bounded : s'.Bounded
  backlog : s'.backlog = s.backlog
  frames : SameFrames s s'
  accepted : s'.accepted = s.accepted
  encoder : s'.encoder = s.encoder
  finished : s'.encoderFinished = s.encoderFinished

theorem compact_same (h : s.Bounded) (capacity : ℕ) : SameContent s (s.compact capacity) := by
  have hlength := h.length_backlog
  unfold compact
  dsimp only
  split
  · refine ⟨⟨Nat.zero_le _, ?_⟩, ?_, ⟨rfl, rfl, rfl, rfl⟩, rfl, rfl, rfl⟩
    · simp only [length_append, hlength]
      omega
    · rw [backlog]
      rw [drop_zero, take_append_of_le_length hlength.ge, ← hlength, take_length]
  · exact ⟨h, rfl, ⟨rfl, rfl, rfl, rfl⟩, rfl, rfl, rfl⟩

theorem resize_same (h : s.Bounded) (required : ℕ) :
    SameContent s (s.resize required) ∧ (s.resize required).encodedSize = s.encodedSize ∧
      required ≤ (s.resize required).encoded.length := by
  unfold resize
  split
  · refine ⟨⟨⟨h.offset_le, ?_⟩, ?_, ⟨rfl, rfl, rfl, rfl⟩, rfl, rfl, rfl⟩, rfl, ?_⟩
    · have := h.size_le
      simp only [length_append]
      omega
    · rw [backlog]
      rw [take_append_of_le_length h.size_le]
      rfl
    · simp only [length_append, length_replicate]
      omega
  · exact ⟨⟨h, rfl, ⟨rfl, rfl, rfl, rfl⟩, rfl, rfl, rfl⟩, rfl, by omega⟩

/-- There is room behind the backlog. -/
theorem reserveEncoded_same (h : s.Bounded) (capacity : ℕ) :
    SameContent s (s.reserveEncoded capacity) ∧
      (s.reserveEncoded capacity).encodedSize + capacity ≤
        (s.reserveEncoded capacity).encoded.length := by
  have hcompact := compact_same h capacity
  obtain ⟨hresize, hsize, hroom⟩ :=
    resize_same hcompact.bounded ((s.compact capacity).encodedSize + capacity)
  refine ⟨⟨hresize.bounded, hresize.backlog.trans hcompact.backlog,
    hcompact.frames.trans hresize.frames, hresize.accepted.trans hcompact.accepted,
    hresize.encoder.trans hcompact.encoder, hresize.finished.trans hcompact.finished⟩, ?_⟩
  rw [reserveEncoded, hsize]
  exact hroom

/-! ## The compressor -/

section Compressor

variable {codec : Encoder σ} {capacity : ℕ}

/-- What was framed. -/
def framed (s : Outbound σ) : List UInt8 := s.frames.flatMap DataFrame.bytes

/-- What was framed and the backlog are the output of the compressor for what it has taken. -/
structure Carries (codec : Encoder σ) (s : Outbound σ) : Prop where
  bounded : s.Bounded
  output : codec.Reached (s.encoder.getD codec.start) s.accepted (s.framed ++ s.backlog)

theorem Carries.same (h : s.Carries codec) (hsame : SameContent s s') : s'.Carries codec := by
  refine ⟨hsame.bounded, ?_⟩
  rw [hsame.encoder, hsame.accepted, hsame.backlog, framed, hsame.frames.frames]
  exact h.output

/-- The encoder is as finished as before, or it was told to finish and nothing is left in it. -/
def Finishing (codec : Encoder σ) (capacity : ℕ) (s s' : Outbound σ) : Prop :=
  s'.encoderFinished = s.encoderFinished ∨ ∃ e r, codec.compress e [] capacity .finish = some r ∧
    r.remaining = 0 ∧ s'.encoder = some r.state

section

variable {e : σ} (h : s.Carries codec) (he : s.encoder = some e)
include h he

/-- **One call of the compressor.** It takes a part of the input. -/
theorem Carries.compress {input : List UInt8} {directive : Directive} {r : Encoded σ}
    (hcompress : s.compress codec capacity e input directive = some (s', r)) :
    s'.Carries codec ∧ SameFrames s s' ∧ s'.encoder = some r.state ∧
      s'.encoderFinished = s.encoderFinished ∧ s'.accepted = s.accepted ++ input.take r.used ∧
      codec.compress e input capacity directive = some r := by
  obtain ⟨hsame, hroom⟩ := reserveEncoded_same h.bounded capacity
  have hcarries := h.same hsame
  set t := s.reserveEncoded capacity
  obtain ⟨r', hr, heq⟩ := map_eq_some_iff.mp hcompress
  obtain ⟨rfl, rfl⟩ := Prod.mk.inj heq
  have htake : (t.encoded.take t.encodedSize).length = t.encodedSize :=
    length_take_of_le hcarries.bounded.size_le
  have hoffset := hcarries.bounded.offset_le
  refine ⟨⟨⟨?_, ?_⟩, ?_⟩, { hsame.frames with }, rfl, hsame.finished,
    congrArg (· ++ _) hsame.accepted, hr⟩
  · exact Nat.le_add_right_of_le hoffset
  · change t.encodedSize + r'.output.length ≤ (t.encoded.take t.encodedSize ++ r'.output ++
      t.encoded.drop (t.encodedSize + r'.output.length)).length
    simp only [length_append, length_drop, htake]
    omega
  · have hbacklog : ((t.encoded.take t.encodedSize ++ r'.output ++
        t.encoded.drop (t.encodedSize + r'.output.length)).take
          (t.encodedSize + r'.output.length)).drop t.encodedOffset = t.backlog ++ r'.output := by
      have hwhole : (t.encoded.take t.encodedSize ++ r'.output).length =
          t.encodedSize + r'.output.length := by
        rw [length_append, htake]
      rw [← hwhole, take_left, drop_append_of_le_length (by omega)]
      rfl
    have hreached := hcarries.output
    rw [hsame.encoder, he, getD_some] at hreached
    rw [backlog, hbacklog, ← append_assoc]
    exact .step hreached hr

/-- What is encoded with success is taken as a whole. -/
theorem Carries.encode {fuel : ℕ} {input : List UInt8} {ok : Bool}
    (hencode : Outbound.encode codec capacity fuel s e input = some (s', ok)) :
    s'.Carries codec ∧ SameFrames s s' ∧ s'.encoderFinished = s.encoderFinished ∧
      (ok = true → s'.accepted = s.accepted ++ input) := by
  induction fuel generalizing s e input with
  | zero => cases hencode
  | succ fuel ih =>
    rw [Outbound.encode] at hencode
    split at hencode
    · cases hencode
      obtain ⟨hsame, -⟩ := reserveEncoded_same h.bounded capacity
      exact ⟨h.same hsame, hsame.frames, hsame.finished, fun hok => (nomatch hok)⟩
    · rename_i s₁ r hcompress
      obtain ⟨hcarries, hframes, hencoder, hfinished, haccepted, -⟩ := h.compress he hcompress
      split at hencode
      · obtain ⟨hcarries', hframes', hfinished', haccepted'⟩ := ih hcarries hencoder hencode
        refine ⟨hcarries', hframes.trans hframes', hfinished'.trans hfinished, fun hok => ?_⟩
        rw [haccepted' hok, haccepted, append_assoc, take_append_drop]
      · rename_i hall
        cases hencode
        rw [take_of_length_le (Nat.le_of_not_lt hall)] at haccepted
        exact ⟨hcarries, hframes, hfinished, fun _ => haccepted⟩

theorem Carries.encodeTerminal {fuel : ℕ} {finish : Bool} {ok : Bool}
    (hencode : Outbound.encodeTerminal codec capacity finish fuel s e = some (s', ok)) :
    s'.Carries codec ∧ SameFrames s s' ∧ Finishing codec capacity s s' := by
  induction fuel generalizing s e with
  | zero => cases hencode
  | succ fuel ih =>
    rw [Outbound.encodeTerminal] at hencode
    split at hencode
    · cases hencode
      obtain ⟨hsame, -⟩ := reserveEncoded_same h.bounded capacity
      exact ⟨h.same hsame, hsame.frames, .inl hsame.finished⟩
    · rename_i s₁ r hcompress
      obtain ⟨hcarries, hframes, hencoder, hfinished, -, hr⟩ := h.compress he hcompress
      split at hencode
      · obtain ⟨hcarries', hframes', hfinishing⟩ := ih hcarries hencoder hencode
        exact ⟨hcarries', hframes.trans hframes', hfinishing.imp_left (·.trans hfinished)⟩
      · rename_i hdone
        cases hencode
        cases finish with
        | false => exact ⟨hcarries, hframes, .inl hfinished⟩
        | true =>
          exact ⟨⟨⟨hcarries.bounded.offset_le, hcarries.bounded.size_le⟩, hcarries.output⟩,
            { hframes with }, .inr ⟨e, r, hr, not_not.mp hdone, hencoder⟩⟩

end

/-! ## Frames -/

/-- What holds of a stream in every run. -/
structure Sound (codec : Encoder σ) (s : Outbound σ) : Prop where
  carries : s.closed = false → s.Carries codec
  absent : s.providerSubmitted = false → s.item = .absent
  ended : (s.frames.filter DataFrame.endStream).length = if s.item = .done then 1 else 0
  last : ∀ before frame after, s.frames = before ++ frame :: after → frame.endStream = true →
    after = [] ∧ s.item = .done

theorem sound_start : Sound codec start where
  carries := fun _ => ⟨⟨le_rfl, le_rfl⟩, .start⟩
  absent := fun _ => rfl
  ended := rfl
  last := by
    intro before frame after h
    simp [start] at h

theorem Sound.sameFrames (h : Sound codec s) (hsame : SameFrames s s')
    (hcarries : s'.closed = false → s'.Carries codec) : Sound codec s' where
  carries := hcarries
  absent := by
    rw [hsame.submitted, hsame.item]
    exact h.absent
  ended := by
    rw [hsame.frames, hsame.item]
    exact h.ended
  last := by
    rw [hsame.frames, hsame.item]
    exact h.last

/-- A started encoder, a queued flush and the number of writers change no byte. -/
theorem Sound.flags {t : Outbound σ} (h : Sound codec s) (ht : t = { s with
      encoder := t.encoder
      flushQueued := t.flushQueued
      writers := t.writers })
    (hencoder : t.encoder.getD codec.start = s.encoder.getD codec.start) : Sound codec t := by
  rw [ht]
  refine h.sameFrames ⟨rfl, rfl, rfl, rfl⟩ fun hclosed => ?_
  obtain ⟨hbounded, houtput⟩ := h.carries hclosed
  refine ⟨⟨hbounded.offset_le, hbounded.size_le⟩, ?_⟩
  rw [← hencoder] at houtput
  exact houtput

theorem Sound.pump (h : Sound codec s) (accepts : Bool) : Sound codec (s.pump accepts) := by
  have hcarries : ∀ t : Outbound σ, t = { s with
      item := t.item
      providerSubmitted := t.providerSubmitted
      providerDeferred := t.providerDeferred } → t.closed = false → t.Carries codec := by
    intro t ht hclosed
    rw [ht] at hclosed ⊢
    have := h.carries hclosed
    exact ⟨⟨this.bounded.offset_le, this.bounded.size_le⟩, this.output⟩
  unfold Outbound.pump
  split
  · exact h
  split
  · exact h
  split
  · rename_i hnew
    have habsent := h.absent (by simpa using hnew)
    have hended := h.ended
    rw [habsent] at hended
    refine ⟨hcarries _ rfl, fun h => (nomatch h), hended, ?_⟩
    intro before frame after hsplit hend
    exact absurd (h.last before frame after hsplit hend).2 (by simp [habsent])
  split
  · have hdone : (if s.item = .deferred then Item.active else s.item) = .done ↔ s.item = .done := by
      cases s.item <;> decide
    refine ⟨hcarries _ rfl, ?_, ?_, ?_⟩
    · intro hsubmitted
      rw [h.absent hsubmitted]
      rfl
    · simp only [hdone]
      exact h.ended
    · intro before frame after hsplit hend
      rw [hdone]
      exact h.last before frame after hsplit hend
  · exact h

/-- A frame comes off the front of the backlog. -/
theorem backlog_sendData {length : ℕ} (hle : length ≤ s.encodedSize - s.encodedOffset)
    (eof : Bool) :
    s.backlog = (s.encoded.drop s.encodedOffset).take length ++
      (s.sendData length eof).backlog := by
  have hfront : (s.encoded.drop s.encodedOffset).take length = s.backlog.take length := by
    rw [backlog, drop_take, take_take, Nat.min_eq_left hle]
  have hrest : (s.sendData length eof).backlog = s.backlog.drop length := by
    simp only [backlog, sendData, drop_drop]
    split
    · rename_i hempty
      rw [hempty, take_zero, drop_nil, drop_of_length_le (length_take_le ..)]
    · rfl
  rw [hfront, hrest, take_append_drop]

theorem Carries.sendData (h : s.Carries codec) {length : ℕ}
    (hle : length ≤ s.encodedSize - s.encodedOffset) (eof : Bool) :
    (s.sendData length eof).Carries codec := by
  have hoffset := h.bounded.offset_le
  have hsize := h.bounded.size_le
  refine ⟨⟨?_, ?_⟩, ?_⟩
  · simp only [Outbound.sendData]
    split
    · exact le_rfl
    · omega
  · simp only [Outbound.sendData]
    split
    · exact Nat.zero_le _
    · exact hsize
  · have houtput := h.output
    rw [backlog_sendData hle eof, ← append_assoc] at houtput
    have hframed : (s.sendData length eof).framed =
        s.framed ++ (s.encoded.drop s.encodedOffset).take length := by
      simp [framed, Outbound.sendData]
    rw [hframed]
    exact houtput

/-- What `nghttp2` frames comes off the front of the backlog; the last of it, of a finished encoder,
ends the stream. -/
theorem Sound.frameOut (h : Sound codec s) (hactive : s.item = .active) (hclosed : s.closed = false)
    (length : ℕ) : Sound codec (s.frameOut length) := by
  obtain ⟨hbounded, houtput⟩ := h.carries hclosed
  have hoffset := hbounded.offset_le
  have hsize := hbounded.size_le
  have hsubmitted : s.providerSubmitted = true := by
    by_contra hnot
    have := h.absent (by simpa using hnot)
    rw [hactive] at this
    cases this
  have hnoEnd : ∀ before frame after, s.frames = before ++ frame :: after →
      frame.endStream = true → False := by
    intro before frame after hsplit hend
    have := (h.last before frame after hsplit hend).2
    rw [hactive] at this
    cases this
  have hended := h.ended
  rw [hactive, if_neg (by decide)] at hended
  unfold Outbound.frameOut
  dsimp only
  split
  · refine ⟨fun _ => ⟨⟨hoffset, hsize⟩, houtput⟩,
      fun hs => absurd (hsubmitted.symm.trans hs) (by decide), ?_,
      fun before frame after hsplit hend => (hnoEnd before frame after hsplit hend).elim⟩
    simpa using hended
  · generalize hproduced : min (s.encodedSize - s.encodedOffset) length = produced
    have hle : produced ≤ s.encodedSize - s.encodedOffset := by omega
    generalize (decide (produced = s.encodedSize - s.encodedOffset) && s.encoderFinished) = eof
    refine ⟨fun _ => Carries.sendData ⟨hbounded, houtput⟩ hle eof,
      fun hs => absurd (hsubmitted.symm.trans hs) (by decide), ?_, ?_⟩
    · simp only [Outbound.sendData, filter_append, length_append, hended, hactive]
      cases eof <;> rfl
    · intro before frame after hsplit hend
      rcases concat_eq_append_cons hsplit with ⟨rfl, -, hframe⟩ | ⟨after', -, hearlier⟩
      · refine ⟨rfl, ?_⟩
        rw [← hframe] at hend
        have heof : eof = true := hend
        simp only [Outbound.sendData, heof, if_true]
      · exact (hnoEnd before frame after' hearlier hend).elim

theorem pump_same (s : Outbound σ) (accepts : Bool) : (s.pump accepts).frames = s.frames ∧
    (s.pump accepts).encoderFinished = s.encoderFinished ∧
    (s.pump accepts).encoder = s.encoder := by
  unfold Outbound.pump
  split_ifs <;> exact ⟨rfl, rfl, rfl⟩

theorem Sound.andPump {result : Outbound σ × Bool} (h : Sound codec result.1)
    (hframes : result.1.frames = s.frames) (hfinishing : Finishing codec capacity s result.1)
    (accepts : Bool) : Sound codec (andPump accepts result) ∧
      (Outbound.andPump accepts result).frames = s.frames ∧
      Finishing codec capacity s (Outbound.andPump accepts result) := by
  unfold Outbound.andPump
  split
  · obtain ⟨hsame, hfinished, hencoder⟩ := pump_same result.1 accepts
    rw [Finishing, hsame, hfinished, hencoder]
    exact ⟨h.pump accepts, hframes, hfinishing⟩
  · exact ⟨h, hframes, hfinishing⟩

/-- A flush, or the end of the stream. -/
theorem Sound.terminal (h : Sound codec s) (hclosed : s.closed = false) {e : σ}
    (he : s.encoder = some e) {finish accepts : Bool} {fuel : ℕ}
    (hs : (Outbound.encodeTerminal codec capacity finish fuel s e).map (Outbound.andPump accepts) =
      some s') : Sound codec s' ∧ s'.frames = s.frames ∧ Finishing codec capacity s s' := by
  obtain ⟨⟨s₁, ok⟩, hencode, rfl⟩ := map_eq_some_iff.mp hs
  obtain ⟨hcarries, hframes, hfinishing⟩ := (h.carries hclosed).encodeTerminal he hencode
  exact (h.sameFrames hframes fun _ => hcarries).andPump hframes.frames hfinishing accepts

/-- Every action keeps the invariant, and only `nghttp2` makes frames. -/
theorem Sound.step {a : Action} (h : Sound codec s) (hstep : s.step codec capacity a = some s') :
    Sound codec s' ∧ (s'.frames = s.frames ∨
      ∃ length, s.closed = false ∧ s.item = .active ∧ s' = s.frameOut length) ∧
      Finishing codec capacity s s' := by
  cases a with
  | enter | leave | giveUp =>
    obtain ⟨-, hs⟩ := ite_none_left_eq_some.mp hstep
    cases hs
    exact ⟨h.flags rfl rfl, .inl rfl, .inl rfl⟩
  | block input fuel accepts =>
    obtain ⟨hopen, hs⟩ := ite_none_left_eq_some.mp hstep
    simp only [Bool.or_eq_true, not_or, Bool.not_eq_true] at hopen
    obtain ⟨e, he, hs⟩ := bind_eq_some_iff.mp hs
    obtain ⟨⟨s₁, ok⟩, hencode, rfl⟩ := map_eq_some_iff.mp hs
    obtain ⟨hcarries, hframes, hfinished, -⟩ := (h.carries hopen.2).encode he hencode
    have hsound := h.sameFrames hframes fun _ => hcarries
    split
    · exact (hsound.andPump hframes.frames (.inl hfinished) accepts).imp_right (.imp_left .inl)
    · exact ⟨hsound, .inl hframes.frames, .inl hfinished⟩
  | flush fuel accepts =>
    obtain ⟨-, hs⟩ := ite_none_left_eq_some.mp hstep
    have hsound : Sound codec { s with flushQueued := false } := h.flags rfl rfl
    split at hs
    · cases hs
      exact ⟨hsound, .inl rfl, .inl rfl⟩
    · rename_i hopen
      simp only [Bool.or_eq_true, not_or, Bool.not_eq_true] at hopen
      obtain ⟨e, he, hs⟩ := bind_eq_some_iff.mp hs
      exact (hsound.terminal hopen.1 he hs).imp_right (.imp_left .inl)
  | endStream fuel accepts =>
    rw [Outbound.step] at hstep
    split at hstep
    · cases hstep
      exact ⟨h, .inl rfl, .inl rfl⟩
    · rename_i hopen
      simp only [Bool.or_eq_true, not_or, Bool.not_eq_true] at hopen
      have hsound : Sound codec { s with encoder := some (s.encoder.getD codec.start) } :=
        h.flags rfl rfl
      exact (hsound.terminal hopen.1 rfl hstep).imp_right (.imp_left .inl)
  | frame length =>
    obtain ⟨hopen, hs⟩ := ite_none_left_eq_some.mp hstep
    cases hs
    simp only [Bool.or_eq_true, decide_eq_true_eq, not_or, Bool.not_eq_true, not_not] at hopen
    refine ⟨h.frameOut hopen.2 hopen.1 length, .inr ⟨length, hopen.1, hopen.2, rfl⟩, .inl ?_⟩
    unfold Outbound.frameOut
    dsimp only
    split <;> rfl
  | close =>
    cases hstep
    exact ⟨⟨fun hclosed => (nomatch hclosed), h.absent, h.ended, h.last⟩, .inl rfl, .inl rfl⟩

/-- **The backlog is the output of the compressor.** In every run, whatever the writers, the
flushes, the end of the stream and the frames: while the stream is open, the offsets are in order
and within the buffer, and what was framed and the backlog are the output of the compressor for what
it has taken. END_STREAM goes out at most once, in the last frame, and the step that sends it finds
a finished encoder and leaves no backlog. What is encoded with success is taken as a whole, and the
encoder counts as finished only when it was told to finish and nothing is left in it. -/
theorem backlog_is_output {actions : List Action} {s : Outbound σ}
    (hrun : exec (Outbound.step codec capacity) start actions = some s) :
    (s.closed = false → s.encodedOffset ≤ s.encodedSize ∧ s.encodedSize ≤ s.encoded.length ∧
        codec.Reached (s.encoder.getD codec.start) s.accepted (s.framed ++ s.backlog)) ∧
      (s.frames.filter DataFrame.endStream).length ≤ 1 ∧
      (∀ before frame after, s.frames = before ++ frame :: after → frame.endStream = true →
        after = []) ∧
      (∀ a s' frame, s.step codec capacity a = some s' → s'.frames = s.frames ++ [frame] →
        frame.endStream = true → s.encoderFinished = true ∧ s'.backlog = []) ∧
      (∀ e fuel input s', s.closed = false → s.encoder = some e →
        Outbound.encode codec capacity fuel s e input = some (s', true) →
          s'.accepted = s.accepted ++ input) ∧
      ∀ a s', s.step codec capacity a = some s' → s.encoderFinished = false →
        s'.encoderFinished = true → ∃ e r, codec.compress e [] capacity .finish = some r ∧
          r.remaining = 0 ∧ s'.encoder = some r.state := by
  have hsound : Sound codec s :=
    exec_invariant (fun _ _ _ h hstep => (Sound.step h hstep).1) sound_start hrun
  refine ⟨fun hclosed => ?_, ?_, fun before frame after hsplit hend =>
    (hsound.last before frame after hsplit hend).1, ?_, fun e fuel input s' hclosed he hencode =>
      ((hsound.carries hclosed).encode he hencode).2.2.2 rfl,
    fun a s' hstep hbefore hafter => ?_⟩
  · obtain ⟨hbounded, houtput⟩ := hsound.carries hclosed
    exact ⟨hbounded.offset_le, hbounded.size_le, houtput⟩
  · rw [hsound.ended]
    split <;> omega
  · intro a s' frame hstep hframes hend
    rcases (hsound.step hstep).2.1 with hsame | ⟨length, hclosed, -, rfl⟩
    · rw [hsame] at hframes
      simp at hframes
    · have hbounded := (hsound.carries hclosed).bounded
      unfold Outbound.frameOut at hframes ⊢
      dsimp only at hframes ⊢
      split at hframes
      · simp at hframes
      · rename_i hsome
        rw [if_neg hsome]
        have hframe : _ = frame := singleton_inj.mp (append_cancel_left hframes)
        rw [← hframe] at hend
        simp only [Bool.and_eq_true, decide_eq_true_eq] at hend
        obtain ⟨hall, hfinished⟩ := hend
        refine ⟨hfinished, ?_⟩
        have hempty : s.encodedOffset +
            min (s.encodedSize - s.encodedOffset) length = s.encodedSize := by
          omega
        simp only [backlog, Outbound.sendData, hempty, if_true, take_zero, drop_nil]
  · refine (hsound.step hstep).2.2.resolve_left fun hsame => ?_
    rw [hbefore, hafter] at hsame
    cases hsame

end Compressor

/-- A writer is between two blocks when the stream is ended: the rest of the backlog goes out with
END_STREAM, and what the writer compresses afterwards stays. -/
theorem backlog_after_end : ∃ s, exec (Outbound.step Encoder.identity 4) start
      [.enter, .block [1, 2] 1 true, .frame 1, .endStream 1 true, .frame 8, .block [3] 1 true] =
        some s ∧ s.frames = [⟨[1], false⟩, ⟨[2], true⟩] ∧ s.backlog = [3] ∧
      Encoder.identity.Reached () s.accepted (s.framed ++ s.backlog) := by
  refine exists_of_any (p := fun s => s.frames = [⟨[1], false⟩, ⟨[2], true⟩] ∧ s.backlog = [3] ∧
    s.closed = false) (by decide) fun s hrun ⟨hframes, hbacklog, hopen⟩ => ?_
  exact ⟨hframes, hbacklog, ((backlog_is_output hrun).1 hopen).2.2⟩

end Outbound

end Lupine.Http2
