import Lupine.Foundations.Execution
import Lupine.Foundations.Streaming

/-!
# Receiving on a stream

How the body of a stream reaches its reader (`h2.cpp`). DATA chunks are decoded as they arrive, into
the buffer of a reader that waits (`read_destination`), else into `local_out`.
`rpc_http2_read_stream` first takes what is buffered, and then waits for the rest. A callback and a
section of a read under `session_mutex` is one action.

A callback that fails fails the session: the transport is marked and the read thread ends. Other
threads mark the transport, too, and then the read thread goes on.

* `received_in_order`: what successive reads get, those that fail included, is a prefix of the
  decoded body, and a read that succeeds gets as many bytes as it asked for.
* `gap_after_failed_read`: a read that fails takes bytes along, and one after it may succeed.
-/

namespace Lupine.Http2

open Foundations List

/-! ## A stream -/

variable {data given taken : List UInt8}

/-- `h2_buffer`. -/
structure Buffer where
  data : List UInt8
  offset : ℕ
  offset_le : offset ≤ data.length
  deriving DecidableEq

def Buffer.rest (buffer : Buffer) : List UInt8 := buffer.data.drop buffer.offset

/-- How a read ended: 0, -1 or `LUPINE_RPC_HTTP2_STREAM_END`. -/
inductive Result
  | complete
  | failed
  | streamEnd
  deriving DecidableEq

/-- A call of `rpc_http2_read_stream` that is over, with the bytes that it placed. -/
structure Call where
  size : ℕ
  bytes : List UInt8
  result : Result
  deriving DecidableEq

/-- The reader's part of `h2_stream`, and the flags of the transport. -/
structure Inbound (σ : Type) where
  localOut : List Buffer
  /-- The read that waits, and what it has got: `read_destination`. -/
  waiting : Option (ℕ × List UInt8)
  readRemaining : ℕ
  closed : Bool
  remoteEnd : Bool
  contentEncodingSeen : Bool
  zstdEncoded : Bool
  decoderFinished : Bool
  decoder : Option σ
  responseStatus : ℕ
  transportFailed : Bool
  /-- The read thread has returned. -/
  stopped : Bool
  /-- The chunks that arrived. -/
  body : List UInt8
  calls : List Call

namespace Inbound

variable {σ : Type}
variable {s s' : Inbound σ}
variable {d : σ}

def start : Inbound σ where
  localOut := []
  waiting := none
  readRemaining := 0
  closed := false
  remoteEnd := false
  contentEncodingSeen := false
  zstdEncoded := false
  decoderFinished := false
  decoder := none
  responseStatus := 0
  transportFailed := false
  stopped := false
  body := []
  calls := []

/-! ## Reads -/

/-- Take at most `size` bytes from the buffers. -/
def drain : List Buffer → ℕ → List UInt8 × List Buffer
  | [], _ => ([], [])
  | front :: buffers, size =>
    if size = 0 then ([], front :: buffers)
    else
      let chunk := min (front.data.length - front.offset) size
      let got := front.rest.take chunk
      if front.offset + chunk = front.data.length then
        let more := drain buffers (size - chunk)
        (got ++ more.1, more.2)
      else (got, ⟨front.data, front.offset + chunk,
        by have := front.offset_le; omega⟩ :: buffers)

section

variable (s : Inbound σ)

def respond (size : ℕ) (bytes : List UInt8) (result : Result) : Inbound σ :=
  { s with calls := s.calls ++ [⟨size, bytes, result⟩] }

def refused : Bool := s.responseStatus ≠ 0 && s.responseStatus ≠ 200

/-- `rpc_http2_read_stream`, until it returns or waits. -/
def read (size : ℕ) : Inbound σ :=
  let copied := (drain s.localOut size).1
  let s := { s with localOut := (drain s.localOut size).2 }
  if copied.length = size then s.respond size copied .complete
  else if s.waiting.isSome || s.refused then s.respond size copied .failed
  else if s.transportFailed || s.closed || s.remoteEnd then
    s.respond size copied (if s.remoteEnd then .streamEnd else .failed)
  else { s with
    waiting := some (size, copied)
    readRemaining := size - copied.length }

/-- The rest of `rpc_http2_read_stream`, once its wait is over. -/
def finish : Option (Inbound σ) :=
  match s.waiting with
  | none => none
  | some (size, placed) =>
    if s.readRemaining ≠ 0 && !s.transportFailed && !s.closed && !s.remoteEnd && !s.refused then
      none
    else
      let result := if s.readRemaining = 0 then Result.complete
        else if s.remoteEnd then .streamEnd else .failed
      some ({ s with waiting := none, readRemaining := 0 }.respond size placed result)

/-! ## Callbacks -/

/-- Bytes that go to the reader that waits. -/
def place (bytes : List UInt8) : Inbound σ :=
  { s with
    waiting := s.waiting.map fun read => (read.1, read.2 ++ bytes)
    readRemaining := s.readRemaining - bytes.length }

/-- `receive_bytes`. -/
def receiveBytes (data : List UInt8) : Inbound σ :=
  let direct := min data.length s.readRemaining
  let s := s.place (data.take direct)
  let rest := data.drop direct
  if rest = [] then s
  else { s with localOut := s.localOut ++ [⟨rest, 0, Nat.zero_le _⟩] }

/-- `kH2DecodeBufferBytes`. -/
def decodeBufferBytes : ℕ := 64 * 1024

/-- Where decoded bytes go: to the reader if it waits for some, else through a local buffer. -/
def deliver (output : List UInt8) : Inbound σ :=
  if s.readRemaining > 0 then s.place output else s.receiveBytes output

def room : ℕ := if s.readRemaining > 0 then s.readRemaining else decodeBufferBytes

end

/-- The loop of `h2_on_data_chunk_recv_callback`, and whether the callback succeeds. There is no
result if it takes more than `fuel` rounds. -/
def decodeLoop (codec : Decoder σ) : ℕ → Inbound σ → σ → List UInt8 → Option (Inbound σ × Bool)
  | 0, _, _, _ => none
  | fuel + 1, s, decoder, data =>
    match codec.decompress decoder data s.room with
    | none => some (s, false)
    | some r =>
      let next := { s.deliver r.output with decoder := some r.state }
      let rest := data.drop r.used
      if r.hint = 0 then
        if rest ≠ [] then some (next, false) else some ({ next with decoderFinished := true }, true)
      else if r.used = 0 && r.output = [] then some (next, rest = [])
      else if rest = [] && r.output.length < s.room then some (next, true)
      else decodeLoop codec fuel next r.state rest

/-- `h2_read_main` after a callback: if it failed, the transport fails and the thread ends. -/
def afterCallback (result : Inbound σ × Bool) : Inbound σ :=
  if result.2 then result.1 else { result.1 with transportFailed := true, stopped := true }

/-- `h2_on_data_chunk_recv_callback`. -/
def onDataChunk (codec : Decoder σ) (fuel : ℕ) (s : Inbound σ) (data : List UInt8) :
    Option (Inbound σ) :=
  let s := { s with body := s.body ++ data }
  if !s.zstdEncoded || s.decoderFinished then some (afterCallback (s, false))
  else
    let decoder := s.decoder.getD codec.start
    (decodeLoop codec fuel { s with decoder := some decoder } decoder data).map afterCallback

/-- The end of the stream in `h2_on_frame_recv_callback`. The end of the dispatch stream fails the
transport. -/
def onEndStream (s : Inbound σ) (dispatch : Bool) : Inbound σ :=
  if s.zstdEncoded && !s.decoderFinished then afterCallback (s, false)
  else { s with
    remoteEnd := true
    transportFailed := s.transportFailed || dispatch }

/-- `h2_on_stream_close_callback`. -/
def onStreamClose (s : Inbound σ) (dispatch : Bool) : Inbound σ :=
  { s with
    decoder := none
    localOut := []
    closed := true
    transportFailed := s.transportFailed || dispatch }

/-! ## Steps -/

/-- What the reader, the read thread and the other threads do. -/
inductive Action
  | read (size : ℕ)
  | finish
  | chunk (data : List UInt8) (fuel : ℕ)
  | contentEncoding (zstd : Bool)
  | status (code : ℕ)
  | endStream (dispatch : Bool)
  | close (dispatch : Bool)
  /-- The socket is closed or broken: the read thread ends. -/
  | disconnect
  /-- `h2_fail_transport_locked`, called by another thread. -/
  | fail

/-- One action. There is one reader, the read thread calls back until it ends, and `nghttp2` has no
DATA for a stream that it has closed. -/
def step (codec : Decoder σ) (s : Inbound σ) : Action → Option (Inbound σ)
  | .read size => if s.waiting.isSome then none else some (s.read size)
  | .finish => s.finish
  | .chunk data fuel => if s.stopped || s.closed then none else s.onDataChunk codec fuel data
  | .contentEncoding zstd => if s.stopped then none else some { s with
      zstdEncoded := !s.contentEncodingSeen && zstd
      contentEncodingSeen := true }
  | .status code => if s.stopped then none else some { s with responseStatus := code }
  | .endStream dispatch => if s.stopped then none else some (s.onEndStream dispatch)
  | .close dispatch => some (s.onStreamClose dispatch)
  | .disconnect => some { s with transportFailed := true, stopped := true }
  | .fail => some { s with transportFailed := true }

/-! ## Buffered and placed bytes -/

/-- What is decoded and not yet read. -/
def buffered (s : Inbound σ) : List UInt8 := s.localOut.flatMap Buffer.rest

/-- What the calls so far placed, those that failed included. -/
def placed (s : Inbound σ) : List UInt8 :=
  s.calls.flatMap Call.bytes ++ (s.waiting.map Prod.snd).getD []

/-- A read takes the first bytes of what is buffered, and everything if that is not enough. -/
theorem drain_spec (buffers : List Buffer) (size : ℕ) :
    (drain buffers size).1 ++ (drain buffers size).2.flatMap Buffer.rest =
        buffers.flatMap Buffer.rest ∧
      (drain buffers size).1.length ≤ size ∧
      ((drain buffers size).1.length < size → (drain buffers size).2 = []) := by
  induction buffers generalizing size with
  | nil => simp [drain]
  | cons front buffers ih =>
    rw [drain]
    split
    · simp_all
    · have hrest : front.rest.length = front.data.length - front.offset := by simp [Buffer.rest]
      dsimp only
      split
      · obtain ⟨happend, hle, hempty⟩ := ih (size - min (front.data.length - front.offset) size)
        have hwhole : front.rest.take (min (front.data.length - front.offset) size) = front.rest :=
          take_of_length_le (by omega)
        rw [hwhole]
        refine ⟨by rw [append_assoc, happend, flatMap_cons], ?_, fun hlt => hempty ?_⟩
        · rw [length_append]
          omega
        · rw [length_append] at hlt
          omega
      · have hle := front.offset_le
        have hchunk : min (front.data.length - front.offset) size = size := by omega
        simp only [hchunk]
        refine ⟨?_, length_take_le .., fun hlt => ?_⟩
        · rw [flatMap_cons, flatMap_cons, ← append_assoc]
          congr 1
          rw [Buffer.rest, Buffer.rest, ← drop_drop, take_append_drop]
        · rw [length_take] at hlt
          omega

/-! ## What a stream keeps -/

/-- A read that waits has all that was buffered. -/
structure Waits (s : Inbound σ) : Prop where
  remaining : ∀ size got, s.waiting = some (size, got) → got.length + s.readRemaining = size
  idle : s.waiting = none → s.readRemaining = 0
  empty : s.readRemaining ≠ 0 → s.localOut = []

/-- What a callback leaves alone. -/
structure Untouched (s s' : Inbound σ) : Prop where
  calls : s'.calls = s.calls
  closed : s'.closed = s.closed
  stopped : s'.stopped = s.stopped
  body : s'.body = s.body

theorem Untouched.trans {s'' : Inbound σ} (h : Untouched s s') (h' : Untouched s' s'') :
    Untouched s s'' :=
  ⟨h'.calls.trans h.calls, h'.closed.trans h.closed, h'.stopped.trans h.stopped,
    h'.body.trans h.body⟩

attribute [local simp] placed

theorem placed_place (hwaiting : s.waiting.isSome) (bytes : List UInt8) :
    (s.place bytes).placed = s.placed ++ bytes := by
  obtain ⟨read, hread⟩ := Option.isSome_iff_exists.mp hwaiting
  simp [place, hread]

/-- Decoded bytes follow what is placed and buffered. -/
theorem deliver_spec (h : s.Waits) {output : List UInt8} (hroom : output.length ≤ s.room) :
    (s.deliver output).Waits ∧ Untouched s (s.deliver output) ∧
      (s.deliver output).placed ++ (s.deliver output).buffered =
        s.placed ++ s.buffered ++ output := by
  unfold deliver
  split
  · rename_i hpositive
    rw [room, if_pos hpositive] at hroom
    have hempty := h.empty (by omega)
    have hwaiting : s.waiting.isSome := by
      by_contra hnone
      have := h.idle (by simpa using hnone)
      omega
    refine ⟨⟨?_, ?_, fun _ => hempty⟩, ⟨rfl, rfl, rfl, rfl⟩, ?_⟩
    · intro size got hgot
      simp only [place, Option.map_eq_some_iff] at hgot
      obtain ⟨⟨size', got'⟩, hread, heq⟩ := hgot
      cases heq
      have := h.remaining _ _ hread
      simp only [place, length_append]
      omega
    · intro hnone
      rw [place, Option.map_eq_none_iff] at hnone
      rw [hnone] at hwaiting
      cases hwaiting
    · have hbuffered : s.buffered = [] := by simp [buffered, hempty]
      have hafter : (s.place output).buffered = [] := hbuffered
      rw [placed_place hwaiting, hafter, hbuffered, append_nil, append_nil]
  · have hzero : s.readRemaining = 0 := by omega
    have hplace : s.place [] = s := by
      have hmap : s.waiting.map (fun read => (read.1, read.2 ++ [])) = s.waiting := by simp
      rw [place, hmap]
      rfl
    have hreceive : s.receiveBytes output =
        if output = [] then s
        else { s with localOut := s.localOut ++ [⟨output, 0, Nat.zero_le _⟩] } := by
      simp only [receiveBytes, hzero, Nat.min_zero, take_zero, drop_zero, hplace]
    rw [hreceive]
    split
    · rename_i hnil
      exact ⟨h, ⟨rfl, rfl, rfl, rfl⟩, by rw [hnil, append_nil]⟩
    · refine ⟨⟨h.remaining, h.idle, fun hne => absurd hzero hne⟩, ⟨rfl, rfl, rfl, rfl⟩, ?_⟩
      simp [buffered, Buffer.rest]

theorem room_pos (s : Inbound σ) : 0 < s.room := by
  unfold room
  split
  · assumption
  · decide

section Decoding

variable {codec : Decoder σ} {content : List UInt8 → List UInt8}
  {At : σ → List UInt8 → List UInt8 → Prop}

/-- The decoder has taken and given these bytes, and what it gave was placed or buffered. -/
structure Flows (At : σ → List UInt8 → List UInt8 → Prop) (s : Inbound σ) (d : σ)
    (taken given : List UInt8) : Prop where
  waits : s.Waits
  decoder : s.decoder = some d
  reached : At d taken given
  delivered : s.placed ++ s.buffered = given

/-- One round of the decoding loop. -/
theorem Flows.deliver (hcodec : codec.Correct content At) {r : Decoded σ}
    (h : s.Flows At d taken given) (hr : codec.decompress d data s.room = some r) :
    Flows At { s.deliver r.output with decoder := some r.state } r.state
        (taken ++ data.take r.used) (given ++ r.output) ∧
      Untouched s { s.deliver r.output with decoder := some r.state } := by
  obtain ⟨hwaits, huntouched, hdelivered⟩ :=
    deliver_spec h.waits (hcodec.bounded _ _ _ _ hr).2
  refine ⟨⟨{ hwaits with }, rfl, ?_, ?_⟩, ?_⟩
  · exact hcodec.step _ _ _ _ _ _ h.reached hr
  · rw [← h.delivered]
    exact hdelivered
  · exact { huntouched with }

theorem append_take_append_drop (l m : List UInt8) (n : ℕ) :
    l ++ m.take n ++ m.drop n = l ++ m := by
  rw [append_assoc, take_append_drop]

/-- **The decoding loop.** What it decodes is placed or buffered, in order; if the callback
succeeds, all of the chunk is decoded. -/
theorem decodeLoop_spec (hcodec : codec.Correct content At) {fuel : ℕ} {ok : Bool}
    (h : s.Flows At d taken given) (hloop : decodeLoop codec fuel s d data = some (s', ok)) :
    Untouched s s' ∧ ∃ d' taken' given', s'.Flows At d' taken' given' ∧
      taken' <+: taken ++ data ∧
      (ok = true → taken' = taken ++ data ∧ given' = content (taken ++ data)) := by
  induction fuel generalizing s d taken given data with
  | zero => cases hloop
  | succ fuel ih =>
    rw [decodeLoop] at hloop
    split at hloop
    · cases hloop
      exact ⟨⟨rfl, rfl, rfl, rfl⟩, d, taken, given, h, prefix_append .., fun h => nomatch h⟩
    · rename_i r hr
      obtain ⟨hnext, huntouched⟩ := h.deliver hcodec hr
      obtain ⟨hused, -⟩ := hcodec.bounded _ _ _ _ hr
      have hwhole : data.drop r.used = [] → taken ++ data.take r.used = taken ++ data ∧
          r.used = data.length := by
        intro hrest
        have hlength : r.used = data.length := by
          have := congrArg List.length hrest
          simp only [length_drop, length_nil] at this
          omega
        rw [hlength, take_length]
        exact ⟨rfl, rfl⟩
      -- how far the decoder is when the loop ends here
      have hend : ∀ ok, (ok = true → data.drop r.used = [] ∧
          (r.output.length < s.room ∨ r.hint = 0)) →
          ∃ d' taken' given', Flows At { s.deliver r.output with decoder := some r.state } d' taken'
            given' ∧ taken' <+: taken ++ data ∧
            (ok = true → taken' = taken ++ data ∧ given' = content (taken ++ data)) := by
        intro ok hok
        refine ⟨_, _, _, hnext, (prefix_append_right_inj _).mpr ( take_prefix ..), ?_⟩
        intro htrue
        obtain ⟨hrest, hleft⟩ := hok htrue
        obtain ⟨htaken, hlength⟩ := hwhole hrest
        exact ⟨htaken, hcodec.drained _ _ _ _ _ _ h.reached hr hlength hleft⟩
      dsimp only at hloop
      split at hloop
      · rename_i hhint
        split at hloop
        · cases hloop
          exact ⟨huntouched, hend false fun h => nomatch h⟩
        · rename_i hrest
          cases hloop
          obtain ⟨d', taken', given', hflows, hprefix, hok⟩ :=
            hend true fun _ => ⟨by simpa using hrest, .inr hhint⟩
          refine ⟨{ huntouched with },
            d', taken', given', { hflows with waits := { hflows.waits with } }, hprefix, hok⟩
      · split at hloop
        · rename_i hnone
          cases hloop
          simp only [Bool.and_eq_true, decide_eq_true_eq] at hnone
          refine ⟨huntouched, hend _ fun hrest => ⟨by simpa using hrest, .inl ?_⟩⟩
          rw [hnone.2]
          exact s.room_pos
        · split at hloop
          · rename_i hlast
            cases hloop
            simp only [Bool.and_eq_true, decide_eq_true_eq] at hlast
            exact ⟨huntouched, hend true fun _ => ⟨hlast.1, .inl hlast.2⟩⟩
          · obtain ⟨huntouched', d', taken', given', hflows, hprefix, hok⟩ := ih hnext hloop
            rw [append_take_append_drop] at hprefix hok
            exact ⟨huntouched.trans huntouched', d', taken', given', hflows, hprefix, hok⟩

/-- The decoding loop ends: every round but the last takes or gives bytes. -/
theorem decodeLoop_total (hcodec : codec.Correct content At) (data : List UInt8)
    (h : s.Flows At d taken given) {fuel : ℕ}
    (hfuel : data.length + ((content (taken ++ data)).length - given.length) < fuel) :
    ∃ result, decodeLoop codec fuel s d data = some result := by
  induction fuel generalizing s d taken given data with
  | zero => omega
  | succ fuel ih =>
    rw [decodeLoop]
    split
    · exact ⟨_, rfl⟩
    · rename_i r hr
      dsimp only
      split
      · split <;> exact ⟨_, rfl⟩
      · split
        · exact ⟨_, rfl⟩
        · rename_i hprogress
          split
          · exact ⟨_, rfl⟩
          · obtain ⟨hnext, -⟩ := h.deliver hcodec hr
            obtain ⟨hused, -⟩ := hcodec.bounded _ _ _ _ hr
            have hgiven := ((hcodec.sound _ _ _ hnext.reached).trans
              (hcodec.content_mono _ (data.drop r.used))).length_le
            refine ih _ hnext ?_
            rw [append_take_append_drop] at hgiven ⊢
            rw [length_append] at hgiven ⊢
            have hsome : r.used = 0 → 0 < r.output.length := fun hzero =>
              length_pos_of_ne_nil fun hnil => hprogress (by simp [hzero, hnil])
            rw [length_drop]
            omega

/-! ## The order of the bytes -/

/-- What holds of a stream in every run. While it is open, what was placed and what is buffered is
what the decoder gave; unless a callback has failed, that is the decoded body. -/
structure Sound (codec : Decoder σ) (content : List UInt8 → List UInt8)
    (At : σ → List UInt8 → List UInt8 → Prop) (s : Inbound σ) : Prop where
  waits : s.Waits
  complete : ∀ call ∈ s.calls, call.result = .complete → call.bytes.length = call.size
  closed_empty : s.closed = true → s.localOut = []
  order : ∃ taken given, taken <+: s.body ∧ given <+: content taken ∧ s.placed <+: given ∧
    (s.closed = false →
      s.placed ++ s.buffered = given ∧ At (s.decoder.getD codec.start) taken given) ∧
    (s.closed = false → s.stopped = false → taken = s.body ∧ given = content s.body)

theorem sound_start (hcodec : codec.Correct content At) : Sound codec content At start where
  waits := ⟨fun _ _ h => (nomatch h), fun _ => rfl, fun h => absurd rfl h⟩
  complete := fun _ h => nomatch h
  closed_empty := fun h => nomatch h
  order := ⟨[], [], prefix_rfl, hcodec.sound _ _ _ hcodec.start, prefix_rfl,
    fun _ => ⟨rfl, hcodec.start⟩, fun _ _ => ⟨rfl, hcodec.content_nil.symm⟩⟩

/-- Bytes that move from the buffers to a call, or from a call that waits to one that is over. -/
theorem Sound.move (h : Sound codec content At s) (hwaits : s'.Waits)
    (hcomplete : ∀ call ∈ s'.calls, call.result = .complete → call.bytes.length = call.size)
    (hempty : s'.closed = true → s'.localOut = [])
    (hbytes : s'.placed ++ s'.buffered = s.placed ++ s.buffered) (hclosed : s'.closed = s.closed)
    (hstopped : s'.stopped = false → s.stopped = false) (hbody : s'.body = s.body)
    (hdecoder : s'.decoder = s.decoder) : Sound codec content At s' := by
  obtain ⟨taken, given, htaken, hgiven, hprefix, hopen, hrun⟩ := h.order
  refine ⟨hwaits, hcomplete, hempty, taken, given, hbody ▸ htaken, hgiven, ?_, ?_, ?_⟩
  · cases hc : s.closed with
    | false =>
      rw [← (hopen hc).1, ← hbytes]
      exact prefix_append ..
    | true =>
      have hbuffered : s.buffered = [] := by rw [buffered, h.closed_empty hc, flatMap_nil]
      have hbuffered' : s'.buffered = [] := by
        rw [buffered, hempty (hclosed.trans hc), flatMap_nil]
      rw [hbuffered, hbuffered', append_nil, append_nil] at hbytes
      rw [hbytes]
      exact hprefix
  · rw [hclosed, hbytes, hdecoder]
    exact hopen
  · rw [hclosed, hbody]
    exact fun hc hs => hrun hc (hstopped hs)

/-- Flags on which no byte depends. -/
theorem Sound.flags (h : Sound codec content At s) (hs' : s' = { s with
      remoteEnd := s'.remoteEnd
      contentEncodingSeen := s'.contentEncodingSeen
      zstdEncoded := s'.zstdEncoded
      responseStatus := s'.responseStatus
      transportFailed := s'.transportFailed
      stopped := s'.stopped }) (hstopped : s'.stopped = false → s.stopped = false) :
    Sound codec content At s' := by
  rw [hs']
  exact h.move { h.waits with } h.complete h.closed_empty rfl rfl hstopped rfl rfl

theorem placed_respond (s : Inbound σ) (hwaiting : s.waiting = none) (size : ℕ)
    (bytes : List UInt8) (result : Result) :
    (s.respond size bytes result).placed = s.placed ++ bytes := by
  simp [respond, hwaiting]

section

variable (h : Sound codec content At s)
include h

theorem Sound.read (hwaiting : s.waiting = none) (size : ℕ) :
    Sound codec content At (s.read size) := by
  have hspec := drain_spec s.localOut size
  have hremaining := h.waits.idle hwaiting
  have hclosed : s.closed = true → (drain s.localOut size).2 = [] := by
    intro hc
    rw [h.closed_empty hc]
    rfl
  unfold Inbound.read
  generalize drain s.localOut size = drained at hspec hclosed
  obtain ⟨got, rest⟩ := drained
  obtain ⟨hdrain, hle, hall⟩ := hspec
  -- the call is over
  have hrespond : ∀ result, (result = .complete → got.length = size) →
      Sound codec content At ({ s with localOut := rest }.respond size got result) := by
    intro result hresult
    refine h.move ⟨?_, fun _ => hremaining, fun hne => absurd hremaining hne⟩ ?_ hclosed ?_ rfl id
      rfl rfl
    · intro size got hgot
      exact absurd (hwaiting.symm.trans hgot) (by simp)
    · exact forall_mem_append.mpr ⟨h.complete, forall_mem_singleton.mpr hresult⟩
    · rw [placed_respond { s with localOut := rest } hwaiting, append_assoc]
      exact congrArg (s.placed ++ ·) hdrain
  dsimp only
  split
  · rename_i hsize
    exact hrespond _ fun _ => hsize
  · split
    · exact hrespond _ fun h => nomatch h
    · split
      · refine hrespond _ fun h => ?_
        split at h <;> cases h
      · refine h.move ⟨?_, fun hnone => (nomatch hnone), fun _ => hall (Nat.lt_of_le_of_ne hle ‹_›)⟩
          h.complete hclosed ?_ rfl id rfl rfl
        · rintro size' got ⟨⟩
          exact Nat.add_sub_cancel' hle
        · have hplaced : s.placed = s.calls.flatMap Call.bytes := by simp [hwaiting]
          have hgot : placed { s with
              localOut := rest
              waiting := some (size, got)
              readRemaining := size - got.length } = s.placed ++ got := by
            rw [hplaced]
            rfl
          rw [hgot, append_assoc]
          exact congrArg (s.placed ++ ·) hdrain

theorem Sound.finish (hfinish : s.finish = some s') :
    Sound codec content At s' := by
  unfold Inbound.finish at hfinish
  split at hfinish
  · cases hfinish
  · rename_i size got hwaiting
    split at hfinish
    · cases hfinish
    · cases hfinish
      have hsize := h.waits.remaining size got hwaiting
      refine h.move ⟨fun _ _ hgot => (nomatch hgot), fun _ => rfl, fun hne => absurd rfl hne⟩ ?_
        h.closed_empty ?_ rfl id rfl rfl
      · refine forall_mem_append.mpr ⟨h.complete, forall_mem_singleton.mpr fun hcomplete => ?_⟩
        dsimp only at hcomplete ⊢
        by_cases hzero : s.readRemaining = 0
        · omega
        · rw [if_neg hzero] at hcomplete
          split at hcomplete <;> cases hcomplete
      · rw [placed_respond _ rfl]
        have hplaced : s.placed = s.calls.flatMap Call.bytes ++ got := by simp [hwaiting]
        have hcalls : placed { s with waiting := none, readRemaining := 0 } =
            s.calls.flatMap Call.bytes := by simp
        rw [hcalls, hplaced]
        rfl

theorem Sound.chunk (hcodec : codec.Correct content At) {fuel : ℕ} (hstopped : s.stopped = false)
    (hopen : s.closed = false) (hchunk : s.onDataChunk codec fuel data = some s') :
    Sound codec content At s' := by
  obtain ⟨taken, given, -, -, -, hdecoder, hrun⟩ := h.order
  obtain ⟨hdelivered, hreached⟩ := hdecoder hopen
  obtain ⟨rfl, rfl⟩ := hrun hopen hstopped
  unfold onDataChunk at hchunk
  dsimp only at hchunk
  split at hchunk
  · cases hchunk
    refine ⟨{ h.waits with }, h.complete, h.closed_empty, s.body,
      content s.body, prefix_append .., prefix_rfl, ?_, fun _ => ⟨hdelivered, hreached⟩,
      fun _ hs => nomatch hs⟩
    exact ⟨s.buffered, hdelivered⟩
  · obtain ⟨⟨s₁, ok⟩, hloop, rfl⟩ := Option.map_eq_some_iff.mp hchunk
    have hflows : Flows At { s with
        body := s.body ++ data
        decoder := some (s.decoder.getD codec.start) } (s.decoder.getD codec.start) s.body
        (content s.body) :=
      ⟨{ h.waits with }, rfl, hreached, hdelivered⟩
    obtain ⟨huntouched, d, taken, given, hflows', htaken, hok⟩ :=
      decodeLoop_spec hcodec hflows hloop
    have hcalls : s₁.calls = s.calls := huntouched.calls
    have hbody : s₁.body = s.body ++ data := huntouched.body
    have hclosed : s₁.closed = true → s₁.localOut = [] := fun hc =>
      absurd ((huntouched.closed.trans hopen).symm.trans hc) (by decide)
    have hplaced : s₁.placed <+: given := ⟨s₁.buffered, hflows'.delivered⟩
    have hcomplete : ∀ call ∈ s₁.calls, call.result = .complete →
      call.bytes.length = call.size := by
      rw [hcalls]
      exact h.complete
    have hat : At (s₁.decoder.getD codec.start) taken given := by
      rw [hflows'.decoder]
      exact hflows'.reached
    cases ok with
    | false =>
      exact ⟨{ hflows'.waits with }, hcomplete, hclosed, taken, given, hbody ▸ htaken,
        hcodec.sound _ _ _ hat, hplaced, fun _ => ⟨hflows'.delivered, hat⟩, fun _ hs => nomatch hs⟩
    | true =>
      obtain ⟨rfl, rfl⟩ := hok rfl
      exact ⟨hflows'.waits, hcomplete, hclosed, s.body ++ data, content (s.body ++ data),
        hbody ▸ htaken, hcodec.sound _ _ _ hat, hplaced, fun _ => ⟨hflows'.delivered, hat⟩,
        fun _ _ => ⟨hbody.symm, congrArg content hbody.symm⟩⟩

theorem Sound.close (dispatch : Bool) :
    Sound codec content At (s.onStreamClose dispatch) := by
  obtain ⟨taken, given, htaken, hgiven, hprefix, -, -⟩ := h.order
  exact ⟨⟨h.waits.remaining, h.waits.idle, fun _ => rfl⟩, h.complete, fun _ => rfl, taken, given,
    htaken, hgiven, hprefix, fun hc => (nomatch hc), fun hc => (nomatch hc)⟩

/-- Every action keeps the order of the bytes. -/
theorem Sound.step (hcodec : codec.Correct content At) {a : Action}
    (hstep : s.step codec a = some s') : Sound codec content At s' := by
  cases a with
  | read size =>
    obtain ⟨hnone, hs⟩ := Option.ite_none_left_eq_some.mp hstep
    cases hs
    exact h.read (by simpa using hnone) size
  | finish => exact h.finish hstep
  | chunk data fuel =>
    obtain ⟨hrunning, hs⟩ := Option.ite_none_left_eq_some.mp hstep
    simp only [Bool.or_eq_true, not_or, Bool.not_eq_true] at hrunning
    exact h.chunk hcodec hrunning.1 hrunning.2 hs
  | contentEncoding zstd | status code =>
    obtain ⟨-, hs⟩ := Option.ite_none_left_eq_some.mp hstep
    cases hs
    exact h.flags rfl id
  | endStream dispatch =>
    obtain ⟨-, hs⟩ := Option.ite_none_left_eq_some.mp hstep
    cases hs
    unfold onEndStream
    split
    · exact h.flags rfl fun hs => nomatch hs
    · exact h.flags rfl id
  | close dispatch =>
    cases hstep
    exact h.close dispatch
  | disconnect =>
    cases hstep
    exact h.flags rfl fun hs => nomatch hs
  | fail =>
    cases hstep
    exact h.flags rfl id

end

/-- **Streams are read in order.** In every run, whatever the chunks, the reads and the failures: a
read that succeeds gets as many bytes as it asked for; the bytes that the reads got before one
failed are a prefix of the decoded body; so are the bytes that all reads got, those of failed ones
included; and while the stream is open and no callback has failed, what was read and what is
buffered is the decoded body of the chunks, and the next chunk is taken. -/
theorem received_in_order (hcodec : codec.Correct content At) {actions : List Action}
    {s : Inbound σ} (hrun : exec (Inbound.step codec) start actions = some s) :
    (∀ call ∈ s.calls, call.result = .complete → call.bytes.length = call.size) ∧
      (s.calls.takeWhile fun call => call.result = .complete).flatMap Call.bytes <+:
        content s.body ∧
      s.calls.flatMap Call.bytes <+: content s.body ∧
      (s.closed = false → s.stopped = false → s.placed ++ s.buffered = content s.body ∧
        ∀ data, ∃ fuel, (s.step codec (.chunk data fuel)).isSome) := by
  have hsound : Sound codec content At s :=
    exec_invariant (fun _ _ _ h hstep => h.step hcodec hstep) (sound_start hcodec) hrun
  obtain ⟨taken, given, ⟨more, hbody⟩, hgiven, hplaced, hopen, hall⟩ := hsound.order
  have hcontent : s.placed <+: content s.body := by
    rw [← hbody]
    exact (hplaced.trans hgiven).trans (hcodec.content_mono taken more)
  have hcalls : s.calls.flatMap Call.bytes <+: content s.body :=
    (prefix_append ..).trans hcontent
  refine ⟨hsound.complete, ?_, hcalls, fun hclosed hstopped => ?_⟩
  · obtain ⟨rest, hrest⟩ := takeWhile_prefix (l := s.calls) fun call => call.result = .complete
    refine List.IsPrefix.trans ?_ hcalls
    nth_rewrite 2 [← hrest]
    rw [flatMap_append]
    exact prefix_append ..
  · obtain ⟨hdelivered, hreached⟩ := hopen hclosed
    refine ⟨by rw [hdelivered, (hall hclosed hstopped).2], fun data => ?_⟩
    have hflows : Flows At { s with
        body := s.body ++ data
        decoder := some (s.decoder.getD codec.start) } (s.decoder.getD codec.start) taken given :=
      ⟨{ hsound.waits with }, rfl, hreached, hdelivered⟩
    refine ⟨data.length + ((content (taken ++ data)).length - given.length) + 1, ?_⟩
    obtain ⟨result, hloop⟩ := decodeLoop_total hcodec data hflows (Nat.lt_succ_self _)
    rw [Inbound.step, if_neg (by simp [hclosed, hstopped]), onDataChunk]
    dsimp only
    split
    · rfl
    · rw [hloop]
      rfl

end Decoding

/-! ## Runs -/

/-- A reader waits for five bytes that come in two chunks. -/
theorem received_in_two_chunks : ∃ s, exec (Inbound.step Decoder.identity) start
      [.contentEncoding true, .read 5, .chunk [1, 2, 3] 2, .chunk [4, 5, 6, 7, 8] 3, .finish] =
        some s ∧ s.calls = [⟨5, [1, 2, 3, 4, 5], .complete⟩] ∧
      s.calls.flatMap Call.bytes <+: id s.body := by
  refine exists_of_any (p := fun s => s.calls = [⟨5, [1, 2, 3, 4, 5], .complete⟩]) (by decide)
    fun s hrun hcalls => ?_
  exact ⟨hcalls, (received_in_order Decoder.identity_correct hrun).2.2.1⟩

/-- **A gap after a failed read.** The transport has failed when five bytes are read of which three
are there; the read fails and takes them along. The read thread goes on, and the next read succeeds
with bytes behind the gap. -/
theorem gap_after_failed_read : ∃ s, exec (Inbound.step Decoder.identity) start
      [.contentEncoding true, .chunk [1, 2, 3] 2, .fail, .read 5, .chunk [4, 5, 6, 7, 8] 2,
        .read 5] = some s ∧ s.body = [1, 2, 3, 4, 5, 6, 7, 8] ∧
      ¬(s.calls.filter fun call => call.result = .complete).flatMap Call.bytes <+: id s.body :=
  ⟨_, rfl, rfl, by decide⟩

end Inbound

end Lupine.Http2
