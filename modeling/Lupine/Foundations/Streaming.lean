import Mathlib.Data.List.Basic
import Mathlib.Data.List.Infix

/-!
# Streaming encoders and decoders

A codec is fed a byte string piece by piece and gives its output whenever it is called, as much as
there is room for. `Decoder.Correct` says what it means that a decoder gives the decoded string: it
never runs ahead of what it has taken, and once it has taken everything and leaves room unused, it
has given everything. `Encoder.Reached` relates the state of an encoder to what it has taken and
given.
-/

namespace Lupine.Foundations

/-! ## Decoders -/

/-- What a call of a decoder comes back with: its state, how much of the input it took, what it
gave, and zero if the encoded string is complete and nothing is held back. -/
structure Decoded (σ : Type) where
  state : σ
  used : ℕ
  output : List UInt8
  hint : ℕ

/-- A streaming decoder. A call may fail. -/
structure Decoder (σ : Type) where
  start : σ
  decompress : σ → List UInt8 → ℕ → Option (Decoded σ)

/-- The decoder computes `content`. `At d taken given` holds of its state `d` after it has taken
and given these bytes. -/
structure Decoder.Correct {σ : Type} (decoder : Decoder σ) (content : List UInt8 → List UInt8)
    (At : σ → List UInt8 → List UInt8 → Prop) : Prop where
  content_nil : content [] = []
  content_mono : ∀ taken more, content taken <+: content (taken ++ more)
  start : At decoder.start [] []
  bounded : ∀ d input room r, decoder.decompress d input room = some r →
    r.used ≤ input.length ∧ r.output.length ≤ room
  step : ∀ d taken given input room r, At d taken given → decoder.decompress d input room = some r →
    At r.state (taken ++ input.take r.used) (given ++ r.output)
  sound : ∀ d taken given, At d taken given → given <+: content taken
  /-- A call that took everything and left room, or that completed the string. -/
  drained : ∀ d taken given input room r, At d taken given →
    decoder.decompress d input room = some r → r.used = input.length →
    r.output.length < room ∨ r.hint = 0 → given ++ r.output = content (taken ++ input)

/-- The decoder of strings that are not encoded. -/
def Decoder.identity : Decoder Unit where
  start := ()
  decompress := fun _ input room => some ⟨(), min input.length room, input.take room, 1⟩

theorem Decoder.identity_correct :
    Decoder.identity.Correct id fun _ taken given => given = taken where
  content_nil := rfl
  content_mono := fun taken more => List.prefix_append taken more
  start := rfl
  bounded := by
    rintro d input room r ⟨⟩
    exact ⟨Nat.min_le_left .., List.length_take_le ..⟩
  step := by
    rintro d taken given input room r rfl ⟨⟩
    rcases le_total input.length room with h | h
    · simp [h]
    · simp [h]
  sound := by
    rintro d taken given rfl
    exact List.prefix_rfl
  drained := by
    rintro d taken given input room r rfl ⟨⟩ hused hleft
    have hle : input.length ≤ room := by
      have hmin : min input.length room = input.length := hused
      omega
    simp [List.take_of_length_le hle]

/-! ## Encoders -/

/-- What a call asks for besides taking input. -/
inductive Directive
  | proceed
  | flush
  | finish
  deriving DecidableEq

/-- What a call of an encoder comes back with; `remaining` is not zero if it holds output back. -/
structure Encoded (σ : Type) where
  state : σ
  used : ℕ
  output : List UInt8
  remaining : ℕ

/-- A streaming encoder. A call may fail, and gives no more than there is room for. -/
structure Encoder (σ : Type) where
  start : σ
  compress : σ → List UInt8 → ℕ → Directive → Option (Encoded σ)
  output_le : ∀ e input room directive r, compress e input room directive = some r →
    r.output.length ≤ room

/-- The encoder can be in the state `e` after it has taken and given these bytes. -/
inductive Encoder.Reached {σ : Type} (encoder : Encoder σ) : σ → List UInt8 → List UInt8 → Prop
  | start : Reached encoder encoder.start [] []
  | step {e : σ} {taken given input : List UInt8} {room : ℕ} {directive : Directive}
      {r : Encoded σ} : Reached encoder e taken given →
      encoder.compress e input room directive = some r →
      Reached encoder r.state (taken ++ input.take r.used) (given ++ r.output)

/-- The encoder that passes its input on. -/
def Encoder.identity : Encoder Unit where
  start := ()
  compress := fun _ input room _ => some ⟨(), min input.length room, input.take room, 0⟩
  output_le := by
    rintro e input room directive r ⟨⟩
    exact List.length_take_le ..

end Lupine.Foundations
