import Lupine.Foundations.Region
import Mathlib.Data.List.Basic

/-!
# Byte streams and their readers

Readers of a byte stream that take a number of bytes at a time, and what it means that a reader
consumes a message: it stops right behind it, whatever follows. `Consumes` has a rule for each way
that readers are put together, so that a message and its reader are matched field by field.
Integers travel in little-endian order, objects as the bytes of a piece of memory.
-/

namespace Lupine.Foundations

open List

/-! ## Integers -/

/-- An integer in little-endian order. -/
def encode : ℕ → ℕ → List UInt8
  | 0, _ => []
  | width + 1, n => UInt8.ofNat n :: encode width (n / 256)

def decode : List UInt8 → ℕ
  | [] => 0
  | byte :: bytes => byte.toNat + 256 * decode bytes

@[simp] theorem length_encode (width n : ℕ) : (encode width n).length = width := by
  induction width generalizing n with
  | zero => rfl
  | succ width ih => rw [encode, length_cons, ih]

/-- An integer that fits survives the trip. -/
theorem decode_encode {width n : ℕ} (h : n < 256 ^ width) : decode (encode width n) = n := by
  induction width generalizing n with
  | zero =>
    rw [Nat.pow_zero, Nat.lt_one_iff] at h
    exact h.symm
  | succ width ih =>
    have hdiv : n / 256 < 256 ^ width := by
      rw [Nat.div_lt_iff_lt_mul (by decide), ← Nat.pow_succ]
      exact h
    rw [encode, decode, ih hdiv, UInt8.toNat_ofNat']
    exact Nat.mod_add_div n 256

/-! ## Objects -/

/-- The bytes behind an address. -/
abbrev Memory := ℕ → UInt8

section

variable (memory : Memory) (n : ℕ)

/-- The first `n` bytes. -/
def Memory.read : List UInt8 := (List.range n).map memory

/-- Memory that holds some bytes. -/
def Memory.store (bytes : List UInt8) : Memory := fun i => bytes.getD i 0

def Memory.write (bytes : List UInt8) : Memory := fun i =>
  if i < bytes.length then bytes.getD i 0 else memory i

@[simp] theorem Memory.length_read : (memory.read n).length = n := by
  simp [read]

@[simp] theorem Memory.read_zero : memory.read 0 = [] := rfl

theorem Memory.read_store {bytes : List UInt8} {n : ℕ} (h : bytes.length = n) :
    (store bytes).read n = bytes := by
  subst h
  refine ext_getElem (by simp) fun i hi _ => ?_
  have hlt : i < bytes.length := by simpa using hi
  simp [read, store, hlt]

theorem Memory.read_write {memory : Memory} {bytes : List UInt8} {n : ℕ} (h : bytes.length = n) :
    (memory.write bytes).read n = bytes := by
  subst h
  refine ext_getElem (by simp) fun i hi _ => ?_
  have hlt : i < bytes.length := by simpa using hi
  simp [read, write, hlt]

@[simp] theorem Memory.read_store_read : (store (memory.read n)).read n = memory.read n :=
  read_store (memory.length_read n)

end

/-! ## Readers -/

/-- A reader of a byte stream. -/
abbrev Reader := StateT (List UInt8) Option

def Reader.take (n : ℕ) : Reader (List UInt8) := fun stream =>
  if n ≤ stream.length then some (stream.take n, stream.drop n) else none

/-- Whatever the reader makes of a stream is in `Q`. -/
def Yields {α : Type} (reader : Reader α) (Q : α → Prop) : Prop :=
  ∀ stream a rest, reader stream = some (a, rest) → Q a

namespace Yields

variable {α β σ : Type} {reader : Reader α} {Q : α → Prop}

theorem pure {a : α} (h : Q a) : Yields (Pure.pure a) Q := by
  intro stream b rest hb
  cases hb
  exact h

theorem failure : Yields (Alternative.failure : Reader α) Q := fun _ _ _ h => nomatch h

theorem bind {first : Reader β} {next : β → Reader α} {P : β → Prop} (h : Yields first P)
    (hnext : ∀ b, P b → Yields (next b) Q) : Yields (first >>= next) Q := by
  intro stream a rest ha
  obtain ⟨⟨b, stream'⟩, hb, ha⟩ := Option.bind_eq_some_iff.mp ha
  exact hnext b (h stream b stream' hb) stream' a rest ha

/-- A field of which nothing is asked. -/
theorem skip {first : Reader β} {next : β → Reader α} (h : ∀ b, Yields (next b) Q) :
    Yields (first >>= next) Q :=
  bind (P := fun _ => True) (fun _ _ _ _ => trivial) fun b _ => h b

theorem ite {c : Prop} [Decidable c] {other : Reader α} (ht : c → Yields reader Q)
    (hf : ¬c → Yields other Q) : Yields (if c then reader else other) Q := by
  split
  · exact ht ‹_›
  · exact hf ‹_›

/-- A loop of readers: what each step keeps holds at the end. -/
theorem foldlM {step : σ → β → Reader σ} {I : List β → σ → Prop} {items : List β} {state : σ}
    (h₀ : I [] state)
    (hstep : ∀ (done : List β) item later s, done ++ item :: later = items → I done s →
      Yields (step s item) (I (done ++ [item]))) :
    Yields (items.foldlM step state) (I items) := by
  suffices h : ∀ (later done : List β) (s : σ), done ++ later = items → I done s →
      Yields (later.foldlM step s) (I items) from h items [] state rfl h₀
  intro later
  induction later with
  | nil =>
    intro done s hdone hI
    rw [append_nil] at hdone
    exact pure (hdone ▸ hI)
  | cons item later ih =>
    intro done s hdone hI
    refine bind (hstep done item later s hdone hI) fun s' hs' => ?_
    exact ih (done ++ [item]) s' (by rw [← hdone, append_assoc]; rfl) hs'

end Yields

/-- The reader takes the message off the stream and nothing more, with a result in `Q`. -/
def Consumes {α : Type} (reader : Reader α) (message : List UInt8) (Q : α → Prop) : Prop :=
  ∀ rest, ∃ a, reader (message ++ rest) = some (a, rest) ∧ Q a

namespace Consumes

variable {α β σ : Type} {reader : Reader α} {message first second : List UInt8} {Q R : α → Prop}

theorem pure {a : α} (h : Q a) : Consumes (Pure.pure a) [] Q := fun _ => ⟨a, rfl, h⟩

theorem mono (h : Consumes reader message Q) (hR : ∀ a, Q a → R a) : Consumes reader message R :=
  fun rest =>
    let ⟨a, ha, hQ⟩ := h rest
    ⟨a, ha, hR a hQ⟩

theorem bind {next : α → Reader β} {P : β → Prop} (h : Consumes reader first Q)
    (hnext : ∀ a, Q a → Consumes (next a) second P) :
    Consumes (reader >>= next) (first ++ second) P := by
  intro rest
  obtain ⟨a, ha, hQ⟩ := h (second ++ rest)
  obtain ⟨b, hb, hP⟩ := hnext a hQ rest
  refine ⟨b, ?_, hP⟩
  change (reader (first ++ second ++ rest)).bind _ = _
  rw [append_assoc, ha]
  exact hb

theorem take {n : ℕ} (h : message.length = n) :
    Consumes (Reader.take n) message fun bytes => bytes = message := by
  intro rest
  subst h
  refine ⟨message, ?_, rfl⟩
  simp [Reader.take]

/-- Read a last field. -/
theorem takeLast {n : ℕ} {f : List UInt8 → α} (h : message.length = n) (hQ : Q (f message)) :
    Consumes (Reader.take n >>= fun bytes => Pure.pure (f bytes)) message Q := by
  rw [← append_nil message]
  refine bind (take h) fun bytes hbytes => ?_
  subst hbytes
  exact pure hQ

/-- Read something that is there under a condition. -/
theorem ite {c : Prop} [Decidable c] {other : Reader α} (ht : c → Consumes reader first Q)
    (hf : ¬c → Consumes other second Q) :
    Consumes (if c then reader else other) (if c then first else second) Q := by
  split
  · exact ht ‹_›
  · exact hf ‹_›

/-- A message of one field after the other, read by a loop that carries a state. `I` holds of what
has been read and the state. -/
theorem foldlM {step : σ → α → Reader σ} {field : α → List UInt8} {I : List α → σ → Prop}
    {items : List α} {state : σ} (h₀ : I [] state)
    (hstep : ∀ (done : List α) item later s, done ++ item :: later = items → I done s →
      Consumes (step s item) (field item) (I (done ++ [item]))) :
    Consumes (items.foldlM step state) (items.flatMap field) (I items) := by
  suffices h : ∀ (rest done : List α) (s : σ), done ++ rest = items → I done s →
      Consumes (rest.foldlM step s) (rest.flatMap field) (I items) from h items [] state rfl h₀
  intro rest
  induction rest with
  | nil =>
    intro done s hdone hI
    rw [append_nil] at hdone
    exact pure (hdone ▸ hI)
  | cons item rest ih =>
    intro done s hdone hI
    refine bind (hstep done item rest s hdone hI) fun s' hs' => ?_
    exact ih (done ++ [item]) s' (by rw [← hdone, append_assoc]; rfl) hs'

end Consumes

end Lupine.Foundations
