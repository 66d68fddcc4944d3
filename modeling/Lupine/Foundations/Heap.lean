import Mathlib.Data.Set.Function
import Mathlib.Logic.Function.Basic

/-!
# A heap of blocks

`malloc`, `free` and writes into blocks that may be freed or too small. A write to a place that is
not `Writable` is undefined in C; here it is a write without effect, and a program's model records
that it happened.

A block has its own number for ever, so a freed block is never handed out again: a pointer that is
kept after `free` is caught by `Writable` instead of reaching another block.
-/

namespace Lupine.Foundations

open Function

/-- A block and its values. What was never written is `none`. -/
structure Block (α : Type*) where
  size : ℕ
  values : ℕ → Option α
  live : Bool

/-- The block with another value at `i`. -/
def Block.set {α : Type*} (b : Block α) (i : ℕ) (v : α) : Block α :=
  { b with values := update b.values i (some v) }

/-- The blocks below `next` were handed out. -/
structure Heap (α : Type*) where
  next : ℕ
  blocks : ℕ → Block α

namespace Heap

variable {α : Type*} (h : Heap α)

def empty : Heap α := ⟨0, fun _ => ⟨0, fun _ => none, false⟩⟩

/-- A new block; it is block `h.next`. -/
def malloc (size : ℕ) : Heap α :=
  ⟨h.next + 1, update h.blocks h.next ⟨size, fun _ => none, true⟩⟩

def free (b : ℕ) : Heap α :=
  { h with blocks := update h.blocks b { h.blocks b with live := false } }

/-- The place lies in a block that is live. -/
def Writable (b i : ℕ) : Prop := (h.blocks b).live = true ∧ i < (h.blocks b).size

instance (b i : ℕ) : Decidable (h.Writable b i) := inferInstanceAs (Decidable (_ ∧ _))

def write (b i : ℕ) (v : α) : Heap α :=
  if h.Writable b i then { h with blocks := update h.blocks b ((h.blocks b).set i v) }
  else h

/-- The block was handed out with this size and was not freed since. -/
structure Allocated (b size : ℕ) : Prop where
  lt_next : b < h.next
  live : (h.blocks b).live = true
  size_eq : (h.blocks b).size = size

variable {h} {b b' size size' i j : ℕ} {v : α}

theorem allocated_malloc : (h.malloc size).Allocated h.next size :=
  ⟨Nat.lt_succ_self _, by simp [malloc], by simp [malloc]⟩

section

variable (ha : h.Allocated b size)
include ha

theorem Allocated.malloc : (h.malloc size').Allocated b size := by
  have hne : b ≠ h.next := ha.lt_next.ne
  exact ⟨ha.lt_next.trans (Nat.lt_succ_self _), by simp [Heap.malloc, hne, ha.live],
    by simp [Heap.malloc, hne, ha.size_eq]⟩

theorem Allocated.free (hne : b ≠ b') : (h.free b').Allocated b size :=
  ⟨ha.lt_next, by simp [Heap.free, hne, ha.live], by simp [Heap.free, hne, ha.size_eq]⟩

theorem Allocated.write : (h.write b' i v).Allocated b size := by
  unfold Heap.write
  split_ifs
  · rcases eq_or_ne b b' with rfl | hne
    · exact ⟨ha.lt_next, by simpa [Block.set] using ha.live, by simpa [Block.set] using ha.size_eq⟩
    · exact ⟨ha.lt_next, by simp [hne, ha.live], by simp [hne, ha.size_eq]⟩
  · exact ha

theorem Allocated.writable (hi : i < size) : h.Writable b i :=
  ⟨ha.live, ha.size_eq ▸ hi⟩

end

@[simp] theorem next_write : (h.write b i v).next = h.next := by
  unfold write
  split_ifs <;> rfl

theorem values_malloc (hb : b < h.next) :
    ((h.malloc size).blocks b).values = (h.blocks b).values := by
  simp [malloc, hb.ne]

@[simp] theorem values_free : ((h.free b').blocks b).values = (h.blocks b).values := by
  rcases eq_or_ne b b' with rfl | hne
  · simp [free]
  · simp [free, hne]

theorem values_write_self (hw : h.Writable b i) : ((h.write b i v).blocks b).values i = some v := by
  simp [write, hw, Block.set]

/-- A write changes no other place. -/
theorem values_write_of_ne (hne : b = b' → j ≠ i) :
    ((h.write b' i v).blocks b).values j = (h.blocks b).values j := by
  unfold write
  split_ifs
  · rcases eq_or_ne b b' with rfl | hb
    · simp [hne rfl, Block.set]
    · simp [hb]
  · rfl

end Heap

end Lupine.Foundations
