import Mathlib.Data.List.Range
import Mathlib.Algebra.Order.Group.Nat

/-!
# Byte regions in pieces and in rows

A loop that runs over the offsets of a region, piece by piece (`pieces`): if every piece is
non-empty and stays inside, what is collected along the way is what one pass over the region would
collect (`flatMap_pieces`, `mem_flatMap_pieces`). And the offsets of a region of rows and slices:
`position` takes an offset apart, `flatMap_box` goes over a box in the order of its offsets.
-/

namespace Lupine.Foundations

open List Nat

/-! ## Pieces -/

section Pieces

variable {α β : Type} {piece : ℕ → α} {length : α → ℕ} {stop : ℕ}

/-- The loop `while (offset < stop) { p = piece(offset); …; offset += length(p); }`. -/
def pieces (piece : ℕ → α) (length : α → ℕ) (stop : ℕ) : ℕ → ℕ → List α
  | 0, _ => []
  | fuel + 1, offset =>
    if offset < stop then
      piece offset :: pieces piece length stop fuel (offset + length (piece offset))
    else []

/-- Every piece is non-empty and inside. -/
def Cuts (piece : ℕ → α) (length : α → ℕ) (stop : ℕ) : Prop :=
  ∀ o < stop, 0 < length (piece o) ∧ o + length (piece o) ≤ stop

theorem mem_pieces {fuel offset : ℕ} {a : α} (h : a ∈ pieces piece length stop fuel offset) :
    ∃ o, o < stop ∧ a = piece o := by
  induction fuel generalizing offset with
  | zero => cases h
  | succ fuel ih =>
    rw [pieces] at h
    split at h
    · rcases mem_cons.mp h with rfl | h
      · exact ⟨offset, ‹_›, rfl⟩
      · exact ih h
    · cases h

/-- Collecting `f` over each piece collects it over the region. -/
theorem flatMap_pieces (hcuts : Cuts piece length stop) {f : ℕ → β} {g : α → List β}
    (hg : ∀ o < stop, g (piece o) = (List.range' o (length (piece o))).map f) {fuel offset : ℕ}
    (hfuel : stop ≤ offset + fuel) :
    (pieces piece length stop fuel offset).flatMap g =
      (List.range' offset (stop - offset)).map f := by
  induction fuel generalizing offset with
  | zero =>
    rw [Nat.sub_eq_zero_of_le (by omega)]
    rfl
  | succ fuel ih =>
    rw [pieces]
    split
    · rename_i hlt
      obtain ⟨hpos, hle⟩ := hcuts offset hlt
      rw [flatMap_cons, hg offset hlt, ih (by omega), ← map_append, range'_append_1]
      congr 2
      omega
    · rw [Nat.sub_eq_zero_of_le (by omega)]
      rfl

section

variable (hcuts : Cuts piece length stop) {P : ℕ → β → Prop} {g : α → List β} {first : ℕ}
    (hg : ∀ o, first ≤ o → o < stop → ∀ b,
      b ∈ g (piece o) ↔ ∃ p, o ≤ p ∧ p < o + length (piece o) ∧ P p b)
include hcuts hg

/-- What is collected over the pieces, when `P o` says what belongs to an offset. -/
theorem mem_flatMap_pieces {fuel offset : ℕ} (hfirst : first ≤ offset)
    (hfuel : stop ≤ offset + fuel) {b : β} :
    b ∈ (pieces piece length stop fuel offset).flatMap g ↔
      ∃ p, offset ≤ p ∧ p < stop ∧ P p b := by
  induction fuel generalizing offset with
  | zero =>
    simp only [pieces, flatMap_nil, not_mem_nil, false_iff]
    rintro ⟨p, hp, hlt, -⟩
    omega
  | succ fuel ih =>
    rw [pieces]
    split
    · rename_i hlt
      obtain ⟨hpos, hle⟩ := hcuts offset hlt
      rw [flatMap_cons, mem_append, hg offset hfirst hlt, ih (by omega) (by omega)]
      constructor
      · rintro (⟨p, hp, hp', hP⟩ | ⟨p, hp, hp', hP⟩)
        · exact ⟨p, hp, by omega, hP⟩
        · exact ⟨p, by omega, hp', hP⟩
      · rintro ⟨p, hp, hp', hP⟩
        rcases lt_or_ge p (offset + length (piece offset)) with hin | hout
        · exact .inl ⟨p, hp, hin, hP⟩
        · exact .inr ⟨p, hout, hp', hP⟩
    · simp only [flatMap_nil, not_mem_nil, false_iff]
      rintro ⟨p, hp, hp', -⟩
      omega

/-- Nothing is collected twice, when nothing belongs to two offsets. -/
theorem nodup_flatMap_pieces (hP : ∀ p q b, P p b → P q b → p = q)
    (hnodup : ∀ o, first ≤ o → o < stop → (g (piece o)).Nodup) {fuel offset : ℕ}
    (hfirst : first ≤ offset) (hfuel : stop ≤ offset + fuel) :
    ((pieces piece length stop fuel offset).flatMap g).Nodup := by
  induction fuel generalizing offset with
  | zero => exact nodup_nil
  | succ fuel ih =>
    rw [pieces]
    split
    · rename_i hlt
      obtain ⟨hpos, hle⟩ := hcuts offset hlt
      rw [flatMap_cons]
      refine nodup_append.mpr
        ⟨hnodup offset hfirst hlt, ih (by omega) (by omega), fun b hb c hc hbc => ?_⟩
      subst hbc
      obtain ⟨p, -, hp, hPp⟩ := (hg offset hfirst hlt b).mp hb
      obtain ⟨q, hq, -, hPq⟩ := (mem_flatMap_pieces hcuts hg (by omega) (by omega)).mp hc
      have := hP p q b hPp hPq
      omega
    · exact nodup_nil

end

/-- A pass over a list in which nothing fails. -/
theorem mapM_eq_some {act : α → Option β} {result : α → β} {l : List α}
    (h : ∀ a ∈ l, act a = some (result a)) : l.mapM act = some (l.map result) := by
  induction l with
  | nil => rfl
  | cons a l ih =>
    rw [mapM_cons, h a (mem_cons_self ..), ih fun b hb => h b (mem_cons_of_mem _ hb)]
    rfl

end Pieces

/-! ## Rows and slices -/

section Box

variable {β : Type*}

/-- The offsets of `m` rows of `n` bytes. -/
theorem range_mul (m n : ℕ) :
    List.range (m * n) = (List.range m).flatMap fun q => (List.range n).map (q * n + ·) := by
  induction m with
  | zero => simp
  | succ m ih =>
    rw [succ_mul, range_add, range_succ, flatMap_append, ← ih]
    simp

/-- The bytes of a box are below its size. -/
theorem box_lt {width rows slices k j i : ℕ} (hk : k < slices) (hj : j < rows) (hi : i < width) :
    (k * rows + j) * width + i < slices * rows * width := by
  have hrow : k * rows + j + 1 ≤ slices * rows := by
    have := mul_le_mul_right rows (succ_le_of_lt hk)
    rw [succ_mul] at this
    omega
  have := mul_le_mul_right width hrow
  rw [succ_mul] at this
  omega

/-- A box of rows and slices, in the order of its offsets. -/
theorem flatMap_box {width rows slices : ℕ} {F : ℕ → ℕ → ℕ → β} {f : ℕ → β}
    (hF : ∀ k < slices, ∀ j < rows, ∀ i < width, F k j i = f ((k * rows + j) * width + i)) :
    ((List.range slices).flatMap fun k => (List.range rows).flatMap fun j =>
      (List.range width).map (F k j)) = (List.range (slices * rows * width)).map f := by
  rw [range_mul (slices * rows), range_mul slices, map_flatMap, flatMap_assoc]
  refine flatMap_congr fun k hk => ?_
  rw [flatMap_map]
  refine flatMap_congr fun j hj => ?_
  rw [map_map]
  refine map_congr_left fun i hi => ?_
  exact hF k (mem_range.mp hk) j (mem_range.mp hj) i (mem_range.mp hi)

/-- A byte in a row, a row in a slice, and a slice. -/
structure Position where
  x : ℕ
  row : ℕ
  slice : ℕ

/-- Take an offset apart. -/
def position (width rows offset : ℕ) : Position :=
  let rowIndex := offset / width
  let slice := rowIndex / rows
  ⟨offset - rowIndex * width, rowIndex - slice * rows, slice⟩

theorem mul_add_div_of_lt {q n x : ℕ} (hx : x < n) : (q * n + x) / n = q := by
  rw [mul_comm, mul_add_div (zero_lt_of_lt hx), div_eq_of_lt hx, add_zero]

theorem position_eq {width rows x row slice : ℕ} (hx : x < width) (hrow : row < rows) :
    position width rows ((slice * rows + row) * width + x) = ⟨x, row, slice⟩ := by
  simp only [position, mul_add_div_of_lt hx, mul_add_div_of_lt hrow]
  congr 1 <;> omega

/-- Every offset is the one of its position. -/
theorem offset_eq {width rows : ℕ} (hwidth : 0 < width) (hrows : 0 < rows) (offset : ℕ) :
    ∃ x < width, ∃ row < rows, ∃ slice, offset = (slice * rows + row) * width + x := by
  refine ⟨offset % width, mod_lt _ hwidth, offset / width % rows, mod_lt _ hrows,
    offset / width / rows, ?_⟩
  rw [div_add_mod', div_add_mod']

end Box

end Lupine.Foundations
