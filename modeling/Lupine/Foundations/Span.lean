import Mathlib.Data.List.Sort
import Mathlib.Order.Defs.LinearOrder

/-!
# Half-open ranges of offsets

Ranges `[start, stop)` of byte offsets, with the two things a page-granular tracker does to them:
sorting and merging a list of ranges (`mergeSpans`, which covers exactly the same offsets,
`covered_mergeSpans`), and rounding a range outwards to pages (`Span.Touches`).
-/

namespace Lupine.Foundations

/-- The offsets from `start` up to, but not including, `stop`. -/
structure Span where
  start : ℕ
  stop : ℕ
  deriving DecidableEq, Repr

namespace Span

/-- The range contains the offset. -/
def Covers (r : Span) (o : ℕ) : Prop := r.start ≤ o ∧ o < r.stop

instance (r : Span) (o : ℕ) : Decidable (r.Covers o) := inferInstanceAs (Decidable (_ ∧ _))

/-- The order in which ranges are merged: by start, then by end. -/
def Le (r q : Span) : Prop := r.start < q.start ∨ r.start = q.start ∧ r.stop ≤ q.stop

instance : DecidableRel Le := fun _ _ => inferInstanceAs (Decidable (_ ∨ _))

instance : Std.Total Le := ⟨fun r q => by unfold Le; omega⟩

instance : IsTrans Span Le := ⟨fun r q p h₁ h₂ => by unfold Le at *; omega⟩

theorem start_le_of_le {r q : Span} (h : r.Le q) : r.start ≤ q.start := by
  unfold Le at h
  omega

end Span

variable {rs : List Span}

/-- Some range of the list contains the offset. -/
def Covered (rs : List Span) (o : ℕ) : Prop := ∃ r ∈ rs, r.Covers o

instance (rs : List Span) (o : ℕ) : Decidable (Covered rs o) :=
  inferInstanceAs (Decidable (∃ r ∈ rs, r.Covers o))

@[simp] theorem covered_nil (o : ℕ) : ¬ Covered [] o := by simp [Covered]

@[simp] theorem covered_cons {r : Span} {o : ℕ} :
    Covered (r :: rs) o ↔ r.Covers o ∨ Covered rs o := by simp [Covered]

theorem covered_of_perm {qs : List Span} (h : rs.Perm qs) {o : ℕ} :
    Covered rs o ↔ Covered qs o := by
  simp only [Covered, h.mem_iff]

/-! ## Merging -/

/-- Add a range to the merged ones, the last of which stands first: extend the last one unless
there is a gap before the new range. -/
def mergeInto : List Span → Span → List Span
  | [], r => [r]
  | last :: done, r =>
    if last.stop < r.start then r :: last :: done
    else { last with stop := max last.stop r.stop } :: done

/-- Sort the ranges and merge those that overlap or touch. -/
def mergeSpans (rs : List Span) : List Span :=
  ((rs.insertionSort Span.Le).foldl mergeInto []).reverse

theorem covered_mergeInto {acc : List Span} {r : Span} (h : ∀ q ∈ acc.head?, q.start ≤ r.start)
    {o : ℕ} : Covered (mergeInto acc r) o ↔ Covered acc o ∨ r.Covers o := by
  cases acc with
  | nil => simp [mergeInto]
  | cons last done =>
    have hstart : last.start ≤ r.start := h last (by simp)
    rw [mergeInto]
    split
    · rw [covered_cons, or_comm]
    · rw [covered_cons, covered_cons]
      -- without a gap the extended range is the union of the two
      have hunion : Span.Covers { last with stop := max last.stop r.stop } o ↔
          last.Covers o ∨ r.Covers o := by
        simp only [Span.Covers]
        omega
      rw [hunion]
      tauto

theorem head_mergeInto_le {acc : List Span} {r p : Span} (h : ∀ q ∈ acc.head?, q.start ≤ p.start)
    (hr : r.start ≤ p.start) : ∀ q ∈ (mergeInto acc r).head?, q.start ≤ p.start := by
  cases acc with
  | nil => simpa [mergeInto] using hr
  | cons last done =>
    rw [mergeInto]
    split
    · simpa using hr
    · simpa using h

theorem covered_foldl_mergeInto {acc : List Span} (hsorted : rs.Pairwise Span.Le)
    (hacc : ∀ r ∈ rs, ∀ q ∈ acc.head?, q.start ≤ r.start) {o : ℕ} :
    Covered (rs.foldl mergeInto acc) o ↔ Covered acc o ∨ Covered rs o := by
  induction rs generalizing acc with
  | nil => simp
  | cons r rs ih =>
    obtain ⟨hr, hrs⟩ := List.pairwise_cons.mp hsorted
    have hhead : ∀ p ∈ rs, ∀ q ∈ (mergeInto acc r).head?, q.start ≤ p.start := fun p hp =>
      head_mergeInto_le (hacc p (by simp [hp])) (Span.start_le_of_le (hr p hp))
    rw [List.foldl_cons, ih hrs hhead, covered_mergeInto (hacc r (by simp)), covered_cons, or_assoc]

/-- Merging changes the ranges, not the offsets. -/
theorem covered_mergeSpans {o : ℕ} : Covered (mergeSpans rs) o ↔ Covered rs o := by
  have hsorted : (rs.insertionSort Span.Le).Pairwise Span.Le := List.pairwise_insertionSort _ _
  rw [mergeSpans, covered_of_perm (List.reverse_perm _), covered_foldl_mergeInto hsorted (by simp),
    covered_of_perm (List.perm_insertionSort _ _)]
  simp

/-! ## Pages -/

/-- The page with this index has an offset in the range, or would have one if the range were not
empty: what rounding both ends outwards to pages of `size` selects. -/
def Span.Touches (r : Span) (size page : ℕ) : Prop := r.start / size ≤ page ∧ page * size < r.stop

instance (r : Span) (size page : ℕ) : Decidable (r.Touches size page) :=
  inferInstanceAs (Decidable (_ ∧ _))

theorem Span.Covers.touches {r : Span} {o : ℕ} (h : r.Covers o) (size : ℕ) :
    r.Touches size (o / size) :=
  ⟨Nat.div_le_div_right h.1, (Nat.div_mul_le_self o size).trans_lt h.2⟩

/-- A range between page boundaries contains every offset of the pages it touches. -/
theorem Span.Touches.covers {r : Span} {o size : ℕ} (hsize : 0 < size) (hstart : size ∣ r.start)
    (hstop : size ∣ r.stop) (h : r.Touches size (o / size)) : r.Covers o := by
  obtain ⟨hle, hlt⟩ := h
  obtain ⟨k, hk⟩ := hstart
  obtain ⟨m, hm⟩ := hstop
  rw [hk, Nat.mul_div_cancel_left k hsize, Nat.le_div_iff_mul_le hsize] at hle
  rw [hm, Nat.mul_comm size m, Nat.mul_lt_mul_right hsize, Nat.div_lt_iff_lt_mul hsize] at hlt
  constructor
  · rw [hk, Nat.mul_comm]
    exact hle
  · rw [hm, Nat.mul_comm]
    exact hlt

end Lupine.Foundations
