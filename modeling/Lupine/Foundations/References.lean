import Mathlib.Data.Set.Card

/-!
# Counting the references to an object

A map `f : κ → Option ο` gives each key at most one object. `HeldBy f o n` says that exactly `n`
keys hold the object `o`; a reference count is right when it is such an `n`. The rules below say
what storing an object under a key and clearing a key do to the count. Several maps over one kind
of object are one map over the sum of their keys.
-/

namespace Lupine.Foundations

open Function

variable {κ ο : Type*}
variable {k : κ}

/-- The keys that hold an object. -/
def holders (f : κ → Option ο) (o : ο) : Set κ := {k | f k = some o}

@[simp] theorem mem_holders {f : κ → Option ο} {o : ο} : k ∈ holders f o ↔ f k = some o :=
  Iff.rfl

/-- What a map holds after one key was changed was put there or was there before. -/
theorem update_eq_some [DecidableEq κ] {f : κ → Option ο} {j : κ} {v : Option ο} {o : ο}
    (h : update f k v j = some o) : v = some o ∨ f j = some o := by
  rcases eq_or_ne j k with rfl | hne
  · rw [update_self] at h
    exact .inl h
  · rw [update_of_ne hne] at h
    exact .inr h

/-- The object is held by exactly `n` keys. -/
def HeldBy (f : κ → Option ο) (o : ο) (n : ℕ) : Prop := (holders f o).encard = n

namespace HeldBy

variable {f g : κ → Option ο} {o : ο} {n : ℕ}

theorem congr (h : HeldBy f o n) (hfg : ∀ k, g k = some o ↔ f k = some o) : HeldBy g o n := by
  have hset : holders g o = holders f o := Set.ext hfg
  rw [HeldBy, hset]
  exact h

theorem zero_iff : HeldBy f o 0 ↔ ∀ k, f k ≠ some o := by
  rw [HeldBy, Nat.cast_zero, Set.encard_eq_zero, Set.eq_empty_iff_forall_notMem]
  rfl

theorem pos_of_holds (h : HeldBy f o n) (hk : f k = some o) : 0 < n := by
  rcases Nat.eq_zero_or_pos n with rfl | hpos
  · exact absurd hk (zero_iff.mp h k)
  · exact hpos

theorem eq_zero_iff (h : HeldBy f o n) : n = 0 ↔ ∀ k, f k ≠ some o := by
  constructor
  · rintro rfl
    exact zero_iff.mp h
  · intro hnone
    have hzero : HeldBy f o 0 := zero_iff.mpr hnone
    exact_mod_cast h.symm.trans hzero

section Update

variable [DecidableEq κ]

/-- A key that does not hold the object takes it. -/
theorem store (h : HeldBy f o n) (hk : f k ≠ some o) : HeldBy (update f k (some o)) o (n + 1) := by
  have hset : holders (update f k (some o)) o = insert k (holders f o) := by
    ext j
    by_cases hj : j = k <;> simp [hj]
  have hmem : k ∉ holders f o := hk
  rw [HeldBy, hset, Set.encard_insert_of_notMem hmem, h]
  norm_cast

/-- A key that holds the object gives it up. -/
theorem drop (h : HeldBy f o (n + 1)) (hk : f k = some o) {v : Option ο} (hv : v ≠ some o) :
    HeldBy (update f k v) o n := by
  have hset : holders (update f k v) o = holders f o \ {k} := by
    ext j
    by_cases hj : j = k <;> simp [hj, hv]
  have hcard := Set.encard_sdiff_singleton_add_one (a := k) (s := holders f o) hk
  rw [← hset, h, Nat.cast_add, Nat.cast_one] at hcard
  exact WithTop.add_right_cancel ENat.one_ne_top hcard

/-- A key that does not hold the object changes to another value that is not the object. -/
theorem other (h : HeldBy f o n) (hk : f k ≠ some o) {v : Option ο} (hv : v ≠ some o) :
    HeldBy (update f k v) o n := by
  refine h.congr fun j => ?_
  by_cases hj : j = k
  · subst hj
    simp [hk, hv]
  · simp [hj]

/-- A key gives what it holds to a key that does not hold the object. -/
theorem move (h : HeldBy f o n) {j : κ} (hj : f j ≠ some o) :
    HeldBy (update (update f k none) j (f k)) o n := by
  have hempty : update f k none j ≠ some o := by
    rcases eq_or_ne j k with rfl | hjk
    · simp
    · rwa [update_of_ne hjk]
  by_cases hk : f k = some o
  · obtain ⟨m, rfl⟩ := Nat.exists_eq_succ_of_ne_zero (h.pos_of_holds hk).ne'
    rw [hk]
    exact (h.drop hk (by simp)).store hempty
  · exact (h.other hk (by simp)).other hempty hk

end Update

end HeldBy

end Lupine.Foundations
