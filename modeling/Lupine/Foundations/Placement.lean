import Mathlib.Data.List.Basic
import Mathlib.Data.List.Nodup
import Mathlib.Data.List.Perm.Basic

/-!
# Things in places

A family of lists, one for each place, in which every thing occurs in one place only and once
there (`Placed`). Moving things from wherever they are to the end of the list of one place keeps
this (`Placed.move`), and so does adding new ones.
-/

namespace Lupine.Foundations

open List

variable {P α : Type*} {l l' : P → List α} {q : P} {moved : List α}
variable {a : α}

/-- Every thing is in one place at most, and once there. -/
structure Placed (l : P → List α) : Prop where
  nodup : ∀ p, (l p).Nodup
  unique : ∀ p q a, a ∈ l p → a ∈ l q → p = q

/-- Things are moved to the end of the list of `q`: they leave their old places, and everything
else stays. -/
structure Moves (l l' : P → List α) (q : P) (moved : List α) : Prop where
  sublist : ∀ p ≠ q, (l' p).Sublist (l p)
  target : l' q = l q ++ moved
  nodup : moved.Nodup
  fresh : ∀ a ∈ moved, a ∉ l q
  gone : ∀ a ∈ moved, ∀ p ≠ q, a ∉ l' p
  kept : ∀ p ≠ q, ∀ a ∈ l p, a ∈ l' p ∨ a ∈ moved

theorem Moves.subset (h : Moves l l' q moved) {p : P} (ha : a ∈ l' p) :
    a ∈ l p ∨ p = q ∧ a ∈ moved := by
  by_cases hp : p = q
  · subst hp
    rw [h.target, mem_append] at ha
    exact ha.imp_right fun ha => ⟨rfl, ha⟩
  · exact .inl ((h.sublist p hp).subset ha)

theorem Placed.move (hl : Placed l) (h : Moves l l' q moved) : Placed l' where
  nodup p := by
    by_cases hp : p = q
    · subst hp
      rw [h.target]
      exact (hl.nodup p).append h.nodup fun a ha hm => h.fresh a hm ha
    · exact (hl.nodup p).sublist (h.sublist p hp)
  unique p p' a ha ha' := by
    rcases h.subset ha with hp | ⟨rfl, hm⟩
    · rcases h.subset ha' with hp' | ⟨rfl, hm⟩
      · exact hl.unique p p' a hp hp'
      · by_contra hne
        exact h.gone a hm p hne ha
    · by_contra hne
      exact h.gone a hm p' (Ne.symm hne) ha'

/-- Everything in `p` goes to `q`. -/
theorem Moves.transfer (hl : Placed l) {p : P} (hpq : p ≠ q) (hp : l' p = [])
    (hq : l' q = l q ++ l p) (hother : ∀ p', p' ≠ p → p' ≠ q → l' p' = l p') :
    Moves l l' q (l p) where
  sublist p' hne := by
    by_cases h : p' = p
    · rw [h, hp]
      exact nil_sublist _
    · rw [hother p' h hne]
  target := hq
  nodup := hl.nodup p
  fresh a ha hq' := hpq (hl.unique p q a ha hq')
  gone a ha p' hne ha' := by
    by_cases h : p' = p
    · rw [h, hp] at ha'
      exact not_mem_nil ha'
    · rw [hother p' h hne] at ha'
      exact h (hl.unique p' p a ha' ha)
  kept p' hne a ha := by
    by_cases h : p' = p
    · exact .inr (h ▸ ha)
    · exact .inl (by rwa [hother p' h hne])

/-- New things come to `q`. -/
theorem Moves.add (hq : l' q = l q ++ moved) (hother : ∀ p ≠ q, l' p = l p) (hnodup : moved.Nodup)
    (hnew : ∀ a ∈ moved, ∀ p, a ∉ l p) : Moves l l' q moved where
  sublist p hne := by rw [hother p hne]
  target := hq
  nodup := hnodup
  fresh a ha := hnew a ha q
  gone a ha p hne := by
    rw [hother p hne]
    exact hnew a ha p
  kept p hne a ha := .inl (by rwa [hother p hne])

/-- Things are gathered from the places `f i`, each of which is split into what remains and what is
taken. -/
theorem Moves.gather {ι : Type*} (hl : Placed l) {f : ι → P} (hf : f.Injective)
    (hq : ∀ i, f i ≠ q) {keys : List ι} (hkeys : keys.Nodup) {taken : ι → List α}
    (hsub : ∀ i, (l' (f i)).Sublist (l (f i)))
    (hperm : ∀ i, (l' (f i) ++ taken i).Perm (l (f i))) (hall : ∀ i, taken i ≠ [] → i ∈ keys)
    (hother : ∀ p ≠ q, (∀ i, p ≠ f i) → l' p = l p)
    (htarget : l' q = l q ++ keys.flatMap taken) : Moves l l' q (keys.flatMap taken) := by
  have hnodup : ∀ i, (l' (f i) ++ taken i).Nodup := fun i =>
    (hperm i).nodup_iff.mpr (hl.nodup (f i))
  have hmem : ∀ i, ∀ a ∈ taken i, a ∈ l (f i) := fun i a ha =>
    (hperm i).mem_iff.mp (mem_append_right _ ha)
  -- every place but `q` is split or untouched
  have hsplit : ∀ p ≠ q, (∃ i, p = f i) ∨ (∀ i, p ≠ f i) ∧ l' p = l p := by
    intro p hp
    by_cases h : ∃ i, p = f i
    · exact .inl h
    · rw [not_exists] at h
      exact .inr ⟨h, hother p hp h⟩
  constructor
  · intro p hp
    rcases hsplit p hp with ⟨i, rfl⟩ | ⟨-, h⟩
    · exact hsub i
    · rw [h]
  · exact htarget
  · refine nodup_flatMap.mpr ⟨fun i _ => (hnodup i).of_append_right, ?_⟩
    exact hkeys.imp fun {i j} hne a ha ha' =>
      hne (hf (hl.unique _ _ a (hmem i a ha) (hmem j a ha')))
  · intro a ha hq'
    obtain ⟨i, -, ha⟩ := mem_flatMap.mp ha
    exact hq i (hl.unique _ _ a (hmem i a ha) hq')
  · intro a ha p hp hp'
    obtain ⟨i, -, ha⟩ := mem_flatMap.mp ha
    rcases hsplit p hp with ⟨j, rfl⟩ | ⟨hne, h⟩
    · obtain rfl := hf (hl.unique _ _ a (hmem i a ha) ((hsub j).subset hp'))
      exact disjoint_of_nodup_append (hnodup i) hp' ha
    · rw [h] at hp'
      exact hne i (hl.unique _ _ a hp' (hmem i a ha))
  · intro p hp a ha
    rcases hsplit p hp with ⟨i, rfl⟩ | ⟨-, h⟩
    · rcases mem_append.mp ((hperm i).mem_iff.mpr ha) with h | h
      · exact .inl h
      · exact .inr (mem_flatMap.mpr ⟨i, hall i (ne_nil_of_mem h), h⟩)
    · exact .inl (by rwa [h])

/-- A move into a set of places. -/
theorem Moves.exists_mem_iff_or {S : P → Prop} (h : Moves l l' q moved) (hq : S q) :
    (∃ p, S p ∧ a ∈ l' p) ↔ (∃ p, S p ∧ a ∈ l p) ∨ a ∈ moved := by
  constructor
  · rintro ⟨p, hp, ha⟩
    exact (h.subset ha).imp (fun ha => ⟨p, hp, ha⟩) And.right
  · rintro (⟨p, hp, ha⟩ | ha)
    · by_cases hpq : p = q
      · exact ⟨q, hq, by rw [h.target]; exact mem_append_left _ (hpq ▸ ha)⟩
      · rcases h.kept p hpq a ha with ha | ha
        · exact ⟨p, hp, ha⟩
        · exact ⟨q, hq, by rw [h.target]; exact mem_append_right _ ha⟩
    · exact ⟨q, hq, by rw [h.target]; exact mem_append_right _ ha⟩

/-- What is somewhere afterwards was somewhere before or is new. -/
theorem Moves.exists_iff (h : Moves l l' q moved) :
    (∃ p, a ∈ l' p) ↔ (∃ p, a ∈ l p) ∨ a ∈ moved := by
  simpa using h.exists_mem_iff_or (S := fun _ => True) trivial (a := a)

/-- A move out of a set of places. -/
theorem Moves.exists_mem_iff_and {S : P → Prop} (h : Moves l l' q moved) (hq : ¬ S q) :
    (∃ p, S p ∧ a ∈ l' p) ↔ (∃ p, S p ∧ a ∈ l p) ∧ a ∉ moved := by
  have hne : ∀ {p}, S p → p ≠ q := fun hp hpq => hq (hpq ▸ hp)
  constructor
  · rintro ⟨p, hp, ha⟩
    exact ⟨⟨p, hp, (h.sublist p (hne hp)).subset ha⟩, fun hm => h.gone a hm p (hne hp) ha⟩
  · rintro ⟨⟨p, hp, ha⟩, hm⟩
    exact ⟨p, hp, (h.kept p (hne hp) a ha).resolve_right hm⟩

end Lupine.Foundations
