import Lupine.Foundations.OrderedMap

/-!
# Run-length maps

An ordered map as a function that is constant between its keys: the value at a point is that of the
last entry up to it.

* `valueAt_insert_valueAt`: a run may be cut anywhere.
* `valueAt_adjust`: changing the entries between two keys changes the points between them.
* `valueAt_mergeRuns`: equal runs may be merged.
-/

namespace Lupine.Foundations

open List

variable {κ ν : Type}

section Merge

variable [DecidableEq ν]

/-- Drops entries that continue the value before them. -/
def mergeAfter : ν → List (κ × ν) → List (κ × ν)
  | _, [] => []
  | v, e :: l => if v = e.2 then mergeAfter v l else e :: mergeAfter e.2 l

theorem mergeAfter_sublist (v : ν) (l : List (κ × ν)) : (mergeAfter v l).Sublist l := by
  induction l generalizing v with
  | nil => exact .slnil
  | cons e l ih =>
    rw [mergeAfter]
    split
    · exact (ih v).cons e
    · exact (ih e.2).cons_cons e

theorem adjacentPairs_mergeAfter (e : κ × ν) (l : List (κ × ν)) :
    ∀ pair ∈ adjacentPairs (e :: mergeAfter e.2 l), pair.1.2 ≠ pair.2.2 := by
  induction l generalizing e with
  | nil => exact fun _ hp => absurd hp not_mem_nil
  | cons f l ih =>
    rw [mergeAfter]
    split
    · exact ih e
    · rename_i hne
      intro pair hp
      rw [adjacentPairs_cons] at hp
      rcases mem_append.mp hp with hp | hp
      · rw [mem_singleton.mp hp]
        exact hne
      · exact ih f pair hp

/-- The runs of a list of entries. -/
def runs : List (κ × ν) → List (κ × ν)
  | [] => []
  | e :: l => e :: mergeAfter e.2 l

theorem runs_sublist (l : List (κ × ν)) : (runs l).Sublist l := by
  cases l with
  | nil => exact .slnil
  | cons e l => exact (mergeAfter_sublist e.2 l).cons_cons e

end Merge

variable [LinearOrder κ]

/-! ## Values -/

/-- The value of the last entry up to a point, or `v`. -/
def valueFrom (v : ν) (q : κ) (l : List (κ × ν)) : ν :=
  ((l.filter fun e => e.1 ≤ q).getLast?.map Prod.snd).getD v

theorem valueFrom_cons (v : ν) (q : κ) (e : κ × ν) (l : List (κ × ν)) :
    valueFrom v q (e :: l) = if e.1 ≤ q then valueFrom e.2 q l else valueFrom v q l := by
  unfold valueFrom
  split
  · rename_i hle
    rw [filter_cons_of_pos (by simpa using hle), List.getLast?_cons]
    cases (l.filter fun e => e.1 ≤ q).getLast? <;> rfl
  · rename_i hle
    rw [filter_cons_of_neg (by simpa using hle)]

theorem valueFrom_of_lt {v : ν} {q : κ} {l : List (κ × ν)} (h : ∀ e ∈ l, q < e.1) :
    valueFrom v q l = v := by
  have hnil : (l.filter fun e => e.1 ≤ q) = [] :=
    filter_eq_nil_iff.mpr fun e he => by simpa using h e he
  rw [valueFrom, hnil]
  rfl

theorem valueFrom_mergeAfter [DecidableEq ν] {v : ν} {q : κ} {l : List (κ × ν)}
    (hl : l.Pairwise fun e f => e.1 < f.1) : valueFrom v q (mergeAfter v l) = valueFrom v q l := by
  induction l generalizing v with
  | nil => rfl
  | cons e l ih =>
    obtain ⟨hhead, htail⟩ := pairwise_cons.mp hl
    rw [mergeAfter, valueFrom_cons]
    split
    · rename_i heq
      rw [ih htail, ← heq, ite_self]
    · rw [valueFrom_cons, ih htail]
      split
      · rfl
      · -- the runs that follow begin later still
        rename_i hlt
        have hlater : ∀ f ∈ l, q < f.1 := fun f hf => (not_le.mp hlt).trans (hhead f hf)
        rw [valueFrom_of_lt hlater,
          valueFrom_of_lt fun f hf => hlater f ((mergeAfter_sublist e.2 l).subset hf)]

namespace OrderedMap

variable (m : OrderedMap κ ν)

/-- The value of the run that a point is in. There may be none at the start. -/
def valueAt (v : ν) (q : κ) : ν := ((m.floor q).map Prod.snd).getD v

theorem valueAt_eq_of_floor {m : OrderedMap κ ν} {v : ν} {q : κ} {e : κ × ν}
    (h : m.floor q = some e) : m.valueAt v q = e.2 := by
  rw [valueAt, h]
  rfl

/-! ## Cutting -/

/-- The new entry is the last one up to a point, unless there is a later one. -/
theorem floor_insert (k : κ) (w : ν) (q : κ) :
    (m.insert k w).floor q =
      if k ≤ q ∧ ∀ e ∈ m.entries, e.1 ≤ q → e.1 ≤ k then some (k, w) else m.floor q := by
  split
  · rename_i h
    refine floor_eq_some_iff.mpr ⟨mem_insert.mpr (.inl rfl), h.1, fun f hf hfq => ?_⟩
    rcases mem_insert.mp hf with rfl | hf
    · exact le_rfl
    · exact h.2 f hf.1 hfq
  · rename_i h
    -- the entry is not at the key that was inserted, in either map
    have hne : ∀ e : κ × ν, e.1 ≤ q → (∀ f ∈ m.entries, f.1 ≤ q → f.1 ≠ k → f.1 ≤ e.1) →
      e.1 ≠ k := by
      rintro e heq hmax rfl
      refine h ⟨heq, fun f hf hfq => ?_⟩
      rcases eq_or_ne f.1 e.1 with hfe | hfe
      · exact hfe.le
      · exact hmax f hf hfq hfe
    refine Option.ext fun e => ?_
    rw [floor_eq_some_iff, floor_eq_some_iff]
    constructor
    · rintro ⟨he, heq, hmax⟩
      have hek := hne e heq fun f hf hfq hfk => hmax f (mem_insert.mpr (.inr ⟨hf, hfk⟩)) hfq
      have hmem : e ∈ m.entries :=
        ((mem_insert.mp he).resolve_left fun h => hek (congrArg Prod.fst h)).1
      refine ⟨hmem, heq, fun f hf hfq => ?_⟩
      rcases eq_or_ne f.1 k with rfl | hfk
      · exact hmax (f.1, w) (mem_insert.mpr (.inl rfl)) hfq
      · exact hmax f (mem_insert.mpr (.inr ⟨hf, hfk⟩)) hfq
    · rintro ⟨he, heq, hmax⟩
      have hek := hne e heq fun f hf hfq _ => hmax f hf hfq
      refine ⟨mem_insert.mpr (.inr ⟨he, hek⟩), heq, fun f hf hfq => ?_⟩
      rcases mem_insert.mp hf with rfl | hf
      · by_contra hlt
        exact h ⟨hfq, fun f hf hfq => (hmax f hf hfq).trans (not_le.mp hlt).le⟩
      · exact hmax f hf.1 hfq

/-- A run may be cut anywhere. -/
theorem valueAt_insert_valueAt (v : ν) (k : κ) :
    (m.insert k (m.valueAt v k)).valueAt v = m.valueAt v := by
  funext q
  rw [valueAt, floor_insert]
  split
  · rename_i h
    have hsame : m.upTo q = m.upTo k := filter_congr fun e he => by
      rw [decide_eq_decide]
      exact ⟨h.2 e he, fun hek => hek.trans h.1⟩
    change m.valueAt v k = m.valueAt v q
    rw [valueAt, valueAt, floor, floor, hsame]
  · rfl

/-! ## Changing -/

/-- Changes the entries at some keys. -/
def adjust (p : κ → Prop) [DecidablePred p] (f : ν → ν) : OrderedMap κ ν where
  entries := m.entries.map fun e => (e.1, if p e.1 then f e.2 else e.2)
  sorted := List.pairwise_map.mpr m.sorted

theorem floor_adjust (p : κ → Prop) [DecidablePred p] (f : ν → ν) (q : κ) :
    (m.adjust p f).floor q = (m.floor q).map fun e => (e.1, if p e.1 then f e.2 else e.2) := by
  simp only [floor, upTo, adjust, filter_map, List.getLast?_map]
  rfl

theorem isSome_find_adjust {k : κ} (p : κ → Prop) [DecidablePred p] (f : ν → ν)
    (h : (m.find k).isSome) : ((m.adjust p f).find k).isSome := by
  obtain ⟨w, hw⟩ := Option.isSome_iff_exists.mp h
  refine Option.isSome_iff_exists.mpr ⟨if p k then f w else w, find_eq_some_iff.mpr ?_⟩
  exact mem_map.mpr ⟨(k, w), find_eq_some_iff.mp hw, rfl⟩

/-- The entries between two keys are those of the points between them. -/
theorem valueAt_adjust {a b : κ} (ha : (m.find a).isSome) (hb : (m.find b).isSome) (f : ν → ν)
    (v : ν) (q : κ) :
    (m.adjust (fun k => a ≤ k ∧ k < b) f).valueAt v q =
      if a ≤ q ∧ q < b then f (m.valueAt v q) else m.valueAt v q := by
  obtain ⟨va, ha⟩ := Option.isSome_iff_exists.mp ha
  obtain ⟨vb, hb⟩ := Option.isSome_iff_exists.mp hb
  rw [find_eq_some_iff] at ha hb
  rw [valueAt, floor_adjust]
  cases hfloor : m.floor q with
  | none =>
    -- then no key is up to the point, `a` among them
    have hlt : ¬ a ≤ q := fun haq => by
      rw [floor, List.getLast?_eq_none_iff] at hfloor
      exact not_mem_nil (hfloor ▸ mem_upTo.mpr ⟨ha, haq⟩)
    rw [if_neg fun h => hlt h.1, valueAt, hfloor]
    rfl
  | some e =>
    obtain ⟨-, heq, hmax⟩ := floor_eq_some_iff.mp hfloor
    have hiff : (a ≤ e.1 ∧ e.1 < b) ↔ (a ≤ q ∧ q < b) := by
      constructor
      · rintro ⟨hae, heb⟩
        refine ⟨hae.trans heq, lt_of_not_ge fun hbq => ?_⟩
        exact absurd (hmax _ hb hbq) heb.not_ge
      · rintro ⟨haq, hqb⟩
        exact ⟨hmax _ ha haq, heq.trans_lt hqb⟩
    rw [valueAt_eq_of_floor hfloor]
    simp only [Option.map_some, Option.getD_some, hiff]

/-! ## Merging runs -/

variable [DecidableEq ν]

/-- Erases each entry whose value is that of the entry before it. -/
def mergeRuns : OrderedMap κ ν := ⟨runs m.entries, m.sorted.sublist (runs_sublist _)⟩

theorem valueAt_mergeRuns (v : ν) : m.mergeRuns.valueAt v = m.valueAt v := by
  funext q
  change valueFrom v q (runs m.entries) = valueFrom v q m.entries
  have hsorted := m.sorted
  cases hentries : m.entries with
  | nil => rfl
  | cons e l =>
    rw [hentries] at hsorted
    obtain ⟨hhead, htail⟩ := pairwise_cons.mp hsorted
    rw [runs, valueFrom_cons, valueFrom_cons, valueFrom_mergeAfter htail]
    split
    · rfl
    · rename_i hlt
      have hlater : ∀ f ∈ l, q < f.1 := fun f hf => (not_le.mp hlt).trans (hhead f hf)
      rw [valueFrom_of_lt hlater,
        valueFrom_of_lt fun f hf => hlater f ((mergeAfter_sublist e.2 l).subset hf)]

/-- The first run stays. -/
theorem isSome_find_mergeRuns {m : OrderedMap κ ν} {k : κ} (hleast : ∀ e ∈ m.entries, k ≤ e.1)
    (h : (m.find k).isSome) : (m.mergeRuns.find k).isSome := by
  obtain ⟨w, hw⟩ := Option.isSome_iff_exists.mp h
  rw [find_eq_some_iff] at hw
  have hsorted := m.sorted
  cases hentries : m.entries with
  | nil => exact absurd (hentries ▸ hw) not_mem_nil
  | cons e l =>
    have hkey : e.1 = k := by
      refine le_antisymm ?_ (hleast e (hentries ▸ mem_cons_self))
      rw [hentries] at hw hsorted
      rcases mem_cons.mp hw with rfl | hw
      · exact le_rfl
      · exact ((pairwise_cons.mp hsorted).1 _ hw).le
    refine Option.isSome_iff_exists.mpr ⟨e.2, find_eq_some_iff.mpr ?_⟩
    change (k, e.2) ∈ runs m.entries
    rw [hentries, ← hkey]
    exact mem_cons_self

theorem adjacentPairs_mergeRuns : ∀ pair ∈ adjacentPairs m.mergeRuns.entries,
    pair.1.2 ≠ pair.2.2 := by
  change ∀ pair ∈ adjacentPairs (runs m.entries), _
  cases m.entries with
  | nil => exact fun _ hp => absurd hp not_mem_nil
  | cons e l => exact adjacentPairs_mergeAfter e l

end OrderedMap

end Lupine.Foundations
