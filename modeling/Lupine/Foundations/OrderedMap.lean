import Mathlib.Data.List.Nodup
import Mathlib.Data.List.Sort
import Mathlib.Logic.Function.Basic

/-!
# Ordered maps

Maps kept as lists of entries in strictly ascending order of their keys, with the two ways of
cutting them at a key, and neighbouring entries.

* `find_insert` and `find_erase`: the operations, as updates of a function.
* `below_append_atLeast` and `upTo_append_above`: the two cuts.
* `floor_eq_some_iff`: the last entry up to a key.
* `adjacentPairs_append`: the neighbours in a list that is put together.
-/

namespace Lupine.Foundations

open List

/-! ## Neighbours -/

section Neighbours

variable {α : Type}

/-- The pairs of elements that follow each other. -/
def adjacentPairs (l : List α) : List (α × α) := l.zip l.tail

/-- The pair at the joint of two lists, from the last element of one and the first of the other. -/
def joint : Option α → Option α → List (α × α)
  | some a, some b => [(a, b)]
  | _, _ => []

@[simp] theorem joint_none_left (b : Option α) : joint none b = [] := rfl

@[simp] theorem joint_none_right (a : Option α) : joint a none = [] := by cases a <;> rfl

theorem adjacentPairs_cons (a : α) (l : List α) :
    adjacentPairs (a :: l) = joint (some a) l.head? ++ adjacentPairs l := by
  cases l <;> rfl

theorem adjacentPairs_append (l m : List α) :
    adjacentPairs (l ++ m) = adjacentPairs l ++ (joint l.getLast? m.head? ++ adjacentPairs m) := by
  induction l with
  | nil => rfl
  | cons a l ih =>
    rw [cons_append, adjacentPairs_cons, adjacentPairs_cons, ih]
    cases l with
    | nil => simp [adjacentPairs]
    | cons b l => simp

theorem length_adjacentPairs_le (l : List α) : (adjacentPairs l).length ≤ l.length - 1 := by
  rw [adjacentPairs, length_zip, length_tail]
  exact Nat.min_le_right _ _

/-- A transitive relation that holds between neighbours holds everywhere. -/
theorem pairwise_of_adjacentPairs {r : α → α → Prop} [Trans r r r] {l : List α}
    (h : ∀ p ∈ adjacentPairs l, r p.1 p.2) : l.Pairwise r := by
  rw [← isChain_iff_pairwise]
  induction l with
  | nil => exact .nil
  | cons a l ih =>
    rw [adjacentPairs_cons] at h
    have htail := ih fun p hp => h p (mem_append_right _ hp)
    cases l with
    | nil => exact .singleton a
    | cons b l => exact .cons_cons (h (a, b) mem_cons_self) htail

end Neighbours

/-! ## Maps -/

/-- A map in ascending order of its keys. -/
structure OrderedMap (κ ν : Type) [LinearOrder κ] where
  entries : List (κ × ν)
  sorted : entries.Pairwise fun e f => e.1 < f.1

namespace OrderedMap

variable {κ ν : Type} [LinearOrder κ]
variable {e : κ × ν}

def empty : OrderedMap κ ν := ⟨[], .nil⟩

variable (m : OrderedMap κ ν) (k : κ)

/-- The entries before `lower_bound`. -/
def below : List (κ × ν) := m.entries.filter fun e => e.1 < k

/-- The entries from `lower_bound` on. -/
def atLeast : List (κ × ν) := m.entries.filter fun e => k ≤ e.1

/-- The entries before `upper_bound`. -/
def upTo : List (κ × ν) := m.entries.filter fun e => e.1 ≤ k

/-- The entries from `upper_bound` on. -/
def above : List (κ × ν) := m.entries.filter fun e => k < e.1

def find : Option ν := (m.entries.find? fun e => e.1 = k).map Prod.snd

/-- The last entry up to a key. -/
def floor : Option (κ × ν) := (m.upTo k).getLast?

variable {m k}

@[simp] theorem mem_below : e ∈ m.below k ↔ e ∈ m.entries ∧ e.1 < k := by
  simp [below]

@[simp] theorem mem_upTo : e ∈ m.upTo k ↔ e ∈ m.entries ∧ e.1 ≤ k := by
  simp [upTo]

@[simp] theorem mem_above : e ∈ m.above k ↔ e ∈ m.entries ∧ k < e.1 := by
  simp [above]

variable (m k)

/-- Replaces what is there. -/
def insert (v : ν) : OrderedMap κ ν where
  entries := m.below k ++ (k, v) :: m.above k
  sorted := by
    refine List.pairwise_append.mpr ⟨m.sorted.filter _, List.pairwise_cons.mpr
      ⟨fun e he => (mem_above.mp he).2, m.sorted.filter _⟩, fun e he f hf => ?_⟩
    have hlt := (mem_below.mp he).2
    rcases List.mem_cons.mp hf with rfl | hf
    · exact hlt
    · exact hlt.trans (mem_above.mp hf).2

def erase : OrderedMap κ ν where
  entries := m.below k ++ m.above k
  sorted := List.pairwise_append.mpr ⟨m.sorted.filter _, m.sorted.filter _, fun _ he _ hf =>
    (mem_below.mp he).2.trans (mem_above.mp hf).2⟩

variable {m k}

theorem mem_insert {v : ν} : e ∈ (m.insert k v).entries ↔ e = (k, v) ∨ e ∈ m.entries ∧ e.1 ≠ k := by
  simp only [insert, mem_append, mem_cons, mem_below, mem_above, ne_iff_lt_or_gt]
  tauto

theorem mem_erase : e ∈ (m.erase k).entries ↔ e ∈ m.entries ∧ e.1 ≠ k := by
  simp only [erase, mem_append, mem_below, mem_above, ne_iff_lt_or_gt]
  tauto

/-- A key has one entry. -/
theorem eq_of_mem_of_mem {f : κ × ν} (he : e ∈ m.entries) (hf : f ∈ m.entries) (heq : e.1 = f.1) :
    e = f := by
  have hnodup : (m.entries.map Prod.fst).Nodup :=
    pairwise_map.mpr (m.sorted.imp fun h => ne_of_lt h)
  exact inj_on_of_nodup_map hnodup he hf heq

/-! ## Lookup -/

theorem find_eq_some_iff {v : ν} : m.find k = some v ↔ (k, v) ∈ m.entries := by
  rw [find, Option.map_eq_some_iff]
  constructor
  · rintro ⟨⟨k', v'⟩, hfind, rfl⟩
    have hkey : k' = k := by simpa using List.find?_some hfind
    exact hkey ▸ mem_of_find?_eq_some hfind
  · intro hmem
    obtain ⟨e, hfind⟩ : ∃ e, m.entries.find? (fun e => e.1 = k) = some e := by
      rw [← Option.isSome_iff_exists, List.find?_isSome]
      exact ⟨(k, v), hmem, by simp⟩
    have hkey : e.1 = k := by simpa using List.find?_some hfind
    exact ⟨e, hfind, by rw [eq_of_mem_of_mem (mem_of_find?_eq_some hfind) hmem hkey]⟩

theorem find_eq_none_iff : m.find k = none ↔ ∀ e ∈ m.entries, e.1 ≠ k := by
  simp [find]

/-- Two maps that find the same. -/
theorem find_ext {f : κ → Option ν} (h : ∀ k v, (k, v) ∈ m.entries ↔ f k = some v) :
    m.find = f := by
  funext k
  refine Option.ext fun v => ?_
  rw [find_eq_some_iff]
  exact h k v

theorem find_insert (v : ν) : (m.insert k v).find = Function.update m.find k (some v) := by
  refine find_ext fun k' v' => ?_
  rw [mem_insert, Prod.mk.injEq]
  rcases eq_or_ne k' k with rfl | hne
  · simp [eq_comm]
  · simp [hne, find_eq_some_iff]

theorem find_erase : (m.erase k).find = Function.update m.find k none := by
  refine find_ext fun k' v' => ?_
  rw [mem_erase]
  rcases eq_or_ne k' k with rfl | hne
  · simp
  · simp [hne, find_eq_some_iff]

/-! ## Cuts -/

/-- What satisfies a condition comes first. -/
theorem filter_append_filter_not {α : Type} {p : α → Bool} {l : List α}
    (h : l.Pairwise fun a b => p b = true → p a = true) :
    l.filter p ++ l.filter (fun a => !p a) = l := by
  induction l with
  | nil => rfl
  | cons a l ih =>
    obtain ⟨hhead, htail⟩ := pairwise_cons.mp h
    cases hp : p a with
    | true => simp [hp, ih htail]
    | false =>
      have hnone : ∀ b ∈ l, p b = false := fun b hb => by
        rw [Bool.eq_false_iff]
        intro hpb
        rw [hhead b hb hpb] at hp
        cases hp
      have hfirst : l.filter p = [] := filter_eq_nil_iff.mpr fun b hb => by simp [hnone b hb]
      have hrest : l.filter (fun a => !p a) = l :=
        filter_eq_self.mpr fun b hb => by simp [hnone b hb]
      simp [hp, hfirst, hrest]

theorem below_append_atLeast (m : OrderedMap κ ν) (k : κ) :
    m.below k ++ m.atLeast k = m.entries := by
  have hsorted : m.entries.Pairwise fun e f => decide (f.1 < k) = true → decide (e.1 < k) = true :=
    m.sorted.imp fun hlt hf => by simpa using hlt.trans (by simpa using hf)
  have hrest : m.atLeast k = m.entries.filter fun e => !decide (e.1 < k) :=
    filter_congr fun e _ => by rw [← decide_not, decide_eq_decide, not_lt]
  rw [hrest]
  exact filter_append_filter_not hsorted

/-- The entries around a key that has none. -/
theorem atLeast_eq_above (h : m.find k = none) : m.atLeast k = m.above k := by
  refine filter_congr fun e he => ?_
  have hne := find_eq_none_iff.mp h e he
  simp [le_iff_lt_or_eq, hne.symm]

/-- The entries around a key that has one. -/
theorem entries_eq_of_find {v : ν} (h : m.find k = some v) :
    m.entries = m.below k ++ (k, v) :: m.above k := by
  have hinsert : (m.insert k v).entries = m.entries := by
    refine List.Pairwise.eq_of_mem_iff (m.insert k v).sorted m.sorted fun e => ?_
    rw [mem_insert]
    constructor
    · rintro (rfl | he)
      · exact find_eq_some_iff.mp h
      · exact he.1
    · intro he
      rcases eq_or_ne e.1 k with heq | hne
      · exact .inl (eq_of_mem_of_mem he (find_eq_some_iff.mp h) heq)
      · exact .inr ⟨he, hne⟩
  exact hinsert.symm

/-! ## The last entry up to a key -/

theorem getLast?_eq_some_iff {l : List (κ × ν)} (hl : l.Pairwise fun e f => e.1 < f.1) :
    l.getLast? = some e ↔ e ∈ l ∧ ∀ f ∈ l, f.1 ≤ e.1 := by
  rw [List.getLast?_eq_some_iff]
  constructor
  · rintro ⟨l, rfl⟩
    refine ⟨by simp, fun f hf => ?_⟩
    rcases mem_append.mp hf with hf | hf
    · exact ((pairwise_append.mp hl).2.2 f hf e (by simp)).le
    · rw [mem_singleton.mp hf]
  · rintro ⟨he, hmax⟩
    obtain ⟨l₁, l₂, rfl⟩ := append_of_mem he
    cases l₂ with
    | nil => exact ⟨l₁, rfl⟩
    | cons f l₂ =>
      have hlt : e.1 < f.1 :=
        (pairwise_cons.mp (pairwise_append.mp hl).2.1).1 f mem_cons_self
      exact absurd (hmax f (by simp)) hlt.not_ge

theorem floor_eq_some_iff :
    m.floor k = some e ↔
      e ∈ m.entries ∧ e.1 ≤ k ∧ ∀ f ∈ m.entries, f.1 ≤ k → f.1 ≤ e.1 := by
  have hsorted : (m.upTo k).Pairwise fun e f => e.1 < f.1 := m.sorted.filter _
  rw [floor, getLast?_eq_some_iff hsorted, mem_upTo]
  constructor
  · rintro ⟨⟨he, hle⟩, hmax⟩
    exact ⟨he, hle, fun f hf hfk => hmax f (mem_upTo.mpr ⟨hf, hfk⟩)⟩
  · rintro ⟨he, hle, hmax⟩
    exact ⟨⟨he, hle⟩, fun f hf => hmax f (mem_upTo.mp hf).1 (mem_upTo.mp hf).2⟩

end OrderedMap

end Lupine.Foundations
