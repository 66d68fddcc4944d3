import Mathlib.Data.List.Basic

/-!
# Executions of a guarded transition function

A system is given by `step : σ → α → Option σ`: the state after an action, or `none` when the
action is not enabled. An interleaving of threads is a list of actions, so that a statement
about every interleaving is a statement about every list that `exec` accepts.

* `exec step s as` runs the actions `as` from `s`.
* `exec_invariant` and `exec_invariant_along` are the two induction rules: an invariant kept
  by every step, or by every step that meets a condition (`Along`).
* `exec_length_le` bounds the length of the runs of a system whose steps lower a measure, and
  `exec_count_le` the number of the steps that do.
* `Trace R s as t` is a run of a step relation, with the induction rule `Trace.invariant`.
* `Precedes a b l` orders two events of a log, and `precedes_concat_iff` says what appending an
  event to the log changes.
-/

namespace Lupine.Foundations

open List

section Execution

variable {σ α : Type*} {step : σ → α → Option σ}
variable {s t : σ} {as : List α} {I : σ → Prop} {C : σ → α → Prop}

/-- A guarded step that was taken: its guard held. -/
theorem of_guarded {p : Prop} [Decidable p] (h : (if p then some s else none) = some t) :
    p ∧ t = s := by
  split at h
  case isTrue hp => exact ⟨hp, (Option.some.inj h).symm⟩
  case isFalse => cases h

/-- A computation that ends in a state with `p`, and what follows of every such state. -/
theorem exists_of_any {o : Option σ} {p P : σ → Prop} [DecidablePred p]
    (h : o.any (fun s => decide (p s)) = true) (hP : ∀ s, o = some s → p s → P s) :
    ∃ s, o = some s ∧ P s := by
  cases o with
  | none => cases h
  | some s => exact ⟨s, rfl, hP s rfl (of_decide_eq_true h)⟩

/-- What computations that all succeeded have returned, one of them has. -/
theorem exists_of_mem_mapM {β : Type*} {f : α → Option β} {ys : List β} {y : β}
    (h : as.mapM f = some ys) (hy : y ∈ ys) : ∃ a ∈ as, f a = some y := by
  induction as generalizing ys with
  | nil =>
    cases h
    exact absurd hy not_mem_nil
  | cons a as ih =>
    rw [mapM_cons] at h
    obtain ⟨z, hz, h⟩ := Option.bind_eq_some_iff.mp h
    obtain ⟨zs, hzs, h⟩ := Option.bind_eq_some_iff.mp h
    cases h
    rcases mem_cons.mp hy with rfl | hy
    · exact ⟨a, mem_cons_self, hz⟩
    · obtain ⟨a', ha', hf⟩ := ih hzs hy
      exact ⟨a', mem_cons_of_mem _ ha', hf⟩

/-- Run a list of actions, stopping with `none` at the first one that is not enabled. -/
def exec (step : σ → α → Option σ) : σ → List α → Option σ
  | s, [] => some s
  | s, a :: as => (step s a).bind fun t => exec step t as

@[simp] theorem exec_nil (s : σ) : exec step s [] = some s := rfl

theorem exec_cons (s : σ) (a : α) (as : List α) :
    exec step s (a :: as) = (step s a).bind fun t => exec step t as := rfl

theorem exec_cons_eq_some {u : σ} {a : α} :
    exec step s (a :: as) = some u ↔ ∃ t, step s a = some t ∧ exec step t as = some u := by
  rw [exec_cons, Option.bind_eq_some_iff]

theorem exec_append {bs : List α} (h : exec step s as = some t) :
    exec step s (as ++ bs) = exec step t bs := by
  induction as generalizing s with
  | nil => cases h; rfl
  | cons a as ih =>
    obtain ⟨s', hs', h⟩ := exec_cons_eq_some.mp h
    rw [cons_append, exec_cons, hs', Option.bind_some, ih h]

/-- A state that some list of actions leads to. -/
def Reachable (step : σ → α → Option σ) (s t : σ) : Prop := ∃ as, exec step s as = some t

/-- An invariant kept by every step holds after every execution. -/
theorem exec_invariant (hstep : ∀ s a t, I s → step s a = some t → I t) (hs : I s)
    (h : exec step s as = some t) : I t := by
  induction as generalizing s with
  | nil => cases h; exact hs
  | cons a as ih =>
    obtain ⟨s', hs', h⟩ := exec_cons_eq_some.mp h
    exact ih (hstep s a s' hs hs') h

theorem Reachable.invariant (hstep : ∀ s a t, I s → step s a = some t → I t)
    (h : Reachable step s t) (hs : I s) : I t := by
  obtain ⟨as, has⟩ := h
  exact exec_invariant hstep hs has

/-- Every step of the execution of `as` from `s` is taken in a state that meets `C`. -/
def Along (step : σ → α → Option σ) (C : σ → α → Prop) : σ → List α → Prop
  | _, [] => True
  | s, a :: as => C s a ∧ ∀ t, step s a = some t → Along step C t as

/-- A run can be checked step by step. -/
instance Along.decidable {C : σ → α → Prop} [∀ s a, Decidable (C s a)] :
    (s : σ) → (as : List α) → Decidable (Along step C s as)
  | _, [] => isTrue trivial
  | s, a :: as =>
    match h : step s a with
    | none => decidable_of_iff (C s a) (by simp [Along, h])
    | some t =>
      have := Along.decidable (C := C) t as
      decidable_of_iff (C s a ∧ Along step C t as) (by simp [Along, h])

theorem along_append_iff {bs : List α} (h : exec step s as = some t) :
    Along step C s (as ++ bs) ↔ Along step C s as ∧ Along step C t bs := by
  induction as generalizing s with
  | nil =>
    cases h
    simp [Along]
  | cons a as ih =>
    obtain ⟨s', hs', h⟩ := exec_cons_eq_some.mp h
    simp [Along, hs', ih h, and_assoc]

theorem Along.and {D : σ → α → Prop} (hC : Along step C s as) (hD : Along step D s as) :
    Along step (fun s a => C s a ∧ D s a) s as := by
  induction as generalizing s with
  | nil => trivial
  | cons a as ih => exact ⟨⟨hC.1, hD.1⟩, fun t ht => ih (hC.2 t ht) (hD.2 t ht)⟩

/-- An invariant kept by the steps that meet `C` holds after every execution all of whose steps
meet it. -/
theorem exec_invariant_along (hstep : ∀ s a t, I s → C s a → step s a = some t → I t) (hs : I s)
    (hC : Along step C s as) (h : exec step s as = some t) : I t := by
  induction as generalizing s with
  | nil => cases h; exact hs
  | cons a as ih =>
    obtain ⟨s', hs', h⟩ := exec_cons_eq_some.mp h
    exact ih (hstep s a s' hs hC.1 hs') (hC.2 s' hs') h

theorem Along.of_forall {C : α → Prop} (h : ∀ a ∈ as, C a) (s : σ) :
    Along step (fun _ a => C a) s as := by
  induction as generalizing s with
  | nil => trivial
  | cons a as ih =>
    exact ⟨h a mem_cons_self, fun t _ => ih (fun b hb => h b (mem_cons_of_mem a hb)) t⟩

/-- A condition that keeps an invariant gives, along every run, what it gives on the states of the
invariant. -/
theorem Along.imp_of_invariant {D : σ → α → Prop} (himp : ∀ s a, I s → C s a → D s a)
    (hstep : ∀ s a t, I s → C s a → step s a = some t → I t) (hs : I s) (hC : Along step C s as) :
    Along step D s as := by
  induction as generalizing s with
  | nil => trivial
  | cons a as ih =>
    exact ⟨himp s a hs hC.1, fun t ht => ih (hstep s a t hs hC.1 ht) (hC.2 t ht)⟩

/-- Two conditions that agree on the states of an invariant agree along every run when the first
one keeps the invariant. Both may assume of each step what `P` says. -/
theorem along_iff_along {D P : σ → α → Prop} (hiff : ∀ s a, I s → P s a → (C s a ↔ D s a))
    (hstep : ∀ s a t, I s → P s a → C s a → step s a = some t → I t) (hs : I s)
    (hP : Along step P s as) : Along step C s as ↔ Along step D s as := by
  induction as generalizing s with
  | nil => rfl
  | cons a as ih =>
    have hhead := hiff s a hs hP.1
    have htail : ∀ t, C s a → step s a = some t → (Along step C t as ↔ Along step D t as) :=
      fun t hC ht => ih (hstep s a t hs hP.1 hC ht) (hP.2 t ht)
    constructor
    · rintro ⟨hC, h⟩
      exact ⟨hhead.mp hC, fun t ht => (htail t hC ht).mp (h t ht)⟩
    · rintro ⟨hD, h⟩
      exact ⟨hhead.mpr hD, fun t ht => (htail t (hhead.mpr hD) ht).mpr (h t ht)⟩

/-- When every step lowers a measure, a run is no longer than the measure of its first state. -/
theorem exec_length_le (hstep : ∀ s a t, I s → step s a = some t → I t) {μ : σ → ℕ}
    (hμ : ∀ s a t, I s → step s a = some t → μ t < μ s) (hs : I s) (h : exec step s as = some t) :
    as.length + μ t ≤ μ s := by
  induction as generalizing s with
  | nil =>
    cases h
    simp
  | cons a as ih =>
    obtain ⟨s', hs', h⟩ := exec_cons_eq_some.mp h
    have hlt := hμ s a s' hs hs'
    have hle := ih (hstep s a s' hs hs') h
    rw [length_cons]
    omega

/-- When the internal steps lower a measure and the others raise it by at most `K`, the internal
steps of a run are bounded by the others. -/
theorem exec_count_le (internal : α → Bool) (μ : σ → ℕ) {K : ℕ}
    (hin : ∀ s a t, internal a = true → step s a = some t → μ t < μ s)
    (hout : ∀ s a t, internal a = false → step s a = some t → μ t ≤ μ s + K)
    (h : exec step s as = some t) :
    as.countP internal + μ t ≤ μ s + K * as.countP (fun a => !internal a) := by
  induction as generalizing s with
  | nil =>
    cases h
    simp
  | cons a as ih =>
    obtain ⟨s', hs', h⟩ := exec_cons_eq_some.mp h
    have hrest := ih h
    cases ha : internal a with
    | true =>
      have hlt := hin s a s' ha hs'
      rw [countP_cons_of_pos ha, countP_cons_of_neg (by simp [ha])]
      omega
    | false =>
      have hle := hout s a s' ha hs'
      rw [countP_cons_of_neg (by simp [ha]), countP_cons_of_pos (by simp [ha]), Nat.mul_add]
      omega

end Execution

/-! ## Runs of a step relation -/

section Trace

variable {σ α : Type*} {R : σ → α → σ → Prop}

/-- A run of labelled steps. -/
inductive Trace (R : σ → α → σ → Prop) : σ → List α → σ → Prop
  | nil (s : σ) : Trace R s [] s
  | cons {s t u : σ} {a : α} {as : List α} : R s a t → Trace R t as u → Trace R s (a :: as) u

/-- An invariant kept by every step holds at the end of every run. -/
theorem Trace.invariant {I : σ → Prop} (hstep : ∀ s a t, I s → R s a t → I t) {s t : σ}
    {as : List α} (h : Trace R s as t) (hs : I s) : I t := by
  induction h with
  | nil => exact hs
  | cons hR _ ih => exact ih (hstep _ _ _ hs hR)

end Trace

/-! ## The order of events in a log -/

section Log

variable {ε : Type*}
variable {b : ε} {l : List ε}

/-- Some occurrence of `a` stands before some occurrence of `b` in the log. -/
def Precedes (a b : ε) (l : List ε) : Prop := ∃ l₁ l₂, l = l₁ ++ b :: l₂ ∧ a ∈ l₁

theorem Precedes.mem_left {a : ε} (h : Precedes a b l) : a ∈ l := by
  obtain ⟨l₁, l₂, rfl, ha⟩ := h
  exact mem_append_left _ ha

/-- The last element of a split of `l ++ [e]` is either `e` or an element of `l`. -/
theorem concat_eq_append_cons {l₁ l₂ : List ε} {e : ε} (h : l ++ [e] = l₁ ++ b :: l₂) :
    (l₂ = [] ∧ l = l₁ ∧ e = b) ∨ ∃ l₂', l₂ = l₂' ++ [e] ∧ l = l₁ ++ b :: l₂' := by
  rcases l₂.eq_nil_or_concat with rfl | ⟨l₂', x, rfl⟩
  · obtain ⟨rfl, he⟩ := append_inj' h rfl
    exact .inl ⟨rfl, rfl, by simpa using he⟩
  · have h' : l ++ [e] = (l₁ ++ b :: l₂') ++ [x] := by simpa using h
    obtain ⟨rfl, he⟩ := append_inj' h' rfl
    exact .inr ⟨l₂', by simpa using he.symm, rfl⟩

/-- A split of `l ++ m` at an element that is not in `m` is a split of `l`. -/
theorem append_eq_append_cons {m l₁ l₂ : List ε} (hb : b ∉ m) (h : l ++ m = l₁ ++ b :: l₂) :
    ∃ l₂', l₂ = l₂' ++ m ∧ l = l₁ ++ b :: l₂' := by
  rcases append_eq_append_iff.mp h with ⟨k, -, rfl⟩ | ⟨k, hl, hk⟩
  · exact absurd (mem_append_right k mem_cons_self) hb
  · cases k with
    | nil =>
      rw [nil_append] at hk
      exact absurd (hk ▸ mem_cons_self) hb
    | cons x k =>
      obtain ⟨rfl, rfl⟩ := List.cons.inj hk
      exact ⟨k, rfl, hl⟩

theorem precedes_concat_iff {a e : ε} :
    Precedes a b (l ++ [e]) ↔ Precedes a b l ∨ (e = b ∧ a ∈ l) := by
  constructor
  · rintro ⟨l₁, l₂, h, ha⟩
    rcases concat_eq_append_cons h with ⟨-, rfl, rfl⟩ | ⟨l₂', -, rfl⟩
    · exact .inr ⟨rfl, ha⟩
    · exact .inl ⟨l₁, l₂', rfl, ha⟩
  · rintro (⟨l₁, l₂, rfl, ha⟩ | ⟨rfl, ha⟩)
    · exact ⟨l₁, l₂ ++ [e], by simp, ha⟩
    · exact ⟨l, [], rfl, ha⟩

theorem precedes_concat_of_ne {a e : ε} (h : e ≠ b) : Precedes a b (l ++ [e]) ↔ Precedes a b l := by
  rw [precedes_concat_iff, or_iff_left fun h' => h h'.1]

end Log

end Lupine.Foundations
