import Mathlib.Algebra.BigOperators.Pi
import Mathlib.Algebra.Group.Submonoid.BigOperators
import Mathlib.Algebra.Order.BigOperators.Group.Finset
import Mathlib.Data.Fintype.Card
import Lupine.Foundations.Execution

/-!
# Threads around a mutex and a condition variable

A monitor is shared memory with one mutex and one condition variable. Any number of threads run
the same program over it. A `Program` says what a thread does next at each of its places (`Instr`):
take or release the mutex, act on the memory, wake the sleeping threads, or rest. To wait on the
condition variable is to release the mutex and to rest at a place that `woken` leaves. What happens
to a thread from outside (a call, a spurious wake-up, a reply) is given by `outside`.

Properties of a monitor are often properties of counts: how many threads are at which places, and
what the memory says about it.

* `Counting` is an inductive invariant of the memory, the mutex and the sum of the threads'
  weights. It is proved for one thread at a time, against any sum of the others that lies in a
  given submonoid (`Counting.exec`).
* `stuck_rest`: when no thread can move, the mutex is free and every thread rests.
* `Ranking` bounds the steps that the threads take by themselves by the number of events from
  outside (`Ranking.count_le`).
-/

namespace Lupine.Foundations.Monitor

open Function Finset

/-- What a thread does next. -/
inductive Instr (μ ℓ : Type*)
  /-- Nothing, until something happens to the thread. -/
  | rest
  | lock (next : ℓ)
  /-- Release the mutex; with the last access to the memory before. -/
  | unlock (mem : μ) (next : ℓ)
  | run (mem : μ) (next : ℓ)
  /-- Wake every thread that sleeps on the condition variable. -/
  | notify (next : ℓ)

/-- The program of the threads, over memory `μ`, places `ℓ` and outside events `ε`. -/
structure Program (μ ℓ ε : Type*) where
  instr : μ → ℓ → Instr μ ℓ
  /-- Where a notification leaves a thread. -/
  woken : ℓ → ℓ
  outside : μ → ℓ → ε → Option (μ × ℓ)

/-- The memory, the mutex and the threads. -/
structure System (τ μ ℓ : Type*) where
  mem : μ
  locked : Bool
  thread : τ → ℓ

/-- A thread moves by itself, or something from outside happens to it. -/
inductive Action (τ ε : Type*)
  | own (t : τ)
  | outside (t : τ) (e : ε)

variable {τ μ ℓ ε : Type*}
variable {s s' : System τ μ ℓ} {a : Action τ ε}

/-- A step that a thread takes by itself. -/
def Action.isOwn : Action τ ε → Bool
  | .own _ => true
  | .outside _ _ => false

/-! ## Steps -/

section Step

variable [DecidableEq τ] (P : Program μ ℓ ε)

/-- What an instruction does. -/
def perform (s : System τ μ ℓ) (t : τ) : Instr μ ℓ → Option (System τ μ ℓ)
  | .rest => none
  | .lock next => if s.locked then none else some ⟨s.mem, true, update s.thread t next⟩
  | .unlock mem next => some ⟨mem, false, update s.thread t next⟩
  | .run mem next => some ⟨mem, s.locked, update s.thread t next⟩
  | .notify next =>
    some ⟨s.mem, s.locked, update (fun u => P.woken (s.thread u)) t next⟩

def step (s : System τ μ ℓ) : Action τ ε → Option (System τ μ ℓ)
  | .own t => perform P s t (P.instr s.mem (s.thread t))
  | .outside t e => (P.outside s.mem (s.thread t) e).map fun r =>
      ⟨r.1, s.locked, update s.thread t r.2⟩

/-- What a condition on outside events says about an action. -/
def Meets (C : μ → ℓ → ε → Prop) (s : System τ μ ℓ) : Action τ ε → Prop
  | .own _ => True
  | .outside t e => C s.mem (s.thread t) e

instance (C : μ → ℓ → ε → Prop) [∀ m l e, Decidable (C m l e)] (s : System τ μ ℓ)
    (a : Action τ ε) : Decidable (Meets C s a) := by
  cases a <;> unfold Meets <;> infer_instance

end Step

/-- A step of a thread that wakes nobody: memory, mutex and place before and after. -/
inductive Program.Move (P : Program μ ℓ ε) (m : μ) : Bool → ℓ → μ → Bool → ℓ → Prop
  | lock {l next : ℓ} : P.instr m l = .lock next → Move P m false l m true next
  | unlock {b : Bool} {l next : ℓ} {m' : μ} :
      P.instr m l = .unlock m' next → Move P m b l m' false next
  | run {b : Bool} {l next : ℓ} {m' : μ} :
      P.instr m l = .run m' next → Move P m b l m' b next

theorem step_cases [DecidableEq τ] {P : Program μ ℓ ε} (h : step P s a = some s') :
    (∃ t m b l, a = .own t ∧ P.Move s.mem s.locked (s.thread t) m b l ∧
      s' = ⟨m, b, update s.thread t l⟩) ∨
    (∃ t l, a = .own t ∧ P.instr s.mem (s.thread t) = .notify l ∧
      s' = ⟨s.mem, s.locked, update (fun u => P.woken (s.thread u)) t l⟩) ∨
    (∃ t e m l, a = .outside t e ∧ P.outside s.mem (s.thread t) e = some (m, l) ∧
      s' = ⟨m, s.locked, update s.thread t l⟩) := by
  cases a with
  | outside t e =>
    obtain ⟨⟨m, l⟩, hout, rfl⟩ := Option.map_eq_some_iff.mp h
    exact .inr (.inr ⟨t, e, m, l, rfl, hout, rfl⟩)
  | own t =>
    rw [step] at h
    cases hinstr : P.instr s.mem (s.thread t) with
    | rest => simp [hinstr, perform] at h
    | notify l =>
      simp only [hinstr, perform, Option.some.injEq] at h
      exact .inr (.inl ⟨t, l, rfl, hinstr, h.symm⟩)
    | lock l =>
      simp only [hinstr, perform] at h
      cases hlocked : s.locked with
      | true => simp [hlocked] at h
      | false =>
        simp only [hlocked, Bool.false_eq_true, if_false, Option.some.injEq] at h
        exact .inl ⟨t, _, _, l, rfl, .lock hinstr, h.symm⟩
    | unlock m l =>
      simp only [hinstr, perform, Option.some.injEq] at h
      exact .inl ⟨t, m, _, l, rfl, .unlock hinstr, h.symm⟩
    | run m l =>
      simp only [hinstr, perform, Option.some.injEq] at h
      exact .inl ⟨t, m, _, l, rfl, .run hinstr, h.symm⟩

/-- What a step does to each thread: nothing, a wake-up, or its own move. -/
theorem step_thread [DecidableEq τ] {P : Program μ ℓ ε} {r : ℓ → ℓ → Prop} (hrefl : ∀ l, r l l)
    (hwoken : ∀ l, r l (P.woken l))
    (hmove : ∀ t m b l, P.Move s.mem s.locked (s.thread t) m b l → r (s.thread t) l)
    (hnotify : ∀ t l, P.instr s.mem (s.thread t) = .notify l → r (s.thread t) l)
    (houtside : ∀ t e m l, P.outside s.mem (s.thread t) e = some (m, l) → r (s.thread t) l)
    (h : step P s a = some s') (t : τ) : r (s.thread t) (s'.thread t) := by
  rcases step_cases h with ⟨u, m, b, l, rfl, hu, rfl⟩ | ⟨u, l, rfl, hu, rfl⟩ |
    ⟨u, e, m, l, rfl, hu, rfl⟩
  all_goals
    by_cases htu : t = u
    · subst htu
      simp only [update_self]
      first
        | exact hmove t m b l hu
        | exact hnotify t l hu
        | exact houtside t e m l hu
    · simp only [update_of_ne htu]
      first
        | exact hrefl _
        | exact hwoken _

/-! ## Sums over the threads -/

theorem toNat_pos_iff {b : Bool} : 0 < b.toNat ↔ b = true := by cases b <;> simp

section Counts

variable [Fintype τ] {κ : Type*} {w : ℓ → κ → ℕ} {thread : τ → ℓ} {c : κ}

/-- A count is positive when some thread adds to it. -/
theorem count_pos_iff : 0 < (∑ t, w (thread t)) c ↔ ∃ t, 0 < w (thread t) c := by
  rw [Finset.sum_apply, sum_pos_iff]
  simp

theorem not_count_pos (h : ∀ t, w (thread t) c = 0) : ¬ 0 < (∑ t, w (thread t)) c := by
  rw [count_pos_iff]
  rintro ⟨t, ht⟩
  exact absurd (h t) ht.ne'

theorem count_eq_zero (h : (∑ t, w (thread t)) c = 0) (t : τ) : w (thread t) c = 0 := by
  rw [Finset.sum_apply] at h
  exact sum_eq_zero_iff.mp h t (mem_univ t)

end Counts

section Sums

variable [Fintype τ] [DecidableEq τ] {M : Type*} [AddCommMonoid M]

/-- The sum over the threads other than one of them. -/
def others (f : τ → M) (t : τ) : M := ∑ u ∈ Finset.univ.erase t, f u

theorem others_add (f : τ → M) (t : τ) : others f t + f t = ∑ u, f u :=
  sum_erase_add _ _ (mem_univ t)

theorem sum_update (w : ℓ → M) (thread : τ → ℓ) (t : τ) (l : ℓ) :
    ∑ u, w (update thread t l u) = others (fun u => w (thread u)) t + w l := by
  rw [← others_add _ t, update_self]
  congr 1
  refine sum_congr rfl fun u hu => ?_
  exact congrArg w (update_of_ne (ne_of_mem_erase hu) l thread)

end Sums

/-! ## Invariants of counts -/

/-- An inductive invariant `R` of the memory, the mutex and the total weight of the threads, for
the outside events that meet `C`. The weight of the threads that do not move lies in `Q`; a
notification changes it by `wake`. -/
structure Counting (P : Program μ ℓ ε) (C : μ → ℓ → ε → Prop) {M : Type*} [AddCommMonoid M]
    (w : ℓ → M) (wake : M →+ M) (Q : AddSubmonoid M) (R : μ → Bool → M → Prop) : Prop where
  mem : ∀ l, w l ∈ Q
  woken : ∀ l, w (P.woken l) = wake (w l)
  move : ∀ {m b l m' b' l'} {k : M}, k ∈ Q → P.Move m b l m' b' l' → R m b (k + w l) →
    R m' b' (k + w l')
  notify : ∀ {m b l l'} {k : M}, k ∈ Q → P.instr m l = .notify l' → R m b (k + w l) →
    R m b (wake k + w l')
  outside : ∀ {m b l e m' l'} {k : M}, k ∈ Q → P.outside m l e = some (m', l') → C m l e →
    R m b (k + w l) → R m' b (k + w l')

namespace Counting

variable {P : Program μ ℓ ε} {C : μ → ℓ → ε → Prop} {M : Type*} [AddCommMonoid M] {w : ℓ → M}
  {wake : M →+ M} {Q : AddSubmonoid M} {R : μ → Bool → M → Prop}
  [Fintype τ] [DecidableEq τ]

/-- The invariant, of a state. -/
def Holds (R : μ → Bool → M → Prop) (w : ℓ → M) (s : System τ μ ℓ) : Prop :=
  R s.mem s.locked (∑ t, w (s.thread t))

theorem step (h : Counting P C w wake Q R) (hs : Holds R w s) (ha : Meets C s a)
    (hstep : Monitor.step P s a = some s') : Holds R w s' := by
  have hothers : ∀ t, others (fun u => w (s.thread u)) t ∈ Q := fun t =>
    Q.sum_mem fun u _ => h.mem (s.thread u)
  have hsum : ∀ t, R s.mem s.locked (others (fun u => w (s.thread u)) t + w (s.thread t)) := by
    intro t
    rw [others_add fun u => w (s.thread u)]
    exact hs
  rcases step_cases hstep with ⟨t, m, b, l, rfl, hmove, rfl⟩ | ⟨t, l, rfl, hinstr, rfl⟩ |
    ⟨t, e, m, l, rfl, hout, rfl⟩
  · rw [Holds, sum_update]
    exact h.move (hothers t) hmove (hsum t)
  · have hwake : others (fun u => w (P.woken (s.thread u))) t =
        wake (others (fun u => w (s.thread u)) t) := by
      rw [others, others, map_sum]
      exact sum_congr rfl fun u _ => h.woken (s.thread u)
    rw [Holds, sum_update, hwake]
    exact h.notify (hothers t) hinstr (hsum t)
  · rw [Holds, sum_update]
    exact h.outside (hothers t) hout ha (hsum t)

/-- The invariant holds after every run whose outside events meet the condition. -/
theorem exec (h : Counting P C w wake Q R) {as : List (Action τ ε)} (hs : Holds R w s)
    (has : Along (Monitor.step P) (Meets C) s as)
    (hexec : Foundations.exec (Monitor.step P) s as = some s') : Holds R w s' :=
  exec_invariant_along (fun _ _ _ hs ha hstep => h.step hs ha hstep) hs has hexec

end Counting

/-! ## Where a monitor comes to rest -/

/-- No thread can move by itself. -/
def Stuck [DecidableEq τ] (P : Program μ ℓ ε) (s : System τ μ ℓ) : Prop :=
  ∀ t, step P s (.own t) = none

instance [DecidableEq τ] [Fintype τ] (P : Program μ ℓ ε) (s : System τ μ ℓ) :
    Decidable (Stuck P s) :=
  decidable_of_iff (∀ t, (step P s (.own t)).isNone = true) (by simp [Stuck])

/-- When a thread that holds the mutex can always go on, a stuck monitor is unlocked and all of
its threads rest. -/
theorem stuck_rest [DecidableEq τ] {P : Program μ ℓ ε} {holds : ℓ → Bool}
    (hgo : ∀ m l, holds l → P.instr m l ≠ .rest ∧ ∀ next, P.instr m l ≠ .lock next)
    (hlocked : s.locked → ∃ t, holds (s.thread t)) (h : Stuck P s) :
    s.locked = false ∧ ∀ t, P.instr s.mem (s.thread t) = .rest := by
  have hfree : s.locked = false := by
    by_contra hlock
    obtain ⟨t, ht⟩ := hlocked (by simpa using hlock)
    obtain ⟨hrest, hnolock⟩ := hgo s.mem (s.thread t) ht
    have hnone := h t
    cases hinstr : P.instr s.mem (s.thread t) with
    | rest => exact hrest hinstr
    | lock next => exact hnolock next hinstr
    | unlock | run | notify => simp [step, hinstr, perform] at hnone
  refine ⟨hfree, fun t => ?_⟩
  have hnone := h t
  cases hinstr : P.instr s.mem (s.thread t) with
  | rest => rfl
  | lock next => simp [step, hinstr, perform, hfree] at hnone
  | unlock | run | notify => simp [step, hinstr, perform] at hnone

/-! ## How long a monitor runs by itself -/

/-- A bound on what a thread has left to do: `effort` counts its steps as long as nobody
interferes, and `events` the steps by which it interferes with the others, each of which raises
the effort of a thread by at most `c`. An outside event raises both by at most `d`. -/
structure Ranking (P : Program μ ℓ ε) (effort : μ → ℓ → ℕ) (events : ℓ → ℕ) (c d : ℕ) : Prop where
  move : ∀ {m b l m' b' l'}, P.Move m b l m' b' l' →
    (effort m' l' < effort m l ∧ events l' ≤ events l ∧ ∀ x, effort m' x = effort m x) ∨
    (events l' < events l ∧ effort m' l' ≤ effort m l + c ∧ ∀ x, effort m' x ≤ effort m x + c)
  notify : ∀ {m l l'}, P.instr m l = .notify l' →
    events l' < events l ∧ effort m l' ≤ effort m l + c
  woken : ∀ m x, effort m (P.woken x) ≤ effort m x + c ∧ events (P.woken x) ≤ events x
  outside : ∀ {m l e m' l'}, P.outside m l e = some (m', l') →
    effort m' l' ≤ effort m l + d ∧ events l' ≤ events l + d ∧ ∀ x, effort m' x = effort m x

namespace Ranking

variable [Fintype τ] [DecidableEq τ] {P : Program μ ℓ ε} {effort : μ → ℓ → ℕ} {events : ℓ → ℕ}
  {c d : ℕ}

/-- What an event is worth: more than it can cost all the threads together. -/
def price (τ : Type*) [Fintype τ] (c : ℕ) : ℕ := c * Fintype.card τ + 1

def rank (effort : μ → ℓ → ℕ) (events : ℓ → ℕ) (c : ℕ) (s : System τ μ ℓ) : ℕ :=
  ∑ t, effort s.mem (s.thread t) + price τ c * ∑ t, events (s.thread t)

theorem others_le {f g : τ → ℕ} {c : ℕ} (h : ∀ u, f u ≤ g u + c) (t : τ) :
    others f t + c ≤ others g t + c * Fintype.card τ := by
  have hle : others f t ≤ others g t + (Finset.univ.erase t).card * c := by
    calc others f t ≤ ∑ u ∈ Finset.univ.erase t, (g u + c) := sum_le_sum fun u _ => h u
      _ = others g t + (Finset.univ.erase t).card * c := by
        rw [sum_add_distrib, sum_const, Nat.nsmul_eq_mul, others]
  have hcard : (Finset.univ.erase t).card + 1 = Fintype.card τ :=
    card_erase_add_one (mem_univ t)
  rw [← hcard, Nat.mul_add, Nat.mul_comm c]
  omega

theorem others_mono {f g : τ → ℕ} (h : ∀ u, f u ≤ g u) (t : τ) : others f t ≤ others g t :=
  sum_le_sum fun u _ => h u

/-- The threads' own steps lower the rank. -/
theorem rank_lt (h : Ranking P effort events c d) (ha : a.isOwn = true)
    (hstep : step P s a = some s') : rank effort events c s' < rank effort events c s := by
  rcases step_cases hstep with ⟨t, m, b, l, rfl, hmove, rfl⟩ | ⟨t, l, rfl, hinstr, rfl⟩ |
    ⟨t, e, m, l, rfl, -, -⟩
  · simp only [rank, sum_update (effort m), sum_update events]
    rw [← others_add (fun u => effort s.mem (s.thread u)) t,
      ← others_add (fun u => events (s.thread u)) t]
    rcases h.move hmove with ⟨heffort, hevents, hsame⟩ | ⟨hevents, heffort, hsame⟩
    · have hothers : others (fun u => effort m (s.thread u)) t =
          others (fun u => effort s.mem (s.thread u)) t :=
        sum_congr rfl fun u _ => hsame (s.thread u)
      have hprice := Nat.mul_le_mul_left (price τ c)
        (Nat.add_le_add_left hevents (others (fun u => events (s.thread u)) t))
      omega
    · have hothers := others_le (fun u => hsame (s.thread u)) t
      have hprice := Nat.mul_le_mul_left (price τ c)
        (Nat.add_le_add_left hevents (others (fun u => events (s.thread u)) t))
      rw [Nat.succ_eq_add_one, ← Nat.add_assoc, Nat.mul_add, Nat.mul_one] at hprice
      simp only [price] at hprice ⊢
      omega
  · simp only [rank, sum_update (effort s.mem), sum_update events]
    rw [← others_add (fun u => effort s.mem (s.thread u)) t,
      ← others_add (fun u => events (s.thread u)) t]
    obtain ⟨hevents, heffort⟩ := h.notify hinstr
    have hothers := others_le (fun u => (h.woken s.mem (s.thread u)).1) t
    have hwoken := others_mono (fun u => (h.woken s.mem (s.thread u)).2) t
    have hprice := Nat.mul_le_mul_left (price τ c) (Nat.add_le_add hwoken hevents)
    rw [Nat.succ_eq_add_one, ← Nat.add_assoc, Nat.mul_add, Nat.mul_one] at hprice
    simp only [price] at hprice ⊢
    omega
  · cases ha

/-- An outside event raises the rank by a constant. -/
theorem rank_le (h : Ranking P effort events c d) (ha : a.isOwn = false)
    (hstep : step P s a = some s') :
    rank effort events c s' ≤ rank effort events c s + (d + price τ c * d) := by
  rcases step_cases hstep with ⟨t, m, b, l, rfl, -, -⟩ | ⟨t, l, rfl, -, -⟩ |
    ⟨t, e, m, l, rfl, hout, rfl⟩
  · cases ha
  · cases ha
  · obtain ⟨heffort, hevents, hsame⟩ := h.outside hout
    simp only [rank, sum_update (effort m), sum_update events]
    rw [← others_add (fun u => effort s.mem (s.thread u)) t,
      ← others_add (fun u => events (s.thread u)) t]
    have hothers : others (fun u => effort m (s.thread u)) t =
        others (fun u => effort s.mem (s.thread u)) t :=
      sum_congr rfl fun u _ => hsame (s.thread u)
    have hprice := Nat.mul_le_mul_left (price τ c)
      (Nat.add_le_add_left hevents (others (fun u => events (s.thread u)) t))
    rw [← Nat.add_assoc, Nat.mul_add _ _ d] at hprice
    omega

/-- **Bounded activity.** The steps that threads take by themselves are at most a constant times
the outside events, plus the rank of the first state. -/
theorem count_le (h : Ranking P effort events c d) {as : List (Action τ ε)}
    (hexec : exec (step P) s as = some s') :
    as.countP Action.isOwn ≤ rank effort events c s +
      (d + price τ c * d) * as.countP (fun a => !a.isOwn) := by
  have hcount := exec_count_le Action.isOwn (rank effort events c)
    (fun s a t ha hstep => h.rank_lt ha hstep) (fun s a t ha hstep => h.rank_le ha hstep) hexec
  omega

end Ranking

end Lupine.Foundations.Monitor
