import Mathlib.Algebra.Order.BigOperators.Group.Finset
import Mathlib.Data.Fintype.Card
import Mathlib.Logic.Function.Basic
import Lupine.Foundations.Execution
import Lupine.Foundations.Region

/-!
# Grids of threads

Threads that store into one memory, in any order. A thread has a list of operations. An operation
stores at some addresses, at once or by a compare-and-swap loop: the thread looks at a word, and
stores only if the word is still what it saw, or else looks again.

* Whatever the order, the threads take a bounded number of steps (`Grid.length_le`), and none is
  ever stuck (`Grid.exists_step`).
* In the end an address holds what it held, if no operation stores there, and else what one of
  them stores there (`Grid.Ran.unchanged`, `Grid.Ran.stored`).

`strided` is the loop in which a thread goes over its share of some indices; the shares cover them
(`exists_strided`).
-/

namespace Lupine.Foundations

open Function List Nat

/-! ## Strided loops -/

/-- `for (i = start; i < stop; i += step)`. -/
def strided (start stop step : ℕ) : List ℕ :=
  pieces id (fun _ => step) stop (stop - start) start

theorem mem_pieces_const {start stop step i fuel : ℕ} (hstep : 0 < step)
    (hfuel : stop ≤ start + fuel) :
    i ∈ pieces id (fun _ => step) stop fuel start ↔ i < stop ∧ ∃ k, i = start + k * step := by
  induction fuel generalizing start with
  | zero =>
    simp only [pieces, not_mem_nil, false_iff]
    rintro ⟨hi, k, rfl⟩
    omega
  | succ fuel ih =>
    rw [pieces]
    split
    · rename_i hlt
      rw [mem_cons, ih (by omega)]
      constructor
      · rintro (rfl | ⟨hi, k, rfl⟩)
        · exact ⟨hlt, 0, by simp⟩
        · exact ⟨hi, k + 1, by rw [succ_mul]; omega⟩
      · rintro ⟨hi, k, rfl⟩
        cases k with
        | zero => exact .inl (by simp)
        | succ k => exact .inr ⟨hi, k, by rw [Nat.succ_mul]; omega⟩
    · simp only [not_mem_nil, false_iff]
      rintro ⟨hi, k, rfl⟩
      omega

theorem mem_strided {start stop step i : ℕ} (hstep : 0 < step) :
    i ∈ strided start stop step ↔ i < stop ∧ ∃ k, i = start + k * step :=
  mem_pieces_const hstep (by omega)

/-- The loops of `n` threads, each with steps of `n` words, cover all words. -/
theorem exists_strided {n w base stop i : ℕ} (hn : 0 < n) (hw : 0 < w) (hbase : base ≤ i)
    (hi : i < stop) :
    ∃ t < n, ∃ j ∈ strided (base + t * w) stop (n * w), j ≤ i ∧ i < j + w := by
  have hword := div_add_mod (i - base) w
  have hlt := mod_lt (i - base) hw
  generalize hq : (i - base) / w = q at hword
  have hturn := div_add_mod' q n
  have hstart : base + q % n * w + q / n * (n * w) = base + w * q := by
    rw [← Nat.mul_assoc, Nat.add_assoc, ← Nat.add_mul, Nat.add_comm (q % n), hturn, Nat.mul_comm]
  refine ⟨q % n, mod_lt _ hn, base + w * q, ?_, by omega, by omega⟩
  rw [mem_strided (Nat.mul_pos hn hw)]
  exact ⟨by omega, q / n, hstart.symm⟩

/-! ## Stores -/

section Store

variable {α β : Type*} [DecidableEq α]

/-- Some stores, one after the other. -/
def store (memory : α → β) (writes : List (α × β)) : α → β :=
  writes.foldl (fun m w => update m w.1 w.2) memory

theorem store_append (memory : α → β) (ws ws' : List (α × β)) :
    store memory (ws ++ ws') = store (store memory ws) ws' := foldl_append

/-- An address holds what it held, or what one of the stores put there. -/
theorem store_apply (memory : α → β) (ws : List (α × β)) (a : α) :
    (∀ w ∈ ws, w.1 ≠ a) ∧ store memory ws a = memory a ∨ (a, store memory ws a) ∈ ws := by
  induction ws generalizing memory with
  | nil => exact .inl ⟨by simp, rfl⟩
  | cons w ws ih =>
    rcases ih (update memory w.1 w.2) with ⟨hne, heq⟩ | hmem
    · rcases eq_or_ne w.1 a with rfl | hw
      · right
        have hval : store memory (w :: ws) w.1 = w.2 := heq.trans (update_self ..)
        rw [hval]
        exact mem_cons_self
      · left
        refine ⟨fun v hv => ?_, heq.trans (update_of_ne hw.symm ..)⟩
        rcases mem_cons.mp hv with rfl | hv
        · exact hw
        · exact hne v hv
    · exact .inr (mem_cons_of_mem _ hmem)

end Store

/-! ## Threads -/

/-- A step of a thread: what it writes, unless the word it compares has changed. -/
structure Op (α β : Type*) where
  writes : List (α × β)
  /-- The addresses that a compare-and-swap compares. -/
  word : Option (List α)

/-- What a thread has left, and what it saw in the word of its next operation. -/
structure Worker (α β : Type*) where
  ops : List (Op α β)
  seen : Option (List β)

/-- A memory and the threads. `log` lists the operations that were done; it is only observed. -/
structure Grid (τ α β : Type*) where
  memory : α → β
  workers : τ → Worker α β
  log : List (Op α β)

namespace Grid

variable {τ α β : Type*}
variable {g : Grid τ α β} {t : τ} {op : Op α β} {rest : List (Op α β)}

def start (memory : α → β) (program : τ → List (Op α β)) : Grid τ α β :=
  ⟨memory, fun t => ⟨program t, none⟩, []⟩

/-- All threads are at their end. -/
def Done (g : Grid τ α β) : Prop := ∀ t, (g.workers t).ops = []

/-! ## Outcome -/

section Outcome

variable [DecidableEq α]

/-- What was done and what is left make up the program, and memory is what was done to it. -/
structure Ran (memory : α → β) (program : τ → List (Op α β)) (g : Grid τ α β) : Prop where
  memory : g.memory = store memory (g.log.flatMap Op.writes)
  log : ∀ op ∈ g.log, ∃ t, op ∈ program t
  ops : ∀ t, ∀ op ∈ (g.workers t).ops, op ∈ program t
  all : ∀ t, ∀ op ∈ program t, op ∈ g.log ∨ op ∈ (g.workers t).ops

variable {memory : α → β} {program : τ → List (Op α β)}

/-- Where no operation stores, nothing changes. -/
theorem Ran.unchanged (h : Ran memory program g) {a : α}
    (ha : ∀ t, ∀ op ∈ program t, ∀ w ∈ op.writes, w.1 ≠ a) : g.memory a = memory a := by
  rw [h.memory]
  rcases store_apply memory (g.log.flatMap Op.writes) a with ⟨-, heq⟩ | hmem
  · exact heq
  · obtain ⟨op, hop, hw⟩ := mem_flatMap.mp hmem
    obtain ⟨t, ht⟩ := h.log op hop
    exact absurd rfl (ha t op ht _ hw)

/-- Where operations store, there is in the end what one of them stores. -/
theorem Ran.stored (h : Ran memory program g) (hdone : g.Done) (hop : op ∈ program t) {w : α × β}
    (hw : w ∈ op.writes) : ∃ t, ∃ op ∈ program t, (w.1, g.memory w.1) ∈ op.writes := by
  rw [h.memory]
  have hlog : op ∈ g.log := (h.all t op hop).resolve_right (by rw [hdone t]; simp)
  rcases store_apply memory (g.log.flatMap Op.writes) w.1 with ⟨hne, -⟩ | hmem
  · exact absurd rfl (hne w (mem_flatMap.mpr ⟨op, hlog, hw⟩))
  · obtain ⟨op', hop', hw'⟩ := mem_flatMap.mp hmem
    obtain ⟨t', ht'⟩ := h.log op' hop'
    exact ⟨t', op', ht', hw'⟩

end Outcome

/-! ## Steps -/

variable [DecidableEq τ]

/-- The thread stores, and its operation is done. -/
def perform [DecidableEq α] (g : Grid τ α β) (t : τ) (op : Op α β) (rest : List (Op α β)) :
    Grid τ α β :=
  ⟨store g.memory op.writes, update g.workers t ⟨rest, none⟩, g.log ++ [op]⟩

/-- The thread looks at the word of its operation. -/
def look (g : Grid τ α β) (t : τ) (op : Op α β) (rest : List (Op α β)) : Grid τ α β :=
  { g with workers := update g.workers t ⟨op :: rest, op.word.map (·.map g.memory)⟩ }

theorem perform_workers_self [DecidableEq α] (g : Grid τ α β) (t : τ) (op : Op α β)
    (rest : List (Op α β)) : (g.perform t op rest).workers t = ⟨rest, none⟩ :=
  update_self ..

theorem perform_workers_of_ne [DecidableEq α] (g : Grid τ α β) {s : τ} (h : s ≠ t) (op : Op α β)
    (rest : List (Op α β)) : (g.perform t op rest).workers s = g.workers s :=
  update_of_ne h ..

/-- Looking at a word does not change what a thread has left. -/
theorem look_ops (hops : (g.workers t).ops = op :: rest) (s : τ) :
    ((g.look t op rest).workers s).ops = (g.workers s).ops := by
  rcases eq_or_ne s t with rfl | hne
  · change (update g.workers s _ s).ops = _
    rw [update_self, hops]
  · change (update g.workers t _ s).ops = _
    rw [update_of_ne hne]

section Step

variable [DecidableEq β]

/-- The comparison of a compare-and-swap, if there is one, succeeds. -/
def fresh (memory : α → β) (seen : Option (List β)) (op : Op α β) : Bool :=
  match op.word with
  | none => true
  | some word => seen = some (word.map memory)

def step [DecidableEq α] (g : Grid τ α β) (t : τ) : Option (Grid τ α β) :=
  match (g.workers t).ops with
  | [] => none
  | op :: rest =>
    if fresh g.memory (g.workers t).seen op then some (g.perform t op rest)
    else some (g.look t op rest)

theorem step_cases [DecidableEq α] {g' : Grid τ α β} (h : g.step t = some g') :
    ∃ op rest, (g.workers t).ops = op :: rest ∧ (g' = g.perform t op rest ∨
      fresh g.memory (g.workers t).seen op = false ∧ g' = g.look t op rest) := by
  unfold step at h
  split at h
  · cases h
  · rename_i op rest hops
    split at h <;> cases h
    · exact ⟨op, rest, hops, .inl rfl⟩
    · rename_i hfresh
      exact ⟨op, rest, hops, .inr ⟨by simpa using hfresh, rfl⟩⟩

theorem exists_step [DecidableEq α] (h : ¬g.Done) : ∃ t, (g.step t).isSome = true := by
  obtain ⟨t, ht⟩ := not_forall.mp h
  refine ⟨t, ?_⟩
  unfold step
  split
  · rename_i hnil
    exact absurd hnil ht
  · split <;> rfl

end Step

/-! ## Termination -/

section Termination

variable [Fintype τ]

def left (workers : τ → Worker α β) : ℕ := ∑ t, (workers t).ops.length

theorem left_update (workers : τ → Worker α β) (t : τ) (w : Worker α β) :
    left (update workers t w) + (workers t).ops.length =
      left workers + w.ops.length := by
  have hrest : ∑ s ∈ Finset.univ.erase t, (update workers t w s).ops.length =
      ∑ s ∈ Finset.univ.erase t, (workers s).ops.length :=
    Finset.sum_congr rfl fun s hs => by
      rw [update_of_ne (Finset.ne_of_mem_erase hs)]
  unfold left
  rw [← Finset.add_sum_erase _ _ (Finset.mem_univ t), hrest, update_self,
    ← Finset.add_sum_erase Finset.univ (fun s => (workers s).ops.length) (Finset.mem_univ t)]
  omega

variable [DecidableEq β]

/-- The thread will look again. -/
def stale (g : Grid τ α β) (t : τ) : Bool :=
  match (g.workers t).ops with
  | [] => false
  | op :: _ => !fresh g.memory (g.workers t).seen op

/-- The number of threads that will look again. -/
def staleCount (g : Grid τ α β) : ℕ := (Finset.univ.filter fun t => g.stale t = true).card

/-- A bound on the steps that are left. Every operation may make all threads look again. -/
def work (g : Grid τ α β) : ℕ := left g.workers * (Fintype.card τ + 1) + g.staleCount

/-- Looking again makes a thread fresh. -/
theorem staleCount_look (hops : (g.workers t).ops = op :: rest)
    (hstale : fresh g.memory (g.workers t).seen op = false) :
    (g.look t op rest).staleCount < g.staleCount := by
  have ht : g.stale t = true := by
    simp only [stale, hops, hstale, Bool.not_false]
  refine Finset.card_lt_card ⟨fun s hs => ?_, fun hsub => ?_⟩
  · have hs' := (Finset.mem_filter.mp hs).2
    refine Finset.mem_filter.mpr ⟨Finset.mem_univ s, ?_⟩
    rcases eq_or_ne s t with rfl | hne
    · exact ht
    · simpa [stale, look, update_of_ne hne] using hs'
  · have hfresh := (Finset.mem_filter.mp (hsub (Finset.mem_filter.mpr ⟨Finset.mem_univ t, ht⟩))).2
    simp only [stale, look, update_self, fresh] at hfresh
    cases hw : op.word <;> simp [hw] at hfresh

variable [DecidableEq α]

theorem work_lt {g' : Grid τ α β} (h : g.step t = some g') : g'.work < g.work := by
  obtain ⟨op, rest, hops, rfl | ⟨hstale, rfl⟩⟩ := step_cases h
  · have hleft := left_update g.workers t ⟨rest, none⟩
    have hone : left g.workers = left (g.perform t op rest).workers + 1 := by
      rw [hops, length_cons] at hleft
      exact (add_right_cancel (hleft.symm.trans (by simp only [perform]; omega)))
    have hcount : (g.perform t op rest).staleCount ≤ Fintype.card τ := Finset.card_le_univ _
    rw [work, work, hone, succ_mul]
    omega
  · have hsame : left (g.look t op rest).workers = left g.workers :=
      Finset.sum_congr rfl fun s _ => by rw [look_ops hops s]
    rw [work, work, hsame]
    exact Nat.add_lt_add_left (staleCount_look hops hstale) _

/-- **Termination.** The threads take a bounded number of steps, in whatever order. -/
theorem length_le {g' : Grid τ α β} {ts : List τ} (hrun : exec step g ts = some g') :
    ts.length ≤ g.work := by
  have := exec_length_le (I := fun (_ : Grid τ α β) => True) (fun _ _ _ _ _ => trivial)
    (fun _ _ _ _ hstep => work_lt hstep) trivial hrun
  omega

end Termination

/-! ## Runs -/

section Runs

variable [DecidableEq α] {memory : α → β} {program : τ → List (Op α β)}

theorem Ran.perform (h : Ran memory program g) (hops : (g.workers t).ops = op :: rest) :
    Ran memory program (g.perform t op rest) := by
  have hmine := h.ops t
  rw [hops] at hmine
  refine ⟨?_, fun o ho => ?_, fun s o ho => ?_, fun s o ho => ?_⟩
  · change store g.memory op.writes = store memory ((g.log ++ [op]).flatMap Op.writes)
    rw [h.memory, flatMap_append, flatMap_singleton, store_append]
  · rcases mem_append.mp ho with ho | ho
    · exact h.log o ho
    · obtain rfl := mem_singleton.mp ho
      exact ⟨t, hmine o mem_cons_self⟩
  · rcases eq_or_ne s t with rfl | hne
    · rw [perform_workers_self] at ho
      exact hmine o (mem_cons_of_mem _ ho)
    · rw [perform_workers_of_ne g hne] at ho
      exact h.ops s o ho
  · rcases h.all s o ho with hlog | hleft
    · exact .inl (mem_append_left _ hlog)
    · rcases eq_or_ne s t with rfl | hne
      · rw [hops] at hleft
        rcases mem_cons.mp hleft with rfl | hleft
        · exact .inl (mem_append_right _ (mem_singleton_self _))
        · right
          rw [perform_workers_self]
          exact hleft
      · right
        rw [perform_workers_of_ne g hne]
        exact hleft

theorem Ran.look (h : Ran memory program g) (hops : (g.workers t).ops = op :: rest) :
    Ran memory program (g.look t op rest) := by
  refine ⟨h.memory, h.log, fun s => ?_, fun s => ?_⟩
  · rw [look_ops hops s]
    exact h.ops s
  · rw [look_ops hops s]
    exact h.all s

theorem ran_of_run [DecidableEq β] {ts : List τ}
    (hrun : exec step (start memory program) ts = some g) : Ran memory program g := by
  refine exec_invariant (I := fun (g : Grid τ α β) => Ran memory program g) ?_ ?_ hrun
  · intro g t g' h hstep
    obtain ⟨op, rest, hops, rfl | ⟨-, rfl⟩⟩ := step_cases hstep
    · exact h.perform hops
    · exact h.look hops
  · exact ⟨rfl, by simp [start], fun t op h => h, fun t op h => .inr h⟩

end Runs

end Grid

end Lupine.Foundations
