import Mathlib.Logic.Function.Basic
import Lupine.Foundations.Execution

/-!
# A cache of replies

Threads ask a server for the value of a key and keep the reply in a cache that they share; other
calls send requests that change the values, and erase entries before they send the first one. The
lookup with the request that follows it, the server's answer, the insertion of the reply and each
request of a change are separate steps, so that a reply can be inserted after the value has changed.

* `Coherent`: what is cached, and what is about to be inserted, is what the server would answer.
* `Coherent.step`: this is kept by the steps that are `Orderly`: a change erases what it affects and
  does not overlap with the queries that it affects.
-/

namespace Lupine.Foundations

open Function

/-- A server with the requests that change its answers, and the keys that clients may ask for. -/
structure Replier (σ ρ κ ν : Type*) where
  apply : ρ → σ → σ
  answer : σ → κ → ν
  askable : σ → κ → Prop
  affects : ρ → κ → Prop
  answer_apply : ∀ {r k}, ¬affects r k → ∀ s, answer (apply r s) k = answer s k
  askable_apply : ∀ {r k}, ¬affects r k → ∀ s, askable s k → askable (apply r s) k

namespace ReplyCache

/-- Where a thread is in a lookup or a change. -/
inductive Phase (ρ κ ν : Type*)
  | idle
  | asked (key : κ)
  /-- The server has answered; the reply is not inserted yet. -/
  | answered (key : κ) (value : ν)
  | changing (requests : List ρ)

variable {σ ρ κ ν τ : Type*}

namespace Phase

/-- The key that is looked up. -/
def key : Phase ρ κ ν → Option κ
  | asked k | answered k _ => some k
  | _ => none

/-- The requests that a change has not sent yet. -/
def pending : Phase ρ κ ν → List ρ
  | changing requests => requests
  | _ => []

end Phase

/-- The server, the cache of its replies and the threads of the client. -/
structure State (σ ρ κ ν τ : Type*) where
  server : σ
  cache : κ → Option ν
  phase : τ → Phase ρ κ ν

/-- The steps of a thread. -/
inductive Action (ρ κ τ : Type*)
  /-- The cache has no entry, and the request is sent. When it leaves makes no difference before the
  server answers. -/
  | ask (i : τ) (key : κ)
  | serve (i : τ)
  | insert (i : τ)
  /-- The reply is lost, or it reports an error. -/
  | drop (i : τ)
  | start (i : τ) (erased : κ → Bool) (requests : List ρ)
  | apply (i : τ)
  /-- The call returns; a request that fails ends it early. -/
  | finish (i : τ)

/-- Nothing is cached and no call is active. -/
def State.init (server : σ) : State σ ρ κ ν τ := ⟨server, fun _ => none, fun _ => .idle⟩

section Step

variable [DecidableEq κ] [DecidableEq τ]

/-- What a step does. -/
inductive Step (D : Replier σ ρ κ ν) (s : State σ ρ κ ν τ) :
    Action ρ κ τ → State σ ρ κ ν τ → Prop
  | ask {i k} : s.phase i = .idle → D.askable s.server k → s.cache k = none →
      Step D s (.ask i k) { s with phase := update s.phase i (.asked k) }
  | serve {i k} : s.phase i = .asked k → Step D s (.serve i)
      { s with phase := update s.phase i (.answered k (D.answer s.server k)) }
  | insert {i k v} : s.phase i = .answered k v → Step D s (.insert i)
      { s with
        cache := update s.cache k (some v)
        phase := update s.phase i .idle }
  | drop {i k} : (s.phase i).key = some k →
      Step D s (.drop i) { s with phase := update s.phase i .idle }
  | start {i erased requests} : s.phase i = .idle → Step D s (.start i erased requests)
      { s with
        cache := fun k => if erased k then none else s.cache k
        phase := update s.phase i (.changing requests) }
  | apply {i r requests} : s.phase i = .changing (r :: requests) → Step D s (.apply i)
      { s with
        server := D.apply r s.server
        phase := update s.phase i (.changing requests) }
  | finish {i requests} : s.phase i = .changing requests →
      Step D s (.finish i) { s with phase := update s.phase i .idle }

end Step

variable {D : Replier σ ρ κ ν} {s t : State σ ρ κ ν τ} {p : Phase ρ κ ν} {i : τ} {k : κ} {r : ρ}

/-- A query is sent while no change of its key is under way. A change starts while no query that it
affects is under way, and it erases the entries that it affects. -/
def Orderly (D : Replier σ ρ κ ν) (s : State σ ρ κ ν τ) : Action ρ κ τ → Prop
  | .ask _ k => ∀ j, ∀ r ∈ (s.phase j).pending, ¬D.affects r k
  | .start _ erased requests => ∀ r ∈ requests, ∀ k, D.affects r k → D.askable s.server k →
      (erased k = true ∨ s.cache k = none) ∧ ∀ j, (s.phase j).key ≠ some k
  | _ => True

/-- What a query has is what the server would answer. -/
def Phase.Fits (D : Replier σ ρ κ ν) (server : σ) : Phase ρ κ ν → Prop
  | asked k => D.askable server k
  | answered k v => D.askable server k ∧ v = D.answer server k
  | _ => True

theorem Phase.Fits.askable {server : σ} (h : p.Fits D server) (hk : p.key = some k) :
    D.askable server k := by
  cases p with
  | idle | changing => cases hk
  | asked => cases hk; exact h
  | answered => cases hk; exact h.1

theorem Phase.Fits.apply {server : σ} (h : p.Fits D server)
    (hk : ∀ k, p.key = some k → ¬D.affects r k) : p.Fits D (D.apply r server) := by
  cases p with
  | idle | changing => trivial
  | asked k => exact D.askable_apply (hk k rfl) _ h
  | answered k v =>
    exact ⟨D.askable_apply (hk k rfl) _ h.1, h.2.trans (D.answer_apply (hk k rfl) _).symm⟩

/-- Entries and replies are current, and where a change is under way there are none. -/
structure Coherent (D : Replier σ ρ κ ν) (s : State σ ρ κ ν τ) : Prop where
  cached : ∀ k v, s.cache k = some v → D.askable s.server k ∧ v = D.answer s.server k
  fits : ∀ i, (s.phase i).Fits D s.server
  quiet : ∀ i, ∀ r ∈ (s.phase i).pending, ∀ k, D.affects r k →
    s.cache k = none ∧ ∀ j, (s.phase j).key ≠ some k

theorem coherent_init (server : σ) : Coherent D (.init server : State σ ρ κ ν τ) :=
  ⟨nofun, fun _ => trivial, nofun⟩

/-- A query that is under way has no change of its key beside it. -/
theorem Coherent.not_affects (h : Coherent D s) {j : τ} (hk : (s.phase i).key = some k)
    (hr : r ∈ (s.phase j).pending) : ¬D.affects r k :=
  fun ha => (h.quiet j r hr k ha).2 i hk

/-- A key that is not askable has no entry and no query. -/
theorem Coherent.absent (h : Coherent D s) (hk : ¬D.askable s.server k) :
    s.cache k = none ∧ ∀ j, (s.phase j).key ≠ some k :=
  ⟨Option.eq_none_iff_forall_ne_some.mpr fun v hv => hk (h.cached k v hv).1,
    fun j hj => hk ((h.fits j).askable hj)⟩

/-- A step of one thread: what its new phase needs, and what the others need of it. -/
theorem Coherent.thread [DecidableEq τ] (h : Coherent D s) {server : σ} {cache : κ → Option ν}
    (hcached : ∀ k v, cache k = some v → D.askable server k ∧ v = D.answer server k)
    (hfits : p.Fits D server) (hothers : ∀ j, j ≠ i → (s.phase j).Fits D server)
    (hown : ∀ r ∈ p.pending, ∀ k, D.affects r k →
      cache k = none ∧ p.key ≠ some k ∧ ∀ j, j ≠ i → (s.phase j).key ≠ some k)
    (hquiet : ∀ j, j ≠ i → ∀ r ∈ (s.phase j).pending, ∀ k, D.affects r k →
      cache k = none ∧ p.key ≠ some k) :
    Coherent D ⟨server, cache, update s.phase i p⟩ where
  cached := hcached
  fits := (forall_update_iff s.phase fun _ p => p.Fits D server).mpr ⟨hfits, hothers⟩
  quiet := by
    refine (forall_update_iff s.phase fun _ q => ∀ r ∈ q.pending, ∀ k, D.affects r k →
      cache k = none ∧ ∀ j, (update s.phase i p j).key ≠ some k).mpr ⟨?_, ?_⟩
    · intro r hr k hk
      obtain ⟨hnone, hp, hkeys⟩ := hown r hr k hk
      exact ⟨hnone, (forall_update_iff s.phase fun _ q => q.key ≠ some k).mpr ⟨hp, hkeys⟩⟩
    · intro j hj r hr k hk
      obtain ⟨hnone, hp⟩ := hquiet j hj r hr k hk
      exact ⟨hnone, (forall_update_iff s.phase fun _ q => q.key ≠ some k).mpr
        ⟨hp, fun j' _ => (h.quiet j r hr k hk).2 j'⟩⟩

/-- A thread moves to a phase of a query, or rests. -/
theorem Coherent.move [DecidableEq τ] (h : Coherent D s) (hfits : p.Fits D s.server)
    (hkey : ∀ k, p.key = some k → ∀ j, ∀ r ∈ (s.phase j).pending, ¬D.affects r k)
    (hpending : p.pending = []) : Coherent D { s with phase := update s.phase i p } :=
  h.thread h.cached hfits (fun j _ => h.fits j) (by simp [hpending])
    fun j _ r hr k hk => ⟨(h.quiet j r hr k hk).1, fun hp => hkey k hp j r hr hk⟩

variable [DecidableEq κ] [DecidableEq τ]

theorem Coherent.step (h : Coherent D s) {a : Action ρ κ τ} (ha : Orderly D s a)
    (hstep : Step D s a t) : Coherent D t := by
  cases hstep with
  | ask _ haskable _ =>
    refine h.move haskable (fun k hk => ?_) rfl
    cases hk
    exact ha
  | @serve i k hp =>
    have hkey : (s.phase i).key = some k := by rw [hp]; rfl
    refine h.move ⟨(h.fits i).askable hkey, rfl⟩ (fun k' hk j r hr => ?_) rfl
    cases hk
    exact h.not_affects hkey hr
  | drop | finish => exact h.move trivial nofun rfl
  | @insert i k v hp =>
    have hkey : (s.phase i).key = some k := by rw [hp]; rfl
    have hfits : (Phase.answered k v : Phase ρ κ ν).Fits D s.server := hp ▸ h.fits i
    refine h.thread ?_ trivial (fun j _ => h.fits j) nofun fun j _ r hr k' hk' => ⟨?_, nofun⟩
    · refine (forall_update_iff s.cache fun k e => ∀ v, e = some v →
        D.askable s.server k ∧ v = D.answer s.server k).mpr ⟨?_, fun k' _ => h.cached k'⟩
      rintro _ ⟨⟩
      exact hfits
    · refine (update_of_ne ?_ ..).trans (h.quiet j r hr k' hk').1
      rintro rfl
      exact h.not_affects hkey hr hk'
  | @start i erased requests hp =>
    have herased : ∀ k, s.cache k = none → (if erased k then none else s.cache k) = none := by
      intro k hk
      rw [hk, ite_self]
    refine h.thread (fun k v hv => ?_) trivial (fun j _ => h.fits j) (fun r hr k hk => ?_)
      fun j _ r hr k hk => ⟨herased k (h.quiet j r hr k hk).1, nofun⟩
    · split at hv
      · cases hv
      · exact h.cached k v hv
    · rcases Classical.em (D.askable s.server k) with haskable | haskable
      · obtain ⟨hgone, hkeys⟩ := ha r hr k hk haskable
        refine ⟨?_, nofun, fun j _ => hkeys j⟩
        rcases hgone with hgone | hgone
        · rw [if_pos hgone]
        · exact herased k hgone
      · obtain ⟨hnone, hkeys⟩ := h.absent haskable
        exact ⟨herased k hnone, nofun, fun j _ => hkeys j⟩
  | @apply i r requests hp =>
    have hpending : (s.phase i).pending = r :: requests := by rw [hp]; rfl
    have hmem : ∀ r' ∈ r :: requests, r' ∈ (s.phase i).pending := fun r' hr' => hpending ▸ hr'
    refine h.thread (fun k v hv => ?_) trivial (fun j _ => (h.fits j).apply fun k hk =>
        h.not_affects hk (hmem r List.mem_cons_self))
      (fun r' hr' k hk => ?_) fun j _ r' hr' k hk => ⟨(h.quiet j r' hr' k hk).1, nofun⟩
    · have hnot : ¬D.affects r k := fun hk => by
        have hnone := (h.quiet i r (hmem r List.mem_cons_self) k hk).1
        rw [hv] at hnone
        cases hnone
      obtain ⟨haskable, rfl⟩ := h.cached k v hv
      exact ⟨D.askable_apply hnot _ haskable, (D.answer_apply hnot _).symm⟩
    · obtain ⟨hnone, hkeys⟩ := h.quiet i r' (hmem r' (List.mem_cons_of_mem r hr')) k hk
      exact ⟨hnone, nofun, fun j _ => hkeys j⟩

end ReplyCache

end Lupine.Foundations
