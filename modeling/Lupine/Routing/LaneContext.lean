import Mathlib.Logic.Function.Basic
import Lupine.Foundations.Execution

/-!
# The context that a lane is bound to

Each thread of the client has a lane on every server, and the lane has a current context of its
own. `lupine_set_current_context_on_route` skips its request when the thread's cache says that the
lane is bound to the context already (`cache.cpp`). Entries carry the epoch at which they were
made. Releases of primary contexts, destructions and connections that open or close raise the epoch
on any thread, at any time.

`cuCtxSetCurrent`, `cuCtxPushCurrent_v2`, `cuCtxPopCurrent_v2` and the default route all bind the
lane through that function. `lupine_fetch_stale_range` binds it by itself. It is also run by
`lupine_prepare_rpc`, in the middle of a binding or ahead of any other request, and it returns
without touching the cache when its request fails.

* `State.step` interleaves the threads, the server and the invalidations.
* `Thread.Ok` is the invariant of one thread at each of its places.
* `matches_sound`: as long as no fetch loses a request that the server has executed, a thread that
  skips a request has its lane bound to the context.
* `fetch_lost`: after such a loss a thread skips a request that it needs.
-/

namespace Lupine.Routing.LaneContext

open Nat Function

open Foundations (exec Along exec_invariant_along exists_of_any)

variable {τ ρ κ : Type*}

/-! ## The cache of a thread -/

variable {epoch : ℕ} {t : τ}

/-- `lane_context_cache_entry`. No route is the initial `route_id`. -/
structure Entry (ρ κ : Type*) where
  epoch : ℕ
  route : Option ρ
  context : Option κ
  deriving DecidableEq

/-- `kLaneContextCacheSlots`. -/
abbrev slots : ℕ := 32

abbrev Cache (ρ κ : Type*) := Fin slots → Entry ρ κ

def Cache.initial : Cache ρ κ := fun _ => ⟨0, none, none⟩

/-- `lupine_note_device_binding_changed`. -/
def Cache.noteDeviceBindingChanged (c : Cache ρ κ) : Cache ρ κ :=
  fun i => { c i with epoch := 0 }

section Cache

variable [DecidableEq ρ] [DecidableEq κ] (slot : ρ → Fin slots)

/-- `lupine_lane_context_cache_matches`. -/
def Cache.matches (c : Cache ρ κ) (epoch : ℕ) (route : ρ) (context : Option κ) : Bool :=
  decide ((c (slot route)).route = some route ∧ (c (slot route)).context = context ∧
    (c (slot route)).epoch = epoch)

/-- `lupine_lane_context_cache_update`, with the epoch `loaded` before the request and the one
`current` at the update. -/
def Cache.update (c : Cache ρ κ) (current : ℕ) (route : ρ) (context : Option κ) (loaded : ℕ)
    (succeeded : Bool) : Cache ρ κ :=
  if succeeded = false ∨ current ≠ loaded then
    if (c (slot route)).route = some route then
      Function.update c (slot route) { c (slot route) with epoch := 0 }
    else c
  else Function.update c (slot route) ⟨loaded, some route, context⟩

end Cache

/-! ## Threads -/

/-- A binding that a thread asks for, `fetch` when it is `lupine_fetch_stale_range` that asks. -/
structure Binding (ρ κ : Type*) where
  route : ρ
  context : Option κ
  fetch : Bool
  deriving DecidableEq

variable {b : Binding ρ κ}

/-- Where a thread is in `lupine_set_current_context_on_route`, or in the same code of a fetch. -/
inductive Place (ρ κ : Type*)
  | idle
  /-- The cache did not match. -/
  | loading (b : Binding ρ κ)
  | sending (b : Binding ρ κ) (epoch : ℕ)
  /-- The request is on a connection of the route. -/
  | sent (b : Binding ρ κ) (epoch connection : ℕ)
  | replied (b : Binding ρ κ) (epoch : ℕ) (succeeded : Bool)
  /-- The cache has been cleared. -/
  | cleared (b : Binding ρ κ) (epoch : ℕ) (succeeded : Bool)
  deriving DecidableEq

/-- It is a fetch that waits for the reply. -/
def Place.fetching : Place ρ κ → Bool
  | .sent b _ _ => b.fetch
  | _ => false

/-- A thread, with its cache and its lanes: the contexts on the stack of each, current first. -/
structure Thread (ρ κ : Type*) where
  place : Place ρ κ
  /-- The binding whose `lupine_prepare_rpc` is running, with the epoch it has loaded. -/
  suspended : Option (Binding ρ κ × ℕ)
  cache : Cache ρ κ
  lane : ρ → List κ

variable {l : Thread ρ κ}

/-- The epoch, the connections of the routes and the threads with their lanes. -/
structure State (τ ρ κ : Type*) where
  epoch : ℕ
  /-- The number of the connection that a route uses. -/
  connection : ρ → ℕ
  thread : τ → Thread ρ κ

variable {s : State τ ρ κ}

/-- How a request ends. One that is refused or lost may have moved the lane. -/
inductive Reply
  | accepted
  | refused (moved : Bool)
  /-- The transport fails. `rpc_read_start` then closes the connection, which raises the epoch
  (`rpc_mark_connection_closed`); `rpc_write_end` and `rpc_read` do not. -/
  | lost (moved closed : Bool)
  deriving DecidableEq

/-- A step of a thread, an invalidation or a connection that opens. -/
inductive Action (τ ρ κ : Type*)
  | start (t : τ) (b : Binding ρ κ)
  | load (t : τ)
  /-- `lupine_prepare_rpc` of a binding may fetch, until `resume`. -/
  | prepare (t : τ)
  | resume (t : τ)
  | send (t : τ)
  | reply (t : τ) (r : Reply)
  | clear (t : τ)
  | update (t : τ)
  /-- `lupine_invalidate_current_context_cache`. -/
  | invalidate
  /-- A connection of a route opens, with new lanes (`connection_opened`). -/
  | opened (route : ρ)
  deriving DecidableEq

def State.initial : State τ ρ κ := ⟨1, fun _ => 0, fun _ => ⟨.idle, none, .initial, fun _ => []⟩⟩

/-- `cuCtxSetCurrent` on the server: NULL takes the current context off the stack. -/
def setCurrent (stack : List κ) : Option κ → List κ
  | none => stack.tail
  | some ctx => ctx :: stack.tail

section Step

variable [DecidableEq τ] [DecidableEq ρ] [DecidableEq κ] (slot : ρ → Fin slots)
  (isLocal : ρ → Bool)

namespace Thread

/-- The lane of a binding executes its request. -/
def move (l : Thread ρ κ) (b : Binding ρ κ) : Thread ρ κ :=
  { l with lane := Function.update l.lane b.route (setCurrent (l.lane b.route) b.context) }

def go (l : Thread ρ κ) (place : Place ρ κ) : Thread ρ κ := { l with place := place }

/-- Where a lost request leaves its thread: a fetch returns at once. -/
def giveUp (l : Thread ρ κ) (b : Binding ρ κ) (epoch : ℕ) : Thread ρ κ :=
  l.go (if b.fetch then .idle else .replied b epoch false)

end Thread

section

variable (s : State τ ρ κ)

def State.put (t : τ) (l : Thread ρ κ) : State τ ρ κ :=
  { s with thread := Function.update s.thread t l }

def State.invalidate : State τ ρ κ := { s with epoch := s.epoch + 1 }

def State.raise (closed : Bool) (s : State τ ρ κ) : State τ ρ κ :=
  if closed then s.invalidate else s

/-- The server and the connection answer a request. A request on an old connection is lost. -/
def State.reply (t : τ) (b : Binding ρ κ) (epoch connection : ℕ) :
    Reply → Option (State τ ρ κ)
  | .accepted =>
    if connection = s.connection b.route then
      some (s.put t (((s.thread t).move b).go (.replied b epoch true)))
    else none
  | .refused moved =>
    if connection = s.connection b.route then
      some (s.put t ((if moved then (s.thread t).move b else s.thread t).go
        (.replied b epoch false)))
    else none
  | .lost moved closed =>
    some (State.raise closed
      (s.put t ((if moved ∧ connection = s.connection b.route then (s.thread t).move b
        else s.thread t).giveUp b epoch)))

def State.step : Action τ ρ κ → Option (State τ ρ κ)
  | .start t b =>
    match (s.thread t).place with
    | .idle =>
      if (s.thread t).suspended.isSome ∧ b.fetch = false then none
      else if isLocal b.route = false ∧
          (s.thread t).cache.matches slot s.epoch b.route b.context then some s
      else some (s.put t ((s.thread t).go (.loading b)))
    | _ => none
  | .load t =>
    match (s.thread t).place with
    | .loading b => some (s.put t ((s.thread t).go (.sending b s.epoch)))
    | _ => none
  | .prepare t =>
    match (s.thread t).place, (s.thread t).suspended with
    | .sending b epoch, none =>
      if b.fetch then none
      else some (s.put t { s.thread t with place := .idle, suspended := some (b, epoch) })
    | _, _ => none
  | .resume t =>
    match (s.thread t).place, (s.thread t).suspended with
    | .idle, some (b, epoch) =>
      some (s.put t { s.thread t with place := .sending b epoch, suspended := none })
    | _, _ => none
  | .send t =>
    match (s.thread t).place with
    | .sending b epoch =>
      some (s.put t ((s.thread t).go (.sent b epoch (s.connection b.route))))
    | _ => none
  | .reply t r =>
    match (s.thread t).place with
    | .sent b epoch connection => s.reply t b epoch connection r
    | _ => none
  | .clear t =>
    match (s.thread t).place with
    | .replied b epoch succeeded =>
      some (s.put t ⟨.cleared b epoch succeeded, (s.thread t).suspended,
        (s.thread t).cache.noteDeviceBindingChanged, (s.thread t).lane⟩)
    | _ => none
  | .update t =>
    match (s.thread t).place with
    | .cleared b epoch succeeded =>
      some (s.put t ⟨.idle, (s.thread t).suspended,
        (s.thread t).cache.update slot s.epoch b.route b.context epoch succeeded,
        (s.thread t).lane⟩)
    | _ => none
  | .invalidate => some s.invalidate
  | .opened route =>
    some { s with
      epoch := s.epoch + 1
      connection := Function.update s.connection route (s.connection route + 1)
      thread := fun t =>
        { s.thread t with lane := Function.update (s.thread t).lane route [] } }

/-- The step does not lose a request of a fetch that has moved the lane, or closes the connection
with it. -/
def State.keeps : Action τ ρ κ → Bool
  | .reply t (.lost true false) => !(s.thread t).place.fetching
  | _ => true

end

end Step

/-! ## The invariant of a thread -/

namespace Thread

/-- The entries of the current epoch are true. -/
def Sound (epoch : ℕ) (l : Thread ρ κ) : Prop :=
  ∀ i route, (l.cache i).epoch = epoch → (l.cache i).route = some route →
    (l.lane route).head? = (l.cache i).context

/-- What a thread knows at its place: until the reply its cache is sound, after it the lane is bound
unless the epoch has moved on. -/
def Knows (epoch : ℕ) (l : Thread ρ κ) : Place ρ κ → Prop
  | .idle | .loading _ => l.Sound epoch
  | .sending _ e | .sent _ e _ => e ≤ epoch ∧ l.Sound epoch
  | .replied b e succeeded =>
      e ≤ epoch ∧ (succeeded = true → e = epoch → (l.lane b.route).head? = b.context)
  | .cleared b e succeeded =>
      e ≤ epoch ∧ (succeeded = true → e = epoch → (l.lane b.route).head? = b.context) ∧
        ∀ i, (l.cache i).epoch = 0

/-- A lane has at most one context, since bindings replace or remove it. -/
structure Ok (epoch : ℕ) (l : Thread ρ κ) : Prop where
  entry_le : ∀ i, (l.cache i).epoch ≤ epoch
  lane_le : ∀ route, (l.lane route).length ≤ 1
  suspended_le : ∀ b e, l.suspended = some (b, e) → e ≤ epoch
  knows : l.Knows epoch l.place

/-- No entry survives a new epoch. -/
theorem sound_succ (h : ∀ i, (l.cache i).epoch ≤ epoch) : l.Sound (epoch + 1) := by
  intro i route hepoch
  exact absurd (h i) (by omega)

theorem Knows.succ {l' : Thread ρ κ} (hcache : l'.cache = l.cache)
    (hentry : ∀ i, (l.cache i).epoch ≤ epoch) {place : Place ρ κ} (h : l.Knows epoch place) :
    l'.Knows (epoch + 1) place := by
  have hsound : l'.Sound (epoch + 1) := sound_succ (by rwa [hcache])
  cases place with
  | idle | loading => exact hsound
  | sending | sent => exact ⟨le_succ_of_le h.1, hsound⟩
  | replied => exact ⟨le_succ_of_le h.1, fun _ he => absurd h.1 (by omega)⟩
  | cleared =>
    exact ⟨le_succ_of_le h.1, fun _ he => absurd h.1 (by omega), hcache ▸ h.2.2⟩

/-- A new epoch leaves every thread as it was, whatever becomes of its lanes. -/
theorem Ok.succ {l' : Thread ρ κ} (h : l.Ok epoch) (hplace : l'.place = l.place)
    (hsuspended : l'.suspended = l.suspended) (hcache : l'.cache = l.cache)
    (hlane : ∀ route, (l'.lane route).length ≤ 1) : l'.Ok (epoch + 1) where
  entry_le i := le_succ_of_le (hcache ▸ h.entry_le i)
  lane_le := hlane
  suspended_le b e hb := le_succ_of_le (h.suspended_le b e (hsuspended ▸ hb))
  knows := hplace ▸ h.knows.succ hcache h.entry_le

theorem Ok.go (h : l.Ok epoch) {place : Place ρ κ} (hknows : l.Knows epoch place) :
    (l.go place).Ok epoch := by
  refine { h with knows := ?_ }
  cases place <;> exact hknows

theorem head?_setCurrent {stack : List κ} (h : stack.length ≤ 1) (ctx : Option κ) :
    (setCurrent stack ctx).head? = ctx := by
  cases ctx with
  | some ctx => rfl
  | none =>
    match stack, h with
    | [], _ => rfl
    | [_], _ => rfl

theorem length_setCurrent {stack : List κ} (h : stack.length ≤ 1) (ctx : Option κ) :
    (setCurrent stack ctx).length ≤ 1 := by
  cases ctx <;> simp only [setCurrent, List.length_cons, List.length_tail] <;> omega

section Move

variable [DecidableEq ρ]

theorem length_move (h : ∀ route, (l.lane route).length ≤ 1) (b : Binding ρ κ) (route : ρ) :
    ((l.move b).lane route).length ≤ 1 := by
  by_cases hroute : route = b.route
  · subst hroute
    simp only [move, update_self]
    exact length_setCurrent (h b.route) b.context
  · simp only [move, update_of_ne hroute]
    exact h route

theorem head?_move (h : ∀ route, (l.lane route).length ≤ 1) (b : Binding ρ κ) :
    ((l.move b).lane b.route).head? = b.context := by
  simp only [move, update_self]
  exact head?_setCurrent (h b.route) b.context

section

variable {e : ℕ} (h : l.Ok epoch) (he : e ≤ epoch)
include h he

theorem Ok.accepted (b : Binding ρ κ) : ((l.move b).go (.replied b e true)).Ok epoch :=
  ⟨h.entry_le, length_move h.lane_le b, h.suspended_le, he, fun _ _ => head?_move h.lane_le b⟩

section

variable (b : Binding ρ κ) (moved : Prop) [Decidable moved]

omit h he in
/-- A thread whose request may have moved the lane. -/
theorem length_ite_move (h : ∀ route, (l.lane route).length ≤ 1) (route : ρ) :
    ((if moved then l.move b else l).lane route).length ≤ 1 := by
  split
  · exact length_move h b route
  · exact h route

omit h he in
theorem cache_ite_move (l : Thread ρ κ) :
    (if moved then l.move b else l).cache = l.cache := by
  split <;> rfl

omit h he in
theorem suspended_ite_move (l : Thread ρ κ) :
    (if moved then l.move b else l).suspended = l.suspended := by
  split <;> rfl

theorem Ok.refused :
    ((if moved then l.move b else l).go (.replied b e false)).Ok epoch where
  entry_le i := (congrFun (cache_ite_move b moved l) i).symm ▸ h.entry_le i
  lane_le := length_ite_move b moved h.lane_le
  suspended_le b' e' hb := h.suspended_le b' e' (suspended_ite_move b moved l ▸ hb)
  knows := ⟨he, fun hsucceeded => nomatch hsucceeded⟩

end

/-- A lost request of a binding is like a refused one. That of a fetch leaves the cache as it was,
which is sound when the lane has not moved. -/
theorem Ok.lost (hsound : l.Sound epoch) {moved : Prop} [Decidable moved]
    (hkeeps : b.fetch = true → ¬moved) : ((if moved then l.move b else l).giveUp b e).Ok epoch := by
  rw [giveUp]
  by_cases hfetch : b.fetch = true
  · rw [if_pos hfetch, if_neg (hkeeps hfetch)]
    exact h.go hsound
  · rw [if_neg hfetch]
    exact h.refused he b moved

/-- When the connection closes with it, a lost request may have moved the lane. -/
theorem Ok.lost_closed (b : Binding ρ κ) (moved : Prop) [Decidable moved] :
    ((if moved then l.move b else l).giveUp b e).Ok (epoch + 1) := by
  rw [giveUp]
  have hrefused := h.refused he b moved
  have hnext : ((if moved then l.move b else l).go (.replied b e false)).Ok (epoch + 1) :=
    hrefused.succ rfl rfl rfl hrefused.lane_le
  by_cases hfetch : b.fetch = true
  · rw [if_pos hfetch]
    have hsound : ((if moved then l.move b else l).go (.replied b e false)).Knows (epoch + 1)
      .idle := sound_succ hrefused.entry_le
    exact hnext.go hsound
  · rw [if_neg hfetch]
    exact hnext

end

end Move

theorem Ok.clear {e : ℕ} {succeeded : Bool} (h : l.Ok epoch)
    (hplace : l.place = .replied b e succeeded) :
    (Thread.mk (.cleared b e succeeded) l.suspended l.cache.noteDeviceBindingChanged
      l.lane).Ok epoch := by
  have hknows := h.knows
  rw [hplace] at hknows
  exact ⟨fun _ => zero_le _, h.lane_le, h.suspended_le, hknows.1, hknows.2, fun _ => rfl⟩

section Update

variable [DecidableEq ρ] (slot : ρ → Fin slots)

/-- The one entry that an update leaves is about the lane that has just been bound. -/
theorem Ok.update {e : ℕ} {succeeded : Bool} (hepoch : 0 < epoch) (h : l.Ok epoch)
    (hplace : l.place = .cleared b e succeeded) :
    (Thread.mk .idle l.suspended (l.cache.update slot epoch b.route b.context e succeeded)
      l.lane).Ok epoch := by
  have hknows := h.knows
  rw [hplace] at hknows
  obtain ⟨he, hbound, hzero⟩ := hknows
  have hentry : ∀ i, ((l.cache.update slot epoch b.route b.context e succeeded) i).epoch = 0 ∨
      (succeeded = true ∧ e = epoch ∧
        (l.cache.update slot epoch b.route b.context e succeeded) i =
          ⟨e, some b.route, b.context⟩) := by
    intro i
    rw [Cache.update]
    by_cases hstore : succeeded = false ∨ epoch ≠ e
    · rw [if_pos hstore]
      left
      split
      · by_cases hi : i = slot b.route
        · rw [hi, update_self]
        · rw [update_of_ne hi, hzero]
      · exact hzero i
    · rw [if_neg hstore]
      by_cases hi : i = slot b.route
      · refine .inr ⟨?_, ?_, by rw [hi, update_self]⟩
        · simpa using fun hfalse => hstore (.inl hfalse)
        · exact (not_not.mp fun hne => hstore (.inr hne)).symm
      · exact .inl (by rw [update_of_ne hi, hzero])
  refine ⟨fun i => ?_, h.lane_le, h.suspended_le, fun i route hi hroute => ?_⟩
  · rcases hentry i with h0 | ⟨-, -, heq⟩
    · exact Nat.le_trans (Nat.le_of_eq h0) (Nat.zero_le _)
    · exact Nat.le_trans (Nat.le_of_eq (congrArg Entry.epoch heq)) he
  · rcases hentry i with h0 | ⟨hsucceeded, heq, hi'⟩
    · exact absurd (h0.symm.trans hi) (by omega)
    · simp only [hi', Option.some.injEq] at hroute ⊢
      exact hroute ▸ hbound hsucceeded heq

end Update

end Thread

/-! ## Every run -/

/-- What every thread remembers belongs to the epoch or to an older one. -/
structure State.Ok (s : State τ ρ κ) : Prop where
  epoch_pos : 0 < s.epoch
  thread : ∀ t, (s.thread t).Ok s.epoch

theorem State.ok_initial : (State.initial : State τ ρ κ).Ok :=
  ⟨Nat.one_pos, fun _ => ⟨fun _ => Nat.zero_le 1, fun _ => Nat.zero_le 1,
    fun _ _ hb => (nomatch hb), fun _ _ hepoch => (nomatch hepoch)⟩⟩

theorem State.Ok.invalidate (h : s.Ok) : s.invalidate.Ok :=
  ⟨succ_pos _, fun t => (h.thread t).succ rfl rfl rfl (h.thread t).lane_le⟩

section Runs

variable [DecidableEq τ]

theorem State.Ok.put (h : s.Ok) (hl : l.Ok s.epoch) : (s.put t l).Ok := by
  refine ⟨h.epoch_pos, fun u => ?_⟩
  by_cases hu : u = t
  · subst hu
    simpa only [State.put, update_self] using hl
  · simpa only [State.put, update_of_ne hu] using h.thread u

theorem State.Ok.put_invalidate (h : s.Ok) (hl : l.Ok (s.epoch + 1)) : (s.put t l).invalidate.Ok :=
  h.invalidate.put hl

variable [DecidableEq ρ]

theorem State.Ok.reply {s' : State τ ρ κ} (h : s.Ok) {e connection : ℕ}
    (hplace : (s.thread t).place = .sent b e connection) {r : Reply}
    (hkeeps : s.keeps (.reply t r) = true) (hstep : s.reply t b e connection r = some s') :
    s'.Ok := by
  have ht := h.thread t
  have hknows := ht.knows
  rw [hplace] at hknows
  obtain ⟨he, hsound⟩ := hknows
  cases r with
  | accepted =>
    simp only [State.reply, Option.ite_none_right_eq_some] at hstep
    obtain ⟨-, hstep⟩ := hstep
    cases hstep
    exact h.put (ht.accepted he b)
  | refused moved =>
    simp only [State.reply, Option.ite_none_right_eq_some] at hstep
    obtain ⟨-, hstep⟩ := hstep
    cases hstep
    exact h.put (ht.refused he b (moved = true))
  | lost moved closed =>
    cases hstep
    cases closed with
    | true => exact h.put_invalidate (ht.lost_closed he b _)
    | false =>
      refine h.put (ht.lost he hsound ?_)
      rintro hfetch ⟨rfl, -⟩
      simp [State.keeps, hplace, Place.fetching, hfetch] at hkeeps

variable [DecidableEq κ] (slot : ρ → Fin slots) (isLocal : ρ → Bool)

theorem State.Ok.step {s' : State τ ρ κ} (h : s.Ok) {a : Action τ ρ κ} (hkeeps : s.keeps a = true)
    (hstep : s.step slot isLocal a = some s') : s'.Ok := by
  cases a with
  | start t b =>
    have hknows := (h.thread t).knows
    simp only [State.step] at hstep
    split at hstep
    · next hplace =>
      rw [hplace] at hknows
      split at hstep
      · cases hstep
      · split at hstep <;> cases hstep
        · exact h
        · exact h.put ((h.thread t).go hknows)
    · cases hstep
  | load t =>
    have hknows := (h.thread t).knows
    simp only [State.step] at hstep
    split at hstep <;> cases hstep
    next hplace =>
    rw [hplace] at hknows
    exact h.put ((h.thread t).go ⟨Nat.le_refl _, hknows⟩)
  | prepare t =>
    have ht := h.thread t
    have hknows := ht.knows
    simp only [State.step] at hstep
    split at hstep
    · next b e hplace _ =>
      rw [hplace] at hknows
      split at hstep <;> cases hstep
      refine h.put ⟨ht.entry_le, ht.lane_le, fun b' e' hb => ?_, hknows.2⟩
      cases hb
      exact hknows.1
    · cases hstep
  | resume t =>
    have ht := h.thread t
    have hknows := ht.knows
    simp only [State.step] at hstep
    split at hstep <;> cases hstep
    next b e hplace hsuspended =>
    rw [hplace] at hknows
    exact h.put ⟨ht.entry_le, ht.lane_le, fun _ _ hb => (nomatch hb),
      ht.suspended_le b e hsuspended, hknows⟩
  | send t =>
    have hknows := (h.thread t).knows
    simp only [State.step] at hstep
    split at hstep <;> cases hstep
    next hplace =>
    rw [hplace] at hknows
    exact h.put ((h.thread t).go hknows)
  | reply t r =>
    simp only [State.step] at hstep
    split at hstep
    · next hplace => exact h.reply hplace hkeeps hstep
    · cases hstep
  | clear t =>
    simp only [State.step] at hstep
    split at hstep <;> cases hstep
    next hplace => exact h.put ((h.thread t).clear hplace)
  | update t =>
    simp only [State.step] at hstep
    split at hstep <;> cases hstep
    next hplace => exact h.put ((h.thread t).update slot h.epoch_pos hplace)
  | invalidate =>
    cases hstep
    exact h.invalidate
  | opened route =>
    cases hstep
    refine ⟨succ_pos _, fun t => (h.thread t).succ rfl rfl rfl fun r => ?_⟩
    by_cases hr : r = route
    · simp [hr]
    · simpa only [update_of_ne hr] using (h.thread t).lane_le r

/-- **The lane context cache is sound while no fetch loses a binding.** After every interleaving of
bindings and fetches by any number of threads, with replies, refusals and lost requests,
invalidations and new connections, in which no request of a fetch is lost after the server has
executed it unless the connection closes with it: when a thread that is about to bind a route finds
that its cache matches, so that it sends no request, its lane has the context as the current one. -/
theorem matches_sound (as : List (Action τ ρ κ)) (s : State τ ρ κ)
    (hexec : exec (State.step slot isLocal) State.initial as = some s)
    (hkeeps : Along (State.step slot isLocal) (fun s a => s.keeps a = true) State.initial as)
    (t : τ) (hidle : (s.thread t).place = .idle) (route : ρ) (context : Option κ)
    (hmatches : (s.thread t).cache.matches slot s.epoch route context = true) :
    ((s.thread t).lane route).head? = context := by
  have hs : s.Ok := exec_invariant_along
    (fun _ _ _ h hk hstep => State.Ok.step slot isLocal h hk hstep) State.ok_initial hkeeps hexec
  have hknows := (hs.thread t).knows
  rw [hidle] at hknows
  simp only [Cache.matches, decide_eq_true_eq] at hmatches
  obtain ⟨hroute, hcontext, hepoch⟩ := hmatches
  exact hcontext ▸ hknows (slot route) route hepoch hroute

end Runs

/-- `lupine_set_current_context_on_route`, answered by the server. -/
def bind (t : τ) (route context : ℕ) : List (Action τ ℕ ℕ) :=
  [.start t ⟨route, some context, false⟩, .load t, .send t, .reply t .accepted, .clear t,
    .update t]

/-- A primary context is released while a thread binds its lane. The thread then loses the request
of a fetch together with the connection, and binds again. -/
def rebound (t : τ) : List (Action τ ℕ ℕ) :=
  [.start t ⟨1, some 7, false⟩, .load t, .send t, .reply t .accepted, .invalidate, .clear t,
    .update t, .start t ⟨1, some 8, true⟩, .load t, .send t, .reply t (.lost true true)] ++
    bind t 1 7

/-- The state after `rebound`, in which the thread skips a request. -/
theorem matches_sound_of_rebound : ∃ s : State (Fin 2) ℕ ℕ,
    exec (State.step (Fin.ofNat slots) fun _ => false) State.initial (rebound 0) = some s ∧
      (s.thread 0).cache.matches (Fin.ofNat slots) s.epoch 1 (some 7) = true ∧
      ((s.thread 0).lane 1).head? = some 7 := by
  refine exists_of_any (p := fun s => (s.thread 0).place = .idle ∧
    (s.thread 0).cache.matches (Fin.ofNat slots) s.epoch 1 (some 7) = true) (by decide)
    fun s hs h => ?_
  exact ⟨h.2, matches_sound (Fin.ofNat slots) (fun _ => false) (rebound 0) s hs (by decide) 0 h.1 1
    (some 7) h.2⟩

/-- The lane is bound to 7. The server executes the binding of a fetch to 8, and the transport fails
before the thread has read the result. -/
def lostFetch (t : τ) : List (Action τ ℕ ℕ) :=
  bind t 1 7 ++ [.start t ⟨1, some 8, true⟩, .load t, .send t, .reply t (.lost true false)]

/-- **A fetch loses its binding.** The cache still says 7, so that the thread skips the request that
would bind the lane to it, and the lane has 8. -/
theorem fetch_lost :
    (exec (State.step (Fin.ofNat slots) fun _ => false) State.initial (lostFetch 0)).any (fun s =>
      (s.thread (0 : Fin 2)).place = .idle ∧
        (s.thread 0).cache.matches (Fin.ofNat slots) s.epoch 1 (some 7) ∧
        ((s.thread 0).lane 1).head? = some 8) = true := by decide

end Lupine.Routing.LaneContext
