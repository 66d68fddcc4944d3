import Lupine.Foundations.ReplyCache

/-!
# The cached state of a primary context

`cuDevicePrimaryCtxGetState` keeps the reply of the server, for each virtual device, and answers
from it (`lupine_primary_ctx_state_cache`). The calls that change the state of a primary context
erase the entry of their virtual device and then send their requests. A query looks the entry up in
one step, so that its answer is right when the entry is.

* `cached_state_current`: when no change of a device overlaps with a query of it, and none is made
  while another virtual device has an entry for the same device, every entry is the server's state.
* `stale_state_cached`: a reply that is inserted after a change, or an entry of a second virtual
  device, stays in the cache.
-/

namespace Lupine.Contexts.PrimaryState

open Foundations Foundations.ReplyCache

variable {σ ι δ τ : Type*}

/-- `lupine_primary_ctx_state`. -/
structure CtxState where
  flags : UInt32
  active : Bool
  deriving DecidableEq

/-- The requests for a device of the server. -/
inductive Request (δ : Type*)
  | retain (dev : δ)
  | release (dev : δ)
  | reset (dev : δ)
  | setFlags (dev : δ) (flags : UInt32)

def Request.device : Request δ → δ
  | retain dev | release dev | reset dev | setFlags dev _ => dev

/-- The driver of the server: what the requests do to the state of its primary contexts. -/
structure Driver (σ δ : Type*) where
  perform : Request δ → σ → σ
  state : σ → δ → CtxState
  state_perform : ∀ {r p}, r.device ≠ p → ∀ s, state (perform r s) p = state s p

/-- The driver as the virtual devices see it. -/
def Driver.replier (D : Driver σ δ) (physical : ι → δ) : Replier σ (Request δ) ι CtxState where
  apply := D.perform
  answer s dev := D.state s (physical dev)
  askable _ _ := True
  affects r dev := r.device = physical dev
  answer_apply h s := D.state_perform h s
  askable_apply _ _ h := h

/-- The calls that erase an entry. A retain or release that the client only counts is none of them;
a reset is followed by a release when the client has a forwarded retain. -/
inductive Call (ι : Type*)
  | retain (dev : ι)
  | release (dev : ι)
  | setFlags (dev : ι) (flags : UInt32)
  | reset (dev : ι) (forwarded : Bool)

namespace Call

def device : Call ι → ι
  | retain dev | release dev | setFlags dev _ | reset dev _ => dev

def requests (physical : ι → δ) : Call ι → List (Request δ)
  | retain dev => [.retain (physical dev)]
  | release dev => [.release (physical dev)]
  | setFlags dev flags => [.setFlags (physical dev) flags]
  | reset dev forwarded =>
    .reset (physical dev) :: if forwarded then [.release (physical dev)] else []

end Call

variable [DecidableEq ι] [DecidableEq τ]

/-- The first step of a call: `lupine_invalidate_primary_ctx_state`. -/
def begin (physical : ι → δ) (i : τ) (c : Call ι) : Action (Request δ) ι τ :=
  .start i (fun dev => decide (dev = c.device)) (c.requests physical)

/-- A step of the client: a change is made by one of the calls. -/
def Move (D : Driver σ δ) (physical : ι → δ) (s : State σ (Request δ) ι CtxState τ)
    (a : Action (Request δ) ι τ) (t : State σ (Request δ) ι CtxState τ) : Prop :=
  (∀ i erased requests, a = .start i erased requests → ∃ c, a = begin physical i c) ∧
    Step (D.replier physical) s a t

/-- **The cached state is the server's.** In every state of an orderly run, whatever the driver
does, an answer from the cache is the state of the primary context. -/
theorem cached_state_current {D : Driver σ δ} {physical : ι → δ} {server : σ}
    {as : List (Action (Request δ) ι τ)} {s : State σ (Request δ) ι CtxState τ}
    (hrun : Trace (fun s a t => Orderly (D.replier physical) s a ∧ Move D physical s a t)
      (.init server) as s) {dev : ι} {v : CtxState} (hcached : s.cache dev = some v) :
    v = D.state s.server (physical dev) :=
  ((hrun.invariant (fun _ _ _ h hstep => h.step hstep.1 hstep.2.2)
    (coherent_init server)).cached dev v hcached).2

/-- A device that is active while it is retained. -/
def oneDevice : Driver (UInt32 × ℕ) Unit where
  perform
    | .retain _, s => (s.1, s.2 + 1)
    | .release _, s => (s.1, s.2 - 1)
    | .reset _, s => (0, s.2)
    | .setFlags _ flags, s => (flags, s.2)
  state s _ := ⟨s.1, decide (0 < s.2)⟩
  state_perform h := absurd rfl h

/-- A query, a retain that erases its entry, and a query again. -/
theorem cached_state_current_of_retain :
    ∃ s : State (UInt32 × ℕ) (Request Unit) Unit CtxState Bool, s.cache () = some ⟨0, true⟩ ∧
      (⟨0, true⟩ : CtxState) = oneDevice.state s.server () := by
  refine ⟨_, rfl, @cached_state_current _ _ _ _ _ _ oneDevice (fun _ => ()) (0, 0)
    [.ask true (), .serve true, .insert true, begin (fun _ => ()) false (.retain ()), .apply false,
      .finish false, .ask true (), .serve true, .insert true] _
    (.cons ⟨?_, nofun, .ask rfl trivial rfl⟩ <| .cons ⟨trivial, nofun, .serve rfl⟩ <|
      .cons ⟨trivial, nofun, .insert rfl⟩ <|
      .cons ⟨?_, fun _ _ _ h => ⟨.retain (), ?_⟩, .start rfl⟩ <|
        .cons ⟨trivial, nofun, .apply rfl⟩ <| .cons ⟨trivial, nofun, .finish rfl⟩ <|
      .cons ⟨?_, nofun, .ask rfl trivial rfl⟩ <| .cons ⟨trivial, nofun, .serve rfl⟩ <|
      .cons ⟨trivial, nofun, .insert rfl⟩ <| .nil _) () _ rfl⟩
  · rintro (_ | _) r hr <;> cases hr
  · exact fun _ _ _ _ _ => ⟨.inl rfl, by rintro (_ | _) <;> nofun⟩
  · cases h
    rfl
  · rintro (_ | _) r hr <;> cases hr

/-- The reply of a query is inserted after a retain that was made meanwhile. And a retain through
one virtual device leaves the entry that another one has for the same device. In both states no
call is active, and the cached state is not that of the server. -/
theorem stale_state_cached :
    (∃ (as : _) (s : State (UInt32 × ℕ) (Request Unit) Unit CtxState Bool),
      Trace (Move oneDevice fun _ => ()) (.init (0, 0)) as s ∧ (∀ i, s.phase i = .idle) ∧
      ∃ v, s.cache () = some v ∧ v ≠ oneDevice.state s.server ()) ∧
    ∃ (as : _) (s : State (UInt32 × ℕ) (Request Unit) Bool CtxState Unit),
      Trace (Move oneDevice fun _ => ()) (.init (0, 0)) as s ∧ (∀ i, s.phase i = .idle) ∧
      ∃ v, s.cache true = some v ∧ v ≠ oneDevice.state s.server () := by
  constructor
  · refine ⟨[.ask true (), .serve true, begin (fun _ => ()) false (.retain ()), .apply false,
      .finish false, .insert true], _, .cons ⟨nofun, .ask rfl trivial rfl⟩ <|
      .cons ⟨nofun, .serve rfl⟩ <|
      .cons ⟨fun _ _ _ h => ⟨.retain (), ?_⟩, .start rfl⟩ <| .cons ⟨nofun, .apply rfl⟩ <|
      .cons ⟨nofun, .finish rfl⟩ <| .cons ⟨nofun, .insert rfl⟩ <| .nil _, ?_, _, rfl, by decide⟩
    · cases h
      rfl
    · rintro (_ | _) <;> rfl
  · refine ⟨[.ask () true, .serve (), .insert (), begin (fun _ => ()) () (.retain false), .apply (),
      .finish ()], _, .cons ⟨nofun, .ask rfl trivial rfl⟩ <| .cons ⟨nofun, .serve rfl⟩ <|
      .cons ⟨nofun, .insert rfl⟩ <| .cons ⟨fun _ _ _ h => ⟨.retain false, ?_⟩, .start rfl⟩ <|
      .cons ⟨nofun, .apply rfl⟩ <| .cons ⟨nofun, .finish rfl⟩ <| .nil _, fun _ => rfl, _, rfl,
      by decide⟩
    cases h
    rfl

end Lupine.Contexts.PrimaryState
