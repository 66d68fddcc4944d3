import Mathlib.Data.Int.Notation
import Mathlib.Data.List.Nodup
import Mathlib.Order.Basic

/-!
# Agreeing on an address arena

A connection owns an arena, a range of addresses that both ends reserve. `connect_endpoint` offers
one in its handshake: a slot of a window, the first one from `min_slot` on that it can reserve
itself. A peer that cannot reserve the range answers `409` and states its own window. The client
then starts over in that window when it is another one, and otherwise goes to the next slot.

The client is given by its window and by the outcomes of its reservations, which may change from
one round to the next; the peer is any machine that answers handshakes. `Server` is the peer of
this repository: it keeps an arena once it has reserved it and states it in a `200` response.
Addresses are natural numbers: `rpc_http2_peer_va_window` refuses a window that does not end below
`UINTPTR_MAX`, so no sum wraps.

* `Client.turn_spec`: what one round of the loop does.
* `Client.offers_nodup`: an offer is repeated only when the peer leads the client back to a window
  that it has left.
* `Client.settled`: in a window that the peer does not contradict, the loop ends after the slots
  that are left.
* `Client.arena_agreement`: with a peer whose stated window is constant the loop ends after one
  change of window and eight slots at most and repeats no offer, and with the server of this
  repository both ends hold the arena of a successful connection.
* `Client.offers_repeated`: a peer that states two windows in turn gets the same offer again.
-/

namespace Lupine.Transport.Handshake

open List Nat

/-- `LUPINE_VA_ARENA_COUNT`. -/
def arenaCount : ℕ := 8

/-- `LUPINE_VA_WRITE_BASE`. -/
def writeBase : ℕ := 0x500000000000

/-- `UINTPTR_MAX`. -/
def uintptrMax : ℕ := 0xffffffffffffffff

/-- `lupine_va_window`. -/
structure Window where
  base : ℕ
  size : ℕ
  deriving DecidableEq, Repr

variable {w : Window}

/-- The arena of a connection: `va_base` and `va_size`. -/
structure Arena where
  base : ℕ
  size : ℕ
  deriving DecidableEq, Repr

/-- The arena in a slot of a window. -/
def Window.arena (w : Window) (slot : ℕ) : Arena :=
  ⟨w.base + slot * (w.size / arenaCount), w.size / arenaCount⟩

/-- The response to a handshake: the status, the window that its headers state and the arena that
they grant. -/
structure Response where
  status : ℕ
  window : Option Window
  arena : Option Arena
  deriving DecidableEq, Repr

/-- `rpc_http2_peer_va_window`. -/
def Response.peerVaWindow (r : Response) : Option Window :=
  r.window.filter fun w => !(w.size = 0 || w.base > uintptrMax - w.size)

/-- The other end of the connection. It answers a handshake, which may ask for an arena, or the
connection fails. -/
structure Peer (σ : Type) where
  respond : σ → Option Arena → Option Response × σ

/-- The peer states the same window, or no usable one, in every response. -/
def Peer.StatesOnly {σ : Type} (p : Peer σ) (stated : Option Window) : Prop :=
  ∀ peer request r peer', p.respond peer request = (some r, peer') → r.peerVaWindow = stated

/-- What `rpc_http2_client_await_ready` returns. -/
inductive Http2
  | ready
  | clientMismatch
  | vaConflict
  | failed
  deriving DecidableEq, Repr

/-- `rpc_http2_client_await_ready` on a connection with the arena `va`. -/
def awaitReady (va : Option Arena) : Option Response → Http2
  | none => .failed
  | some r =>
    if r.status = 426 then .clientMismatch
    else
      match va with
      | none => if r.status = 200 then .ready else .failed
      | some a =>
        if r.status = 200 ∧ r.arena = some a then .ready
        else if r.status = 409 then .vaConflict
        else .failed

theorem awaitReady_eq_ready {a : Arena} {answer : Option Response}
    (h : awaitReady (some a) answer = .ready) :
    ∃ r, answer = some r ∧ r.status = 200 ∧ r.arena = some a := by
  cases answer with
  | none => cases h
  | some r =>
    refine ⟨r, rfl, ?_⟩
    simp only [awaitReady] at h
    split at h
    · cases h
    · split at h
      · assumption
      · split at h <;> cases h

theorem awaitReady_eq_vaConflict {va : Option Arena} {answer : Option Response}
    (h : awaitReady va answer = .vaConflict) : ∃ r, answer = some r := by
  cases answer with
  | none => cases h
  | some r => exact ⟨r, rfl⟩

/-- How `connect_endpoint` ends; `unfinished` when it was given too little time. -/
inductive Outcome
  | failed
  | connected (va : Option Arena)
  | unfinished
  deriving DecidableEq, Repr

/-- The run of `connect_endpoint`: its end, the slots that it offered, the windows that it
adopted, and the peer after it. -/
structure Trace (σ : Type) where
  outcome : Outcome
  offers : List (Window × ℕ)
  adopted : List Window
  peer : σ

/-- The client: whether it uses arenas (`w_offset`), its window, whether TLS can be set up, and
whether the two reservations of a slot succeed in a round. -/
structure Client where
  usesArenas : Bool
  window : Window
  tls : Bool
  free : ℕ → Window → ℕ → Bool

namespace Client

variable {σ : Type}
variable {p : Peer σ}

section

variable (c : Client)

/-- `lupine_va_reserve_client`: the first slot whose range and write alias can both be reserved.
In a window at `writeBase` the two ranges are the same. -/
def reserveClient (round : ℕ) (w : Window) (minSlot : ℕ) : Option ℕ :=
  if w.size / arenaCount = 0 then none
  else
    (List.range' minSlot (arenaCount - minSlot)).find? fun slot =>
      c.free round w slot && w.base ≠ writeBase

/-- The end of a round of the loop: `connect_endpoint` returns, with or without having offered a
slot, or it has offered a slot and goes on in another window or with the next slot. -/
inductive Turn (σ : Type)
  | stop (outcome : Outcome) (offers : List (Window × ℕ)) (peer : σ)
  | adopt (slot : ℕ) (w : Window) (peer : σ)
  | nextSlot (slot : ℕ) (peer : σ)

/-- The reaction to a conflict about a slot of the window `w`, when the peer stated a window. -/
def conflict (w : Window) (slot : ℕ) (stated : Option Window) (peer : σ) : Turn σ :=
  let next : Turn σ :=
    if slot + 1 < arenaCount then .nextSlot slot peer else .stop .failed [(w, slot)] peer
  match stated with
  | some w' => if w' = w then next else .adopt slot w' peer
  | none => next

/-- A handshake that offers a slot. -/
def offer (p : Peer σ) (w : Window) (slot : ℕ) (peer : σ) : Turn σ :=
  let answer := p.respond peer (some (w.arena slot))
  match awaitReady (some (w.arena slot)) answer.1 with
  | .ready => .stop (.connected (some (w.arena slot))) [(w, slot)] answer.2
  | .vaConflict => conflict w slot (answer.1.bind Response.peerVaWindow) answer.2
  | _ => .stop .failed [(w, slot)] answer.2

/-- A handshake without an arena. -/
def plain (p : Peer σ) (peer : σ) : Turn σ :=
  let answer := p.respond peer none
  match awaitReady none answer.1 with
  | .ready => .stop (.connected none) [] answer.2
  | _ => .stop .failed [] answer.2

/-- A round of the loop of `connect_endpoint`. The first one sets up TLS. -/
def turn (p : Peer σ) (round : ℕ) (w : Window) (minSlot : ℕ) (peer : σ) : Turn σ :=
  if c.usesArenas ∧ w.size ≠ 0 then
    match c.reserveClient round w minSlot with
    | none => .stop .failed [] peer
    | some slot =>
      if round = 0 ∧ c.tls = false then .stop .failed [] peer else offer p w slot peer
  else if round = 0 ∧ c.tls = false then .stop .failed [] peer
  else plain p peer

/-- The loop of `connect_endpoint`, for at most `fuel` rounds. -/
def connectLoop (c : Client) (p : Peer σ) : ℕ → ℕ → Window → ℕ → σ → Trace σ
  | 0, _, _, _, peer => ⟨.unfinished, [], [], peer⟩
  | fuel + 1, round, w, minSlot, peer =>
    match c.turn p round w minSlot peer with
    | .stop outcome offers peer' => ⟨outcome, offers, [], peer'⟩
    | .adopt slot w' peer' =>
      let t := connectLoop c p fuel (round + 1) w' 0 peer'
      { t with offers := (w, slot) :: t.offers, adopted := w' :: t.adopted }
    | .nextSlot slot peer' =>
      let t := connectLoop c p fuel (round + 1) w (slot + 1) peer'
      { t with offers := (w, slot) :: t.offers }

/-- `connect_endpoint`, as far as it settles the arena. -/
def connectEndpoint (p : Peer σ) (fuel : ℕ) (peer : σ) : Trace σ :=
  c.connectLoop p fuel 0 c.window 0 peer

/-! ## A round -/

theorem reserveClient_spec {c : Client} {round minSlot slot : ℕ}
    (h : c.reserveClient round w minSlot = some slot) : minSlot ≤ slot ∧ slot < arenaCount := by
  unfold reserveClient at h
  split at h
  · cases h
  · have hmem := mem_of_find?_eq_some h
    rw [mem_range'_1] at hmem
    omega

/-- What a round that started in the window `w` at `minSlot` did: it offered a slot from
`minSlot` on, it takes another window only on the peer's word, and it reports an arena only when
the peer granted it. -/
def Turn.Spec (p : Peer σ) (w : Window) (minSlot : ℕ) (peer : σ) : Turn σ → Prop
  | .stop outcome offers peer' =>
    (offers = [] ∨ ∃ slot, minSlot ≤ slot ∧ slot < arenaCount ∧ offers = [(w, slot)]) ∧
    outcome ≠ .unfinished ∧
    ∀ a, outcome = .connected (some a) →
      ∃ r, p.respond peer (some a) = (some r, peer') ∧ r.status = 200 ∧ r.arena = some a
  | .adopt slot w' peer' =>
    minSlot ≤ slot ∧ slot < arenaCount ∧ w' ≠ w ∧
    ∃ r, p.respond peer (some (w.arena slot)) = (some r, peer') ∧ r.peerVaWindow = some w'
  | .nextSlot slot peer' =>
    minSlot ≤ slot ∧ slot + 1 < arenaCount ∧
    ∃ r, p.respond peer (some (w.arena slot)) = (some r, peer') ∧
      (r.peerVaWindow = none ∨ r.peerVaWindow = some w)

theorem conflict_spec {minSlot slot : ℕ} {peer peer' : σ} {r : Response} (hle : minSlot ≤ slot)
    (hlt : slot < arenaCount) (hr : p.respond peer (some (w.arena slot)) = (some r, peer')) :
    (conflict w slot r.peerVaWindow peer').Spec p w minSlot peer := by
  have hnext (hstated : r.peerVaWindow = none ∨ r.peerVaWindow = some w) :
      (if slot + 1 < arenaCount then Turn.nextSlot slot peer'
        else .stop .failed [(w, slot)] peer').Spec p w minSlot peer := by
    split
    · next h => exact ⟨hle, h, r, hr, hstated⟩
    · exact ⟨.inr ⟨slot, hle, hlt, rfl⟩, by simp, by simp⟩
  unfold conflict
  cases hstated : r.peerVaWindow with
  | none => exact hnext (.inl hstated)
  | some w' =>
    by_cases heq : w' = w
    · rw [heq] at hstated
      simpa only [if_pos heq] using hnext (.inr hstated)
    · simpa only [if_neg heq] using ⟨hle, hlt, heq, r, hr, hstated⟩

theorem offer_spec {minSlot slot : ℕ} {peer : σ} (hle : minSlot ≤ slot) (hlt : slot < arenaCount) :
    (offer p w slot peer).Spec p w minSlot peer := by
  rcases hans : p.respond peer (some (w.arena slot)) with ⟨answer, peer'⟩
  have hfail : (Turn.stop .failed [(w, slot)] peer').Spec p w minSlot peer :=
    ⟨.inr ⟨slot, hle, hlt, rfl⟩, by simp, by simp⟩
  simp only [offer, hans]
  split
  · next hready =>
    obtain ⟨r, rfl, hstatus, harena⟩ := awaitReady_eq_ready hready
    refine ⟨.inr ⟨slot, hle, hlt, rfl⟩, by simp, fun a ha => ?_⟩
    cases ha
    exact ⟨r, hans, hstatus, harena⟩
  · next hconflict =>
    obtain ⟨r, rfl⟩ := awaitReady_eq_vaConflict hconflict
    exact conflict_spec hle hlt hans
  · exact hfail

theorem turn_spec (p : Peer σ) (round : ℕ) (w : Window) (minSlot : ℕ) (peer : σ) :
    (c.turn p round w minSlot peer).Spec p w minSlot peer := by
  have hfail (peer' : σ) : (Turn.stop .failed [] peer').Spec p w minSlot peer :=
    ⟨.inl rfl, by simp, by simp⟩
  unfold turn
  split
  · split
    · exact hfail peer
    · next slot hslot =>
      obtain ⟨hle, hlt⟩ := reserveClient_spec hslot
      split
      · exact hfail peer
      · exact offer_spec hle hlt
  · split
    · exact hfail peer
    · unfold plain
      simp only
      split
      · exact ⟨.inl rfl, by simp, by simp⟩
      · exact hfail _

/-! ## Offers -/

/-- A run offers later slots of its window, or slots of the windows that it adopts. -/
theorem mem_offers (p : Peer σ) (fuel round : ℕ) (w : Window) (minSlot : ℕ) (peer : σ)
    {o : Window × ℕ} (ho : o ∈ (c.connectLoop p fuel round w minSlot peer).offers) :
    (o.1 = w ∧ minSlot ≤ o.2) ∨ o.1 ∈ (c.connectLoop p fuel round w minSlot peer).adopted := by
  induction fuel generalizing round w minSlot peer with
  | zero => cases ho
  | succ fuel ih =>
    have hspec := c.turn_spec p round w minSlot peer
    simp only [connectLoop] at ho ⊢
    cases hturn : c.turn p round w minSlot peer with
    | stop outcome offers peer' =>
      rw [hturn] at ho hspec
      obtain ⟨rfl | ⟨slot, hle, -, rfl⟩, -⟩ := hspec
      · cases ho
      · rw [mem_singleton.1 ho]
        exact .inl ⟨rfl, hle⟩
    | adopt slot w' peer' =>
      simp only [hturn, mem_cons] at ho hspec ⊢
      obtain rfl | ho := ho
      · exact .inl ⟨rfl, hspec.1⟩
      · exact .inr ((ih _ _ _ _ ho).imp_left And.left)
    | nextSlot slot peer' =>
      simp only [hturn, mem_cons] at ho hspec ⊢
      obtain rfl | ho := ho
      · exact .inl ⟨rfl, hspec.1⟩
      · exact (ih _ _ _ _ ho).imp_left fun h => ⟨h.1, Nat.le_trans hspec.1 (Nat.le_of_succ_le h.2)⟩

/-- **Repeated offers.** A run that never returns to a window that it has left offers no slot
twice. -/
theorem offers_nodup (p : Peer σ) (fuel round : ℕ) (w : Window) (minSlot : ℕ) (peer : σ)
    (h : (w :: (c.connectLoop p fuel round w minSlot peer).adopted).Nodup) :
    (c.connectLoop p fuel round w minSlot peer).offers.Nodup := by
  induction fuel generalizing round w minSlot peer with
  | zero => exact nodup_nil
  | succ fuel ih =>
    have hspec := c.turn_spec p round w minSlot peer
    simp only [connectLoop] at h ⊢
    cases hturn : c.turn p round w minSlot peer with
    | stop outcome offers peer' =>
      rw [hturn] at hspec
      obtain ⟨rfl | ⟨slot, -, -, rfl⟩, -⟩ := hspec
      · exact nodup_nil
      · exact nodup_singleton _
    | adopt slot w' peer' =>
      simp only [hturn] at h ⊢
      obtain ⟨hw, hrest⟩ := nodup_cons.1 h
      refine nodup_cons.2 ⟨fun hmem => hw ?_, ih _ _ _ _ hrest⟩
      exact mem_cons.2 ((mem_offers _ _ _ _ _ _ _ hmem).imp_left And.left)
    | nextSlot slot peer' =>
      simp only [hturn] at h ⊢
      refine nodup_cons.2 ⟨fun hmem => ?_, ih _ _ _ _ h⟩
      -- The slot lies below those that are offered later in this window.
      obtain ⟨-, hle⟩ | hmem := mem_offers _ _ _ _ _ _ _ hmem
      · exact absurd hle (not_succ_le_self slot)
      · exact (nodup_cons.1 h).1 hmem

/-! ## A peer with one window -/

/-- In a window that the peer does not contradict, the loop keeps to the window and ends after the
slots that are left. -/
theorem settled {stated : Option Window} (hp : p.StatesOnly stated) (fuel round : ℕ)
    (hw : stated = none ∨ stated = some w) (minSlot : ℕ) (peer : σ) :
    (c.connectLoop p fuel round w minSlot peer).adopted = [] ∧
    (c.connectLoop p fuel round w minSlot peer).offers.length ≤ arenaCount - minSlot ∧
    (arenaCount - minSlot < fuel →
      (c.connectLoop p fuel round w minSlot peer).outcome ≠ .unfinished) := by
  induction fuel generalizing round minSlot peer with
  | zero => exact ⟨rfl, zero_le _, fun h => absurd h (not_lt_zero _)⟩
  | succ fuel ih =>
    have hspec := c.turn_spec p round w minSlot peer
    simp only [connectLoop]
    cases hturn : c.turn p round w minSlot peer with
    | stop outcome offers peer' =>
      rw [hturn] at hspec
      obtain ⟨hoffers, hdone, -⟩ := hspec
      refine ⟨rfl, ?_, fun _ => hdone⟩
      obtain rfl | ⟨slot, hle, hlt, rfl⟩ := hoffers
      · exact zero_le _
      · simp only [length_singleton]
        omega
    | adopt slot w' peer' =>
      rw [hturn] at hspec
      obtain ⟨-, -, hne, r, hr, hstated⟩ := hspec
      rw [hp _ _ _ _ hr] at hstated
      obtain rfl | rfl := hw
      · cases hstated
      · cases hstated
        exact absurd rfl hne
    | nextSlot slot peer' =>
      rw [hturn] at hspec
      obtain ⟨hle, hlt, -⟩ := hspec
      obtain ⟨hadopted, hlength, hdone⟩ := ih (round + 1) (slot + 1) peer'
      refine ⟨hadopted, ?_, fun hfuel => hdone (by omega)⟩
      simp only [length_cons]
      omega

/-- A peer with one window: the loop changes its window once at most and ends after eight slots
in the last one. -/
theorem connectEndpoint_of_statesOnly {stated : Option Window} (hp : p.StatesOnly stated) (fuel : ℕ)
    (peer : σ) :
    (c.window :: (c.connectEndpoint p fuel peer).adopted).Nodup ∧
    (c.connectEndpoint p fuel peer).adopted.length ≤ 1 ∧
    (c.connectEndpoint p fuel peer).offers.length ≤
      (c.connectEndpoint p fuel peer).adopted.length + arenaCount ∧
    (arenaCount + 2 ≤ fuel → (c.connectEndpoint p fuel peer).outcome ≠ .unfinished) := by
  by_cases hw : stated = none ∨ stated = some c.window
  · obtain ⟨hadopted, hlength, hdone⟩ := c.settled hp fuel 0 hw 0 peer
    unfold connectEndpoint
    rw [hadopted]
    refine ⟨nodup_singleton _, zero_le _, ?_, fun hfuel => hdone (by omega)⟩
    simpa using hlength
  · cases fuel with
    | zero => exact ⟨nodup_singleton _, zero_le _, zero_le _, fun h => by omega⟩
    | succ fuel =>
      have hspec := c.turn_spec p 0 c.window 0 peer
      simp only [connectEndpoint, connectLoop]
      cases hturn : c.turn p 0 c.window 0 peer with
      | stop outcome offers peer' =>
        rw [hturn] at hspec
        obtain ⟨hoffers, hdone, -⟩ := hspec
        refine ⟨nodup_singleton _, zero_le _, ?_, fun _ => hdone⟩
        obtain rfl | ⟨slot, -, -, rfl⟩ := hoffers
        · exact zero_le _
        · exact succ_le_of_lt (succ_pos 7)
      | adopt slot w' peer' =>
        rw [hturn] at hspec
        obtain ⟨-, -, hne, r, hr, hstated⟩ := hspec
        -- The other window is the one that the peer always states.
        rw [hp _ _ _ _ hr] at hstated
        obtain ⟨hadopted, hlength, hdone⟩ := c.settled hp fuel 1 (.inr hstated) 0 peer'
        simp only [Nat.zero_add, hadopted, length_cons, length_nil]
        refine ⟨?_, Nat.le_refl 1, ?_, fun hfuel => hdone (by omega)⟩
        · simpa using Ne.symm hne
        · omega
      | nextSlot slot peer' =>
        rw [hturn] at hspec
        obtain ⟨-, -, r, hr, hstated⟩ := hspec
        rw [hp _ _ _ _ hr] at hstated
        exact absurd hstated hw

/-! ## The server -/

/-- A successful run ends with a response that grants the arena. -/
theorem granted (p : Peer σ) (fuel round : ℕ) (w : Window) (minSlot : ℕ) (peer : σ) {a : Arena}
    (h : (c.connectLoop p fuel round w minSlot peer).outcome = .connected (some a)) :
    ∃ before r, p.respond before (some a) =
        (some r, (c.connectLoop p fuel round w minSlot peer).peer) ∧
      r.status = 200 ∧ r.arena = some a := by
  induction fuel generalizing round w minSlot peer with
  | zero => cases h
  | succ fuel ih =>
    have hspec := c.turn_spec p round w minSlot peer
    simp only [connectLoop] at h ⊢
    cases hturn : c.turn p round w minSlot peer with
    | stop outcome offers peer' =>
      rw [hturn] at h hspec
      exact ⟨peer, hspec.2.2 a h⟩
    | adopt slot w' peer' | nextSlot slot peer' =>
      rw [hturn] at h
      exact ih _ _ _ _ h

end

end Client

/-- The server end: its window (of size zero when it hosts none), the status that a request gets
before its arena is looked at (`200`, `400` or `426`), and whether `lupine_va_reserve_exact` can
map an arena at that request. -/
structure Server where
  window : Window
  status : ℕ → ℕ
  free : ℕ → Arena → Bool

/-- The requests that the server has answered and the arena of its connection. -/
structure ServerState where
  requests : ℕ
  arena : Option Arena
  deriving DecidableEq, Repr

namespace Server

/-- `lupine_va_reserve_server`: a connection reserves one arena at most. -/
def reserve (srv : Server) (s : ServerState) (a : Arena) : Option ServerState :=
  if s.arena.isSome || !srv.free s.requests a then none else some { s with arena := some a }

/-- The status of the response and the state after the arena of a request was reserved. -/
def answer (srv : Server) (s : ServerState) : Option Arena → ℕ × ServerState
  | none => (srv.status s.requests, s)
  | some a =>
    match srv.reserve s a with
    | none => (409, s)
    | some s' => (srv.status s.requests, s')

/-- The server as a peer: every response states its window, and one with status `200` the arena
of the connection. -/
def peer (srv : Server) : Peer ServerState where
  respond s request :=
    let admitted := srv.answer s request
    (some
      { status := admitted.1
        window := if srv.window.size = 0 then none else some srv.window
        arena := if admitted.1 = 200 then admitted.2.arena else none },
      { admitted.2 with requests := s.requests + 1 })

/-- The server states its window in every response. -/
theorem statesOnly_peer (srv : Server) : srv.peer.StatesOnly
    (Response.peerVaWindow ⟨200, if srv.window.size = 0 then none else some srv.window, none⟩) := by
  rintro s request r s' ⟨⟩
  rfl

end Server

/-! ## Agreement -/

namespace Client

/-- **Arena agreement.** For every client, an offer is repeated only when the peer leads the
client back to a window that it has left. With a peer whose stated window is constant the client
offers nothing twice, changes its window once at most, tries eight slots of its last window at
most, and ends. A successful connection with an arena ends with a response that grants it, and
leaves the server of this repository with that arena. -/
theorem arena_agreement (c : Client) :
    (∀ (σ : Type) (p : Peer σ) (fuel : ℕ) (peer : σ),
      (c.window :: (c.connectEndpoint p fuel peer).adopted).Nodup →
        (c.connectEndpoint p fuel peer).offers.Nodup) ∧
    (∀ (σ : Type) (p : Peer σ) (stated : Option Window), p.StatesOnly stated →
      ∀ (fuel : ℕ) (peer : σ),
        (c.connectEndpoint p fuel peer).offers.Nodup ∧
        (c.connectEndpoint p fuel peer).adopted.length ≤ 1 ∧
        (c.connectEndpoint p fuel peer).offers.length ≤
          (c.connectEndpoint p fuel peer).adopted.length + arenaCount ∧
        (arenaCount + 2 ≤ fuel → (c.connectEndpoint p fuel peer).outcome ≠ .unfinished)) ∧
    (∀ (σ : Type) (p : Peer σ) (fuel : ℕ) (peer : σ) (a : Arena),
      (c.connectEndpoint p fuel peer).outcome = .connected (some a) →
        ∃ before r, p.respond before (some a) = (some r, (c.connectEndpoint p fuel peer).peer) ∧
          r.status = 200 ∧ r.arena = some a) ∧
    (∀ (srv : Server) (fuel : ℕ) (s : ServerState) (a : Arena),
      (c.connectEndpoint srv.peer fuel s).outcome = .connected (some a) →
        (c.connectEndpoint srv.peer fuel s).peer.arena = some a) := by
  refine ⟨fun σ p fuel peer => c.offers_nodup p fuel 0 c.window 0 peer, ?_,
    fun σ p fuel peer a => c.granted p fuel 0 c.window 0 peer, ?_⟩
  · intro σ p stated hp fuel peer
    obtain ⟨hwindows, hrest⟩ := c.connectEndpoint_of_statesOnly hp fuel peer
    exact ⟨c.offers_nodup p fuel 0 c.window 0 peer hwindows, hrest⟩
  · intro srv fuel s a h
    obtain ⟨before, r, hr, -, harena⟩ := c.granted srv.peer fuel 0 c.window 0 s h
    -- the arena that is granted is the one that the connection holds
    obtain ⟨hr, hpeer⟩ := Prod.mk.inj hr
    cases hr
    rw [connectEndpoint, ← hpeer]
    dsimp only at harena ⊢
    split at harena
    · exact harena
    · cases harena

/-- A client in `lupine_va_local_window` that can reserve every slot. -/
def unhindered : Client where
  usesArenas := true
  window := ⟨0x700000000000, 0x080000000000⟩
  tls := true
  free _ _ _ := true

/-- A server in a lower window, in which the first slot is taken. -/
def crowded : Server where
  window := ⟨0x600000000000, 0x080000000000⟩
  status _ := 200
  free _ a := 0x600000000000 < a.base && a.base < 0x700000000000

/-- The client adopts the window of the server and gets its second slot. -/
theorem arena_agreement_crowded :
    (unhindered.connectEndpoint crowded.peer 10 ⟨0, none⟩).outcome =
        .connected (some (crowded.window.arena 1)) ∧
    (unhindered.connectEndpoint crowded.peer 10 ⟨0, none⟩).peer.arena =
        some (crowded.window.arena 1) ∧
    (unhindered.connectEndpoint crowded.peer 10 ⟨0, none⟩).offers.Nodup := by
  refine ⟨by decide, ?_, ?_⟩
  · exact (arena_agreement unhindered).2.2.2 crowded 10 ⟨0, none⟩ _ (by decide)
  · exact ((arena_agreement unhindered).2.1 _ _ _ crowded.statesOnly_peer 10 ⟨0, none⟩).1

/-- A peer that refuses every arena and states two windows in turn. -/
def undecided : Peer Bool where
  respond flag _ :=
    (some ⟨409, some (if flag then unhindered.window else crowded.window), none⟩, !flag)

/-- The third offer of the client is its first one again, and the rounds do not end the loop. -/
theorem offers_repeated :
    ((unhindered.connectEndpoint undecided 3 false).offers =
      [(unhindered.window, 0), (crowded.window, 0), (unhindered.window, 0)]) ∧
    (unhindered.connectEndpoint undecided 20 false).outcome = .unfinished := by
  decide

end Client

end Lupine.Transport.Handshake
