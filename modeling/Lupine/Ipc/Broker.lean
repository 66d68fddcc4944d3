import Mathlib.Data.Int.Notation
import Mathlib.Logic.Function.Basic
import Lupine.Foundations.Execution
import Lupine.Foundations.Update

/-!
# The descriptor broker of the server processes

The server forks one child for each connection. A child hands descriptors to the parent, and
other children fetch them, over one `AF_UNIX` socket pair per child (`ipc.cpp`). A child's call
`lupine_ipc_broker_register_fd` or `lupine_ipc_broker_get_fd` sends one message, with the
descriptor as ancillary data, and waits for one reply; the parent's
`lupine_ipc_broker_parent_handle` takes one message, changes its map and replies. The parent
closes a socket when the handler returns an error.

Sending a request, handling it and receiving the reply are three actions, so that the calls of
different children interleave. Every `sendmsg` may fail or be cut short, every `recvmsg` may fail
or find no room for the descriptor. The descriptors that `recvmsg` installs are numbered in one
sequence for all processes; `table` has those that are open.

* `Broker.Inv` and its step lemma `Broker.Inv.step`.
* `Broker.honest_of_clean`: in a run in which no child's `recvmsg` fails or gets a short message,
  no `register` call meets a closed socket, and no short request carries a descriptor, calls that
  return success did what they say and no descriptor is lost.
* `Broker.registered_without_store`: a `register` call whose reply cannot be received returns
  success although the parent stored nothing.
-/

namespace Lupine.Ipc

open Foundations Function List

/-! ## Messages -/

/-- What `lupine_ipc_key` packs: the kind of a descriptor and its token. -/
structure Key where
  kind : ℕ
  token : ℕ
  deriving DecidableEq, Repr

/-- `lupine_ipc_broker_cmd`, and the command of a message that was zeroed. -/
inductive Cmd
  | zero
  | register
  | get
  deriving DecidableEq, Repr

/-- `lupine_ipc_broker_msg`. -/
structure Msg where
  cmd : Cmd
  key : Key
  status : ℤ
  deriving DecidableEq, Repr

/-- The message after `memset`. -/
def Msg.zero : Msg := ⟨.zero, ⟨0, 0⟩, 0⟩

/-- A message on a socket, with the file of its ancillary descriptor. A short one reaches the
receiver with the wrong number of bytes. `call` is only observed: it tells to which call the
message belongs. -/
structure Datagram (F : Type) where
  msg : Msg
  attached : Option F
  whole : Bool
  call : ℕ
  deriving DecidableEq, Repr

/-- How a `sendmsg` goes. -/
inductive Transfer
  | whole
  | short
  | failed
  deriving DecidableEq, Repr

variable {send : Transfer}

/-- How a `recvmsg` goes; without room the kernel drops the descriptor of the message. -/
inductive Receipt
  | whole
  | noRoom
  | failed
  deriving DecidableEq, Repr

/-- The two calls of a child. -/
inductive Request (F : Type)
  | register (key : Key) (file : F)
  | get (key : Key)
  deriving DecidableEq, Repr

/-- The message of a call. -/
def Request.msg {F : Type} : Request F → Msg
  | .register key _ => ⟨.register, key, 0⟩
  | .get key => ⟨.get, key, 0⟩

/-- The descriptor that goes with it. -/
def Request.attached {F : Type} : Request F → Option F
  | .register _ file => some file
  | .get _ => none

/-- The observable events: a call starts, the parent stores a descriptor or attaches a stored one
to a reply, `register` returns success, `get` returns a descriptor. -/
inductive Event (F : Type)
  | called (call : ℕ)
  | stored (call : ℕ) (key : Key) (file : F)
  | served (call : ℕ) (key : Key) (file : F)
  | registered (call : ℕ) (key : Key) (file : F)
  | got (call : ℕ) (key : Key) (file : F)
  deriving DecidableEq, Repr

/-! ## The processes -/

/-- The socket pair of one child, and the call that holds `lupine_ipc_broker_mutex`. -/
structure Socket (F : Type) where
  toParent : List (Datagram F)
  toChild : List (Datagram F)
  parentEnd : Bool
  pending : Option (ℕ × Request F)
  deriving DecidableEq, Repr

/-- The parent and its children. -/
structure Broker (Child F : Type) where
  /-- The map of `lupine_ipc_broker_parent_handle`. -/
  fds : Key → Option ℕ
  /-- The received descriptors that are open. -/
  table : ℕ → Option F
  /-- The descriptors that `get` has returned. -/
  returned : List ℕ
  next : ℕ
  sockets : Child → Socket F
  calls : ℕ
  log : List (Event F)

/-- A step of a child or of the broker. -/
inductive Action (Child F : Type)
  | request (c : Child) (r : Request F) (send : Transfer)
  | handle (c : Child) (receipt : Receipt) (send : Transfer)
  | finish (c : Child) (receipt : Receipt)
  deriving DecidableEq, Repr

namespace Broker

variable {Child F : Type}
variable {e : Event F} {log : List (Event F)} {s : Broker Child F} {d : Datagram F} {k : Socket F}

def initial : Broker Child F :=
  ⟨fun _ => none, fun _ => none, [], 0, fun _ => ⟨[], [], true, none⟩, 0, []⟩

section

variable (s : Broker Child F)

/-- `recvmsg` installs the descriptor of a message. -/
@[simp] def install : Option F → Broker Child F × Option ℕ
  | some file =>
    ({ s with table := update s.table s.next (some file), next := s.next + 1 },
      some s.next)
  | none => (s, none)

/-- `close` of a received descriptor. -/
def closeFd : Option ℕ → Broker Child F
  | some fd => { s with table := update s.table fd none }
  | none => s

/-- `lupine_recv_broker_msg` on the first message of a queue: the message and the descriptor that
it returns. A short message is zeroed and its descriptor forgotten. -/
def receive (d : Datagram F) (receipt : Receipt) : Broker Child F × Msg × Option ℕ :=
  let installed := s.install (if receipt = .whole then d.attached else none)
  if d.whole then (installed.1, d.msg, installed.2) else (installed.1, .zero, none)

def note (e : Event F) : Broker Child F := { s with log := s.log ++ [e] }

def noteFile (e : F → Event F) : Option F → Broker Child F
  | some file => s.note (e file)
  | none => s

/-- The parent's map gets a descriptor, in place of one that it closes. -/
def store (call : ℕ) (key : Key) (fd : ℕ) : Broker Child F :=
  { s.closeFd (s.fds key) with fds := update s.fds key (some fd) }.noteFile
    (.stored call key) (s.table fd)

/-- What a call does with the reply: `lupine_ipc_broker_register_fd` and
`lupine_ipc_broker_get_fd` after the exchange. -/
def finishCall (call : ℕ) (msg : Msg) (fd : Option ℕ) :
    Request F → Broker Child F
  | .register key file =>
    if msg.status = 0 then (s.closeFd fd).note (.registered call key file) else s.closeFd fd
  | .get key =>
    if msg.status ≠ 0 then s.closeFd fd
    else
      match fd with
      | some n =>
        { s with returned := s.returned ++ [n] }.noteFile (.got call key) (s.table n)
      | none => s

end

section Step

variable [DecidableEq Child]

def setSocket (s : Broker Child F) (c : Child) (k : Socket F) : Broker Child F :=
  { s with sockets := update s.sockets c k }

/-- The parent's side of a reply: `lupine_send_broker_msg`, after whose failure the server loop
closes the socket. -/
def reply (s : Broker Child F) (c : Child) (d : Datagram F) : Transfer → Broker Child F
  | .failed => s.setSocket c { s.sockets c with toParent := [], parentEnd := false }
  | send =>
    s.setSocket c
      { s.sockets c with toChild := (s.sockets c).toChild ++ [{ d with whole := send = .whole }] }

/-- `lupine_ipc_broker_parent_handle` after the message was received. -/
def handleMsg (s : Broker Child F) (c : Child) (call : ℕ) (send : Transfer) (msg : Msg)
    (fd : Option ℕ) : Broker Child F :=
  match msg.cmd, fd with
  | .register, some n =>
    (s.store call msg.key n).reply c ⟨⟨.zero, msg.key, 0⟩, none, true, call⟩ send
  | .register, none => s.reply c ⟨⟨.zero, msg.key, -1⟩, none, true, call⟩ send
  | .get, _ =>
    match s.fds msg.key with
    | some n =>
      (s.noteFile (.served call msg.key) (s.table n)).reply c
        ⟨⟨.zero, msg.key, 0⟩, s.table n, true, call⟩ send
    | none => s.reply c ⟨⟨.zero, msg.key, -1⟩, none, true, call⟩ send
  | .zero, _ => (s.closeFd fd).reply c ⟨.zero, none, true, call⟩ .failed

def step (s : Broker Child F) : Action Child F → Option (Broker Child F)
  | .request c r send =>
    let k := s.sockets c
    if k.pending = none then
      let s' := { s.note (.called s.calls) with calls := s.calls + 1 }
      if k.parentEnd = false ∨ send = .failed then some s'
      else
        some (s'.setSocket c
          { k with
            toParent := k.toParent ++ [⟨r.msg, r.attached, send = .whole, s.calls⟩]
            pending := some (s.calls, r) })
    else none
  | .handle c receipt send =>
    let k := s.sockets c
    match k.parentEnd, k.toParent with
    | true, d :: rest =>
      if receipt = .failed then some (s.handleMsg c d.call send .zero none)
      else
        let r := (s.setSocket c { k with toParent := rest }).receive d receipt
        some (r.1.handleMsg c d.call send r.2.1 r.2.2)
    | _, _ => none
  | .finish c receipt =>
    let k := s.sockets c
    match k.pending with
    | none => none
    | some (call, r) =>
      let ended := s.setSocket c { k with pending := none }
      match k.toChild with
      | d :: rest =>
        if receipt = .failed then some (ended.finishCall call .zero none r)
        else
          let got := (s.setSocket c { k with toChild := rest, pending := none }).receive d receipt
          some (got.1.finishCall call got.2.1 got.2.2 r)
      | [] =>
        -- Nothing to read: an error, or the end of the stream once the parent has closed it.
        if receipt = .failed ∨ k.parentEnd = false then
          some (ended.finishCall call .zero none r)
        else none

end Step

/-! ## What is expected of the calls -/

/-- The file stored last under a key. -/
def latest (log : List (Event F)) (key : Key) : Option F :=
  (log.filterMap fun
    | .stored _ key' file => if key' = key then some file else none
    | _ => none).getLast?

/-- `register` returns success only after the parent stored its descriptor during the call; `get`
returns the descriptor stored last when the parent answered during the call; and every received
descriptor that is open is stored or was returned. -/
structure Honest (s : Broker Child F) : Prop where
  registered : ∀ n key file, .registered n key file ∈ s.log →
    Precedes (.called n) (.stored n key file) s.log ∧
      Precedes (.stored n key file) (.registered n key file) s.log
  got : ∀ n key file, .got n key file ∈ s.log →
    Precedes (.called n) (.served n key file) s.log ∧
      Precedes (.served n key file) (.got n key file) s.log
  served : ∀ n key file l₁ l₂, s.log = l₁ ++ .served n key file :: l₂ → latest l₁ key = some file
  kept : ∀ fd, s.table fd ≠ none → (∃ key, s.fds key = some fd) ∨ fd ∈ s.returned

/-- A child's `recvmsg` gets a whole reply, or, in a `get` call, the end of the stream; and a
short request brings no descriptor to the parent. -/
def Clean (s : Broker Child F) : Action Child F → Prop
  | .request _ _ _ => True
  | .handle c receipt _ =>
    ∀ d ∈ (s.sockets c).toParent, receipt = .whole → d.whole = false → d.attached = none
  | .finish c receipt =>
    receipt ≠ .failed ∧ (∀ d ∈ (s.sockets c).toChild, d.whole = true) ∧
      ((s.sockets c).toChild = [] → ∀ p ∈ (s.sockets c).pending, p.2.attached = none)

instance Clean.decidable [DecidableEq F] (s : Broker Child F) :
    (a : Action Child F) → Decidable (Clean s a)
  | .request _ _ _ => isTrue trivial
  | .handle c receipt _ => inferInstanceAs (Decidable
      (∀ d ∈ (s.sockets c).toParent, receipt = .whole → d.whole = false → d.attached = none))
  | .finish c receipt => inferInstanceAs (Decidable
      (receipt ≠ .failed ∧ (∀ d ∈ (s.sockets c).toChild, d.whole = true) ∧
        ((s.sockets c).toChild = [] → ∀ p ∈ (s.sockets c).pending, p.2.attached = none)))

/-! ## The log -/

theorem latest_concat_stored (log : List (Event F)) (n : ℕ) (key key' : Key) (file : F) :
    latest (log ++ [.stored n key file]) key' =
      if key = key' then some file else latest log key' := by
  by_cases hkey : key = key' <;> simp [latest, filterMap_append, hkey]

/-- An event that is not a store. -/
def NoStore (e : Event F) : Prop := ∀ n key file, e ≠ .stored n key file

theorem latest_concat (he : NoStore e) (log : List (Event F)) (key : Key) :
    latest (log ++ [e]) key = latest log key := by
  cases e with
  | stored n key' file => exact absurd rfl (he n key' file)
  | called | served | registered | got => simp [latest, filterMap_append]

theorem precedes_concat {a b : Event F} (h : Precedes a b log) (e : Event F) :
    Precedes a b (log ++ [e]) :=
  precedes_concat_iff.mpr (.inl h)

/-- An event that comes after its cause. -/
theorem precedes_cause {a b : Event F} (h : Precedes a b log) (e : Event F) :
    Precedes a b (log ++ [e]) ∧ Precedes b e (log ++ [e]) := by
  refine ⟨precedes_concat h e, precedes_concat_iff.mpr (.inr ⟨rfl, ?_⟩)⟩
  obtain ⟨l₁, l₂, rfl, -⟩ := h
  simp

/-- The part of `Honest` that is about the log. -/
structure LogOk (log : List (Event F)) : Prop where
  registered : ∀ n key file, .registered n key file ∈ log →
    Precedes (.called n) (.stored n key file) log ∧
      Precedes (.stored n key file) (.registered n key file) log
  got : ∀ n key file, .got n key file ∈ log →
    Precedes (.called n) (.served n key file) log ∧
      Precedes (.served n key file) (.got n key file) log
  served : ∀ n key file l₁ l₂, log = l₁ ++ .served n key file :: l₂ → latest l₁ key = some file

/-- What an event needs in the log before it. -/
def Founded (log : List (Event F)) : Event F → Prop
  | .registered n key file => Precedes (.called n) (.stored n key file) log
  | .got n key file => Precedes (.called n) (.served n key file) log
  | .served _ key file => latest log key = some file
  | _ => True

theorem LogOk.concat (h : LogOk log) (he : Founded log e) : LogOk (log ++ [e]) := by
  refine ⟨fun n key file hmem => ?_, fun n key file hmem => ?_, fun n key file l₁ l₂ hsplit => ?_⟩
  · rcases mem_append.mp hmem with hmem | hmem
    · obtain ⟨hstored, hafter⟩ := h.registered n key file hmem
      exact ⟨precedes_concat hstored e, precedes_concat hafter e⟩
    · obtain rfl := mem_singleton.mp hmem
      exact precedes_cause he _
  · rcases mem_append.mp hmem with hmem | hmem
    · obtain ⟨hserved, hafter⟩ := h.got n key file hmem
      exact ⟨precedes_concat hserved e, precedes_concat hafter e⟩
    · obtain rfl := mem_singleton.mp hmem
      exact precedes_cause he _
  · rcases concat_eq_append_cons hsplit with ⟨-, rfl, rfl⟩ | ⟨l₂', -, rfl⟩
    · exact he
    · exact h.served n key file l₁ l₂' rfl

/-! ## The descriptors -/

/-- The parent's map agrees with the log, and every open descriptor is stored, returned, or the
one `inHand`, which is neither. -/
structure TableOk (s : Broker Child F) (inHand : Option ℕ) : Prop where
  stored : ∀ key fd, s.fds key = some fd →
    fd < s.next ∧ fd ∉ s.returned ∧ inHand ≠ some fd ∧
      ∃ file, s.table fd = some file ∧ latest s.log key = some file
  empty : ∀ key, s.fds key = none → latest s.log key = none
  injective : ∀ key key' fd, s.fds key = some fd → s.fds key' = some fd → key = key'
  returned : ∀ fd ∈ s.returned, fd < s.next ∧ inHand ≠ some fd
  held : ∀ fd, inHand = some fd → fd < s.next ∧ s.table fd ≠ none
  kept : ∀ fd, s.table fd ≠ none →
    (∃ key, s.fds key = some fd) ∨ fd ∈ s.returned ∨ inHand = some fd

/-- `closeFd` for both cases of the descriptor. -/
theorem closeFd_eq (o : Option ℕ) :
    s.closeFd o = { s with table := fun fd => if o = some fd then none else s.table fd } := by
  cases o with
  | none => simp [Broker.closeFd]
  | some n =>
    have htable : update s.table n none = fun fd => if n = fd then none else s.table fd := by
      funext fd
      simp [update_apply, eq_comm]
    simp [Broker.closeFd, htable]

theorem TableOk.install (h : TableOk s none) (attached : Option F) :
    TableOk (s.install attached).1 (s.install attached).2 := by
  cases attached with
  | none => exact h
  | some file =>
    simp only [Broker.install]
    exact
      { stored := fun key fd hkey => by grind [h.stored key fd hkey, update_apply]
        empty := h.empty
        injective := h.injective
        returned := fun fd hfd => by grind [h.returned fd hfd]
        held := by grind
        kept := fun fd hfd => by
          have hkept := h.kept fd
          grind [update_apply] }

theorem TableOk.closeFd {inHand : Option ℕ} (h : TableOk s inHand) :
    TableOk (s.closeFd inHand) none := by
  rw [closeFd_eq]
  exact
    { stored := fun key fd hkey => by grind [h.stored key fd hkey]
      empty := h.empty
      injective := h.injective
      returned := fun fd hfd => ⟨(h.returned fd hfd).1, nofun⟩
      held := nofun
      kept := fun fd hfd => by
        have hkept := h.kept fd
        grind }

theorem TableOk.note {inHand : Option ℕ} (h : TableOk s inHand)
    (he : NoStore e) : TableOk (s.note e) inHand where
  stored key fd hkey := by
    simpa only [Broker.note, latest_concat he] using h.stored key fd hkey
  empty key hkey := by
    simpa only [Broker.note, latest_concat he] using h.empty key hkey
  injective := h.injective
  returned := h.returned
  held := h.held
  kept := h.kept

/-- The descriptor in hand is open, and neither stored nor returned; the one that it replaces is
stored under no other key. -/
theorem TableOk.store {n : ℕ} (h : TableOk s (some n)) (call : ℕ) (key : Key) :
    TableOk (s.store call key n) none ∧
      ∃ file, s.table n = some file ∧
        (s.store call key n).log = s.log ++ [.stored call key file] := by
  obtain ⟨hlt, hopen⟩ := h.held n rfl
  obtain ⟨file, hfile⟩ := Option.ne_none_iff_exists'.mp hopen
  have hn : ∀ key', s.fds key' ≠ some n := fun key' hkey => (h.stored key' n hkey).2.2.1 rfl
  simp only [Broker.store, hfile, noteFile, Broker.note, closeFd_eq]
  refine ⟨⟨fun key' fd hkey => ?_, fun key' hkey => ?_, fun key₁ key₂ fd h₁ h₂ => ?_,
    fun fd hfd => ⟨(h.returned fd hfd).1, nofun⟩, nofun, fun fd hfd => ?_⟩, file, rfl, rfl⟩
  · rw [latest_concat_stored]
    rcases update_eq_cases hkey with ⟨rfl, ⟨⟩⟩ | ⟨hk, hkey⟩
    · grind [h.returned n]
    · grind [h.stored key' fd hkey, h.injective key' key fd hkey]
  · obtain ⟨hk, hkey⟩ := update_eq_of_ne hkey (by simp)
    simp [latest_concat_stored, Ne.symm hk, h.empty key' hkey]
  · rcases update_eq_cases h₁ with ⟨rfl, ⟨⟩⟩ | ⟨-, hold₁⟩ <;>
      rcases update_eq_cases h₂ with ⟨rfl, ⟨⟩⟩ | ⟨-, hold₂⟩
    · rfl
    · exact absurd hold₂ (hn key₂)
    · exact absurd hold₁ (hn key₁)
    · exact h.injective key₁ key₂ fd hold₁ hold₂
  · rcases h.kept fd (by grind) with ⟨key', hkey'⟩ | hret | hfd'
    · exact .inl ⟨key', by grind [update_apply]⟩
    · exact .inr (.inl hret)
    · exact .inl ⟨key, by simp [Option.some.inj hfd']⟩

theorem TableOk.give {n : ℕ} (h : TableOk s (some n)) :
    TableOk { s with returned := s.returned ++ [n] } none where
  stored key fd hkey := by grind [h.stored key fd hkey]
  empty := h.empty
  injective := h.injective
  returned fd hfd := by
    have hreturned := h.returned fd
    grind [h.held n rfl]
  held := nofun
  kept fd hfd := by grind [h.kept fd hfd]

/-! ## The sockets -/

/-- A reply that says success says the truth. -/
def Answers (log : List (Event F)) (n : ℕ) : Request F → Datagram F → Prop
  | .register key file, d => d.msg.status = 0 → Precedes (.called n) (.stored n key file) log
  | .get key, d => d.msg.status = 0 →
    ∀ file, d.attached = some file → Precedes (.called n) (.served n key file) log

/-- A socket carries nothing but the request of the call that waits, or its reply. -/
structure SocketOk (log : List (Event F)) (k : Socket F) : Prop where
  idle : k.pending = none → k.toParent = [] ∧ k.toChild = []
  busy : ∀ n r, k.pending = some (n, r) → .called n ∈ log ∧
    ((∃ w, k.toParent = [⟨r.msg, r.attached, w, n⟩] ∧ k.toChild = []) ∨
      (k.toParent = [] ∧ k.toChild = []) ∨
      ∃ d, k.toParent = [] ∧ k.toChild = [d] ∧ Answers log n r d)
  closed : k.parentEnd = false → k.toParent = []

theorem Answers.concat {n : ℕ} {r : Request F} (h : Answers log n r d) (e : Event F) :
    Answers (log ++ [e]) n r d := by
  cases r with
  | register key file => exact fun hd => precedes_concat (h hd) e
  | get key => exact fun hd file hfile => precedes_concat (h hd file hfile) e

theorem SocketOk.concat (h : SocketOk log k) (e : Event F) :
    SocketOk (log ++ [e]) k where
  idle := h.idle
  busy n r hpending := by
    obtain ⟨hcalled, hrequest | hempty | ⟨d, hparent, hchild, hd⟩⟩ := h.busy n r hpending
    · exact ⟨mem_append_left _ hcalled, .inl hrequest⟩
    · exact ⟨mem_append_left _ hcalled, .inr (.inl hempty)⟩
    · exact ⟨mem_append_left _ hcalled, .inr (.inr ⟨d, hparent, hchild, hd.concat e⟩)⟩
  closed := h.closed

/-- The log, the table and the sockets agree. -/
structure Inv (s : Broker Child F) : Prop where
  log : LogOk s.log
  table : TableOk s none
  sockets : ∀ c, SocketOk s.log (s.sockets c)

attribute [local simp] initial

theorem initial_inv : Inv (initial : Broker Child F) where
  log := ⟨by simp, by simp, by simp⟩
  table := ⟨by simp, by simp [latest], by simp, by simp,
    nofun, by simp⟩
  sockets c := ⟨by simp, by simp, by simp⟩

theorem Inv.honest (h : Inv s) : Honest s where
  registered := h.log.registered
  got := h.log.got
  served := h.log.served
  kept fd hfd := by
    rcases h.table.kept fd hfd with hkey | hret | hnone
    · exact .inl hkey
    · exact .inr hret
    · cases hnone

/-! ## One action -/

/-- The state while a process works on a message of the child's call `n`: everything but the
socket of the child is in order. -/
structure Working (s : Broker Child F) (c : Child) (n : ℕ) (inHand : Option ℕ) : Prop where
  log : LogOk s.log
  table : TableOk s inHand
  others : ∀ c', c' ≠ c → SocketOk s.log (s.sockets c')
  called : .called n ∈ s.log

section Working

variable {s : Broker Child F} {c : Child} {n : ℕ} {r : Request F} {inHand : Option ℕ}

theorem Inv.working (h : Inv s) (c : Child) (hcalled : .called n ∈ s.log) : Working s c n none :=
  ⟨h.log, h.table, fun c' _ => h.sockets c', hcalled⟩

theorem Working.note (h : Working s c n inHand) (he : NoStore e)
    (hfounded : Founded s.log e) : Working (s.note e) c n inHand where
  log := h.log.concat hfounded
  table := h.table.note he
  others c' hc' := (h.others c' hc').concat e
  called := mem_append_left _ h.called

theorem Working.install (h : Working s c n none) (attached : Option F) :
    Working (s.install attached).1 c n (s.install attached).2 := by
  have htable := h.table.install attached
  cases attached <;> exact { h with table := htable }

theorem Working.closeFd (h : Working s c n inHand) : Working (s.closeFd inHand) c n none := by
  have htable := h.table.closeFd
  rw [closeFd_eq] at htable ⊢
  exact { h with table := htable }

theorem Working.store {m : ℕ} (h : Working s c n (some m)) (key : Key) :
    Working (s.store n key m) c n none ∧ (s.store n key m).sockets = s.sockets ∧
      ∃ file, s.table m = some file ∧ (s.store n key m).log = s.log ++ [.stored n key file] := by
  obtain ⟨htable, file, hfile, hlog⟩ := h.table.store n key
  have hsockets : (s.store n key m).sockets = s.sockets := by
    simp only [Broker.store, hfile, noteFile, Broker.note, closeFd_eq]
  refine ⟨⟨?_, htable, fun c' hc' => ?_, ?_⟩, hsockets, file, hfile, hlog⟩
  · rw [hlog]
    exact h.log.concat trivial
  · rw [hlog, hsockets]
    exact (h.others c' hc').concat _
  · rw [hlog]
    exact mem_append_left _ h.called

theorem Working.give {m : ℕ} (h : Working s c n (some m)) :
    Working { s with returned := s.returned ++ [m] } c n none :=
  { h with table := h.table.give }

/-- `lupine_recv_broker_msg` gives the process a message and its descriptor. A short message is
zeroed; it must not have brought a descriptor. -/
theorem Working.receive (h : Working s c n none) (d : Datagram F) (receipt : Receipt)
    (hshort : receipt = .whole → d.whole = false → d.attached = none) :
    Working (s.receive d receipt).1 c n (s.receive d receipt).2.2 ∧
      (s.receive d receipt).1.sockets = s.sockets ∧ (s.receive d receipt).1.log = s.log ∧
      ∀ m, (s.receive d receipt).2.2 = some m →
        ∃ file, (s.receive d receipt).1.table m = some file ∧ d.attached = some file := by
  have hinstall := h.install (if receipt = .whole then d.attached else none)
  cases hattached : (if receipt = .whole then d.attached else none) with
  | none => cases hwhole : d.whole <;> simpa [Broker.receive, hattached, hwhole] using h
  | some file =>
    obtain ⟨hreceipt, hfile⟩ : receipt = .whole ∧ d.attached = some file := by grind
    have hwhole : d.whole = true := by
      by_contra hwhole
      simp [hshort hreceipt (by simpa using hwhole)] at hfile
    simp only [Broker.receive, hattached, hwhole, if_true] at hinstall ⊢
    refine ⟨hinstall, rfl, rfl, fun m hm => ?_⟩
    obtain rfl : s.next = m := by simpa using hm
    exact ⟨file, by simp, hfile⟩

theorem receive_msg (d : Datagram F) (receipt : Receipt) :
    (s.receive d receipt).2.1 = if d.whole then d.msg else .zero := by
  cases hwhole : d.whole <;> simp [Broker.receive, hwhole]

theorem receive_fd_of_short (receipt : Receipt) (hd : d.whole = false) :
    (s.receive d receipt).2.2 = none := by
  simp [Broker.receive, hd]

/-- A call ends with the reply `d` to its request. -/
theorem Working.finishCall (h : Working s c n inHand) (hanswers : Answers s.log n r d)
    (hfile : ∀ m, inHand = some m → ∃ file, s.table m = some file ∧ d.attached = some file) :
    Working (s.finishCall n d.msg inHand r) c n none ∧
      (s.finishCall n d.msg inHand r).sockets = s.sockets := by
  have hclosed := h.closeFd
  have hlog : (s.closeFd inHand).log = s.log := by rw [closeFd_eq]
  have hsockets : (s.closeFd inHand).sockets = s.sockets := by rw [closeFd_eq]
  cases r with
  | register key file =>
    by_cases hstatus : d.msg.status = 0
    · simp only [Broker.finishCall, hstatus, if_true]
      refine ⟨hclosed.note (by simp [NoStore]) ?_, hsockets⟩
      rw [hlog]
      exact hanswers hstatus
    · simp only [Broker.finishCall, hstatus, if_false]
      exact ⟨hclosed, hsockets⟩
  | get key =>
    by_cases hstatus : d.msg.status = 0
    · cases inHand with
      | none =>
        simp only [Broker.finishCall, hstatus, ne_eq, not_true_eq_false, if_false]
        exact ⟨h, trivial⟩
      | some m =>
        obtain ⟨file, htable, hattached⟩ := hfile m rfl
        simp only [Broker.finishCall, hstatus, ne_eq, not_true_eq_false, if_false, htable, noteFile]
        exact ⟨h.give.note (by simp [NoStore]) (hanswers hstatus file hattached), rfl⟩
    · simp only [Broker.finishCall, hstatus, ne_eq, not_false_eq_true, if_true]
      exact ⟨hclosed, hsockets⟩

end Working

section Preservation

variable [DecidableEq Child] {s t : Broker Child F} {c : Child} {n : ℕ} {r : Request F}

theorem setSocket_self (k : Socket F) : (s.setSocket c k).sockets c = k := by
  simp [setSocket]

/-- The socket of the child is in order again. -/
theorem Working.inv (h : Working s c n none) (hsocket : SocketOk s.log (s.sockets c)) : Inv s where
  log := h.log
  table := h.table
  sockets c' := by
    by_cases hc : c' = c
    · rw [hc]
      exact hsocket
    · exact h.others c' hc

theorem Working.setSocket {inHand : Option ℕ} (h : Working s c n inHand) (k : Socket F) :
    Working (s.setSocket c k) c n inHand where
  log := h.log
  table := { h.table with }
  others c' hc' := by simpa [Broker.setSocket, hc'] using h.others c' hc'
  called := h.called

/-- The call waits on a socket that carries its request, nothing, or the reply. -/
theorem SocketOk.waits (hpending : k.pending = some (n, r)) (hcalled : .called n ∈ log)
    (hclosed : k.parentEnd = false → k.toParent = [])
    (hqueues : (∃ w, k.toParent = [⟨r.msg, r.attached, w, n⟩] ∧ k.toChild = []) ∨
      (k.toParent = [] ∧ k.toChild = []) ∨
      ∃ d, k.toParent = [] ∧ k.toChild = [d] ∧ Answers log n r d) : SocketOk log k where
  idle h := by simp [hpending] at h
  busy n' r' h := by
    obtain ⟨rfl, rfl⟩ : n = n' ∧ r = r' := by simpa [hpending] using h
    exact ⟨hcalled, hqueues⟩
  closed := hclosed

/-- No call waits. -/
theorem SocketOk.rest (hpending : k.pending = none)
    (hparent : k.toParent = []) (hchild : k.toChild = []) : SocketOk log k where
  idle _ := ⟨hparent, hchild⟩
  busy n r h := by simp [hpending] at h
  closed _ := hparent

theorem Working.reply (h : Working s c n none) {d : Datagram F} {send : Transfer}
    (hpending : (s.sockets c).pending = some (n, r)) (hparent : (s.sockets c).toParent = [])
    (hchild : (s.sockets c).toChild = [])
    (hanswers : send ≠ .failed → Answers s.log n r d) : Inv (s.reply c d send) := by
  have hsent : ∀ w, send ≠ .failed → Inv (s.setSocket c
      { s.sockets c with toChild := (s.sockets c).toChild ++ [{ d with whole := w }] }) := by
    intro w hsend
    refine (h.setSocket _).inv ?_
    rw [setSocket_self]
    refine .waits hpending h.called (fun _ => hparent)
      (.inr (.inr ⟨_, hparent, by rw [hchild]; rfl, ?_⟩))
    cases r <;> exact hanswers hsend
  cases send with
  | whole => exact hsent _ (by simp)
  | short => exact hsent _ (by simp)
  | failed =>
    refine (h.setSocket _).inv ?_
    rw [setSocket_self]
    exact .waits hpending h.called (fun _ => rfl) (.inr (.inl ⟨rfl, hchild⟩))

/-- What the parent has in hand when it works on a request: the request and its descriptor, or a
message that was zeroed and no descriptor. -/
def Taken (s : Broker Child F) (r : Request F) (msg : Msg) (fd : Option ℕ) : Prop :=
  (msg = .zero ∧ fd = none) ∨
    (msg = r.msg ∧ ∀ m, fd = some m → ∃ file, s.table m = some file ∧ r.attached = some file)

theorem Working.handleMsg {msg : Msg} {fd : Option ℕ} (h : Working s c n fd)
    (htaken : Taken s r msg fd) (hpending : (s.sockets c).pending = some (n, r))
    (hparent : (s.sockets c).toParent = []) (hchild : (s.sockets c).toChild = []) :
    Inv (s.handleMsg c n send msg fd) := by
  have hrefused : ∀ key, Answers s.log n r ⟨⟨.zero, key, -1⟩, none, true, n⟩ := by
    intro key
    cases r <;> exact fun hstatus => absurd hstatus (by simp)
  rcases htaken with ⟨rfl, rfl⟩ | ⟨rfl, hfd⟩
  · change Inv (s.reply c ⟨.zero, none, true, n⟩ .failed)
    exact h.reply hpending hparent hchild fun hsend => absurd rfl hsend
  cases r with
  | register key file =>
    cases fd with
    | none => exact h.reply hpending hparent hchild fun _ => hrefused key
    | some m =>
      obtain ⟨hstore, hsockets, file', hfile', hlog⟩ := h.store key
      obtain rfl : file' = file := by
        obtain ⟨file'', hfile'', hattached⟩ := hfd m rfl
        rw [hfile'] at hfile''
        exact (Option.some.inj hfile'').trans (Option.some.inj hattached).symm
      rw [← hsockets] at hpending hparent hchild
      refine hstore.reply (r := .register key file') hpending hparent hchild fun _ _ => ?_
      rw [hlog]
      exact precedes_concat_iff.mpr (.inr ⟨rfl, h.called⟩)
  | get key =>
    obtain rfl : fd = none := by
      cases fd with
      | none => rfl
      | some m =>
        obtain ⟨file, -, hattached⟩ := hfd m rfl
        cases hattached
    simp only [Broker.handleMsg, Request.msg]
    cases hm : s.fds key with
    | none => exact h.reply hpending hparent hchild fun _ => hrefused key
    | some m =>
      obtain ⟨-, -, -, file, hfile, hlatest⟩ := h.table.stored key m hm
      have hnoted := h.note (e := .served n key file) (by simp [NoStore]) hlatest
      simp only [hfile, noteFile]
      refine hnoted.reply hpending hparent hchild fun _ _ file' hfile' => ?_
      obtain rfl : file = file' := Option.some.inj hfile'
      exact precedes_concat_iff.mpr (.inr ⟨rfl, h.called⟩)

theorem Inv.request (h : Inv s) (hstep : step s (.request c r send) = some t) : Inv t := by
  have hcalled : Inv { s.note (.called s.calls) with calls := s.calls + 1 } := by
    have htable := h.table.note (e := .called s.calls) (by simp [NoStore])
    exact
      { log := h.log.concat trivial
        table := { htable with }
        sockets := fun c' => (h.sockets c').concat _ }
  simp only [step] at hstep
  split at hstep
  case isFalse => cases hstep
  case isTrue hpending =>
    obtain ⟨hparent, hchild⟩ := (h.sockets c).idle hpending
    split at hstep <;> cases hstep
    · exact hcalled
    · have hmem : .called s.calls ∈ (s.note (.called s.calls)).log := by simp [Broker.note]
      refine ((hcalled.working c hmem).setSocket _).inv ?_
      rw [setSocket_self]
      exact .waits rfl hmem (by simp_all) (.inl ⟨_, by rw [hparent]; rfl, hchild⟩)

theorem Inv.handle {receipt : Receipt} (h : Inv s) (hclean : Clean s (.handle c receipt send))
    (hstep : step s (.handle c receipt send) = some t) : Inv t := by
  simp only [step] at hstep
  split at hstep
  case h_2 => cases hstep
  case h_1 d rest hopen hqueue =>
    -- Only a call that waits for its answer has a request in the socket.
    have hbusy : ∃ n r, (s.sockets c).pending = some (n, r) := by
      cases hpending : (s.sockets c).pending with
      | none => simp [((h.sockets c).idle hpending).1] at hqueue
      | some p => exact ⟨p.1, p.2, rfl⟩
    obtain ⟨n, r, hpending⟩ := hbusy
    obtain ⟨hcalled, ⟨w, hparent, hchild⟩ | ⟨hparent, -⟩ | ⟨d', hparent, -⟩⟩ :=
      (h.sockets c).busy n r hpending
    · obtain ⟨rfl, rfl⟩ : ⟨r.msg, r.attached, w, n⟩ = d ∧ [] = rest := by
        simpa [hparent] using hqueue
      have hworking := h.working c hcalled
      split at hstep <;> cases hstep
      · -- The socket keeps its request, and the parent closes it.
        refine (hworking.setSocket _).inv ?_
        rw [setSocket_self]
        exact .waits hpending hcalled (fun _ => rfl) (.inr (.inl ⟨rfl, hchild⟩))
      · obtain ⟨htaken, hsockets, -, hfile⟩ :=
          (hworking.setSocket { s.sockets c with toParent := [] }).receive
            ⟨r.msg, r.attached, w, n⟩ receipt (hclean _ (by simp [hparent]))
        have hsocket := congrFun hsockets c
        rw [setSocket_self] at hsocket
        refine htaken.handleMsg (r := r) ?_ (by rw [hsocket]; exact hpending) (by rw [hsocket])
          (by rw [hsocket]; exact hchild)
        cases hw : w with
        | false => exact .inl ⟨rfl, receive_fd_of_short receipt rfl⟩
        | true => exact .inr ⟨rfl, hw ▸ hfile⟩
    · simp [hparent] at hqueue
    · simp [hparent] at hqueue

theorem Inv.finish {receipt : Receipt} (h : Inv s) (hclean : Clean s (.finish c receipt))
    (hstep : step s (.finish c receipt) = some t) : Inv t := by
  obtain ⟨hreceipt, hwhole, heof⟩ := hclean
  simp only [step] at hstep
  split at hstep
  case h_1 => cases hstep
  case h_2 n r hpending =>
    obtain ⟨hcalled, hqueues⟩ := (h.sockets c).busy n r hpending
    have hworking := h.working c hcalled
    split at hstep
    case h_1 d rest hqueue =>
      obtain ⟨w, -, hchild⟩ | ⟨-, hchild⟩ | ⟨d', hparent, hchild, hanswers⟩ := hqueues
      · simp [hchild] at hqueue
      · simp [hchild] at hqueue
      · obtain ⟨rfl, rfl⟩ : d' = d ∧ [] = rest := by simpa [hchild] using hqueue
        have hd : d'.whole = true := hwhole d' (by simp [hchild])
        rw [if_neg hreceipt] at hstep
        cases hstep
        obtain ⟨hgot, hsockets, hlog, hfile⟩ :=
          (hworking.setSocket { s.sockets c with toChild := [], pending := none }).receive
            d' receipt (by simp [hd])
        have hsocket := congrFun hsockets c
        rw [setSocket_self] at hsocket
        rw [receive_msg, hd, if_pos rfl]
        obtain ⟨hfinished, hsame⟩ := hgot.finishCall (d := d') (r := r)
          (by rw [hlog]; exact hanswers) hfile
        refine hfinished.inv ?_
        rw [hsame, hsocket]
        exact .rest rfl hparent rfl
    case h_2 hqueue =>
      have hget : ∃ key, r = .get key := by
        cases r with
        | register key file => exact absurd (heof hqueue _ hpending) nofun
        | get key => exact ⟨key, rfl⟩
      obtain ⟨key, rfl⟩ := hget
      split at hstep
      case isFalse => cases hstep
      case isTrue hend =>
        cases hstep
        have hclosed : (s.sockets c).parentEnd = false := hend.resolve_left hreceipt
        refine (hworking.setSocket _).inv ?_
        rw [setSocket_self]
        exact .rest rfl ((h.sockets c).closed hclosed) hqueue

theorem Inv.step {a : Action Child F} (h : Inv s) (hclean : Clean s a) (hstep : step s a = some t) :
    Inv t := by
  cases a with
  | request c r send => exact h.request hstep
  | handle c receipt send => exact h.handle hclean hstep
  | finish c receipt => exact h.finish hclean hstep

/-- **The broker is honest** in every run in which each child's `recvmsg` gets a whole reply (or
the end of the stream, in a `get` call) and no short request brings a descriptor to the parent:
`register` returns success only when the parent stored its descriptor, `get` returns the
descriptor stored last, and every received descriptor is stored, returned or closed. Failed and
short sends, descriptors that the kernel drops and failures of the parent to receive are all
allowed. -/
theorem honest_of_clean {as : List (Action Child F)} (hclean : Along step Clean initial as)
    (h : exec step initial as = some t) : Honest t :=
  (exec_invariant_along (fun _ _ _ hs hc hstep => Inv.step hs hc hstep) initial_inv hclean h).honest

/-- One child stores a descriptor that another one fetches. -/
def storeAndFetch : List (Action Bool ℕ) :=
  [.request true (.register ⟨1, 2⟩ 7) .whole, .handle true .whole .whole, .finish true .whole,
    .request false (.get ⟨1, 2⟩) .whole, .handle false .whole .whole, .finish false .whole]

theorem honest_storeAndFetch :
    Along step Clean initial storeAndFetch ∧
      ∃ t, exec step initial storeAndFetch = some t ∧ .got 1 ⟨1, 2⟩ 7 ∈ t.log ∧ Honest t := by
  have hclean : Along step Clean initial storeAndFetch := by decide
  exact ⟨hclean, _, rfl, by decide, honest_of_clean hclean rfl⟩

/-- Three failures that break a promise: the parent cannot receive a request and closes the
socket, and `register` takes the end of the stream for success; a short request leaves its
descriptor open and unknown in the parent; and a reply that could not be received is taken for
the answer to the next call, so that `get` returns what was stored under another key. -/
theorem registered_without_store :
    ((exec step (initial : Broker Bool ℕ)
        [.request true (.register ⟨1, 2⟩ 7) .whole, .handle true .failed .whole,
          .finish true .whole]).map fun s => s.log) =
      some [.called 0, .registered 0 ⟨1, 2⟩ 7] ∧
    ((exec step (initial : Broker Bool ℕ)
        [.request true (.register ⟨1, 2⟩ 7) .short, .handle true .whole .whole]).map
          fun s => (s.table 0, s.fds ⟨1, 2⟩, s.returned)) = some (some 7, none, []) ∧
    ((exec step (initial : Broker Bool ℕ)
        [.request true (.register ⟨1, 2⟩ 7) .whole, .handle true .whole .whole,
          .finish true .whole, .request true (.get ⟨1, 2⟩) .whole, .handle true .whole .whole,
          .finish true .failed, .request true (.get ⟨1, 3⟩) .whole, .handle true .whole .whole,
          .finish true .whole]).map fun s => s.log) =
      some [.called 0, .stored 0 ⟨1, 2⟩ 7, .registered 0 ⟨1, 2⟩ 7, .called 1,
        .served 1 ⟨1, 2⟩ 7, .called 2, .got 2 ⟨1, 3⟩ 7] := by
  decide

end Preservation

end Broker

end Lupine.Ipc
