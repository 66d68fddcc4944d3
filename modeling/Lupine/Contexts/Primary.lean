import Mathlib.Algebra.BigOperators.Group.Finset.Piecewise
import Mathlib.Algebra.Order.Ring.Int
import Mathlib.Data.Fintype.Basic
import Lupine.Foundations.Execution
import Lupine.Foundations.Int32

/-!
# Retains of primary contexts

The client forwards one retain for a device's primary context and counts the later ones itself
(`lupine_primary_ctx_retain`), so that only the release that drops the count to zero goes through.
A reset drops the forwarded retain and keeps the count. The counts are kept for each virtual
device. Two virtual devices can be the same device of the server, which has one count for it.

All three calls run under `lupine_primary_ctx_retain_mutex`, their requests included. A history of
any number of threads is therefore a sequence of calls.

* `State` is the client's map, the driver's counts and the log of the requests that the server has
  carried out; `State.call` is the three functions of the source.
* `held`, `sinceReset` and `latest` read a virtual device's account off the log.
* `accounts_along_iff`: along a sequence of calls whose remote calls succeed, the accounts agree
  with the counts exactly when no call releases a device for which the client has no retain, and
  none retains a device whose count is the greatest `int`.
* `foreign_release`: on a device listed twice such a release takes the retain of the other entry.
-/

namespace Lupine.Contexts.Primary

open Function

open Foundations (Along along_iff_along intMax wrapInt wrapInt_of_le wrapInt_of_gt)

variable {ι δ κ : Type*}
variable {dev : ι}

/-- `lupine_primary_ctx_retain`. -/
structure Retain (κ : Type*) where
  context : κ
  /-- An `int`. -/
  count : ℤ
  forwarded : Bool
  deriving DecidableEq

/-- A request that the server has carried out, with the virtual device it was sent for. -/
inductive Sent (ι κ : Type*)
  | retain (dev : ι) (context : κ)
  | release (dev : ι)
  | reset (dev : ι)
  deriving DecidableEq

/-- The counts of the client and of the server. -/
structure State (ι δ κ : Type*) where
  /-- `lupine_primary_ctx_retains`, keyed by the virtual device. -/
  retains : ι → Option (Retain κ)
  /-- The driver's count for each device of the server. -/
  server : δ → ℕ
  /-- The requests carried out, latest first. -/
  sent : List (Sent ι κ)

variable {s : State ι δ κ}

/-- The calls on remote devices. A retain that is forwarded gets the reply of the server, `none`
when the request fails; `reached` says whether the request of a reset succeeds. -/
inductive Call (ι κ : Type*)
  | retain (dev : ι) (reply : Option κ)
  | release (dev : ι)
  | reset (dev : ι) (reached : Bool)
  deriving DecidableEq

/-- What a call returns. -/
inductive Answer (κ : Type*)
  | done
  | context (ctx : κ)
  | failed
  deriving DecidableEq

def State.initial : State ι δ κ := ⟨fun _ => none, fun _ => 0, []⟩

/-! ## The calls -/

namespace State

/-- The count of a virtual device, 0 without an entry. -/
def count (s : State ι δ κ) (dev : ι) : ℤ := ((s.retains dev).map Retain.count).getD 0

/-- The client's entry says that a forwarded retain is outstanding. -/
def forwarded (s : State ι δ κ) (dev : ι) : Bool :=
  ((s.retains dev).map Retain.forwarded).getD false

attribute [local simp] State.forwarded

theorem exists_of_forwarded (h : s.forwarded dev = true) :
    ∃ r, s.retains dev = some r ∧ r.forwarded = true := by
  rcases hr : s.retains dev with - | r
  · simp [hr] at h
  · exact ⟨r, rfl, by simpa [hr] using h⟩

theorem exists_of_count_pos (hcount : 0 < s.count dev) : ∃ r, s.retains dev = some r := by
  rcases hr : s.retains dev with - | r
  · simp [State.count, hr] at hcount
  · exact ⟨r, rfl⟩

variable [DecidableEq ι] [DecidableEq δ] (physical : ι → δ)

section

variable (s : State ι δ κ) (dev : ι)

def setRetain (r : Option (Retain κ)) : State ι δ κ :=
  { s with retains := update s.retains dev r }

def serverRetain (ctx : κ) : State ι δ κ :=
  { s with
    server := update s.server (physical dev) (s.server (physical dev) + 1)
    sent := .retain dev ctx :: s.sent }

def serverRelease : State ι δ κ :=
  { s with
    server := update s.server (physical dev) (s.server (physical dev) - 1)
    sent := .release dev :: s.sent }

/-- `lupine_remote_primary_ctx_release`: the driver refuses to release what is not retained. -/
def remotePrimaryCtxRelease : Answer κ × State ι δ κ :=
  if 0 < s.server (physical dev) then (.done, s.serverRelease physical dev) else (.failed, s)

/-- The forwarded branch of `cuDevicePrimaryCtxRetain`. An entry that a reset left keeps its
count. -/
def forwardRetain : Option κ → Answer κ × State ι δ κ
  | some ctx =>
    (.context ctx, (s.serverRetain physical dev ctx).setRetain dev
      (some ⟨ctx, wrapInt (s.count dev + 1), true⟩))
  | none => (.failed, s)

def cuDevicePrimaryCtxRetain (reply : Option κ) : Answer κ × State ι δ κ :=
  match s.retains dev with
  | none => s.forwardRetain physical dev reply
  | some r =>
    if r.forwarded then
      (.context r.context, s.setRetain dev (some ⟨r.context, wrapInt (r.count + 1), r.forwarded⟩))
    else s.forwardRetain physical dev reply

def cuDevicePrimaryCtxRelease : Answer κ × State ι δ κ :=
  match s.retains dev with
  | none => s.remotePrimaryCtxRelease physical dev
  | some r =>
    let count := wrapInt (r.count - 1)
    if 0 < count then (.done, s.setRetain dev (some ⟨r.context, count, r.forwarded⟩))
    else if r.forwarded then (s.setRetain dev none).remotePrimaryCtxRelease physical dev
    else (.done, s.setRetain dev none)

/-- The server resets the device. The driver keeps its count. -/
def serverReset : State ι δ κ :=
  { s with sent := .reset dev :: s.sent }

/-- What follows a successful reset: the forwarded retain is released, whatever becomes of that
request. -/
def dropForwarded : State ι δ κ :=
  match s.retains dev with
  | none => s
  | some r =>
    if r.forwarded then
      ((s.setRetain dev (some ⟨r.context, r.count, false⟩)).remotePrimaryCtxRelease physical dev).2
    else s

def cuDevicePrimaryCtxReset (reached : Bool) : Answer κ × State ι δ κ :=
  if reached then (.done, (s.serverReset dev).dropForwarded physical dev) else (.failed, s)

end

def call (s : State ι δ κ) : Call ι κ → Answer κ × State ι δ κ
  | .retain dev reply => s.cuDevicePrimaryCtxRetain physical dev reply
  | .release dev => s.cuDevicePrimaryCtxRelease physical dev
  | .reset dev reached => s.cuDevicePrimaryCtxReset physical dev reached

theorem retain_of_not_forwarded (h : s.forwarded dev = false) (reply : Option κ) :
    s.cuDevicePrimaryCtxRetain physical dev reply = s.forwardRetain physical dev reply := by
  rcases hr : s.retains dev with - | r
  · simp only [State.cuDevicePrimaryCtxRetain, hr]
  · have hforwarded : r.forwarded = false := by simpa [hr] using h
    simp [State.cuDevicePrimaryCtxRetain, hr, hforwarded]

end State

/-! ## Accounts -/

section Accounts

variable [DecidableEq ι]

/-- The retains that the log leaves to a virtual device: those carried out, less its releases. -/
def held (dev : ι) : List (Sent ι κ) → ℤ
  | [] => 0
  | .retain d _ :: log => held dev log + if d = dev then 1 else 0
  | .release d :: log => held dev log - if d = dev then 1 else 0
  | .reset _ :: log => held dev log

/-- A retain of the virtual device has been carried out since its last reset. -/
def sinceReset (dev : ι) : List (Sent ι κ) → Bool
  | [] => false
  | .retain d _ :: log => if d = dev then true else sinceReset dev log
  | .release _ :: log => sinceReset dev log
  | .reset d :: log => if d = dev then false else sinceReset dev log

/-- The context of the latest retain carried out for the virtual device. -/
def latest (dev : ι) : List (Sent ι κ) → Option κ
  | [] => none
  | .retain d ctx :: log => if d = dev then some ctx else latest dev log
  | .release _ :: log => latest dev log
  | .reset _ :: log => latest dev log

/-- The virtual device that a request was sent for. -/
def Sent.device : Sent ι κ → ι
  | .retain dev _ | .release dev | .reset dev => dev

/-- A request for one virtual device does not enter the account of another. -/
theorem account_cons_of_ne {x : Sent ι κ} (h : x.device ≠ dev) (log : List (Sent ι κ)) :
    held dev (x :: log) = held dev log ∧ sinceReset dev (x :: log) = sinceReset dev log ∧
      latest dev (x :: log) = latest dev log := by
  cases x <;> simp_all [Sent.device, held, sinceReset, latest]

/-- The account of a virtual device is what its entry says. -/
def Booked (log : List (Sent ι κ)) (dev : ι) : Option (Retain κ) → Prop
  | none => held dev log = 0
  | some r => (0 < r.count ∧ r.count ≤ intMax) ∧ r.forwarded = sinceReset dev log ∧
      held dev log = (if r.forwarded then 1 else 0) ∧
      (r.forwarded → latest dev log = some r.context)

theorem Booked.append_of_ne {log sent : List (Sent ι κ)} {r : Option (Retain κ)}
    (hsent : ∀ x ∈ sent, x.device ≠ dev) (h : Booked log dev r) : Booked (sent ++ log) dev r := by
  induction sent with
  | nil => exact h
  | cons x sent ih =>
    have ih := ih fun y hy => hsent y (List.mem_cons_of_mem x hy)
    obtain ⟨hheld, hsince, hlatest⟩ :=
      account_cons_of_ne (hsent x List.mem_cons_self) (sent ++ log)
    cases r with
    | none => simpa only [Booked, List.cons_append, hheld] using ih
    | some r => simpa only [Booked, List.cons_append, hheld, hsince, hlatest] using ih

/-- A call changes the entry and the account of its own device only. -/
theorem booked_of_device {t : State ι δ κ} (sent : List (Sent ι κ)) {r : Option (Retain κ)}
    (hs : ∀ d, Booked s.sent d (s.retains d)) (hsent : t.sent = sent ++ s.sent)
    (hdev : ∀ x ∈ sent, x.device = dev) (hretains : t.retains = update s.retains dev r)
    (h : Booked t.sent dev r) : ∀ d, Booked t.sent d (t.retains d) := by
  intro d
  by_cases hd : d = dev
  · subst hd
    rwa [hretains, update_self]
  · rw [hretains, update_of_ne hd, hsent]
    exact (hs d).append_of_ne fun x hx hxd => hd (hxd.symm.trans (hdev x hx))

end Accounts

section Books

variable [DecidableEq ι] [DecidableEq δ] (physical : ι → δ)

/-- The driver's count of a device is the sum of the accounts of its virtual devices. -/
def Balanced [Fintype ι] (s : State ι δ κ) : Prop :=
  ∀ p, (s.server p : ℤ) = ∑ dev with physical dev = p, held dev s.sent

/-- For each virtual device the client holds one retain on the server when its own count is
positive and a retain was forwarded since the last reset, and none otherwise; and what the driver
counts is the sum of these. -/
def CountsRetains [Fintype ι] (s : State ι δ κ) : Prop :=
  (∀ dev, held dev s.sent = if 0 < s.count dev ∧ sinceReset dev s.sent then 1 else 0) ∧
    Balanced physical s

/-- A release that is carried out takes the count to zero with a forwarded retain outstanding, or
finds that the client holds no retain. -/
def ReleasesLast (s t : State ι δ κ) : Call ι κ → Prop
  | .release dev =>
      t.sent = .release dev :: s.sent →
        s.count dev = 1 ∧ held dev s.sent = 1 ∨ s.count dev = 0
  | _ => True

/-- A retain returns the context of the latest retain carried out for its virtual device. -/
def ReturnsLatest (answer : Answer κ) (t : State ι δ κ) : Call ι κ → Prop
  | .retain dev _ => ∃ ctx, answer = .context ctx ∧ latest dev t.sent = some ctx
  | _ => True

/-- The three properties at one call: of the state after it, of a forwarded release, and of the
context returned. -/
def Accounts [Fintype ι] (s : State ι δ κ) (c : Call ι κ) : Prop :=
  CountsRetains physical (s.call physical c).2 ∧ ReleasesLast s (s.call physical c).2 c ∧
    ReturnsLatest (s.call physical c).1 (s.call physical c).2 c

/-- The remote calls that the call makes succeed. -/
def Succeeds (s : State ι δ κ) : Call ι κ → Prop
  | .retain dev reply => s.forwarded dev ∨ reply.isSome
  | .release dev =>
      ((s.retains dev).isNone ∨ s.forwarded dev) ∧ wrapInt (s.count dev - 1) ≤ 0 →
        0 < s.server (physical dev)
  | .reset dev reached => reached ∧ (s.forwarded dev → 0 < s.server (physical dev))

/-- The count of the device stays in the range of its type, and a release finds it positive. -/
def InRange (s : State ι δ κ) : Call ι κ → Prop
  | .retain dev _ => s.count dev < intMax
  | .release dev => 0 < s.count dev
  | .reset _ _ => True

instance (s : State ι δ κ) (c : Call ι κ) : Decidable (Succeeds physical s c) := by
  cases c <;> unfold Succeeds <;> infer_instance

instance (s : State ι δ κ) (c : Call ι κ) : Decidable (InRange s c) := by
  cases c <;> unfold InRange <;> infer_instance

def step (s : State ι δ κ) (c : Call ι κ) : Option (State ι δ κ) := some (s.call physical c).2

/-! ## The driver's count -/

variable [Fintype ι]

theorem balanced_initial : Balanced physical (State.initial : State ι δ κ) := by
  intro p
  simp [State.initial, held]

/-- A request that adds `k` to the account of one virtual device adds `k` to the driver's count of
its device. -/
theorem Balanced.update {t : State ι δ κ} (h : Balanced physical s) (dev : ι) (k : ℤ)
    (hserver : ∀ p, (t.server p : ℤ) = s.server p + if physical dev = p then k else 0)
    (hheld : ∀ d, held d t.sent = held d s.sent + if dev = d then k else 0) :
    Balanced physical t := by
  intro p
  rw [hserver, h p]
  simp only [hheld, Finset.sum_add_distrib, Finset.sum_ite_eq, Finset.mem_filter,
    Finset.mem_univ, true_and]

attribute [local simp] State.serverRetain

theorem Balanced.serverRetain (h : Balanced physical s) (dev : ι) (ctx : κ) :
    Balanced physical (s.serverRetain physical dev ctx) := by
  refine h.update physical dev 1 (fun p => ?_) fun d => rfl
  by_cases hp : physical dev = p
  · subst hp
    simp
  · simp [hp, update_of_ne (Ne.symm hp)]

attribute [local simp] State.serverRelease

theorem Balanced.serverRelease (h : Balanced physical s) (hpos : 0 < s.server (physical dev)) :
    Balanced physical (s.serverRelease physical dev) := by
  refine h.update physical dev (-1) (fun p => ?_) fun d => ?_
  · by_cases hp : physical dev = p
    · subst hp
      simp only [State.serverRelease, update_self, if_true]
      omega
    · simp [hp, update_of_ne (Ne.symm hp)]
  · simp only [State.serverRelease, held]
    split <;> omega

/-! ## One call -/

/-- The invariant of the calls that release what the client has retained. -/
structure Books (s : State ι δ κ) : Prop where
  booked : ∀ dev, Booked s.sent dev (s.retains dev)
  balanced : Balanced physical s

section Books

variable (h : Books physical s)

include h

attribute [local simp] Booked

theorem Books.countsRetains : CountsRetains physical s := by
  refine ⟨fun dev => ?_, h.balanced⟩
  have hdev := h.booked dev
  rcases hr : s.retains dev with - | r
  · simpa [State.count, hr] using hdev
  · rw [hr] at hdev
    obtain ⟨hcount, hsince, hheld, -⟩ := hdev
    simp [State.count, hr, hcount.1, hheld, hsince]

theorem Books.count_mem (dev : ι) : 0 ≤ s.count dev ∧ s.count dev ≤ intMax := by
  have hdev := h.booked dev
  rcases hr : s.retains dev with - | r
  · simp [State.count, hr, intMax]
  · rw [hr] at hdev
    simpa [State.count, hr] using ⟨hdev.1.1.le, hdev.1.2⟩

/-- The count after a retain, when it has room. -/
theorem Books.count_retain (hroom : s.count dev < intMax) :
    wrapInt (s.count dev + 1) = s.count dev + 1 ∧ 0 < s.count dev + 1 ∧
      s.count dev + 1 ≤ intMax := by
  obtain ⟨hlow, -⟩ := h.count_mem physical dev
  exact ⟨wrapInt_of_le (by omega) (by omega), by omega, by omega⟩

/-! ### Retain -/

attribute [local simp] State.setRetain State.forwardRetain

theorem Books.forwardRetain (hheld : held dev s.sent = 0) (hroom : s.count dev < intMax)
    (ctx : κ) : Books physical (s.forwardRetain physical dev (some ctx)).2 := by
  refine ⟨?_, h.balanced.serverRetain physical dev ctx⟩
  refine booked_of_device [.retain dev ctx] h.booked rfl (by simp [Sent.device]) rfl ?_
  simp [sinceReset, held, latest, hheld, h.count_retain physical hroom]

/-- A retain that the client counts itself. -/
theorem Books.countRetain {r : Retain κ} (hr : s.retains dev = some r)
    {n : ℤ} (hn : 0 < n ∧ n ≤ intMax) :
    Books physical (s.setRetain dev (some ⟨r.context, n, r.forwarded⟩)) := by
  have hdev := h.booked dev
  rw [hr] at hdev
  exact ⟨booked_of_device [] h.booked rfl (by simp) rfl ⟨hn, hdev.2⟩, h.balanced⟩

theorem Books.held_of_not_forwarded (hdev : s.forwarded dev = false) : held dev s.sent = 0 := by
  have hbooked := h.booked dev
  rcases hr : s.retains dev with - | r
  · rwa [hr] at hbooked
  · rw [hr] at hbooked
    have hforwarded : r.forwarded = false := by simpa [State.forwarded, hr] using hdev
    simpa [hforwarded] using hbooked.2.2.1

attribute [local simp] State.call

theorem Books.retain {reply : Option κ}
    (hsucceeds : Succeeds physical s (.retain dev reply)) (hroom : s.count dev < intMax) :
    Books physical (s.call physical (.retain dev reply)).2 ∧
      ReturnsLatest (s.call physical (.retain dev reply)).1
        (s.call physical (.retain dev reply)).2 (.retain dev reply) := by
  rcases hforwarded : s.forwarded dev with - | -
  · obtain ⟨ctx, rfl⟩ : ∃ ctx, reply = some ctx :=
      Option.isSome_iff_exists.mp (hsucceeds.resolve_left (by simp [hforwarded]))
    have hheld := h.held_of_not_forwarded physical hforwarded
    rw [State.call, State.retain_of_not_forwarded physical hforwarded]
    refine ⟨h.forwardRetain physical hheld hroom ctx, ctx, rfl, ?_⟩
    simp [latest]
  · obtain ⟨r, hr, hrf⟩ := State.exists_of_forwarded hforwarded
    obtain ⟨hwrap, hcount⟩ := h.count_retain physical hroom
    have hcall : s.call physical (.retain dev reply) =
        (.context r.context, s.setRetain dev (some ⟨r.context, s.count dev + 1, r.forwarded⟩)) := by
      rw [← hwrap]
      simp [State.cuDevicePrimaryCtxRetain, hr, hrf, State.count]
    have hdev := h.booked dev
    rw [hr] at hdev
    rw [hcall]
    exact ⟨h.countRetain physical hr hcount, r.context, rfl, hdev.2.2.2 hrf⟩

/-- A retain beyond the greatest count leaves a negative one. -/
theorem Books.not_countsRetains_retain {reply : Option κ}
    (hsucceeds : Succeeds physical s (.retain dev reply)) (hcount : s.count dev = intMax) :
    ¬ CountsRetains physical (s.call physical (.retain dev reply)).2 := by
  have hneg : wrapInt (s.count dev + 1) < 0 := wrapInt_of_gt (by omega) (by omega)
  rintro ⟨hheld, -⟩
  have hheld := hheld dev
  rcases hforwarded : s.forwarded dev with - | -
  · obtain ⟨ctx, rfl⟩ : ∃ ctx, reply = some ctx :=
      Option.isSome_iff_exists.mp (hsucceeds.resolve_left (by simp [hforwarded]))
    rw [State.call, State.retain_of_not_forwarded physical hforwarded] at hheld
    simp [State.count, held, h.held_of_not_forwarded physical hforwarded] at hheld hneg
    omega
  · obtain ⟨r, hr, hrf⟩ := State.exists_of_forwarded hforwarded
    have hdev := h.booked dev
    rw [hr] at hdev
    simp [State.cuDevicePrimaryCtxRetain, hr, hrf, State.count, hdev.2.2.1] at hheld hneg
    omega

/-! ### Release -/

/-- The last release, whose forwarded retain is outstanding. -/
theorem Books.releaseForwarded (hheld : held dev s.sent = 1)
    (hserver : 0 < s.server (physical dev)) :
    Books physical ((s.setRetain dev none).serverRelease physical dev) := by
  have hbalanced : Balanced physical (s.setRetain dev none) := h.balanced
  refine ⟨?_, hbalanced.serverRelease physical hserver⟩
  refine booked_of_device [.release dev] h.booked rfl (by simp [Sent.device]) rfl ?_
  simp [held, hheld]

attribute [local simp] State.cuDevicePrimaryCtxRelease State.remotePrimaryCtxRelease

theorem Books.release (hsucceeds : Succeeds physical s (.release dev))
    (hcount : 0 < s.count dev) :
    Books physical (s.call physical (.release dev)).2 ∧
      ReleasesLast s (s.call physical (.release dev)).2 (.release dev) := by
  obtain ⟨r, hr⟩ := State.exists_of_count_pos hcount
  have hdev := h.booked dev
  rw [hr] at hdev
  obtain ⟨hpos, -, hheld, -⟩ := hdev
  have hcount : s.count dev = r.count := by simp [State.count, hr]
  have hwrap : wrapInt (r.count - 1) = r.count - 1 := wrapInt_of_le (by omega) (by omega)
  rcases lt_or_ge 0 (r.count - 1) with hmore | hlast
  · have hcall : s.call physical (.release dev) =
        (.done, s.setRetain dev (some ⟨r.context, r.count - 1, r.forwarded⟩)) := by
      simp only [State.call, State.cuDevicePrimaryCtxRelease, hr, hwrap, hmore, if_true]
    rw [hcall]
    exact ⟨h.countRetain physical hr ⟨hmore, by omega⟩, fun hsent => by simp at hsent⟩
  · have hstop : wrapInt (r.count - 1) ≤ 0 := hwrap.trans_le hlast
    rcases hforwarded : r.forwarded with - | -
    · have hcall : s.call physical (.release dev) = (.done, s.setRetain dev none) := by
        simp [hr, hstop, hforwarded]
      rw [hforwarded] at hheld
      rw [hcall]
      refine ⟨⟨?_, h.balanced⟩, fun hsent => by simp at hsent⟩
      exact booked_of_device [] h.booked rfl (by simp) rfl hheld
    · have hserver : 0 < s.server (physical dev) :=
        hsucceeds ⟨.inr (by simp [State.forwarded, hr, hforwarded]), hcount ▸ hstop⟩
      have hcall : s.call physical (.release dev) =
          (.done, (s.setRetain dev none).serverRelease physical dev) := by
        simp [hr, hstop, hforwarded, hserver]
      rw [hforwarded] at hheld
      rw [hcall]
      exact ⟨h.releaseForwarded physical hheld hserver, fun _ => .inl ⟨by omega, hheld⟩⟩

/-- A release without an entry is charged to a device that holds nothing. -/
theorem Books.not_countsRetains_release
    (hsucceeds : Succeeds physical s (.release dev)) (hcount : s.count dev = 0) :
    ¬ CountsRetains physical (s.call physical (.release dev)).2 := by
  have hdev := h.booked dev
  have hr : s.retains dev = none := by
    rcases hr : s.retains dev with - | r
    · rfl
    · rw [hr] at hdev
      have := hdev.1.1
      simp only [State.count, hr, Option.map_some, Option.getD_some] at hcount
      omega
  rw [hr] at hdev
  have hcall : s.call physical (.release dev) = (.done, s.serverRelease physical dev) := by
    simp [hr, hsucceeds ⟨.inl (by simp [hr]), by rw [hcount]; decide⟩]
  rintro ⟨hheld, -⟩
  have hheld := hheld dev
  have hdev : held dev s.sent = 0 := hdev
  have hneg : held dev (s.serverRelease physical dev).sent = -1 := by
    simp [held, hdev]
  rw [hcall, hneg] at hheld
  by_cases hretained : 0 < (s.serverRelease physical dev).count dev ∧
      sinceReset dev (s.serverRelease physical dev).sent
  · omega
  · omega

/-! ### Reset -/

attribute [local simp] State.serverReset State.dropForwarded

theorem Books.reset {reached : Bool}
    (hsucceeds : Succeeds physical s (.reset dev reached)) :
    Books physical (s.call physical (.reset dev reached)).2 := by
  obtain ⟨rfl, hserver⟩ := hsucceeds
  have hbalanced : Balanced physical (s.serverReset dev) := h.balanced
  have hdev := h.booked dev
  change Books physical ((s.serverReset dev).dropForwarded physical dev)
  rcases hforwarded : s.forwarded dev with - | -
  · -- nothing outstanding: the log gets the reset alone
    have hheld := h.held_of_not_forwarded physical hforwarded
    have hcall : (s.serverReset dev).dropForwarded physical dev = s.serverReset dev := by
      rcases hr : s.retains dev with - | r
      · simp [hr]
      · have hrf : r.forwarded = false := by simpa [State.forwarded, hr] using hforwarded
        simp [hr, hrf]
    rw [hcall]
    refine ⟨?_, hbalanced⟩
    refine booked_of_device [.reset dev] h.booked rfl (by simp [Sent.device])
      (update_eq_self dev s.retains).symm ?_
    rcases hr : s.retains dev with - | r
    · exact hheld
    · have hrf : r.forwarded = false := by simpa [State.forwarded, hr] using hforwarded
      rw [hr] at hdev
      simp [hdev.1, hrf, sinceReset, held, hheld]
  · obtain ⟨r, hr, hrf⟩ := State.exists_of_forwarded hforwarded
    have hserver := hserver hforwarded
    rw [hr] at hdev
    obtain ⟨hpos, -, hheld, -⟩ := hdev
    have hcall : (s.serverReset dev).dropForwarded physical dev =
        ((s.serverReset dev).setRetain dev (some ⟨r.context, r.count, false⟩)).serverRelease
          physical dev := by
      simp [hr, hrf, hserver]
    rw [hcall]
    refine ⟨?_, hbalanced.serverRelease physical hserver⟩
    refine booked_of_device [.release dev, .reset dev] h.booked rfl (by simp [Sent.device]) rfl ?_
    simp [hpos, sinceReset, held, hheld, hrf]

/-! ## Every sequence of calls -/

theorem Books.call {c : Call ι κ} (hsucceeds : Succeeds physical s c)
    (hc : InRange s c) : Books physical (s.call physical c).2 := by
  cases c with
  | retain dev reply => exact (h.retain physical hsucceeds hc).1
  | release dev => exact (h.release physical hsucceeds hc).1
  | reset dev reached => exact h.reset physical hsucceeds

/-- In states with matching books a call keeps the accounts exactly when it meets
`InRange`. -/
theorem Books.accounts_iff {c : Call ι κ}
    (hsucceeds : Succeeds physical s c) : Accounts physical s c ↔ InRange s c := by
  constructor
  · rintro ⟨hcounts, -, -⟩
    cases c with
    | reset => trivial
    | retain dev reply =>
      refine lt_of_le_of_ne (h.count_mem physical dev).2 fun hcount => ?_
      exact h.not_countsRetains_retain physical hsucceeds hcount hcounts
    | release dev =>
      refine lt_of_le_of_ne (h.count_mem physical dev).1 fun hcount => ?_
      exact h.not_countsRetains_release physical hsucceeds hcount.symm hcounts
  · intro hc
    refine ⟨(h.call physical hsucceeds hc).countsRetains physical, ?_, ?_⟩
    · cases c with
      | retain | reset => trivial
      | release dev => exact (h.release physical hsucceeds hc).2
    · cases c with
      | retain dev reply => exact (h.retain physical hsucceeds hc).2
      | release | reset => trivial

end Books

/-- **Primary contexts are retained once.** Along every sequence of calls whose remote calls
succeed, on any table of virtual devices, each state accounts for the retains, only the last
release goes through and every retain returns the latest context, exactly when no call releases a
virtual device for which the client has no retain, and none retains one whose count has no room. -/
theorem accounts_along_iff (calls : List (Call ι κ))
    (h : Along (step physical) (Succeeds physical) (State.initial : State ι δ κ) calls) :
    Along (step physical) (Accounts physical) (State.initial : State ι δ κ) calls ↔
      Along (step physical) InRange (State.initial : State ι δ κ) calls := by
  have hinitial : Books physical (State.initial : State ι δ κ) :=
    ⟨fun _ => rfl, balanced_initial physical⟩
  refine along_iff_along (fun s c hs hc => hs.accounts_iff physical hc)
    (fun s c t hs hc hC ht => ?_) hinitial h
  cases ht
  exact hs.call physical hc ((hs.accounts_iff physical hc).mp hC)

end Books

/-- Two retains of a device listed twice, a reset, and the releases. -/
def resetBetween : List (Call (Fin 2) ℕ) :=
  [.retain 0 (some 7), .retain 1 (some 7), .retain 0 none, .reset 0 true, .release 0,
    .retain 0 (some 7), .release 0, .release 0, .release 1]

theorem accounts_along_of_resetBetween :
    Along (step fun _ => ()) (Succeeds fun _ => ()) State.initial resetBetween ∧
      Along (step fun _ => ()) (Accounts fun _ => ()) State.initial resetBetween := by
  have h : Along (step fun _ => ()) (Succeeds fun _ => ()) State.initial resetBetween := by decide
  exact ⟨h, (accounts_along_iff (fun _ => ()) resetBetween h).mpr (by decide)⟩

def after [DecidableEq ι] [DecidableEq δ] (physical : ι → δ) (calls : List (Call ι κ)) :
    State ι δ κ := calls.foldl (fun s c => (s.call physical c).2) .initial

/-- Virtual device 1 is the same device as 0 and was never retained. Its release succeeds, and the
server no longer has the retain that the client counts for device 0. -/
theorem foreign_release :
    let calls : List (Call (Fin 2) ℕ) := [.retain 0 (some 7), .release 1]
    let s := after (fun _ => ()) calls
    Along (step fun _ => ()) (Succeeds fun _ => ()) State.initial calls ∧
      s.count 0 = 1 ∧ sinceReset 0 s.sent ∧ s.server () = 0 ∧
      s.count 1 = 0 ∧ held 1 s.sent = -1 := by
  decide

end Lupine.Contexts.Primary
