import Lupine.Foundations.Execution

/-!
# The context stack of a thread

A thread of the client keeps its current context apart from a vector of saved predecessors
(`lupine_current_context` and `lupine_context_stack`), and every context call updates the two in
its own way. CUDA documents one stack for each thread. This module compares the two on every
sequence of calls of one thread.

* `Client` is the state of the thread, with one function for each call of the source. What a call
  meets outside the thread (the contexts with a known owner, the hint of the other threads, the
  outcome of its remote calls) is its `Surroundings`.
* `documented` is CUDA's stack and what each call does to it.
* `Matches` compares the two by what the application can see: `cuCtxGetCurrent` now and after any
  number of pops.
* `matches_along_iff`: the answers agree and the states match along a sequence of calls exactly
  when no call pops an empty stack, no call removes the top while a context is left below it
  (`cuCtxSetCurrent(NULL)` and the destruction of the current context do not restore it), and no
  call destroys a context that is on the stack but not current (its entries are dropped).
-/

namespace Lupine.Contexts

open List

open Foundations (Along along_iff_along exec)

variable {κ : Type*}
variable {ctx : κ} {l stack : List (Option κ)}

/-- What a call gives back: nothing, a context that may be NULL, or an error. -/
inductive Answer (κ : Type*)
  | done
  | context (ctx : Option κ)
  | failed
  deriving DecidableEq

/-- What a call finds outside the thread. -/
structure Surroundings (κ : Type*) where
  /-- The contexts whose owner the routing table knows. -/
  owners : List κ
  /-- `lupine_global_default_context_hint`. -/
  globalHint : Option κ
  /-- Whether a lane can be bound to a context (`lupine_set_current_context_on_route`). -/
  binds : Bool
  /-- Whether the request of a creation or a destruction succeeds. -/
  serves : Bool

variable {e : Surroundings κ}

/-- The thread-local variables of the client. The vector of saved predecessors is a list with the
back of the vector first. -/
structure Client (κ : Type*) where
  currentContext : Option κ
  contextStack : List (Option κ)
  defaultHint : Option κ
  deriving DecidableEq

variable {c c' : Client κ}

/-- A thread that has made no call. -/
def Client.fresh : Client κ := ⟨none, [], none⟩

/-- The calls of a thread that change or read its context stack. -/
inductive Call (κ : Type*)
  | create (ctx : κ)
  | destroy (ctx : κ)
  | push (ctx : Option κ)
  | pop
  | setCurrent (ctx : Option κ)
  | getCurrent
  deriving DecidableEq

/-! ## The client -/

namespace Client

section

variable (c : Client κ) (ctx : Option κ)

/-- The update that a successful binding is followed by: the current context and, unless the
context is NULL, the default hint. -/
def makeCurrent : Client κ :=
  { c with currentContext := ctx, defaultHint := ctx.or c.defaultHint }

def pushBack : Client κ :=
  { c with contextStack := ctx :: c.contextStack }

def popBack : Client κ := { c with contextStack := c.contextStack.tail }

/-- `lupine_accept_current_context_hint`. -/
def acceptCurrentContextHint (ctx : κ) : Client κ :=
  { c with currentContext := some ctx }

/-- `cuCtxCreate_v2` with `lupine_note_ctx_create`. -/
def cuCtxCreate (e : Surroundings κ) (c : Client κ) (ctx : κ) : Answer κ × Client κ :=
  if e.serves then (.done, (c.pushBack c.currentContext).makeCurrent (some ctx))
  else (.failed, c)

/-- The current context and its saved predecessors. -/
def entries : List (Option κ) := c.currentContext :: c.contextStack

theorem entries_create (ctx : κ) (h : e.serves) :
    (c.cuCtxCreate e ctx).2.entries = some ctx :: c.entries := by
  simp [cuCtxCreate, h, entries, makeCurrent, pushBack]

end

section Calls

variable [DecidableEq κ]

section

variable (e : Surroundings κ) (c : Client κ)

/-- `lupine_route_for_default` tries the hints in this order. It binds the lane to the first one
with a known owner, which becomes the current context of the thread. -/
def routeForDefault : Client κ :=
  match [c.currentContext, c.defaultHint, e.globalHint].reduceOption.find?
      fun ctx => decide (ctx ∈ e.owners) && e.binds with
  | some ctx => c.acceptCurrentContextHint ctx
  | none => c

/-- `lupine_route_for_context`: the default route when the context is NULL or has no known
owner. -/
def routeForContext : Option κ → Client κ
  | some ctx => if ctx ∈ e.owners then c else c.routeForDefault e
  | none => c.routeForDefault e

/-- `lupine_set_remote_current_context`, whose result is `e.binds`: a NULL context is routed by
the current one. -/
def setRemoteCurrentContext (ctx : Option κ) : Client κ :=
  c.routeForContext e (ctx.or c.currentContext)

def cuCtxPushCurrent (ctx : Option κ) : Answer κ × Client κ :=
  if e.binds then
    (.done, ((c.pushBack c.currentContext).setRemoteCurrentContext e ctx).makeCurrent ctx)
  else (.failed, ((c.pushBack c.currentContext).setRemoteCurrentContext e ctx).popBack)

/-- The context that a pop restores. -/
def previous : Option κ := c.contextStack.headD none

/-- A failed pop puts `previous` back, also when the vector was empty. -/
def cuCtxPopCurrent : Answer κ × Client κ :=
  if e.binds then
    (.context c.currentContext,
      (c.popBack.setRemoteCurrentContext e c.previous).makeCurrent c.previous)
  else (.failed, (c.popBack.setRemoteCurrentContext e c.previous).pushBack c.previous)

def cuCtxSetCurrent (ctx : Option κ) : Answer κ × Client κ :=
  if e.binds then (.done, (c.setRemoteCurrentContext e ctx).makeCurrent ctx)
  else (.failed, c.setRemoteCurrentContext e ctx)

def cuCtxGetCurrent : Answer κ × Client κ := (.context c.currentContext, c)

/-- `lupine_forget_destroyed_context`: every occurrence in the vector is erased. -/
def forgetDestroyedContext (ctx : κ) : Client κ where
  currentContext := if c.currentContext = some ctx then none else c.currentContext
  contextStack := c.contextStack.filter (· ≠ some ctx)
  defaultHint := if c.defaultHint = some ctx then none else c.defaultHint

/-- The part of `cuCtxDestroy_v2` before its request. -/
def leaveDestroyedContext (ctx : κ) : Client κ :=
  if c.currentContext = some ctx then (c.cuCtxSetCurrent e none).2 else c

/-- `cuCtxDestroy_v2` as generated: the route, the switch to NULL, the request, the clean-up. -/
def cuCtxDestroy (ctx : κ) : Answer κ × Client κ :=
  if e.serves then
    (.done, ((c.routeForContext e (some ctx)).leaveDestroyedContext e ctx).forgetDestroyedContext
      ctx)
  else (.failed, (c.routeForContext e (some ctx)).leaveDestroyedContext e ctx)

def call : Call κ → Answer κ × Client κ
  | .create ctx => c.cuCtxCreate e ctx
  | .destroy ctx => c.cuCtxDestroy e ctx
  | .push ctx => c.cuCtxPushCurrent e ctx
  | .pop => c.cuCtxPopCurrent e
  | .setCurrent ctx => c.cuCtxSetCurrent e ctx
  | .getCurrent => c.cuCtxGetCurrent

/-! ## What a call does to the entries -/

/-- Routing may replace the current context, never the saved ones. -/
@[simp] theorem contextStack_routeForDefault :
    (c.routeForDefault e).contextStack = c.contextStack := by
  unfold routeForDefault
  split <;> rfl

@[simp] theorem contextStack_routeForContext (ctx : Option κ) :
    (c.routeForContext e ctx).contextStack = c.contextStack := by
  cases ctx with
  | none => exact contextStack_routeForDefault e c
  | some ctx =>
    by_cases h : ctx ∈ e.owners
    · simp only [routeForContext, h, if_true]
    · simp only [routeForContext, h, if_false, contextStack_routeForDefault]

/-- A binding leaves no trace of the routing before it. -/
theorem entries_makeCurrent (ctx ctx' : Option κ) :
    ((c.setRemoteCurrentContext e ctx).makeCurrent ctx').entries = ctx' :: c.contextStack := by
  simp [entries, makeCurrent, setRemoteCurrentContext]

end

theorem entries_push (c : Client κ) (ctx : Option κ) (h : e.binds) :
    (c.cuCtxPushCurrent e ctx).2.entries = ctx :: c.entries := by
  simp only [cuCtxPushCurrent, h, if_true, entries_makeCurrent]
  rfl

theorem entries_setCurrent (c : Client κ) (ctx : Option κ) (h : e.binds) :
    (c.cuCtxSetCurrent e ctx).2.entries = ctx :: c.contextStack := by
  simp only [cuCtxSetCurrent, h, if_true, entries_makeCurrent]

/-- A pop moves every entry up by one; below the last one stands NULL. -/
theorem getD_entries_pop (c : Client κ) (h : e.binds) (n : ℕ) :
    (c.cuCtxPopCurrent e).2.entries.getD n none = c.entries.getD (n + 1) none := by
  have hentries : (c.cuCtxPopCurrent e).2.entries = c.previous :: c.contextStack.tail := by
    simp only [cuCtxPopCurrent, h, if_true, entries_makeCurrent]
    rfl
  rw [hentries, entries, getD_cons_succ, previous]
  cases c.contextStack with
  | nil => cases n <;> rfl
  | cons ctx rest => rfl

/-- The destruction of the current context leaves NULL in its place. -/
theorem entries_destroy_current (hserves : e.serves) (hbinds : e.binds) (howner : ctx ∈ e.owners)
    (h : c.currentContext = some ctx) :
    (c.cuCtxDestroy e ctx).2.entries = none :: c.contextStack.filter (· ≠ some ctx) := by
  have hset := entries_setCurrent c none hbinds
  obtain ⟨hcurrent, hstack⟩ := List.cons.inj hset
  have hleave : (c.routeForContext e (some ctx)).leaveDestroyedContext e ctx =
      (c.cuCtxSetCurrent e none).2 := by
    simp [routeForContext, howner, leaveDestroyedContext, h]
  simp [cuCtxDestroy, hserves, hleave, entries, forgetDestroyedContext, hcurrent, hstack]

theorem entries_destroy_other (hserves : e.serves) (howner : ctx ∈ e.owners)
    (h : c.currentContext ≠ some ctx) :
    (c.cuCtxDestroy e ctx).2.entries = c.entries.filter (· ≠ some ctx) := by
  simp [cuCtxDestroy, hserves, routeForContext, howner, leaveDestroyedContext, h, entries,
    forgetDestroyedContext]

end Calls

end Client

/-! ## The documented stack -/

theorem headD_drop (stack : List (Option κ)) (n : ℕ) :
    (stack.drop n).headD none = stack.getD n none := by
  rw [headD_eq_head?_getD, List.head?_drop, getD_eq_getElem?_getD]

theorem head?_eq_some_some_iff : stack.head? = some (some ctx) ↔ stack.headD none = some ctx := by
  cases stack <;> simp

section Documented

variable [DecidableEq κ]

/-- CUDA's stack of a thread, top first, and what a successful call does to it. A pop of the empty
stack fails. -/
def documented (stack : List (Option κ)) : Call κ → Answer κ × List (Option κ)
  | .create ctx => (.done, some ctx :: stack)
  | .destroy ctx => (.done, if stack.head? = some (some ctx) then stack.tail else stack)
  | .push ctx => (.done, ctx :: stack)
  | .pop => (if stack = [] then .failed else .context (stack.headD none), stack.tail)
  | .setCurrent none => (.done, stack.tail)
  | .setCurrent (some ctx) => (.done, some ctx :: stack.tail)
  | .getCurrent => (.context (stack.headD none), stack)

/-- Surroundings in which a pop succeeds. -/
def quiet : Surroundings κ := ⟨[], none, true, true⟩

/-- The client after a number of pops. -/
def Client.afterPops : ℕ → Client κ → Client κ
  | 0, c => c
  | n + 1, c => Client.afterPops n (c.cuCtxPopCurrent quiet).2

/-- What the application reads with `cuCtxGetCurrent`, now and after any number of pops, is what
the documented stack says. A pop returns what `cuCtxGetCurrent` read before it, so the values of
the later pops are among these. -/
def Matches (c : Client κ) (stack : List (Option κ)) : Prop :=
  ∀ n, (c.afterPops n).currentContext = (stack.drop n).headD none

theorem Client.currentContext_afterPops (c : Client κ) (n : ℕ) :
    (c.afterPops n).currentContext = c.entries.getD n none := by
  induction n generalizing c with
  | zero => rfl
  | succ n ih => rw [Client.afterPops, ih, Client.getD_entries_pop c rfl]

/-- Two lists of entries match when they differ by NULLs at the bottom only. -/
theorem matches_iff : Matches c stack ↔ ∀ n, c.entries.getD n none = stack.getD n none :=
  forall_congr' fun n => by rw [Client.currentContext_afterPops, headD_drop]

theorem matches_fresh : Matches (Client.fresh : Client κ) [] :=
  matches_iff.mpr fun n => by cases n <;> rfl

theorem Matches.currentContext (h : Matches c stack) : c.currentContext = stack.headD none := h 0

theorem Matches.contextStack (h : Matches c stack) (n : ℕ) :
    c.contextStack.getD n none = stack.tail.getD n none := by
  have hn := matches_iff.mp h (n + 1)
  rw [Client.entries, getD_cons_succ] at hn
  rw [hn]
  cases stack <;> simp

end Documented

/-! ## One call -/

/-- A call together with its surroundings. -/
structure Request (κ : Type*) where
  call : Call κ
  surroundings : Surroundings κ

section Step

variable [DecidableEq κ]

/-- The remote calls of the request succeed. The context that a successful destruction names has
been created and not destroyed, so that its owner is known. -/
def Request.Succeeds (r : Request κ) : Prop :=
  r.surroundings.binds ∧ r.surroundings.serves ∧
    ∀ ctx, r.call = .destroy ctx → ctx ∈ r.surroundings.owners

/-- The thread and the documented stack take a call together. -/
def step (s : Client κ × List (Option κ)) (r : Request κ) :
    Option (Client κ × List (Option κ)) :=
  some ((s.1.call r.surroundings r.call).2, (documented s.2 r.call).2)

/-- The call is answered as documented, and the states match after it. -/
def AnswersAsDocumented (s : Client κ × List (Option κ)) (r : Request κ) : Prop :=
  (s.1.call r.surroundings r.call).1 = (documented s.2 r.call).1 ∧
    Matches (s.1.call r.surroundings r.call).2 (documented s.2 r.call).2

/-- The calls on which the two agree, by the documented stack before the call: a pop finds an
entry; where the top is removed by another call nothing but NULL is left below it; and a context
that is destroyed without being current is not on the stack. -/
def Restores (stack : List (Option κ)) : Call κ → Prop
  | .pop => stack ≠ []
  | .setCurrent none => ∀ ctx ∈ stack.tail, ctx = none
  | .destroy ctx =>
      if stack.head? = some (some ctx) then ∀ ctx ∈ stack.tail, ctx = none
      else some ctx ∉ stack
  | _ => True

instance (stack : List (Option κ)) (call : Call κ) : Decidable (Restores stack call) := by
  cases call with
  | setCurrent ctx => cases ctx <;> unfold Restores <;> infer_instance
  | _ => unfold Restores; infer_instance

end Step

/-! ### Entries that are all NULL -/

theorem getD_eq_none_of_forall (h : ∀ ctx ∈ l, ctx = none) (n : ℕ) : l.getD n none = none := by
  rw [getD_eq_getElem?_getD]
  rcases hn : l[n]? with - | ctx
  · rfl
  · exact h ctx (mem_of_getElem? hn)

theorem forall_eq_none_of_getD (h : ∀ n, l.getD n none = none) : ∀ ctx ∈ l, ctx = none := by
  intro ctx hctx
  obtain ⟨n, hn⟩ := mem_iff_getElem?.mp hctx
  have := h n
  rwa [getD_eq_getElem?_getD, hn] at this

/-- Putting NULL on top of `l` shows the entries of `l` exactly when all of them are NULL: each
entry has to equal the one above it. -/
theorem getD_none_cons_iff {m : List (Option κ)} (hm : ∀ n, m.getD n none = l.getD n none) :
    (∀ n, (none :: m).getD n none = l.getD n none) ↔ ∀ ctx ∈ l, ctx = none := by
  constructor
  · intro h
    refine forall_eq_none_of_getD fun n => ?_
    induction n with
    | zero => exact (h 0).symm
    | succ n ih => rw [← h (n + 1), getD_cons_succ, hm, ih]
  · intro h n
    rw [getD_eq_none_of_forall h]
    cases n with
    | zero => rfl
    | succ n => rw [getD_cons_succ, hm, getD_eq_none_of_forall h]

theorem getD_ne_of_notMem (h : some ctx ∉ l) (n : ℕ) : l.getD n none ≠ some ctx := by
  rw [getD_eq_getElem?_getD]
  rcases hn : l[n]? with - | x
  · simp
  · rintro rfl
    exact h (mem_of_getElem? hn)

theorem exists_getD_of_mem (h : some ctx ∈ l) : ∃ n, l.getD n none = some ctx := by
  obtain ⟨n, hn⟩ := mem_iff_getElem?.mp h
  exact ⟨n, by rw [getD_eq_getElem?_getD, hn]; rfl⟩

theorem notMem_of_getD_eq {m : List (Option κ)} (h : some ctx ∉ m)
    (heq : ∀ n, m.getD n none = l.getD n none) : some ctx ∉ l := by
  intro hl
  obtain ⟨n, hn⟩ := exists_getD_of_mem hl
  exact getD_ne_of_notMem h n (by rw [heq, hn])

section Calls

variable [DecidableEq κ]

theorem some_notMem_filter (l : List (Option κ)) (ctx : κ) :
    some ctx ∉ l.filter (· ≠ some ctx) := by simp

theorem filter_eq_self_of_notMem (h : some ctx ∉ l) : l.filter (· ≠ some ctx) = l := by
  rw [filter_eq_self]
  intro x hx
  simpa using ne_of_mem_of_not_mem hx h

/-! ### The calls that remove entries -/

section Matched

variable (h : Matches c stack)

include h

theorem matches_setCurrent_none_iff (hc : c'.entries = none :: c.contextStack) :
    Matches c' stack.tail ↔ ∀ ctx ∈ stack.tail, ctx = none := by
  rw [matches_iff, hc]
  exact getD_none_cons_iff h.contextStack

/-- The erasure of the destroyed context can be seen wherever it was on the stack. -/
theorem matches_destroy_current_iff
    (hc : c'.entries = none :: c.contextStack.filter (· ≠ some ctx)) :
    Matches c' stack.tail ↔ ∀ ctx ∈ stack.tail, ctx = none := by
  by_cases hmem : some ctx ∈ stack.tail
  · refine iff_of_false (fun hmatch => ?_) fun hnone => nomatch hnone _ hmem
    rw [matches_iff, hc] at hmatch
    refine notMem_of_getD_eq (fun hfilter => ?_) hmatch hmem
    rcases mem_cons.mp hfilter with hnil | hfilter
    · cases hnil
    · exact some_notMem_filter _ _ hfilter
  · have hstack : some ctx ∉ c.contextStack :=
      notMem_of_getD_eq hmem fun n => (h.contextStack n).symm
    exact matches_setCurrent_none_iff h (by rw [hc, filter_eq_self_of_notMem hstack])

theorem matches_destroy_other_iff
    (hc : c'.entries = c.entries.filter (· ≠ some ctx)) : Matches c' stack ↔ some ctx ∉ stack := by
  constructor
  · intro hmatch
    rw [matches_iff, hc] at hmatch
    exact notMem_of_getD_eq (some_notMem_filter _ _) hmatch
  · intro hmem
    have hentries : some ctx ∉ c.entries :=
      notMem_of_getD_eq hmem fun n => (matches_iff.mp h n).symm
    rw [matches_iff, hc, filter_eq_self_of_notMem hentries]
    exact matches_iff.mp h

/-! ### The calls that add or replace the top -/

theorem Matches.cons (ctx : Option κ) (hc : c'.entries = ctx :: c.entries) :
    Matches c' (ctx :: stack) := by
  rw [matches_iff, hc]
  intro n
  cases n with
  | zero => rfl
  | succ n => exact matches_iff.mp h n

theorem Matches.replace (ctx : Option κ)
    (hc : c'.entries = ctx :: c.contextStack) : Matches c' (ctx :: stack.tail) := by
  rw [matches_iff, hc]
  intro n
  cases n with
  | zero => rfl
  | succ n => exact h.contextStack n

theorem Matches.tail
    (hc : ∀ n, c'.entries.getD n none = c.entries.getD (n + 1) none) : Matches c' stack.tail := by
  rw [matches_iff]
  intro n
  rw [hc, Client.entries, getD_cons_succ, h.contextStack]

attribute [local simp] Client.call documented

/-- In matching states a call keeps to the documentation exactly when it meets `Restores`. -/
theorem answersAsDocumented_iff {r : Request κ} (hr : r.Succeeds) :
    AnswersAsDocumented (c, stack) r ↔ Restores stack r.call := by
  obtain ⟨call, e⟩ := r
  obtain ⟨hbinds, hserves, howner⟩ := hr
  simp only at hbinds hserves howner
  cases call with
  | create ctx =>
    refine iff_of_true ⟨?_, h.cons (some ctx) (Client.entries_create c ctx hserves)⟩ trivial
    simp [Client.cuCtxCreate, hserves]
  | push ctx =>
    refine iff_of_true ⟨?_, h.cons ctx (Client.entries_push c ctx hbinds)⟩ trivial
    simp [Client.cuCtxPushCurrent, hbinds]
  | getCurrent =>
    refine iff_of_true ⟨?_, h⟩ trivial
    simp [Client.cuCtxGetCurrent, h.currentContext]
  | pop =>
    have hmatch : Matches (c.cuCtxPopCurrent e).2 stack.tail :=
      h.tail (Client.getD_entries_pop c hbinds)
    rw [AnswersAsDocumented, and_iff_left (by exact hmatch)]
    by_cases hstack : stack = [] <;>
      simp [Client.cuCtxPopCurrent, hbinds, Restores, hstack, h.currentContext]
  | setCurrent ctx =>
    have hanswer : (c.cuCtxSetCurrent e ctx).1 = .done := by simp [Client.cuCtxSetCurrent, hbinds]
    have hentries := Client.entries_setCurrent c ctx hbinds
    cases ctx with
    | none =>
      rw [AnswersAsDocumented, and_iff_right (by exact hanswer)]
      exact matches_setCurrent_none_iff h hentries
    | some ctx => exact iff_of_true ⟨hanswer, h.replace (some ctx) hentries⟩ trivial
  | destroy ctx =>
    have howner := howner ctx rfl
    have hanswer : (c.cuCtxDestroy e ctx).1 = .done := by simp [Client.cuCtxDestroy, hserves]
    rw [AnswersAsDocumented, and_iff_right (by exact hanswer)]
    by_cases hcurrent : c.currentContext = some ctx
    · have hhead := head?_eq_some_some_iff.mpr (h.currentContext ▸ hcurrent)
      simp only [documented, Restores, hhead, if_true]
      exact matches_destroy_current_iff h
        (Client.entries_destroy_current hserves hbinds howner hcurrent)
    · have hhead : stack.head? ≠ some (some ctx) := fun hhead =>
        hcurrent (h.currentContext ▸ head?_eq_some_some_iff.mp hhead)
      simp only [documented, Restores, hhead, if_false]
      exact matches_destroy_other_iff h (Client.entries_destroy_other hserves howner hcurrent)

end Matched

/-! ## Every sequence of calls -/

/-- **The context stack matches CUDA's.** In a sequence of calls whose remote calls succeed, every
call is answered as the documented stack answers it, and `cuCtxGetCurrent` and the later pops
read the documented contexts after every call, exactly when every call meets `Restores`. -/
theorem matches_along_iff (requests : List (Request κ)) (h : ∀ r ∈ requests, r.Succeeds) :
    Along step AnswersAsDocumented (Client.fresh, []) requests ↔
      Along step (fun s r => Restores s.2 r.call) (Client.fresh, []) requests := by
  refine along_iff_along (I := fun s => Matches s.1 s.2) (fun s r hs hr => ?_)
    (fun s r t hs _ hC ht => ?_) matches_fresh (Along.of_forall h _)
  · exact answersAsDocumented_iff hs hr
  · cases ht
    exact hC.2

/-- Two contexts created and the first of them popped back to. -/
def nested : List (Request ℕ) :=
  [.create 1, .create 2, .getCurrent, .pop, .getCurrent, .setCurrent none, .setCurrent (some 2),
    .destroy 2].map (⟨·, ⟨[1, 2], none, true, true⟩⟩)

theorem matches_along_of_nested :
    (∀ r ∈ nested, r.Succeeds) ∧ Along step AnswersAsDocumented (Client.fresh, []) nested := by
  have h : ∀ r ∈ nested, r.Succeeds := by
    simp [nested, Request.Succeeds]
  exact ⟨h, (matches_along_iff nested h).mpr (by decide)⟩

/-- The answers of a thread to a sequence of calls, in surroundings that do not change. -/
def answers (e : Surroundings κ) : Client κ → List (Call κ) → List (Answer κ)
  | _, [] => []
  | c, call :: calls => (c.call e call).1 :: answers e (c.call e call).2 calls

def documentedAnswers : List (Option κ) → List (Call κ) → List (Answer κ)
  | _, [] => []
  | stack, call :: calls =>
    (documented stack call).1 :: documentedAnswers (documented stack call).2 calls

/-- After the destruction of the current context, and after `cuCtxSetCurrent(NULL)`, the client
reads NULL where the documented stack has the context below it; a destroyed context that is not
current vanishes from the stack; and a pop of the empty stack succeeds. -/
theorem predecessor_not_restored :
    let e : Surroundings ℕ := ⟨[1, 2, 3], none, true, true⟩
    (answers e .fresh [.create 1, .create 2, .destroy 2, .getCurrent] =
        [.done, .done, .done, .context none] ∧
      documentedAnswers [] [.create 1, .create 2, .destroy 2, .getCurrent] =
        [.done, .done, .done, .context (some 1)]) ∧
    (answers e .fresh [.create 1, .create 2, .setCurrent none, .getCurrent] =
        [.done, .done, .done, .context none] ∧
      documentedAnswers [] [.create 1, .create 2, .setCurrent none, .getCurrent] =
        [.done, .done, .done, .context (some 1)]) ∧
    (answers e .fresh [.create 1, .create 2, .create 3, .destroy 2, .pop, .getCurrent] =
        [.done, .done, .done, .done, .context (some 3), .context (some 1)] ∧
      documentedAnswers [] [.create 1, .create 2, .create 3, .destroy 2, .pop, .getCurrent] =
        [.done, .done, .done, .done, .context (some 3), .context (some 2)]) ∧
    (answers e .fresh [.pop] = [.context none] ∧
      documentedAnswers (κ := ℕ) [] [.pop] = [.failed]) := by
  decide

end Calls

end Lupine.Contexts
