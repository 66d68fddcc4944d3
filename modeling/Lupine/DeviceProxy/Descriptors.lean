import Mathlib.Data.List.Induction
import Lupine.Foundations.References

/-!
# Descriptors of device proxies

`device_ioctl_proxy.cpp` stands in for the NVIDIA device files of a remote host. Opening one
gives a `memfd` descriptor and a `lupine_device_proxy` with the token of the remote handle; the
registry maps descriptor numbers to shared pointers to proxies. The hooks of
`device_ioctl_preload.cpp` keep the registry in step with `dup`, `dup2`, `dup3`, `fcntl` and
`close`, and the deleter of the last shared pointer closes the remote handle.

The model has both tables: the kernel's, from numbers to open files, and the registry. A
duplicate gets the lowest free number from the requested one on, `dup2` and `dup3` close their
target first, and every call may fail as the kernel's does. The reference counts of the shared
pointers are explicit, with the copies that the functions hold in local variables.

* `Process.Inv` relates the tables, the counts and the remote closes; `Process.step_inv` keeps it.
* `Process.proxy_lifetime`: after any calls the registry records exactly the open descriptors of
  each proxy, and its handle was closed once when it has none and not otherwise; opening a device
  makes a proxy as long as a number is free.
-/

namespace Lupine.DeviceProxy

open Foundations Function

/-! ## The process -/

/-- `lupine_device_proxy`. -/
structure Proxy where
  route : ℤ
  token : ℕ
  uvm : Bool
  deriving DecidableEq, Repr, Inhabited

/-- What a descriptor number is open on: the `memfd` made for a proxy, or another file. -/
inductive File
  | memfd (proxy : ℕ)
  | other (name : ℕ)
  deriving DecidableEq, Repr

/-- A call of `lupine_device_proxy_remote_close` for the handle of a proxy. -/
structure RemoteClose where
  proxy : ℕ
  route : ℤ
  token : ℕ
  deriving DecidableEq, Repr

/-- The owning process. Proxies are numbered in the order in which their handles were opened. -/
structure Process where
  /-- The kernel's descriptor table. -/
  table : ℕ → Option File
  /-- `registry::descriptors`. -/
  descriptors : ℕ → Option ℕ
  proxies : ℕ → Proxy
  next : ℕ
  /-- The reference count of each shared pointer. -/
  refs : ℕ → ℕ
  remoteCloses : List RemoteClose

namespace Process

variable {s t : Process}

/-- A process that has opened no device; `files` are its open files. -/
def initial (files : ℕ → Option ℕ) : Process where
  table := fun fd => (files fd).map .other
  descriptors := fun _ => none
  proxies := fun _ => default
  next := 0
  refs := fun _ => 0
  remoteCloses := []

/-- The remote closes of the handle of one proxy. -/
def closesOf (s : Process) (p : ℕ) : List (ℤ × ℕ) :=
  (s.remoteCloses.filter fun c => c.proxy = p).map fun c => (c.route, c.token)

/-- The proxy has an open descriptor. -/
def Aliased (s : Process) (p : ℕ) : Prop := ∃ fd, s.table fd = some (.memfd p)

/-! ## The kernel -/

/-- The lowest free number from `low` on. The process can have numbers below `limit` open. -/
def lowestFree (limit : ℕ) (table : ℕ → Option File) (low : ℕ) : Option ℕ :=
  (List.range limit).find? fun n => low ≤ n ∧ table n = none

theorem lowestFree_free {limit low n : ℕ} {table : ℕ → Option File}
    (h : lowestFree limit table low = some n) : table n = none := by
  have hn := List.find?_some h
  simp only [decide_eq_true_eq] at hn
  exact hn.2

/-- There is a lowest free number if any is free. -/
theorem exists_lowestFree {limit fd : ℕ} {table : ℕ → Option File} (hfd : fd < limit)
    (hfree : table fd = none) : ∃ n, lowestFree limit table 0 = some n := by
  rw [← Option.isSome_iff_exists, lowestFree, List.find?_isSome]
  exact ⟨fd, List.mem_range.mpr hfd, by simp [hfree]⟩

/-- `O_CLOEXEC`, the only flag of `dup3`. -/
def oCloexec : ℕ := 0o2000000

section

variable (limit : ℕ) (s : Process)

/-- The number that a duplicate of `fd` gets: from `low` on, or exactly `destination`. -/
def dupFd (fd low : ℕ) : Option ℕ :=
  if s.table fd = none then none else lowestFree limit s.table low

@[inherit_doc dupFd]
def dup3Fd (fd destination flags : ℕ) : Option ℕ :=
  if s.table fd = none ∨ fd = destination ∨ limit ≤ destination ∨
      ¬(flags = 0 ∨ flags = oCloexec) then none
  else some destination

/-- The kernel opens `file` at `fd`, closing what was open there, or closes `fd`. -/
def setTable (fd : ℕ) (file : Option File) : Process :=
  { s with table := update s.table fd file }

/-! ## Shared pointers and the registry -/

/-- Copy a shared pointer. -/
def retain (p : ℕ) : Process :=
  { s with refs := update s.refs p (s.refs p + 1) }

/-- `lupine_device_proxy_remote_close`. -/
def remoteClose (p : ℕ) : Process :=
  { s with
    remoteCloses := s.remoteCloses ++ [⟨p, (s.proxies p).route, (s.proxies p).token⟩] }

/-- Destroy a shared pointer; the last one runs the deleter. -/
def release (p : ℕ) : Process :=
  let s' := { s with refs := update s.refs p (s.refs p - 1) }
  if s.refs p - 1 = 0 then s'.remoteClose p else s'

def retainOpt : Option ℕ → Process
  | some p => s.retain p
  | none => s

def releaseOpt : Option ℕ → Process
  | some p => s.release p
  | none => s

/-- `descriptors.erase`. -/
def erase (fd : ℕ) : Process :=
  { s with descriptors := update s.descriptors fd none }

/-- `descriptors.emplace` with a moved pointer: an existing entry stays, and the pointer goes. -/
def emplace (fd p : ℕ) : Process :=
  match s.descriptors fd with
  | none => { s with descriptors := update s.descriptors fd (some p) }
  | some _ => s.release p

def emplaceOpt (fd : ℕ) : Option ℕ → Process
  | some p => s.emplace fd p
  | none => s

/-! ## The functions of the registry -/

/-- `lupine_device_open` after the remote host has opened the device, with
`lupine_device_proxy_create`. Without a descriptor the remote handle is closed at once. -/
def create (proxy : Proxy) (refused : Bool) : Process × Option ℕ :=
  let p := s.next
  let s' := { s with proxies := update s.proxies p proxy, next := p + 1 }
  match if refused then none else lowestFree limit s.table 0 with
  | some fd => (((s'.setTable fd (some (.memfd p))).retain p).emplace fd p, some fd)
  | none => (s'.remoteClose p, none)

/-- `lupine_device_proxy_close`. The kernel releases the number even when it reports an error. -/
def proxyClose (fd : ℕ) : Process :=
  let removed := s.descriptors fd
  ((s.setTable fd none).erase fd).releaseOpt removed

/-- The hook of `close`. -/
def close (fd : ℕ) : Process :=
  match s.descriptors fd with
  | some _ => s.proxyClose fd
  | none => s.setTable fd none

/-- What `lupine_device_proxy_dup` does with the registry once the kernel has made the duplicate
`result`: `owner` is a new pointer to the source's proxy, and the entry of `result` moves to
`replaced`, which is destroyed last. -/
def recordDup (fd result : ℕ) : Process :=
  let owner := s.descriptors fd
  let s' := s.retainOpt owner
  let replaced := s'.descriptors result
  ((s'.erase result).emplaceOpt result owner).releaseOpt replaced

/-- `lupine_device_proxy_dup`. -/
def proxyDup (fd destination flags : ℕ) (fixed : Bool) : Process × Option ℕ :=
  if fixed ∧ fd = destination ∧ flags = 0 then
    (s, if s.table fd = none then none else some fd)
  else
    match if fixed then dup3Fd limit s fd destination flags else dupFd limit s fd 0 with
    | some result => ((s.setTable result (s.table fd)).recordDup fd result, some result)
    | none => (s, none)

/-- The hook of `dup3`; `dup` and `dup2` go to `lupine_device_proxy_dup` directly. -/
def dup3 (fd target flags : ℕ) : Process × Option ℕ :=
  if fd = target then (s, none) else proxyDup limit s fd target flags true

/-- `lupine_device_proxy_fcntl` with `F_DUPFD` or `F_DUPFD_CLOEXEC`. -/
def fcntlDup (fd low : ℕ) : Process × Option ℕ :=
  match dupFd limit s fd low with
  | some result =>
    let s' := s.setTable result (s.table fd)
    match s'.descriptors fd with
    | some p => ((s'.retain p).emplace result p, some result)
    | none => (s', some result)
  | none => (s, none)

/-- The calls of a process that open, copy or close descriptors. -/
inductive Call
  /-- An ordinary file is opened. -/
  | openFile (name : ℕ)
  | create (proxy : Proxy) (refused : Bool)
  | close (fd : ℕ)
  | dup (fd : ℕ)
  | dup2 (fd target : ℕ)
  | dup3 (fd target flags : ℕ)
  | fcntlDup (fd low : ℕ)
  deriving DecidableEq, Repr

def step : Call → Process
  | .openFile name =>
    match lowestFree limit s.table 0 with
    | some fd => s.setTable fd (some (.other name))
    | none => s
  | .create proxy refused => (create limit s proxy refused).1
  | .close fd => s.close fd
  | .dup fd => (proxyDup limit s fd 0 0 false).1
  | .dup2 fd target => (proxyDup limit s fd target 0 true).1
  | .dup3 fd target flags => (dup3 limit s fd target flags).1
  | .fcntlDup fd low => (fcntlDup limit s fd low).1

def run (calls : List Call) : Process := calls.foldl (step limit) s

end

/-! ## What the operations change -/

section Fields

variable (s : Process) (fd p q : ℕ)

/-- What `retain` and `release` do to a shared pointer that may be null. -/
theorem retainOpt_eq (o : Option ℕ) :
    s.retainOpt o = { s with refs := fun q => s.refs q + if o = some q then 1 else 0 } := by
  cases o with
  | none => rfl
  | some p =>
    have hrefs : (fun q => s.refs q + if some p = some q then 1 else 0) =
        update s.refs p (s.refs p + 1) := by
      funext q
      rcases eq_or_ne q p with rfl | hq <;> simp [*, Ne.symm]
    rw [hrefs]
    rfl

@[inherit_doc retainOpt_eq]
theorem releaseOpt_eq (o : Option ℕ) :
    s.releaseOpt o = { s with
      refs := fun q => s.refs q - if o = some q then 1 else 0
      remoteCloses := s.remoteCloses ++ (o.toList.filter fun p => s.refs p - 1 = 0).map fun p =>
        ⟨p, (s.proxies p).route, (s.proxies p).token⟩ } := by
  cases o with
  | none => simp [releaseOpt]
  | some p =>
    have hrefs : (fun q => s.refs q - if some p = some q then 1 else 0) =
        update s.refs p (s.refs p - 1) := by
      funext q
      rcases eq_or_ne q p with rfl | hq <;> simp [*, Ne.symm]
    rw [hrefs]
    by_cases hzero : s.refs p - 1 = 0 <;> simp [releaseOpt, release, remoteClose, hzero]

theorem releaseOpt_closesOf (o : Option ℕ) :
    (s.releaseOpt o).closesOf q = s.closesOf q ++
      if o = some q ∧ s.refs q - 1 = 0 then [((s.proxies q).route, (s.proxies q).token)]
      else [] := by
  rw [releaseOpt_eq]
  cases o with
  | none => simp [closesOf]
  | some p =>
    by_cases hq : p = q
    · subst hq
      by_cases hzero : s.refs p - 1 = 0 <;> simp [closesOf, hzero]
    · by_cases hzero : s.refs p - 1 = 0 <;> simp [closesOf, hzero, hq]

def assign (o : Option ℕ) : Process :=
  { s with descriptors := update s.descriptors fd o }

theorem emplaceOpt_erase (o : Option ℕ) : (s.erase fd).emplaceOpt fd o = s.assign fd o := by
  cases o <;> simp [erase, emplaceOpt, emplace, assign]

theorem recordDup_eq (result : ℕ) :
    s.recordDup fd result =
      ((s.retainOpt (s.descriptors fd)).assign result (s.descriptors fd)).releaseOpt
        (s.descriptors result) := by
  simp [recordDup, emplaceOpt_erase, retainOpt_eq]

end Fields

/-! ## The invariant -/

/-- The registry's own part: an entry belongs to a proxy that was created, the reference counts
are right, and a handle was closed when the count is zero. -/
structure Counted (s : Process) : Prop where
  created : ∀ fd p, s.descriptors fd = some p → p < s.next
  counts : ∀ p, HeldBy s.descriptors p (s.refs p)
  closes : ∀ p, s.closesOf p =
    if p < s.next ∧ s.refs p = 0 then [((s.proxies p).route, (s.proxies p).token)] else []

/-- The tables agree and the counts are right. -/
structure Inv (s : Process) : Prop extends Counted s where
  aliases : ∀ fd p, s.descriptors fd = some p ↔ s.table fd = some (.memfd p)

theorem initial_inv (files : ℕ → Option ℕ) : Inv (initial files) where
  created := by simp [initial]
  counts := fun p => HeldBy.zero_iff.mpr (by simp [initial])
  closes := by simp [initial, closesOf]
  aliases := by simp [initial]

/-- One entry of the registry changes: what it held before loses a pointer, and what it holds
now, which another entry holds too, gains one. -/
theorem Counted.replace (hs : Counted s) {k : ℕ} {new : Option ℕ}
    (hnew : ∀ p, new = some p → ∃ fd, s.descriptors fd = some p)
    (hdescriptors : t.descriptors = update s.descriptors k new)
    (hproxies : t.proxies = s.proxies) (hnext : t.next = s.next)
    (hrefs : ∀ q, t.refs q = s.refs q + (if new = some q then 1 else 0) -
      (if s.descriptors k = some q then 1 else 0))
    (hcloses : ∀ q, t.closesOf q = s.closesOf q ++
      if s.descriptors k = some q ∧ t.refs q = 0 then
        [((s.proxies q).route, (s.proxies q).token)] else []) : Counted t := by
  have hpos : ∀ {fd q}, s.descriptors fd = some q → 0 < s.refs q :=
    fun h => (hs.counts _).pos_of_holds h
  refine ⟨?_, ?_, ?_⟩
  · intro fd p h
    rw [hdescriptors, update_apply] at h
    rw [hnext]
    split at h
    · obtain ⟨fd', hfd'⟩ := hnew p h
      exact hs.created fd' p hfd'
    · exact hs.created fd p h
  · intro q
    rw [hdescriptors]
    have hcount := hs.counts q
    by_cases hold : s.descriptors k = some q <;> by_cases hq : new = some q
    · have hsame : t.refs q = s.refs q := by simp [hrefs, hold, hq]
      rw [hsame, hq, ← hold, update_eq_self]
      exact hcount
    · have hsucc : s.refs q = t.refs q + 1 := by
        have := hpos hold
        simp only [hrefs, hold, hq, if_false, if_true]
        omega
      rw [hsucc] at hcount
      exact hcount.drop hold hq
    · have hsucc : t.refs q = s.refs q + 1 := by simp [hrefs, hold, hq]
      rw [hsucc, hq]
      exact hcount.store hold
    · have hsame : t.refs q = s.refs q := by simp [hrefs, hold, hq]
      rw [hsame]
      exact hcount.other hold hq
  · intro q
    have hcreated := hs.created k q
    rw [hcloses, hs.closes, hnext, hproxies]
    by_cases hold : s.descriptors k = some q
    · have hlive := hpos hold
      simp [hold, hcreated hold, hlive.ne']
    · by_cases hq : new = some q
      · obtain ⟨fd, hfd⟩ := hnew q hq
        have hlive := hpos hfd
        simp [hold, hrefs, hq, hlive.ne']
      · simp [hold, hrefs, hq]

theorem Counted.setTable (hs : Counted s) (fd : ℕ) (file : Option File) :
    Counted (s.setTable fd file) :=
  { hs with }

attribute [local simp] Process.assign retainOpt_eq releaseOpt_eq

/-- An entry changes, as the functions do it: the new value is retained first and the old value
released last. -/
theorem Counted.assign (hs : Counted s) (k : ℕ) (new : Option ℕ)
    (hnew : ∀ p, new = some p → ∃ fd, s.descriptors fd = some p) :
    Counted (((s.retainOpt new).assign k new).releaseOpt (s.descriptors k)) := by
  refine hs.replace (k := k) hnew ?_ ?_ ?_ ?_ ?_
  · simp
  · simp
  · simp
  · simp
  · intro q
    rw [releaseOpt_closesOf]
    by_cases hold : s.descriptors k = some q <;> simp [hold, closesOf]

section

variable (hs : Inv s)
include hs

attribute [local simp] setTable

/-- The kernel and the registry change one descriptor together. -/
theorem Inv.assign (k : ℕ) (file : Option File) (new : Option ℕ)
    (hnew : ∀ p, new = some p → ∃ fd, s.descriptors fd = some p)
    (hfile : ∀ p, new = some p ↔ file = some (.memfd p)) :
    Inv ((((s.setTable k file).retainOpt new).assign k new).releaseOpt (s.descriptors k)) where
  toCounted := (hs.toCounted.setTable k file).assign k new hnew
  aliases := by
    intro fd p
    have hold := hs.aliases fd p
    by_cases hfd : fd = k
    · subst hfd
      simp [hfile]
    · simp [hfd, hold]

theorem Inv.dup (fd result : ℕ) : Inv ((s.setTable result (s.table fd)).recordDup fd result) := by
  rw [recordDup_eq]
  exact hs.assign result _ _ (fun p hp => ⟨fd, hp⟩) (hs.aliases fd)

theorem Inv.close (fd : ℕ) : Inv (s.close fd) := by
  unfold Process.close
  split
  case h_1 p hp =>
    exact hs.assign fd none none (by simp) (by simp)
  case h_2 hnone =>
    refine ⟨hs.toCounted.setTable fd none, fun fd' p => ?_⟩
    by_cases hfd : fd' = fd
    · subst hfd
      simp [hnone]
    · simp [hfd, hs.aliases]

/-- A number that is free in the kernel has no entry. -/
theorem Inv.descriptors_eq_none {fd : ℕ} (h : s.table fd = none) : s.descriptors fd = none := by
  cases hp : s.descriptors fd with
  | none => rfl
  | some p => simp [(hs.aliases fd p).mp hp] at h

theorem Inv.fcntlDup (limit fd low : ℕ) : Inv (fcntlDup limit s fd low).1 := by
  unfold Process.fcntlDup
  split
  case h_2 => exact hs
  case h_1 result hresult =>
    have hfree : s.table result = none := by
      unfold dupFd at hresult
      split at hresult
      · cases hresult
      · exact lowestFree_free hresult
    have hnone := hs.descriptors_eq_none hfree
    have hdup := hs.dup fd result
    rw [recordDup_eq] at hdup
    cases hp : s.descriptors fd with
    | none =>
      have hself : update s.descriptors result none = s.descriptors := by
        rw [← hnone, update_eq_self]
      simpa [hp, hnone, retainOpt, releaseOpt, hself] using hdup
    | some p =>
      simpa [hp, hnone, retainOpt, releaseOpt, emplace, retain] using hdup

theorem Inv.proxyDup (limit fd destination flags : ℕ) (fixed : Bool) :
    Inv (proxyDup limit s fd destination flags fixed).1 := by
  unfold Process.proxyDup
  split
  · exact hs
  · split
    · exact hs.dup fd _
    · exact hs

theorem Inv.openFile {fd : ℕ} (hfree : s.table fd = none) (name : ℕ) :
    Inv (s.setTable fd (some (.other name))) := by
  refine ⟨hs.toCounted.setTable fd _, fun fd' p => ?_⟩
  by_cases hfd : fd' = fd
  · subst hfd
    simp [hs.descriptors_eq_none hfree]
  · simp [hfd, hs.aliases]

omit hs in
/-- A proxy that was not created has no entry, no pointer and no remote close. -/
theorem Counted.fresh (hs : Counted s) :
    (∀ fd, s.descriptors fd ≠ some s.next) ∧ s.refs s.next = 0 ∧ s.closesOf s.next = [] := by
  have hnone : ∀ fd, s.descriptors fd ≠ some s.next :=
    fun fd h => absurd (hs.created fd _ h) (Nat.lt_irrefl _)
  refine ⟨hnone, (hs.counts s.next).eq_zero_iff.mpr hnone, ?_⟩
  rw [hs.closes, if_neg (by simp)]

theorem Inv.create (limit : ℕ) (proxy : Proxy) (refused : Bool) :
    Inv (create limit s proxy refused).1 := by
  obtain ⟨hnone, hrefs, hcloses⟩ := hs.toCounted.fresh
  have hcreated : ∀ fd p, s.descriptors fd = some p → p < s.next + 1 :=
    fun fd p h => Nat.lt_succ_of_lt (hs.created fd p h)
  unfold Process.create
  split
  case h_1 fd hfd =>
    have hfree : s.table fd = none := by
      split at hfd
      · cases hfd
      · exact lowestFree_free hfd
    have hentry := hs.descriptors_eq_none hfree
    simp only [setTable, retain, emplace, hentry, hrefs]
    refine ⟨⟨fun fd' p h => ?_, fun q => ?_, fun q => ?_⟩, fun fd' q => ?_⟩
    · by_cases hfd' : fd' = fd
      · subst hfd'
        obtain rfl : s.next = p := by simpa using h
        exact Nat.lt_succ_self _
      · exact hcreated fd' p (by simpa [hfd'] using h)
    · by_cases hq : q = s.next
      · subst hq
        have hcount := (hs.counts s.next).store (hnone fd)
        simpa [hrefs] using hcount
      · have hcount := (hs.counts q).other (k := fd) (by simp [hentry])
          (v := some s.next) (by simpa using Ne.symm hq)
        simpa [hq] using hcount
    · by_cases hq : q = s.next
      · subst hq
        simpa [closesOf] using hcloses
      · have hold := hs.closes q
        have hle : q ≤ s.next ↔ q < s.next := by omega
        simpa [closesOf, hq, hle] using hold
    · by_cases hfd' : fd' = fd
      · subst hfd'
        simp
      · simp [hfd', hs.aliases]
  case h_2 =>
    refine ⟨⟨hcreated, hs.counts, fun q => ?_⟩, hs.aliases⟩
    by_cases hq : q = s.next
    · subst hq
      simpa [closesOf, remoteClose, hrefs] using hcloses
    · have hold := hs.closes q
      have hle : q ≤ s.next ↔ q < s.next := by omega
      simpa [closesOf, remoteClose, hq, Ne.symm hq, hle] using hold

theorem step_inv (limit : ℕ) (call : Call) : Inv (step limit s call) := by
  cases call with
  | openFile name =>
    simp only [step]
    split
    case h_1 fd hfd => exact hs.openFile (lowestFree_free hfd) name
    case h_2 => exact hs
  | create proxy refused => exact hs.create limit proxy refused
  | close fd => exact hs.close fd
  | dup fd => exact hs.proxyDup limit fd 0 0 false
  | dup2 fd target => exact hs.proxyDup limit fd target 0 true
  | dup3 fd target flags =>
    simp only [step, Process.dup3]
    split
    · exact hs
    · exact hs.proxyDup limit fd target flags true
  | fcntlDup fd low => exact hs.fcntlDup limit fd low

omit hs in
theorem run_inv (limit : ℕ) (files : ℕ → Option ℕ) (calls : List Call) :
    Inv (run limit (initial files) calls) :=
  List.foldlRecOn calls (step limit) (initial_inv files) fun _ hs call _ => step_inv hs limit call

theorem Inv.refs_eq_zero_iff (p : ℕ) : s.refs p = 0 ↔ ¬s.Aliased p := by
  rw [(hs.counts p).eq_zero_iff]
  simp [Aliased, hs.aliases]

end

/-! ## Calls only add -/

/-- `t` comes after `s`: proxies stay what they are, and remote closes are not taken back. -/
structure Extends (s t : Process) : Prop where
  next_le : s.next ≤ t.next
  proxies : ∀ p < s.next, t.proxies p = s.proxies p
  closes : s.remoteCloses <+: t.remoteCloses

theorem Extends.refl (s : Process) : Extends s s :=
  ⟨Nat.le_refl _, fun _ _ => rfl, List.prefix_rfl⟩

theorem Extends.trans {u : Process} (h : Extends s t) (h' : Extends t u) : Extends s u where
  next_le := h.next_le.trans h'.next_le
  proxies p hp := (h'.proxies p (hp.trans_le h.next_le)).trans (h.proxies p hp)
  closes := h.closes.trans h'.closes

theorem extends_releaseOpt (s : Process) (o : Option ℕ) : Extends s (s.releaseOpt o) := by
  rw [releaseOpt_eq]
  exact ⟨Nat.le_refl _, fun _ _ => rfl, List.prefix_append _ _⟩

theorem extends_emplace (s : Process) (fd p : ℕ) : Extends s (s.emplace fd p) := by
  unfold emplace
  split
  · exact ⟨Nat.le_refl _, fun _ _ => rfl, List.prefix_rfl⟩
  · exact extends_releaseOpt s (some p)

theorem extends_recordDup (s : Process) (fd result : ℕ) : Extends s (s.recordDup fd result) := by
  rw [recordDup_eq, retainOpt_eq, releaseOpt_eq]
  exact ⟨Nat.le_refl _, fun _ _ => rfl, List.prefix_append _ _⟩

theorem extends_proxyDup (limit : ℕ) (s : Process) (fd destination flags : ℕ) (fixed : Bool) :
    Extends s (proxyDup limit s fd destination flags fixed).1 := by
  unfold proxyDup
  split
  · exact .refl s
  · split
    · exact { extends_recordDup (s.setTable _ _) _ _ with }
    · exact .refl s

theorem extends_create (limit : ℕ) (s : Process) (proxy : Proxy) (refused : Bool) :
    Extends s (create limit s proxy refused).1 := by
  have hnew (table refs) : Extends s
      { s with table, refs, proxies := update s.proxies s.next proxy, next := s.next + 1 } :=
    ⟨Nat.le_succ _, fun p hp => update_of_ne hp.ne _ _, List.prefix_rfl⟩
  unfold create
  split
  · exact (hnew _ _).trans (extends_emplace _ _ _)
  · exact (hnew _ _).trans ⟨Nat.le_refl _, fun _ _ => rfl, List.prefix_append _ _⟩

theorem extends_step (limit : ℕ) (s : Process) (call : Call) : Extends s (step limit s call) := by
  cases call with
  | openFile name =>
    simp only [step]
    split
    · exact { Extends.refl s with }
    · exact .refl s
  | create proxy refused => exact extends_create limit s proxy refused
  | close fd =>
    simp only [step, close]
    split
    · exact { extends_releaseOpt ((s.setTable fd none).erase fd) _ with }
    · exact { Extends.refl s with }
  | dup fd => exact extends_proxyDup limit s fd 0 0 false
  | dup2 fd target => exact extends_proxyDup limit s fd target 0 true
  | dup3 fd target flags =>
    simp only [step, dup3]
    split
    · exact .refl s
    · exact extends_proxyDup limit s fd target flags true
  | fcntlDup fd low =>
    simp only [step, fcntlDup]
    split
    · split
      · exact { extends_emplace (retain (s.setTable _ _) _) _ _ with }
      · exact { Extends.refl s with }
    · exact .refl s

theorem Extends.closesOf_prefix (h : Extends s t) (p : ℕ) : s.closesOf p <+: t.closesOf p :=
  (h.closes.filter _).map _

/-! ## The lifetime of a proxy -/

/-- What holds of the descriptors and remote handles of the proxies created so far, and of the
next call. -/
structure Lifetime (limit : ℕ) (s : Process) : Prop where
  recorded : ∀ fd p, s.descriptors fd = some p ↔ s.table fd = some (.memfd p)
  /-- A device that is opened while a number is free gets a descriptor. -/
  opened : ∀ proxy, (∃ fd < limit, s.table fd = none) →
    ∃ fd t, create limit s proxy false = (t, some fd) ∧ t.table fd = some (.memfd s.next) ∧
      t.proxies s.next = proxy
  open_of_aliased : ∀ p < s.next, s.Aliased p → s.closesOf p = []
  closed_once : ∀ p < s.next, ¬s.Aliased p →
    s.closesOf p = [((s.proxies p).route, (s.proxies p).token)]
  closed_with_last_alias : ∀ call, ∀ p < s.next,
    (step limit s call).closesOf p ≠ s.closesOf p ↔
      s.Aliased p ∧ ¬(step limit s call).Aliased p

theorem Inv.closesOf_of_aliased (hs : Inv s) {p : ℕ} (h : s.Aliased p) : s.closesOf p = [] := by
  rw [hs.closes, if_neg fun hp => (hs.refs_eq_zero_iff p).mp hp.2 h]

theorem Inv.closesOf_of_not_aliased (hs : Inv s) {p : ℕ} (hp : p < s.next) (h : ¬s.Aliased p) :
    s.closesOf p = [((s.proxies p).route, (s.proxies p).token)] := by
  rw [hs.closes, if_pos ⟨hp, (hs.refs_eq_zero_iff p).mpr h⟩]

theorem Inv.opened (hs : Inv s) {limit fd : ℕ} (hfd : fd < limit) (hfree : s.table fd = none)
    (proxy : Proxy) : ∃ fd t, Process.create limit s proxy false = (t, some fd) ∧
      t.table fd = some (.memfd s.next) ∧ t.proxies s.next = proxy := by
  obtain ⟨n, hn⟩ := exists_lowestFree hfd hfree
  have hentry := hs.descriptors_eq_none (lowestFree_free hn)
  have hcreate : (Process.create limit s proxy false).2 = some n := by simp [Process.create, hn]
  refine ⟨n, _, Prod.ext rfl hcreate, ?_⟩
  simp [Process.create, hn, emplace, retain, setTable, hentry]

theorem Inv.lifetime (hs : Inv s) (limit : ℕ) : Lifetime limit s where
  recorded := hs.aliases
  opened proxy := fun ⟨_, hfd, hfree⟩ => hs.opened hfd hfree proxy
  open_of_aliased _ _ h := hs.closesOf_of_aliased h
  closed_once _ hp h := hs.closesOf_of_not_aliased hp h
  closed_with_last_alias := by
    intro call p hp
    have ht := step_inv hs limit call
    have hext := extends_step limit s call
    by_cases hbefore : s.Aliased p <;> by_cases hafter : (step limit s call).Aliased p
    · simp [hs.closesOf_of_aliased hbefore, ht.closesOf_of_aliased hafter, hafter]
    · have hclosed := ht.closesOf_of_not_aliased (hp.trans_le hext.next_le) hafter
      simp [hs.closesOf_of_aliased hbefore, hclosed, hbefore, hafter]
    · -- A closed handle would have to be open again.
      have hprefix := hext.closesOf_prefix p
      rw [hs.closesOf_of_not_aliased hp hbefore, ht.closesOf_of_aliased hafter] at hprefix
      simp at hprefix
    · have hclosed := ht.closesOf_of_not_aliased (hp.trans_le hext.next_le) hafter
      rw [hext.proxies p hp] at hclosed
      simp [hs.closesOf_of_not_aliased hp hbefore, hclosed, hbefore]

/-- **Lifetime of a device proxy.** After any calls of a process, the registry records exactly
the open descriptors of each proxy; a device that is opened gets a descriptor if one is free; the
remote handle of a proxy was closed once when the proxy has no descriptor and never when it has one;
and the next call closes the handle exactly when it takes the proxy's last descriptor. -/
theorem proxy_lifetime (limit : ℕ) (files : ℕ → Option ℕ) (calls : List Call) :
    Lifetime limit (run limit (initial files) calls) :=
  (run_inv limit files calls).lifetime limit

/-- The first device that is opened. -/
theorem proxy_lifetime_of_first_open :
    ∃ fd t, create 8 (initial fun _ => none) ⟨0, 11, true⟩ false = (t, some fd) ∧
      t.table fd = some (.memfd 0) ∧ t.proxies 0 = ⟨0, 11, true⟩ :=
  (proxy_lifetime 8 (fun _ => none) []).opened _ ⟨0, by decide, rfl⟩

-- `dup2` of one proxy onto another, and of a proxy onto itself.
example : (run 8 (initial fun _ => none)
    [.create ⟨0, 11, true⟩ false, .create ⟨0, 22, false⟩ false, .dup2 0 1, .dup2 0 0,
      .close 0]).remoteCloses = [⟨1, 0, 22⟩] := by decide

end Process

end Lupine.DeviceProxy
