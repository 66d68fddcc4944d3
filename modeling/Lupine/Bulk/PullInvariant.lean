import Mathlib.Algebra.Order.BigOperators.Group.Finset
import Lupine.Bulk.Pull

/-!
# Invariant of bulk pulls

What each step finds and does is said once (`Transition`), and the invariants are derived from that.
What holds in every run of `Lupine.Bulk.Pull`, whatever fails: the two ends of each connection
agree (`Connected`), the counters of the entry count the handlers that have arrived and finished
until the committing handler ends, and it ends when all handlers have finished or a connection is
lost (`Inv`).
-/

namespace Lupine.Bulk.Pull

open Foundations Function Finset Handler

variable {Lane : Type}

/-! ## Sums over the lanes -/

section Sum

variable [Fintype Lane] [DecidableEq Lane]

/-- A change of one lane changes one summand. -/
theorem sum_update (f : Connection → ℕ) (lanes : Lane → Connection) (i : Lane) (l : Connection) :
    (∑ j, f (update lanes i l j)) + f (lanes i) = (∑ j, f (lanes j)) + f l := by
  have hrest : ∑ j ∈ Finset.univ.erase i, f (update lanes i l j) =
      ∑ j ∈ Finset.univ.erase i, f (lanes j) := by
    refine sum_congr rfl fun j hj => ?_
    rw [update_of_ne (ne_of_mem_erase hj)]
  have hnew := add_sum_erase Finset.univ (fun j => f (update lanes i l j)) (mem_univ i)
  have hold := add_sum_erase Finset.univ (fun j => f (lanes j)) (mem_univ i)
  simp only [update_self] at hnew
  omega

end Sum

/-! ## Steps -/

section Transition

variable [DecidableEq Lane] [Fintype Lane] (chunkBytes : ℕ) (device : List UInt8)

/-- What each action finds, and what it does. -/
inductive Transition (s : Pull Lane) : Action Lane → Pull Lane → Prop
  | start {written : Bool} (hcall : s.call = .unstarted) : Transition s (.start written)
      (if written then { s with call := .pulling, commit := .requested }
        else { s with call := .returned false })
  | request {i : Lane} {written : Bool} (hcall : s.call = .pulling)
      (hpuller : (s.lanes i).puller = .starting) : Transition s (.request i written)
      (if written then s.setLane i { s.lanes i with puller := .receiving, handler := .requested }
        else s.setLane i { s.lanes i with puller := .failed })
  | deliver {i : Lane} (hhandler : (s.lanes i).handler = .requested)
      (hgone : (s.lanes i).gone = false) : Transition s (.deliver i)
      { s.setLane i { s.lanes i with handler := .waiting } with
        read := { s.read with arrived := s.read.arrived + 1 } }
  | wake {i : Lane} (hhandler : (s.lanes i).handler = .waiting)
      (hready : s.read.ready = true ∨ s.connectionLost = true) : Transition s (.wake i)
      (if s.read.ready = true ∧ s.read.success = true then
          s.setLane i { s.lanes i with handler := .setting }
        else s.advance chunkBytes i)
  | setContext {i : Lane} {succeeds : Bool} (hhandler : (s.lanes i).handler = .setting) :
      Transition s (.setContext i succeeds) ((s.note succeeds).advance chunkBytes i)
  | copy {i : Lane} {copied written : Bool} {offset bytes : ℕ}
      (hhandler : (s.lanes i).handler = .copying offset bytes) :
      Transition s (.copy i copied written) (s.setLane i { s.lanes i with
        handler := .locking copied (!copied || written)
        frames := if copied && written then (s.lanes i).frames ++ [frame device offset bytes]
          else (s.lanes i).frames })
  | lock {i : Lane} {copied written : Bool}
      (hhandler : (s.lanes i).handler = .locking copied written) : Transition s (.lock i)
      (if written then (s.note copied).advance chunkBytes i
        else (s.note copied).leave i { s.lanes i with handler := .failed, down := true })
  | close {i : Lane} {written : Bool} (hhandler : (s.lanes i).handler = .closing) :
      Transition s (.close i written) (if written then s.setLane i { s.lanes i with
          handler := .returned, frames := (s.lanes i).frames ++ [⟨0, []⟩] }
        else s.setLane i { s.lanes i with handler := .failed, down := true })
  | drop {i : Lane} (hdown : (s.lanes i).down = false) : Transition s (.drop i)
      (s.setLane i { s.lanes i with down := true })
  | lose {i : Lane} (hdown : (s.lanes i).down = true) (hgone : (s.lanes i).gone = false)
      (hhandler : (s.lanes i).handler.arrived = false ∨ (s.lanes i).handler = .returned ∨
        (s.lanes i).handler = .failed) : Transition s (.lose i)
      { s.setLane i { s.lanes i with gone := true } with connectionLost := true }
  | commit {context : Bool} (hcommit : s.commit = .requested) : Transition s (.commit context)
      { s with
        commit := .waiting
        read := { s.read with ready := true, total := device.length, success := context } }
  | finish (hcommit : s.commit = .waiting) (hfinished : s.read.finished = Fintype.card Lane ∨
      (s.connectionLost = true ∧ s.read.finished = s.read.arrived)) : Transition s .finish
      { s with
        commit := .ended (s.read.success && decide (s.read.total ≤ s.read.next))
        read := .fresh }
  | receive {i : Lane} {f : Frame} {rest : List Frame} (hpuller : (s.lanes i).puller = .receiving)
      (hframes : (s.lanes i).frames = f :: rest) : Transition s (.receive i)
      (if f.data = [] then s.setLane i { s.lanes i with puller := .done, frames := rest }
        else { s.setLane i { s.lanes i with frames := rest } with
          destination := store s.destination f })
  | abort {i : Lane} (hpuller : (s.lanes i).puller = .receiving)
      (hdown : (s.lanes i).down = true) : Transition s (.abort i)
      (s.setLane i { s.lanes i with puller := .failed })
  | join {noted : Bool} (hcall : s.call = .pulling)
      (hpullers : ∀ i, (s.lanes i).puller = .done ∨ (s.lanes i).puller = .failed) :
      Transition s (.join noted)
      { s with call := .responding (decide (∀ i, (s.lanes i).puller = .done) && noted) }
  | respond {received success : Bool} (hcall : s.call = .responding received)
      (hcommit : s.commit = .ended success) : Transition s .respond
      { s with call := .returned (success && received) }

variable {chunkBytes device}

/-- **Inversion of steps.** -/
theorem transition_of_step {s t : Pull Lane} {a : Action Lane}
    (h : s.step chunkBytes device a = some t) : Transition chunkBytes device s a t := by
  cases a <;> simp only [Pull.step] at h <;> split at h <;> cases h
  next hc => exact .start hc
  next hc => exact .request hc.1 hc.2
  next hc => exact .deliver hc.1 hc.2
  next hc => exact .wake hc.1 hc.2
  next hc => exact .setContext hc
  next hh => exact .copy hh
  next hh => exact .lock hh
  next hc => exact .close hc
  next hc => exact .drop hc
  next hc => exact .lose hc.1 hc.2.1 hc.2.2
  next hc => exact .commit hc
  next hc => exact .finish hc.1 hc.2
  next hp hf => exact .receive hp hf
  next hc => exact .abort hc.1 hc.2
  next hc => exact .join hc.1 hc.2
  next hcall hcommit => exact .respond hcall hcommit

end Transition

/-! ## Connections -/

variable {l : Connection} {i : Lane} {old : Handler}

/-- What the response of a reader holds: its last frame is there once the reader has returned,
until the puller has read it. -/
inductive Stream (l : Connection) : Prop
  | running (hhandler : l.handler ≠ .returned) (hpuller : l.puller ≠ .done)
      (hframes : ∀ f ∈ l.frames, f.data ≠ [])
  | ending (before : List Frame) (hhandler : l.handler = .returned) (hpuller : l.puller ≠ .done)
      (hbefore : ∀ f ∈ before, f.data ≠ []) (hframes : l.frames = before ++ [⟨0, []⟩])
  | ended (hhandler : l.handler = .returned) (hpuller : l.puller = .done) (hframes : l.frames = [])

/-- A reader that has not returned has written chunks only. -/
theorem stream_iff (hh : l.handler ≠ .returned) :
    Stream l ↔ l.puller ≠ .done ∧ ∀ f ∈ l.frames, f.data ≠ [] := by
  constructor
  · rintro (⟨-, hp, hf⟩ | ⟨_, hr, -, -, -⟩ | ⟨hr, -, -⟩)
    · exact ⟨hp, hf⟩
    · exact absurd hr hh
    · exact absurd hr hh
  · rintro ⟨hp, hf⟩
    exact .running hh hp hf

/-- What happens at other parts of the connection leaves its response as it is. -/
theorem Stream.congr {l' : Connection} (h : Stream l) (hh : l'.handler = l.handler)
    (hp : l'.puller = .done ↔ l.puller = .done) (hf : l'.frames = l.frames) : Stream l' := by
  rcases h with ⟨h₁, h₂, h₃⟩ | ⟨b, h₁, h₂, h₃, h₄⟩ | ⟨h₁, h₂, h₃⟩
  · exact .running (hh ▸ h₁) (hp.not.mpr h₂) (hf ▸ h₃)
  · exact .ending b (hh.trans h₁) (hp.not.mpr h₂) h₃ (hf.trans h₄)
  · exact .ended (hh.trans h₁) (hp.mpr h₂) (hf.trans h₃)

/-- The two ends of a connection agree. -/
@[mk_iff]
structure Connected (size : ℕ) (lost : Bool) (l : Connection) : Prop where
  stream : Stream l
  failed : l.handler = .failed → l.down = true
  gone : l.gone = true → l.down = true ∧ lost = true
  joined : l.gone = true → l.handler.arrived = false ∨ l.handler.finished = true
  starting : l.puller = .starting → l.handler = .unasked
  unasked : l.handler = .unasked → l.puller = .starting ∨ l.puller = .failed
  copying : ∀ offset bytes, l.handler = .copying offset bytes → 0 < bytes ∧ offset + bytes ≤ size

theorem Handler.arrived_of_finished {h : Handler} (hf : h.finished = true) : h.arrived = true := by
  cases h <;> simp_all [arrived]

/-! ## Invariant -/

section Invariant

variable [Fintype Lane] (device : List UInt8)
variable {s s' : Pull Lane}

/-- The number of lanes with a handler that meets `p`. -/
def count (s : Pull Lane) (p : Handler → Bool) : ℕ := ∑ i, (p (s.lanes i).handler).toNat

/-- The counters of the read count the readers, and the commit ends after them. -/
structure Inv (s : Pull Lane) : Prop where
  lanes : ∀ i, Connected device.length s.connectionLost (s.lanes i)
  ready : s.read.ready = true ↔ s.commit = .waiting
  total : s.read.ready = true → s.read.total = device.length
  counted : (∀ r, s.commit ≠ .ended r) →
    s.read.arrived = s.count Handler.arrived ∧ s.read.finished = s.count Handler.finished
  ended : ∀ r, s.commit = .ended r → s.connectionLost = true ∨
    ∀ i, (s.lanes i).handler.finished = true
  sent : s.call = .pulling ∨ (∃ b, s.call = .responding b) → s.commit ≠ .unsent
  joined : ∀ b, s.call = .responding b → ∀ i, (s.lanes i).puller = .done ∨
    (s.lanes i).puller = .failed
  unstarted : s.call = .unstarted → s.commit = .unsent
  returned : ∀ b, s.call = .returned b → s.commit = .unsent ∨ ∃ r, s.commit = .ended r

variable {device}

attribute [local simp] initial Read.fresh

theorem inv_initial : (initial : Pull Lane).Inv device where
  lanes := fun _ => ⟨.running (by simp) (by simp) (by simp),
    by simp, by simp, by simp, by simp, by simp,
    by simp⟩
  ready := by simp
  total := by simp
  counted := by simp [count, arrived]
  ended := by simp
  sent := by simp
  joined := by simp
  unstarted := by simp
  returned := by simp

/-- All handlers that arrived have finished when the counts agree. -/
theorem finished_of_count_eq (h : s.count Handler.finished = s.count Handler.arrived) (i : Lane)
    (hi : (s.lanes i).handler.arrived = true) : (s.lanes i).handler.finished = true := by
  have hle : ∀ j ∈ Finset.univ, ((s.lanes j).handler.finished).toNat ≤
      ((s.lanes j).handler.arrived).toNat := by
    intro j _
    cases hj : (s.lanes j).handler.finished
    · simp
    · simp [arrived_of_finished hj]
  have heq := (sum_eq_sum_iff_of_le hle).mp h i (mem_univ i)
  cases hj : (s.lanes i).handler.finished <;> simp_all

/-- All handlers have finished when their number is the number of lanes. -/
theorem finished_of_count_eq_card (h : s.count Handler.finished = Fintype.card Lane) (i : Lane) :
    (s.lanes i).handler.finished = true := by
  have hle : ∀ j ∈ Finset.univ, ((s.lanes j).handler.finished).toNat ≤ 1 :=
    fun j _ => Bool.toNat_le _
  have hsum : ∑ j, ((s.lanes j).handler.finished).toNat = ∑ _j : Lane, 1 := by
    rw [sum_const, smul_eq_mul, mul_one]
    exact h
  have heq := (sum_eq_sum_iff_of_le hle).mp hsum i (mem_univ i)
  cases hj : (s.lanes i).handler.finished <;> simp_all

theorem Inv.note (h : s.Inv device) (succeeds : Bool) : (s.note succeeds).Inv device :=
  { h with }

variable [DecidableEq Lane]

theorem count_setLane (s : Pull Lane) (p : Handler → Bool) (i : Lane) (l : Connection) :
    (s.setLane i l).count p + (p (s.lanes i).handler).toNat = s.count p + (p l.handler).toNat :=
  sum_update (fun l => (p l.handler).toNat) s.lanes i l

/-- A step of one lane: it keeps its connection in order and counts itself. -/
theorem Inv.lane (h : s.Inv device) (i : Lane) {read : Read} {destination : ℕ → Option UInt8}
    (hl : Connected device.length s.connectionLost (s.lanes i) →
      Connected device.length s.connectionLost l)
    (hready : read.ready = s.read.ready) (htotal : read.total = s.read.total)
    (harrived : read.arrived + (s.lanes i).handler.arrived.toNat =
      s.read.arrived + l.handler.arrived.toNat)
    (hfinished : read.finished + (s.lanes i).handler.finished.toNat =
      s.read.finished + l.handler.finished.toNat)
    (hkeep : (s.lanes i).handler.finished = true → l.handler.finished = true)
    (hpuller : l.puller = (s.lanes i).puller ∨ l.puller = .done ∨ l.puller = .failed ∨
      s.call = .pulling) :
    Inv device { s.setLane i l with read := read, destination := destination } where
  lanes := (forall_update_iff s.lanes fun _ => Connected device.length s.connectionLost).mpr
    ⟨hl (h.lanes i), fun j _ => h.lanes j⟩
  ready := by
    rw [hready]
    exact h.ready
  total := by
    rw [hready, htotal]
    exact h.total
  counted := by
    intro hcommit
    obtain ⟨ha, hf⟩ := h.counted hcommit
    have ha' := count_setLane s arrived i l
    have hf' := count_setLane s finished i l
    change read.arrived = (s.setLane i l).count arrived ∧
      read.finished = (s.setLane i l).count finished
    constructor <;> omega
  ended := by
    intro r hr
    rcases h.ended r hr with hlost | hall
    · exact .inl hlost
    · exact .inr ((forall_update_iff s.lanes fun _ l => l.handler.finished = true).mpr
        ⟨hkeep (hall i), fun j _ => hall j⟩)
  sent := h.sent
  joined := by
    intro b hb
    refine (forall_update_iff s.lanes fun _ l => l.puller = .done ∨ l.puller = .failed).mpr
      ⟨?_, fun j _ => h.joined b hb j⟩
    rcases hpuller with hp | hp | hp | hp
    · exact hp ▸ h.joined b hb i
    · exact .inl hp
    · exact .inr hp
    · cases hp.symm.trans hb
  unstarted := h.unstarted
  returned := h.returned

/-- A step of one lane that counts nothing. -/
theorem Inv.setLane (h : s.Inv device) (i : Lane) (l : Connection)
    (hl : Connected device.length s.connectionLost (s.lanes i) →
      Connected device.length s.connectionLost l)
    (harrived : l.handler.arrived = (s.lanes i).handler.arrived)
    (hfinished : l.handler.finished = (s.lanes i).handler.finished)
    (hpuller : l.puller = (s.lanes i).puller ∨ l.puller = .done ∨ l.puller = .failed ∨
      s.call = .pulling) : (s.setLane i l).Inv device :=
  h.lane i hl rfl rfl (by rw [harrived]) (by rw [hfinished]) (fun hf => hfinished.trans hf) hpuller

variable {chunkBytes : ℕ} {written : Bool}

attribute [local simp] connected_iff arrived stream_iff note

theorem Inv.advance (h : s.Inv device) (hchunk : 0 < chunkBytes)
    (harrived : (s.lanes i).handler.arrived = true)
    (hfinished : (s.lanes i).handler.finished = false) : (s.advance chunkBytes i).Inv device := by
  have hreturned : (s.lanes i).handler ≠ .returned := fun hh => by simp [hh] at hfinished
  have hunasked : (s.lanes i).handler ≠ .unasked := fun hh => by simp [hh] at harrived
  unfold Pull.advance
  split
  · rename_i hcond
    have htotal := h.total hcond.1
    refine h.lane i (fun hl => ?_) rfl rfl (by rw [harrived]; rfl) (by rw [hfinished]; rfl)
      (by rw [hfinished]; rintro ⟨⟩) (.inl rfl)
    simp_all
    omega
  · refine h.lane i (fun hl => ?_) rfl rfl (by rw [harrived]; rfl) (by rw [hfinished]; rfl)
      (fun _ => rfl) (.inl rfl)
    simp_all

/-- A chunk is not empty, so that it does not end the response. -/
theorem Inv.copy (h : s.Inv device) {offset bytes : ℕ} {copied : Bool}
    (hh : (s.lanes i).handler = .copying offset bytes) :
    (s.setLane i { s.lanes i with
        handler := .locking copied (!copied || written)
        frames := if copied && written then (s.lanes i).frames ++ [frame device offset bytes]
          else (s.lanes i).frames }).Inv device := by
  obtain ⟨hpos, hle⟩ := (h.lanes i).copying offset bytes hh
  have hframe : (frame device offset bytes).data ≠ [] := by
    intro heq
    have := congrArg List.length heq
    simp only [frame, List.length_take, List.length_drop, List.length_nil] at this
    omega
  refine h.setLane i _ (fun hl => ?_) (by simp [hh]) (by simp [hh]) (.inl rfl)
  cases copied <;> cases written <;> simp_all [or_imp, forall_and]

/-- The puller takes a frame, and is done with the empty one. -/
theorem Stream.receive {f : Frame} {rest : List Frame} (h : Stream l) (hf : l.frames = f :: rest) :
    if f.data = [] then Stream { l with puller := .done, frames := rest }
      else Stream { l with frames := rest } := by
  rcases h with ⟨hh, hd, hframes⟩ | ⟨before, hh, hd, hbefore, hframes⟩ | ⟨-, -, hframes⟩
  · rw [if_neg (hframes f (by simp [hf]))]
    exact .running hh hd fun g hg => hframes g (by simp [hf, hg])
  · rw [hf] at hframes
    cases before with
    | nil =>
      obtain ⟨rfl, rfl⟩ : f = ⟨0, []⟩ ∧ rest = [] := by simpa using hframes
      exact .ended hh rfl rfl
    | cons g before =>
      obtain ⟨rfl, rfl⟩ := List.cons.inj hframes
      rw [if_neg (hbefore f (by simp))]
      exact .ending before hh hd (fun g' hg' => hbefore g' (by simp [hg'])) rfl
  · rw [hf] at hframes
    cases hframes

theorem Inv.step (h : s.Inv device) (hchunk : 0 < chunkBytes) {a : Action Lane}
    (hstep : s.step chunkBytes device a = some s') : s'.Inv device := by
  cases transition_of_step hstep with
  | @start written hcall =>
    have hunsent := h.unstarted hcall
    have hready : s.read.ready ≠ true := by simp [h.ready, hunsent]
    have hcounted := h.counted (by simp [hunsent])
    cases written
    · exact { h with
        sent := by simp
        joined := by simp
        unstarted := by simp
        returned := fun _ _ => .inl hunsent }
    · exact ⟨h.lanes, by simp [hready], h.total, fun _ => hcounted, by simp, by simp, by simp,
        by simp, by simp⟩
  | @request i written hcall hp =>
    have hh := (h.lanes i).starting hp
    cases written
    · exact h.setLane i _ (fun hl => by simp_all) rfl rfl (.inr (.inr (.inl rfl)))
    · exact h.setLane i _ (fun hl => by simp_all) (by simp [hh]) (by simp [hh])
        (.inr (.inr (.inr hcall)))
  | @deliver i hh hgone =>
    exact h.lane i (fun hl => by simp_all) rfl rfl (by simp [hh]) (by simp [hh]) (by simp [hh])
      (.inl rfl)
  | @wake i hh =>
    split
    · exact h.setLane i _ (fun hl => by simp_all) (by simp [hh]) (by simp [hh]) (.inl rfl)
    · exact h.advance hchunk (by simp [hh]) (by simp [hh])
  | @setContext i succeeds hh =>
    exact (h.note succeeds).advance hchunk (by simp [hh]) (by simp [hh])
  | copy hh => exact h.copy hh
  | @lock i copied written hh =>
    split
    · exact (h.note copied).advance hchunk (by simp [hh]) (by simp [hh])
    · exact (h.note copied).lane i (fun hl => by simp_all) rfl rfl (by simp [hh]) (by simp [hh])
        (by simp) (.inl rfl)
  | @close i written hh =>
    cases written
    · exact h.setLane i _ (fun hl => by simp_all) (by simp [hh]) (by simp [hh]) (.inl rfl)
    · refine h.setLane i _ (fun hl => ?_) (by simp [hh]) (by simp [hh]) (.inl rfl)
      obtain ⟨hp, hf⟩ := (stream_iff (by simp [hh])).mp hl.stream
      have hstream : Stream { s.lanes i with
          handler := .returned, frames := (s.lanes i).frames ++ [⟨0, []⟩] } :=
        .ending _ rfl hp hf rfl
      simp_all
  | @drop i =>
    refine h.setLane i _ (fun hl => ?_) rfl rfl (.inl rfl)
    exact { hl with
      stream := hl.stream.congr rfl .rfl rfl
      failed := fun _ => rfl
      gone := fun hg => ⟨rfl, (hl.gone hg).2⟩ }
  | @lose i hdown _ hh =>
    have hlost : Inv device { s with connectionLost := true } :=
      { h with
        lanes := fun j => { h.lanes j with gone := fun hg => ⟨((h.lanes j).gone hg).1, rfl⟩ }
        ended := fun _ _ => .inl rfl }
    refine hlost.setLane i _ (fun hl => ?_) rfl rfl (.inl rfl)
    refine { hl with
      stream := hl.stream.congr rfl .rfl rfl
      gone := fun _ => ⟨hdown, rfl⟩
      joined := fun _ => hh.imp_right fun hh => ?_ }
    rcases hh with hh | hh <;> simp [hh]
  | @commit context hcommit =>
    have hreturned := h.returned
    simp only [hcommit, reduceCtorEq, exists_false, or_false] at hreturned
    exact ⟨h.lanes, by simp, fun _ => rfl, fun _ => h.counted (by simp [hcommit]), by simp, by simp,
      h.joined, fun hu => by simp [h.unstarted hu] at hcommit, fun b hb => (hreturned b hb).elim⟩
  | finish hcommit hc =>
    refine ⟨h.lanes, by simp, by simp, fun hne => absurd rfl (hne _), fun r _ => ?_, by simp,
      h.joined, fun hu => by simp [h.unstarted hu] at hcommit, fun _ _ => .inr ⟨_, rfl⟩⟩
    rcases hc with hc | hc
    · refine .inr (finished_of_count_eq_card ?_)
      rw [← hc]
      exact (h.counted (by simp [hcommit])).2.symm
    · exact .inl hc.1
  | @receive i f rest hp hf =>
    have hstream := (h.lanes i).stream.receive hf
    split_ifs with hdata
    · rw [if_pos hdata] at hstream
      refine h.setLane i _ (fun hl => ?_) rfl rfl (.inr (.inl rfl))
      exact { hl with
        stream := hstream
        starting := by simp
        unasked := fun hh => by simpa [hp] using hl.unasked hh }
    · rw [if_neg hdata] at hstream
      exact h.lane i (l := { s.lanes i with frames := rest })
        (fun hl => { hl with stream := hstream }) rfl rfl rfl rfl id (.inl rfl)
  | @abort i hp _ =>
    refine h.setLane i _ (fun hl => ?_) rfl rfl (.inr (.inr (.inl rfl)))
    exact { hl with
      stream := hl.stream.congr rfl (by simp [hp]) rfl
      starting := by simp
      unasked := fun _ => .inr rfl }
  | join hcall hp =>
    exact { h with
      sent := fun _ => h.sent (.inl hcall)
      joined := fun _ _ => hp
      unstarted := by simp
      returned := by simp }
  | respond _ hcommit =>
    exact { h with
      sent := by simp
      joined := by simp
      unstarted := by simp
      returned := fun _ _ => .inr ⟨_, hcommit⟩ }

end Invariant

end Lupine.Bulk.Pull
