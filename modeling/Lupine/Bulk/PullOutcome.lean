import Lupine.Bulk.PullInvariant

/-!
# Outcome of bulk pulls

What a caller of `lupine_bulk_pull` can rely on, for every number of lanes and every pattern of
failures.

* A call that returns success has written every byte of the device's memory to the destination
  (`Exact`). A chunk that a reader claims is owed by that reader: it is delivered, or the copy or
  the response fails.
* Every run is finite (`measure_lt`), and it can go on until the call and the committing handler
  have returned (`exists_step`), provided that the request to a reader fails only on a connection
  that is down (`Asked`). Otherwise the committing handler waits for a reader that was announced and
  never asked (`unasked_reader_is_awaited`).
-/

namespace Lupine.Bulk.Pull

open Foundations Function Pull Connection List

variable {Lane : Type} {device : List UInt8}

/-! ## Exactness -/

variable {s s' : Pull Lane} {l : Connection} {i : Lane}

/-- The frame holds the byte at this place. -/
def Frame.Covers (f : Frame) (p : ℕ) : Prop := f.offset ≤ p ∧ p < f.offset + f.data.length

/-- The frame holds bytes of the device. -/
def Frame.OfDevice (device : List UInt8) (f : Frame) : Prop :=
  ∀ p, f.Covers p → f.data[p - f.offset]? = device[p]?

/-- The byte is on its way on this connection, or its response fails. -/
def Connection.Delivers (l : Connection) (p : ℕ) : Prop :=
  (∃ f ∈ l.frames, f.Covers p) ∨ l.handler = .failed

/-- The reader of this connection is at work on the byte. -/
@[mk_iff]
inductive Connection.WorksOn (l : Connection) (p : ℕ) : Prop
  | copying (offset bytes : ℕ) (hhandler : l.handler = .copying offset bytes)
      (hle : offset ≤ p) (hlt : p < offset + bytes)
  | locking (copied written : Bool) (hhandler : l.handler = .locking copied written)
      (hfails : (copied && written) = false)

/-- The byte has arrived, or a connection delivers it. -/
def Delivered (device : List UInt8) (s : Pull Lane) (p : ℕ) : Prop :=
  s.destination p = device[p]? ∨ ∃ i, (s.lanes i).Delivers p

/-- The account of a byte that was claimed. -/
def Owed (device : List UInt8) (s : Pull Lane) (p : ℕ) : Prop :=
  s.Delivered device p ∨ s.read.success = false ∨ ∃ i, (s.lanes i).WorksOn p

/-- What the frames, the destination and the counter say about the bytes. -/
structure Exact (device : List UInt8) (s : Pull Lane) : Prop where
  frames : ∀ i, ∀ f ∈ (s.lanes i).frames, f.OfDevice device
  destination : ∀ p, s.destination p = none ∨ s.destination p = device[p]?
  unclaimed : s.read.ready = false → s.read.next = 0
  owed : (∀ r, s.commit ≠ .ended r) → ∀ p < s.read.next, s.Owed device p
  ended : s.commit = .ended true → ∀ p < device.length, s.Delivered device p
  received : s.call = .responding true → ∀ i, (s.lanes i).puller = .done
  returned : s.call = .returned true → ∀ p < device.length, s.destination p = device[p]?

attribute [local simp] initial Read.fresh

theorem exact_initial : (initial : Pull Lane).Exact device where
  frames := by simp
  destination := by simp
  unclaimed := by simp
  owed := by simp
  ended := by simp
  received := by simp
  returned := by simp

theorem frame_ofDevice (device : List UInt8) (offset bytes : ℕ) :
    (frame device offset bytes).OfDevice device := by
  rintro p ⟨hle, hlt⟩
  simp only [frame] at hle hlt ⊢
  have hlt' : p - offset < bytes := by
    rw [length_take] at hlt
    omega
  rw [List.getElem?_take_of_lt hlt', List.getElem?_drop, Nat.add_sub_cancel' hle]

theorem frame_covers {offset bytes p : ℕ} (hsize : offset + bytes ≤ device.length)
    (hle : offset ≤ p) (hlt : p < offset + bytes) : (frame device offset bytes).Covers p := by
  refine ⟨hle, ?_⟩
  simp only [frame, length_take, length_drop]
  omega

theorem Exact.note (h : s.Exact device) (succeeds : Bool) : (s.note succeeds).Exact device := by
  refine { h with owed := fun hc p hp => ?_ }
  rcases h.owed hc p hp with hd | hs | hw
  · exact .inl hd
  · refine .inr (.inl ?_)
    change (s.read.success && succeeds) = false
    simp [hs]
  · exact .inr (.inr hw)

/-- The committing handler reports success when every byte was claimed and no reader is at work
any more. -/
theorem Exact.finish [Fintype Lane] (h : s.Exact device) (hinv : s.Inv device)
    (hs : s.commit = .waiting) (hc : s.read.finished = Fintype.card Lane ∨
      (s.connectionLost = true ∧ s.read.finished = s.read.arrived)) :
    Exact device { s with
      commit := .ended (s.read.success && decide (s.read.total ≤ s.read.next))
      read := .fresh } := by
  obtain ⟨ha, hf⟩ := hinv.counted (by simp [hs])
  have hidle : ∀ i, (s.lanes i).handler.arrived = false ∨ (s.lanes i).handler.finished = true := by
    intro i
    rcases hc with hc | hc
    · exact .inr (finished_of_count_eq_card (hf.symm.trans hc) i)
    · cases hi : (s.lanes i).handler.arrived
      · exact .inl rfl
      · exact .inr (finished_of_count_eq (hf.symm.trans (hc.2.trans ha)) i hi)
  refine { h with unclaimed := fun _ => rfl, owed := fun hne => absurd rfl (hne _), ended := ?_ }
  intro hr p hp
  have hr' : (s.read.success && decide (s.read.total ≤ s.read.next)) = true := Commit.ended.inj hr
  obtain ⟨hsuccess, hall⟩ : s.read.success = true ∧ s.read.total ≤ s.read.next := by
    simpa using hr'
  have htotal := hinv.total (hinv.ready.mpr hs)
  rcases h.owed (by simp [hs]) p (by omega) with hd | hfail | ⟨i, hi⟩
  · exact hd
  · cases hsuccess.symm.trans hfail
  · -- a reader at work has arrived, and has not finished
    rcases hi with ⟨_, _, hh, -, -⟩ | ⟨_, _, hh, -⟩ <;> simpa [hh, Handler.arrived] using hidle i

/-- The call returns success when every response was read to its end. -/
theorem Exact.respond [Fintype Lane] (h : s.Exact device) (hinv : s.Inv device)
    {received success : Bool} (hcall : s.call = .responding received)
    (hs : s.commit = .ended success) :
    Exact device { s with call := .returned (success && received) } := by
  refine { h with received := by simp, returned := ?_ }
  intro hr p hp
  obtain ⟨rfl, rfl⟩ : success = true ∧ received = true := by
    have := Call.returned.inj hr
    simpa using this
  rcases h.ended hs p hp with hd | ⟨i, hi⟩
  · exact hd
  · -- a puller that is done has read its last frame, and its reader has not failed
    have hdone := h.received hcall i
    rcases (hinv.lanes i).stream with ⟨-, hn, -⟩ | ⟨_, -, hn, -, -⟩ | ⟨hh, -, hframes⟩
    · exact absurd hdone hn
    · exact absurd hdone hn
    · rcases hi with ⟨f, hf, -⟩ | hfail
      · rw [hframes] at hf
        cases hf
      · cases hh.symm.trans hfail

section Lanes

variable [DecidableEq Lane]

/-- A lane goes on: it loses no byte that it works on, unless it reports a failure, and claims only
bytes to work on. -/
structure GoesOn (s : Pull Lane) (i : Lane) (l : Connection) (read : Read) : Prop where
  works : ∀ p, (s.lanes i).WorksOn p → l.Delivers p ∨ read.success = false ∨ l.WorksOn p
  ready : read.ready = s.read.ready
  next : read.next = s.read.next ∨
    s.read.ready = true ∧ ∀ p, s.read.next ≤ p → p < read.next → l.WorksOn p
  success : s.read.success = false → read.success = false
  puller : (s.lanes i).puller = .done → l.puller = .done

/-- A step of one lane: it keeps the account of its bytes. -/
theorem Exact.lane (h : s.Exact device) (read : Read) (destination : ℕ → Option UInt8)
    (hon : s.GoesOn i l read) (hframes : ∀ f ∈ l.frames, f.OfDevice device)
    (hdestination : ∀ p, destination p = s.destination p ∨ destination p = device[p]?)
    (hdelivers : ∀ p, (s.lanes i).Delivers p → destination p = device[p]? ∨ l.Delivers p) :
    Exact device { s.setLane i l with read := read, destination := destination } := by
  obtain ⟨hworks, hready, hnext, hsuccess, hpuller⟩ := hon
  have hself : (s.setLane i l).lanes i = l := update_self ..
  have hother : ∀ j, j ≠ i → (s.setLane i l).lanes j = s.lanes j :=
    fun j hj => update_of_ne hj ..
  have hkept : ∀ p, s.destination p = device[p]? → destination p = device[p]? := by
    intro p hp
    rcases hdestination p with hd | hd
    · exact hd.trans hp
    · exact hd
  have hdelivered : ∀ p, s.Delivered device p →
      Delivered device { s.setLane i l with read := read, destination := destination } p := by
    rintro p (hp | ⟨j, hj⟩)
    · exact .inl (hkept p hp)
    · rcases eq_or_ne j i with rfl | hne
      · rcases hdelivers p hj with hd | hd
        · exact .inl hd
        · exact .inr ⟨j, by rwa [hself]⟩
      · exact .inr ⟨j, by rwa [hother j hne]⟩
  constructor
  case frames =>
    exact (forall_update_iff s.lanes fun _ l => ∀ f ∈ l.frames, f.OfDevice device).mpr
      ⟨hframes, fun j _ => h.frames j⟩
  case destination =>
    intro p
    rcases hdestination p with hd | hd
    · rcases h.destination p with hp | hp
      · exact .inl (hd.trans hp)
      · exact .inr (hd.trans hp)
    · exact .inr hd
  case unclaimed =>
    intro hr
    rw [hready] at hr
    rcases hnext with hn | ⟨hn, -⟩
    · exact hn.trans (h.unclaimed hr)
    · rw [hr] at hn
      cases hn
  case owed =>
    intro hcommit p hp
    rcases lt_or_ge p s.read.next with hlt | hge
    · rcases h.owed hcommit p hlt with hd | hs | ⟨j, hj⟩
      · exact .inl (hdelivered p hd)
      · exact .inr (.inl (hsuccess hs))
      · rcases eq_or_ne j i with rfl | hne
        · rcases hworks p hj with hd | hs | hw
          · exact .inl (.inr ⟨j, by rwa [hself]⟩)
          · exact .inr (.inl hs)
          · exact .inr (.inr ⟨j, by rwa [hself]⟩)
        · exact .inr (.inr ⟨j, by rwa [hother j hne]⟩)
    · rcases hnext with hn | ⟨-, hn⟩
      · exact absurd (hn ▸ hp) (not_lt.mpr hge)
      · exact .inr (.inr ⟨i, by rw [hself]; exact hn p hge hp⟩)
  case ended => exact fun hr p hp => hdelivered p (h.ended hr p hp)
  case received =>
    intro hr
    exact (forall_update_iff s.lanes fun _ l => l.puller = .done).mpr
      ⟨hpuller (h.received hr i), fun j _ => h.received hr j⟩
  case returned => exact fun hr p hp => hkept p (h.returned hr p hp)

/-- A step of one lane that neither writes nor reads a frame. -/
theorem Exact.move (h : s.Exact device) {read : Read} (hon : s.GoesOn i l read)
    (hframes : l.frames = (s.lanes i).frames)
    (hfailed : (s.lanes i).handler = .failed → l.handler = .failed) :
    Exact device { s.setLane i l with read := read } := by
  refine h.lane read s.destination hon (hframes ▸ h.frames i) (fun _ => .inl rfl) ?_
  rintro p (⟨f, hf, hp⟩ | hh)
  · exact .inr (.inl ⟨f, hframes ▸ hf, hp⟩)
  · exact .inr (.inr (hfailed hh))

attribute [local simp] worksOn_iff Delivers note

/-- A step of a lane whose reader works on nothing. -/
theorem Exact.setLane (h : s.Exact device) (i : Lane) (l : Connection)
    (hframes : l.frames = (s.lanes i).frames)
    (hfailed : (s.lanes i).handler = .failed → l.handler = .failed)
    (hidle : l.handler = (s.lanes i).handler ∨ ∀ p, ¬(s.lanes i).WorksOn p)
    (hpuller : (s.lanes i).puller = .done → l.puller = .done) : (s.setLane i l).Exact device := by
  refine h.move ⟨fun p hp => ?_, rfl, .inl rfl, id, hpuller⟩ hframes hfailed
  rcases hidle with hh | hh
  · simp_all
  · exact absurd hp (hh p)

theorem Exact.advance (h : s.Exact device) {chunkBytes : ℕ}
    (hfailed : (s.lanes i).handler ≠ .failed)
    (hworks : ∀ p, (s.lanes i).WorksOn p → s.read.success = false) :
    (s.advance chunkBytes i).Exact device := by
  unfold Pull.advance
  split
  · rename_i hcond
    exact h.move ⟨fun p hp => .inr (.inl (hworks p hp)), rfl,
      .inr ⟨hcond.1, fun p hge hlt => .copying _ _ rfl hge hlt⟩, id, id⟩ rfl
      fun hh => absurd hh hfailed
  · exact h.move ⟨fun p hp => .inr (.inl (hworks p hp)), rfl, .inl rfl, id, id⟩ rfl
      fun hh => absurd hh hfailed

variable {written : Bool} (h : s.Exact device)

include h

/-- The chunk is written, or one of the two failed. -/
theorem Exact.copy {offset bytes : ℕ} {copied : Bool}
    (hh : (s.lanes i).handler = .copying offset bytes) (hsize : offset + bytes ≤ device.length) :
    (s.setLane i { s.lanes i with
        handler := .locking copied (!copied || written)
        frames := if copied && written then (s.lanes i).frames ++ [frame device offset bytes]
          else (s.lanes i).frames }).Exact device := by
  have hcovers : ∀ p, offset ≤ p → p < offset + bytes → (frame device offset bytes).Covers p :=
    fun p => frame_covers hsize
  refine h.lane s.read s.destination ⟨?_, rfl, .inl rfl, id, id⟩ ?_ (fun _ => .inl rfl) ?_
  · cases copied <;> cases written <;> simp_all
  · have hframes := h.frames i
    have := frame_ofDevice device offset bytes
    cases copied <;> cases written <;> simp_all [or_imp]
  · cases copied <;> cases written <;> simp_all

/-- The last frame holds no byte. -/
theorem Exact.close (hh : (s.lanes i).handler = .closing) :
    (s.setLane i { s.lanes i with
      handler := .returned, frames := (s.lanes i).frames ++ [⟨0, []⟩] }).Exact device := by
  have hempty : ∀ p, ¬(⟨0, []⟩ : Frame).Covers p := fun p hp => by simpa using hp.2
  refine h.lane s.read s.destination ⟨by simp [hh], rfl, .inl rfl, id, id⟩ ?_ (fun _ => .inl rfl) ?_
  · have hframes := h.frames i
    simp_all [or_imp, Frame.OfDevice]
  · simp_all

theorem Exact.receive {f : Frame} {rest : List Frame} (hp : (s.lanes i).puller = .receiving)
    (hf : (s.lanes i).frames = f :: rest) :
    (if f.data = [] then s.setLane i { s.lanes i with puller := .done, frames := rest }
      else { s.setLane i { s.lanes i with frames := rest } with
        destination := store s.destination f }).Exact device := by
  have hframes := h.frames i
  have hstore : ∀ p, f.Covers p → store s.destination f p = device[p]? :=
    fun p hcov => (if_pos hcov).trans (h.frames i f (by simp [hf]) p hcov)
  split_ifs with hdata
  · have hempty : ∀ p, ¬f.Covers p := fun p hp => by
      have := hp.2
      rw [hdata] at this
      exact absurd hp.1 (not_le.mpr this)
    exact h.lane s.read s.destination ⟨by simp_all, rfl, .inl rfl, id, fun _ => rfl⟩
      (by simp_all) (fun _ => .inl rfl) (by simp_all)
  · refine h.lane (l := { s.lanes i with frames := rest }) s.read (store s.destination f)
      ⟨by simp_all, rfl, .inl rfl, id, by simp [hp]⟩ ?_ ?_ ?_
    · simp_all
    · intro p
      rcases Classical.em (f.Covers p) with hcov | hcov
      · exact .inr (hstore p hcov)
      · exact .inl (if_neg hcov)
    · rintro p (⟨g, hg, hcov⟩ | hfail)
      · rw [hf] at hg
        rcases mem_cons.mp hg with rfl | hg
        · exact .inl (hstore p hcov)
        · exact .inr (.inl ⟨g, hg, hcov⟩)
      · exact .inr (.inr hfail)

variable [Fintype Lane] {chunkBytes : ℕ}

theorem Exact.step (hinv : s.Inv device) {a : Action Lane}
    (hstep : s.step chunkBytes device a = some s') : s'.Exact device := by
  cases transition_of_step hstep with
  | @start written hcall =>
    have hunsent := hinv.unstarted hcall
    cases written
    · exact { h with received := by simp, returned := by simp }
    · exact { h with
        owed := fun _ => h.owed (by simp [hunsent])
        ended := by simp
        received := by simp
        returned := by simp }
  | @request i written _ hp =>
    have hh := (hinv.lanes i).starting hp
    cases written <;> exact h.setLane i _ rfl (by simp [hh]) (by simp [hh]) (by simp [hp])
  | @deliver i hh =>
    exact h.move ⟨by simp [hh], rfl, .inl rfl, id, id⟩ rfl (by simp [hh])
  | @wake i hh =>
    split
    · exact h.setLane i _ rfl (by simp [hh]) (by simp [hh]) id
    · exact h.advance (by simp [hh]) (by simp [hh])
  | @setContext i succeeds hh =>
    exact (h.note succeeds).advance (by simp [hh]) (by simp [hh])
  | @copy i _ _ offset bytes hh => exact h.copy hh ((hinv.lanes i).copying offset bytes hh).2
  | @lock i copied written hh =>
    cases written
    · exact (h.note copied).move ⟨by simp, rfl, .inl rfl, id, id⟩ rfl fun _ => rfl
    · exact (h.note copied).advance (by simp [hh]) (by simp_all)
  | @close i written hh =>
    cases written
    · exact h.setLane i _ rfl (fun _ => rfl) (by simp [hh]) id
    · exact h.close hh
  | @drop i => exact h.setLane i _ rfl id (.inl rfl) id
  | @lose i =>
    have hs := h.setLane i { s.lanes i with gone := true } rfl id (.inl rfl) id
    exact { hs with }
  | commit hcommit =>
    have hready : s.read.ready = false := by
      rw [← Bool.not_eq_true, hinv.ready, hcommit]
      simp
    have hnext := h.unclaimed hready
    exact { h with unclaimed := by simp, owed := by simp [hnext], ended := by simp }
  | finish hs hc => exact h.finish hinv hs hc
  | receive hp hf => exact h.receive hp hf
  | @abort i hp => exact h.setLane i _ rfl id (.inl rfl) (by simp [hp])
  | join => exact { h with received := by simp +contextual, returned := by simp }
  | respond hcall hs => exact h.respond hinv hcall hs

end Lanes

/-! ## Every run is finite -/

section Measure

variable [Fintype Lane]

def Puller.rank : Puller → ℕ
  | .starting => 8
  | .receiving => 1
  | .done | .failed => 0

def Handler.rank : Handler → ℕ
  | .requested => 6
  | .waiting => 5
  | .setting => 4
  | .copying _ _ => 5
  | .locking _ _ => 3
  | .closing => 2
  | .unasked | .returned | .failed => 0

/-- The steps that a connection has before it, apart from chunks that it may claim. -/
@[simp] def Connection.rank (l : Connection) : ℕ :=
  l.puller.rank + l.handler.rank + l.frames.length + (!l.down).toNat + (!l.gone).toNat

def Call.rank : Call → ℕ
  | .unstarted => 5
  | .pulling => 2
  | .responding _ => 1
  | .returned _ => 0

def Commit.rank : Commit → ℕ
  | .requested => 2
  | .waiting => 1
  | .unsent | .ended _ => 0

def remaining (device : List UInt8) (s : Pull Lane) : ℕ :=
  match s.commit with
  | .ended _ => 0
  | _ => device.length - s.read.next

/-- It falls with every step of the system. -/
def measure (device : List UInt8) (s : Pull Lane) : ℕ :=
  (∑ i, (s.lanes i).rank) + 3 * s.remaining device + s.call.rank + s.commit.rank

attribute [local simp] remaining measure Call.rank Puller.rank Commit.rank

theorem measure_initial : (initial : Pull Lane).measure device =
    10 * Fintype.card Lane + 3 * device.length + 5 := by
  simp [Handler.rank, mul_comm]

theorem Connection.rank_handler (l : Connection) (handler : Handler) :
    Connection.rank { l with handler := handler } + l.handler.rank = l.rank + handler.rank := by
  simp only [rank]
  omega

theorem Connection.rank_handler_lt {handler : Handler} (h : handler.rank < l.handler.rank) :
    Connection.rank { l with handler := handler } < l.rank := by
  have := l.rank_handler handler
  omega

variable [DecidableEq Lane] {chunkBytes : ℕ}

theorem sum_rank_setLane (s : Pull Lane) (i : Lane) (l : Connection) :
    (∑ j, ((s.setLane i l).lanes j).rank) + (s.lanes i).rank = (∑ j, (s.lanes j).rank) + l.rank :=
  sum_update rank s.lanes i l

/-- A step of one lane that claims nothing. -/
theorem measure_lane (hlanes : s'.lanes = (s.setLane i l).lanes) (hcall : s'.call = s.call)
    (hcommit : s'.commit = s.commit) (hnext : s'.read.next = s.read.next)
    (hl : l.rank < (s.lanes i).rank) : s'.measure device < s.measure device := by
  have hsum := sum_rank_setLane s i l
  unfold measure remaining
  rw [hlanes, hcall, hcommit, hnext]
  omega

theorem measure_advance (hinv : s.Inv device) (hchunk : 0 < chunkBytes)
    (hrank : 3 ≤ (s.lanes i).handler.rank) :
    (s.advance chunkBytes i).measure device < s.measure device := by
  unfold advance
  split
  · rename_i hcond
    have htotal := hinv.total hcond.1
    have hwaiting := hinv.ready.mp hcond.1
    have hsum := sum_rank_setLane s i { s.lanes i with
      handler := .copying s.read.next (min chunkBytes (s.read.total - s.read.next)) }
    have hlane := (s.lanes i).rank_handler
      (.copying s.read.next (min chunkBytes (s.read.total - s.read.next)))
    have hcopying : (Handler.copying s.read.next
      (min chunkBytes (s.read.total - s.read.next))).rank = 5 := rfl
    simp only [measure, remaining, claim, hwaiting, setLane] at hsum ⊢
    omega
  · exact measure_lane rfl rfl rfl rfl (rank_handler_lt (Nat.lt_of_lt_of_le (by decide) hrank))

theorem measure_lt (h : s.Inv device) (hchunk : 0 < chunkBytes) {a : Action Lane}
    (hstep : s.step chunkBytes device a = some s') : s'.measure device < s.measure device := by
  cases transition_of_step hstep with
  | @start written hs =>
    cases written <;> simp [hs, h.unstarted hs]
  | @request i written _ hp =>
    have hh := (h.lanes i).starting hp
    cases written
    · refine measure_lane rfl rfl rfl rfl ?_
      simp [hp]
    · refine measure_lane rfl rfl rfl rfl ?_
      simp only [rank, Puller.rank, hp, hh, Handler.rank]
      omega
  | @deliver i hh =>
    exact measure_lane rfl rfl rfl rfl (rank_handler_lt (by rw [hh]; decide))
  | @wake i hh =>
    split
    · exact measure_lane rfl rfl rfl rfl (rank_handler_lt (by rw [hh]; decide))
    · exact measure_advance h hchunk (by rw [hh]; decide)
  | @setContext i succeeds hh =>
    refine measure_advance (s := s.note succeeds) (h.note succeeds) hchunk ?_
    change 3 ≤ (s.lanes i).handler.rank
    rw [hh]
    decide
  | @copy i _ _ offset bytes hh =>
    refine measure_lane rfl rfl rfl rfl ?_
    simp only [rank, hh, Handler.rank]
    split
    · rw [length_append, length_singleton]
      omega
    · omega
  | @lock i copied written hh =>
    have hrank : 3 ≤ (s.lanes i).handler.rank := by
      rw [hh]
      exact le_rfl
    split
    · exact measure_advance (s := s.note copied) (h.note copied) hchunk hrank
    · refine measure_lane (s := s.note copied) (i := i) rfl rfl rfl rfl ?_
      change rank _ < (s.lanes i).rank
      simp only [rank, hh, Handler.rank, Bool.not_true, Bool.toNat_false]
      omega
  | @close i written hh =>
    cases written
    · refine measure_lane rfl rfl rfl rfl ?_
      simp only [rank, hh, Handler.rank, Bool.not_true, Bool.toNat_false]
      omega
    · refine measure_lane rfl rfl rfl rfl ?_
      simp only [rank, hh, Handler.rank, length_append, length_singleton]
      omega
  | @drop i hd =>
    refine measure_lane rfl rfl rfl rfl ?_
    simp [hd]
  | @lose i _ hgone =>
    refine measure_lane rfl rfl rfl rfl ?_
    simp [hgone]
  | commit hs => simp [hs]
  | finish hs =>
    simp only [measure, remaining, hs, Commit.rank]
    omega
  | @receive i f rest hp hf =>
    split
    · refine measure_lane rfl rfl rfl rfl ?_
      simp only [rank, hp, hf, Puller.rank, length_cons]
      omega
    · refine measure_lane rfl rfl rfl rfl ?_
      simp only [rank, hf, length_cons]
      omega
  | @abort i hp =>
    refine measure_lane rfl rfl rfl rfl ?_
    simp [hp]
  | join hcall => simp [hcall]
  | respond hcall hcommit => simp [hcall, hcommit]

end Measure

/-! ## Every run goes on -/

section Progress

/-- A request to a reader fails only on a connection that is down. -/
def Asked (s : Pull Lane) : Action Lane → Prop
  | .request i false => (s.lanes i).down = true
  | _ => True

instance (s : Pull Lane) : (a : Action Lane) → Decidable (s.Asked a)
  | .request i false => inferInstanceAs (Decidable ((s.lanes i).down = true))
  | .request _ true | .start _ | .deliver _ | .wake _ | .setContext .. | .copy .. | .lock _
  | .close .. | .drop _ | .lose _ | .commit _ | .finish | .receive _ | .abort _ | .join _
  | .respond => isTrue trivial

/-- A reader that is not asked is one of a connection that is down. -/
def AllAsked (s : Pull Lane) : Prop :=
  ∀ i, (s.lanes i).puller = .failed → (s.lanes i).handler = .unasked → (s.lanes i).down = true

/-- An action of one of the threads, not a failure of a connection. -/
def Action.isThread : Action Lane → Bool
  | .drop _ => false
  | _ => true

variable [DecidableEq Lane]

theorem AllAsked.lane (h : s.AllAsked) (hlanes : s'.lanes = (s.setLane i l).lanes)
    (hl : l.puller = .failed → l.handler = .unasked → l.down = true) : s'.AllAsked := by
  rw [AllAsked, hlanes]
  exact (forall_update_iff s.lanes fun _ l => l.puller = .failed → l.handler = .unasked →
    l.down = true).mpr ⟨hl, fun j _ => h j⟩

theorem AllAsked.advance (h : s.AllAsked) {chunkBytes : ℕ} (i : Lane) :
    (s.advance chunkBytes i).AllAsked := by
  unfold Pull.advance
  split
  · exact h.lane rfl (by simp)
  · exact h.lane rfl (by simp)

variable [Fintype Lane] {chunkBytes : ℕ}

theorem AllAsked.step (h : s.AllAsked) {a : Action Lane} (hC : s.Asked a)
    (hstep : s.step chunkBytes device a = some s') : s'.AllAsked := by
  cases transition_of_step hstep with
  | @start written => cases written <;> exact h
  | @request i written =>
    cases written
    · exact h.lane rfl fun _ _ => hC
    · exact h.lane rfl (by simp)
  | @deliver i => exact h.lane rfl (by simp)
  | @wake i =>
    split
    · exact h.lane rfl (by simp)
    · exact h.advance i
  | @setContext i succeeds => exact AllAsked.advance (s := s.note succeeds) h i
  | @copy i => exact h.lane rfl (by simp)
  | @lock i copied =>
    split
    · exact AllAsked.advance (s := s.note copied) h i
    · exact AllAsked.lane (s := s.note copied) h (i := i) rfl (by simp)
  | @close i written =>
    cases written
    · exact h.lane rfl (by simp)
    · exact h.lane rfl (by simp)
  | @drop i => exact h.lane rfl fun _ _ => rfl
  | @lose i => exact h.lane rfl (h i)
  | commit | finish | join | respond => exact h
  | @receive i f rest =>
    split
    · exact h.lane rfl (by simp)
    · exact h.lane rfl (h i)
  | @abort i _ hdown =>
    exact h.lane rfl fun _ _ => hdown

/-- No thread can take a step. -/
def Stuck (chunkBytes : ℕ) (device : List UInt8) (s : Pull Lane) : Prop :=
  ∀ a, a.isThread = true → s.Asked a → s.step chunkBytes device a = none

section Stuck

variable {s : Pull Lane} (h : s.Inv device) (hall : s.AllAsked) (hstuck : s.Stuck chunkBytes device)
  (hcall : s.call = .pulling ∨ ∃ b, s.call = .responding b)

include hstuck

attribute [local simp] step

theorem Stuck.commit_ne_requested : s.commit ≠ .requested := by
  intro hc
  have := hstuck (.commit true) rfl trivial
  simp [hc] at this

/-- A reader that is stuck has ended, waits, or is not there. -/
theorem Stuck.handler (i : Lane) : (s.lanes i).handler = .unasked ∨
    ((s.lanes i).handler = .requested ∧ (s.lanes i).gone = true) ∨
    ((s.lanes i).handler = .waiting ∧ s.read.ready = false ∧ s.connectionLost = false) ∨
    (s.lanes i).handler = .returned ∨ (s.lanes i).handler = .failed := by
  cases hh : (s.lanes i).handler with
  | unasked => simp
  | requested =>
    have := hstuck (.deliver i) rfl trivial
    simpa [hh] using this
  | waiting =>
    have := hstuck (.wake i) rfl trivial
    simpa [hh] using this
  | setting =>
    have := hstuck (.setContext i true) rfl trivial
    simp [hh] at this
  | copying offset bytes =>
    have := hstuck (.copy i true true) rfl trivial
    simp [hh] at this
  | locking copied written =>
    have := hstuck (.lock i) rfl trivial
    simp [hh] at this
  | closing =>
    have := hstuck (.close i true) rfl trivial
    simp [hh] at this
  | returned => simp
  | failed => simp

/-- A connection that is down has been joined. -/
theorem Stuck.gone (i : Lane) (hdown : (s.lanes i).down = true)
    (hh : (s.lanes i).handler.arrived = false ∨ (s.lanes i).handler = .returned ∨
      (s.lanes i).handler = .failed) : (s.lanes i).gone = true := by
  have := hstuck (.lose i) rfl trivial
  simp only [step, hdown, hh, true_and, and_true] at this
  simpa using this

include h hcall

theorem Stuck.puller_ne_starting (i : Lane) : (s.lanes i).puller ≠ .starting := by
  intro hp
  rcases hcall with hc | ⟨b, hc⟩
  · have := hstuck (.request i true) rfl trivial
    simp [hc, hp] at this
  · have := h.joined b hc i
    rw [hp] at this
    rcases this with this | this <;> cases this

/-- While the committing handler runs no reader waits for it in vain. -/
theorem Stuck.handler_ne_waiting (i : Lane) : (s.lanes i).handler ≠ .waiting := by
  intro hh
  have hcases := hstuck.handler i
  simp only [hh, reduceCtorEq, false_and, true_and, false_or, or_false] at hcases
  obtain ⟨hready, hlost⟩ := hcases
  cases hc : s.commit with
  | unsent => exact h.sent hcall hc
  | requested => exact hstuck.commit_ne_requested hc
  | waiting =>
    rw [h.ready.mpr hc] at hready
    cases hready
  | ended r =>
    rcases h.ended r hc with hl | hf
    · rw [hl] at hlost
      cases hlost
    · have := hf i
      rw [hh] at this
      cases this

include hall

/-- A reader that has not arrived is one of a connection that is lost. -/
theorem Stuck.gone_of_not_finished (i : Lane) (hi : (s.lanes i).handler.finished = false) :
    (s.lanes i).handler.arrived = false ∧ (s.lanes i).gone = true := by
  rcases hstuck.handler i with hh | ⟨hh, hg⟩ | ⟨hh, -⟩ | hh | hh
  · have hp : (s.lanes i).puller = .failed := by
      rcases (h.lanes i).unasked hh with hp | hp
      · exact absurd hp (hstuck.puller_ne_starting h hcall i)
      · exact hp
    have harrived : (s.lanes i).handler.arrived = false := by
      rw [hh]
      rfl
    exact ⟨harrived, hstuck.gone i (hall i hp hh) (.inl harrived)⟩
  · exact ⟨by rw [hh]; rfl, hg⟩
  · exact absurd hh (hstuck.handler_ne_waiting h hcall i)
  · rw [hh] at hi
    cases hi
  · rw [hh] at hi
    cases hi

theorem Stuck.commit_ended : ∃ r, s.commit = .ended r := by
  cases hc : s.commit with
  | unsent => exact absurd hc (h.sent hcall)
  | requested => exact absurd hc hstuck.commit_ne_requested
  | ended r => exact ⟨r, rfl⟩
  | waiting =>
    obtain ⟨ha, hf⟩ := h.counted (by simp [hc])
    -- the committing handler could end: all readers have finished, or those that arrived have
    have hfinish : s.read.finished = Fintype.card Lane ∨
        (s.connectionLost = true ∧ s.read.finished = s.read.arrived) := by
      rcases Classical.em (∀ i, (s.lanes i).handler.finished = true) with hfin | hfin
      · left
        rw [hf, count, Finset.sum_congr rfl fun i _ => by rw [hfin i]]
        simp
      · right
        obtain ⟨i, hi⟩ := not_forall.mp hfin
        obtain ⟨-, hg⟩ := hstuck.gone_of_not_finished h hall hcall i (by simpa using hi)
        refine ⟨((h.lanes i).gone hg).2, ?_⟩
        rw [hf, ha]
        refine Finset.sum_congr rfl fun j _ => ?_
        cases hj : (s.lanes j).handler.finished
        · rw [(hstuck.gone_of_not_finished h hall hcall j hj).1]
        · rw [Handler.arrived_of_finished hj]
    have := hstuck .finish rfl trivial
    simp only [step, hc, true_and, if_pos hfinish] at this
    cases this

theorem Stuck.puller_ended (i : Lane) :
    (s.lanes i).puller = .done ∨ (s.lanes i).puller = .failed := by
  cases hp : (s.lanes i).puller with
  | done => exact .inl rfl
  | failed => exact .inr rfl
  | starting => exact absurd hp (hstuck.puller_ne_starting h hcall i)
  | receiving =>
    have hdown : (s.lanes i).down = false := by
      have := hstuck (.abort i) rfl trivial
      simpa [hp] using this
    have hframes : (s.lanes i).frames = [] := by
      cases hf : (s.lanes i).frames with
      | nil => rfl
      | cons f rest =>
        have := hstuck (.receive i) rfl trivial
        simp [hp, hf] at this
    rcases (h.lanes i).stream with ⟨hr, -, -⟩ | ⟨_, -, -, -, hf⟩ | ⟨-, hd, -⟩
    · cases hfin : (s.lanes i).handler.finished
      · obtain ⟨-, hg⟩ := hstuck.gone_of_not_finished h hall hcall i hfin
        rw [((h.lanes i).gone hg).1] at hdown
        cases hdown
      · rcases hstuck.handler i with hh | ⟨hh, -⟩ | ⟨hh, -⟩ | hh | hh
        · simp [hh] at hfin
        · simp [hh] at hfin
        · simp [hh] at hfin
        · exact absurd hh hr
        · rw [(h.lanes i).failed hh] at hdown
          cases hdown
    · rw [hframes] at hf
      simp at hf
    · rw [hp] at hd
      cases hd

theorem Stuck.false : False := by
  obtain ⟨r, hr⟩ := hstuck.commit_ended h hall hcall
  rcases hcall with hc | ⟨b, hc⟩
  · have := hstuck (.join true) rfl trivial
    simp only [step, hc, true_and, if_pos (hstuck.puller_ended h hall (.inl hc))] at this
    cases this
  · have := hstuck .respond rfl trivial
    simp [hc, hr] at this

end Stuck

/-- A call that has not returned can go on. -/
theorem exists_step (h : s.Inv device) (hall : s.AllAsked) (hcall : ∀ b, s.call ≠ .returned b) :
    ∃ a s', a.isThread = true ∧ s.Asked a ∧ s.step chunkBytes device a = some s' := by
  by_contra hno
  have hstuck : s.Stuck chunkBytes device := by
    intro a ha hC
    cases hs : s.step chunkBytes device a with
    | none => rfl
    | some s' => exact absurd ⟨a, s', ha, hC, hs⟩ hno
  cases hc : s.call with
  | unstarted =>
    have := hstuck (.start true) rfl trivial
    simp [step, hc] at this
  | pulling => exact hstuck.false h hall (.inl hc)
  | responding b => exact hstuck.false h hall (.inr ⟨b, hc⟩)
  | returned b => exact hcall b hc

/-- **Bulk pulls.** A call that returned success has written the device's memory. Every run is
bounded, and one in which every reader is asked goes on until the call and the committing handler
have returned. -/
theorem pulled (hchunk : 0 < chunkBytes) {s : Pull Lane} {as : List (Action Lane)}
    (hrun : exec (step chunkBytes device) initial as = some s) :
    (s.call = .returned true → ∀ p < device.length, s.destination p = device[p]?) ∧
      as.length ≤ 10 * Fintype.card Lane + 3 * device.length + 5 ∧
      (Along (step chunkBytes device) Asked initial as →
        ((∃ b, s.call = .returned b) ∧ (s.commit = .unsent ∨ ∃ r, s.commit = .ended r)) ∨
          ∃ a s', a.isThread = true ∧ s.Asked a ∧ s.step chunkBytes device a = some s') := by
  obtain ⟨hinv, hexact⟩ : s.Inv device ∧ s.Exact device :=
    exec_invariant (I := fun s : Pull Lane => s.Inv device ∧ s.Exact device)
      (fun _ _ _ h hstep => ⟨h.1.step hchunk hstep, h.2.step h.1 hstep⟩)
      ⟨inv_initial, exact_initial⟩ hrun
  have hlength := exec_length_le (fun _ _ _ h hstep => Inv.step h hchunk hstep)
    (μ := measure device) (fun _ _ _ h hstep => measure_lt h hchunk hstep) inv_initial hrun
  rw [measure_initial] at hlength
  refine ⟨hexact.returned, by omega, fun hC => ?_⟩
  have hall : s.AllAsked :=
    exec_invariant_along (fun _ _ _ h hC hstep => AllAsked.step h hC hstep)
      (by simp [AllAsked]) hC hrun
  rcases Classical.em (∃ b, s.call = .returned b) with ⟨b, hb⟩ | hb
  · exact .inl ⟨⟨b, hb⟩, hinv.returned b hb⟩
  · exact .inr (exists_step hinv hall fun b hb' => hb ⟨b, hb'⟩)

end Progress

/-- Two readers bring a byte each. -/
theorem pulled_from_two_lanes : ∃ (as : List (Action Bool)) (s : Pull Bool),
    exec (step 1 [5, 7]) initial as = some s ∧ Along (step 1 [5, 7]) Asked initial as ∧
      s.call = .returned true ∧ (∀ p < 2, s.destination p = ([5, 7] : List UInt8)[p]?) ∧
      as.length ≤ 31 := by
  have hrun : ∃ s : Pull Bool, exec (step 1 [5, 7]) initial
      [.start true, .request false true, .request true true, .commit true, .deliver true,
        .deliver false, .wake false, .wake true, .setContext false true, .setContext true true,
        .copy true true true, .copy false true true, .lock false, .lock true, .close true true,
        .close false true, .finish, .receive true, .receive false, .receive false, .receive true,
        .join true, .respond] = some s ∧ s.call = .returned true := ⟨_, rfl, rfl⟩
  obtain ⟨s, hs, hcall⟩ := hrun
  obtain ⟨hexact, hlength, -⟩ := pulled (by decide) hs
  exact ⟨_, s, hs, by decide, hcall, hexact hcall, hlength⟩

/-- The request to one of two readers is not written, on a connection that stays up. The other
reader brings the whole copy, but nothing ends the wait for the first one: neither the committing
handler nor the call returns. -/
theorem unasked_reader_is_awaited : ∃ s : Pull Bool, Reachable (step 2 [5, 7]) initial s ∧
    (∀ i, (s.lanes i).down = false) ∧ s.commit = .waiting ∧ s.call = .responding false ∧
    ∀ a, a.isThread = true → s.step 2 [5, 7] a = none := by
  have hrun : ∃ s : Pull Bool, exec (step 2 [5, 7]) initial
      [.start true, .request false true, .request true false, .commit true, .deliver false,
        .wake false, .setContext false true, .copy false true true, .lock false, .close false true,
        .receive false, .receive false, .join true] = some s ∧
      s.commit = .waiting ∧ s.call = .responding false ∧ s.read = ⟨true, 2, 2, 1, 1, true⟩ ∧
      s.connectionLost = false ∧ s.lanes false = ⟨.done, .returned, [], false, false⟩ ∧
      s.lanes true = ⟨.failed, .unasked, [], false, false⟩ :=
    ⟨_, rfl, rfl, rfl, rfl, rfl, rfl, rfl⟩
  obtain ⟨s, hs, hcommit, hcall, hread, hlost, hfalse, htrue⟩ := hrun
  refine ⟨s, ⟨_, hs⟩, ?_, hcommit, hcall, ?_⟩
  · rintro (_ | _)
    · rw [hfalse]
    · rw [htrue]
  · intro a ha
    cases a with
    | start => simp [step, hcall]
    | request i written => simp [step, hcall]
    | deliver i | wake i | setContext i | copy i | lock i | close i | lose i | receive i
    | abort i => cases i <;> simp [step, hfalse, htrue]
    | drop i => cases ha
    | commit => simp [step, hcommit]
    | finish => simp [step, hcommit, hread, hlost]
    | join => simp [step, hcall]
    | respond => simp [step, hcall, hcommit]

end Lupine.Bulk.Pull
