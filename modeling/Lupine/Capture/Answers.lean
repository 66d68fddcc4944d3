import Lupine.Capture.Queries

/-!
# Capture queries that are answered without the server

* `State.Ok` is the invariant: a report of the current epoch, cached or on its way, is true unless
  an end is about to raise the epoch, and a running query has seen every report that it may use.
* `answered_seen`: when streams are destroyed only while they are neither capturing nor queried, and
  no query starts between the end of a capture on the server and the new epoch, each answer was true
  at an instant of its query.
* `stale_answers`: what happens otherwise. `cuStreamDestroy_v2` leaves the report in the cache,
  which then answers for the next stream with the handle.
-/

namespace Lupine.Capture

open Function State List Option

open Foundations (exec Along exec_invariant_along exists_of_any)

variable {τ η : Type*}

/-! ## Reports -/

variable {t : τ} {h x : η} {p : Place η} {s s' : State τ η}

/-- A report of the server, in the cache or with a thread. -/
def State.Held (s : State τ η) (h : η) (entry : Entry) : Prop :=
  s.cache h = some entry ∨ ∃ t, (s.place t).held = some (h, entry)

/-- The invariant, apart from the counter. -/
structure State.Ok (s : State τ η) : Prop where
  live : ∀ h c, s.capture h = some c → c ∈ s.live.map Prod.fst
  entry_le : ∀ h entry, s.Held h entry → entry.epoch ≤ s.epoch
  loaded_le : ∀ t e, (s.place t).loaded = some e → e ≤ s.epoch
  /-- A report of the current epoch is true, or an end is about to raise the epoch. -/
  current : ∀ h entry, s.Held h entry → entry.epoch = s.epoch →
    s.capture h = some entry.capture ∨ ∃ t, s.place t = .ended
  /-- A query has seen each report that its lookup may accept. -/
  fresh : ∀ t h entry, (s.place t).handle = some h → s.Held h entry →
    entry.epoch = s.epoch ∨ (s.place t).stamp = some entry.epoch → some entry.capture ∈ s.seen t
  now : ∀ t h, (s.place t).handle = some h → s.capture h ∈ s.seen t
  claimed : ∀ t a, (s.place t).claims = some a → a ∈ s.seen t

namespace State

theorem ok_initial (special : η → Bool) : (State.initial special : State τ η).Ok where
  live _ _ h := nomatch h
  entry_le _ _ h := by rcases h with h | ⟨_, h⟩ <;> cases h
  loaded_le _ _ h := nomatch h
  current _ _ h := by rcases h with h | ⟨_, h⟩ <;> cases h
  fresh _ _ _ h := nomatch h
  now _ _ h := nomatch h
  claimed _ _ h := nomatch h

theorem seen_record (s : State τ η) (hh : (s.place t).handle = some h) :
    s.record.seen t = s.capture h :: s.seen t := by
  simp only [record, hh]

theorem capture_mem_seen_record (s : State τ η) (hh : (s.place t).handle = some h) :
    s.capture h ∈ s.record.seen t := by
  rw [s.seen_record hh]
  exact mem_cons_self

theorem mem_seen_record (s : State τ η) {x : Option CaptureInfo} (hh : (s.place t).handle = some h)
    (hx : x ∈ s.seen t) : x ∈ s.record.seen t := by
  rw [s.seen_record hh]
  exact mem_cons_of_mem _ hx

theorem handle_of_claims {a : Option CaptureInfo} (h : p.claims = some a) :
    ∃ x, p.handle = some x := by
  refine ne_none_iff_exists'.mp fun hnone => ?_
  rw [(Place.none_of_handle hnone).2.2.2] at h
  cases h

/-- Seeing one more state keeps the invariant. -/
theorem Ok.record (h : s.Ok) : s.record.Ok where
  live := h.live
  entry_le := h.entry_le
  loaded_le := h.loaded_le
  current := h.current
  fresh t x entry hx hheld he := s.mem_seen_record hx (h.fresh t x entry hx hheld he)
  now _ _ hx := s.capture_mem_seen_record hx
  claimed t a ha := by
    obtain ⟨x, hx⟩ := handle_of_claims ha
    exact s.mem_seen_record hx (h.claimed t a ha)

/-- The counter, the owners and the streams are not part of the invariant. -/
theorem Ok.client (h : s.Ok) (counter : ℤ) (known stream : η → Bool) :
    { s with counter := counter, known := known, stream := stream : State τ η }.Ok :=
  { h with }

/-- The cache may lose reports, and get those that a thread has. -/
theorem Ok.setCache (h : s.Ok) {cache : η → Option Entry}
    (hcache : ∀ x entry, cache x = some entry → s.Held x entry) :
    { s with cache := cache : State τ η }.Ok := by
  have hheld : ∀ x entry, { s with cache := cache : State τ η }.Held x entry →
      s.Held x entry := by
    rintro x entry (hx | hx)
    · exact hcache x entry hx
    · exact .inr hx
  exact ⟨h.live, fun x entry hx => h.entry_le x entry (hheld x entry hx), h.loaded_le,
    fun x entry hx => h.current x entry (hheld x entry hx),
    fun t x entry hh hx => h.fresh t x entry hh (hheld x entry hx), h.now, h.claimed⟩

/-- A new epoch makes every report old. -/
theorem Ok.raise (h : s.Ok) : { s with epoch := s.epoch + 1 : State τ η }.Ok where
  live := h.live
  entry_le x entry hx := Nat.le_succ_of_le (h.entry_le x entry hx)
  loaded_le t e he := Nat.le_succ_of_le (h.loaded_le t e he)
  current x entry hx he := by
    have hle := h.entry_le x entry hx
    change entry.epoch = s.epoch + 1 at he
    omega
  fresh t x entry hh hx he := by
    have hle := h.entry_le x entry hx
    rcases he with he | he
    · change entry.epoch = s.epoch + 1 at he
      omega
    · exact h.fresh t x entry hh hx (.inr he)
  now := h.now
  claimed := h.claimed

/-! ## Places -/

/-- What the next place of a thread has to meet. -/
structure Follows (s : State τ η) (t : τ) (p : Place η) : Prop where
  /-- An end leaves its place when no report is of the current epoch. -/
  ended : s.place t ≠ .ended ∨ ∀ h entry, s.Held h entry → entry.epoch < s.epoch
  held : ∀ h entry, p.held = some (h, entry) →
    s.Held h entry ∨ (entry.epoch ≤ s.epoch ∧ s.capture h = some entry.capture)
  loaded : ∀ e, p.loaded = some e → e ≤ s.epoch
  /-- The query goes on, or it starts and no end is open. -/
  handle : ∀ h, p.handle = some h →
    (s.place t).handle = some h ∨ ∀ u, s.place u ≠ .ended
  stamp : ∀ e, p.stamp = some e → e = s.epoch
  claims : ∀ a, p.claims = some a → a ∈ s.seen t

theorem follows_of_outside (hhandle : p.handle = none)
    (hended : s.place t ≠ .ended ∨ ∀ h entry, s.Held h entry → entry.epoch < s.epoch) :
    Follows s t p := by
  obtain ⟨hheld, hloaded, hstamp, hclaims⟩ := Place.none_of_handle hhandle
  exact ⟨hended, by simp [hheld], by simp [hloaded], by simp [hhandle], by simp [hstamp],
    by simp [hclaims]⟩

theorem ne_ended_of_handle (h : p.handle = some x) : p ≠ .ended := by
  rintro rfl
  cases h

/-- The query of the thread that goes on has seen what its lookup may accept. -/
theorem Ok.fresh_go (h : s.Ok) (hp : Follows s t p) {entry : Entry} (hh : p.handle = some x)
    (hx : s.Held x entry) (he : entry.epoch = s.epoch ∨ p.stamp = some entry.epoch) :
    some entry.capture ∈ s.capture x :: s.seen t := by
  have hepoch : entry.epoch = s.epoch := he.elim id fun he => hp.stamp _ he
  rcases hp.handle x hh with hold | hclosed
  · exact mem_cons_of_mem _ (h.fresh t x entry hold hx (.inl hepoch))
  · rcases h.current x entry hx hepoch with hcapture | ⟨v, hv⟩
    · exact hcapture ▸ mem_cons_self
    · exact absurd hv (hclosed v)

section Go

variable [DecidableEq τ]

theorem place_go_self (s : State τ η) (t : τ) (p : Place η) : (s.go t p).place t = p :=
  update_self ..

theorem place_go_of_ne (s : State τ η) {u : τ} (hu : u ≠ t) (p : Place η) :
    (s.go t p).place u = s.place u :=
  update_of_ne hu ..

theorem place_go_or_outside (s : State τ η) (t : τ) (hp : p.handle = none) (u : τ) :
    (s.go t p).place u = s.place u ∨ ((s.go t p).place u).handle = none := by
  by_cases hut : u = t
  · subst hut
    exact .inr (by rw [place_go_self, hp])
  · exact .inl (place_go_of_ne s hut p)

theorem ended_go (s : State τ η) {u : τ} (ht : s.place t ≠ .ended) (p : Place η)
    (hu : s.place u = .ended) : (s.go t p).place u = .ended := by
  have hut : u ≠ t := by
    rintro rfl
    exact ht hu
  exact (place_go_of_ne s hut p).trans hu

theorem held_of_go (hp : Follows s t p) {entry : Entry} (hheld : (s.go t p).Held h entry) :
    s.Held h entry ∨ (entry.epoch ≤ s.epoch ∧ s.capture h = some entry.capture) := by
  rcases hheld with hcache | ⟨u, hu⟩
  · exact .inl (.inl hcache)
  · by_cases hut : u = t
    · subst hut
      rw [place_go_self] at hu
      exact hp.held h entry hu
    · rw [place_go_of_ne s hut] at hu
      exact .inl (.inr ⟨u, hu⟩)

/-- **A thread goes on.** -/
theorem Ok.go (h : s.Ok) (hp : Follows s t p) : (s.go t p).record.Ok where
  live := h.live
  entry_le x entry hx := by
    rcases held_of_go hp hx with hold | ⟨hle, -⟩
    · exact h.entry_le x entry hold
    · exact hle
  loaded_le u e he := by
    change ((s.go t p).place u).loaded = some e at he
    by_cases hut : u = t
    · subst hut
      rw [place_go_self] at he
      exact hp.loaded e he
    · rw [place_go_of_ne s hut] at he
      exact h.loaded_le u e he
  current x entry hx he := by
    rcases held_of_go hp hx with hold | ⟨-, hcapture⟩
    · rcases h.current x entry hold he with hcapture | ⟨u, hu⟩
      · exact .inl hcapture
      · by_cases hut : u = t
        · subst hut
          rcases hp.ended with hne | hlt
          · exact absurd hu hne
          · exact absurd he (hlt x entry hold).ne
        · exact .inr ⟨u, (place_go_of_ne s hut p).trans hu⟩
    · exact .inl hcapture
  fresh u x entry hh hx he := by
    change ((s.go t p).place u).handle = some x at hh
    change entry.epoch = s.epoch ∨ ((s.go t p).place u).stamp = some entry.epoch at he
    rw [(s.go t p).seen_record hh]
    rcases held_of_go hp hx with hold | ⟨-, hcapture⟩
    · by_cases hut : u = t
      · subst hut
        rw [place_go_self] at hh he
        exact h.fresh_go hp hh hold he
      · rw [place_go_of_ne s hut] at hh he
        exact mem_cons_of_mem _ (h.fresh u x entry hh hold he)
    · exact hcapture ▸ mem_cons_self
  now _ _ hh := (s.go t p).capture_mem_seen_record hh
  claimed u a ha := by
    obtain ⟨x, hx⟩ := handle_of_claims ha
    refine (s.go t p).mem_seen_record hx ?_
    change ((s.go t p).place u).claims = some a at ha
    by_cases hut : u = t
    · subst hut
      rw [place_go_self] at ha
      exact hp.claims a ha
    · rw [place_go_of_ne s hut] at ha
      exact h.claimed u a ha

end Go

section

variable (hold : (s.place t).handle = some x)
include hold

/-- A place of the same query that claims and holds nothing. -/
theorem follows_of_query (hhandle : p.handle = some x) (hheld : p.held = none)
    (hloaded : ∀ e, p.loaded = some e → e ≤ s.epoch) (hstamp : ∀ e, p.stamp = some e → e = s.epoch)
    (hclaims : ∀ a, p.claims = some a → a ∈ s.seen t) : Follows s t p :=
  ⟨.inl (ne_ended_of_handle hold), by simp [hheld], hloaded,
    fun y hy => .inl (hold.trans (hhandle.symm.trans hy)), hstamp, hclaims⟩

theorem follows_answered {a : Option CaptureInfo} (ha : a ∈ s.seen t) :
    Follows s t (.answered x a) :=
  follows_of_query hold rfl rfl (fun _ he => (nomatch he)) (fun _ he => (nomatch he))
    fun _ hb => Option.some.inj hb ▸ ha

theorem follows_asking {epoch : Option ℕ} (he : ∀ e, epoch = some e → e ≤ s.epoch) :
    Follows s t (.asking x epoch) :=
  follows_of_query hold rfl rfl he (fun _ he => (nomatch he)) (fun _ ha => (nomatch ha))

theorem follows_counted {q : Query} : Follows s t (.counted x q) :=
  follows_of_query hold rfl rfl (fun _ he => (nomatch he)) (fun _ he => (nomatch he))
    (fun _ ha => (nomatch ha))

end

/-! ## The server -/

/-- **The server acts.** A thread may leave or stay outside every query; what a report of the
current epoch says stays true, or an end opens. -/
theorem Ok.serve (h : s.Ok) (hepoch : s'.epoch = s.epoch) (hcache : s'.cache = s.cache)
    (hplace : ∀ t, s'.place t = s.place t ∨ (s'.place t).handle = none)
    (hseen : ∀ t x, (s'.place t).handle = some x → s'.seen t = s.seen t)
    (hlive : ∀ x c, s'.capture x = some c → c ∈ s'.live.map Prod.fst)
    (hcurrent : ∀ x c, s.capture x = some c → s'.capture x = some c ∨ ∃ t, s'.place t = .ended)
    (hended : ∀ t, s.place t = .ended → s'.place t = .ended) : s'.record.Ok := by
  have hsame : ∀ t x, (s'.place t).handle = some x → s'.place t = s.place t := by
    intro t x hx
    refine (hplace t).resolve_right fun hnone => ?_
    rw [hnone] at hx
    cases hx
  have hheld : ∀ x entry, s'.record.Held x entry → s.Held x entry := by
    rintro x entry (hx | ⟨t, ht⟩)
    · exact .inl (hcache ▸ hx)
    · change (s'.place t).held = some (x, entry) at ht
      rcases hplace t with hold | hnone
      · exact .inr ⟨t, hold ▸ ht⟩
      · rw [(Place.none_of_handle hnone).1] at ht
        cases ht
  refine ⟨hlive, fun x entry hx => hepoch ▸ h.entry_le x entry (hheld x entry hx),
    fun t e he => ?_, fun x entry hx he => ?_, fun t x entry hh hx he => ?_,
    fun _ _ hh => s'.capture_mem_seen_record hh, fun t a ha => ?_⟩
  · change (s'.place t).loaded = some e at he
    change e ≤ s'.epoch
    rcases hplace t with hold | hnone
    · rw [hepoch]
      exact h.loaded_le t e (hold ▸ he)
    · rw [(Place.none_of_handle hnone).2.1] at he
      cases he
  · rcases h.current x entry (hheld x entry hx) (he.trans hepoch) with hcapture | ⟨t, ht⟩
    · exact hcurrent x entry.capture hcapture
    · exact .inr ⟨t, hended t ht⟩
  · change entry.epoch = s'.epoch ∨ (s'.place t).stamp = some entry.epoch at he
    refine s'.mem_seen_record hh ?_
    rw [hseen t x hh]
    rw [hsame t x hh, hepoch] at he
    exact h.fresh t x entry (hsame t x hh ▸ hh) (hheld x entry hx) he
  · obtain ⟨x, hx⟩ := handle_of_claims ha
    refine s'.mem_seen_record hx ?_
    change (s'.place t).claims = some a at ha
    rw [hseen t x hx]
    rw [hsame t x hx] at ha
    exact h.claimed t a ha

end State

/-! ## Every step -/

namespace State

/-- With no capture counted no stream is capturing. -/
theorem Ok.capture_eq_none [Fintype τ] (h : s.Ok) (hcounted : s.Counted) (hzero : s.counter = 0)
    (x : η) : s.capture x = none := by
  cases hx : s.capture x with
  | none => rfl
  | some c =>
    have hmem := h.live x c hx
    rw [hcounted.live_eq_nil hzero] at hmem
    cases hmem

theorem follows_of_answer [Fintype τ] {special : η → Bool} (h : s.Ok) (hcounted : s.Counted)
    (hp : s.answer special (s.place t) = some p) : Follows s t p := by
  cases hplace : s.place t with
  | idle | beginning | begun | ending | ended | raised | cleared | asking | replied =>
    rw [hplace] at hp
    cases hp
  | asked x q =>
    have hold : (s.place t).handle = some x := by rw [hplace]; rfl
    rw [hplace] at hp
    cases hp
    split
    · next hzero =>
      have hnone : none ∈ s.seen t := h.capture_eq_none hcounted hzero.2 x ▸ h.now t x hold
      exact follows_of_query hold rfl rfl (fun _ he => (nomatch he)) (fun _ he => (nomatch he))
        fun _ hb => Option.some.inj hb ▸ hnone
    · exact follows_counted hold
  | uncounted x q =>
    have hold : (s.place t).handle = some x := by rw [hplace]; rfl
    have hnone : none ∈ s.seen t := h.claimed t none (by rw [hplace]; rfl)
    rw [hplace] at hp
    cases hp
    split
    · exact follows_answered hold hnone
    · exact follows_counted hold
  | counted x q =>
    have hold : (s.place t).handle = some x := by rw [hplace]; rfl
    rw [hplace] at hp
    cases q with
    | isCapturing =>
      simp only [answer] at hp
      split at hp <;> cases hp
      · next entry hcache =>
        refine ⟨.inl (ne_ended_of_handle hold), ?_, fun _ he => (nomatch he),
          fun y hy => .inl (hold.trans hy), fun _ he => (nomatch he), fun _ ha => (nomatch ha)⟩
        intro y e hy
        cases hy
        exact .inl (.inl hcache)
      · exact follows_asking hold fun _ he => nomatch he
    | captureInfo ready dependencies =>
      cases hp
      exact follows_of_query hold rfl rfl (fun _ he => Option.some.inj he ▸ Nat.le_refl _)
        (fun _ he => (Option.some.inj he).symm) (fun _ ha => (nomatch ha))
  | found x entry =>
    have hold : (s.place t).handle = some x := by rw [hplace]; rfl
    have hheld : s.Held x entry := .inr ⟨t, by rw [hplace]; rfl⟩
    rw [hplace] at hp
    cases hp
    split
    · next hepoch => exact follows_answered hold (h.fresh t x entry hold hheld (.inl hepoch))
    · exact follows_asking hold fun _ he => nomatch he
  | stamped x dependencies epoch =>
    have hold : (s.place t).handle = some x := by rw [hplace]; rfl
    have hstamp : (s.place t).stamp = some epoch := by rw [hplace]; rfl
    have hloaded : epoch ≤ s.epoch := h.loaded_le t epoch (by rw [hplace]; rfl)
    have hasking : Follows s t (.asking x (some epoch)) :=
      follows_asking hold fun _ he => Option.some.inj he ▸ hloaded
    rw [hplace] at hp
    simp only [answer] at hp
    split at hp <;> cases hp
    · next entry hcache =>
      split
      · next hmatch =>
        exact follows_answered hold
          (h.fresh t x entry hold (.inl hcache) (.inr (hmatch.2 ▸ hstamp)))
      · exact hasking
    · exact hasking
  | answered x a =>
    rw [hplace] at hp
    cases hp
    exact follows_of_outside rfl (.inl (by rw [hplace]; exact fun hne => nomatch hne))

section Calls

variable [DecidableEq τ] {special : η → Bool}

theorem Ok.start (h : s.Ok) {op : Op η} (hidle : s.place t = .idle)
    (hmeets : s.Meets (.start t op)) : (s.start t op).record.Ok := by
  have hended : s.place t ≠ .ended := by simp [hidle]
  cases op with
  | beginCapture x =>
    exact (h.client _ s.known s.stream).go (follows_of_outside rfl (.inl hended))
  | endCapture x => exact h.go (follows_of_outside rfl (.inl hended))
  | query x q =>
    exact h.go ⟨.inl hended, fun _ _ hx => (nomatch hx), fun _ he => (nomatch he),
      fun _ _ => .inr hmeets, fun _ he => (nomatch he), fun _ ha => (nomatch ha)⟩

theorem Ok.queryServed (h : s.Ok) {epoch : Option ℕ} (hplace : s.place t = .asking x epoch)
    (active : Bool) : (s.queryServed special t x epoch active).record.Ok := by
  have hended : s.place t ≠ .ended := by simp [hplace]
  have hidle : (s.go t .idle).record.Ok := h.go (follows_of_outside rfl (.inl hended))
  unfold State.queryServed
  split
  · next e c hcapture =>
    split
    · have hloaded : e ≤ s.epoch := h.loaded_le t e (by rw [hplace]; rfl)
      refine h.go ⟨.inl hended, fun y entry hy => ?_, fun _ he => (nomatch he), fun y hy => ?_,
        fun _ he => (nomatch he), fun _ ha => (nomatch ha)⟩
      · cases hy
        exact .inr ⟨hloaded, hcapture⟩
      · exact .inl (by rw [hplace]; exact hy)
    · exact hidle
  · exact hidle

end Calls

section Server

variable [DecidableEq η]

/-- A stream that was not capturing enters a capture. -/
theorem capture_update {y : η} {c d : CaptureInfo} (hnone : s.capture x = none)
    (hy : s.capture y = some d) : update s.capture x (some c) y = some d := by
  have hyx : y ≠ x := by
    rintro rfl
    rw [hnone] at hy
    cases hy
  exact (update_of_ne hyx ..).trans hy

theorem capture_of_update {y : η} {c d : CaptureInfo}
    (hy : update s.capture x (some c) y = some d) : d = c ∨ s.capture y = some d := by
  by_cases hyx : y = x
  · subst hyx
    rw [update_self] at hy
    exact .inl (Option.some.inj hy).symm
  · rw [update_of_ne hyx] at hy
    exact .inr hy

theorem Ok.join (h : s.Ok) {c : CaptureInfo} (hnone : s.capture x = none)
    (hmem : c ∈ s.live.map Prod.fst) :
    { s with capture := update s.capture x (some c) : State τ η }.record.Ok := by
  refine h.serve rfl rfl (fun _ => .inl rfl) (fun _ _ _ => rfl) (fun y d hy => ?_)
    (fun _ _ hy => .inl (capture_update hnone hy)) fun _ hu => hu
  rcases capture_of_update hy with rfl | hold
  · exact hmem
  · exact h.live y d hold

variable [DecidableEq τ] {special : η → Bool}

theorem Ok.beginServed (h : s.Ok) {c : Option CaptureInfo} (hplace : s.place t = .beginning x)
    (hstep : s.beginServed t x c = some s') : s'.record.Ok := by
  have hended : s.place t ≠ .ended := by simp [hplace]
  cases c with
  | none =>
    cases hstep
    exact h.go (follows_of_outside rfl (.inl hended))
  | some c =>
    simp only [State.beginServed, ite_none_right_eq_some] at hstep
    obtain ⟨⟨-, hnone, -⟩, hstep⟩ := hstep
    cases hstep
    refine h.serve rfl rfl (place_go_or_outside _ t rfl) (fun _ _ _ => rfl) (fun y d hy => ?_)
      (fun _ _ hy => .inl (capture_update hnone hy)) fun _ => ended_go _ hended _
    rcases capture_of_update hy with rfl | hold
    · exact mem_cons_self
    · exact mem_cons_of_mem _ (h.live y d hold)

theorem Ok.endServed (h : s.Ok) {terminal : Bool} (hplace : s.place t = .ending x)
    (hstep : s.endServed t x terminal = some s') : s'.record.Ok := by
  have hended : s.place t ≠ .ended := by simp [hplace]
  cases terminal with
  | false =>
    cases hstep
    exact h.go (follows_of_outside rfl (.inl hended))
  | true =>
    simp only [State.endServed] at hstep
    split at hstep
    · next c hcapture =>
      simp only [ite_none_right_eq_some] at hstep
      obtain ⟨-, hstep⟩ := hstep
      cases hstep
      refine h.serve rfl rfl (place_go_or_outside _ t rfl) (fun _ _ _ => rfl) (fun y d hy => ?_)
        (fun y d hy => .inr ⟨t, place_go_self ..⟩) fun _ => ended_go _ hended _
      · change (if s.capture y = some c then none else s.capture y) = some d at hy
        split at hy
        · cases hy
        · next hne =>
          obtain ⟨⟨d', o⟩, hmem, rfl⟩ := mem_map.mp (h.live y d hy)
          refine mem_map.mpr ⟨(d', o), (mem_erase_of_ne ?_).mpr hmem, rfl⟩
          rintro heq
          cases heq
          exact hne hy
    · cases hstep

theorem Ok.destroy (h : s.Ok) (hmeets : s.Meets (.destroy x : Action τ η))
    (hstep : s.move special (.destroy x) = some s') : s'.record.Ok := by
  obtain ⟨hnone, hunqueried⟩ := hmeets
  simp only [move, ite_none_right_eq_some] at hstep
  obtain ⟨-, hstep⟩ := hstep
  cases hstep
  have hcapture : update s.capture x none = s.capture := by
    rw [← hnone, update_eq_self]
  simp only [hcapture]
  exact h.serve rfl rfl (fun _ => .inl rfl) (fun t _ _ => if_neg (hunqueried t)) h.live
    (fun _ _ hy => .inl hy) fun _ hu => hu

end Server

theorem counted_initial [Fintype τ] (special : η → Bool) :
    (State.initial special : State τ η).Counted := by
  simp [State.Counted, initial]

end State

section Step

variable [Fintype τ] [DecidableEq τ] [DecidableEq η] {special : η → Bool}

namespace State

theorem Ok.own (h : s.Ok) (hcounted : s.Counted) (hstep : s.own special t = some s') :
    s'.record.Ok := by
  unfold State.own at hstep
  split at hstep
  · next hplace =>
    cases hstep
    exact (h.client _ s.known s.stream).go (follows_of_outside rfl (.inl (by simp [hplace])))
  · cases hstep
    refine h.raise.go (follows_of_outside rfl (.inr fun x entry hx => ?_))
    exact Nat.lt_succ_of_le (h.entry_le x entry hx)
  · next hplace =>
    cases hstep
    have hcleared : { s with cache := fun _ => none : State τ η }.Ok :=
      h.setCache fun _ _ hx => nomatch hx
    exact hcleared.go (follows_of_outside rfl (.inl (by simp [hplace])))
  · next hplace =>
    cases hstep
    exact (h.client _ s.known s.stream).go (follows_of_outside rfl (.inl (by simp [hplace])))
  · next x entry hplace =>
    cases hstep
    refine (h.setCache fun y e hy => ?_).go (follows_of_outside rfl (.inl (by simp [hplace])))
    by_cases hyx : y = x
    · subst hyx
      rw [update_self] at hy
      cases hy
      exact .inr ⟨t, by rw [hplace]; rfl⟩
    · rw [update_of_ne hyx] at hy
      exact .inl hy
  · obtain ⟨p, hp, rfl⟩ := map_eq_some_iff.mp hstep
    exact h.go (follows_of_answer h hcounted hp)

theorem Ok.step (h : s.Ok) (hcounted : s.Counted) {a : Action τ η} (hmeets : s.Meets a)
    (hstep : s.step special a = some s') : s'.Ok := by
  obtain ⟨r, hmove, rfl⟩ := map_eq_some_iff.mp hstep
  cases a with
  | start t op =>
    simp only [move, ite_none_right_eq_some] at hmove
    obtain ⟨hidle, hmove⟩ := hmove
    cases hmove
    exact h.start hidle hmeets
  | own t => exact h.own hcounted hmove
  | beginServed t c =>
    simp only [move] at hmove
    split at hmove
    · next hplace => exact h.beginServed hplace hmove
    · cases hmove
  | endServed t terminal =>
    simp only [move] at hmove
    split at hmove
    · next hplace => exact h.endServed hplace hmove
    · cases hmove
  | queryServed t active =>
    simp only [move] at hmove
    split at hmove <;> cases hmove
    next hplace => exact h.queryServed hplace active
  | join x c =>
    simp only [move, ite_none_right_eq_some] at hmove
    obtain ⟨⟨-, hnone, hmem⟩, hmove⟩ := hmove
    cases hmove
    exact h.join hnone hmem
  | create x =>
    simp only [move, ite_none_right_eq_some] at hmove
    obtain ⟨-, hmove⟩ := hmove
    cases hmove
    exact (h.client s.counter s.known _).record
  | destroy x => exact h.destroy hmeets hmove
  | note x | forget x =>
    cases hmove
    exact (h.client s.counter _ s.stream).record

theorem Counted.step (h : s.Counted) {a : Action τ η} (hstep : s.step special a = some s') :
    s'.Counted := by
  obtain ⟨r, hmove, rfl⟩ := map_eq_some_iff.mp hstep
  have hr : r.Counted := h.move hmove
  exact hr

end State

/-- **Local answers are true at an instant of their query.** In every interleaving of captures,
joins, ends with any result, creations and destructions of streams and queries, in which a stream
is destroyed only when it is neither capturing nor queried, and no query starts between the end of a
capture on the server and the new epoch: an answer that a query returns without the server is a
state that the server has given to the queried stream since the query started. -/
theorem answered_seen (as : List (Action τ η)) (s : State τ η)
    (hexec : exec (State.step special) (State.initial special) as = some s)
    (hmeets : Along (State.step special) State.Meets (State.initial special) as) (t : τ) (x : η)
    (answer : Option CaptureInfo) (hanswered : s.place t = .answered x answer) :
    answer ∈ s.seen t := by
  have hs : s.Ok ∧ s.Counted :=
    exec_invariant_along (I := fun s => s.Ok ∧ s.Counted)
      (fun _ _ _ h hm hstep => ⟨h.1.step h.2 hm hstep, h.2.step hstep⟩)
      ⟨ok_initial special, counted_initial special⟩ hmeets hexec
  exact hs.1.claimed t answer (by rw [hanswered]; rfl)

/-- **The counter.** In every interleaving the counter is the number of captures, with what is not
yet started or taken off; when a query finds it zero, the server has no capture. -/
theorem counter_counts (as : List (Action τ η)) (s : State τ η)
    (hexec : exec (State.step special) (State.initial special) as = some s) :
    s.Counted ∧ (s.counter = 0 → s.live = []) := by
  have hs : s.Counted := Foundations.exec_invariant
    (fun _ _ _ h hstep => State.Counted.step h hstep) (counted_initial special) hexec
  exact ⟨hs, hs.live_eq_nil⟩

end Step

/-! ## Stale answers -/

/-- Stream 1 begins a capture. -/
def captured (t : τ) : List (Action τ ℕ) :=
  [.create 1, .note 1, .start t (.beginCapture 1), .beginServed t (some ⟨5, 9⟩), .own t]

/-- A thread asks the server about a stream, and keeps the reply. -/
def reported (t : τ) (stream : ℕ) : List (Action τ ℕ) :=
  [.start t (.query stream (.captureInfo true false)), .own t, .own t, .own t,
    .queryServed t true, .own t]

def repeated (t : τ) (stream : ℕ) : List (Action τ ℕ) :=
  [.start t (.query stream .isCapturing), .own t, .own t, .own t]

/-- NULL is the only special stream of these runs. -/
def isNull (stream : ℕ) : Bool := stream == 0

theorem answered_seen_of_repeated : ∃ s : State (Fin 2) ℕ,
    exec (State.step isNull) (State.initial isNull)
        (captured 0 ++ reported 0 1 ++ repeated 0 1) = some s ∧
      s.place 0 = .answered 1 (some ⟨5, 9⟩) ∧ some ⟨5, 9⟩ ∈ s.seen 0 := by
  refine exists_of_any (p := fun s => s.place 0 = .answered 1 (some ⟨5, 9⟩)) (by decide)
    fun s hs hplace => ?_
  exact ⟨hplace, answered_seen _ s hs (by decide) 0 1 _ hplace⟩

theorem counter_counts_captured : ∃ s : State (Fin 2) ℕ,
    exec (State.step isNull) (State.initial isNull) (captured 0) = some s ∧
      s.live = [(⟨5, 9⟩, 1)] ∧ s.Counted :=
  exists_of_any (p := fun s => s.live = [(⟨5, 9⟩, 1)]) (by decide) fun s hs hlive =>
    ⟨hlive, (counter_counts _ s hs).1⟩

/-- Stream 2 joins the capture, is reported and destroyed, and the next stream gets its handle. -/
def reused (t : τ) : List (Action τ ℕ) :=
  captured t ++ [.create 2, .note 2, .join 2 ⟨5, 9⟩] ++ reported t 2 ++
    [.destroy 2, .forget 2, .create 2, .note 2] ++ repeated t 2

/-- The capture is ended by thread `u`, which has not raised the epoch. -/
def endedUnraised (t u : τ) : List (Action τ ℕ) :=
  captured t ++ reported t 1 ++ [.start u (.endCapture 1), .endServed u true] ++ repeated t 1

/-- **Stale answers.** The new stream with the handle of a destroyed one, which has never captured,
is said to be part of the old stream's capture. A query that starts when the capture has ended on
the server, and the epoch is the old one, is told that the stream is capturing. -/
theorem stale_answers :
    (exec (State.step isNull) (State.initial isNull) (reused 0)).any (fun s : State (Fin 2) ℕ =>
      s.place 0 = .answered 2 (some ⟨5, 9⟩) ∧ some ⟨5, 9⟩ ∉ s.seen 0) = true ∧
    (exec (State.step isNull) (State.initial isNull) (endedUnraised 0 1)).any
      (fun s : State (Fin 2) ℕ =>
        s.place 0 = .answered 1 (some ⟨5, 9⟩) ∧ some ⟨5, 9⟩ ∉ s.seen 0) = true := by
  decide

end Lupine.Capture
