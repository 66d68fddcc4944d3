import Lupine.Deferred.Delivery

/-!
# The storage of deferred copies

Who owns the staging memory of a copy. A copy of its own storage owes it to the worker that
writes its bytes, which releases it; a copy of a graph is one of the owners of the resources of the
graph, until the worker that writes its bytes drops it.

* `delivered_in_order`: in a run whose steps are timely, copies are detached only after they were
  executed, none is lost or delivered twice, the copies of a stream are applied in its order, and
  storage is released once, after its bytes were written.
* `delivered_out_of_order`: a callback takes copies enqueued after it, the staging memory of a
  graph is sent again by a host function, and two workers deliver the copies of one stream in the
  wrong order.
-/

namespace Lupine.Deferred

open Foundations Function List Phase Registry

variable {Worker Stream Event Context Resource Exec : Type}

namespace Place

/-- In the registry or detached. -/
def Kept : Place Worker Stream → Prop
  | queued _ | held _ => True
  | _ => False

/-- Written to the connection. -/
def Sent : Place Worker Stream → Prop
  | flying _ | delivered => True
  | _ => False

theorem Kept.not_sent {p : Place Worker Stream} (hk : p.Kept) (hs : p.Sent) : False := by
  cases p <;> first | exact hk | exact hs

end Place

namespace Pipeline

variable {D : Driver Stream Context} {G : Graphs Exec Resource}
  {σ σ' : Pipeline Worker Stream Event Context Resource} {owed : Worker → List ℕ}
  {a : Action Worker Stream Event Context Resource Exec} {c : ℕ}

variable {w : Worker}
variable {old φ : Phase Stream Event Context Resource} {resources : Resource}

/-- The bytes of the copy have been written to the connection. -/
def Sent (σ : Pipeline Worker Stream Event Context Resource) (c : ℕ) : Prop :=
  ∃ p : Place Worker Stream, p.Sent ∧ c ∈ σ.ids p

/-- The copy is in the registry or detached. -/
def Kept (σ : Pipeline Worker Stream Event Context Resource) (c : ℕ) : Prop :=
  ∃ p : Place Worker Stream, p.Kept ∧ c ∈ σ.ids p

/-- What a worker is about to put into the registry has the storage it says. -/
def Backed (σ : Pipeline Worker Stream Event Context Resource) :
    Phase Stream Event Context Resource → Prop
  | .copying _ c => ∀ resources, σ.storage c ≠ .graph resources
  | .launching _ resources ids => (σ.retained resources).length < σ.owners resources ∧
      ∀ c ∈ ids, σ.storage c = .graph resources
  | _ => True

/-- Storage is released once and after its bytes were written. `owed` are the copies whose storage
each worker still has to release. -/
structure Owned (σ : Pipeline Worker Stream Event Context Resource) (owed : Worker → List ℕ) :
    Prop where
  owed_placed : Placed owed
  owed_sent : ∀ w, ∀ c ∈ owed w, σ.Sent c
  released_nodup : σ.released.Nodup
  released : ∀ c ∈ σ.released, σ.storage c = .owned ∧ σ.Sent c ∧ ∀ w, c ∉ owed w
  owned : ∀ c, σ.Sent c → σ.storage c = .owned → c ∈ σ.released ∨ ∃ w, c ∈ owed w
  retained_nodup : ∀ resources, (σ.retained resources).Nodup
  retained : ∀ resources c, c ∈ σ.retained resources ↔
    σ.storage c = .graph resources ∧ (σ.Kept c ∨ ∃ w, c ∈ owed w)
  owners : ∀ resources, (σ.retained resources).length ≤ σ.owners resources
  backed : ∀ w, σ.Backed (σ.phase w)
  retired_nodup : σ.retired.Nodup
  retired : ∀ resources ∈ σ.retired, σ.owners resources = 0

theorem Kept.not_sent (hk : σ.Kept c) (hs : σ.Sited) (h : σ.Sent c) : False := by
  obtain ⟨p, hp, hc⟩ := hk
  obtain ⟨q, hq, hc'⟩ := h
  obtain rfl := hs.placed.unique p q c hc hc'
  exact hp.not_sent hq

/-- A step that releases and retains nothing. -/
structure Spares (σ σ' : Pipeline Worker Stream Event Context Resource) : Prop where
  released : σ'.released = σ.released
  owners : σ'.owners = σ.owners
  retained : σ'.retained = σ.retained
  retired : σ'.retired = σ.retired

theorem Owned.congr (h : σ.Owned owed) (hspares : Spares σ σ')
    (hstorage : ∀ c, σ.Sent c ∨ σ.Kept c → σ'.storage c = σ.storage c)
    (hsent : ∀ c, σ'.Sent c ↔ σ.Sent c) (hmono : ∀ c, σ.Kept c → σ'.Kept c)
    (hkept : ∀ c resources, σ'.storage c = .graph resources → σ'.Kept c → σ.Kept c)
    (hbacked : ∀ w, σ'.Backed (σ'.phase w)) : σ'.Owned owed := by
  obtain ⟨hreleased, howners, hretained, hretired⟩ := hspares
  refine ⟨h.owed_placed, ?_, hreleased ▸ h.released_nodup, ?_, ?_, hretained ▸ h.retained_nodup, ?_,
    ?_, hbacked, hretired ▸ h.retired_nodup, ?_⟩
  · grind [h.owed_sent]
  · grind [h.released]
  · grind [h.owned]
  · rw [hretained]
    grind [h.retained, h.owed_sent]
  · rw [hretained, howners]
    exact h.owners
  · rw [hretired, howners]
    exact h.retired

/-- The copies do not move and the storage is the same. -/
theorem Owned.quiet (h : σ.Owned owed) (hids : σ'.ids = σ.ids) (hspares : Spares σ σ')
    (hstorage : σ'.storage = σ.storage) (hbacked : ∀ w, σ'.Backed (σ'.phase w)) :
    σ'.Owned owed := by
  refine h.congr hspares (fun _ _ => by rw [hstorage]) ?_ ?_ ?_ hbacked
  · intro c
    rw [Sent, Sent, hids]
  · intro c
    rw [Kept, Kept, hids]
    exact id
  · intro c _ _
    rw [Kept, Kept, hids]
    exact id

theorem Backed.mono (h : σ.Backed φ) (hstorage : ∀ c ∈ φ.staged, σ'.storage c = σ.storage c)
    (hlt : ∀ t r ids, φ = .launching t r ids → (σ.retained r).length < σ.owners r →
      (σ'.retained r).length < σ'.owners r) : σ'.Backed φ := by
  cases φ with
  | copying t c =>
    intro resources
    rw [hstorage c (mem_singleton_self c)]
    exact h resources
  | launching t resources ids =>
    refine ⟨hlt t resources ids rfl h.1, fun c hc => ?_⟩
    rw [hstorage c hc]
    exact h.2 c hc
  | _ => trivial

/-- An owner that is not a pending copy goes. -/
theorem Owned.drop [DecidableEq Resource] (h : σ.Owned owed)
    (hlt : (σ.retained resources).length < σ.owners resources)
    (hlaunching : (∃ w t ids, σ.phase w = .launching t resources ids) →
      (σ.retained resources).length + 1 < σ.owners resources) :
    (σ.dropOwner resources).Owned owed := by
  refine { h with owners := ?_, backed := ?_, retired_nodup := ?_, retired := ?_ }
  · refine (forall_update_iff σ.owners
      fun r n => (σ.retained r).length ≤ n).mpr ⟨?_, fun r _ => h.owners r⟩
    omega
  · refine fun w => (h.backed w).mono (fun _ _ => rfl) fun t r ids hφ hold => ?_
    rcases eq_or_ne r resources with rfl | hne
    · have := hlaunching ⟨w, t, ids, hφ⟩
      simp only [dropOwner, update_self]
      omega
    · simp only [dropOwner, update_of_ne hne]
      exact hold
  · simp only [dropOwner]
    split
    · refine h.retired_nodup.append (nodup_singleton _) fun r hr hr' => ?_
      obtain rfl := mem_singleton.mp hr'
      have := h.retired r hr
      omega
    · exact h.retired_nodup
  · intro r hr
    rcases eq_or_ne r resources with rfl | hne
    · simp only [dropOwner, update_self] at hr ⊢
      split at hr
      · omega
      · have := h.retired r hr
        omega
    · simp only [dropOwner, update_of_ne hne] at hr ⊢
      refine h.retired r ?_
      split at hr
      · exact (mem_append.mp hr).resolve_right (by simpa using hne)
      · exact hr

section Steps

variable [DecidableEq Worker]

theorem owed_update (σ : Pipeline Worker Stream Event Context Resource) (w : Worker)
    (φ : Phase Stream Event Context Resource) : (fun w' => (update σ.phase w φ w').owed) =
      update (fun w' => (σ.phase w').owed) w φ.owed :=
  comp_update owed σ.phase w φ

/-- A worker changes its phase. -/
theorem Owned.backed_update (h : σ.Owned owed) (hphase : σ'.phase = update σ.phase w φ)
    (hspares : Spares σ σ')
    (hstorage : ∀ w, ∀ c ∈ (σ.phase w).staged, σ'.storage c = σ.storage c) (hφ : σ'.Backed φ) :
    ∀ w, σ'.Backed (σ'.phase w) := by
  rw [hphase]
  refine (forall_update_iff σ.phase fun _ φ => σ'.Backed φ).mpr
    ⟨hφ, fun w' _ => (h.backed w').mono (hstorage w') fun _ _ _ _ hlt => ?_⟩
  rwa [hspares.retained, hspares.owners]

/-- The worker writes the bytes of the copies it holds, and then owes their storage. -/
theorem Owned.write {ids : List ℕ} (h : σ.Owned owed) (hs : σ.Sited) (hheld : σ.ids (.held w) = ids)
    (howed : owed w = []) (hm : Moves σ.ids σ'.ids (.flying w) ids)
    (hspares : Spares σ σ') (hstorage : σ'.storage = σ.storage)
    (hbacked : ∀ w, σ'.Backed (σ'.phase w)) : σ'.Owned (update owed w ids) := by
  have hsent : ∀ c, σ'.Sent c ↔ σ.Sent c ∨ c ∈ ids := fun c => hm.exists_mem_iff_or trivial
  have hkept : ∀ c, σ'.Kept c ↔ σ.Kept c ∧ c ∉ ids := fun c => hm.exists_mem_iff_and id
  have hids : ∀ c ∈ ids, σ.Kept c := fun c hc => ⟨.held w, trivial, hheld.symm ▸ hc⟩
  have howed' : ∀ c, (∃ w', c ∈ update owed w ids w') ↔
      c ∈ ids ∨ ∃ w', c ∈ owed w' := by
    intro c
    constructor
    · rintro ⟨w', hc⟩
      rcases eq_or_ne w' w with rfl | hne
      · exact .inl (by rwa [update_self] at hc)
      · exact .inr ⟨w', by rwa [update_of_ne hne] at hc⟩
    · rintro (hc | ⟨w', hc⟩)
      · exact ⟨w, by rwa [update_self]⟩
      · have hne : w' ≠ w := by
          rintro rfl
          simp [howed] at hc
        exact ⟨w', by rwa [update_of_ne hne]⟩
  refine ⟨?_, ?_, hspares.released ▸ h.released_nodup, ?_, ?_, hspares.retained ▸ h.retained_nodup,
    ?_, ?_, hbacked, hspares.retired ▸ h.retired_nodup, ?_⟩
  · refine h.owed_placed.move (.add (q := w) ?_ (fun w' hne => update_of_ne hne _ _)
      (hheld ▸ hs.placed.nodup (.held w)) fun c hc w' hc' => ?_)
    · rw [update_self, howed, nil_append]
    · exact (hids c hc).not_sent hs (h.owed_sent w' c hc')
  · grind [h.owed_sent]
  · have hnot : ∀ c ∈ ids, ¬σ.Sent c := fun c hc => (hids c hc).not_sent hs
    have hold := h.released
    rw [hspares.released, hstorage]
    simp only [forall_and, hsent] at hold ⊢
    grind
  · rw [hspares.released, hstorage]
    grind [h.owned]
  · intro resources c
    rw [hspares.retained, hstorage, h.retained, hkept, howed']
    tauto
  · rw [hspares.retained, hspares.owners]
    exact h.owners
  · rw [hspares.retired, hspares.owners]
    exact h.retired

/-- The worker settles what it owes for one copy. -/
theorem Owned.settle {rest released' : List ℕ} {retained' : Resource → List ℕ} (h : σ.Owned owed)
    (hs : σ.Sited) (howed : owed w = c :: rest) (hnodup : released'.Nodup)
    (hreleased : ∀ x, x ∈ released' ↔ x ∈ σ.released ∨ x = c ∧ σ.storage c = .owned)
    (hsub : ∀ resources, (retained' resources).Sublist (σ.retained resources))
    (hretained : ∀ resources x, x ∈ retained' resources ↔ x ∈ σ.retained resources ∧ x ≠ c) :
    { σ with released := released', retained := retained' }.Owned (update owed w rest) := by
  have hmem : c ∈ owed w := by simp [howed]
  have hrest : c ∉ rest ∧ ∀ x ∈ rest, x ∈ owed w := by
    have := h.owed_placed.nodup w
    rw [howed] at this ⊢
    exact ⟨(nodup_cons.mp this).1, fun x hx => mem_cons_of_mem _ hx⟩
  have howed' : ∀ x, (∃ w', x ∈ update owed w rest w') ↔
      (∃ w', x ∈ owed w') ∧ x ≠ c := by
    intro x
    constructor
    · rintro ⟨w', hx⟩
      rcases eq_or_ne w' w with rfl | hne
      · rw [update_self] at hx
        exact ⟨⟨w', hrest.2 x hx⟩, fun hxc => hrest.1 (hxc ▸ hx)⟩
      · rw [update_of_ne hne] at hx
        exact ⟨⟨w', hx⟩, fun hxc => hne (h.owed_placed.unique w' w c (hxc ▸ hx) hmem)⟩
    · rintro ⟨⟨w', hx⟩, hxc⟩
      rcases eq_or_ne w' w with rfl | hne
      · rw [howed] at hx
        exact ⟨w', by rw [update_self]; exact (mem_cons.mp hx).resolve_left hxc⟩
      · exact ⟨w', by rwa [update_of_ne hne]⟩
  have hlength : ∀ resources, (retained' resources).length ≤ (σ.retained resources).length :=
    fun resources => (hsub resources).length_le
  refine ⟨⟨?_, ?_⟩, ?_, hnodup, ?_, ?_, fun r => (h.retained_nodup r).sublist (hsub r), ?_,
    fun r => (hlength r).trans (h.owners r), ?_, h.retired_nodup, h.retired⟩
  · refine (forall_update_iff owed fun _ l => l.Nodup).mpr ⟨?_, fun w' _ => h.owed_placed.nodup w'⟩
    have := h.owed_placed.nodup w
    rw [howed] at this
    exact this.of_cons
  · have hold : ∀ {w' x}, x ∈ update owed w rest w' → x ∈ owed w' := by
      intro w' x hx
      rcases eq_or_ne w' w with rfl | hne
      · exact hrest.2 x (by rwa [update_self] at hx)
      · rwa [update_of_ne hne] at hx
    exact fun w₁ w₂ x h₁ h₂ => h.owed_placed.unique w₁ w₂ x (hold h₁) (hold h₂)
  · intro w' x hx
    obtain ⟨⟨w'', hx⟩, -⟩ := (howed' x).mp ⟨w', hx⟩
    exact h.owed_sent w'' x hx
  · intro x hx
    rcases (hreleased x).mp hx with hx | ⟨rfl, hown⟩
    · obtain ⟨hown, hsent, hnot⟩ := h.released x hx
      refine ⟨hown, hsent, fun w' hw' => ?_⟩
      obtain ⟨⟨w'', hw''⟩, -⟩ := (howed' x).mp ⟨w', hw'⟩
      exact hnot w'' hw''
    · exact ⟨hown, h.owed_sent w x hmem, fun w' hw' => ((howed' x).mp ⟨w', hw'⟩).2 rfl⟩
  · intro x hx hown
    by_cases hxc : x = c
    · exact .inl ((hreleased x).mpr (.inr ⟨hxc, hxc ▸ hown⟩))
    · rcases h.owned x hx hown with hx | hx
      · exact .inl ((hreleased x).mpr (.inl hx))
      · exact .inr ((howed' x).mpr ⟨hx, hxc⟩)
  · intro resources x
    -- the copy has been sent, so that only the worker accounted for it
    have hne : σ.Kept x → x ≠ c := by
      rintro hk rfl
      exact hk.not_sent hs (h.owed_sent w x hmem)
    have hkept : Kept { σ with released := released', retained := retained' } x ↔ σ.Kept x :=
      Iff.rfl
    rw [hretained, h.retained, howed', hkept]
    tauto
  · exact fun w' => (h.backed w').mono (fun _ _ => rfl) fun _ r _ _ => (hlength r).trans_lt

/-- A worker that holds and owes the same copies as before. -/
theorem Owned.of_phase (h : σ.Owned fun w => (σ.phase w).owed) (hs : σ.Sited)
    (ht : Turns σ σ' w old φ) (howed : φ.owed = old.owed) (hheld : φ.held = old.held)
    (hpending : σ'.registry.pending = σ.registry.pending) (hspares : Spares σ σ')
    (hstorage : ∀ c < σ.next, σ'.storage c = σ.storage c) (hφ : σ'.Backed φ) :
    σ'.Owned fun w => (σ'.phase w).owed := by
  have hlt : ∀ p, ∀ c ∈ σ.ids p, c < σ.next := fun p c hc => (hs.issued c).mp ⟨p, hc⟩
  have hids : ∀ p : Place Worker Stream, p.Kept ∨ p.Sent → σ'.ids p = σ.ids p := by
    intro p hp
    refine ht.ids_eq (fun hstaged => ?_) (fun _ => hheld) fun key _ => congrFun hpending key
    subst hstaged
    exact (hp.elim id id).elim
  rw [funext fun _ => ht.keeps owed fun _ => howed]
  refine h.congr hspares ?_ ?_ ?_ ?_ ?_
  · rintro c (⟨p, -, hc⟩ | ⟨p, -, hc⟩) <;> exact hstorage c (hlt p c hc)
  · exact fun c => exists_congr fun p => and_congr_right fun hp => by rw [hids p (.inr hp)]
  · rintro c ⟨p, hp, hc⟩
    exact ⟨p, hp, (hids p (.inl hp)).symm ▸ hc⟩
  · rintro c - - ⟨p, hp, hc⟩
    exact ⟨p, hp, hids p (.inl hp) ▸ hc⟩
  · exact h.backed_update ht.phase hspares (fun w' c hc => hstorage c (hlt (.staged w') c hc)) hφ

section

variable (h : σ.Owned fun w => (σ.phase w).owed) (hs : σ.Sited) (hstorage : σ'.storage = σ.storage)
include h hs hstorage

/-- What a worker detaches stays kept. -/
theorem Owned.detach {scope : Scope Stream Event Context Resource} {waits : Set ℕ}
    {taken : Option Stream → List ℕ} (htakes : σ.registry.Takes σ'.registry taken)
    (hturn : Turns σ σ' w (.returned scope waits) (.holding (σ.registry.keys.flatMap taken)))
    (hspares : Spares σ σ') : σ'.Owned fun w => (σ'.phase w).owed := by
  have hmem : ∀ c ∈ σ.registry.keys.flatMap taken, σ.Kept c := fun c hc => by
    obtain ⟨key, -, hc⟩ := mem_flatMap.mp hc
    exact ⟨.queued key, trivial, (htakes.taken_sublist key).subset hc⟩
  have hm := moves_detach hs htakes hturn
  rw [funext fun _ => hturn.keeps owed fun _ => rfl]
  refine h.congr hspares (fun _ _ => by rw [hstorage]) (fun c => ?_) (fun c hk => ?_)
    (fun c _ _ hk => ?_)
    (h.backed_update hturn.phase hspares (fun _ _ _ => by rw [hstorage]) trivial)
  · refine (hm.exists_mem_iff_and id).trans (and_iff_left_of_imp fun hsent hc => ?_)
    exact (hmem c hc).not_sent hs hsent
  · exact (hm.exists_mem_iff_or trivial).mpr (.inl hk)
  · exact ((hm.exists_mem_iff_or trivial).mp hk).elim id (hmem c)

variable {t : Target Stream Context} {key : Option Stream}

/-- The worker puts a copy that is not of a graph into the registry. -/
theorem Owned.register [DecidableEq Stream] (hturn : Turns σ σ' w (.copying t c) .idle)
    (hpending : σ'.registry.pending =
      update σ.registry.pending key (σ.registry.pending key ++ [c])) (hspares : Spares σ σ') :
    σ'.Owned fun w => (σ'.phase w).owed := by
  have hplain : σ.Backed (.copying t c) := hturn.old ▸ h.backed w
  have hm := moves_register hs hturn rfl hpending
  rw [funext fun _ => hturn.keeps owed fun _ => rfl]
  refine h.congr hspares (fun _ _ => by rw [hstorage]) (fun c' => ?_) (fun c' hk => ?_)
    (fun c' resources hgraph hk => ?_)
    (h.backed_update hturn.phase hspares (fun _ _ _ => by rw [hstorage]) trivial)
  · refine (hm.exists_mem_iff_and id).trans (and_iff_left_of_imp ?_)
    rintro ⟨p, hp, hc⟩ hnew
    obtain rfl := hs.placed.unique p (.staged w) c' hc hnew
    exact hp
  · exact (hm.exists_mem_iff_or trivial).mpr (.inl hk)
  · refine ((hm.exists_mem_iff_or trivial).mp hk).resolve_right fun hc => ?_
    simp only [ids, hturn.old, staged, mem_singleton] at hc
    rw [hstorage, hc] at hgraph
    exact hplain resources hgraph

/-- The copies of a launch become owners of the resources of the graph. -/
theorem Owned.noteLaunch [DecidableEq Resource] [DecidableEq Stream] {ids : List ℕ}
    (hturn : Turns σ σ' w (.launching t resources ids) .idle)
    (hpending : σ'.registry.pending =
      update σ.registry.pending key (σ.registry.pending key ++ ids))
    (hreleased : σ'.released = σ.released)
    (howners : σ'.owners = update σ.owners resources (σ.owners resources + ids.length))
    (hretained : σ'.retained = update σ.retained resources (σ.retained resources ++ ids))
    (hretired : σ'.retired = σ.retired) : σ'.Owned fun w => (σ'.phase w).owed := by
  rw [funext fun _ => hturn.keeps owed fun _ => rfl]
  obtain ⟨hlt, hgraph⟩ : σ.Backed (.launching t resources ids) := hturn.old ▸ h.backed w
  have hstaged : σ.ids (.staged w) = ids := by
    simp only [Pipeline.ids, hturn.old]
    rfl
  have hm := moves_register hs hturn rfl hpending
  rw [hstaged] at hm
  have hsent : ∀ c, σ'.Sent c ↔ σ.Sent c := fun c => by
    refine (hm.exists_mem_iff_and id).trans (and_iff_left_of_imp ?_)
    rintro ⟨p, hp, hc⟩ hnew
    obtain rfl := hs.placed.unique p (.staged w) c hc (hstaged.symm ▸ hnew)
    exact hp
  have hkept : ∀ c, σ'.Kept c ↔ σ.Kept c ∨ c ∈ ids := fun c => hm.exists_mem_iff_or trivial
  -- what is retained has left its worker
  have hfresh : ∀ c ∈ ids, c ∉ σ.retained resources := by
    intro c hc hold
    have hplace : ∃ p : Place Worker Stream, (p.Kept ∨ p.Sent) ∧ c ∈ σ.ids p := by
      rcases ((h.retained resources c).mp hold).2 with ⟨p, hp, hc⟩ | ⟨w', hc⟩
      · exact ⟨p, .inl hp, hc⟩
      · obtain ⟨p, hp, hc⟩ := h.owed_sent w' c hc
        exact ⟨p, .inr hp, hc⟩
    obtain ⟨p, hp, hc'⟩ := hplace
    obtain rfl := hs.placed.unique p (.staged w) c hc' (hstaged.symm ▸ hc)
    exact hp.elim id id
  refine ⟨h.owed_placed, fun w' c hc => (hsent c).mpr (h.owed_sent w' c hc),
    hreleased ▸ h.released_nodup, ?_, ?_, ?_, ?_, ?_, ?_, hretired ▸ h.retired_nodup, ?_⟩
  · intro c hc
    rw [hstorage, hsent]
    exact h.released c (hreleased ▸ hc)
  · intro c
    rw [hstorage, hsent, hreleased]
    exact h.owned c
  · rw [hretained]
    refine (forall_update_iff σ.retained fun _ l => l.Nodup).mpr
      ⟨(h.retained_nodup resources).append ?_ fun c hc hc' => hfresh c hc' hc,
        fun r _ => h.retained_nodup r⟩
    exact hstaged ▸ hs.placed.nodup (.staged w)
  · intro r c
    rw [hretained, hstorage, hkept]
    rcases eq_or_ne r resources with rfl | hne
    · rw [update_self, mem_append, h.retained]
      tauto
    · rw [update_of_ne hne, h.retained]
      have : σ.storage c = .graph r → c ∉ ids := fun hr hc => by
        rw [hgraph c hc] at hr
        exact hne (Storage.graph.inj hr).symm
      tauto
  · intro r
    rw [hretained, howners]
    rcases eq_or_ne r resources with rfl | hne
    · simp only [update_self, length_append]
      omega
    · simp only [update_of_ne hne]
      exact h.owners r
  · rw [hturn.phase]
    refine (forall_update_iff σ.phase fun _ φ => σ'.Backed φ).mpr ⟨trivial, fun w' _ => ?_⟩
    refine (h.backed w').mono (fun _ _ => by rw [hstorage]) fun _ r _ _ hold => ?_
    rw [hretained, howners]
    rcases eq_or_ne r resources with rfl | hne
    · simp only [update_self, length_append]
      omega
    · simpa only [update_of_ne hne]
  · intro r hr
    rw [hretired] at hr
    have hzero := h.retired r hr
    rw [howners]
    rcases eq_or_ne r resources with rfl | hne
    · omega
    · rwa [update_of_ne hne]

end

variable [DecidableEq Resource]

theorem Owned.releaseCopy {rest : List ℕ} (h : σ.Owned owed) (hs : σ.Sited)
    (howed : owed w = c :: rest) : (σ.releaseCopy c).Owned (update owed w rest) := by
  have hmem : c ∈ owed w := by simp [howed]
  have hnot : c ∉ σ.released := fun hc => (h.released c hc).2.2 w hmem
  -- a copy that has storage of its own owns no resources
  have hretained : (∀ resources, σ.storage c ≠ .graph resources) → ∀ resources x,
      x ∈ σ.retained resources ↔ x ∈ σ.retained resources ∧ x ≠ c := by
    refine fun hgraph resources x => (and_iff_left_of_imp ?_).symm
    rintro hx rfl
    exact hgraph resources ((h.retained resources x).mp hx).1
  cases hstorage : σ.storage c with
  | owned =>
    simp only [Pipeline.releaseCopy, hstorage]
    refine h.settle hs howed ?_ ?_ (fun _ => .refl _) (hretained (by simp [hstorage]))
    · exact h.released_nodup.append (nodup_singleton c) (by simpa using hnot)
    · simp [hstorage]
  | borrowed =>
    simp only [Pipeline.releaseCopy, hstorage]
    exact h.settle hs howed h.released_nodup (by simp [hstorage]) (fun _ => .refl _)
      (hretained (by simp [hstorage]))
  | graph resources =>
    simp only [Pipeline.releaseCopy, hstorage]
    have hc : c ∈ σ.retained resources := (h.retained resources c).mpr ⟨hstorage, .inr ⟨w, hmem⟩⟩
    have hlength := length_erase_add_one hc
    have howners := h.owners resources
    have hsettled : Owned
        { σ with
          retained := update σ.retained resources ((σ.retained resources).erase c) }
        (update owed w rest) :=
      h.settle hs howed h.released_nodup (by simp [hstorage]) ?_ ?_
    · refine hsettled.drop ?_ ?_
      · simp only [update_self]
        omega
      · rintro ⟨w', t, ids, hphase⟩
        have hlt : (σ.retained resources).length < σ.owners resources := by
          have hold := h.backed w'
          rw [hphase] at hold
          exact hold.1
        simp only [update_self]
        omega
    · exact (forall_update_iff σ.retained
        fun r l => l.Sublist (σ.retained r)).mpr ⟨erase_sublist, fun r _ => .refl _⟩
    · intro r x
      rcases eq_or_ne r resources with rfl | hne
      · rw [update_self, (h.retained_nodup r).mem_erase_iff, and_comm]
      · rw [update_of_ne hne]
        refine (and_iff_left_of_imp ?_).symm
        rintro hx rfl
        have := ((h.retained r x).mp hx).1
        rw [hstorage] at this
        exact hne (Storage.graph.inj this).symm

/-- The worker releases what it owes. -/
theorem Owned.cleanup {l : List ℕ} (h : σ.Owned owed) (hs : σ.Sited) (howed : owed w = l) :
    (l.foldl Pipeline.releaseCopy σ).Owned (update owed w []) := by
  induction l generalizing σ owed with
  | nil =>
    have : update owed w [] = owed := by rw [← howed, update_eq_self]
    rw [this]
    exact h
  | cons c l ih =>
    have hs' : (σ.releaseCopy c).Sited := by
      obtain ⟨released, owners, retained, retired, hframe⟩ := foldl_releaseCopy_frame (σ := σ) [c]
      rw [foldl_cons, foldl_nil] at hframe
      rw [hframe]
      exact { hs with }
    have := ih (h.releaseCopy hs howed) hs' (update_self _ _ _)
    rwa [update_idem] at this

variable [DecidableEq Stream] [DecidableEq Event] [DecidableEq Context]

theorem Owned.step (h : σ.Owned fun w => (σ.phase w).owed) (hs : σ.Sited)
    (hlaunch : ∀ resources, (σ.lastLaunch resources).length ≤ G.copies resources)
    (htimely : σ.Timely D G a) (hstep : Step D G σ a σ') :
    σ'.Owned fun w => (σ'.phase w).owed := by
  cases hstep with
  | @enqueue w t pinned hidle =>
    refine h.of_phase hs ⟨hidle, rfl, rfl, rfl⟩ rfl rfl rfl ⟨rfl, rfl, rfl, rfl⟩
      (fun c hc => update_of_ne (by omega) _ _) fun resources => ?_
    split <;> simp
  | @register w t c hphase =>
    exact h.register hs rfl ⟨hphase, rfl, rfl, rfl⟩ (pending_push _ _) ⟨rfl, rfl, rfl, rfl⟩
  | @launch w x t resources hidle hres hlt =>
    refine h.of_phase hs ⟨hidle, rfl, rfl, rfl⟩ rfl rfl rfl ⟨rfl, rfl, rfl, rfl⟩
      (fun c hc => if_neg ?_) ⟨hlt, fun c hc => if_pos hc⟩
    rw [mem_range'_1]
    omega
  | launchPlain | execute => exact h.quiet rfl ⟨rfl, rfl, rfl, rfl⟩ rfl h.backed
  | @noteLaunch w t resources ids hphase =>
    exact h.noteLaunch hs rfl ⟨hphase, rfl, rfl, rfl⟩ (pending_noteGraphLaunch _ _ _ _) rfl rfl
      rfl rfl
  | record hphase | call hphase | streamCallback hphase | graphHostNode hphase | resume hphase =>
    exact h.of_phase hs ⟨hphase, rfl, rfl, rfl⟩ rfl rfl rfl ⟨rfl, rfl, rfl, rfl⟩ (fun _ _ => rfl)
      trivial
  | noteRecord hphase =>
    exact h.of_phase hs ⟨hphase, rfl, rfl, rfl⟩ rfl rfl pending_noteEventRecord
      ⟨rfl, rfl, rfl, rfl⟩ (fun _ _ => rfl) trivial
  | @waitEvent w t e hidle =>
    exact h.of_phase hs ⟨hidle, phase_eq_update hidle, rfl, rfl⟩ rfl rfl pending_waitEventResources
      ⟨rfl, rfl, rfl, rfl⟩ (fun _ _ => rfl) trivial
  | hostFunction hphase =>
    exact h.of_phase hs ⟨hphase, rfl, rfl, rfl⟩ rfl rfl pending_getStreamResources
      ⟨rfl, rfl, rfl, rfl⟩ (fun _ _ => rfl) trivial
  | @detach w scope waits hphase =>
    obtain ⟨taken, htakes, htaken⟩ :=
      takes_detached (D := D) scope (htimely.snapshot hphase hlaunch)
    rw [htaken]
    exact h.detach hs rfl htakes ⟨hphase, rfl, rfl, rfl⟩ ⟨rfl, rfl, rfl, rfl⟩
  | @write w copies hphase =>
    have hheld : σ.ids (.held w) = copies := by
      simp only [ids, hphase]
      rfl
    have hm := moves_write hs hphase
    rw [hheld] at hm
    rw [owed_update]
    exact h.write hs hheld (by rw [hphase]; rfl) hm ⟨rfl, rfl, rfl, rfl⟩ rfl
      (h.backed_update rfl ⟨rfl, rfl, rfl, rfl⟩ (fun _ _ _ => rfl) trivial)
  | @receive w =>
    have hm := moves_receive hs w
    refine h.congr ⟨rfl, rfl, rfl, rfl⟩ (fun _ _ => rfl) (fun c => ?_) (fun c hk => ?_)
      (fun c _ _ hk => ?_) h.backed
    · exact (hm.exists_mem_iff_or trivial).trans
        (or_iff_left_of_imp fun hc => ⟨.flying w, trivial, hc⟩)
    · refine (hm.exists_mem_iff_and id).mpr ⟨hk, fun hc => ?_⟩
      exact hk.not_sent hs ⟨.flying w, trivial, hc⟩
    · exact ((hm.exists_mem_iff_and id).mp hk).1
  | @cleanup w l hphase =>
    have hclean := h.cleanup hs (w := w) (l := l) (by rw [hphase]; rfl)
    rw [owed_update]
    obtain ⟨released, owners, retained, retired, hframe⟩ := foldl_releaseCopy_frame (σ := σ) l
    rw [hframe] at hclean ⊢
    exact hclean.quiet (ids_update hphase rfl rfl) ⟨rfl, rfl, rfl, rfl⟩ rfl
      (hclean.backed_update rfl ⟨rfl, rfl, rfl, rfl⟩ (fun _ _ _ => rfl) trivial)
  | drop hlt hlaunching => exact h.drop hlt hlaunching

end Steps

/-! ## Runs -/

section Runs

/-- What holds in every state of a timely run. -/
structure Invariant (G : Graphs Exec Resource)
    (σ : Pipeline Worker Stream Event Context Resource) : Prop where
  sited : σ.Sited
  early : σ.Early
  ordered : σ.Ordered
  lastLaunch : ∀ resources, (σ.lastLaunch resources).length ≤ G.copies resources
  owned : σ.Owned fun w => (σ.phase w).owed

theorem invariant_init (G : Graphs Exec Resource) (owners : Resource → ℕ) :
    Invariant G (init owners : Pipeline Worker Stream Event Context Resource) := by
  have hids : ∀ p, (init owners : Pipeline Worker Stream Event Context Resource).ids p = [] := by
    intro p
    cases p <;> rfl
  have hno : ∀ {p c}, c ∈ (init owners : Pipeline Worker Stream Event Context Resource).ids p →
      False := fun {p c} hc => by simp [hids] at hc
  constructor
  · refine ⟨⟨fun p => by simp [hids], fun p q c hc => (hno hc).elim⟩, fun c => ?_,
      indexed_empty, fun w c hc => (hno (p := .staged w) hc).elim,
      fun key c hc => (hno (p := .queued key) hc).elim, fun w _ => rfl⟩
    exact ⟨fun ⟨p, hc⟩ => (hno hc).elim, fun hc => absurd hc (Nat.not_lt_zero c)⟩
  · exact ⟨fun p _ c hc => (hno hc).elim, fun w scope waits h => by cases h⟩
  · exact ⟨fun p => by simp [hids], fun p p' c c' hc => (hno hc).elim⟩
  · exact fun resources => Nat.zero_le _
  · refine ⟨⟨fun w => nodup_nil, fun w w' c hc => absurd hc not_mem_nil⟩,
      fun w c hc => absurd hc not_mem_nil, nodup_nil,
      fun c hc => absurd hc not_mem_nil, fun c ⟨p, _, hc⟩ => (hno hc).elim,
      fun r => nodup_nil, fun r c => ⟨fun hc => absurd hc not_mem_nil, ?_⟩,
      fun r => Nat.zero_le _, fun w => trivial, nodup_nil,
      fun r hr => absurd hr not_mem_nil⟩
    rintro ⟨h, -⟩
    cases h

/-- The staging memory of a graph is not given up before the bytes of its copies were written. -/
theorem Invariant.sent_of_retired (h : σ.Invariant G) (hretired : resources ∈ σ.retired)
    (hc : c < σ.next) (hgraph : σ.storage c = .graph resources) : σ.Sent c := by
  have hzero := h.owned.retired resources hretired
  obtain ⟨p, hp⟩ := (h.sited.issued c).mpr hc
  have hkept : ¬ σ.Kept c := fun hk => by
    have := length_pos_of_mem ((h.owned.retained resources c).mpr ⟨hgraph, .inl hk⟩)
    have := h.owned.owners resources
    omega
  cases p with
  | staged w =>
    have hbacked := h.owned.backed w
    cases hφ : σ.phase w with
    | copying t id =>
      simp only [ids, hφ, staged, mem_singleton] at hp
      rw [hφ] at hbacked
      exact absurd (hp ▸ hgraph) (hbacked resources)
    | launching t r copies =>
      simp only [ids, hφ, staged] at hp
      rw [hφ] at hbacked
      have hr := hbacked.2 c hp
      rw [hgraph] at hr
      cases hr
      have := hbacked.1
      omega
    | _ => simp [ids, hφ, staged] at hp
  | queued key => exact absurd ⟨.queued key, trivial, hp⟩ hkept
  | held w => exact absurd ⟨.held w, trivial, hp⟩ hkept
  | flying w => exact ⟨.flying w, trivial, hp⟩
  | delivered => exact ⟨.delivered, trivial, hp⟩

variable [DecidableEq Worker] [DecidableEq Stream] [DecidableEq Event] [DecidableEq Context]
  [DecidableEq Resource]

theorem Invariant.step (h : σ.Invariant G) (htimely : σ.Timely D G a)
    (hstep : Step D G σ a σ') : σ'.Invariant G := by
  have heffect := hstep.effect h.sited h.early h.lastLaunch htimely
  exact ⟨h.sited.step heffect hstep, h.early.step heffect hstep,
    heffect.ordered h.sited h.ordered, hstep.lastLaunch h.lastLaunch,
    h.owned.step h.sited h.lastLaunch htimely hstep⟩

/-- **Deferred copies are delivered once and in time.** In every state of a timely run: what has
been detached has been executed; every issued copy is in one place, and was delivered once at most;
the copies of a stream were applied in its order; and storage was released once, after its bytes
were written, as the staging memory of a graph was after those of all its copies. -/
theorem delivered_in_order {owners : Resource → ℕ}
    {as : List (Action Worker Stream Event Context Resource Exec)}
    (hrun : Trace (fun σ a σ' => σ.Timely D G a ∧ Step D G σ a σ') (init owners) as σ) :
    (∀ p : Place Worker Stream, p.Out → ∀ c ∈ σ.ids p, c ∈ σ.executed) ∧
    (∀ c < σ.next, ∃! p, c ∈ σ.ids p) ∧ σ.delivered.Nodup ∧
    σ.delivered.Pairwise (fun c c' => σ.home c = σ.home c' → c < c') ∧
    σ.released.Nodup ∧ (∀ c ∈ σ.released, σ.Sent c) ∧
    (∀ c, σ.Sent c → σ.storage c = .owned → c ∈ σ.released ∨ ∃ w, c ∈ (σ.phase w).owed) ∧
    σ.retired.Nodup ∧
    ∀ resources ∈ σ.retired, ∀ c < σ.next, σ.storage c = .graph resources → σ.Sent c := by
  have h : σ.Invariant G :=
    hrun.invariant (fun _ _ _ h hstep => h.step hstep.1 hstep.2) (invariant_init G owners)
  refine ⟨h.early.out, fun c hc => ?_, h.sited.placed.nodup .delivered, h.ordered.sorted .delivered,
    h.owned.released_nodup, fun c hc => (h.owned.released c hc).2.1, h.owned.owned,
    h.owned.retired_nodup, fun resources hr c hc => h.sent_of_retired hr hc⟩
  obtain ⟨p, hp⟩ := (h.sited.issued c).mpr hc
  exact ⟨p, hp, fun q hq => h.sited.placed.unique q p c hq hp⟩

end Runs

/-! ## Runs of two workers on one stream -/

/-- One non-blocking stream. -/
def oneStream : Driver Unit Unit := ⟨fun _ => (), fun _ => .nonBlocking⟩

/-- A graph with one copy, and resources without any. -/
def copyGraph : Graphs Unit Bool := ⟨fun _ => some true, fun resources => resources.toNat⟩

/-- One worker copies and synchronizes. -/
def copyAndSynchronize : List (Action Bool Unit Unit Unit Bool Unit) :=
  [.enqueue false (.stream ()) false, .register false, .execute 0,
    .call false (.stream (.stream ())), .resume false, .detach false, .write false,
    .receive false, .cleanup false]

theorem delivered_in_order_of_one_copy :
    ∃ σ : Pipeline Bool Unit Unit Unit Bool,
      Trace (fun σ a σ' => σ.Timely oneStream copyGraph a ∧ Step oneStream copyGraph σ a σ')
        (init fun _ => 1) copyAndSynchronize σ ∧
      σ.delivered = [0] ∧ σ.released = [0] ∧ σ.delivered.Nodup ∧ σ.released.Nodup := by
  have hrun : ∃ σ : Pipeline Bool Unit Unit Unit Bool,
      Trace (fun σ a σ' => σ.Timely oneStream copyGraph a ∧ Step oneStream copyGraph σ a σ')
        (init fun _ => 1) copyAndSynchronize σ ∧ σ.delivered = [0] ∧ σ.released = [0] := by
    refine ⟨_, .cons ⟨trivial, .enqueue rfl⟩ <| .cons ⟨?_, .register rfl⟩ <|
      .cons ⟨trivial, .execute (by decide) (by decide)⟩ <| .cons ⟨trivial, .call rfl rfl rfl⟩ <|
      .cons ⟨trivial, .resume rfl ?_⟩ <| .cons ⟨?_, .detach rfl⟩ <| .cons ⟨trivial, .write rfl⟩ <|
      .cons ⟨trivial, .receive⟩ <| .cons ⟨trivial, .cleanup rfl⟩ <| .nil _, rfl, rfl⟩
    · intro c _ w' hne c' hc'
      cases w' with
      | false => exact absurd rfl hne
      | true => exact absurd hc' not_mem_nil
    · rintro c ((hc | ⟨-, hc⟩) | rfl)
      · exact hc.elim
      · exact hc.elim
      · exact mem_singleton_self _
    · rintro scope waits ⟨⟩
      refine ⟨fun resources h => (nomatch h), ?_⟩
      rintro c ⟨key, ctx, g, hi, -⟩
      cases key with
      | none => exact absurd hi not_mem_nil
      | some s =>
        have hi' : (.copy c ctx g : Item Unit Unit Bool) ∈ [.copy 0 () none] := hi
        have hc : c = 0 := (Item.copy.inj (mem_singleton.mp hi')).1
        exact ⟨.inr hc, fun c' hlt => absurd (hc.le.trans_lt' hlt) (Nat.not_lt_zero c')⟩
  obtain ⟨σ, hrun, hdelivered, hreleased⟩ := hrun
  obtain ⟨-, -, hnodup, -, hreleased', -⟩ := delivered_in_order hrun
  exact ⟨σ, hrun, hdelivered, hreleased, hnodup, hreleased'⟩

/-- Without the condition on the steps, a copy can be detached before it was executed, delivered
twice, or applied after a later one of its stream. -/
theorem delivered_out_of_order :
    (∃ (as : List (Action Bool Unit Unit Unit Bool Unit)) (σ : Pipeline Bool Unit Unit Unit Bool),
      Trace (Step oneStream copyGraph) (init fun _ => 1) as σ ∧
      0 ∈ (σ.phase true).held ∧ 0 ∉ σ.executed) ∧
    (∃ (as : List (Action Bool Unit Unit Unit Bool Unit)) (σ : Pipeline Bool Unit Unit Unit Bool),
      Trace (Step oneStream copyGraph) (init fun _ => 1) as σ ∧ σ.delivered = [0, 0]) ∧
    (∃ (as : List (Action Bool Unit Unit Unit Bool Unit)) (σ : Pipeline Bool Unit Unit Unit Bool),
      Trace (Step oneStream copyGraph) (init fun _ => 1) as σ ∧
      σ.delivered = [1, 0] ∧ σ.home 0 = σ.home 1) := by
  refine ⟨?_, ?_, ?_⟩
  · -- a callback takes a copy that was enqueued after it and has not been executed
    refine ⟨[.streamCallback true (.stream ()), .enqueue false (.stream ()) false,
      .register false, .resume true, .detach true], _, .cons (.streamCallback rfl rfl) <|
      .cons (.enqueue rfl) <| .cons (.register rfl) <| .cons (.resume rfl ?_) <|
      .cons (.detach rfl) <| .nil _, by decide, by decide⟩
    rintro c (hc | ⟨-, hc⟩) <;> exact hc.elim
  · -- a host function sends the staging memory of the last graph of its stream again
    refine ⟨[.launch false () (.stream ()), .noteLaunch false, .execute 0,
      .call false (.stream (.stream ())), .resume false, .detach false, .write false,
      .receive false, .cleanup false, .hostFunction true (.stream ()) false, .resume true,
      .detach true, .write true, .receive true], _,
      .cons (.launch rfl rfl (by decide)) <| .cons (.noteLaunch rfl) <|
      .cons (.execute (by decide) (by decide)) <| .cons (.call rfl rfl rfl) <|
      .cons (.resume rfl ?_) <| .cons (.detach rfl) <| .cons (.write rfl) <| .cons .receive <|
      .cons (.cleanup rfl) <| .cons (.hostFunction rfl rfl rfl) <| .cons (.resume rfl ?_) <|
      .cons (.detach rfl) <| .cons (.write rfl) <| .cons .receive <| .nil _, by decide⟩
    · rintro c ((hc | ⟨-, hc⟩) | hc)
      · exact hc.elim
      · exact hc.elim
      · exact hc
    · rintro c (((hc | ⟨-, hc⟩) | hc) | ⟨-, hc⟩)
      · exact hc.elim
      · exact hc.elim
      · exact hc
      · exact hc.elim
  · -- what a second worker detaches is applied before what the first holds
    refine ⟨[.enqueue false (.stream ()) false, .register false, .execute 0,
      .call false (.stream (.stream ())), .resume false, .detach false,
      .enqueue true (.stream ()) false, .register true, .execute 1,
      .call true (.stream (.stream ())), .resume true, .detach true, .write true, .receive true,
      .write false, .receive false], _, .cons (.enqueue rfl) <| .cons (.register rfl) <|
      .cons (.execute (by decide) (by decide)) <| .cons (.call rfl rfl rfl) <|
      .cons (.resume rfl ?_) <| .cons (.detach rfl) <| .cons (.enqueue rfl) <|
      .cons (.register rfl) <| .cons (.execute (by decide) (by decide)) <|
      .cons (.call rfl rfl rfl) <| .cons (.resume rfl ?_) <| .cons (.detach rfl) <|
      .cons (.write rfl) <| .cons .receive <| .cons (.write rfl) <| .cons .receive <| .nil _,
      by decide, by decide⟩
    · rintro c ((hc | ⟨-, hc⟩) | rfl)
      · exact hc.elim
      · exact hc.elim
      · decide
    · rintro c ((((hc | ⟨-, hc⟩) | rfl) | ⟨-, hc⟩) | rfl)
      · exact hc.elim
      · exact hc.elim
      · decide
      · exact hc.elim
      · decide

end Pipeline

end Lupine.Deferred
