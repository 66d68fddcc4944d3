import Lupine.Foundations.Execution
import Lupine.Foundations.References
import Lupine.Graphs.Resources

/-!
# Owners of graph resources

The owner count of graph resources is the number of entries, undelivered copies and links that
refer to them. Resources that have lost their last owner have no staging and no link; all others
have the staging that was added to them.

* `Stocked`: every staging block is in one place, once.
* `Core` is the invariant of the references and `Launched` that of the copies of launches.
* `Core` has one rule for each operation on references: `Core.retain`, `Core.move`, `Core.drop`,
  `Core.expire`, `Core.addCopy` and `Core.retire`.
-/

namespace Lupine.Graphs.Server

open Foundations Function Nat List

variable {s : Server} {o : ℕ}

/-! ## What is kept -/

/-- A stream or an event takes part in the capture of the resources. -/
def Capturing (s : Server) (o : ℕ) : Prop :=
  ∃ k, s.activeStreams k = some o ∨ s.activeEvents k = some o

/-- All staging that was added to the resources is there. -/
def Whole (s : Server) (o : ℕ) : Prop :=
  ∀ b < s.allocated, s.home b = o → b ∈ (s.resources o).staging

/-- The last owner has gone. -/
def Expired (s : Server) (o : ℕ) : Prop :=
  (s.resources o).owned = true ∧ (s.resources o).owners = 0

instance (s : Server) (o : ℕ) : Decidable (s.Expired o) := inferInstanceAs (Decidable (_ ∧ _))

/-- The staging that is retired or freed. -/
def gone (s : Server) : List ℕ := s.retired ++ s.freed

/-- Every staging block is in one place, once. -/
structure Stocked (s : Server) : Prop where
  home : ∀ o, ∀ b ∈ (s.resources o).staging, b < s.allocated ∧ s.home b = o
  gone_lt : ∀ b ∈ s.gone, b < s.allocated
  kept_iff : ∀ b < s.allocated, b ∈ (s.resources (s.home b)).staging ↔ b ∉ s.gone
  nodup : ∀ o, (s.resources o).staging.Nodup
  once : s.gone.Nodup

/-- The references and the resources they refer to. -/
structure Core (s : Server) : Prop where
  counts : ∀ o, HeldBy s.refs o (s.resources o).owners
  created : ∀ k o, s.refs k = some o → o < s.next
  owned : ∀ k o, s.refs k = some o → (s.resources o).owned = true
  expired : ∀ o, s.Expired o → s.refs (.earlier o) = none ∧ (s.resources o).staging = []
  whole : ∀ o, (s.resources o).owned = true → 0 < (s.resources o).owners → s.Whole o
  unused : ∀ o, s.next ≤ o → (s.resources o).owned = false ∧ s.refs (.earlier o) = none
  homes : ∀ b < s.allocated, s.home b < s.next
  entries : ∀ k o, s.streams k = some o ∨ s.events k = some o → o < s.next
  capturing : ∀ o, s.Capturing o →
    o < s.next ∧ (s.resources o).owned = false ∧ s.refs (.earlier o) = none ∧ s.Whole o
  stocked : s.Stocked
  /-- Links lead to resources that had an owner earlier. -/
  ranked : ∃ rank : ℕ → ℕ, ∀ o e, s.refs (.earlier o) = some e → rank e < rank o

/-- The staging is that of the resources or of their earlier ones. -/
inductive InChain (s : Server) : ℕ → ℕ → Prop
  | here {o b : ℕ} : b ∈ (s.resources o).staging → InChain s o b
  | link {o e b : ℕ} : s.refs (.earlier o) = some e → InChain s e b → InChain s o b

/-- The copies of launches. -/
structure Launched (s : Server) : Prop where
  fresh : ∀ c, s.launches ≤ c → s.refs (.launch c) = none
  undelivered : ∀ c o, s.refs (.launch c) = some o → s.InChain o (s.stagingOf c)

/-- The invariant between two steps. -/
structure Settled (s : Server) : Prop where
  core : s.Core
  launched : s.Launched
  hand : s.refs .hand = none

/-- Staging stays in the chain of resources when no resources that they lead to lose any. -/
theorem InChain.transfer {t : Server} {P : ℕ → Prop} {b : ℕ} (h : s.InChain o b) (ho : P o)
    (hstaging : ∀ x, P x → ∀ b ∈ (s.resources x).staging, b ∈ (t.resources x).staging)
    (hlink : ∀ x e, P x → s.refs (.earlier x) = some e → t.refs (.earlier x) = some e ∧ P e) :
    t.InChain o b := by
  induction h with
  | here hb => exact .here (hstaging _ ho _ hb)
  | link he _ ih =>
    obtain ⟨he', hP⟩ := hlink _ _ ho he
    exact .link he' (ih hP)

theorem InChain.lt_allocated {b : ℕ} (h : s.InChain o b) (hs : s.Stocked) :
    b < s.allocated ∧ b ∉ s.gone := by
  induction h with
  | here hb =>
    obtain ⟨hlt, hhome⟩ := hs.home _ _ hb
    exact ⟨hlt, (hs.kept_iff _ hlt).mp (hhome ▸ hb)⟩
  | link _ _ ih => exact ih

namespace Stocked

/-- Only the staging, its homes and the lists of retired and freed staging matter. -/
theorem congr {t : Server} (h : s.Stocked)
    (hstaging : ∀ o, (t.resources o).staging = (s.resources o).staging)
    (hallocated : t.allocated = s.allocated) (hhome : t.home = s.home) (hgone : t.gone = s.gone) :
    t.Stocked where
  home := by simpa only [hstaging, hallocated, hhome] using h.home
  gone_lt := by simpa only [hgone, hallocated] using h.gone_lt
  kept_iff := by simpa only [hstaging, hallocated, hhome, hgone] using h.kept_iff
  nodup := by simpa only [hstaging] using h.nodup
  once := hgone ▸ h.once

theorem retire (h : s.Stocked) (o : ℕ) : (s.retire o).Stocked := by
  have hgone : (s.retire o).gone = (s.resources o).staging ++ s.gone := by
    simp [gone, Server.retire]
  have hkept : ∀ b ∈ (s.resources o).staging, b ∉ s.gone := by
    intro b hb
    obtain ⟨hlt, hhome⟩ := h.home o b hb
    exact (h.kept_iff b hlt).mp (hhome ▸ hb)
  constructor
  case home =>
    intro x b hb
    rw [retire_staging] at hb
    split_ifs at hb
    · simp at hb
    · exact h.home x b hb
  case gone_lt =>
    intro b hb
    rw [hgone, mem_append] at hb
    rcases hb with hb | hb
    · exact (h.home o b hb).1
    · exact h.gone_lt b hb
  case kept_iff =>
    intro b hb
    change b ∈ ((s.retire o).resources (s.home b)).staging ↔ _
    rw [retire_staging, hgone, mem_append]
    split_ifs with hx
    · have hin := h.kept_iff b hb
      rw [hx] at hin
      simp only [not_mem_nil, false_iff, not_not]
      by_cases hmem : b ∈ (s.resources o).staging
      · exact .inl hmem
      · exact .inr (not_not.mp (mt hin.mpr hmem))
    · have hnot : b ∉ (s.resources o).staging := fun hmem => hx (h.home o b hmem).2
      rw [h.kept_iff b hb]
      simp [hnot]
  case nodup =>
    intro x
    rw [retire_staging]
    split_ifs
    · exact nodup_nil
    · exact h.nodup x
  case once =>
    rw [hgone, nodup_append]
    refine ⟨h.nodup o, h.once, ?_⟩
    rintro b hb c hc rfl
    exact hkept b hb hc

theorem addCopy (h : s.Stocked) (o : ℕ) : (s.addCopy o).Stocked := by
  have hold : ∀ b < s.allocated, (s.addCopy o).home b = s.home b := fun b hb =>
    update_of_ne (Nat.ne_of_lt hb) _ _
  have hnew : (s.addCopy o).home s.allocated = o := update_self ..
  have hfresh : s.allocated ∉ s.gone := fun hb => lt_irrefl _ (h.gone_lt _ hb)
  constructor
  case home =>
    intro x b hb
    have hcases : (b = s.allocated ∧ x = o) ∨ b ∈ (s.resources x).staging := by
      rw [addCopy_staging] at hb
      split_ifs at hb with hx
      · rcases mem_cons.mp hb with rfl | hb
        · exact .inl ⟨rfl, hx⟩
        · exact .inr hb
      · exact .inr hb
    rcases hcases with ⟨rfl, rfl⟩ | hb
    · exact ⟨lt_succ_self _, hnew⟩
    · obtain ⟨hlt, hhome⟩ := h.home x b hb
      exact ⟨lt_succ_of_lt hlt, (hold b hlt).trans hhome⟩
  case gone_lt => exact fun b hb => lt_succ_of_lt (h.gone_lt b hb)
  case kept_iff =>
    intro b hb
    change _ ↔ b ∉ s.gone
    rcases Nat.lt_succ_iff_lt_or_eq.mp hb with hlt | rfl
    · rw [hold b hlt, ← h.kept_iff b hlt, addCopy_staging]
      split_ifs
      · rw [mem_cons, or_iff_right (Nat.ne_of_lt hlt)]
      · rfl
    · rw [hnew, addCopy_staging, if_pos rfl]
      simp [hfresh]
  case nodup =>
    intro x
    rw [addCopy_staging]
    split_ifs
    · exact nodup_cons.mpr ⟨fun hb => lt_irrefl _ (h.home x _ hb).1, h.nodup x⟩
    · exact h.nodup x
  case once => exact h.once

end Stocked

/-! ## Operations on references -/

namespace Core

variable {k j : Holder}

variable (h : s.Core)

include h

theorem owners_pos (hk : s.refs k = some o) : 0 < (s.resources o).owners :=
  (h.counts o).pos_of_holds hk

theorem whole_of_ref (hk : s.refs k = some o) : s.Whole o :=
  h.whole o (h.owned k o hk) (h.owners_pos hk)

theorem not_capturing_of_ref (hk : s.refs k = some o) : ¬ s.Capturing o := by
  intro hcap
  have howned := h.owned k o hk
  rw [(h.capturing o hcap).2.1] at howned
  exact Bool.false_ne_true howned

theorem ne_of_not_owned (ho : (s.resources o).owned = false) (k : Holder) : s.refs k ≠ some o := by
  intro hk
  rw [h.owned k o hk] at ho
  exact Bool.false_ne_true ho.symm

theorem whole_next : s.Whole s.next := fun b hb hhome =>
  absurd (h.homes b hb) (by omega)

theorem create : s.create.Core :=
  { h with
    created := fun k o hk => lt_succ_of_lt (h.created k o hk)
    unused := fun o ho => h.unused o (le_of_succ_le ho)
    homes := fun b hb => lt_succ_of_lt (h.homes b hb)
    entries := fun k o hk => lt_succ_of_lt (h.entries k o hk)
    capturing := fun o ho => ⟨lt_succ_of_lt (h.capturing o ho).1, (h.capturing o ho).2⟩
    stocked := h.stocked.congr (fun _ => rfl) rfl rfl rfl }

/-- The maps of streams and events hold no references. -/
theorem remap {streams activeStreams events activeEvents : ℕ → Option ℕ}
    (hentries : ∀ k o, streams k = some o ∨ events k = some o → o < s.next)
    (hcapturing : ∀ k o, activeStreams k = some o ∨ activeEvents k = some o →
      o < s.next ∧ (s.resources o).owned = false ∧ s.refs (.earlier o) = none ∧ s.Whole o) :
    Core { s with
      streams := streams
      activeStreams := activeStreams
      events := events
      activeEvents := activeEvents } :=
  { h with
    entries := hentries
    capturing := fun o ⟨k, hk⟩ => hcapturing k o hk
    stocked := h.stocked.congr (fun _ => rfl) rfl rfl rfl }

/-- A holder that held nothing takes a reference to resources with all their staging. -/
theorem retain (hk : s.refs k = none) (hlink : ∀ x, k ≠ .earlier x) (ho : o < s.next)
    (hcap : ¬ s.Capturing o) (hwhole : s.Whole o) : (s.retain k o).Core := by
  have hrefs : ∀ i x, (s.retain k o).refs i = some x → x = o ∨ s.refs i = some x :=
    fun i x hi => (update_eq_some hi).imp_left fun hx => (Option.some.inj hx).symm
  have hearlier : ∀ x, (s.retain k o).refs (.earlier x) = s.refs (.earlier x) := fun x =>
    update_of_ne (hlink x).symm _ _
  have hW : ∀ x, (s.retain k o).Whole x ↔ s.Whole x := by
    intro x
    simp only [Whole, retain_staging]
    rfl
  constructor
  case counts =>
    intro x
    rw [retain_owners]
    split_ifs with hx
    · subst hx
      exact (h.counts x).store (by simp [hk])
    · exact (h.counts x).other (by simp [hk]) (by simpa using Ne.symm hx)
  case created =>
    intro i x hi
    rcases hrefs i x hi with rfl | hi
    · exact ho
    · exact h.created i x hi
  case owned =>
    intro i x hi
    rw [retain_owned]
    exact (hrefs i x hi).imp_right (h.owned i x)
  case expired =>
    rintro x ⟨howned, hzero⟩
    rw [retain_owners] at hzero
    rw [retain_owned] at howned
    have hx : x ≠ o := by
      rintro rfl
      simp at hzero
    rw [hearlier, retain_staging]
    exact h.expired x ⟨howned.resolve_left hx, by omega⟩
  case whole =>
    intro x howned hpos
    rw [hW]
    rw [retain_owned] at howned
    rcases eq_or_ne x o with rfl | hx
    · exact hwhole
    · exact h.whole x (howned.resolve_left hx) (by simpa [hx] using hpos)
  case unused =>
    intro x hx
    change s.next ≤ x at hx
    rw [hearlier, ← Bool.not_eq_true, retain_owned, not_or, Bool.not_eq_true]
    exact ⟨⟨by omega, (h.unused x hx).1⟩, (h.unused x hx).2⟩
  case homes => exact h.homes
  case entries => exact h.entries
  case capturing =>
    intro x hx
    obtain ⟨hlt, howned, hnone, hwholex⟩ := h.capturing x hx
    have hxo : x ≠ o := by
      rintro rfl
      exact hcap hx
    rw [hearlier, hW, ← Bool.not_eq_true, retain_owned]
    exact ⟨hlt, by simp [hxo, howned], hnone, hwholex⟩
  case stocked => exact h.stocked.congr (retain_staging s k o) rfl rfl rfl
  case ranked =>
    obtain ⟨rank, hrank⟩ := h.ranked
    refine ⟨rank, fun x e he => ?_⟩
    rw [hearlier] at he
    exact hrank x e he

/-- A second holder of resources. -/
theorem retain_of_ref (hk : s.refs k = none) (hlink : ∀ x, k ≠ .earlier x)
    (hj : s.refs j = some o) : (s.retain k o).Core :=
  h.retain hk hlink (h.created j o hj) (h.not_capturing_of_ref hj) (h.whole_of_ref hj)

/-- A reference goes to an empty place; a link is only given to resources without an owner. -/
theorem move (hk : ∀ x, k ≠ .earlier x) (hj : s.refs j = none)
    (hlink : ∀ x, j = .earlier x → x < s.next ∧ (s.resources x).owned = false ∧ ¬ s.Capturing x) :
    (s.move k j).Core := by
  have hrefs : ∀ i x, (s.move k j).refs i = some x → ∃ i', s.refs i' = some x := by
    intro i x hi
    rw [move_refs] at hi
    split_ifs at hi
    · exact ⟨k, hi⟩
    · exact ⟨i, hi⟩
  have hearlier : ∀ x, j ≠ .earlier x → (s.move k j).refs (.earlier x) = s.refs (.earlier x) := by
    intro x hx
    rw [move_refs, if_neg hx.symm, if_neg (hk x).symm]
  constructor
  case counts => exact fun x => (h.counts x).move (by simp [hj])
  case created =>
    intro i x hi
    obtain ⟨i', hi'⟩ := hrefs i x hi
    exact h.created i' x hi'
  case owned =>
    intro i x hi
    obtain ⟨i', hi'⟩ := hrefs i x hi
    exact h.owned i' x hi'
  case expired =>
    intro x hx
    have hjx : j ≠ .earlier x := by
      intro hjx
      have howned : (s.resources x).owned = true := hx.1
      rw [(hlink x hjx).2.1] at howned
      exact Bool.false_ne_true howned
    rw [hearlier x hjx]
    exact h.expired x hx
  case whole => exact h.whole
  case unused =>
    intro x hx
    change s.next ≤ x at hx
    rw [hearlier x fun hjx => absurd (hlink x hjx).1 (by omega)]
    exact h.unused x hx
  case homes => exact h.homes
  case entries => exact h.entries
  case capturing =>
    intro x hx
    rw [hearlier x fun hjx => (hlink x hjx).2.2 hx]
    exact h.capturing x hx
  case stocked => exact h.stocked.congr (fun _ => rfl) rfl rfl rfl
  case ranked =>
    obtain ⟨rank, hrank⟩ := h.ranked
    by_cases hx : ∃ x, j = .earlier x
    · obtain ⟨x, rfl⟩ := hx
      -- Nothing refers to `x`, so its rank is free.
      have hfree := h.ne_of_not_owned (hlink x rfl).2.1
      refine ⟨update rank x (((s.refs k).elim 0 rank) + 1), fun y e he => ?_⟩
      obtain ⟨i, hi⟩ := hrefs _ e he
      have hex : e ≠ x := by
        rintro rfl
        exact hfree i hi
      rw [update_of_ne hex]
      rcases eq_or_ne y x with rfl | hyx
      · rw [move_refs, if_pos rfl] at he
        simp [he]
      · rw [hearlier y (by simpa using Ne.symm hyx)] at he
        rw [update_of_ne hyx]
        exact hrank y e he
    · refine ⟨rank, fun y e he => ?_⟩
      rw [hearlier y fun hjy => hx ⟨y, hjy⟩] at he
      exact hrank y e he

section

variable (ho : s.refs .hand = some o)
include ho

/-- The counts after the reference in hand is given up. -/
theorem counts_drop (x : ℕ) : HeldBy (s.drop o).refs x ((s.drop o).resources x).owners := by
  rw [drop_owners]
  split_ifs with hx
  · subst hx
    have hcount := h.counts x
    obtain ⟨n, hn⟩ := exists_eq_succ_of_ne_zero (h.owners_pos ho).ne'
    rw [hn] at hcount ⊢
    exact hcount.drop ho (by simp)
  · exact (h.counts x).other (by simpa [ho] using Ne.symm hx) (by simp)

theorem drop (hmore : (s.resources o).owners ≠ 1) : (s.drop o).Core := by
  have hrefs : ∀ i x, (s.drop o).refs i = some x → s.refs i = some x :=
    fun i x hi => (update_eq_some hi).resolve_left nofun
  have hearlier : ∀ x, (s.drop o).refs (.earlier x) = s.refs (.earlier x) := by
    intro x
    simp [Server.drop]
  have hW : ∀ x, (s.drop o).Whole x ↔ s.Whole x := by
    intro x
    simp only [Whole, drop_staging]
    rfl
  constructor
  case counts => exact h.counts_drop ho
  case created => exact fun i x hi => h.created i x (hrefs i x hi)
  case owned =>
    intro i x hi
    rw [drop_owned]
    exact h.owned i x (hrefs i x hi)
  case expired =>
    rintro x ⟨howned, hzero⟩
    rw [drop_owned] at howned
    rw [hearlier, drop_staging]
    refine h.expired x ⟨howned, ?_⟩
    rw [drop_owners] at hzero
    rcases eq_or_ne x o with rfl | hx
    · simp only [if_true] at hzero
      omega
    · simpa [hx] using hzero
  case whole =>
    intro x howned hx
    rw [hW]
    rw [drop_owned] at howned
    rw [drop_owners] at hx
    exact h.whole x howned (by omega)
  case unused =>
    intro x hx
    rw [hearlier, drop_owned]
    exact h.unused x hx
  case homes => exact h.homes
  case entries => exact h.entries
  case capturing =>
    intro x hx
    rw [hearlier, drop_owned, hW]
    exact h.capturing x hx
  case stocked => exact h.stocked.congr (drop_staging s o) rfl rfl rfl
  case ranked =>
    obtain ⟨rank, hrank⟩ := h.ranked
    refine ⟨rank, fun x e he => ?_⟩
    exact hrank x e he

/-- The last reference is the one in hand. -/
theorem only_hand (hlast : (s.resources o).owners = 1) {i : Holder} (hi : i ≠ .hand) :
    s.refs i ≠ some o := by
  have hcount := h.counts_drop ho o
  rw [drop_owners, if_pos rfl, hlast] at hcount
  have hnone := HeldBy.zero_iff.mp hcount i
  simpa [Server.drop, hi] using hnone

theorem expire (hlast : (s.resources o).owners = 1) : (s.expire o).Core := by
  have hrefs : ∀ i x, (s.expire o).refs i = some x → ∃ i', s.refs i' = some x := by
    intro i x hi
    rw [expire_refs] at hi
    split_ifs at hi
    · exact ⟨_, hi⟩
    · exact ⟨i, hi⟩
  have hearlier : ∀ x, x ≠ o → (s.expire o).refs (.earlier x) = s.refs (.earlier x) := by
    intro x hx
    rw [expire_refs, if_neg (by simp), if_neg (by simpa using hx)]
  have hself : (s.expire o).refs (.earlier o) = none := by
    rw [expire_refs, if_neg (by simp), if_pos rfl]
  have howners : ∀ x, ((s.expire o).resources x).owners = ((s.drop o).resources x).owners :=
    retire_owners (s.drop o) o
  have howned' : ∀ x, ((s.expire o).resources x).owned = (s.resources x).owned := fun x =>
    (retire_owned (s.drop o) o x).trans (drop_owned s o x)
  have hstaging : ∀ x, ((s.expire o).resources x).staging =
      if x = o then [] else (s.resources x).staging := by
    intro x
    have hretire := retire_staging (s.drop o) o x
    rw [drop_staging] at hretire
    exact hretire
  have hW : ∀ x, x ≠ o → s.Whole x → (s.expire o).Whole x := by
    intro x hx hwhole b hb hhome
    rw [hstaging, if_neg hx]
    exact hwhole b hb hhome
  constructor
  case counts =>
    intro x
    rw [howners]
    exact (h.counts_drop ho x).move (by simp [Server.drop])
  case created =>
    intro i x hi
    obtain ⟨i', hi'⟩ := hrefs i x hi
    exact h.created i' x hi'
  case owned =>
    intro i x hi
    obtain ⟨i', hi'⟩ := hrefs i x hi
    rw [howned']
    exact h.owned i' x hi'
  case expired =>
    rintro x ⟨hx, hzero⟩
    rcases eq_or_ne x o with rfl | hxo
    · exact ⟨hself, by rw [hstaging, if_pos rfl]⟩
    · rw [howned'] at hx
      rw [howners, drop_owners, if_neg hxo] at hzero
      rw [hearlier x hxo, hstaging, if_neg hxo]
      exact h.expired x ⟨hx, by omega⟩
  case whole =>
    intro x hx hpos
    rw [howned'] at hx
    rw [howners, drop_owners] at hpos
    have hxo : x ≠ o := by
      rintro rfl
      simp [hlast] at hpos
    exact hW x hxo (h.whole x hx (by omega))
  case unused =>
    intro x hx
    have hxo : x ≠ o := by
      rintro rfl
      exact absurd (h.created _ x ho) (not_lt.mpr hx)
    rw [howned', hearlier x hxo]
    exact h.unused x hx
  case homes => exact h.homes
  case entries => exact h.entries
  case capturing =>
    intro x hx
    have hxo : x ≠ o := by
      rintro rfl
      exact h.not_capturing_of_ref ho hx
    obtain ⟨hlt, hfalse, hnone, hwhole⟩ := h.capturing x hx
    rw [howned', hearlier x hxo]
    exact ⟨hlt, hfalse, hnone, hW x hxo hwhole⟩
  case stocked =>
    have hdrop : (s.drop o).Stocked := h.stocked.congr (drop_staging s o) rfl rfl rfl
    exact (hdrop.retire o).congr (fun _ => rfl) rfl rfl rfl
  case ranked =>
    obtain ⟨rank, hrank⟩ := h.ranked
    refine ⟨rank, fun x e he => ?_⟩
    have hxo : x ≠ o := by
      rintro rfl
      rw [hself] at he
      exact Option.some_ne_none e he.symm
    rw [hearlier x hxo] at he
    exact hrank x e he

end

/-- Staging comes and goes, while the references and the counts of owners stay. -/
theorem restock {resources : ℕ → Resources} {allocated : ℕ} {home : ℕ → ℕ} {retired : List ℕ}
    (howners : ∀ x, (resources x).owners = (s.resources x).owners)
    (howned : ∀ x, (resources x).owned = (s.resources x).owned)
    (hexpired : ∀ x, s.Expired x → (resources x).staging = (s.resources x).staging)
    (hhomes : ∀ b < allocated, home b < s.next)
    (hwhole : ∀ x, (s.resources x).owned = true ∨ s.Capturing x → s.Whole x →
      ∀ b < allocated, home b = x → b ∈ (resources x).staging)
    (hstocked : Stocked { s with
      resources := resources, allocated := allocated, home := home, retired := retired }) :
    Core { s with
      resources := resources, allocated := allocated, home := home, retired := retired } where
  counts := by simpa only [howners] using h.counts
  created := h.created
  owned := by simpa only [howned] using h.owned
  expired x := by
    rintro ⟨hx, hzero⟩
    have hx : s.Expired x := ⟨(howned x).symm.trans hx, (howners x).symm.trans hzero⟩
    rw [hexpired x hx]
    exact h.expired x hx
  whole x hx hpos := by
    rw [howned] at hx
    rw [howners] at hpos
    exact hwhole x (.inl hx) (h.whole x hx hpos)
  unused := by simpa only [howned] using h.unused
  homes := hhomes
  entries := h.entries
  capturing x hx := by
    obtain ⟨hlt, hfalse, hnone, hold⟩ := h.capturing x hx
    exact ⟨hlt, (howned x).trans hfalse, hnone, hwhole x (.inr hx) hold⟩
  stocked := hstocked
  ranked := h.ranked

/-- Staging is added to resources that have not lost their last owner. -/
theorem addCopy (ho : o < s.next) (hlive : ¬ s.Expired o) : (s.addCopy o).Core := by
  refine h.restock (addCopy_owners s o) (addCopy_owned s o) (fun x hx => ?_) (fun b hb => ?_)
    (fun x _ hwhole b hb hhome => ?_) (h.stocked.addCopy o)
  · have hxo : x ≠ o := by
      rintro rfl
      exact hlive hx
    exact (addCopy_staging s o x).trans (if_neg hxo)
  · rcases Nat.lt_succ_iff_lt_or_eq.mp hb with hlt | rfl
    · rw [update_of_ne (Nat.ne_of_lt hlt)]
      exact h.homes b hlt
    · rw [update_self]
      exact ho
  · change b ∈ ((s.addCopy o).resources x).staging
    rw [addCopy_staging]
    rcases Nat.lt_succ_iff_lt_or_eq.mp hb with hlt | rfl
    · rw [update_of_ne (Nat.ne_of_lt hlt)] at hhome
      have hmem := hwhole b hlt hhome
      split_ifs
      · exact mem_cons_of_mem _ hmem
      · exact hmem
    · rw [update_self] at hhome
      rw [if_pos hhome.symm]
      exact mem_cons_self

/-- Resources of a failed capture, which never had an owner, give up their staging. -/
theorem retire (ho : (s.resources o).owned = false) (hcap : ¬ s.Capturing o) :
    (s.retire o).Core := by
  have hstaging : ∀ x, (s.resources x).owned = true ∨ s.Capturing x →
      ((s.retire o).resources x).staging = (s.resources x).staging := by
    intro x hx
    have hxo : x ≠ o := by
      rintro rfl
      simp [ho, hcap] at hx
    rw [retire_staging, if_neg hxo]
  refine h.restock (retire_owners s o) (retire_owned s o) (fun x hx => hstaging x (.inl hx.1))
    h.homes (fun x hx hwhole b hb hhome => ?_) (h.stocked.retire o)
  exact (hstaging x hx).symm ▸ hwhole b hb hhome

theorem freeRetired : s.freeRetired.Core :=
  { h with stocked := h.stocked.congr (fun _ => rfl) rfl rfl (by simp [gone, Server.freeRetired]) }

end Core

end Lupine.Graphs.Server
