import Mathlib.Data.Nat.Bitwise
import Lupine.Foundations.Execution
import Lupine.Foundations.Update

/-!
# Claims of an arena

`lupine_va_claim` of `rpc.cpp`. The threads of a server take aligned ranges out of the arena of a
connection: each loads the cursor `va_next`, rounds it up, and moves it past its range with a
compare-and-swap that may fail.

* `claims_disjoint`: in every interleaving, what is claimed is aligned, inside the arena and
  disjoint, and a claim with a size and an alignment that are valid fails only if no aligned range
  is left.
* `empty_claim_fails`: a claim without a size fails in an arena that is all free.
-/

namespace Lupine.Transport.ArenaClaims

open Foundations Function Nat List

/-- `uintptr_t` and `size_t`. -/
abbrev Word := BitVec 64

/-- `va_base` and `va_size`: a range that was reserved, which does not reach the last address. -/
structure Arena where
  base : Word
  size : Word
  reserved : base.toNat + size.toNat < 2 ^ 64

/-- The end of an arena. -/
def Arena.bound (A : Arena) : ℕ := A.base.toNat + A.size.toNat

/-- The arguments of a call. -/
structure Request where
  size : Word
  alignment : Word
  deriving DecidableEq

/-- There is a size, and the alignment is a power of two. -/
def Request.Valid (r : Request) : Prop :=
  r.size ≠ 0 ∧ r.alignment ≠ 0 ∧ r.alignment &&& (r.alignment - 1) = 0

instance (r : Request) : Decidable r.Valid := inferInstanceAs (Decidable (_ ∧ _))

/-- The least aligned address from the cursor on, as the loop computes it. -/
def alignUp (current alignment : Word) : Word := (current + alignment - 1) &&& ~~~(alignment - 1)

/-- A call that succeeded, with the cursor that it had read. -/
structure Claim where
  request : Request
  current : Word
  claimed : Word

/-- Where a thread is in `lupine_va_claim`. -/
inductive Phase
  | idle
  /-- In the loop, with the cursor that was read last. -/
  | trying (request : Request) (current : Word)
  | returned (request : Request) (claimed : Option Word)
  deriving DecidableEq

/-- The cursor, the threads, and the claims made so far. -/
structure State (Thread : Type) where
  /-- `va_next`. -/
  next : Word
  threads : Thread → Phase
  claims : List Claim

/-- A step of a thread. -/
inductive Action (Thread : Type)
  /-- The checks of the arguments, and the load of the cursor. -/
  | call (thread : Thread) (request : Request)
  /-- One round of the loop. A weak compare-and-swap may fail for no reason. -/
  | attempt (thread : Thread) (spurious : Bool)

variable {Thread : Type} (A : Arena)

/-- `lupine_va_reserve_server`. -/
def initial : State Thread := ⟨A.base, fun _ => .idle, []⟩

variable [DecidableEq Thread]

def State.setThread (s : State Thread) (t : Thread) (p : Phase) : State Thread :=
  { s with threads := update s.threads t p }

def step (s : State Thread) : Action Thread → Option (State Thread)
  | .call t r =>
    match s.threads t with
    | .trying _ _ => none
    | _ =>
      if A.size = 0 ∨ ¬ r.Valid ∨ A.size < r.size then some (s.setThread t (.returned r none))
      else some (s.setThread t (.trying r s.next))
  | .attempt t spurious =>
    match s.threads t with
    | .trying r current =>
      let nextClaim := alignUp current r.alignment
      if nextClaim < current ∨ nextClaim < A.base ∨ A.size - r.size < nextClaim - A.base then
        some (s.setThread t (.returned r none))
      else if s.next = current ∧ spurious = false then
        some { s.setThread t (.returned r (some nextClaim)) with
          next := nextClaim + r.size
          claims := s.claims ++ [⟨r, current, nextClaim⟩] }
      else some (s.setThread t (.trying r s.next))
    | _ => none

/-! ## Rounding -/

theorem toNat_and_not (x y : Word) : (x &&& ~~~y).toNat = x.toNat - (x &&& y).toNat := by
  have hdisjoint : (x &&& y) &&& (x &&& ~~~y) = 0#64 := by
    ext i hi
    simp
    tauto
  have hor : x &&& y ||| x &&& ~~~y = x := by
    ext i hi
    simp [← Bool.and_or_distrib_left]
  have hsum := congrArg BitVec.toNat ((BitVec.add_eq_or_of_and_eq_zero _ _ hdisjoint).trans hor)
  have hle : (x &&& y).toNat ≤ x.toNat := by
    exact Nat.and_le_left
  rw [BitVec.toNat_add] at hsum
  omega

variable {a : Word}

theorem toNat_sub_one (hpos : 0 < a.toNat) : (a - 1).toNat = a.toNat - 1 := by
  simp
  omega

theorem exists_eq_two_pow (hne : a ≠ 0) (hand : a &&& (a - 1) = 0) : ∃ k < 64, a.toNat = 2 ^ k := by
  have hpos : a.toNat ≠ 0 := fun h => hne (BitVec.eq_of_toNat_eq h)
  have hzero := congrArg BitVec.toNat hand
  rw [BitVec.toNat_and, toNat_sub_one (Nat.pos_of_ne_zero hpos)] at hzero
  obtain ⟨k, hk⟩ := (and_sub_one_eq_zero_iff_isPowerOfTwo hpos).mp hzero
  have hlt := a.isLt
  rw [hk] at hlt
  exact ⟨k, (Nat.pow_lt_pow_iff_right (by decide)).mp hlt, hk⟩

theorem toNat_alignUp {k : ℕ} (hk : a.toNat = 2 ^ k) (current : Word) :
    (alignUp current a).toNat = (current.toNat + 2 ^ k - 1) % 2 ^ 64 -
      (current.toNat + 2 ^ k - 1) % 2 ^ 64 % 2 ^ k := by
  have hpos : 0 < a.toNat := hk ▸ Nat.two_pow_pos k
  have hsum : (current + a - 1).toNat = (current.toNat + 2 ^ k - 1) % 2 ^ 64 := by
    simp
    omega
  rw [alignUp, toNat_and_not, BitVec.toNat_and, toNat_sub_one hpos, hk,
    and_two_pow_sub_one_eq_mod, hsum]

/-- The least multiple of the alignment from the cursor on. If there is none below the top of the
address space, the sum wraps, and the result is below the cursor. -/
theorem alignUp_cases (hne : a ≠ 0) (hand : a &&& (a - 1) = 0) (current : Word) :
    (current.toNat ≤ (alignUp current a).toNat ∧ a.toNat ∣ (alignUp current a).toNat ∧
      current.toNat + a.toNat - 1 < 2 ^ 64 ∧
      ∀ m, a.toNat ∣ m → current.toNat ≤ m → (alignUp current a).toNat ≤ m) ∨
    (alignUp current a < current ∧ ∀ m, a.toNat ∣ m → current.toNat ≤ m → 2 ^ 64 ≤ m) := by
  obtain ⟨k, hk64, hk⟩ := exists_eq_two_pow hne hand
  have hpos : 0 < 2 ^ k := Nat.two_pow_pos k
  have halign := toNat_alignUp hk current
  have hdvd : 2 ^ k ∣ (alignUp current a).toNat := halign ▸ dvd_sub_mod _
  rw [hk]
  rcases lt_or_ge (current.toNat + 2 ^ k - 1) (2 ^ 64) with hfit | hwrap
  · refine .inl ⟨by omega, hdvd, hfit, fun m hm hcm => ?_⟩
    -- two multiples that differ by less than the alignment
    by_contra hlt'
    have := le_of_dvd (by omega) (dvd_sub hdvd hm)
    omega
  · have hmod : (current.toNat + 2 ^ k - 1) % 2 ^ 64 = current.toNat + 2 ^ k - 1 - 2 ^ 64 := by
      rw [mod_eq_sub_mod hwrap, mod_eq_of_lt (by omega)]
    refine .inr ⟨?_, fun m hm hcm => ?_⟩
    · rw [BitVec.lt_def, halign]
      omega
    · by_contra hlt'
      have := le_of_dvd (by omega) (dvd_sub (pow_dvd_pow 2 hk64.le) hm)
      omega

/-! ## Runs -/

/-- The claim is what was asked for, and none of the sums of the loop wrapped. -/
structure Claim.Fits (c : Claim) : Prop where
  aligned : c.request.alignment.toNat ∣ c.claimed.toNat
  base_le : A.base.toNat ≤ c.claimed.toNat
  le_bound : c.claimed.toNat + c.request.size.toNat ≤ A.bound
  rounds : c.current.toNat + c.request.alignment.toNat - 1 < 2 ^ 64
  ends : c.claimed.toNat + c.request.size.toNat < 2 ^ 64

/-- No aligned range of the size is left above the cursor. -/
def Request.NoRoom (r : Request) (next : Word) : Prop :=
  ∀ m, r.alignment.toNat ∣ m → next.toNat ≤ m → A.bound < m + r.size.toNat

/-- Claims lie in order below the cursor, and what failed had no room. -/
structure Inv (s : State Thread) : Prop where
  fits : ∀ c ∈ s.claims, c.Fits A
  disjoint : s.claims.Pairwise fun c d =>
    c.claimed.toNat + c.request.size.toNat ≤ d.claimed.toNat
  below : ∀ c ∈ s.claims, c.claimed.toNat + c.request.size.toNat ≤ s.next.toNat
  base_le : A.base.toNat ≤ s.next.toNat
  le_bound : s.next.toNat ≤ A.bound
  trying : ∀ t r current, s.threads t = .trying r current →
    r.Valid ∧ r.size.toNat ≤ A.size.toNat ∧ A.base.toNat ≤ current.toNat ∧
      current.toNat ≤ s.next.toNat
  failed : ∀ t r, s.threads t = .returned r none → r.Valid → r.NoRoom A s.next
  valid : ∀ t r c, s.threads t = .returned r (some c) → r.Valid

variable {A} {s s' : State Thread} {r : Request} {t : Thread} {current : Word}

theorem Request.NoRoom.mono {next next' : Word} (h : r.NoRoom A next)
    (hle : next.toNat ≤ next'.toNat) : r.NoRoom A next' := fun m hm hnext =>
  h m hm (hle.trans hnext)

/-- A thread goes on, and the cursor stays. -/
theorem Inv.setThread (h : Inv A s) {p : Phase}
    (htrying : ∀ r current, p = .trying r current →
      r.Valid ∧ r.size.toNat ≤ A.size.toNat ∧ current = s.next)
    (hfailed : ∀ r, p = .returned r none → r.Valid → r.NoRoom A s.next)
    (hvalid : ∀ r c, p = .returned r (some c) → r.Valid) : Inv A (s.setThread t p) := by
  refine { h with
    trying := fun u r current hu => ?_, failed := fun u r hu => ?_, valid := fun u r c hu => ?_ }
  · rcases update_eq_cases hu with ⟨-, hu⟩ | ⟨-, hu⟩
    · obtain ⟨hvalid, hsize, rfl⟩ := htrying r current hu
      exact ⟨hvalid, hsize, h.base_le, le_rfl⟩
    · exact h.trying u r current hu
  · rcases update_eq_cases hu with ⟨-, hu⟩ | ⟨-, hu⟩
    · exact hfailed r hu
    · exact h.failed u r hu
  · rcases update_eq_cases hu with ⟨-, hu⟩ | ⟨-, hu⟩
    · exact hvalid r c hu
    · exact h.valid u r c hu

theorem Inv.call (h : Inv A s) (hstep : step A s (.call t r) = some s') : Inv A s' := by
  simp only [step] at hstep
  split at hstep
  · cases hstep
  split at hstep <;> cases hstep
  · rename_i hrefused
    refine h.setThread (by simp) (fun r' hr' hvalid m _ hm => ?_) (by simp)
    obtain ⟨rfl, -⟩ := Phase.returned.inj hr'
    have hbase := h.base_le
    have hsize : A.size.toNat < r.size.toNat := by
      rcases hrefused with hzero | hinvalid | hlt
      · rw [hzero]
        exact Nat.pos_of_ne_zero fun h0 => hvalid.1 (BitVec.eq_of_toNat_eq h0)
      · exact absurd hvalid hinvalid
      · exact hlt
    unfold Arena.bound
    omega
  · rename_i haccepted
    simp only [not_or, not_not] at haccepted
    refine h.setThread (fun r' current hr' => ?_) (by simp) (by simp)
    obtain ⟨rfl, rfl⟩ := Phase.trying.inj hr'
    exact ⟨haccepted.2.1, not_lt.mp haccepted.2.2, rfl⟩

/-- The tests of the loop, in numbers. -/
theorem claim_iff (hsize : r.size.toNat ≤ A.size.toNat) {c : Word} :
    ¬(c < A.base ∨ A.size - r.size < c - A.base) ↔
      A.base.toNat ≤ c.toNat ∧ c.toNat + r.size.toNat ≤ A.bound := by
  unfold Arena.bound
  rw [not_or, BitVec.not_lt, BitVec.not_lt, BitVec.le_def, BitVec.le_def]
  refine and_congr_right fun hbase => ?_
  rw [BitVec.toNat_sub_of_le hbase, BitVec.toNat_sub_of_le hsize]
  omega

theorem Inv.attempt (h : Inv A s) {spurious : Bool}
    (hstep : step A s (.attempt t spurious) = some s') : Inv A s' := by
  simp only [step] at hstep
  split at hstep
  · rename_i r current ht
    obtain ⟨hvalid, hsize, hbase, hcurrent⟩ := h.trying t r current ht
    have hcases := alignUp_cases hvalid.2.1 hvalid.2.2 current
    generalize hclaim : alignUp current r.alignment = claimed at hcases hstep
    split at hstep
    · rename_i hfail
      cases hstep
      refine h.setThread (by simp) (fun r' hr' _ m hm hnext => ?_) (by simp)
      obtain ⟨rfl, -⟩ := Phase.returned.inj hr'
      rcases hcases with ⟨hle, -, -, hleast⟩ | ⟨-, htop⟩
      · have hm' := hleast m hm (hcurrent.trans hnext)
        have hout := mt (claim_iff hsize).mpr (not_not.mpr (hfail.resolve_left (not_lt.mpr hle)))
        omega
      · have := htop m hm (hcurrent.trans hnext)
        have := A.reserved
        unfold Arena.bound
        omega
    · rename_i hok
      obtain ⟨hnot, hinside⟩ := not_or.mp hok
      obtain ⟨hle, hdvd, hfit, -⟩ := hcases.resolve_right fun hwrap => hnot hwrap.1
      obtain ⟨hbase', hend⟩ := (claim_iff hsize).mp hinside
      split at hstep <;> cases hstep
      · rename_i hswap
        have hlt : claimed.toNat + r.size.toNat < 2 ^ 64 := hend.trans_lt A.reserved
        have hsum : (claimed + r.size).toNat = claimed.toNat + r.size.toNat := by
          rw [BitVec.toNat_add, mod_eq_of_lt hlt]
        have hgrows : s.next.toNat ≤ (claimed + r.size).toNat := by
          rw [hsum, hswap.1]
          omega
        -- every earlier claim ends at the cursor that this one started from
        have hbelow : ∀ c ∈ s.claims, c.claimed.toNat + c.request.size.toNat ≤ claimed.toNat :=
          fun c hc => ((h.below c hc).trans (hswap.1 ▸ le_rfl)).trans hle
        refine ⟨?_, ?_, ?_, h.base_le.trans hgrows, hsum ▸ hend, fun u r' current' hu => ?_,
          fun u r' hu hvalid' => ?_, fun u r' c hu => ?_⟩
        · refine forall_mem_append.mpr ⟨h.fits, forall_mem_singleton.mpr ?_⟩
          exact ⟨hdvd, hbase', hend, hfit, hlt⟩
        · refine pairwise_append.mpr ⟨h.disjoint, pairwise_singleton _ _, ?_⟩
          exact fun c hc => forall_mem_singleton.mpr (hbelow c hc)
        · refine forall_mem_append.mpr ⟨fun c hc => (h.below c hc).trans hgrows, ?_⟩
          exact forall_mem_singleton.mpr hsum.ge
        · obtain ⟨hv, hs, hb, hc⟩ := h.trying u r' current' (update_eq_of_ne hu (by simp)).2
          exact ⟨hv, hs, hb, hc.trans hgrows⟩
        · exact (h.failed u r' (update_eq_of_ne hu (by simp)).2 hvalid').mono hgrows
        · rcases update_eq_cases hu with ⟨-, hu⟩ | ⟨-, hu⟩
          · exact (Phase.returned.inj hu).1 ▸ hvalid
          · exact h.valid u r' c hu
      · refine h.setThread (fun r' current' hr' => ?_) (by simp) (by simp)
        obtain ⟨rfl, rfl⟩ := Phase.trying.inj hr'
        exact ⟨hvalid, hsize, rfl⟩
  · cases hstep

theorem Inv.of_reachable (h : Reachable (step A) (initial A) s) : Inv A s := by
  refine h.invariant (fun s a s' hs hstep => ?_) ⟨?_, .nil, ?_, le_rfl, ?_, ?_, ?_, ?_⟩
  · cases a with
    | call t r => exact hs.call hstep
    | attempt t spurious => exact hs.attempt hstep
  · simp [initial]
  · simp [initial]
  · exact le_add_right _ _
  · simp [initial]
  · simp [initial]
  · simp [initial]

/-- **Arena claims.** In every interleaving, the claims that succeeded are aligned, inside the arena
and disjoint, no sum of theirs wrapped, and their requests are valid; a valid request that failed
found no aligned range of its size above the cursor. -/
theorem claims_disjoint (h : Reachable (step A) (initial A) s) :
    (∀ c ∈ s.claims, c.Fits A) ∧
    (s.claims.Pairwise fun c d => c.claimed.toNat + c.request.size.toNat ≤ d.claimed.toNat) ∧
    (∀ t r, s.threads t = .returned r none → r.Valid → r.NoRoom A s.next) ∧
    ∀ t r c, s.threads t = .returned r (some c) → r.Valid := by
  have hinv := Inv.of_reachable h
  exact ⟨hinv.fits, hinv.disjoint, hinv.failed, hinv.valid⟩

/-- Two pages. -/
def twoPages : Arena := ⟨4096, 8192, by decide⟩

/-- Two threads load the same cursor. The second one takes the second page in its second round. -/
theorem claims_disjoint_after_race : ∃ s : State Bool, exec (step twoPages) (initial twoPages)
    [.call false ⟨16, 16⟩, .call true ⟨64, 4096⟩, .attempt false false, .attempt true false,
      .attempt true false] = some s ∧
    s.claims.map (·.claimed) = [4096, 8192] ∧ ∀ c ∈ s.claims, c.Fits twoPages :=
  exists_of_any (by decide) fun s hs hclaims => ⟨hclaims, (claims_disjoint ⟨_, hs⟩).1⟩

/-- A claim without a size fails in an arena of which nothing is claimed. -/
theorem empty_claim_fails : ∃ s : State Unit, Reachable (step twoPages) (initial twoPages) s ∧
    s.claims = [] ∧ s.threads () = .returned ⟨0, 16⟩ none ∧
    ¬ Request.NoRoom twoPages ⟨0, 16⟩ s.next :=
  ⟨_, ⟨[.call () ⟨0, 16⟩], rfl⟩, rfl, rfl,
    fun h => absurd (h 4096 (by decide) (by decide)) (by decide)⟩

end Lupine.Transport.ArenaClaims
