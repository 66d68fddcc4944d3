import Mathlib.Data.Finset.Sort
import Mathlib.Order.Interval.Finset.Nat
import Lupine.Foundations.RunLength

/-!
# Managed-memory advice

`lupine_managed_advice` keeps the advice for a managed allocation by runs of pages: an ordered map
whose entries say from which page on their state holds. An `advise` splits the runs at both ends of
its range, changes what is between, and merges equal runs; a `query` combines the runs of its range.

* `Ranges.represents_pages`: after any calls, the map represents the state of each page under the
  calls that touched it, and a query reports what the pages of its range have in common.
-/

namespace Lupine.Managed

open Foundations Function OrderedMap List Set

/-- `CU_DEVICE_CPU`. -/
def deviceCpu : ℤ := -1

/-- `CU_DEVICE_INVALID`. -/
def deviceInvalid : ℤ := -2

/-- `std::numeric_limits<size_t>::max()`. -/
def sizeMax : ℕ := 2 ^ 64 - 1

/-- The advice for a page. -/
structure State where
  readMostly : Bool
  preferred : ℤ
  accessedBy : Finset ℤ
  deriving DecidableEq

/-- `state{}`. -/
def State.initial : State := ⟨false, deviceInvalid, ∅⟩

/-- `CUmem_advise`. -/
inductive Advice
  | setReadMostly
  | unsetReadMostly
  | setPreferredLocation
  | unsetPreferredLocation
  | setAccessedBy
  | unsetAccessedBy
  /-- A value outside the range of the six. -/
  | unknown
  deriving DecidableEq

/-- `CUmem_range_attribute`. -/
inductive Attribute
  | readMostly
  | preferredLocation
  | accessedBy
  /-- An attribute that is not supported. -/
  | other
  deriving DecidableEq

/-- The switch of `advise`. -/
def Advice.apply (device : ℤ) (value : State) : Advice → State
  | setReadMostly => { value with readMostly := true }
  | unsetReadMostly => { value with readMostly := false }
  | setPreferredLocation => { value with preferred := device }
  | unsetPreferredLocation => { value with preferred := deviceInvalid }
  | setAccessedBy => { value with accessedBy := insert device value.accessedBy }
  | unsetAccessedBy => { value with accessedBy := value.accessedBy.erase device }
  | unknown => value

/-- The arguments that say which bytes a call is about. -/
structure Extent where
  offset : ℕ
  count : ℕ
  pageSize : ℕ
  deriving DecidableEq

namespace Extent

variable (extent : Extent)

/-- The checks of `advise` and `query`. -/
def Valid : Prop :=
  extent.count ≠ 0 ∧ extent.pageSize ≠ 0 ∧ ¬ extent.count > sizeMax - extent.offset

instance : Decidable extent.Valid := inferInstanceAs (Decidable (_ ∧ _ ∧ _))

def firstPage : ℕ := extent.offset / extent.pageSize

def lastPage : ℕ := (extent.offset + extent.count - 1) / extent.pageSize

/-- The pages that the bytes are in. -/
def pages : Finset ℕ := Finset.Icc extent.firstPage extent.lastPage

end Extent

/-- The arguments of `advise`. -/
structure Advise where
  extent : Extent
  advice : Advice
  device : ℤ
  deriving DecidableEq

def Advise.Valid (call : Advise) : Prop := call.extent.Valid ∧ call.advice ≠ .unknown

instance (call : Advise) : Decidable call.Valid := inferInstanceAs (Decidable (_ ∧ _))

/-- The arguments of `query`. -/
structure Query where
  /-- `data` is not null. -/
  data : Bool
  dataSize : ℕ
  kind : Attribute
  extent : Extent
  deriving DecidableEq

def Query.Valid (call : Query) : Prop :=
  call.extent.Valid ∧ call.data = true ∧ call.kind ≠ .other ∧ call.dataSize ≠ 0 ∧
    ¬ call.dataSize % 4 ≠ 0 ∧ ¬ (call.kind ≠ .accessedBy ∧ call.dataSize ≠ 4)

instance (call : Query) : Decidable call.Valid :=
  inferInstanceAs (Decidable (_ ∧ _ ∧ _ ∧ _ ∧ _ ∧ _))

/-- `CUresult`. -/
inductive Result
  | success
  | invalidValue
  deriving DecidableEq

/-- How a query combines two states. -/
def State.meet (value other : State) : State where
  readMostly := value.readMostly && other.readMostly
  preferred := if value.preferred ≠ other.preferred then deviceInvalid else value.preferred
  accessedBy := value.accessedBy.filter fun device => device ∈ other.accessedBy

/-! ## The map -/

/-- `ranges_`. -/
abbrev Ranges := OrderedMap ℕ State

namespace Ranges

section

variable (ranges : Ranges)

/-- The state that the last entry up to a page holds. -/
def state (page : ℕ) : State := ranges.valueAt .initial page

/-- The map has an entry for page 0 before anything is looked up. -/
def seeded : Ranges :=
  if ranges.entries = [] then ranges.insert 0 .initial else ranges

/-- `split`. -/
def split (page : ℕ) : Ranges :=
  match ranges.seeded.find page with
  | some _ => ranges.seeded
  | none => ranges.seeded.insert page (Ranges.state ranges.seeded page)

/-- The map after the loop of `advise`, from the first page to the last. -/
def adjusted (call : Advise) : Ranges :=
  ((ranges.split call.extent.firstPage).split (call.extent.lastPage + 1)).adjust
    (fun page => call.extent.firstPage ≤ page ∧ page < call.extent.lastPage + 1)
    fun value => call.advice.apply call.device value

/-- `advise`. -/
def advise (call : Advise) : Result × Ranges :=
  if call.Valid then (.success, (ranges.adjusted call).mergeRuns) else (.invalidValue, ranges)

/-- The loop of `query`, over the entries that are left. -/
def combine (lastPage : ℕ) : State → List (ℕ × State) → State
  | value, [] => value
  | value, entry :: rest =>
    if entry.1 ≤ lastPage then combine lastPage (value.meet entry.2) rest else value

/-- The state that `query` reports from. -/
def combined (extent : Extent) : State :=
  if ranges.entries = [] then .initial
  else combine extent.lastPage (ranges.state extent.firstPage) (ranges.above extent.firstPage)

end

end Ranges

/-! ## Reports -/

/-- The loop of `query` that lists the GPUs, in the order of the set. -/
def listDevices (slots : ℕ) : List ℤ → List ℤ → List ℤ
  | copied, [] => copied
  | copied, device :: rest =>
    if device ≥ 0 ∧ copied.length < slots then listDevices slots (copied ++ [device]) rest
    else listDevices slots copied rest

/-- The devices that `query` writes. The CPU comes last. -/
def copiedDevices (slots : ℕ) (accessedBy : Finset ℤ) : List ℤ :=
  let copied := listDevices slots [] (accessedBy.sort (· ≤ ·))
  if deviceCpu ∈ accessedBy ∧ copied.length < slots then copied ++ [deviceCpu] else copied

/-- What `query` writes to its `int`s. -/
def State.report (value : State) (kind : Attribute) (slots : ℕ) : List ℤ :=
  match kind with
  | .readMostly => [if value.readMostly then 1 else 0]
  | .accessedBy =>
    copiedDevices slots value.accessedBy ++
      List.replicate (slots - (copiedDevices slots value.accessedBy).length) deviceInvalid
  | .preferredLocation | .other => [value.preferred]

/-- `query`. It writes nothing if its arguments are not valid. -/
def Ranges.query (ranges : Ranges) (call : Query) : Option (List ℤ) :=
  if call.Valid then
    some ((ranges.combined call.extent).report call.kind (call.dataSize / 4))
  else none

/-! ## Pages -/

abbrev Pages := ℕ → State

/-- A valid call changes the state of its own pages. -/
def Pages.advise (pages : Pages) (call : Advise) : Pages := fun page =>
  if call.Valid ∧ page ∈ call.extent.pages then call.advice.apply call.device (pages page)
  else pages page

namespace Pages

variable (pages : Pages) (extent : Extent)

/-- Whether all pages are read-mostly. -/
def readMostly : Bool := ∀ page ∈ extent.pages, (pages page).readMostly = true

/-- The preferred location, if all pages have the same one. -/
def preferred : ℤ :=
  if ∀ page ∈ extent.pages, (pages page).preferred = (pages extent.firstPage).preferred then
    (pages extent.firstPage).preferred
  else deviceInvalid

/-- The devices that all pages are accessed by. -/
def accessedBy : Finset ℤ :=
  (pages extent.firstPage).accessedBy.filter fun device =>
    ∀ page ∈ extent.pages, device ∈ (pages page).accessedBy

/-- The GPUs in ascending order, and then the CPU. -/
def devices : List ℤ :=
  ((pages.accessedBy extent).sort (· ≤ ·)).filter (fun device => 0 ≤ device) ++
    if deviceCpu ∈ pages.accessedBy extent then [deviceCpu] else []

/-- What the pages of a valid query have in common. Unused slots are padded. -/
def query (call : Query) : Option (List ℤ) :=
  if call.Valid then
    match call.kind with
    | .readMostly => some [if pages.readMostly call.extent then 1 else 0]
    | .accessedBy =>
      some ((pages.devices call.extent ++
        List.replicate (call.dataSize / 4) deviceInvalid).take (call.dataSize / 4))
    | .preferredLocation | .other => some [pages.preferred call.extent]
  else none

end Pages

/-- The map is that of these pages. -/
structure Represents (ranges : Ranges) (pages : Pages) : Prop where
  state : ranges.state = pages
  /-- Every page that is looked up has an entry up to it. -/
  first : ranges.entries = [] ∨ (ranges.find 0).isSome
  canonical : ∀ pair ∈ adjacentPairs ranges.entries, pair.1.2 ≠ pair.2.2
  query : ∀ call, ranges.query call = pages.query call
  failure : ∀ call, (ranges.advise call).1 ≠ .success → (ranges.advise call).2 = ranges

/-! ## Advising -/

namespace Ranges

variable (ranges : Ranges)

theorem state_eq_initial {ranges : Ranges} (h : ranges.entries = []) (page : ℕ) :
    ranges.state page = .initial := by
  rw [state, valueAt, floor, upTo, h]
  rfl

theorem state_seeded : ranges.seeded.state = ranges.state := by
  unfold seeded
  split
  · rename_i hempty
    have hcut := ranges.valueAt_insert_valueAt State.initial 0
    rwa [show ranges.valueAt State.initial 0 = State.initial from state_eq_initial hempty 0] at hcut
  · rfl

/-- Splitting a run does not change the pages. -/
theorem state_split (page : ℕ) : (ranges.split page).state = ranges.state := by
  unfold split
  split
  · exact ranges.state_seeded
  · exact (ranges.seeded.valueAt_insert_valueAt State.initial page).trans ranges.state_seeded

theorem find_split_self (page : ℕ) : ((ranges.split page).find page).isSome := by
  unfold split
  split
  · rename_i hfind
    rw [hfind]
    rfl
  · rw [find_insert, update_self]
    rfl

theorem isSome_find_insert {m : Ranges} {k page : ℕ} (value : State) (h : (m.find k).isSome) :
    ((m.insert page value).find k).isSome := by
  rw [find_insert, update_apply]
  split
  · rfl
  · exact h

theorem isSome_find_seeded {k : ℕ} (h : (ranges.find k).isSome) :
    (ranges.seeded.find k).isSome := by
  unfold seeded
  split
  · exact isSome_find_insert _ h
  · exact h

theorem isSome_find_split {k : ℕ} (page : ℕ) (h : (ranges.find k).isSome) :
    ((ranges.split page).find k).isSome := by
  unfold split
  split
  · exact ranges.isSome_find_seeded h
  · exact isSome_find_insert _ (ranges.isSome_find_seeded h)

theorem state_adjusted (call : Advise) (page : ℕ) :
    (ranges.adjusted call).state page =
      if page ∈ call.extent.pages then call.advice.apply call.device (ranges.state page)
      else ranges.state page := by
  have hfirst := (ranges.split call.extent.firstPage).isSome_find_split (call.extent.lastPage + 1)
    (ranges.find_split_self call.extent.firstPage)
  have hlast := (ranges.split call.extent.firstPage).find_split_self (call.extent.lastPage + 1)
  have hvalue := valueAt_adjust _ hfirst hlast
    (fun value => call.advice.apply call.device value) State.initial page
  have hstate : ((ranges.split call.extent.firstPage).split (call.extent.lastPage + 1)).state page =
      ranges.state page := by rw [state_split, state_split]
  rw [state] at hstate
  rw [hstate] at hvalue
  refine hvalue.trans ?_
  simp only [Extent.pages, Finset.mem_Icc, Nat.lt_succ_iff]

theorem state_advise (call : Advise) :
    (ranges.advise call).2.state = Pages.advise ranges.state call := by
  funext page
  unfold advise Pages.advise
  split
  · rename_i hvalid
    have hmerge := congrFun ((ranges.adjusted call).valueAt_mergeRuns State.initial) page
    refine hmerge.trans ((ranges.state_adjusted call page).trans ?_)
    simp only [hvalid, true_and]
  · rename_i hinvalid
    simp only [hinvalid, false_and, if_false]

variable {ranges}

theorem isSome_find_advise (h : ranges.entries = [] ∨ (ranges.find 0).isSome) (call : Advise) :
    (ranges.advise call).2.entries = [] ∨ ((ranges.advise call).2.find 0).isSome := by
  unfold advise
  split
  · have hseeded : (ranges.seeded.find 0).isSome := by
      unfold seeded
      split
      · rw [find_insert, update_self]
        rfl
      · rename_i hne
        exact h.resolve_left hne
    have hsplit : ((ranges.split call.extent.firstPage).find 0).isSome := by
      unfold split
      split
      · exact hseeded
      · exact isSome_find_insert _ hseeded
    exact .inr (isSome_find_mergeRuns (fun e _ => Nat.zero_le e.1)
      (isSome_find_adjust _ _ _ (isSome_find_split _ _ hsplit)))
  · exact h

theorem canonical_advise (h : ∀ pair ∈ adjacentPairs ranges.entries, pair.1.2 ≠ pair.2.2)
    (call : Advise) :
    ∀ pair ∈ adjacentPairs (ranges.advise call).2.entries, pair.1.2 ≠ pair.2.2 := by
  unfold advise
  split
  · exact adjacentPairs_mergeRuns _
  · exact h

end Ranges

/-! ## Combining -/

/-- The state says what some states have in common. -/
structure State.IsMeet (value : State) (states : Set State) : Prop where
  nonempty : states.Nonempty
  readMostly : value.readMostly = true ↔ ∀ s ∈ states, s.readMostly = true
  preferred : (∀ s ∈ states, s.preferred = value.preferred) ∨
    value.preferred = deviceInvalid ∧ ∃ s ∈ states, ∃ s' ∈ states, s.preferred ≠ s'.preferred
  accessedBy : ∀ device, device ∈ value.accessedBy ↔ ∀ s ∈ states, device ∈ s.accessedBy

theorem State.isMeet_singleton (value : State) : value.IsMeet {value} where
  nonempty := singleton_nonempty value
  readMostly := by simp
  preferred := .inl fun s hs => by rw [mem_singleton_iff.mp hs]
  accessedBy _ := by simp

theorem State.IsMeet.insert {value : State} {states : Set State} (h : value.IsMeet states)
    (other : State) : (value.meet other).IsMeet (insert other states) where
  nonempty := insert_nonempty other states
  readMostly := by
    rw [forall_mem_insert, ← h.readMostly, State.meet, Bool.and_eq_true, and_comm]
  preferred := by
    obtain ⟨witness, hwitness⟩ := h.nonempty
    rcases eq_or_ne value.preferred other.preferred with heq | hne
    · have hmeet : (value.meet other).preferred = value.preferred := if_neg (not_not.mpr heq)
      rw [hmeet]
      rcases h.preferred with hall | ⟨hinvalid, s, hs, s', hs', hdiffer⟩
      · exact .inl (forall_mem_insert.mpr ⟨heq.symm, hall⟩)
      · exact .inr ⟨hinvalid, s, .inr hs, s', .inr hs', hdiffer⟩
    · have hmeet : (value.meet other).preferred = deviceInvalid := if_pos hne
      rw [hmeet]
      rcases h.preferred with hall | ⟨-, s, hs, s', hs', hdiffer⟩
      · exact .inr ⟨rfl, witness, .inr hwitness, other, .inl rfl, hall witness hwitness ▸ hne⟩
      · exact .inr ⟨rfl, s, .inr hs, s', .inr hs', hdiffer⟩
  accessedBy device := by
    rw [forall_mem_insert, ← h.accessedBy, State.meet, Finset.mem_filter, and_comm]

namespace Ranges

theorem combine_isMeet {lastPage : ℕ} {value : State} {states : Set State}
    {entries : List (ℕ × State)} (h : value.IsMeet states)
    (hsorted : entries.Pairwise fun e f => e.1 < f.1) :
    (combine lastPage value entries).IsMeet
      ({s | ∃ e ∈ entries, e.1 ≤ lastPage ∧ e.2 = s} ∪ states) := by
  induction entries generalizing value states with
  | nil => simpa [combine] using h
  | cons e rest ih =>
    obtain ⟨hhead, htail⟩ := pairwise_cons.mp hsorted
    rw [combine]
    split
    · rename_i hle
      have hrest := ih (h.insert e.2) htail
      have hset : {s | ∃ f ∈ e :: rest, f.1 ≤ lastPage ∧ f.2 = s} ∪ states =
          {s | ∃ f ∈ rest, f.1 ≤ lastPage ∧ f.2 = s} ∪ insert e.2 states := by
        ext s
        simp only [mem_union, mem_ofPred_eq, exists_mem_cons_iff, mem_insert_iff, hle,
          true_and, eq_comm (a := s)]
        rw [or_assoc, or_left_comm]
      rwa [hset]
    · rename_i hlt
      have hset : {s | ∃ f ∈ e :: rest, f.1 ≤ lastPage ∧ f.2 = s} = (∅ : Set State) := by
        refine eq_empty_of_forall_notMem ?_
        rintro s ⟨f, hf, hle, -⟩
        rcases mem_cons.mp hf with rfl | hf
        · exact hlt hle
        · exact hlt ((hhead f hf).le.trans hle)
      rwa [hset, empty_union]

/-- The runs that a query looks at have the states of its pages. -/
theorem states_eq_image {ranges : Ranges} (hzero : (ranges.find 0).isSome) {first last : ℕ}
    (hle : first ≤ last) :
    {s | ∃ e ∈ ranges.above first, e.1 ≤ last ∧ e.2 = s} ∪ {ranges.state first} =
      ranges.state '' Set.Icc first last := by
  have hfloor : ∀ page, ∃ e, ranges.floor page = some e := by
    intro page
    obtain ⟨value, hvalue⟩ := Option.isSome_iff_exists.mp hzero
    have hmem : (0, value) ∈ ranges.upTo page :=
      mem_upTo.mpr ⟨find_eq_some_iff.mp hvalue, Nat.zero_le page⟩
    exact ⟨_, List.getLast?_eq_some_getLast (ne_nil_of_mem hmem)⟩
  have hstate : ∀ {page e}, ranges.floor page = some e → ranges.state page = e.2 :=
    fun h => valueAt_eq_of_floor h
  ext s
  constructor
  · rintro (⟨e, he, hlast, rfl⟩ | rfl)
    · obtain ⟨hmem, hfirst⟩ := mem_above.mp he
      refine ⟨e.1, ⟨hfirst.le, hlast⟩, hstate ?_⟩
      exact floor_eq_some_iff.mpr ⟨hmem, le_rfl, fun f _ hf => hf⟩
    · exact ⟨first, ⟨le_rfl, hle⟩, rfl⟩
  · rintro ⟨page, ⟨hfirst, hlast⟩, rfl⟩
    obtain ⟨e, he⟩ := hfloor page
    obtain ⟨hmem, hpage, hmax⟩ := floor_eq_some_iff.mp he
    rw [hstate he]
    rcases le_or_gt e.1 first with hef | hef
    · -- the page is in the run that the query starts in
      refine .inr (hstate (floor_eq_some_iff.mpr ⟨hmem, hef, fun f hf hff => ?_⟩)).symm
      exact hmax f hf (hff.trans hfirst)
    · exact .inl ⟨e, mem_above.mpr ⟨hmem, hef⟩, hpage.trans hlast, rfl⟩

/-- The state that a query reports from is what its pages have in common. -/
theorem combined_isMeet {ranges : Ranges} (h : ranges.entries = [] ∨ (ranges.find 0).isSome)
    {extent : Extent} (hvalid : extent.Valid) :
    (ranges.combined extent).IsMeet (ranges.state '' extent.pages) := by
  have hle : extent.firstPage ≤ extent.lastPage := by
    refine Nat.div_le_div_right ?_
    have := hvalid.1
    omega
  rw [Extent.pages, Finset.coe_Icc]
  unfold combined
  split
  · rename_i hempty
    have himage : ranges.state '' Set.Icc extent.firstPage extent.lastPage = {State.initial} := by
      ext s
      constructor
      · rintro ⟨page, -, rfl⟩
        exact state_eq_initial hempty page
      · rintro rfl
        exact ⟨extent.firstPage, ⟨le_rfl, hle⟩, state_eq_initial hempty _⟩
    rw [himage]
    exact State.isMeet_singleton _
  · rename_i hne
    rw [← states_eq_image (h.resolve_left hne) hle]
    exact combine_isMeet (State.isMeet_singleton _) (ranges.sorted.filter _)

end Ranges

/-! ## Reporting -/

theorem listDevices_eq (slots : ℕ) (copied devices : List ℤ) :
    listDevices slots copied devices =
      copied ++ (devices.filter fun device => 0 ≤ device).take (slots - copied.length) := by
  induction devices generalizing copied with
  | nil => simp [listDevices]
  | cons device rest ih =>
    rw [listDevices]
    split
    · rename_i hfits
      have hslots : slots - copied.length = (slots - (copied.length + 1)) + 1 := by omega
      rw [ih, filter_cons_of_pos (by simpa using hfits.1), hslots, take_succ_cons,
        length_append, length_singleton, append_assoc, singleton_append]
    · rename_i hnot
      rw [ih]
      by_cases hgpu : 0 ≤ device
      · have hfull : slots - copied.length = 0 := by
          omega
        rw [hfull, take_zero, take_zero]
      · rw [filter_cons_of_neg (by simpa using hgpu)]

theorem copiedDevices_eq (slots : ℕ) (pages : Pages) (extent : Extent) :
    copiedDevices slots (pages.accessedBy extent) = (pages.devices extent).take slots := by
  unfold copiedDevices Pages.devices
  simp only [listDevices_eq, nil_append, length_nil, Nat.sub_zero]
  generalize pages.accessedBy extent = accessedBy
  generalize filter _ _ = gpus
  by_cases hcpu : deviceCpu ∈ accessedBy
  · rcases lt_or_ge gpus.length slots with hlt | hge
    · have hall : gpus.take slots = gpus := take_of_length_le hlt.le
      rw [hall, if_pos ⟨hcpu, hlt⟩, if_pos hcpu, take_of_length_le]
      rw [length_append, length_singleton]
      exact hlt
    · have hfull : ¬ (gpus.take slots).length < slots := by
        rw [length_take]
        omega
      rw [if_neg fun h => hfull h.2, take_append_of_le_length hge]
  · rw [if_neg fun h => hcpu h.1, if_neg hcpu, append_nil]

/-- Unused slots are padded. -/
theorem take_append_replicate {α : Type} (l : List α) (n : ℕ) (x : α) :
    l.take n ++ List.replicate (n - (l.take n).length) x =
      (l ++ List.replicate n x).take n := by
  rw [take_append, take_replicate, length_take]
  congr 2
  omega

/-- A state reports what it has in common with the pages. -/
theorem State.IsMeet.report {value : State} {pages : Pages} {extent : Extent}
    (h : value.IsMeet (pages '' extent.pages)) (hfirst : extent.firstPage ∈ extent.pages) :
    value.readMostly = pages.readMostly extent ∧ value.preferred = pages.preferred extent ∧
      value.accessedBy = pages.accessedBy extent := by
  have hmem : pages extent.firstPage ∈ pages '' (extent.pages : Set ℕ) := ⟨_, hfirst, rfl⟩
  refine ⟨?_, ?_, Finset.ext fun device => ?_⟩
  · rw [Bool.eq_iff_iff, h.readMostly, Pages.readMostly, decide_eq_true_eq]
    exact forall_mem_image
  · unfold Pages.preferred
    rcases h.preferred with hall | ⟨hinvalid, s, ⟨p, hp, rfl⟩, s', ⟨p', hp', rfl⟩, hdiffer⟩
    · rw [if_pos fun page hpage => ?_, hall _ hmem]
      rw [hall _ hmem, hall _ ⟨page, hpage, rfl⟩]
    · rw [if_neg fun hall => hdiffer ((hall p hp).trans (hall p' hp').symm), hinvalid]
  · rw [h.accessedBy, Pages.accessedBy, Finset.mem_filter, forall_mem_image]
    exact ⟨fun hall => ⟨hall hfirst, fun page hpage => hall hpage⟩, fun hall page hpage =>
      hall.2 page hpage⟩

theorem Ranges.query_eq {ranges : Ranges} (h : ranges.entries = [] ∨ (ranges.find 0).isSome)
    (call : Query) : ranges.query call = Pages.query ranges.state call := by
  unfold Ranges.query Pages.query
  split
  · rename_i hvalid
    have hfirst : call.extent.firstPage ∈ call.extent.pages := by
      refine Finset.mem_Icc.mpr ⟨le_rfl, Nat.div_le_div_right ?_⟩
      have := hvalid.1.1
      omega
    obtain ⟨hread, hpreferred, haccessed⟩ := (combined_isMeet h hvalid.1).report hfirst
    cases call.kind with
    | readMostly => rw [State.report, hread]
    | preferredLocation => rw [State.report, hpreferred]
    | accessedBy =>
      rw [State.report, haccessed, copiedDevices_eq, take_append_replicate]
    | other => rw [State.report, hpreferred]
  · rfl

/-! ## Histories -/

theorem Ranges.represents {ranges : Ranges} (hfirst : ranges.entries = [] ∨ (ranges.find 0).isSome)
    (hcanonical : ∀ pair ∈ adjacentPairs ranges.entries, pair.1.2 ≠ pair.2.2) :
    Represents ranges ranges.state where
  state := rfl
  first := hfirst
  canonical := hcanonical
  query := query_eq hfirst
  failure call hfailed := by
    unfold advise at hfailed ⊢
    split at hfailed
    · exact absurd rfl hfailed
    · rename_i hinvalid
      rw [if_neg hinvalid]

theorem Represents.advise {ranges : Ranges} {pages : Pages} (h : Represents ranges pages)
    (call : Advise) : Represents (ranges.advise call).2 (pages.advise call) := by
  rw [← h.state, ← ranges.state_advise call]
  exact Ranges.represents (Ranges.isSome_find_advise h.first call)
    (Ranges.canonical_advise h.canonical call)

/-- **Managed advice.** After any calls of `advise`, the map represents the pages. -/
theorem Ranges.represents_pages (calls : List Advise) :
    Represents (calls.foldl (fun ranges call => (Ranges.advise ranges call).2) .empty)
      (calls.foldl Pages.advise fun _ => .initial) := by
  have hempty : Represents .empty fun _ => .initial := by
    refine Ranges.represents (.inl rfl) fun _ hp => absurd hp not_mem_nil
  suffices hrun : ∀ (ranges : Ranges) (pages : Pages), Represents ranges pages →
      Represents (calls.foldl (fun ranges call => (Ranges.advise ranges call).2) ranges)
        (calls.foldl Pages.advise pages) from hrun _ _ hempty
  induction calls with
  | nil => exact fun _ _ h => h
  | cons call calls ih => exact fun ranges pages h => ih _ _ (h.advise call)

end Lupine.Managed
