import Lupine.Codegen.Annotations

/-!
# Lengths come before their arrays

`parse_annotation` moves the length of an array ahead of it, but it looks at `length` only, which a
nullable array does not have, and it does not look again at a length that it moved.

* `lengths_precede_iff`: which lines lead to a list in which every length and count comes before its
  array.
* `count_after_array`: a nullable array that is annotated before its count stays before it.
-/

namespace Lupine.Codegen

open List Operation

variable {ops : List Operation} {test : Operation → Bool} {annotated : Annotation}
  {params : List Parameter}

/-- The parameter that holds the number of elements. -/
def Operation.size? (op : Operation) : Option Parameter := op.length?.or op.count?

theorem Operation.size?_eq_some_iff {op : Operation} {p : Parameter} :
    op.size? = some p ↔ op.length? = some p ∨ op.count? = some p := by
  cases op <;> simp [size?, length?, count?]

theorem map_name_replaceFirst {f : Operation → Operation} (hname : ∀ op, (f op).name = op.name) :
    (replaceFirst test f ops).map Operation.name = ops.map Operation.name := by
  induction ops with
  | nil => rfl
  | cons op ops ih =>
    rw [replaceFirst]
    split <;> simp [hname, ih]

theorem map_name_parse {lines : List ParamLine} (h : lines.mapM (parseParam params) = some ops) :
    ops.map Operation.name = lines.map ParamLine.name := by
  induction lines generalizing ops with
  | nil =>
    cases h
    rfl
  | cons line lines ih =>
    rw [mapM_cons] at h
    obtain ⟨op, hop, h⟩ := Option.bind_eq_some_iff.mp h
    obtain ⟨rest, hrest, h⟩ := Option.bind_eq_some_iff.mp h
    cases h
    rw [map_cons, map_cons, (parsed_parseParam hop).name, ih hrest]

/-- There is one operation for each line, in the order of the lines. -/
theorem map_name_annotatedOperations (h : annotatedOperations annotated params = some ops) :
    ops.map Operation.name = annotated.params.map ParamLine.name := by
  obtain ⟨lines, hlines, hpromoted⟩ := Option.bind_eq_some_iff.mp h
  refine promoted_of_lines (Q := fun ops => ops.map Operation.name = _) (fun _ _ _ h => ?_)
    (fun _ _ _ h => ?_) hpromoted (map_name_parse hlines)
  all_goals exact (map_name_replaceFirst (by intro; rfl)).trans h

theorem sizesKnown_iff {all known : List String} {ops : List Operation} :
    SizesKnown Operation.size? all known ops ↔ ∀ before op after p, ops = before ++ op :: after →
      op.size? = some p → p.name ∈ all → p.name ∈ known ++ before.map Operation.name := by
  constructor
  · rintro h before op after p rfl hp hall
    exact (sizesKnown_append.mp h).2.1 p hp hall
  · intro h
    induction ops generalizing known with
    | nil => trivial
    | cons op ops ih =>
      refine ⟨fun p hp hall => by simpa using h [] op ops p rfl hp hall, ih ?_⟩
      intro before other after p hsplit hp hall
      simpa using h (op :: before) other after p (by rw [hsplit]; rfl) hp hall

/-- **Lengths precede.** Of lines that annotate each parameter once, the list has one operation
each. The operation of every length and count comes before its array in the list exactly when, in
the order of the lines, some operation brings it in before any brings in the array, or the array is
not nullable, is not its own length and is brought in by its own line. -/
theorem lengths_precede_iff (h : parseAnnotation annotated params = some ops)
    (hnames : (annotated.params.map ParamLine.name).Nodup) :
    ∃ listed, annotatedOperations annotated params = some listed ∧
      listed.map Operation.name = annotated.params.map ParamLine.name ∧ ops.Perm listed ∧
      ((∀ before op after p, ops = before ++ op :: after →
          op.length? = some p ∨ op.count? = some p → (∃ other ∈ ops, other.name = p.name) →
          ∃ other ∈ before, other.name = p.name) ↔
        ∀ op ∈ listed, ∀ p, op.length? = some p ∨ op.count? = some p →
          (∃ other ∈ listed, other.name = p.name) →
          Foremost (·.mentions p.name) (·.mentions op.name) listed ∨
          op.length? = some p ∧ p.name ≠ op.name ∧
            listed.find? (·.mentions op.name) = some op) := by
  obtain ⟨listed, hlisted, hops⟩ := parse_inv h
  have hmap := map_name_annotatedOperations hlisted
  have hperm : ops.Perm listed := hops ▸ perm_moveLengths [] _ listed
  have hknown := @sizesKnown_listed Operation.size? listed
    (fun op p hp => size?_eq_some_iff.mpr (.inl hp)) (hmap ▸ hnames)
  rw [← hops, sizesKnown_iff] at hknown
  refine ⟨listed, hlisted, hmap, hperm, ?_⟩
  simpa [SizesListed, size?_eq_some_iff, hperm.mem_iff] using hknown

/-- The lines of an array and of its length or count. -/
def lengthLines (lines : List ParamLine) : Option (List Operation) :=
  parseAnnotation ⟨lines, [], false, []⟩ [⟨"array", .pointer (.named "int" false) false⟩,
    ⟨"count", .pointer (.named "size_t" false) false⟩]

/-- The length is annotated last. -/
theorem lengths_precede_of_array : ∃ ops, lengthLines
    [⟨"array", .recvOnly, [.length "count"]⟩, ⟨"count", .sendRecv, []⟩] = some ops ∧
      (ops.map Operation.name).Perm ["array", "count"] := by
  obtain ⟨ops, hops⟩ : ∃ ops, lengthLines
    [⟨"array", .recvOnly, [.length "count"]⟩, ⟨"count", .sendRecv, []⟩] = some ops := ⟨_, rfl⟩
  obtain ⟨listed, -, hnames, hperm, -⟩ := lengths_precede_iff hops (by decide)
  exact ⟨ops, hops, (hperm.map _).trans (.of_eq hnames)⟩

/-- **Counts.** A nullable array that is annotated before its count stays before it. -/
theorem count_after_array :
    ∃ op after p, lengthLines [⟨"array", .recvOnly, [.nullable, .length "count"]⟩,
      ⟨"count", .sendRecv, []⟩] = some (op :: after) ∧ op.count? = some p ∧
        ∃ other ∈ after, other.name = p.name :=
  ⟨_, _, _, rfl, rfl, _, mem_cons_self .., rfl⟩

end Lupine.Codegen
