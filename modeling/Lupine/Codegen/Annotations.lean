import Mathlib.Data.Int.Notation
import Mathlib.Data.List.Basic
import Mathlib.Data.List.Nodup
import Lupine.Foundations.Execution

/-!
# Annotations and operations

The first half of the code generator: `parse_annotation` (`codegen/codegen.py`) turns the `@param`
and `@deeparray` lines of an annotated function into a list of operations (`codegen/ops.py`), each
of which later emits its part of the client and of the server.

A line is given by its words. The routing key and the directives that do not touch the operations
are left out, except that a received deep structure needs a graph node to own its arrays.

Main result: `precedes_of_parse`, the length of an array comes before the array.
-/

namespace Lupine.Codegen

open List Option

/-! ## Types and parameters -/

/-- The C types that the generator tells apart. -/
inductive CType
  | named (name : String) (const : Bool)
  | pointer (target : CType) (const : Bool)
  /-- An array or a function type. -/
  | other
deriving DecidableEq

namespace CType

def const : CType → Bool
  | named _ const | pointer _ const => const
  | other => false

/-- `format() in ("void", "const void")`. -/
def isVoid : CType → Bool
  | named name _ => name = "void"
  | _ => false

def isPointer : CType → Bool
  | pointer _ _ => true
  | _ => false

/-- `ptr_to`. -/
def pointee : CType → CType
  | pointer target _ => target
  | type => type

/-- `format() == "int"`. -/
def isInt (type : CType) : Bool := type = named "int" false

end CType

/-- A parameter of a prototype. -/
structure Parameter where
  name : String
  type : CType
deriving DecidableEq

/-! ## Operations -/

/-- The length of an array: a number of bytes, or a parameter. -/
inductive Length
  | bytes (n : ℤ)
  | parameter (length : Parameter)
deriving DecidableEq

/-- `RECV_ON`. -/
inductive RecvOn
  | success
  | error
deriving DecidableEq

/-- The operations of `codegen/ops.py`. -/
inductive Operation
  | nullable (send recv : Bool) (parameter : Parameter)
  | array (send recv : Bool) (parameter : Parameter) (length : Length) (nullable : Bool)
  | inOutCount (parameter : Parameter) (anchor : String)
  | nullableArray (parameter count : Parameter) (recvOn : Option RecvOn)
  | deepStruct (send recv : Bool) (parameter : Parameter) (members : List (String × String))
  | nullTerminated (send recv : Bool) (parameter : Parameter)
  | opaqueType (send recv : Bool) (parameter : Parameter)
  | dereference (send recv : Bool) (parameter : Parameter)
  | scalar (send recv : Bool) (parameter mode : Parameter) (width : Option String)
  | versionedStruct (parameter : Parameter) (strings cleared : List String)
      (memberGuards : List (String × String))
deriving DecidableEq

namespace Operation

/-- What is annotated. -/
def parameter : Operation → Parameter
  | nullable _ _ p | array _ _ p _ _ | inOutCount p _ | nullableArray p _ _ | deepStruct _ _ p _
  | nullTerminated _ _ p | opaqueType _ _ p | dereference _ _ p | scalar _ _ p _ _
  | versionedStruct p _ _ _ => p

def name (op : Operation) : String := op.parameter.name

/-- `getattr(op, "send", True)`. -/
def send : Operation → Bool
  | nullable send _ _ | array send _ _ _ _ | deepStruct send _ _ _ | nullTerminated send _ _
  | opaqueType send _ _ | dereference send _ _ | scalar send _ _ _ _ => send
  | inOutCount .. | nullableArray .. | versionedStruct .. => true

/-- `getattr(op, "recv", False)`. -/
def recv : Operation → Bool
  | nullable _ recv _ | array _ recv _ _ _ | deepStruct _ recv _ _ | nullTerminated _ recv _
  | opaqueType _ recv _ | dereference _ recv _ | scalar _ recv _ _ _ => recv
  | inOutCount .. => true
  | nullableArray .. | versionedStruct .. => false

/-- `getattr(op, "length", None)`, if it is a parameter. -/
def length? : Operation → Option Parameter
  | array _ _ _ (.parameter length) _ => some length
  | _ => none

/-- `op.count`, of a `NullableArrayOperation`. -/
def count? : Operation → Option Parameter
  | nullableArray _ count _ => some count
  | _ => none

/-- `isinstance(op, DereferenceOperation)`. -/
def isDereference : Operation → Bool
  | dereference .. => true
  | _ => false

end Operation

/-! ## The `@param` lines -/

variable {op : Operation}
variable {test : Operation → Bool}

/-- What follows the direction of a parameter. -/
inductive Modifier
  | length (name : String)
  /-- `SIZE:<text>`, and what Python's `int` makes of the text. -/
  | size (text : String) (value : Option ℤ)
  | nullTerminated
  | nullable
  | deref
  | onSuccess
  | onError
  | scalar (owner : Option String)
  | versioned
  | strings (members : List String)
  | cleared (members : List String)
  | memberGuard (member condition : String)
deriving DecidableEq

/-- The first word after the name on a `@param` line. -/
inductive Direction
  | sendOnly
  | recvOnly
  | sendRecv
  | other
deriving DecidableEq

/-- A `@param` line. -/
structure ParamLine where
  name : String
  direction : Direction
  args : List Modifier

/-- `annotation_param`. -/
def annotationParam (params : List Parameter) (name : String) : Option Parameter :=
  params.find? fun p => p.name = name

section Modifiers

variable (args : List Modifier)

def lengthArg : Option String := args.findSome? fun | .length name => some name | _ => none

def sizeArg : Option (String × Option ℤ) :=
  args.findSome? fun | .size text value => some (text, value) | _ => none

def scalarArg : Option (Option String) :=
  args.findSome? fun | .scalar owner => some owner | _ => none

def recvOnArg : Option RecvOn :=
  args.findSome? fun | .onSuccess => some .success | .onError => some .error | _ => none

def stringsArg : List String := (args.findSome? fun | .strings ms => some ms | _ => none).getD []

def clearedArg : List String := (args.findSome? fun | .cleared ms => some ms | _ => none).getD []

def memberGuardArgs : List (String × String) :=
  args.filterMap fun | .memberGuard member condition => some (member, condition) | _ => none

end Modifiers

/-- `ON_SUCCESS` and `ON_ERROR` need a received nullable array and nothing else. -/
def conditionalAllowed (args : List Modifier) (send recv : Bool) : Bool :=
  !(.deref ∈ args || (scalarArg args).isSome || .versioned ∈ args || (sizeArg args).isSome ||
    .nullTerminated ∈ args || !(.nullable ∈ args && (lengthArg args).isSome && recv && !send))

/-- The number of `LENGTH`, `SIZE`, `NULL_TERMINATED` and `NULLABLE`. -/
def sizings (args : List Modifier) : ℕ :=
  (lengthArg args).isSome.toNat + (sizeArg args).isSome.toNat +
    (decide (.nullTerminated ∈ args)).toNat + (decide (.nullable ∈ args)).toNat

/-- At most one of them, or `NULLABLE LENGTH`. -/
def sizingAllowed (args : List Modifier) : Bool :=
  sizings args ≤ 1 || (.nullable ∈ args && (lengthArg args).isSome && (sizeArg args).isNone &&
    .nullTerminated ∉ args)

/-- `VERSIONED`. -/
def parseVersioned (param : Parameter) (send recv : Bool) (args : List Modifier) :
    Option Operation :=
  if send && !recv then
    some (.versionedStruct param (stringsArg args) (clearedArg args) (memberGuardArgs args))
  else none

/-- The handle whose pointer mode decides, the first parameter when unnamed. -/
def scalarMode (params : List Parameter) : Option String → Option Parameter
  | some name => annotationParam params name
  | none => params.head?

section

variable (params : List Parameter) (param : Parameter) (send recv : Bool) (args : List Modifier)

/-- `SCALAR[:<owner>]`. -/
def parseScalar (owner : Option String) : Option Operation :=
  if (lengthArg args).isSome || .nullTerminated ∈ args || .nullable ∈ args || .deref ∈ args then
    none
  else if (sizeArg args).isNone && param.type.pointee.isVoid then none
  else (scalarMode params owner).map fun mode =>
    .scalar send recv param mode ((sizeArg args).map Prod.fst)

/-- `LENGTH:<parameter>`. -/
def parseLength (name : String) : Option Operation := do
  let length ← annotationParam params name
  if .nullable ∈ args then
    if send then
      if recv then none else return .array true false param (.parameter length) true
    else if recv then return .nullableArray param length (recvOnArg args)
    else none
  else return .array send recv param (.parameter length) false

/-- `NULL_TERMINATED`: a received string is a `const char **`. -/
def parseNullTerminated : Option Operation :=
  if recv && (send || !(param.type.pointee.isPointer &&
    param.type.pointee.pointee = .named "char" true)) then none
  else some (.nullTerminated send recv param)

/-- The pointer parameters of `parse_annotation`. -/
def parsePointer : Option Operation :=
  if .onSuccess ∈ args && .onError ∈ args then none
  else if (recvOnArg args).isSome && !conditionalAllowed args send recv then none
  else if .versioned ∈ args then parseVersioned param send recv args
  else match scalarArg args with
  | some owner => parseScalar params param send recv args owner
  | none =>
    if !sizingAllowed args then none
    else if .deref ∈ args then some (.dereference send recv param)
    else match lengthArg args, sizeArg args with
    | some name, _ => parseLength params param send recv args name
    | none, some (_, value) => value.map fun n => .array send recv param (.bytes n) false
    | none, none =>
      if .nullTerminated ∈ args then parseNullTerminated param send recv
      else if .nullable ∈ args then some (.nullable send recv param)
      else if recv then
        if param.type.pointee = .named "void" false then none
        else some (.dereference send recv param)
      else some (.opaqueType send recv param)

end

/-- One `@param` line. What is const is not received. -/
def parseParam (params : List Parameter) (line : ParamLine) : Option Operation := do
  let param ← annotationParam params line.name
  let send := line.direction = .sendOnly || line.direction = .sendRecv
  let recv := line.direction = .recvOnly || line.direction = .sendRecv
  match param.type with
  | .pointer target _ => parsePointer params param send (recv && !target.const) line.args
  | .named _ const => return .opaqueType send (recv && !const) param
  | .other => none

/-! ## The passes over the list -/

/-- Replace the first operation that `test` accepts. -/
def replaceFirst (test : Operation → Bool) (f : Operation → Operation) :
    List Operation → List Operation
  | [] => []
  | op :: ops => if test op then f op :: ops else op :: replaceFirst test f ops

/-- Each count of a nullable array, with the first such array. -/
def anchors (ops : List Operation) : List (String × String) :=
  ops.foldl (fun found op => match op with
    | .nullableArray p count _ =>
      if found.any (fun entry => entry.1 = count.name) then found
      else found ++ [(count.name, p.name)]
    | _ => found) []

/-- Promote the count of a nullable array to an in-out count. -/
def promoteCount (ops : List Operation) (entry : String × String) : List Operation :=
  replaceFirst (fun op => op.name = entry.1 && op.isDereference)
    (fun op => .inOutCount op.parameter entry.2) ops

def promoteCounts (ops : List Operation) : List Operation := (anchors ops).foldl promoteCount ops

/-- The lines of one annotation. `graphNode` says that the routing key is a graph node. -/
structure Annotation where
  params : List ParamLine
  /-- Parameter, array member and count member. -/
  deepArrays : List (String × String × String)
  graphNode : Bool
  retains : List String

/-- The deep arrays by parameter. -/
def Annotation.deepMembers (annotated : Annotation) : List (String × List (String × String)) :=
  (annotated.deepArrays.map Prod.fst).dedup.map fun name =>
    (name, annotated.deepArrays.filterMap fun entry =>
      if entry.1 = name then some entry.2 else none)

/-- Promote a parameter with deep arrays. A structure that is only received needs an owner. -/
def promoteStruct (graphNode : Bool) (ops : List Operation)
    (entry : String × List (String × String)) : Option (List Operation) :=
  match ops.find? fun op => op.name = entry.1 with
  | none => some ops
  | some op =>
    if op.recv && !op.send && !graphNode then none
    else some (replaceFirst (fun op => op.name = entry.1)
      (fun op => .deepStruct op.send op.recv op.parameter entry.2) ops)

/-- The loop that moves each length ahead of the first array that depends on it. `done` are the
operations before the index of the loop; a length that is moved takes the place of the array, which
comes next. -/
def moveLengths (done : List Operation) : ℕ → List Operation → List Operation
  | 0, rest => done ++ rest
  | _ + 1, [] => done
  | fuel + 1, op :: rest =>
    match op.length? with
    | none => moveLengths (done ++ [op]) fuel rest
    | some length =>
      if (done ++ [op]).any fun other => other.name = length.name then
        moveLengths (done ++ [op]) fuel rest
      else match rest.find? fun other => other.name = length.name with
      | none => moveLengths (done ++ [op]) fuel rest
      | some source =>
        moveLengths (done ++ [source]) fuel
          (op :: rest.eraseP fun other => other.name = length.name)

/-- `@retain` needs a received string. -/
def retainAllowed (ops : List Operation) (name : String) : Bool :=
  match ops.find? fun op => op.name = name with
  | some (.nullTerminated _ recv _) => recv
  | _ => false

/-- The operations in the order of their lines. -/
def annotatedOperations (annotated : Annotation) (params : List Parameter) :
    Option (List Operation) := do
  let ops ← annotated.params.mapM (parseParam params)
  annotated.deepMembers.foldlM (promoteStruct annotated.graphNode) (promoteCounts ops)

/-- `parse_annotation`. -/
def parseAnnotation (annotated : Annotation) (params : List Parameter) :
    Option (List Operation) := do
  let ops ← annotatedOperations annotated params
  let ops := moveLengths [] ops.length ops
  if annotated.retains.Nodup && annotated.retains.all (retainAllowed ops) then some ops else none

/-! ## What is accepted -/

/-- An array that may be null is sent and not received. -/
def Operation.NullableIsSent : Operation → Prop
  | .array send recv _ _ true => send = true ∧ recv = false
  | _ => True

/-- What an operation has from the line that it was parsed from. -/
structure Operation.Parsed (op : Operation) (name : String) : Prop where
  name : op.name = name
  nullable : op.NullableIsSent

section Passes

variable {ops : List Operation} {op : Operation}

theorem mem_replaceFirst {f : Operation → Operation} (h : op ∈ replaceFirst test f ops) :
    op ∈ ops ∨ ∃ old ∈ ops, test old = true ∧ op = f old := by
  induction ops with
  | nil => cases h
  | cons first ops ih =>
    rw [replaceFirst] at h
    split at h
    · rcases mem_cons.mp h with rfl | h
      · exact .inr ⟨first, mem_cons_self .., ‹_›, rfl⟩
      · exact .inl (mem_cons_of_mem _ h)
    · rcases mem_cons.mp h with rfl | h
      · exact .inl (mem_cons_self ..)
      · rcases ih h with h | ⟨old, hold, htest, heq⟩
        · exact .inl (mem_cons_of_mem _ h)
        · exact .inr ⟨old, mem_cons_of_mem _ hold, htest, heq⟩

/-- Promoting keeps what holds of every operation and of the promoted ones. -/
theorem forall_replaceFirst {P : Operation → Prop} {f : Operation → Operation}
    (h : ∀ op ∈ ops, P op) (hf : ∀ op, P (f op)) : ∀ op ∈ replaceFirst test f ops, P op := by
  intro op hop
  rcases mem_replaceFirst hop with hop | ⟨old, -, -, rfl⟩
  · exact h op hop
  · exact hf old

/-- What one round of the loop does: it passes over an operation, or puts the length ahead. -/
theorem moveLengths_cons (done : List Operation) (fuel : ℕ) (op : Operation)
    (rest : List Operation) :
    (moveLengths done (fuel + 1) (op :: rest) = moveLengths (done ++ [op]) fuel rest ∧
      ∀ length, op.length? = some length → (∃ other ∈ done ++ [op], other.name = length.name) ∨
        ∀ other ∈ rest, other.name ≠ length.name) ∨
    ∃ length source mid tail, op.length? = some length ∧ source.name = length.name ∧
      rest = mid ++ source :: tail ∧ moveLengths done (fuel + 1) (op :: rest) =
        moveLengths (done ++ [source]) fuel (op :: (mid ++ tail)) := by
  rw [moveLengths]
  split
  · rename_i hlength
    refine .inl ⟨rfl, fun length h => ?_⟩
    rw [hlength] at h
    cases h
  · rename_i length hlength
    have hunique : ∀ length', op.length? = some length' → length' = length :=
      fun length' h => Option.some.inj (h.symm.trans hlength)
    split
    · rename_i hdone
      refine .inl ⟨rfl, fun length' h => .inl ?_⟩
      obtain rfl := hunique length' h
      simpa using hdone
    · split
      · rename_i hnone
        refine .inl ⟨rfl, fun length' h => .inr ?_⟩
        obtain rfl := hunique length' h
        simpa using hnone
      · rename_i source hsource
        obtain ⟨hname, mid, tail, rfl, hmid⟩ := List.find?_eq_some_iff_append.mp hsource
        refine .inr ⟨length, source, mid, tail, hlength, by simpa using hname, rfl, ?_⟩
        rw [eraseP_append_right _ (by simpa using hmid)]
        simp only [eraseP_cons, hname, cond_true]

theorem perm_moveLengths (done : List Operation) (fuel : ℕ) (rest : List Operation) :
    (moveLengths done fuel rest).Perm (done ++ rest) := by
  induction fuel generalizing done rest with
  | zero => exact .refl _
  | succ fuel ih =>
    cases rest with
    | nil => simp [moveLengths]
    | cons op rest =>
      rcases moveLengths_cons done fuel op rest with
        ⟨heq, -⟩ | ⟨length, source, mid, tail, -, -, rfl, heq⟩
      · rw [heq]
        exact (ih _ _).trans (.of_eq (by simp))
      · rw [heq]
        refine (ih _ _).trans ?_
        rw [append_assoc]
        exact .append_left done (@perm_middle _ source (op :: mid) tail).symm

end Passes

/-! ## Sizes -/

/-- The operation brings a parameter into the list: its own, or its length. -/
def Operation.mentions (op : Operation) (name : String) : Bool :=
  op.name = name || op.length?.any fun p => p.name = name

/-- Some operation that `first` accepts comes before all that `second` accepts. -/
def Foremost (first second : Operation → Bool) : List Operation → Prop
  | [] => False
  | op :: ops => second op = false ∧ (first op = true ∨ Foremost first second ops)

section Order

variable (size? : Operation → Option Parameter) (all : List String)

/-- The size of every operation is among the names before it, or not annotated. -/
def SizesKnown : List String → List Operation → Prop
  | _, [] => True
  | known, op :: ops => (∀ p, size? op = some p → p.name ∈ all → p.name ∈ known) ∧
      SizesKnown (known ++ [op.name]) ops

/-- What the loop makes of the operations that are left: the size of each is brought in before the
operation, or by an array that nothing else brings in. -/
def SizesListed (known : List String) (ops : List Operation) : Prop :=
  ∀ op ∈ ops, ∀ p, size? op = some p → p.name ∈ all → p.name ∈ known ∨
    Foremost (·.mentions p.name) (·.mentions op.name) ops ∨
    op.length? = some p ∧ p.name ≠ op.name ∧ ops.find? (·.mentions op.name) = some op

variable {size? all} {known : List String} {op source : Operation} {rest mid tail : List Operation}

theorem sizesKnown_append {before after : List Operation} :
    SizesKnown size? all known (before ++ after) ↔ SizesKnown size? all known before ∧
      SizesKnown size? all (known ++ before.map Operation.name) after := by
  induction before generalizing known with
  | nil => simp [SizesKnown]
  | cons op before ih => simp [SizesKnown, ih, and_assoc]

theorem Operation.mentions_iff {name : String} :
    op.mentions name = true ↔ op.name = name ∨ ∃ p, op.length? = some p ∧ p.name = name := by
  simp [Operation.mentions, Option.any_eq_true]

theorem Operation.mentions_self (op : Operation) : op.mentions op.name = true := by
  simp [Operation.mentions]

/-- An operation that neither test accepts does not matter. -/
theorem foremost_middle {first second : Operation → Bool} (h₁ : first source = false)
    (h₂ : second source = false) : Foremost first second (mid ++ source :: tail) ↔
      Foremost first second (mid ++ tail) := by
  induction mid with
  | nil => simp [Foremost, h₁, h₂]
  | cons op mid ih => simp [Foremost, ih]

theorem find?_middle {test : Operation → Bool} (h : test source = false) :
    (mid ++ source :: tail).find? test = (mid ++ tail).find? test := by
  rw [find?_append, find?_append, find?_cons_of_neg (by simp [h])]

/-- The names known and those of the operations left are those of all, and no two are the same. -/
structure Splits (all known : List String) (rest : List Operation) : Prop where
  nodup : all.Nodup
  perm : (known ++ rest.map Operation.name).Perm all

theorem Splits.cons (h : Splits all known (op :: rest)) : Splits all (known ++ [op.name]) rest :=
  ⟨h.nodup, by simpa using h.perm⟩

theorem Splits.mem_iff (h : Splits all known rest) {name : String} :
    name ∈ all ↔ name ∈ known ∨ ∃ op ∈ rest, op.name = name := by
  simp [← h.perm.mem_iff]

/-- The names of the operations that are left are new. -/
theorem Splits.notMem (h : Splits all known rest) (hop : op ∈ rest) : op.name ∉ known :=
  fun hmem => disjoint_of_nodup_append (h.perm.nodup_iff.mpr h.nodup) hmem (mem_map_of_mem hop)

theorem Splits.move (h : Splits all known (op :: (mid ++ source :: tail))) :
    Splits all known (source :: op :: (mid ++ tail)) :=
  ⟨h.nodup, .trans (.append_left known ((@perm_middle _ source (op :: mid) tail).symm.map _))
    h.perm⟩

/-- A round that passes over an operation. -/
theorem sizesListed_cons (h : Splits all known (op :: rest))
    (hpass : ∀ length, op.length? = some length →
      length.name ∈ known ++ [op.name] ∨ ∀ other ∈ rest, other.name ≠ length.name) :
    SizesListed size? all known (op :: rest) ↔
      (∀ p, size? op = some p → p.name ∈ all → p.name ∈ known) ∧
        SizesListed size? all (known ++ [op.name]) rest := by
  -- what the operation brings in is known once it is passed
  have hknown : ∀ name ∈ all, op.mentions name = true → name ∈ known ++ [op.name] := by
    intro name hall hmentions
    rcases Operation.mentions_iff.mp hmentions with rfl | ⟨length, hlength, rfl⟩
    · simp
    · rcases hpass length hlength with hmem | hnone
      · exact hmem
      · exact (h.cons.mem_iff.mp hall).resolve_right fun ⟨other, hother, hname⟩ =>
          hnone other hother hname
  have hother : ∀ other ∈ rest, op.mentions other.name = false := fun other hother =>
    Bool.eq_false_iff.mpr fun hmentions => h.cons.notMem hother
      (hknown _ (h.cons.mem_iff.mpr (.inr ⟨other, hother, rfl⟩)) hmentions)
  constructor
  · refine fun hlisted => ⟨fun p hp hall => ?_, fun other hmem p hp hall => ?_⟩
    · rcases hlisted op mem_cons_self p hp hall with hmem | hfirst | ⟨hlength, hne, -⟩
      · exact hmem
      · simp [Foremost, Operation.mentions_self] at hfirst
      · have hmem := hknown _ hall (Operation.mentions_iff.mpr (.inr ⟨p, hlength, rfl⟩))
        simpa [hne] using hmem
    · rcases hlisted other (mem_cons_of_mem _ hmem) p hp hall with hknow | hfirst | ⟨hl, hne, hfind⟩
      · exact .inl (mem_append_left _ hknow)
      · exact hfirst.2.imp (hknown _ hall) .inl
      · rw [find?_cons_of_neg (by simp [hother other hmem])] at hfind
        exact .inr (.inr ⟨hl, hne, hfind⟩)
  · rintro ⟨hown, hrest⟩ other hmem p hp hall
    rcases mem_cons.mp hmem with rfl | hmem
    · exact .inl (hown p hp hall)
    · have hno := hother other hmem
      rcases hrest other hmem p hp hall with hknow | hfirst | ⟨hl, hne, hfind⟩
      · rcases mem_append.mp hknow with hknow | hself
        · exact .inl hknow
        · rw [mem_singleton.mp hself]
          exact .inr (.inl ⟨hno, .inl op.mentions_self⟩)
      · exact .inr (.inl ⟨hno, .inr hfirst⟩)
      · exact .inr (.inr ⟨hl, hne, by rwa [find?_cons_of_neg (by simp [hno])]⟩)

/-- A round that puts the length of an array ahead of it. -/
theorem sizesListed_move (h : Splits all known (op :: (mid ++ source :: tail)))
    (hsize : ∀ op p, op.length? = some p → size? op = some p) {length : Parameter}
    (hlength : op.length? = some length) (hname : source.name = length.name) :
    SizesListed size? all known (op :: (mid ++ source :: tail)) ↔
      (∀ p, size? source = some p → p.name ∈ all → p.name ∈ known) ∧
        SizesListed size? all (known ++ [source.name]) (op :: (mid ++ tail)) := by
  have hmentions : op.mentions source.name = true :=
    Operation.mentions_iff.mpr (.inr ⟨length, hlength, hname.symm⟩)
  have hmoved := h.move
  have hnot : ∀ other ∈ op :: (mid ++ tail), other.name ∉ known ++ [source.name] :=
    fun other hother => hmoved.cons.notMem hother
  have hall : ∀ other ∈ op :: (mid ++ tail), other.name ∈ all :=
    fun other hother => hmoved.cons.mem_iff.mpr (.inr ⟨other, hother, rfl⟩)
  have hne : source ≠ op := by
    rintro rfl
    exact hnot source mem_cons_self (by simp)
  -- once its own size is known, the length brings in nothing new
  have hnew : (∀ p, size? source = some p → p.name ∈ all → p.name ∈ known) →
      ∀ name ∈ all, name ∉ known ++ [source.name] → source.mentions name = false := by
    intro hown name hall hnot
    refine Bool.eq_false_iff.mpr fun hmem => hnot ?_
    rcases Operation.mentions_iff.mp hmem with rfl | ⟨p, hp, rfl⟩
    · simp
    · exact mem_append_left _ (hown p (hsize source p hp) hall)
  constructor
  · intro hlisted
    have hown : ∀ p, size? source = some p → p.name ∈ all → p.name ∈ known := by
      intro p hp hpall
      rcases hlisted source (by simp) p hp hpall with hmem | hfirst | ⟨-, -, hfind⟩
      · exact hmem
      · simp [Foremost, hmentions] at hfirst
      · simp only [find?_cons, hmentions] at hfind
        exact absurd (Option.some.inj hfind).symm hne
    refine ⟨hown, fun other hother p hp hpall => ?_⟩
    by_cases hmem : p.name ∈ known ++ [source.name]
    · exact .inl hmem
    have hp' := hnew hown _ hpall hmem
    have hother' := hnew hown _ (hall other hother) (hnot other hother)
    have hlist := hlisted other (by simp at hother ⊢; tauto) p hp hpall
    rw [← cons_append, foremost_middle hp' hother', find?_middle hother'] at hlist
    exact .inr (hlist.resolve_left fun h => hmem (mem_append_left _ h))
  · rintro ⟨hown, hrest⟩ other hother p hp hpall
    by_cases hself : other = source
    · exact .inl (hown p (hself ▸ hp) hpall)
    have hother : other ∈ op :: (mid ++ tail) := by simp [hself] at hother ⊢; tauto
    by_cases hmem : p.name ∈ known ++ [source.name]
    · rcases mem_append.mp hmem with hmem | hmem
      · exact .inl hmem
      · rw [mem_singleton] at hmem
        rcases mem_cons.mp hother with rfl | hrest
        · obtain rfl := Option.some.inj (hp.symm.trans (hsize _ _ hlength))
          have hself := hnot other mem_cons_self
          refine .inr (.inr ⟨hlength, fun heq => hself (by simp [← heq, hmem]), ?_⟩)
          simp only [find?_cons, Operation.mentions_self]
        · have hno : op.mentions other.name = false := Bool.eq_false_iff.mpr fun hmentions => by
            rcases Operation.mentions_iff.mp hmentions with heq | ⟨q, hq, heq⟩
            · exact hmoved.cons.cons.notMem hrest (by simp [heq])
            · obtain rfl := Option.some.inj (hq.symm.trans hlength)
              exact hnot other hother (by simp [← heq, hname])
          exact .inr (.inl ⟨hno, .inl (hmem ▸ hmentions)⟩)
    have hp' := hnew hown _ hpall hmem
    have hother' := hnew hown _ (hall other hother) (hnot other hother)
    rw [← cons_append, foremost_middle hp' hother', find?_middle hother']
    exact .inr ((hrest other hother p hp hpall).resolve_left hmem)

theorem sizesKnown_concat {done : List Operation} : SizesKnown size? all [] (done ++ [op]) ↔
    SizesKnown size? all [] done ∧
      ∀ p, size? op = some p → p.name ∈ all → p.name ∈ done.map Operation.name := by
  simp only [sizesKnown_append, SizesKnown, nil_append, and_true]

/-- The loop knows every size where it puts an operation, exactly when the lines list it so. -/
theorem sizesKnown_moveLengths {done rest : List Operation} {fuel : ℕ} (hfuel : rest.length ≤ fuel)
    (hsize : ∀ op p, op.length? = some p → size? op = some p)
    (h : Splits all (done.map Operation.name) rest) :
    SizesKnown size? all [] (moveLengths done fuel rest) ↔
      SizesKnown size? all [] done ∧ SizesListed size? all (done.map Operation.name) rest := by
  induction fuel generalizing done rest with
  | zero =>
    obtain rfl : rest = [] := length_eq_zero_iff.mp (Nat.le_zero.mp hfuel)
    simp [moveLengths, SizesListed]
  | succ fuel ih =>
    cases rest with
    | nil => simp [moveLengths, SizesListed]
    | cons op rest =>
      rw [length_cons, Nat.succ_le_succ_iff] at hfuel
      rcases moveLengths_cons done fuel op rest with
        ⟨heq, hpass⟩ | ⟨length, source, mid, tail, hlength, hname, rfl, heq⟩
      · rw [heq, @ih (done ++ [op]) rest hfuel (by simpa using h.cons), sizesKnown_concat,
          sizesListed_cons h fun length hl => by
            simpa [eq_comm (a := op.name)] using hpass length hl, and_assoc, map_append]
        rfl
      · rw [heq, @ih (done ++ [source]) (op :: (mid ++ tail)) (by simpa [Nat.add_assoc] using hfuel)
          (by simpa using h.move.cons), sizesKnown_concat, sizesListed_move h hsize hlength hname,
          and_assoc, map_append]
        rfl

theorem sizesKnown_listed {listed : List Operation}
    (hsize : ∀ op p, op.length? = some p → size? op = some p)
    (hnodup : (listed.map Operation.name).Nodup) :
    SizesKnown size? (listed.map Operation.name) [] (moveLengths [] listed.length listed) ↔
      SizesListed size? (listed.map Operation.name) [] listed := by
  rw [sizesKnown_moveLengths (Nat.le_refl _) hsize ⟨hnodup, .refl _⟩]
  exact and_iff_right trivial

end Order

section Parsed

variable {annotated : Annotation} {params : List Parameter} {ops : List Operation}

section

variable (h : parseAnnotation annotated params = some ops)
include h

/-- An accepted list is a list of parsed lines that went through the passes. -/
theorem parse_inv : ∃ listed, annotatedOperations annotated params = some listed ∧
    ops = moveLengths [] listed.length listed := by
  obtain ⟨listed, hlisted, h⟩ := bind_eq_some_iff.mp h
  dsimp only at h
  split at h
  · exact ⟨listed, hlisted, (Option.some.inj h).symm⟩
  · cases h

/-- **Lengths come first.** In an accepted list, an array comes after the operation of its length,
if the length is annotated and no length is an array itself. -/
theorem precedes_of_parse (hdistinct : (ops.map Operation.name).Nodup)
    (hscalar : ∀ op ∈ ops, ∀ length, op.length? = some length →
      ∀ other ∈ ops, other.name = length.name → other.length? = none)
    {before after : List Operation} (hsplit : ops = before ++ op :: after)
    {length : Parameter} (hlength : op.length? = some length)
    (hexists : ∃ other ∈ ops, other.name = length.name) :
    ∃ other ∈ before, other.name = length.name := by
  obtain ⟨listed, -, hops⟩ := parse_inv h
  have hperm : ops.Perm listed := hops ▸ perm_moveLengths [] _ listed
  have hlisted : SizesListed Operation.length? (listed.map Operation.name) [] listed := by
    intro op hop p hp hall
    rw [← hperm.mem_iff] at hop
    have hfirst : ∀ other ∈ listed, other.mentions op.name = true → other = op := by
      intro other hother hmentions
      rw [← hperm.mem_iff] at hother
      rcases Operation.mentions_iff.mp hmentions with hname | ⟨q, hq, hname⟩
      · exact inj_on_of_nodup_map hdistinct hother hop hname
      · rw [hscalar other hother q hq op hop hname.symm] at hp
        cases hp
    refine .inr (.inr ⟨hp, fun hself => ?_, ?_⟩)
    · rw [hscalar op hop p hp op hop hself.symm] at hp
      cases hp
    · cases hfind : listed.find? (·.mentions op.name) with
      | none =>
        have := find?_eq_none.mp hfind op (hperm.mem_iff.mp hop)
        exact absurd op.mentions_self this
      | some other =>
        have hmentions : other.mentions op.name = true := by simpa using find?_some hfind
        rw [hfirst other (mem_of_find?_eq_some hfind) hmentions]
  have hknown := (sizesKnown_listed (fun _ _ hp => hp)
    ((hperm.map _).nodup_iff.mp hdistinct)).mpr hlisted
  rw [← hops, hsplit, sizesKnown_append] at hknown
  have hall : length.name ∈ listed.map Operation.name := by
    obtain ⟨other, hother, hname⟩ := hexists
    exact hname ▸ mem_map_of_mem (hperm.mem_iff.mp hother)
  simpa using hknown.2.1 length hlength hall

omit h in
theorem parsed_parseLength {param : Parameter} {send recv : Bool} {args : List Modifier}
    {name : String} (h : parseLength params param send recv args name = some op) :
    op.Parsed param.name := by
  obtain ⟨length, -, h⟩ := bind_eq_some_iff.mp h
  split at h
  · split at h <;> split at h <;> cases h
    · exact ⟨rfl, rfl, rfl⟩
    · exact ⟨rfl, trivial⟩
  · cases h
    exact ⟨rfl, trivial⟩

omit h in
theorem parsed_parsePointer {param : Parameter} {send recv : Bool} {args : List Modifier}
    (h : parsePointer params param send recv args = some op) : op.Parsed param.name := by
  unfold parsePointer at h
  split at h
  · cases h
  split at h
  · cases h
  split at h
  · unfold parseVersioned at h
    split at h <;> cases h
    exact ⟨rfl, trivial⟩
  split at h
  · unfold parseScalar at h
    split at h
    · cases h
    split at h
    · cases h
    obtain ⟨mode, -, rfl⟩ := map_eq_some_iff.mp h
    exact ⟨rfl, trivial⟩
  split at h
  · cases h
  split at h
  · cases h
    exact ⟨rfl, trivial⟩
  split at h
  · exact parsed_parseLength h
  · obtain ⟨n, -, rfl⟩ := map_eq_some_iff.mp h
    exact ⟨rfl, trivial⟩
  · split at h
    · unfold parseNullTerminated at h
      split at h <;> cases h
      exact ⟨rfl, trivial⟩
    · split at h
      · cases h
        exact ⟨rfl, trivial⟩
      · split at h
        · split at h <;> cases h
          exact ⟨rfl, trivial⟩
        · cases h
          exact ⟨rfl, trivial⟩

omit h in
theorem parsed_parseParam {line : ParamLine} (h : parseParam params line = some op) :
    op.Parsed line.name := by
  obtain ⟨param, hparam, h⟩ := bind_eq_some_iff.mp h
  have hname : param.name = line.name := by simpa using List.find?_some hparam
  rw [← hname]
  split at h
  · exact parsed_parsePointer h
  · cases h
    exact ⟨rfl, trivial⟩
  · cases h

omit h in
/-- What the two promotions keep holds of the promoted list if it holds of the parsed lines. -/
theorem promoted_of_lines {Q : List Operation → Prop} {lines promoted : List Operation}
    (hcount : ∀ ops test anchor, Q ops →
      Q (replaceFirst test (fun op => .inOutCount op.parameter anchor) ops))
    (hstruct : ∀ ops test members, Q ops →
      Q (replaceFirst test (fun op => .deepStruct op.send op.recv op.parameter members) ops))
    (hpromoted : annotated.deepMembers.foldlM (promoteStruct annotated.graphNode)
      (promoteCounts lines) = some promoted) (hlines : Q lines) : Q promoted := by
  have hcounts : ∀ entries ops, Q ops → Q (foldl promoteCount ops entries) := by
    intro entries
    induction entries with
    | nil => exact fun ops h => h
    | cons entry entries ih => exact fun ops h => ih _ (hcount _ _ _ h)
  have hstructs : ∀ entries ops, Q ops →
      foldlM (promoteStruct annotated.graphNode) ops entries = some promoted → Q promoted := by
    intro entries
    induction entries with
    | nil =>
      intro ops h hsome
      exact Option.some.inj hsome ▸ h
    | cons entry entries ih =>
      intro ops h hsome
      obtain ⟨next, hnext, hsome⟩ := bind_eq_some_iff.mp hsome
      refine ih next ?_ hsome
      unfold promoteStruct at hnext
      split at hnext
      · exact Option.some.inj hnext ▸ h
      · split at hnext
        · cases hnext
        · exact Option.some.inj hnext ▸ hstruct _ _ _ h
  exact hstructs _ _ (hcounts _ _ hlines) hpromoted

/-- What holds of every parsed line and of what the passes promote holds of the list. -/
theorem forall_of_parse {P : Operation → Prop}
    (hline : ∀ line ∈ annotated.params, ∀ op, parseParam params line = some op → P op)
    (hcount : ∀ p anchor, P (.inOutCount p anchor))
    (hstruct : ∀ send recv p members, P (.deepStruct send recv p members)) : ∀ op ∈ ops, P op := by
  obtain ⟨promoted, hlisted, rfl⟩ := parse_inv h
  obtain ⟨lines, hlines, hpromoted⟩ := bind_eq_some_iff.mp hlisted
  have hlines : ∀ op ∈ lines, P op := by
    intro op hop
    obtain ⟨line, hmem, hparse⟩ := Foundations.exists_of_mem_mapM hlines hop
    exact hline line hmem op hparse
  have hall : ∀ op ∈ promoted, P op := promoted_of_lines (Q := fun ops => ∀ op ∈ ops, P op)
    (fun _ _ _ h => forall_replaceFirst h fun _ => hcount _ _)
    (fun _ _ _ h => forall_replaceFirst h fun _ => hstruct _ _ _ _) hpromoted hlines
  exact fun op hop => hall op ((perm_moveLengths [] _ _).subset hop)

theorem nullableIsSent_of_parse : ∀ op ∈ ops, op.NullableIsSent :=
  forall_of_parse h (fun _ _ _ hop => (parsed_parseParam hop).nullable) (fun _ _ => trivial)
    fun _ _ _ _ => trivial

end

end Parsed

end Lupine.Codegen
