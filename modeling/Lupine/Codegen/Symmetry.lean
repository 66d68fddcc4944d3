import Lupine.Codegen.Call
import Lupine.Codegen.Response

/-!
# Generated calls agree on the wire

For an annotated function whose lengths are usable, and whatever the called function returns: the
handler takes the request off the wire as the client wrote it and holds the arguments, and the
client takes the response off the wire as the handler wrote it.

* `WellAnnotated` says what makes the lengths usable.
* `wire_symmetric` is the result, for a call as a whole.
* `returned_string_too_long`: a string of more than a mebibyte is refused.
-/

namespace Lupine.Codegen

open Foundations Operation Client Prototype List Bool

variable {abi : Abi} {backend : Backend} {f : Prototype} {client : Client} {server : Server}

/-! ## Usable lengths -/

variable {op : Operation} {ops : List Operation} {annotated : Annotation} {params : List Parameter}
  {p : Parameter} {client client' : Client}

variable {length : Parameter} {after before : List Operation}

/-- The operation puts the length of an array on the wire: a value that is sent, or a count behind a
pointer that is sent and received with the array. -/
def Operation.gives (length : Parameter) (send recv : Bool) : Operation → Bool
  | .opaqueType sent _ p => p = length && !p.type.isPointer && !p.isFunction && sent
  | .dereference sent received p =>
    p = length && p.type.isPointer && (!send || sent) && (!recv || received)
  | .inOutCount p _ => p = length && p.type.isPointer && !send
  | _ => false

/-- The operation puts the capacity of a nullable array on the wire. -/
def Operation.givesCount (count : Parameter) : Operation → Bool
  | .opaqueType sent _ p => p = count && !p.type.isPointer && !p.isFunction && sent
  | .inOutCount p _ => p = count && p.type.isPointer
  | _ => false

/-- Every parameter and member is annotated once, every length is on the wire, the count of a
nullable array comes before the array, and no `SIZE` is negative. -/
structure WellAnnotated (ops : List Operation) : Prop where
  distinct : (ops.map Operation.name).Nodup
  members : ∀ op ∈ ops, op.MembersDistinct
  lengths : ∀ op ∈ ops, ∀ length, op.length? = some length →
    ∃ other ∈ ops, other.gives length op.send op.recv = true
  counts : ∀ before p count recvOn after, ops = before ++ .nullableArray p count recvOn :: after →
    ∃ other ∈ before, other.givesCount count = true
  sizes : ∀ send recv p n optional, .array send recv p (.bytes n) optional ∈ ops → 0 ≤ n

/-- The output of a call comes along with its copies, and only a CUDA client reads them. -/
def Prototype.SynchronizeMatches (backend : Backend) (f : Prototype) : Prop :=
  ∀ s, f.synchronize = some s →
    (s.deferredDtoh = true → backend.cuda = true) ∧ (s.stdout = true → s.deferredDtoh = true)

/-- The arguments pass the checks that the client generators emit, and the capacities fit. -/
structure Prototype.Callable (abi : Abi) (f : Prototype) (client : Client) : Prop where
  validated : ∀ op ∈ f.ops, op.validated abi (client.declare f.ops) = true
  preflight : ∀ op ∈ f.ops, op.preflight abi (client.declare f.ops) = true
  fits : ∀ op ∈ f.ops, op.CapacityFits abi (client.declare f.ops)

/-- What the client accepts of a call: strings of at most a mebibyte, counts that are not negative,
and no elements for a null array. -/
def Operation.Deliverable (abi : Abi) (client : Client) (server : Server) : Operation → Prop
  | .nullTerminated _ true p => ((server p.name).text.getD []).length ≤ 2 ^ 20
  | .inOutCount p _ => 0 ≤ server.value abi p
  | .array _ true p (.parameter length) _ => length.type.isPointer = true →
    (client.argument p.name).null = true →
    abi.transferSize p.type.pointee (server.value abi) (.parameter length) = 0
  | _ => True

/-! ## Lengths -/

theorem name_of_gives {send recv : Bool} (h : op.gives length send recv = true) :
    op.name = length.name ∧ op.length? = none := by
  cases op <;> simp [gives] at h <;>
    simp [name, parameter, length?, h]

theorem WellAnnotated.eq_of_name (h : WellAnnotated ops) {other : Operation} (hop : op ∈ ops)
    (hother : other ∈ ops) (hname : op.name = other.name) : op = other :=
  inj_on_of_nodup_map h.distinct hop hother hname

/-- The length of an array is on the wire before the array. -/
theorem WellAnnotated.gives_before (h : WellAnnotated ops)
    (hparse : parseAnnotation annotated params = some ops) (hsplit : ops = before ++ op :: after)
    (hlength : op.length? = some length) :
    ∃ other ∈ before, other.gives length op.send op.recv = true := by
  have hop : op ∈ ops := hsplit ▸ by simp
  obtain ⟨other, hother, hgives⟩ := h.lengths op hop length hlength
  have hscalar : ∀ op ∈ ops, ∀ length, op.length? = some length →
      ∀ other ∈ ops, other.name = length.name → other.length? = none := by
    intro op hop length hlength other hother hname
    obtain ⟨source, hsource, hgives⟩ := h.lengths op hop length hlength
    obtain ⟨hname', hnone⟩ := name_of_gives hgives
    rw [h.eq_of_name hother hsource (hname.trans hname'.symm)]
    exact hnone
  obtain ⟨source, hsource, hname⟩ := precedes_of_parse hparse h.distinct hscalar hsplit
    hlength ⟨other, hother, (name_of_gives hgives).1⟩
  have hmem : source ∈ ops := hsplit ▸ mem_append_left _ hsource
  rw [h.eq_of_name hother hmem ((name_of_gives hgives).1.trans hname.symm)] at hgives
  exact ⟨source, hsource, hgives⟩

/-- A value that is sent reaches the server. -/
theorem value_of_opaqueType {lengthWidth : ℕ} {recv : Bool} {l : Local}
    (hholds : (Operation.opaqueType true recv p).Holds abi lengthWidth client l)
    (hfunction : p.isFunction = false) :
    abi.value p.type l.object = abi.value p.type (client.argument p.name).object := by
  have h := hholds rfl
  rw [sentObject, if_neg (by simp [hfunction])] at h
  rw [Abi.value, Abi.value, h]

/-- The operations that give a count. -/
theorem of_givesCount {other : Operation} {count : Parameter}
    (h : other.givesCount count = true) :
    (∃ recv, other = .opaqueType true recv count ∧ count.type.isPointer = false ∧
      count.isFunction = false) ∨
    ∃ anchor, other = .inOutCount count anchor ∧ count.type.isPointer = true := by
  cases other <;> simp only [givesCount, and_eq_true, decide_eq_true_eq,
    not_eq_true', false_eq_true] at h
  case opaqueType sent recv p =>
    obtain ⟨⟨⟨rfl, hpointer⟩, hfunction⟩, rfl⟩ := h
    exact .inl ⟨recv, rfl, hpointer, hfunction⟩
  case inOutCount p anchor =>
    obtain ⟨rfl, hpointer⟩ := h
    exact .inr ⟨anchor, rfl, hpointer⟩

/-- The handler knows the lengths when it comes to an array. -/
theorem WellAnnotated.lengthsKnown {lengthWidth : ℕ} (h : WellAnnotated ops)
    (hparse : parseAnnotation annotated params = some ops) (hsplit : ops = before ++ op :: after)
    (hholds : ∀ other ∈ before, other.Holds abi lengthWidth client (server other.name)) :
    LengthsKnown abi client server op := by
  constructor
  · intro length hlength hsend
    obtain ⟨other, hother, hgives⟩ := h.gives_before hparse hsplit hlength
    have hholds := hholds other hother
    cases other <;> simp only [gives, and_eq_true, decide_eq_true_eq,
      not_eq_true', false_eq_true, or_eq_true] at hgives
    case opaqueType =>
      obtain ⟨⟨⟨rfl, hpointer⟩, hfunction⟩, rfl⟩ := hgives
      simp only [Server.value, value, hpointer, false_eq_true, if_false]
      exact value_of_opaqueType hholds hfunction
    case dereference =>
      obtain ⟨⟨⟨rfl, hpointer⟩, hsent⟩, -⟩ := hgives
      have hsent := hsent.resolve_left (by simp [hsend hpointer])
      simp only [Server.value, value, hpointer, if_true]
      exact congrArg (abi.integer _) (hholds hsent)
    case inOutCount =>
      obtain ⟨⟨rfl, hpointer⟩, hnot⟩ := hgives
      rw [hsend hpointer] at hnot
      cases hnot
  · rintro p count recvOn rfl
    obtain ⟨other, hother, hgives⟩ := h.counts before p count recvOn after hsplit
    have hholds := hholds other hother
    rcases of_givesCount hgives with ⟨_, rfl, hpointer, hfunction⟩ | ⟨_, rfl, hpointer⟩
    · simp only [Server.requestedCount, requestedCount, Server.value, value, hpointer,
        false_eq_true, if_false]
      exact value_of_opaqueType hholds hfunction
    · simp only [Server.requestedCount, requestedCount, hpointer, if_true]
      exact congrArg (abi.integer _) hholds.2

/-! ## The request -/

/-- In a list without repetition, an operation has another name than those before it. -/
theorem name_ne_of_split {other : Operation} (hdistinct : (ops.map Operation.name).Nodup)
    (hsplit : before ++ op :: after = ops) (hother : other ∈ before) : other.name ≠ op.name := by
  rw [← hsplit, map_append, map_cons] at hdistinct
  exact (nodup_append.mp hdistinct).2.2 _ (mem_map_of_mem hother) _ (mem_cons_self ..)

/-- The handler refuses no length that the client has checked. -/
theorem not_serverRefuses (hvalid : op.validated abi client = true)
    (hknown : LengthsKnown abi client server op) : op.serverRefuses abi server = false := by
  cases op with
  | array send recv p length optional =>
    cases length with
    | bytes n => rfl
    | parameter length =>
      simp only [validated, and_eq_true, not_eq_true'] at hvalid
      have hnegative := hvalid.1
      simp only [Length.negative] at hnegative
      simp only [serverRefuses, Length.negative]
      cases hint : length.type.isInt with
      | false => rfl
      | true =>
        rw [CType.isInt, decide_eq_true_eq] at hint
        rw [hknown.length length rfl (by simp [hint, CType.isPointer])]
        simpa [hint, CType.isInt] using hnegative
  | _ => rfl

theorem Prototype.Callable.admissible (h : f.Callable abi client) (hwell : WellAnnotated f.ops)
    (hparse : parseAnnotation annotated params = some f.ops) (hop : op ∈ f.ops) :
    op.Admissible abi (client.declare f.ops) :=
  ⟨nullableIsSent_of_parse hparse op hop, h.validated op hop, h.preflight op hop, h.fits op hop,
    hwell.members op hop⟩

def Local.zero : Local where
  object := fun _ => 0
  present := false
  requested := fun _ => 0
  size := 0
  buffer := fun _ => 0
  allocated := 0
  members := fun _ _ => 0
  text := none

/-- What an operation writes does not depend on the server: a server that mirrors the one length it
reads will do. -/
theorem Operation.Admissible.writes (h : op.Admissible abi client) (lengthWidth : ℕ) :
    ∃ field, op.clientRpcWrite abi lengthWidth client = some field := by
  have hmirror : ∀ q : Parameter, ∃ server : Server,
      server.value abi q = client.value abi q ∧
        server.requestedCount abi q = client.requestedCount abi q := by
    intro q
    refine ⟨fun _ => { Local.zero with
      object := if q.type.isPointer then (client.argument q.name).pointee
        else (client.argument q.name).object
      requested := client.requested q.name }, ?_⟩
    cases hpointer : q.type.isPointer <;>
      simp [Server.value, value, Server.requestedCount, requestedCount, hpointer]
  have hknown : ∃ server, LengthsKnown abi client server op := by
    cases op with
    | array send recv p length optional =>
      cases length with
      | bytes n =>
        obtain ⟨server, -⟩ := hmirror p
        exact ⟨server, ⟨fun _ h => (nomatch h), fun _ _ _ h => (nomatch h)⟩⟩
      | parameter length =>
        obtain ⟨server, hvalue, -⟩ := hmirror length
        refine ⟨server, ⟨fun length' h _ => ?_, fun _ _ _ h => (nomatch h)⟩⟩
        obtain rfl : length = length' := Option.some.inj h
        exact hvalue
    | nullableArray p count recvOn =>
      obtain ⟨server, -, hrequested⟩ := hmirror count
      refine ⟨server, ⟨fun _ h => (nomatch h), fun p' count' recvOn' h => ?_⟩⟩
      cases h
      exact hrequested
    | _ =>
      obtain ⟨server, -⟩ := hmirror ⟨"", .other⟩
      exact ⟨server, ⟨fun _ h => (nomatch h), fun _ _ _ h => (nomatch h)⟩⟩
  obtain ⟨server, hknown⟩ := hknown
  obtain ⟨field, hfield, -⟩ := h.requestReads hknown
  exact ⟨field, hfield⟩

/-- **The request.** It is written, and the handler takes it off the wire and holds the
arguments. -/
theorem request_symmetric (hparse : parseAnnotation annotated params = some f.ops)
    (hwell : WellAnnotated f.ops) (hcallable : f.Callable abi client) (sequence : ℕ)
    (server : Server) :
    ∃ request, f.clientRequest abi backend client sequence = some request ∧
      Consumes (f.serverRequest abi backend server) request fun received =>
        ∀ op ∈ f.ops,
          op.Holds abi backend.lengthWidth (client.declare f.ops) (received op.name) := by
  set caller := client.declare f.ops
  have hadmissible : ∀ op ∈ f.ops, op.Admissible abi caller :=
    fun op hop => hcallable.admissible hwell hparse hop
  let field := fun op : Operation =>
    (op.clientRpcWrite abi backend.lengthWidth caller).getD []
  have hfields : f.ops.mapM (clientRpcWrite abi backend.lengthWidth caller) =
      some (f.ops.map field) := by
    refine mapM_eq_some fun op hop => ?_
    obtain ⟨bytes, hbytes⟩ := (hadmissible op hop).writes backend.lengthWidth
    simp [field, hbytes]
  refine ⟨(if f.async then encode 8 sequence else []) ++ f.ops.flatMap field, ?_, ?_⟩
  · rw [clientRequest, hfields, Option.map_some, flatMap_def]
  · refine .bind (Q := fun _ => True) ?_ fun _ _ => ?_
    · split
      · exact (Consumes.take (length_encode ..)).mono fun _ _ => trivial
      · exact .pure trivial
    · refine .foldlM (I := fun (done : List Operation) (received : Server) => ∀ op ∈ done,
        op.Holds abi backend.lengthWidth caller (received op.name)) (fun _ h => nomatch h) ?_
      intro done op later received hsplit hdone
      have hop : op ∈ f.ops := hsplit ▸ by simp
      have hknown := hwell.lengthsKnown hparse hsplit.symm hdone
      obtain ⟨bytes, hbytes, hreads⟩ : op.RequestReads abi backend.lengthWidth caller received :=
        (hadmissible op hop).requestReads hknown
      rw [serverStep, not_serverRefuses (hcallable.validated op hop) hknown,
        if_neg (by decide), show field op = bytes by simp [field, hbytes]]
      refine hreads.mono ?_
      rintro _ ⟨l, rfl, hholds⟩ other hother
      rcases mem_append.mp hother with hother | hother
      · rw [Function.update_of_ne (name_ne_of_split hwell.distinct hsplit hother)]
        exact hdone other hother
      · obtain rfl := mem_singleton.mp hother
        rw [Function.update_self]
        exact hholds

/-! ## The response -/

/-- What stays of the client while it reads a response. -/
structure Client.Same (client client' : Client) : Prop where
  null : ∀ name, (client'.argument name).null = (client.argument name).null
  object : ∀ name, (client'.argument name).object = (client.argument name).object
  requested : client'.requested = client.requested
  scalarOnHost : client'.scalarOnHost = client.scalarOnHost
  width : client'.width = client.width

/-- The client has taken the fields of `done` off the wire. -/
structure Client.Received (abi : Abi) (client : Client) (server : Server) (done : List Operation)
    (current : Client) : Prop where
  same : client.Same current
  delivered : ∀ op ∈ done, op.Delivered abi current server

theorem Client.Same.refl (client : Client) : client.Same client :=
  ⟨fun _ => rfl, fun _ => rfl, rfl, rfl, rfl⟩

theorem Client.Same.touches {client₁ client₂ : Client} (h : client.Same client₁) {name : String}
    (htouches : client₁.Touches name client₂) : client.Same client₂ := by
  obtain ⟨argument, rfl, hnull, hobject⟩ := htouches
  refine { h with null := fun other => ?_, object := fun other => ?_ }
  · rw [← h.null other]
    by_cases hname : other = name
    · subst hname
      rw [setArgument_self, hnull]
    · rw [setArgument_of_ne _ _ hname]
  · rw [← h.object other]
    by_cases hname : other = name
    · subst hname
      rw [setArgument_self, hobject]
    · rw [setArgument_of_ne _ _ hname]

/-- What was delivered stays while another argument is read. -/
theorem Operation.Delivered.touches (h : op.Delivered abi client server) {name : String}
    (htouches : client.Touches name client') (hname : op.name ≠ name) :
    op.Delivered abi client' server := by
  obtain ⟨argument, rfl, -, -⟩ := htouches
  have hargument := client.setArgument_of_ne argument hname
  cases op with
  | dereference send recv p =>
    cases recv with
    | false => trivial
    | true => exact (congrArg (fun a : Argument => a.pointee.read _) hargument).trans h
  | inOutCount p anchor => exact (congrArg (fun a : Argument => a.pointee.read _) hargument).trans h
  | _ => trivial

theorem Client.Same.value (h : client.Same client') (hpointer : p.type.isPointer = false) :
    client'.value abi p = client.value abi p := by
  simp only [Client.value, hpointer, false_eq_true, if_false, h.object]

theorem Client.Same.requestedCount (h : client.Same client') (count : Parameter) :
    client'.requestedCount abi count = client.requestedCount abi count := by
  unfold Client.requestedCount
  split
  · rw [h.requested]
  · rename_i hpointer
    exact h.value (by simpa using hpointer)

theorem Client.Same.fits (h : client.Same client') (hfits : op.CapacityFits abi client) :
    op.CapacityFits abi client' := by
  cases op with
  | nullableArray p count recvOn =>
    intro hnull
    rw [h.requestedCount count]
    exact hfits (h.null p.name ▸ hnull)
  | _ => trivial

/-- The variables of an operation after the call. -/
theorem WellAnnotated.call_eq (h : WellAnnotated ops) (hop : op ∈ ops) (server : Server)
    (outcome : Outcome) : server.call ops outcome op.name = op.called outcome (server op.name) := by
  have hfind : ops.find? (fun other => other.name = op.name) = some op := by
    cases hfound : ops.find? fun other => other.name = op.name with
    | none =>
      rw [List.find?_eq_none] at hfound
      exact absurd (hfound op hop) (by simp)
    | some other =>
      have hname : other.name = op.name := by simpa using List.find?_some hfound
      rw [h.eq_of_name (mem_of_find?_eq_some hfound) hop hname]
  rw [Server.call, hfind]

/-- The call does not change the flags, the capacities and the sizes. -/
theorem WellAnnotated.call_flags (h : WellAnnotated ops) (hop : op ∈ ops) (server : Server)
    (outcome : Outcome) :
    (server.call ops outcome op.name).present = (server op.name).present ∧
      (server.call ops outcome op.name).requested = (server op.name).requested ∧
      (server.call ops outcome op.name).size = (server op.name).size := by
  rw [h.call_eq hop]
  cases op <;> exact ⟨rfl, rfl, rfl⟩

section Agreement

variable {lengthWidth : ℕ} {ops : List Operation} {received : Server} {current : Client}
  {outcome : Outcome} {before after : List Operation} {op : Operation}

/-- A length or count that was sent by value is the same on both sides after the call. -/
theorem WellAnnotated.value_call_eq (h : WellAnnotated ops) {recv : Bool}
    (hop : .opaqueType true recv p ∈ ops)
    (hholds : (Operation.opaqueType true recv p).Holds abi lengthWidth client (received p.name))
    (hpointer : p.type.isPointer = false) (hfunction : p.isFunction = false)
    (hsame : client.Same current) :
    (received.call ops outcome).value abi p = current.value abi p := by
  have hcall : received.call ops outcome p.name = received p.name := h.call_eq hop received outcome
  rw [hsame.value hpointer]
  simp only [Server.value, value, hpointer, false_eq_true, if_false, hcall]
  exact value_of_opaqueType hholds hfunction

/-- A count behind a pointer is the same on both sides once it is received. -/
theorem value_eq_of_delivered (hpointer : p.type.isPointer = true)
    (hdelivered : (current.argument p.name).pointee.read (abi.sizeOf p.type.pointee) =
      (server p.name).object.read (abi.sizeOf p.type.pointee)) :
    server.value abi p = current.value abi p := by
  simp only [Server.value, value, hpointer, if_true]
  exact (congrArg (abi.integer _) hdelivered).symm

/-- The length of an array that is received is the same on both sides when it is read. -/
theorem WellAnnotated.length_call_eq (h : WellAnnotated ops)
    (hparse : parseAnnotation annotated params = some ops) (hsplit : ops = before ++ op :: after)
    (hholds : ∀ op ∈ ops, op.Holds abi lengthWidth client (received op.name))
    (hsame : client.Same current)
    (hdelivered : ∀ other ∈ before, other.Delivered abi current (received.call ops outcome))
    (hlength : op.length? = some length) (hrecv : op.recv = true) :
    (received.call ops outcome).value abi length = current.value abi length := by
  obtain ⟨other, hother, hgives⟩ := h.gives_before hparse hsplit hlength
  have hmem : other ∈ ops := hsplit ▸ mem_append_left _ hother
  have hholds := hholds other hmem
  have hdelivered := hdelivered other hother
  cases other <;> simp only [gives, and_eq_true, decide_eq_true_eq,
    not_eq_true', false_eq_true, or_eq_true] at hgives
  case opaqueType =>
    obtain ⟨⟨⟨rfl, hpointer⟩, hfunction⟩, rfl⟩ := hgives
    exact h.value_call_eq hmem hholds hpointer hfunction hsame
  case dereference =>
    obtain ⟨⟨⟨rfl, hpointer⟩, -⟩, hreceived⟩ := hgives
    obtain rfl := hreceived.resolve_left (by simp [hrecv])
    exact value_eq_of_delivered hpointer hdelivered
  case inOutCount =>
    obtain ⟨⟨rfl, hpointer⟩, -⟩ := hgives
    exact value_eq_of_delivered hpointer hdelivered

section

variable (h : WellAnnotated ops) {count : Parameter} {recvOn : Option RecvOn}
    (hsplit : ops = before ++ .nullableArray p count recvOn :: after)
include h hsplit

/-- The capacity of a nullable array is the same on both sides, before and after the call. -/
theorem WellAnnotated.requested_call_eq
    (hholds : ∀ op ∈ ops, op.Holds abi lengthWidth client (received op.name)) :
    (received.call ops outcome).requestedCount abi count = client.requestedCount abi count := by
  obtain ⟨other, hother, hgives⟩ := h.counts before p count recvOn after hsplit
  have hmem : other ∈ ops := hsplit ▸ mem_append_left _ hother
  have hholds := hholds other hmem
  rcases of_givesCount hgives with ⟨_, rfl, hpointer, hfunction⟩ | ⟨_, rfl, hpointer⟩
  · simp only [Server.requestedCount, requestedCount, hpointer, false_eq_true, if_false]
    exact h.value_call_eq hmem hholds hpointer hfunction (.refl client)
  · simp only [Server.requestedCount, requestedCount, hpointer, if_true]
    refine congrArg (abi.integer _) (Eq.trans ?_ hholds.2)
    exact congrArg (fun m : Memory => m.read _) (h.call_flags hmem received outcome).2.1

/-- So is a count that the call left, once it is received. -/
theorem WellAnnotated.count_call_eq
    (hdelivered : ∀ other ∈ before, other.Delivered abi current (received.call ops outcome))
    (hdeliverable : ∀ op ∈ ops, op.Deliverable abi client (received.call ops outcome))
    (hpointer : count.type.isPointer = true) :
    (received.call ops outcome).value abi count = current.value abi count ∧
      0 ≤ current.value abi count := by
  obtain ⟨other, hother, hgives⟩ := h.counts before p count recvOn after hsplit
  have hmem : other ∈ ops := hsplit ▸ mem_append_left _ hother
  have hdelivered := hdelivered other hother
  have hdeliverable := hdeliverable other hmem
  rcases of_givesCount hgives with ⟨_, rfl, hvalue, -⟩ | ⟨_, rfl, -⟩
  · rw [hpointer] at hvalue
    cases hvalue
  · have hvalue := value_eq_of_delivered hpointer hdelivered
    exact ⟨hvalue, hvalue ▸ hdeliverable⟩

end

/-- **Agreement.** When the client comes to an operation, both sides agree on it. -/
theorem WellAnnotated.agrees (h : WellAnnotated f.ops)
    (hparse : parseAnnotation annotated params = some f.ops)
    (hcallable : f.Callable abi client) {success : Bool}
    (hsuccess : success = true →
      ∀ op ∈ f.ops, op.invalidCount abi (received.call f.ops outcome) = false)
    (hsplit : f.ops = before ++ op :: after)
    (hholds : ∀ op ∈ f.ops, op.Holds abi lengthWidth (client.declare f.ops) (received op.name))
    (hsame : (client.declare f.ops).Same current)
    (hdelivered : ∀ other ∈ before, other.Delivered abi current (received.call f.ops outcome))
    (hdeliverable : ∀ op ∈ f.ops,
      op.Deliverable abi (client.declare f.ops) (received.call f.ops outcome)) :
    op.Agrees abi current (received.call f.ops outcome) success := by
  have hop : op ∈ f.ops := hsplit ▸ by simp
  have hvalid := hcallable.validated op hop
  have hflags := h.call_flags hop received outcome
  have hheld := hholds op hop
  cases op with
  | nullable send recv p =>
    refine (hflags.1.trans hheld.1).trans ?_
    rw [hsame.null]
  | array send recv p length optional =>
    intro hrecv
    have hlength : ∀ length', (array send recv p length optional).length? = some length' →
        (received.call f.ops outcome).value abi length' = current.value abi length' :=
      fun length' hl => h.length_call_eq hparse hsplit hholds hsame hdelivered hl hrecv
    have hoptional : optional = false := by
      cases optional with
      | false => rfl
      | true =>
        have := (nullableIsSent_of_parse hparse _ hop).2
        rw [hrecv] at this
        cases this
    have hsize : abi.transferSize p.type.pointee ((received.call f.ops outcome).value abi) length =
        abi.transferSize p.type.pointee (current.value abi) length := by
      cases length with
      | bytes n => rfl
      | parameter length => rw [Abi.transferSize, Abi.transferSize, hlength length rfl]
    refine ⟨hsize, fun hne => ?_⟩
    simp only [validated, hoptional, Bool.false_or, Bool.and_eq_true, Bool.or_eq_true,
      decide_eq_true_eq, Bool.not_eq_true'] at hvalid
    rw [hsame.null]
    cases length with
    | bytes n => exact hvalid.2.resolve_left hne
    | parameter length =>
      cases hpointer : length.type.isPointer with
      | false =>
        refine hvalid.2.resolve_left fun hzero => hne ?_
        rw [Abi.transferSize, hsame.value hpointer]
        exact hzero
      | true =>
        by_contra hnull
        rw [not_eq_false] at hnull
        subst hrecv
        rw [← hsize] at hne
        exact hne (hdeliverable _ hop hpointer hnull)
  | inOutCount p anchor | dereference send recv p =>
    have hnull := hsame.null p.name
    simpa [Operation.Agrees, hnull, validated] using hvalid
  | nullableArray p count recvOn =>
    have hrequested : (received.call f.ops outcome).requestedCount abi count =
        current.requestedCount abi count :=
      (h.requested_call_eq hsplit hholds).trans (hsame.requestedCount count).symm
    have hreturned := h.count_call_eq hsplit hdelivered hdeliverable
    refine ⟨(hflags.1.trans hheld).trans (by rw [hsame.null]), hrequested, hreturned, ?_⟩
    intro hsucceeds hon hpointer hnull
    have hinvalid := hsuccess hsucceeds _ hop
    have hpresent : (received.call f.ops outcome p.name).present = true := by
      refine (hflags.1.trans hheld).trans ?_
      rw [← hsame.null, hnull]
      rfl
    rw [hon] at hinvalid
    simp only [invalidCount, hpointer, hpresent, Bool.true_and, decide_eq_false_iff_not,
      (hreturned hpointer).1, hrequested] at hinvalid
    omega
  | deepStruct send recv p members =>
    have hpre := hcallable.preflight _ hop
    simp only [preflight, and_eq_true, not_eq_true'] at hpre
    exact (hsame.null p.name).trans hpre.1
  | nullTerminated send recv p =>
    rintro rfl
    exact hdeliverable _ hop
  | scalar send recv p mode width =>
    refine (hflags.2.2.trans hheld.1).trans ?_
    have hbytes : scalarBytes abi (client.declare f.ops) p width =
        current.scalarBytes abi p width := by
      cases width with
      | none => rfl
      | some expression => exact (congrFun hsame.width expression).symm
    rw [scalarWidth, scalarWidth, hbytes, hsame.null, hsame.scalarOnHost]
  | opaqueType | versionedStruct => trivial

end Agreement

/-! ## What a synchronization brings back -/

/-- The bytes of a copy, at once or row by row. -/
theorem readRows_consumes (width height pitch depth slice : ℕ) (data : Memory) :
    Consumes (readRows width height pitch depth slice) (data.read (width * height * depth))
      fun _ => True := by
  unfold readRows
  split
  · rename_i hempty
    have hzero : width * height * depth = 0 := by
      simp only [or_eq_true, decide_eq_true_eq] at hempty
      rcases hempty with (h | h) | h <;> simp [h]
    rw [hzero]
    exact .pure trivial
  · split
    · exact .takeLast (Memory.length_read ..) trivial
    · have hrows : data.read (width * height * depth) = (List.range (height * depth)).flatMap
          fun row => Memory.read (fun i => data (row * width + i)) width := by
        rw [Memory.read, Nat.mul_assoc, Nat.mul_comm, range_mul, map_flatMap]
        refine flatMap_congr fun row _ => ?_
        rw [map_map]
        rfl
      rw [hrows]
      exact .foldlM (I := fun _ _ => True) trivial fun _ _ _ _ _ _ =>
        .takeLast (Memory.length_read ..) trivial

theorem delivery_consumes (delivery : Delivery) :
    Consumes readDeferredRows delivery.write fun _ => True := by
  have hdecode : ∀ n ∈ [delivery.rows.dst, delivery.rows.width, delivery.rows.height,
      delivery.rows.pitch, delivery.rows.depth, delivery.rows.slice], decode (encode 8 n) = n :=
    fun n hn => decode_encode (delivery.rows.fields_lt n hn)
  refine .bind (.take (length_encode ..)) fun _ _ => ?_
  refine .bind (.take (length_encode ..)) fun _ hwidth => ?_
  refine .bind (.take (length_encode ..)) fun _ hheight => ?_
  refine .bind (.take (length_encode ..)) fun _ hpitch => ?_
  refine .bind (.take (length_encode ..)) fun _ hdepth => ?_
  refine .bind (.take (length_encode ..)) fun _ hslice => ?_
  rw [hwidth, hheight, hpitch, hdepth, hslice, hdecode _ (by simp), hdecode _ (by simp),
    hdecode _ (by simp), hdecode _ (by simp), hdecode _ (by simp)]
  exact readRows_consumes _ _ _ _ _ _

theorem copies_consumes (pending : List Delivery) :
    Consumes (readCopies pending.length) (pending.flatMap Delivery.write) fun _ => True := by
  induction pending with
  | nil => exact .pure trivial
  | cons delivery pending ih => exact .bind (delivery_consumes delivery) fun _ _ => ih

theorem effects_consumes (hsync : f.SynchronizeMatches backend) (effects : Effects) :
    Consumes (f.clientEffects backend) (f.serverEffects effects) fun _ => True := by
  have hpending : Consumes readPending (writePending effects.pending) fun _ => True := by
    refine .bind (.take (length_encode ..)) fun _ hcount => ?_
    rw [hcount, decode_encode effects.pending_lt]
    exact copies_consumes _
  have hstdout : Consumes readStdout (writeStdout effects.output) fun _ => True := by
    refine .bind (.take (length_encode ..)) fun _ hsize => ?_
    rw [hsize, decode_encode effects.output_lt]
    exact .takeLast rfl trivial
  unfold clientEffects serverEffects
  cases hs : f.synchronize with
  | none => exact .pure trivial
  | some s =>
    obtain ⟨hcuda, hdeferred⟩ := hsync s hs
    dsimp only
    cases hd : s.deferredDtoh with
    | false =>
      have hnone : s.stdout = false := by
        by_contra h
        rw [hdeferred (by simpa using h)] at hd
        cases hd
      rw [hnone, Bool.and_false, if_neg (by decide), if_neg (by decide), ← append_nil []]
      exact .bind (Q := fun _ => True) (.pure trivial) fun _ _ => .pure trivial
    | true =>
      rw [hcuda hd, Bool.true_and, Bool.true_and, if_pos rfl, if_pos rfl]
      exact .bind hpending fun _ _ => .ite (fun _ => hstdout) fun _ => .pure trivial

/-! ## Calls -/

/-- After a success, no count exceeds the capacity. -/
theorem Prototype.invalidCount_of_succeeds
    (hinvalid : f.succeeds abi backend backend.invalidResult = false) (value : Memory)
    (hsucceeds : f.succeeds abi backend (f.returnValue abi backend server value) = true)
    (hop : op ∈ f.ops) : op.invalidCount abi server = false := by
  by_contra hcount
  rw [not_eq_false] at hcount
  have hany : f.ops.any (invalidCount abi server) = true :=
    any_eq_true.mpr ⟨op, hop, hcount⟩
  rw [returnValue, hany, Bool.and_true] at hsucceeds
  split at hsucceeds
  · rw [hinvalid] at hsucceeds
    cases hsucceeds
  · contradiction

/-- **The response.** The client takes it off the wire, and has the return value. -/
theorem response_symmetric
    (hparse : parseAnnotation annotated params = some f.ops) (hwell : WellAnnotated f.ops)
    (hsync : f.SynchronizeMatches backend) (hcallable : f.Callable abi client)
    (hinvalid : f.succeeds abi backend backend.invalidResult = false) {received : Server}
    (hholds : ∀ op ∈ f.ops,
      op.Holds abi backend.lengthWidth (client.declare f.ops) (received op.name))
    {outcome : Outcome} (hdeliverable : ∀ op ∈ f.ops,
      op.Deliverable abi (client.declare f.ops) (received.call f.ops outcome))
    (value : Memory) (effects : Effects) :
    Consumes (f.clientResponse abi backend client)
      (f.serverResponse abi backend (received.call f.ops outcome) value effects)
      fun response => ∀ type, f.result = some type → response.2 =
        (f.returnValue abi backend (received.call f.ops outcome) value).read (abi.sizeOf type) := by
  refine .bind (effects_consumes hsync effects) fun _ _ => ?_
  refine .bind (Q := fun _ => True) (.mono (.foldlM (I := fun done current =>
    (client.declare f.ops).Received abi (received.call f.ops outcome) done current) ?_ ?_)
      fun _ _ => trivial) fun current _ => ?_
  · exact ⟨.refl _, fun _ h => nomatch h⟩
  · intro done op later current hsplit ⟨hsame, hdone⟩
    have hop : op ∈ f.ops := hsplit ▸ by simp
    have hagrees := hwell.agrees hparse hcallable
      (fun hsucceeds _ => invalidCount_of_succeeds hinvalid value hsucceeds) hsplit.symm hholds
      hsame hdone hdeliverable
    refine (hagrees.responseReads (hsame.fits (hcallable.fits op hop))).mono fun next hnext => ?_
    refine ⟨hsame.touches hnext.1, fun other hother => ?_⟩
    rcases mem_append.mp hother with hother | hother
    · exact (hdone other hother).touches hnext.1 (name_ne_of_split hwell.distinct hsplit hother)
    · obtain rfl := mem_singleton.mp hother
      exact hnext.2
  · cases hresult : f.result with
    | none => exact .pure fun _ h => nomatch h
    | some type =>
      refine .takeLast (Memory.length_read ..) fun type' h => ?_
      cases h
      rfl

/-- **Generated calls agree on the wire.** For a function whose operation list is accepted and whose
lengths are usable, arguments that pass the checks, and every return value and outcome of the called
function that the client accepts: the request is written; the handler takes exactly the request off
the wire, and its variables hold the arguments; and the client takes exactly the response off the
wire, with the return value. -/
theorem wire_symmetric {annotated : Annotation} {params : List Parameter}
    (hparse : parseAnnotation annotated params = some f.ops) (hwell : WellAnnotated f.ops)
    (hsync : f.SynchronizeMatches backend)
    (hinvalid : f.succeeds abi backend backend.invalidResult = false)
    (hcallable : f.Callable abi client) (sequence : ℕ) (server : Server) :
    ∃ request, f.clientRequest abi backend client sequence = some request ∧
      Consumes (f.serverRequest abi backend server) request fun received =>
        (∀ op ∈ f.ops,
          op.Holds abi backend.lengthWidth (client.declare f.ops) (received op.name)) ∧
        ∀ outcome value effects, (∀ op ∈ f.ops,
            op.Deliverable abi (client.declare f.ops) (received.call f.ops outcome)) →
          Consumes (f.clientResponse abi backend client)
            (f.serverResponse abi backend (received.call f.ops outcome) value effects)
            fun response => ∀ type, f.result = some type → response.2 =
              (f.returnValue abi backend (received.call f.ops outcome) value).read
                (abi.sizeOf type) := by
  obtain ⟨request, hrequest, hreads⟩ :=
    request_symmetric hparse hwell hcallable sequence server
  refine ⟨request, hrequest, hreads.mono fun received hholds => ⟨hholds, ?_⟩⟩
  intro outcome value effects hdeliverable
  exact response_symmetric hparse hwell hsync hcallable hinvalid hholds hdeliverable value effects

/-! ## Examples -/

/-- An ABI in which every object is a byte. -/
def byteAbi : Abi where
  sizeOf := fun _ => 1
  sizeOf_pos := fun _ => Nat.one_pos
  integer := fun _ bytes => decode bytes
  member := fun _ _ _ => 0
  memberSize := fun _ _ => 1
  offsetOf := fun _ _ => 0

def exampleBackend : Backend where
  cuda := true
  lengthWidth := 8
  success := 0
  invalidResult := fun _ => 1

/-- Every object holds 2. -/
def exampleClient : Client where
  argument := fun _ => ⟨fun _ => 2, false, fun _ => 2, [], fun _ _ => 0, fun _ => true, fun _ => []⟩
  requested := fun _ _ => 0
  scalarOnHost := fun _ _ => false
  width := fun _ => 0
  functionForRpc := id
  defined := fun _ => false

def countParameter : Parameter := ⟨"count", .named "size_t" false⟩

def dataParameter : Parameter := ⟨"data", .pointer (.named "char" true) false⟩

/-- An array that is annotated before its length. -/
def sendAnnotation : Annotation where
  params := [⟨"data", .sendOnly, [.length "count"]⟩, ⟨"count", .sendOnly, []⟩]
  deepArrays := []
  graphNode := false
  retains := []

def sendPrototype : Prototype where
  ops := [.opaqueType true false countParameter,
    .array true false dataParameter (.parameter countParameter) false]
  result := some (.named "CUresult" false)
  async := false
  synchronize := none

theorem sendAnnotation_parse :
    parseAnnotation sendAnnotation [dataParameter, countParameter] = some sendPrototype.ops := by
  decide

/-- An operation list without counts and sizes, with distinct names and members. -/
theorem wellAnnotated_of_no_counts
    (hdistinct : (ops.map Operation.name).Nodup) (hmembers : ∀ op ∈ ops, op.MembersDistinct)
    (hlengths : ∀ op ∈ ops, ∀ length, op.length? = some length →
      ∃ other ∈ ops, other.gives length op.send op.recv = true)
    (hcounts : ∀ op ∈ ops, ∀ p count recvOn, op ≠ .nullableArray p count recvOn)
    (hsizes : ∀ op ∈ ops, ∀ send recv p n optional, op ≠ .array send recv p (.bytes n) optional) :
    WellAnnotated ops :=
  ⟨hdistinct, hmembers, hlengths, fun before p count recvOn after hsplit =>
    absurd rfl (hcounts _ (hsplit ▸ by simp) p count recvOn),
    fun send recv p n optional hop => absurd rfl (hsizes _ hop send recv p n optional)⟩

attribute [local simp] sendPrototype Operation.MembersDistinct Operation.CapacityFits countParameter
  exampleClient

/-- Two elements are sent behind their length, which was annotated last. -/
theorem wire_symmetric_of_array :
    ∃ request, sendPrototype.clientRequest byteAbi exampleBackend exampleClient 0 = some request ∧
      Consumes (sendPrototype.serverRequest byteAbi exampleBackend fun _ => Local.zero) request
        fun received => ∀ op ∈ sendPrototype.ops,
          op.Holds byteAbi 8 (exampleClient.declare sendPrototype.ops) (received op.name) := by
  have hwell : WellAnnotated sendPrototype.ops := by
    refine wellAnnotated_of_no_counts (by decide) ?_ ?_ ?_ ?_ <;>
      simp [length?, gives, CType.isPointer, Parameter.isFunction]
  have hcallable : sendPrototype.Callable byteAbi exampleClient := by
    refine ⟨?_, ?_, ?_⟩ <;>
      simp [validated, preflight, declare, Length.negative, CType.isInt]
  have hsync : sendPrototype.SynchronizeMatches exampleBackend := by
    simp [Prototype.SynchronizeMatches]
  have hinvalid : sendPrototype.succeeds byteAbi exampleBackend exampleBackend.invalidResult =
    false := by decide
  obtain ⟨request, hrequest, hreads⟩ := wire_symmetric sendAnnotation_parse hwell hsync hinvalid
    hcallable 0 fun _ => Local.zero
  exact ⟨request, hrequest, hreads.mono fun _ h => h.1⟩

/-! ## Long strings -/

def nameParameter : Parameter :=
  ⟨"name", .pointer (.pointer (.named "char" true) false) false⟩

/-- A returned string, as of `cuFuncGetName`. -/
def stringAnnotation : Annotation where
  params := [⟨"name", .recvOnly, [.nullTerminated]⟩]
  deepArrays := []
  graphNode := false
  retains := ["name"]

def stringPrototype : Prototype where
  ops := [.nullTerminated false true nameParameter]
  result := some (.named "CUresult" false)
  async := false
  synchronize := none

theorem stringAnnotation_parse :
    parseAnnotation stringAnnotation [nameParameter] = some stringPrototype.ops := by
  decide

/-- The client refuses a string of more than a mebibyte, whatever follows. -/
theorem readString_refuses {lengthWidth n : ℕ} (hlong : 2 ^ 20 < n) (hfits : n < 256 ^ lengthWidth)
    (p : Parameter) (rest : List UInt8) :
    client.readString lengthWidth p (encode lengthWidth n ++ rest) = none := by
  have htake : Reader.take lengthWidth (encode lengthWidth n ++ rest) =
      some (encode lengthWidth n, rest) := by
    simp [Reader.take]
  change (Reader.take lengthWidth (encode lengthWidth n ++ rest)).bind _ = none
  rw [htake, Option.bind_some]
  dsimp only
  rw [decode_encode hfits, if_pos hlong]
  rfl

/-- A call agrees on the wire, whatever the called function returns. -/
def Prototype.Symmetric (abi : Abi) (backend : Backend) (f : Prototype) (client : Client) : Prop :=
  ∀ sequence server, ∃ request, f.clientRequest abi backend client sequence = some request ∧
    Consumes (f.serverRequest abi backend server) request fun received =>
      ∀ outcome value effects, Consumes (f.clientResponse abi backend client)
        (f.serverResponse abi backend (received.call f.ops outcome) value effects) fun _ => True

theorem stringResponse_of_refused {stream : List UInt8}
    (h : (exampleClient.declare stringPrototype.ops).readString 8 nameParameter stream = none) :
    stringPrototype.clientResponse byteAbi exampleBackend exampleClient stream = none := by
  change Option.bind (((exampleClient.declare stringPrototype.ops).readString 8 nameParameter
    stream).bind _) _ = none
  rw [h]
  rfl

/-- The response starts with the length of the string. -/
theorem stringResponse_eq (received : Server) (text : List UInt8) (outcome : Outcome)
    (htext : outcome.text "name" = some text) (value : Memory) (effects : Effects) :
    ∃ rest, stringPrototype.serverResponse byteAbi exampleBackend
      (received.call stringPrototype.ops outcome) value effects =
        encode 8 (text.length % 256 ^ 8) ++ rest := by
  simp only [serverResponse, serverEffects, stringPrototype,
    flatMap_cons, serverRpcWrite, Server.call, nameParameter, List.find?,
    name, parameter, decide_true, called, htext, Option.getD_some,
    exampleBackend, if_true, nil_append, append_assoc]
  exact ⟨_, rfl⟩

/-- **Long strings.** The function returns a string of a mebibyte and a byte, and the client leaves
it on the wire. -/
theorem returned_string_too_long :
    parseAnnotation stringAnnotation [nameParameter] = some stringPrototype.ops ∧
      WellAnnotated stringPrototype.ops ∧ stringPrototype.SynchronizeMatches exampleBackend ∧
      stringPrototype.Callable byteAbi exampleClient ∧
      ¬stringPrototype.Symmetric byteAbi exampleBackend exampleClient := by
  refine ⟨stringAnnotation_parse, ?_, fun s h => (nomatch h), ?_, fun hsymmetric => ?_⟩
  · refine wellAnnotated_of_no_counts (by decide) ?_ ?_ ?_ ?_ <;>
      simp [stringPrototype, length?]
  · refine ⟨?_, ?_, ?_⟩ <;>
      simp [stringPrototype, validated, preflight, declare]
  · obtain ⟨request, -, hreads⟩ := hsymmetric 0 fun _ => Local.zero
    obtain ⟨received, -, hresponse⟩ := hreads []
    let text : List UInt8 := List.replicate (2 ^ 20 + 1) 1
    have htext : text.length = 2 ^ 20 + 1 := length_replicate
    obtain ⟨result, hresult, -⟩ := hresponse
      ⟨fun _ _ => 0, fun _ _ => 0, fun _ _ _ => 0, fun _ => some text⟩ (fun _ => 0)
      ⟨[], by decide, [], by decide⟩ []
    obtain ⟨rest, hrest⟩ := stringResponse_eq received text
      ⟨fun _ _ => 0, fun _ _ => 0, fun _ _ _ => 0, fun _ => some text⟩ rfl (fun _ => 0)
      ⟨[], by decide, [], by decide⟩
    rw [hrest, htext, append_assoc, stringResponse_of_refused
      (readString_refuses (by decide) (by decide) _ _)] at hresult
    cases hresult

end Lupine.Codegen
