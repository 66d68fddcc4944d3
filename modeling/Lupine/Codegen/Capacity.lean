import Lupine.Codegen.Symmetry
import Lupine.Foundations.Execution

/-!
# Returned arrays and their capacity

How much of its buffer a handler sends for a returned array, and how much a client stores in the
array of the caller. A nullable array is cut to its capacity. A plain array whose length is a
pointer is not: the buffer has the size of the count before the call, what is sent that of the count
after it. `within_capacity_iff` says when the bounds hold, `coredump_attribute_overflows` is a call
where they do not.
-/

namespace Lupine.Codegen

open Foundations Operation List

variable (abi : Abi)

/-! ## Bytes -/

variable {count p : Parameter} {recvOn : Option RecvOn}

/-- The handler has something to send for a nullable array. -/
def Server.hasData (server : Server) (success : Bool) (p : Parameter) : Option RecvOn → Bool
  | some on => (server p.name).present && (success == (on = .success))
  | none => (server p.name).present

/-- The bytes that are sent out of the buffer of an array. -/
def Operation.sentBytes (server : Server) (success : Bool) : Operation → ℕ
  | .array _ recv p length _ =>
    if recv then abi.transferSize p.type.pointee (server.value abi) length else 0
  | .nullableArray p count recvOn =>
    if server.hasData success p recvOn then
      abi.arrayBytes p.type.pointee (transferCount count recvOn (server.value abi count)
        (server.requestedCount abi count))
    else 0
  | _ => 0

/-- The flag that leads a conditional array. -/
def Operation.flagBytes : Operation → ℕ
  | .nullableArray _ _ (some _) => 1
  | _ => 0

/-- The bytes that are stored in the array of the caller, if the server says that there are any. -/
def Operation.storedBytes (client : Client) (hasData : Bool) : Operation → ℕ
  | .array _ recv p length _ =>
    if recv then abi.transferSize p.type.pointee (client.value abi) length else 0
  | .nullableArray p count recvOn =>
    let requested := client.requestedCount abi count
    let n := transferCount count recvOn (client.value abi count) requested
    match recvOn with
    | some on =>
      if !hasData || (client.argument p.name).null || (on = .success && n > requested) ||
        toSize n > sizeMax / abi.sizeOf p.type.pointee then 0
      else abi.arrayBytes p.type.pointee n
    | none =>
      if !(client.argument p.name).null && requested ≠ 0 &&
          (!count.type.isPointer || client.value abi count ≠ 0) then
        abi.arrayBytes p.type.pointee n
      else 0
  | _ => 0

/-- The bytes of the elements that the caller has room for. -/
def Operation.requestedBytes (client : Client) : Operation → ℕ
  | .array _ _ p length _ => abi.transferSize p.type.pointee (client.value abi) length
  | .nullableArray p count _ => abi.arrayBytes p.type.pointee (client.requestedCount abi count)
  | _ => 0

section Connection

variable {abi} {lengthWidth : ℕ} {client : Client} {server : Server} {success : Bool}

/-- What is sent of an array is its flag and the bytes out of its buffer. -/
theorem length_serverRpcWrite {op : Operation}
    (harray : (∃ send recv p length optional, op = .array send recv p length optional) ∨
      ∃ p count recvOn, op = .nullableArray p count recvOn) :
    (op.serverRpcWrite abi lengthWidth server success).length =
      op.flagBytes + op.sentBytes abi server success := by
  rcases harray with ⟨send, recv, p, length, optional, rfl⟩ | ⟨p, count, recvOn, rfl⟩
  · cases recv <;> simp [serverRpcWrite, flagBytes, sentBytes]
  · cases recvOn with
    | none =>
      cases hpresent : (server p.name).present <;>
        simp [serverRpcWrite, flagBytes, sentBytes, Server.hasData, hpresent]
    | some on =>
      set n := transferCount count (some on) (server.value abi count)
        (server.requestedCount abi count) with hn
      have hwrite : (nullableArray p count (some on)).serverRpcWrite abi lengthWidth server
          success = flag (server.hasData success p (some on)) ++
            if server.hasData success p (some on) && n ≠ 0 then
              (server p.name).buffer.read (abi.arrayBytes p.type.pointee n) else [] := rfl
      rw [hwrite, flagBytes, sentBytes, ← hn, length_append, length_flag]
      cases server.hasData success p (some on) with
      | false => rfl
      | true => by_cases hzero : n = 0 <;> simp [hzero]

/-- A plain array is stored as a whole. -/
theorem clientRpcRead_array (send recv : Bool) (p : Parameter) (length : Length) (optional : Bool) :
    (Operation.array send recv p length optional).clientRpcRead abi lengthWidth client =
      client.rpcRead p.name
        ((Operation.array send recv p length optional).storedBytes abi client true) := by
  cases recv <;> rfl

theorem clientRpcRead_nullableArray (p count : Parameter) :
    (Operation.nullableArray p count none).clientRpcRead abi lengthWidth client =
      client.rpcRead p.name
        ((Operation.nullableArray p count none).storedBytes abi client true) := by
  simp only [clientRpcRead, storedBytes]
  split
  · rfl
  · rfl

/-- A conditional array is refused, or stored as a whole. -/
theorem clientRpcRead_conditional (p count : Parameter) (on : RecvOn) (hasData : Bool)
    (rest : List UInt8) :
    let op := nullableArray p count (some on)
    let read := op.clientRpcRead abi lengthWidth client (flag hasData ++ rest)
    read = none ∨ read = client.rpcRead p.name (op.storedBytes abi client hasData) rest := by
  intro op read
  set requested := client.requestedCount abi count
  set n := transferCount count (some on) (client.value abi count) requested
  have hread : read = client.readConditional abi p on n requested (flag hasData ++ rest) := rfl
  have hafter : client.readConditional abi p on n requested (flag hasData ++ rest) =
      (if decode (flag hasData) = 0 then pure client
        else if decode (flag hasData) ≠ 1 || (client.argument p.name).null ||
          (on = .success && n > requested) || toSize n > sizeMax / abi.sizeOf p.type.pointee then
          failure
        else if n = 0 then pure client
        else client.rpcRead p.name (abi.arrayBytes p.type.pointee n) : Reader Client) rest := rfl
  have hstored : op.storedBytes abi client hasData =
      if !hasData || (client.argument p.name).null || (on = .success && n > requested) ||
        toSize n > sizeMax / abi.sizeOf p.type.pointee then 0
      else abi.arrayBytes p.type.pointee n := rfl
  rw [hread, hafter, hstored]
  cases hasData with
  | false =>
    exact .inr rfl
  | true =>
    rw [if_neg (by decide)]
    split
    · exact .inl rfl
    · rename_i hvalid
      have hstores : ¬(!true || (client.argument p.name).null || (on = .success && n > requested) ||
          toSize n > sizeMax / abi.sizeOf p.type.pointee) = true := fun h => hvalid h
      rw [if_neg hstores]
      refine .inr ?_
      by_cases hnone : n = 0
      · rw [if_pos hnone, hnone, Abi.arrayBytes_zero]
        rfl
      · rw [if_neg hnone]

end Connection

/-! ## Allocations -/

/-- What the handler allocates for an array that it reads in a given state. -/
def Operation.Allocated (server : Server) (l : Local) : Operation → Prop
  | .array _ _ p length optional => optional = false →
    l.allocated = abi.transferSize p.type.pointee (server.value abi) length
  | .nullableArray p count _ => l.present = true →
    l.allocated = capacity (server.requestedCount abi count) * abi.sizeOf p.type.pointee
  | _ => True

section Allocations

variable {abi} {lengthWidth : ℕ} {backend : Backend} {f : Prototype} {server : Server}

/-- Whatever is on the wire, an operation only changes its own variables. -/
theorem serverRpcRead_yields (op : Operation) :
    Yields (op.serverRpcRead abi lengthWidth server) fun server' =>
      ∃ l, server' = Function.update server op.name l ∧ op.Allocated abi server l := by
  cases op with
  | nullable send recv p =>
    refine .skip fun _ => .ite (fun _ => .pure ⟨_, rfl, trivial⟩) fun _ => ?_
    exact .skip fun _ => .pure ⟨_, rfl, trivial⟩
  | array send recv p length optional =>
    refine .ite (fun hoptional => .skip fun _ => ?_) fun _ => .ite (fun _ => ?_) fun _ => ?_
    · have hany : ∀ l, (array send recv p length optional).Allocated abi server l :=
        fun l h => absurd (h.symm.trans hoptional) (by decide)
      exact .ite (fun _ => .pure ⟨_, rfl, hany _⟩) fun _ => .skip fun _ => .pure ⟨_, rfl, hany _⟩
    · exact .skip fun _ => .pure ⟨_, rfl, fun _ => rfl⟩
    · exact .pure ⟨_, rfl, fun _ => rfl⟩
  | inOutCount p anchor => exact .skip fun _ => .pure ⟨_, rfl, trivial⟩
  | nullableArray p count recvOn =>
    refine .skip fun _ => .ite (fun _ => .pure ⟨_, rfl, fun h => nomatch h⟩) fun _ => ?_
    exact .ite (fun _ => .failure) fun _ => .pure ⟨_, rfl, fun _ => rfl⟩
  | deepStruct send recv p members | nullTerminated send recv p =>
    refine .ite (fun _ => .pure ⟨_, (Function.update_eq_self _ _).symm, trivial⟩) fun _ => ?_
    exact .skip fun _ => .skip fun _ => .pure ⟨_, rfl, trivial⟩
  | opaqueType send recv p | dereference send recv p =>
    refine .ite (fun _ => .pure ⟨_, (Function.update_eq_self _ _).symm, trivial⟩) fun _ => ?_
    exact .skip fun _ => .pure ⟨_, rfl, trivial⟩
  | scalar send recv p mode width =>
    refine .skip fun _ => .ite (fun _ => ?_) fun _ => .ite (fun _ => ?_) fun _ => ?_
    · exact .skip fun _ => .pure ⟨_, rfl, trivial⟩
    · exact .skip fun _ => .pure ⟨_, rfl, trivial⟩
    · exact .pure ⟨_, rfl, trivial⟩
  | versionedStruct p strings cleared guards =>
    exact .skip fun _ => .skip fun _ => .skip fun _ => .pure ⟨_, rfl, trivial⟩

/-- A handler that has read its request: every array was allocated in a state in which the earlier
variables had the values that they still have. -/
theorem serverRequest_yields (hdistinct : (f.ops.map Operation.name).Nodup) :
    Yields (f.serverRequest abi backend server) fun received =>
      ∀ before op after, f.ops = before ++ op :: after →
        ∃ s : Server, op.Allocated abi s (received op.name) ∧
          ∀ other ∈ before, received other.name = s other.name := by
  refine .skip fun _ => .foldlM (I := fun (done : List Operation) (received : Server) =>
    ∀ before op after, done = before ++ op :: after →
      ∃ s : Server, op.Allocated abi s (received op.name) ∧
        ∀ other ∈ before, received other.name = s other.name) ?_ ?_
  · intro before op after h
    simp at h
  · intro done item later s hsplit hdone
    refine .ite (fun _ => .failure) fun _ stream server' rest hread => ?_
    obtain ⟨l, rfl, hallocated⟩ := serverRpcRead_yields item stream server' rest hread
    have hkeep : ∀ other ∈ done, Function.update s item.name l other.name = s other.name :=
      fun other hother => Function.update_of_ne (name_ne_of_split hdistinct hsplit hother) ..
    intro before op after hconcat
    rcases concat_eq_append_cons hconcat with ⟨-, rfl, rfl⟩ | ⟨after', -, rfl⟩
    · exact ⟨s, by rwa [Function.update_self], hkeep⟩
    · obtain ⟨s', hop, hbefore⟩ := hdone before op after' rfl
      refine ⟨s', by rwa [hkeep op (by simp)], fun other hother => ?_⟩
      rw [hkeep other (by simp [hother])]
      exact hbefore other hother

end Allocations

/-! ## Bounds -/

/-- An array with a variable length. -/
def Operation.isVariable : Operation → Bool
  | .array _ _ _ (.parameter _) _ | .nullableArray .. => true
  | _ => false

/-- **Within capacity.** For every array with a variable length: the handler sends no more than it
allocated, and the client stores no more than the caller asked for, and nothing behind a null
pointer. `called` are the variables of the handler after the call. -/
def Prototype.WithinCapacity (f : Prototype) (client : Client) (called : Server) (success : Bool) :
    Prop :=
  ∀ before op after, f.ops = before ++ op :: after → op.isVariable = true →
    op.sentBytes abi called success ≤ (called op.name).allocated ∧
      ∀ current hasData, (client.declare f.ops).Received abi called before current →
        op.storedBytes abi current hasData ≤ op.requestedBytes abi (client.declare f.ops) ∧
          ((client.argument op.name).null = true → op.storedBytes abi current hasData = 0)

/-- The bytes of an array by the count that the call left are no more than by the count before the
call and by that of the caller, and none if the caller has no array. -/
def Operation.CountKept (client : Client) (received called : Server) : Operation → Prop
  | .array _ true p (.parameter length) _ =>
    let bytes := fun value => abi.transferSize p.type.pointee value (.parameter length)
    (length.type.isPointer = true →
      bytes (called.value abi) ≤ bytes (received.value abi) ∧
        bytes (called.value abi) ≤ bytes (client.value abi)) ∧
      ((client.argument p.name).null = true → bytes (called.value abi) = 0)
  | _ => True

/-- In-out counts have unsigned types, as all that are annotated. -/
def CountsUnsigned (ops : List Operation) : Prop :=
  ∀ p anchor, .inOutCount p anchor ∈ ops → ∀ bytes, 0 ≤ abi.integer p.type.pointee bytes

section Bounds

variable {abi} {lengthWidth : ℕ} {backend : Backend} {f : Prototype} {client current : Client}
  {received : Server} {outcome : Outcome} {before after : List Operation}

/-- The bytes of a count within a capacity that fits. -/
theorem arrayBytes_le {element : CType} {n requested : ℤ} (hn : 0 ≤ n) (hle : n ≤ requested)
    (hmax : requested ≤ sizeMax) (hfits : capacity requested * abi.sizeOf element ≤ sizeMax) :
    abi.arrayBytes element n ≤ abi.arrayBytes element requested ∧
      abi.arrayBytes element n ≤ capacity requested * abi.sizeOf element := by
  rcases eq_or_lt_of_le hn with rfl | hpos
  · simp
  · have hmod : ∀ m : ℤ, 0 ≤ m → m ≤ requested → toSize m = m.toNat := by
      intro m hm hle
      rw [toSize, Int.emod_eq_of_lt hm]
      rw [show (sizeMax : ℤ) = 2 ^ 64 - 1 from rfl] at hmax
      omega
    have hcapacity : capacity requested = requested.toNat := by
      rw [capacity, if_pos (by omega), hmod requested (by omega) le_rfl]
    rw [hcapacity] at hfits ⊢
    have hprod : n.toNat * abi.sizeOf element ≤ requested.toNat * abi.sizeOf element :=
      Nat.mul_le_mul_right _ (by omega)
    have hlt : requested.toNat * abi.sizeOf element < 2 ^ 64 := by
      rw [show sizeMax = 2 ^ 64 - 1 from rfl] at hfits
      omega
    rw [Abi.arrayBytes, Abi.arrayBytes, sizeMul, sizeMul, hmod n hn hle,
      hmod requested (by omega) le_rfl, Nat.mod_eq_of_lt hlt, Nat.mod_eq_of_lt (by omega)]
    exact ⟨hprod, hprod⟩

/-- An allocation is not changed by the call. -/
theorem WellAnnotated.allocated_call {ops : List Operation} (h : WellAnnotated ops) {op : Operation}
    (hop : op ∈ ops) (server : Server) (outcome : Outcome) :
    (server.call ops outcome op.name).allocated = (server op.name).allocated := by
  rw [h.call_eq hop]
  cases op <;> rfl

/-- The count of a nullable array is not negative. -/
theorem WellAnnotated.count_nonneg {ops : List Operation} (h : WellAnnotated ops)
    (hunsigned : CountsUnsigned abi ops)
    (hsplit : ops = before ++ .nullableArray p count recvOn :: after)
    (hpointer : count.type.isPointer = true) (bytes : List UInt8) :
    0 ≤ abi.integer count.type.pointee bytes := by
  obtain ⟨other, hother, hgives⟩ := h.counts before p count recvOn after hsplit
  have hmem : other ∈ ops := hsplit ▸ mem_append_left _ hother
  rcases of_givesCount hgives with ⟨_, rfl, hvalue, -⟩ | ⟨anchor, rfl, -⟩
  · rw [hpointer] at hvalue
    cases hvalue
  · exact hunsigned _ anchor hmem bytes

section

variable (hwell : WellAnnotated f.ops) (hunsigned : CountsUnsigned abi f.ops)
    (hfits : ∀ op ∈ f.ops, op.CapacityFits abi client)
    (hsplit : f.ops = before ++ .nullableArray p count recvOn :: after)
include hwell hunsigned hfits hsplit

/-- The handler sends no more of a nullable array than it allocated. -/
theorem nullableArray_sent_le {annotated : Annotation} {params : List Parameter}
    (hparse : parseAnnotation annotated params = some f.ops)
    (hinvalid : f.succeeds abi backend backend.invalidResult = false)
    (hholds : ∀ op ∈ f.ops, op.Holds abi lengthWidth client (received op.name))
    (hallocated : ∃ s : Server,
      (Operation.nullableArray p count recvOn).Allocated abi s (received p.name) ∧
        ∀ other ∈ before, received other.name = s other.name) (value : Memory) :
    (Operation.nullableArray p count recvOn).sentBytes abi (received.call f.ops outcome)
        (f.succeeds abi backend (f.returnValue abi backend (received.call f.ops outcome) value)) ≤
      (received.call f.ops outcome p.name).allocated := by
  set called := received.call f.ops outcome
  have hop : .nullableArray p count recvOn ∈ f.ops := hsplit ▸ by simp
  rw [sentBytes]
  split
  · rename_i hdata
    have hpresent : (called p.name).present = true := by
      cases recvOn with
      | none => exact hdata
      | some on => exact (Bool.and_eq_true _ _ ▸ hdata).1
    have hheld : (received p.name).present = !(client.argument p.name).null := hholds _ hop
    have hbefore : (received p.name).present = true :=
      (hwell.call_flags hop received outcome).1.symm.trans hpresent
    have hnull : (client.argument p.name).null = false := by simpa [hbefore] using hheld.symm
    obtain ⟨hnonneg, hmax, hbytes⟩ := hfits _ hop hnull
    have hrequested : called.requestedCount abi count = client.requestedCount abi count :=
      hwell.requested_call_eq hsplit hholds
    have hallocates : (called p.name).allocated =
        capacity (client.requestedCount abi count) * abi.sizeOf p.type.pointee := by
      obtain ⟨s, hs, hsame⟩ := hallocated
      have hknown : LengthsKnown abi client s (.nullableArray p count recvOn) :=
        hwell.lengthsKnown hparse hsplit fun other hother => by
          rw [← hsame other hother]
          exact hholds other (hsplit ▸ mem_append_left _ hother)
      have hcall : (called p.name).allocated = (received p.name).allocated :=
        hwell.allocated_call hop received outcome
      rw [hcall, hs hbefore, hknown.count p count recvOn rfl]
    rw [hallocates, hrequested]
    refine (arrayBytes_le (transferCount_nonneg ?_ hnonneg) (transferCount_le ?_) hmax hbytes).2
    · intro hpointer
      rw [Server.value, if_pos hpointer]
      exact hwell.count_nonneg hunsigned hsplit hpointer _
    · rintro rfl hpointer
      have hsucceeds := (Bool.and_eq_true _ _ ▸ hdata).2
      have hcount := f.invalidCount_of_succeeds hinvalid value (by simpa using hsucceeds) hop
      simp only [invalidCount, hpointer, hpresent, Bool.true_and, decide_eq_false_iff_not,
        gt_iff_lt, not_lt] at hcount
      rwa [hrequested] at hcount
  · exact Nat.zero_le _

/-- The client stores no more of a nullable array than was asked for. -/
theorem nullableArray_stored_le (hsame : client.Same current) (hasData : Bool) :
    (Operation.nullableArray p count recvOn).storedBytes abi current hasData ≤
        (Operation.nullableArray p count recvOn).requestedBytes abi client ∧
      ((client.argument p.name).null = true →
        (Operation.nullableArray p count recvOn).storedBytes abi current hasData = 0) := by
  have hop : .nullableArray p count recvOn ∈ f.ops := hsplit ▸ by simp
  have hreturned : count.type.isPointer = true → 0 ≤ current.value abi count := by
    intro hpointer
    rw [Client.value, if_pos hpointer]
    exact hwell.count_nonneg hunsigned hsplit hpointer _
  simp only [storedBytes, requestedBytes, hsame.requestedCount, hsame.null]
  cases hnull : (client.argument p.name).null with
  | true => cases recvOn <;> simp
  | false =>
    refine ⟨?_, by simp⟩
    obtain ⟨hnonneg, hmax, hbytes⟩ := hfits _ hop hnull
    have hle : ∀ n, 0 ≤ n → n ≤ client.requestedCount abi count →
        abi.arrayBytes p.type.pointee n ≤
          abi.arrayBytes p.type.pointee (client.requestedCount abi count) :=
      fun n hn hle => (arrayBytes_le hn hle hmax hbytes).1
    cases recvOn with
    | none =>
      dsimp only
      split
      · exact hle _ (transferCount_nonneg hreturned hnonneg) (transferCount_le (by simp))
      · exact Nat.zero_le _
    | some on =>
      dsimp only
      split
      · exact Nat.zero_le _
      · rename_i hvalid
        simp only [Bool.or_eq_true, Bool.and_eq_true, decide_eq_true_eq, not_or, not_and] at hvalid
        have hcount := hvalid.1.2
        refine hle _ (transferCount_nonneg hreturned hnonneg) ?_
        cases on with
        | success => exact not_lt.mp (hcount rfl)
        | error => exact transferCount_le (by simp)

end

/-- The client as it is once everything is received. -/
def Client.deliver (client : Client) (server : Server) : Client := { client with
  argument := fun name => { client.argument name with pointee := (server name).object } }

theorem received_deliver (client : Client) (server : Server) (done : List Operation) :
    client.Received abi server done (client.deliver server) := by
  refine ⟨⟨fun _ => rfl, fun _ => rfl, rfl, rfl, rfl⟩, fun op _ => ?_⟩
  cases op with
  | dereference send recv p =>
    cases recv with
    | false => trivial
    | true => rfl
  | inOutCount p anchor => rfl
  | _ => trivial

/-- A plain array is within its capacity if and only if its count is kept. -/
theorem array_within_iff {annotated : Annotation} {params : List Parameter}
    (hparse : parseAnnotation annotated params = some f.ops) (hwell : WellAnnotated f.ops)
    (hholds : ∀ op ∈ f.ops, op.Holds abi lengthWidth client (received op.name))
    {op : Operation} {send recv : Bool} {length : Parameter} {optional : Bool}
    (harray : op = .array send recv p (.parameter length) optional)
    (hsplit : f.ops = before ++ op :: after)
    (hallocated : ∃ s : Server, op.Allocated abi s (received p.name) ∧
      ∀ other ∈ before, received other.name = s other.name) (success : Bool) :
    (op.sentBytes abi (received.call f.ops outcome) success ≤
        (received.call f.ops outcome p.name).allocated ∧
      ∀ current hasData, client.Received abi (received.call f.ops outcome) before current →
        op.storedBytes abi current hasData ≤ op.requestedBytes abi client ∧
          ((client.argument p.name).null = true → op.storedBytes abi current hasData = 0)) ↔
      op.CountKept abi client received (received.call f.ops outcome) := by
  subst harray
  cases recv with
  | false => simp [sentBytes, storedBytes, Operation.CountKept]
  | true =>
    have hop : .array send true p (.parameter length) optional ∈ f.ops := hsplit ▸ by simp
    have hoptional : optional = false := by
      cases optional with
      | false => rfl
      | true => cases (nullableIsSent_of_parse hparse _ hop).2
    have hcongr : ∀ {value value' : Parameter → ℤ}, value length = value' length →
        abi.transferSize p.type.pointee value (.parameter length) =
          abi.transferSize p.type.pointee value' (.parameter length) := by
      intro value value' h
      rw [Abi.transferSize, Abi.transferSize, h]
    have hreceived : ∀ current, client.Received abi (received.call f.ops outcome) before current →
        (received.call f.ops outcome).value abi length = current.value abi length :=
      fun current h => hwell.length_call_eq hparse hsplit hholds h.same h.delivered rfl rfl
    have hdelivered : client.Received abi (received.call f.ops outcome) before
        (client.deliver (received.call f.ops outcome)) := received_deliver ..
    have hallocates : (received.call f.ops outcome p.name).allocated =
        abi.transferSize p.type.pointee (received.value abi) (.parameter length) := by
      obtain ⟨s, hs, hsame⟩ := hallocated
      obtain ⟨other, hother, hgives⟩ := hwell.gives_before hparse hsplit rfl
      have hname := hsame other hother
      rw [(name_of_gives hgives).1] at hname
      have hcall : (received.call f.ops outcome p.name).allocated = (received p.name).allocated :=
        hwell.allocated_call hop received outcome
      rw [hcall, hs hoptional]
      refine hcongr ?_
      rw [Server.value, Server.value, hname]
    have hvalue : length.type.isPointer = false →
        received.value abi length = client.value abi length ∧
          (received.call f.ops outcome).value abi length = client.value abi length := by
      intro hpointer
      have hknown :
          LengthsKnown abi client received (.array send true p (.parameter length) optional) :=
        hwell.lengthsKnown hparse hsplit fun other hother =>
          hholds other (hsplit ▸ mem_append_left _ hother)
      refine ⟨hknown.length length rfl (by simp [hpointer]), ?_⟩
      rw [hreceived _ hdelivered]
      exact hdelivered.same.value hpointer
    simp only [sentBytes, storedBytes, requestedBytes, Operation.CountKept, if_true, hallocates]
    constructor
    · rintro ⟨hsent, hstored⟩
      obtain ⟨hle, hnull⟩ := hstored _ false hdelivered
      rw [← hcongr (hreceived _ hdelivered)] at hle hnull
      exact ⟨fun _ => ⟨hsent, hle⟩, hnull⟩
    · rintro ⟨hkept, hnull⟩
      let bytes (value : Parameter → ℤ) := abi.transferSize p.type.pointee value (.parameter length)
      have hle : bytes ((received.call f.ops outcome).value abi) ≤ bytes (received.value abi) ∧
          bytes ((received.call f.ops outcome).value abi) ≤ bytes (client.value abi) := by
        cases hpointer : length.type.isPointer with
        | true => exact hkept hpointer
        | false =>
          obtain ⟨hbefore, hafter⟩ := hvalue hpointer
          exact ⟨(hcongr (hafter.trans hbefore.symm)).le, (hcongr hafter).le⟩
      refine ⟨hle.1, fun current _ h => ?_⟩
      rw [← hcongr (hreceived current h)]
      exact ⟨hle.2, hnull⟩

end Bounds

/-- **Returned arrays and their capacity.** A handler has accepted a request that gave it the
arguments, and the function was called. Every array with a variable length stays within what was
allocated for it and what the caller asked for if and only if the counts of plain arrays are kept:
the call leaves no larger count than it was given, and no elements go to a null pointer. Nothing is
asked of the counts of nullable arrays. -/
theorem within_capacity_iff {abi : Abi} {backend : Backend} {f : Prototype} {client : Client}
    {annotated : Annotation} {params : List Parameter}
    (hparse : parseAnnotation annotated params = some f.ops) (hwell : WellAnnotated f.ops)
    (hunsigned : CountsUnsigned abi f.ops)
    (hinvalid : f.succeeds abi backend backend.invalidResult = false)
    (hfits : ∀ op ∈ f.ops, op.CapacityFits abi (client.declare f.ops)) {server received : Server}
    {stream rest : List UInt8}
    (hrequest : f.serverRequest abi backend server stream = some (received, rest))
    (hholds : ∀ op ∈ f.ops,
      op.Holds abi backend.lengthWidth (client.declare f.ops) (received op.name))
    (outcome : Outcome) (value : Memory) :
    f.WithinCapacity abi client (received.call f.ops outcome)
        (f.succeeds abi backend (f.returnValue abi backend (received.call f.ops outcome) value)) ↔
      ∀ op ∈ f.ops, op.CountKept abi client received (received.call f.ops outcome) := by
  have hallocated := serverRequest_yields hwell.distinct stream received rest hrequest
  constructor
  · intro hwithin op hop
    obtain ⟨before, after, hsplit⟩ := append_of_mem hop
    cases op with
    | array send recv p length optional =>
      cases length with
      | bytes n => cases recv <;> trivial
      | parameter length =>
        exact (array_within_iff hparse hwell hholds rfl hsplit
          (hallocated before _ after hsplit) _).mp (hwithin before _ after hsplit rfl)
    | _ => trivial
  · intro hkept before op after hsplit hvariable
    have hop : op ∈ f.ops := hsplit ▸ by simp
    cases op with
    | array send recv p length optional =>
      cases length with
      | bytes n => cases hvariable
      | parameter length =>
        exact (array_within_iff hparse hwell hholds rfl hsplit
          (hallocated before _ after hsplit) _).mpr (hkept _ hop)
    | nullableArray p count recvOn =>
      refine ⟨?_, fun current hasData hcurrent => ?_⟩
      · exact nullableArray_sent_le hwell hunsigned hfits hsplit hparse hinvalid hholds
          (hallocated before _ after hsplit) value
      · exact nullableArray_stored_le hwell hunsigned hfits hsplit hcurrent.same hasData
    | _ => cases hvariable

/-! ## A count that grows -/

def attribParameter : Parameter := ⟨"attrib", .named "CUcoredumpSettings" false⟩

def valueParameter : Parameter := ⟨"value", .pointer (.named "void" false) false⟩

def sizeParameter : Parameter := ⟨"size", .pointer (.named "size_t" false) false⟩

/-- `cuCoredumpGetAttributeGlobal`. -/
def coredumpAnnotation : Annotation where
  params := [⟨"attrib", .sendOnly, []⟩, ⟨"size", .sendRecv, []⟩,
    ⟨"value", .recvOnly, [.length "size"]⟩]
  deepArrays := []
  graphNode := false
  retains := []

def coredumpPrototype : Prototype where
  ops := [.opaqueType true false attribParameter, .dereference true true sizeParameter,
    .array false true valueParameter (.parameter sizeParameter) false]
  result := some (.named "CUresult" false)
  async := false
  synchronize := none

theorem coredumpAnnotation_parse : parseAnnotation coredumpAnnotation
    [attribParameter, valueParameter, sizeParameter] = some coredumpPrototype.ops := by
  decide

attribute [local simp] coredumpPrototype sizeParameter

theorem coredump_wellAnnotated : WellAnnotated coredumpPrototype.ops := by
  refine wellAnnotated_of_no_counts (by decide) ?_ ?_ ?_ ?_ <;>
    simp [Operation.MembersDistinct, length?, gives, CType.isPointer, send, recv]

theorem coredump_callable : coredumpPrototype.Callable byteAbi exampleClient := by
  refine ⟨?_, ?_, ?_⟩ <;>
    simp [validated, preflight, Operation.CapacityFits, Client.declare, exampleClient,
      Length.negative, CType.isInt]

/-- The attribute has `size` bytes. -/
def coredumpOutcome (size : UInt8) : Outcome where
  object := fun _ _ => size
  buffer := fun _ _ => 0
  members := fun _ _ _ => 0
  text := fun _ => none

/-- The caller has room for two bytes. -/
theorem coredump_received : ∃ request received,
    coredumpPrototype.clientRequest byteAbi exampleBackend exampleClient 0 = some request ∧
      coredumpPrototype.serverRequest byteAbi exampleBackend (fun _ => Local.zero) request =
        some (received, []) ∧
      ∀ op ∈ coredumpPrototype.ops,
        op.Holds byteAbi 8 (exampleClient.declare coredumpPrototype.ops) (received op.name) := by
  obtain ⟨request, hrequest, hreads⟩ : ∃ request,
      coredumpPrototype.clientRequest byteAbi exampleBackend exampleClient 0 = some request ∧ _ :=
    request_symmetric coredumpAnnotation_parse coredump_wellAnnotated coredump_callable 0
      fun _ => Local.zero
  obtain ⟨received, hreceived, hholds⟩ := hreads []
  rw [append_nil] at hreceived
  exact ⟨request, received, hrequest, hreceived, hholds⟩

/-- A void array is counted in bytes. -/
theorem coredump_bytes (value : Parameter → ℤ) :
    byteAbi.transferSize valueParameter.type.pointee value (.parameter sizeParameter) =
      toSize (value sizeParameter) := rfl

/-- The count after the call. -/
theorem coredump_value (received : Server) (size : UInt8) :
    (received.call coredumpPrototype.ops (coredumpOutcome size)).value byteAbi sizeParameter =
      size.toNat := by
  have hcall : received.call coredumpPrototype.ops (coredumpOutcome size) "size" =
      (dereference true true sizeParameter).called (coredumpOutcome size) (received "size") := rfl
  rw [Server.value, show sizeParameter.name = "size" from rfl, hcall]
  simp [Abi.value, byteAbi, called, coredumpOutcome, Memory.read, decode]

/-- An attribute of two bytes stays within the capacity. -/
theorem within_capacity_of_two_bytes : ∃ request received,
    coredumpPrototype.clientRequest byteAbi exampleBackend exampleClient 0 = some request ∧
      coredumpPrototype.serverRequest byteAbi exampleBackend (fun _ => Local.zero) request =
        some (received, []) ∧
      coredumpPrototype.WithinCapacity byteAbi exampleClient
        (received.call coredumpPrototype.ops (coredumpOutcome 2)) true := by
  obtain ⟨request, received, hrequest, hreceived, hholds⟩ := coredump_received
  have hunsigned : CountsUnsigned byteAbi coredumpPrototype.ops :=
    fun _ _ _ _ => Int.natCast_nonneg _
  have hsize : received.value byteAbi sizeParameter = 2 :=
    congrArg (byteAbi.integer _) (hholds (.dereference true true sizeParameter) (by simp) rfl)
  refine ⟨request, received, hrequest, hreceived, ?_⟩
  refine (within_capacity_iff coredumpAnnotation_parse coredump_wellAnnotated hunsigned (by decide)
    coredump_callable.fits hreceived hholds (coredumpOutcome 2) fun _ => 0).mpr ?_
  intro op hop
  simp only [coredumpPrototype, mem_cons, not_mem_nil, or_false] at hop
  rcases hop with rfl | rfl | rfl
  · trivial
  · trivial
  · have hclient : exampleClient.value byteAbi sizeParameter = 2 := by decide
    simp only [Operation.CountKept, coredump_bytes, coredump_value, hsize, hclient]
    exact ⟨fun _ => ⟨le_rfl, le_rfl⟩, fun h => nomatch h⟩

/-- **A count that grows.** The attribute has five bytes: the handler sends five bytes out of a
buffer of two, and the client stores them where the caller has room for two. -/
theorem coredump_attribute_overflows : ∃ request received,
    coredumpPrototype.clientRequest byteAbi exampleBackend exampleClient 0 = some request ∧
      coredumpPrototype.serverRequest byteAbi exampleBackend (fun _ => Local.zero) request =
        some (received, []) ∧
      ¬coredumpPrototype.WithinCapacity byteAbi exampleClient
        (received.call coredumpPrototype.ops (coredumpOutcome 5)) true := by
  obtain ⟨request, received, hrequest, hreceived, hholds⟩ := coredump_received
  refine ⟨request, received, hrequest, hreceived, fun hwithin => ?_⟩
  have hstored := ((hwithin [.opaqueType true false attribParameter,
    .dereference true true sizeParameter] _ [] rfl rfl).2 _ false
      (received_deliver (exampleClient.declare coredumpPrototype.ops) _ _)).1
  have hreturned : Client.value byteAbi ((exampleClient.declare coredumpPrototype.ops).deliver
      (received.call coredumpPrototype.ops (coredumpOutcome 5))) sizeParameter = 5 :=
    coredump_value received 5
  have hclient : (exampleClient.declare coredumpPrototype.ops).value byteAbi sizeParameter = 2 := by
    decide
  simp only [storedBytes, requestedBytes, if_true, coredump_bytes, hreturned, hclient] at hstored
  exact absurd hstored (by decide)

end Lupine.Codegen
