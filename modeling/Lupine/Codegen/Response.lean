import Lupine.Codegen.Request

/-!
# The response is read as it was written

Operation by operation: what `server_rpc_write` puts on the wire after the call is what
`client_rpc_read` takes off it. A count that the call returned reaches the client before the arrays
that depend on it.
-/

namespace Lupine.Codegen

open Foundations Client

variable {abi : Abi} {lengthWidth : ℕ} {client : Client} {server : Server} {success : Bool}

/-! ## Specification -/

variable {count p : Parameter}
variable {requested returned : ℤ} {recvOn : Option RecvOn}

/-- Only what the argument `name` points at changes. -/
def Client.Touches (name : String) (client client' : Client) : Prop :=
  ∃ argument, client' = client.setArgument name argument ∧
    argument.null = (client.argument name).null ∧ argument.object = (client.argument name).object

/-- A count that is received has the value that the call left. -/
def Operation.Delivered (abi : Abi) (client : Client) (server : Server) : Operation → Prop
  | .dereference _ true p | .inOutCount p _ =>
    (client.argument p.name).pointee.read (abi.sizeOf p.type.pointee) =
      (server p.name).object.read (abi.sizeOf p.type.pointee)
  | _ => True

/-- What client and server have to agree on for the response of an operation. -/
def Operation.Agrees (abi : Abi) (client : Client) (server : Server) (success : Bool) :
    Operation → Prop
  | .nullable _ _ p => (server p.name).present = !(client.argument p.name).null
  | .array _ recv p length _ => recv = true →
    abi.transferSize p.type.pointee (server.value abi) length =
        abi.transferSize p.type.pointee (client.value abi) length ∧
      (abi.transferSize p.type.pointee (client.value abi) length ≠ 0 →
        (client.argument p.name).null = false)
  | .inOutCount p _ | .dereference _ _ p | .deepStruct _ _ p _ =>
    (client.argument p.name).null = false
  | .nullableArray p count recvOn =>
    (server p.name).present = !(client.argument p.name).null ∧
    server.requestedCount abi count = client.requestedCount abi count ∧
    (count.type.isPointer = true →
      server.value abi count = client.value abi count ∧ 0 ≤ client.value abi count) ∧
    (success = true → recvOn = some .success → count.type.isPointer = true →
      (client.argument p.name).null = false →
      client.value abi count ≤ client.requestedCount abi count)
  | .nullTerminated _ recv p => recv = true → ((server p.name).text.getD []).length ≤ 2 ^ 20
  | .scalar _ _ p mode width => (server p.name).size = client.scalarWidth abi p mode width
  | .opaqueType .. | .versionedStruct .. => True

/-- The response of an operation is read as it was written. -/
def Operation.ResponseReads (abi : Abi) (lengthWidth : ℕ) (client : Client) (server : Server)
    (success : Bool) (op : Operation) : Prop :=
  Consumes (op.clientRpcRead abi lengthWidth client)
    (op.serverRpcWrite abi lengthWidth server success)
    fun client' => client.Touches op.name client' ∧ op.Delivered abi client' server

/-! ## Fields -/

theorem Client.Touches.refl (name : String) (client : Client) : client.Touches name client :=
  ⟨client.argument name, by rw [setArgument, Function.update_eq_self], rfl, rfl⟩

theorem Client.Touches.trans {name : String} {client₁ client₂ client₃ : Client}
    (h : client₁.Touches name client₂) (h' : client₂.Touches name client₃) :
    client₁.Touches name client₃ := by
  obtain ⟨a, rfl, hnull, hobject⟩ := h
  obtain ⟨b, rfl, hnull', hobject'⟩ := h'
  rw [setArgument_self] at hnull' hobject'
  refine ⟨b, ?_, hnull'.trans hnull, hobject'.trans hobject⟩
  simp only [setArgument, Function.update_idem]

/-- `rpc_read` into what an argument points at. -/
theorem rpcRead_consumes {name : String} {n : ℕ}
    (hnull : n ≠ 0 → (client.argument name).null = false) (memory : Memory) :
    Consumes (client.rpcRead name n) (memory.read n) fun client' =>
      client.Touches name client' ∧ (client'.argument name).pointee.read n = memory.read n := by
  rw [rpcRead]
  split
  · rename_i hzero
    subst hzero
    exact .pure ⟨.refl name client, rfl⟩
  · rename_i hne
    rw [if_neg (by simp [hnull hne])]
    refine .takeLast (Memory.length_read ..) ⟨⟨_, rfl, rfl, rfl⟩, ?_⟩
    rw [setArgument_self]
    exact Memory.read_write (Memory.length_read ..)

theorem skip_consumes {op : Operation} (hdelivered : op.Delivered abi client server) :
    Consumes (pure client) [] fun client' =>
      client.Touches op.name client' ∧ op.Delivered abi client' server :=
  .pure ⟨.refl op.name client, hdelivered⟩

/-! ## Operations -/

section

variable {send recv : Bool}

theorem nullable_responseReads
    (h : (Operation.nullable send recv p).Agrees abi client server success) :
    (Operation.nullable send recv p).ResponseReads abi lengthWidth client server success := by
  change Consumes (if _ then _ else _) (if _ then _ else _) _
  rw [show (server p.name).present = !(client.argument p.name).null from h]
  refine .ite (fun hpresent => ?_) fun _ => skip_consumes trivial
  simp only [Bool.and_eq_true, Bool.not_eq_true'] at hpresent
  exact (rpcRead_consumes (fun _ => hpresent.2) _).mono fun _ h => ⟨h.1, trivial⟩

theorem array_responseReads {length : Length} {optional : Bool}
    (h : (Operation.array send recv p length optional).Agrees abi client server success) :
    (Operation.array send recv p length optional).ResponseReads abi lengthWidth client server
      success := by
  refine .ite (fun hrecv => ?_) fun _ => skip_consumes trivial
  obtain ⟨hsize, hnull⟩ := h hrecv
  rw [hsize]
  exact (rpcRead_consumes hnull _).mono fun _ h => ⟨h.1, trivial⟩

theorem inOutCount_responseReads {anchor : String}
    (h : (Operation.inOutCount p anchor).Agrees abi client server success) :
    (Operation.inOutCount p anchor).ResponseReads abi lengthWidth client server success :=
  rpcRead_consumes (fun _ => h) _

theorem dereference_responseReads
    (h : (Operation.dereference send recv p).Agrees abi client server success) :
    (Operation.dereference send recv p).ResponseReads abi lengthWidth client server success := by
  cases recv with
  | false => exact skip_consumes trivial
  | true => exact rpcRead_consumes (fun _ => h) _

theorem scalar_responseReads {mode : Parameter} {width : Option String}
    (h : (Operation.scalar send recv p mode width).Agrees abi client server success) :
    (Operation.scalar send recv p mode width).ResponseReads abi lengthWidth client server
      success := by
  refine .ite (fun _ => ?_) fun _ => skip_consumes trivial
  rw [show (server p.name).size = client.scalarWidth abi p mode width from h]
  refine (rpcRead_consumes (fun hne => ?_) _).mono fun _ h => ⟨h.1, trivial⟩
  by_contra hnull
  simp [scalarWidth, hnull] at hne

theorem nullTerminated_responseReads
    (h : (Operation.nullTerminated send recv p).Agrees abi client server success) :
    (Operation.nullTerminated send recv p).ResponseReads abi lengthWidth client server success := by
  refine .ite (fun hrecv => ?_) fun _ => skip_consumes trivial
  have hlimit := h hrecv
  generalize (server p.name).text.getD [] = text at hlimit
  have hle : text.length % 256 ^ lengthWidth ≤ text.length := Nat.mod_le _ _
  refine .bind (.take (length_encode ..)) fun bytes hbytes => ?_
  subst hbytes
  rw [decode_encode (Nat.mod_lt _ (Nat.pow_pos (by decide))), if_neg (by omega)]
  exact .takeLast (by simp [hle]) ⟨⟨_, rfl, rfl, rfl⟩, trivial⟩

/-- The arrays of a received deep structure, one after the other. The header stays while they are
read. -/
theorem readMembers_consumes {members : List (String × String)} {header : List UInt8}
    (hheader : client.header abi p = header) (arrays : String → Memory) :
    Consumes (members.foldlM (Client.readMember abi p) client) (members.flatMap fun entry =>
        (arrays entry.1).read (abi.memberBytes p.type.pointee entry header))
      fun client' => client.Touches p.name client' ∧ client'.header abi p = header := by
  refine .foldlM (I := fun _ client' => client.Touches p.name client' ∧
    client'.header abi p = header) ⟨.refl _ _, hheader⟩ fun _ entry _ current _ hI => ?_
  obtain ⟨htouches, hcurrent⟩ := hI
  rw [readMember, hcurrent]
  split
  · rename_i hzero
    rw [show abi.memberBytes p.type.pointee entry header = 0 by
      simp [Abi.memberBytes, hzero, sizeMul]]
    exact .pure ⟨htouches, hcurrent⟩
  · refine .takeLast (Memory.length_read ..) ⟨htouches.trans ⟨_, rfl, rfl, rfl⟩, ?_⟩
    rw [Client.header, Client.setArgument_self]
    exact hcurrent

theorem deepStruct_responseReads {members : List (String × String)}
    (h : (Operation.deepStruct send recv p members).Agrees abi client server success) :
    (Operation.deepStruct send recv p members).ResponseReads abi lengthWidth client server
      success := by
  refine .ite (fun _ => skip_consumes trivial) fun _ => .ite (fun _ => ?_) fun _ => ?_
  · exact (rpcRead_consumes (fun _ => h) _).mono fun _ h => ⟨h.1, trivial⟩
  · refine .bind (rpcRead_consumes (fun _ => h) _) fun current hcurrent => ?_
    refine (readMembers_consumes hcurrent.2 _).mono fun _ hlast => ?_
    exact ⟨hcurrent.1.trans hlast.1, trivial⟩

end

@[simp] theorem Abi.arrayBytes_zero (element : CType) : abi.arrayBytes element 0 = 0 := by
  simp [arrayBytes, toSize, sizeMul]

/-- If the client does not read, the server had nothing to send. -/
theorem transferCount_eq_zero (hreturned : count.type.isPointer = true → 0 ≤ returned)
    (hrequested : 0 ≤ requested) (h : requested = 0 ∨ count.type.isPointer = true ∧ returned = 0) :
    transferCount count none returned requested = 0 := by
  unfold transferCount
  cases hpointer : count.type.isPointer with
  | false =>
    simpa [hpointer] using h
  | true =>
    have := hreturned hpointer
    rw [if_neg (by decide), if_neg (by decide)]
    split <;> omega

/-- What is transferred is within the capacity. -/
theorem transferCount_le
    (h : recvOn = some .success → count.type.isPointer = true → returned ≤ requested) :
    transferCount count recvOn returned requested ≤ requested := by
  unfold transferCount
  split
  · exact le_rfl
  · rename_i hpointer
    split
    · exact h ‹_› (by simpa using hpointer)
    · split <;> omega

theorem transferCount_nonneg (hreturned : count.type.isPointer = true → 0 ≤ returned)
    (hrequested : 0 ≤ requested) : 0 ≤ transferCount count recvOn returned requested := by
  unfold transferCount
  split
  · exact hrequested
  · rename_i hpointer
    have := hreturned (by simpa using hpointer)
    split
    · exact this
    · split <;> omega

/-- A count within a capacity that fits passes the overflow check of the client. -/
theorem toSize_le_div {n : ℤ} {size : ℕ} (hn : 0 ≤ n) (hle : n ≤ requested)
    (hmax : requested ≤ sizeMax) (hsize : 0 < size) (hfits : capacity requested * size ≤ sizeMax) :
    toSize n ≤ sizeMax / size := by
  have hmod : ∀ m : ℤ, 0 ≤ m → m ≤ sizeMax → toSize m = m.toNat := by
    intro m hm hle
    rw [toSize, Int.emod_eq_of_lt hm]
    rw [show (sizeMax : ℤ) = 2 ^ 64 - 1 from rfl] at hle
    omega
  rw [Nat.le_div_iff_mul_le hsize, hmod n hn (by omega)]
  rcases eq_or_lt_of_le hn with hzero | hpos
  · rw [← hzero]
    simp
  · refine le_trans (Nat.mul_le_mul_right size ?_) hfits
    rw [capacity, if_pos (by omega), hmod requested (by omega) hmax]
    omega

theorem readConditional_consumes {on : RecvOn} {n : ℤ} {hasData : Bool}
    (hnull : hasData = true → (client.argument p.name).null = false)
    (hcount : hasData = true → on = .success → n ≤ requested)
    (hsize : hasData = true → toSize n ≤ sizeMax / abi.sizeOf p.type.pointee) (memory : Memory) :
    Consumes (client.readConditional abi p on n requested)
      (flag hasData ++
        if hasData && n ≠ 0 then memory.read (abi.arrayBytes p.type.pointee n) else [])
      fun client' => client.Touches p.name client' := by
  refine .bind (.take rfl) fun bytes hbytes => ?_
  subst hbytes
  cases hasData with
  | false =>
    exact .pure (.refl _ _)
  | true =>
    have hnull := hnull rfl
    have hcount := hcount rfl
    have hsize := hsize rfl
    rw [if_neg (by decide), if_neg ?_]
    · by_cases hzero : n = 0
      · rw [if_pos hzero, if_neg (by simp [hzero])]
        exact .pure (.refl _ _)
      · rw [if_neg hzero, if_pos (by simp [hzero])]
        exact (rpcRead_consumes (fun _ => hnull) memory).mono fun _ h => h.1
    · simp only [hnull, Bool.or_false, Bool.or_eq_true, Bool.and_eq_true, decide_eq_true_eq, not_or,
        not_and]
      exact ⟨⟨by decide, fun hon => by have := hcount hon; omega⟩, by omega⟩

theorem nullableArray_responseReads
    (hfits : (Operation.nullableArray p count recvOn).CapacityFits abi client)
    (h : (Operation.nullableArray p count recvOn).Agrees abi client server success) :
    (Operation.nullableArray p count recvOn).ResponseReads abi lengthWidth client server
      success := by
  obtain ⟨hpresent, hrequested, hreturned, hsuccess⟩ := h
  -- both sides compute the same count
  have hcount : transferCount count recvOn (server.value abi count)
      (server.requestedCount abi count) =
      transferCount count recvOn (client.value abi count) (client.requestedCount abi count) := by
    rw [hrequested]
    unfold transferCount
    split
    · rfl
    · rename_i hpointer
      rw [(hreturned (by simpa using hpointer)).1]
  have hnonneg : count.type.isPointer = true → 0 ≤ client.value abi count :=
    fun hpointer => (hreturned hpointer).2
  unfold Operation.ResponseReads Operation.clientRpcRead Operation.serverRpcWrite
  dsimp only
  rw [hcount, hpresent]
  cases recvOn with
  | none =>
    dsimp only
    cases hnull : (client.argument p.name).null with
    | true =>
      exact skip_consumes trivial
    | false =>
      obtain ⟨hcapacity, -, -⟩ := hfits hnull
      split
      · exact (rpcRead_consumes (fun _ => hnull) _).mono fun _ h => ⟨h.1, trivial⟩
      · rename_i hskip
        have hzero := transferCount_eq_zero hnonneg hcapacity (by
          by_contra hne
          rw [not_or, not_and] at hne
          refine hskip ?_
          simp only [Bool.not_false, Bool.true_and, Bool.and_eq_true, decide_eq_true_eq,
            Bool.or_eq_true, Bool.not_eq_true', ne_eq]
          refine ⟨hne.1, ?_⟩
          cases hpointer : count.type.isPointer with
          | false => exact .inl rfl
          | true => exact .inr (hne.2 hpointer))
        rw [hzero, Abi.arrayBytes_zero]
        exact skip_consumes trivial
  | some on =>
    refine (readConditional_consumes ?_ ?_ ?_ _).mono fun _ h => ⟨h, trivial⟩
    all_goals
      intro hdata
      simp only [Bool.and_eq_true, Bool.not_eq_true', beq_iff_eq] at hdata
      obtain ⟨hnull, hdata⟩ := hdata
      have hle : transferCount count (some on) (client.value abi count)
          (client.requestedCount abi count) ≤ client.requestedCount abi count := by
        refine transferCount_le fun hon hpointer => ?_
        refine hsuccess ?_ hon hpointer hnull
        rw [hdata]
        simpa using Option.some.inj hon
    · exact hnull
    · exact fun _ => hle
    · obtain ⟨hcapacity, hmax, hbytes⟩ := hfits hnull
      exact toSize_le_div (transferCount_nonneg hnonneg hcapacity) hle hmax (abi.sizeOf_pos _)
        hbytes

/-- **Responses.** Every operation is read as it was written, if both sides agree. -/
theorem Operation.Agrees.responseReads {op : Operation} (hfits : op.CapacityFits abi client)
    (h : op.Agrees abi client server success) :
    op.ResponseReads abi lengthWidth client server success := by
  cases op with
  | nullable => exact nullable_responseReads h
  | array => exact array_responseReads h
  | inOutCount => exact inOutCount_responseReads h
  | nullableArray => exact nullableArray_responseReads hfits h
  | deepStruct => exact deepStruct_responseReads h
  | nullTerminated => exact nullTerminated_responseReads h
  | opaqueType => exact skip_consumes trivial
  | dereference => exact dereference_responseReads h
  | scalar => exact scalar_responseReads h
  | versionedStruct => exact skip_consumes trivial

end Lupine.Codegen
