import Lupine.Codegen.Server

/-!
# The request is read as it was written

Operation by operation: what `client_rpc_write` puts on the wire is what `server_rpc_read` takes off
it, and the variables of the server then hold what the client held (`Operation.Holds`).
-/

namespace Lupine.Codegen

open Foundations Function Memory Operation List Client

variable (abi : Abi) (lengthWidth : ℕ) (client : Client)

/-! ## Specification -/

variable {name : String} {Q : Local → Prop} {p : Parameter}

/-- The variables of the server hold the argument of the client. -/
def Operation.Holds (l : Local) : Operation → Prop
  | .nullable _ _ p =>
    l.present = !(client.argument p.name).null ∧
      (l.present → l.object.read (abi.sizeOf (baseType p.type)) =
        (client.argument p.name).pointee.read (abi.sizeOf (baseType p.type)))
  | .array send _ p length optional =>
    (optional → l.present = !(client.argument p.name).null) ∧
      (send → (optional → l.present) →
        let bytes := abi.transferSize p.type.pointee (client.value abi) length
        l.buffer.read bytes = (client.argument p.name).pointee.read bytes)
  | .inOutCount p _ =>
    l.object.read (abi.sizeOf p.type.pointee) =
        (client.requested p.name).read (abi.sizeOf p.type.pointee) ∧
      l.requested.read (abi.sizeOf p.type.pointee) =
        (client.requested p.name).read (abi.sizeOf p.type.pointee)
  | .nullableArray p _ _ => l.present = !(client.argument p.name).null
  | .deepStruct send _ p members =>
    send → l.object.read (abi.sizeOf p.type.pointee) = client.header abi p ∧
      ∀ entry ∈ members, let bytes := abi.memberBytes p.type.pointee entry (client.header abi p)
        (l.members entry.1).read bytes = ((client.argument p.name).members entry.1).read bytes
  | .nullTerminated send _ p =>
    send → l.size = client.stringLength lengthWidth p.name ∧
      l.buffer.read l.size = terminated (client.argument p.name).text l.size
  | .opaqueType send _ p =>
    send → l.object.read (abi.sizeOf p.type) = (client.sentObject p).read (abi.sizeOf p.type)
  | .dereference send _ p =>
    send → l.object.read (abi.sizeOf p.type.pointee) =
      (client.argument p.name).pointee.read (abi.sizeOf p.type.pointee)
  | .scalar send _ p mode width =>
    l.size = client.scalarWidth abi p mode width ∧
      (l.size = 0 → l.object.read (abi.sizeOf p.type) =
        (client.argument p.name).object.read (abi.sizeOf p.type)) ∧
      (send → l.buffer.read l.size = (client.argument p.name).pointee.read l.size)
  | .versionedStruct p strings _ guards =>
    l.size = client.versionedSize abi p ∧
      l.buffer.read l.size = (client.argument p.name).pointee.read l.size ∧
      ∀ member ∈ strings, let length := client.memberLength abi p guards member
        (l.members member).read length =
          terminated ((client.argument p.name).memberText member) length

/-- The capacity of a nullable array is not negative and fits in memory. -/
def Operation.CapacityFits : Operation → Prop
  | .nullableArray p count _ => (client.argument p.name).null = false →
    0 ≤ client.requestedCount abi count ∧ client.requestedCount abi count ≤ sizeMax ∧
      capacity (client.requestedCount abi count) * abi.sizeOf p.type.pointee ≤ sizeMax
  | _ => True

/-- The members of a structure are named once. -/
def Operation.MembersDistinct : Operation → Prop
  | .deepStruct _ _ _ members => (members.map Prod.fst).Nodup
  | .versionedStruct _ strings _ _ => strings.Nodup
  | _ => True

/-- What the server knows of the lengths that the operation depends on. -/
structure LengthsKnown (server : Server) (op : Operation) : Prop where
  length : ∀ length, op.length? = some length →
    (length.type.isPointer = true → op.send = true) →
    server.value abi length = client.value abi length
  count : ∀ p count recvOn, op = .nullableArray p count recvOn →
    server.requestedCount abi count = client.requestedCount abi count

/-! ## Fields -/

@[simp] theorem length_flag (b : Bool) : (flag b).length = 1 := rfl

theorem length_terminated {text : List UInt8} {n : ℕ} (h : n ≤ text.length + 1) :
    (terminated text n).length = n := by
  simp [terminated, h]

variable {abi lengthWidth client} {server : Server}

theorem load_eq {n : ℕ} (h : n ≠ 0 → (client.argument name).null = false) :
    client.load name n = some ((client.argument name).pointee.read n) := by
  rw [load, if_neg]
  simp only [Bool.and_eq_true, decide_eq_true_eq, not_and, ne_eq]
  intro hnull hn
  rw [h hn] at hnull
  cases hnull

/-- A field that is read into the variables of its parameter. -/
abbrev ReadsInto (server : Server) (name : String) (reader : Reader Server) (field : List UInt8)
    (Q : Local → Prop) : Prop :=
  Consumes reader field fun server' => ∃ l, server' = update server name l ∧ Q l

theorem readsInto_pure {l : Local} (h : Q l) :
    ReadsInto server name (pure (update server name l)) [] Q :=
  .pure ⟨l, rfl, h⟩

theorem readsInto_skip (h : Q (server name)) : ReadsInto server name (pure server) [] Q :=
  .pure ⟨server name, (update_eq_self name server).symm, h⟩

/-- The last field of a parameter. -/
theorem readsInto_last {n : ℕ} {field : List UInt8} {f : List UInt8 → Local}
    (hlength : field.length = n) (h : Q (f field)) :
    ReadsInto server name
      (Reader.take n >>= fun bytes => pure (update server name (f bytes))) field Q :=
  .takeLast hlength ⟨f field, rfl, h⟩

/-- A field that decides about the rest. -/
theorem readsInto_first {n : ℕ} {field rest : List UInt8} {next : List UInt8 → Reader Server}
    (hlength : field.length = n) (h : ReadsInto server name (next field) rest Q) :
    ReadsInto server name (Reader.take n >>= next) (field ++ rest) Q :=
  .bind (.take hlength) fun _ hbytes => hbytes ▸ h

/-! ## Operations -/

/-- The request of an operation is read as it was written. -/
def Operation.RequestReads (abi : Abi) (lengthWidth : ℕ) (client : Client) (server : Server)
    (op : Operation) : Prop :=
  ∃ field, op.clientRpcWrite abi lengthWidth client = some field ∧
    ReadsInto server op.name (op.serverRpcRead abi lengthWidth server) field
      fun l => op.Holds abi lengthWidth client l

attribute [local simp] clientRpcWrite

theorem nullable_requestReads (send recv : Bool) (p : Parameter) :
    (Operation.nullable send recv p).RequestReads abi lengthWidth client server := by
  cases hnull : (client.argument p.name).null with
  | true =>
    refine ⟨flag false ++ [], by simp [hnull], ?_⟩
    refine readsInto_first rfl ?_
    exact readsInto_pure ⟨by simp [hnull], fun h => nomatch h⟩
  | false =>
    refine ⟨flag true ++ (client.argument p.name).pointee.read (abi.sizeOf (baseType p.type)),
      ?_, ?_⟩
    · simp [hnull, load_eq]
    · refine readsInto_first rfl ?_
      exact readsInto_last (length_read ..) ⟨by simp [hnull], fun _ => read_store_read ..⟩

theorem array_requestReads {send recv : Bool} {length : Length} {optional : Bool}
    (hsent : (Operation.array send recv p length optional).NullableIsSent)
    (hvalid : (Operation.array send recv p length optional).validated abi client = true)
    (hknown : LengthsKnown abi client server (.array send recv p length optional)) :
    (Operation.array send recv p length optional).RequestReads abi lengthWidth client server := by
  have hsize : send = true → abi.transferSize p.type.pointee (server.value abi) length =
      abi.transferSize p.type.pointee (client.value abi) length := by
    intro hsend
    cases length with
    | bytes n => rfl
    | parameter length =>
      rw [Abi.transferSize, Abi.transferSize, hknown.length length rfl fun _ => hsend]
  let bytes := (client.argument p.name).pointee.read
    (abi.transferSize p.type.pointee (client.value abi) length)
  have hload : optional = false ∨ (client.argument p.name).null = false → client.load p.name
      (abi.transferSize p.type.pointee (client.value abi) length) = some bytes := by
    intro h
    refine load_eq fun hne => h.elim (fun hopt => ?_) id
    simp only [validated, Bool.and_eq_true, Bool.or_eq_true, hopt, hne,
      decide_false, Bool.false_eq_true, or_self, false_or] at hvalid
    simpa using hvalid.2
  cases send with
  | false =>
    cases optional with
    | true => cases hsent.1
    | false =>
      refine ⟨[], by simp, ?_⟩
      exact readsInto_pure ⟨fun h => (nomatch h), fun h => (nomatch h)⟩
  | true =>
    have hsize := hsize rfl
    cases optional with
    | false =>
      refine ⟨bytes, by simp [hload (.inl rfl)], ?_⟩
      change ReadsInto _ _ (Reader.take _ >>= _) _ _
      rw [hsize]
      exact readsInto_last (length_read ..) ⟨fun h => (nomatch h), fun _ _ => read_store_read ..⟩
    | true =>
      cases hnull : (client.argument p.name).null with
      | true =>
        refine ⟨flag true ++ [], by simp [hnull], ?_⟩
        refine readsInto_first rfl ?_
        exact readsInto_pure ⟨fun _ => by simp [hnull], fun _ h => nomatch h rfl⟩
      | false =>
        refine ⟨flag false ++ bytes,
          by simp [hnull, hload (.inr hnull)], ?_⟩
        refine readsInto_first rfl ?_
        rw [if_neg (by decide), hsize]
        exact readsInto_last (length_read ..)
          ⟨fun _ => by simp [hnull], fun _ _ => read_store_read ..⟩

theorem inOutCount_requestReads (p : Parameter) (anchor : String) :
    (Operation.inOutCount p anchor).RequestReads abi lengthWidth client server :=
  ⟨_, rfl, readsInto_last (length_read ..) ⟨read_store_read .., read_store_read ..⟩⟩

theorem nullableArray_requestReads {count : Parameter} {recvOn : Option RecvOn}
    (hfits : (Operation.nullableArray p count recvOn).CapacityFits abi client)
    (hknown : LengthsKnown abi client server (.nullableArray p count recvOn)) :
    (Operation.nullableArray p count recvOn).RequestReads abi lengthWidth client server := by
  refine ⟨flag (client.argument p.name).null ++ [], by simp, ?_⟩
  refine readsInto_first rfl ?_
  cases hnull : (client.argument p.name).null with
  | true =>
    exact readsInto_pure (by simp [Operation.Holds, hnull])
  | false =>
    have hbytes := (hfits hnull).2.2
    rw [if_neg (by decide)]
    rw [hknown.count p count recvOn rfl, if_neg (by omega)]
    exact readsInto_pure (by simp [Operation.Holds, hnull])

/-- The arrays of a deep structure, one after the other. -/
theorem deepMembers_consumes {members : List (String × String)}
    (hdistinct : (members.map Prod.fst).Nodup) (buffers : String → Memory) :
    Consumes (members.foldlM (readDeepMember abi p.type.pointee (client.header abi p)) buffers)
      (members.flatMap fun entry => ((client.argument p.name).members entry.1).read
        (abi.memberBytes p.type.pointee entry (client.header abi p)))
      fun buffers => ∀ entry ∈ members,
        let bytes := abi.memberBytes p.type.pointee entry (client.header abi p)
        (buffers entry.1).read bytes = ((client.argument p.name).members entry.1).read bytes := by
  refine .foldlM (I := fun (done : List (String × String)) (buffers : String → Memory) =>
    ∀ entry ∈ done, let bytes := abi.memberBytes p.type.pointee entry (client.header abi p)
    (buffers entry.1).read bytes = ((client.argument p.name).members entry.1).read bytes)
    (fun _ h => nomatch h) fun done entry later buffers hsplit hdone => ?_
  rw [readDeepMember]
  split
  · rename_i hzero
    have hbytes : abi.memberBytes p.type.pointee entry (client.header abi p) = 0 := by
      simp [Abi.memberBytes, hzero, sizeMul]
    rw [hbytes]
    refine .pure fun other hother => ?_
    rcases mem_append.mp hother with hother | hother
    · exact hdone other hother
    · obtain rfl := mem_singleton.mp hother
      simp [hbytes]
  · refine .takeLast (length_read ..) fun other hother => ?_
    rcases mem_append.mp hother with hother | hother
    · have hne : other.1 ≠ entry.1 := by
        intro heq
        rw [← hsplit, map_append, map_cons] at hdistinct
        refine (nodup_append.mp hdistinct).2.2 other.1 (mem_map_of_mem hother) entry.1
          (mem_cons_self ..) heq
      rw [update_of_ne hne]
      exact hdone other hother
    · obtain rfl := mem_singleton.mp hother
      simp

theorem deepStruct_requestReads {send recv : Bool} {members : List (String × String)}
    (hpre : (Operation.deepStruct send recv p members).preflight abi client = true)
    (hdistinct : (Operation.deepStruct send recv p members).MembersDistinct) :
    (Operation.deepStruct send recv p members).RequestReads abi lengthWidth client server := by
  cases send with
  | false => exact ⟨[], rfl, readsInto_skip fun h => nomatch h⟩
  | true =>
    simp only [preflight, Bool.not_true, Bool.false_or, Bool.and_eq_true,
      Bool.not_eq_true', all_eq_true, decide_eq_true_eq, Bool.or_eq_true] at hpre
    obtain ⟨hnull, hmembers⟩ := hpre
    have harrays : members.mapM (client.loadMember abi p) = some (members.map fun entry =>
        ((client.argument p.name).members entry.1).read
          (abi.memberBytes p.type.pointee entry (client.header abi p))) := by
      refine mapM_eq_some fun entry hentry => ?_
      rw [loadMember, if_neg]
      simp only [Bool.and_eq_true, decide_eq_true_eq, not_and, ne_eq, not_not]
      intro hmember
      rcases (hmembers entry hentry).2 with hzero | hpresent
      · simp [Abi.memberBytes, hzero, sizeMul]
      · rw [hmember] at hpresent
        cases hpresent
    refine ⟨client.header abi p ++ members.flatMap fun entry =>
      ((client.argument p.name).members entry.1).read
        (abi.memberBytes p.type.pointee entry (client.header abi p)), ?_, ?_⟩
    · simp [load_eq, hnull, harrays, flatMap_def, header]
    · refine readsInto_first (length_read ..) ?_
      rw [← append_nil (members.flatMap _)]
      refine .bind (deepMembers_consumes hdistinct _) fun buffers hbuffers => ?_
      exact readsInto_pure fun _ => ⟨read_store_read .., hbuffers⟩

theorem nullTerminated_requestReads {send recv : Bool}
    (hvalid : (Operation.nullTerminated send recv p).validated abi client = true) :
    (Operation.nullTerminated send recv p).RequestReads abi lengthWidth client server := by
  cases send with
  | false => exact ⟨[], rfl, readsInto_skip fun h => nomatch h⟩
  | true =>
    have hnull : (client.argument p.name).null = false := by simpa [validated] using hvalid
    have hlength : decode (encode lengthWidth (client.stringLength lengthWidth p.name)) =
        client.stringLength lengthWidth p.name :=
      decode_encode (Nat.mod_lt _ (Nat.pow_pos (by decide)))
    have hle : client.stringLength lengthWidth p.name ≤ (client.argument p.name).text.length + 1 :=
      Nat.mod_le _ _
    refine ⟨_, by simp [hnull]; rfl, ?_⟩
    refine readsInto_first (length_encode ..) ?_
    rw [hlength]
    refine readsInto_last (length_terminated hle) fun _ => ⟨rfl, ?_⟩
    exact read_store (length_terminated hle)

theorem opaqueType_requestReads (send recv : Bool) (p : Parameter) :
    (Operation.opaqueType send recv p).RequestReads abi lengthWidth client server := by
  cases send with
  | false => exact ⟨[], rfl, readsInto_skip fun h => nomatch h⟩
  | true =>
    exact ⟨_, rfl, readsInto_last (length_read ..) fun _ => read_store_read ..⟩

theorem dereference_requestReads {send recv : Bool}
    (hvalid : (Operation.dereference send recv p).validated abi client = true) :
    (Operation.dereference send recv p).RequestReads abi lengthWidth client server := by
  have hnull : (client.argument p.name).null = false := by simpa [validated] using hvalid
  cases send with
  | false => exact ⟨[], rfl, readsInto_skip fun h => nomatch h⟩
  | true =>
    exact ⟨_, load_eq fun _ => hnull, readsInto_last (length_read ..) fun _ => read_store_read ..⟩

theorem scalar_requestReads {send recv : Bool} {mode : Parameter} {width : Option String} :
    (Operation.scalar send recv p mode width).RequestReads abi lengthWidth client server := by
  have hwidth : client.scalarWidth abi p mode width < 256 ^ 4 := by
    rw [scalarWidth]
    split
    · exact Nat.mod_lt _ (by decide)
    · decide
  have hdecode := decode_encode hwidth
  by_cases hzero : client.scalarWidth abi p mode width = 0
  · refine ⟨encode 4 0 ++ (client.argument p.name).object.read (abi.sizeOf p.type), ?_, ?_⟩
    · simp [hzero]
    · refine readsInto_first (length_encode ..) ?_
      refine readsInto_last (length_read ..) ⟨hzero.symm, fun _ => ?_, fun _ => rfl⟩
      exact read_store_read ..
  · have hnull : (client.argument p.name).null = false := by
      by_contra hnull
      simp [scalarWidth, hnull] at hzero
    cases send with
    | false =>
      refine ⟨encode 4 (client.scalarWidth abi p mode width) ++ [], ?_, ?_⟩
      · simp [hzero]
      · refine readsInto_first (length_encode ..) ?_
        rw [hdecode, if_neg hzero, if_neg (by decide)]
        exact readsInto_pure ⟨rfl, fun h => absurd h hzero, fun h => nomatch h⟩
    | true =>
      refine ⟨encode 4 (client.scalarWidth abi p mode width) ++
        (client.argument p.name).pointee.read (client.scalarWidth abi p mode width), ?_, ?_⟩
      · simp [hzero, load_eq, hnull]
      · refine readsInto_first (length_encode ..) ?_
        rw [hdecode, if_neg hzero, if_pos rfl]
        refine readsInto_last (length_read ..) ⟨rfl, fun h => absurd h hzero, fun _ => ?_⟩
        exact read_store_read ..

/-- The string members of a versioned structure, one after the other. -/
theorem memberStrings_consumes {strings : List String} {guards : List (String × String)}
    (hdistinct : strings.Nodup) (texts : String → Memory) :
    Consumes (strings.foldlM readMemberString texts)
      (strings.flatMap (client.memberString abi p guards))
      fun texts => ∀ member ∈ strings, let length := client.memberLength abi p guards member
        (texts member).read length =
          terminated ((client.argument p.name).memberText member) length := by
  refine .foldlM (I := fun (done : List String) (texts : String → Memory) =>
    ∀ member ∈ done, let length := client.memberLength abi p guards member
      (texts member).read length =
        terminated ((client.argument p.name).memberText member) length)
    (fun _ h => nomatch h) fun done member later texts hsplit hdone => ?_
  have hbounds : client.memberLength abi p guards member < 256 ^ 4 ∧
      client.memberLength abi p guards member ≤
        ((client.argument p.name).memberText member).length + 1 := by
    rw [memberLength]
    split
    · exact ⟨Nat.mod_lt _ (by decide), Nat.mod_le _ _⟩
    · exact ⟨by decide, Nat.zero_le _⟩
  have hlength := length_terminated hbounds.2
  refine .bind (.take (length_encode ..)) fun bytes hbytes => ?_
  subst hbytes
  rw [decode_encode hbounds.1]
  refine .takeLast hlength fun other hother => ?_
  rcases mem_append.mp hother with hother | hother
  · have hne : other ≠ member := by
      intro heq
      rw [← hsplit] at hdistinct
      exact (nodup_append.mp hdistinct).2.2 other hother member (mem_cons_self ..) heq
    rw [update_of_ne hne]
    exact hdone other hother
  · obtain rfl := mem_singleton.mp hother
    rw [update_self]
    exact read_store hlength

theorem versionedStruct_requestReads {strings cleared : List String}
    {guards : List (String × String)}
    (hdistinct : (Operation.versionedStruct p strings cleared guards).MembersDistinct) :
    (Operation.versionedStruct p strings cleared guards).RequestReads abi lengthWidth client
      server := by
  have hsize : client.versionedSize abi p < 256 ^ 8 := by
    rw [versionedSize]
    split
    · decide
    · exact Nat.mod_lt _ (by decide)
  have hnull : client.versionedSize abi p ≠ 0 → (client.argument p.name).null = false := by
    intro hne
    by_contra hnull
    simp [versionedSize, hnull] at hne
  refine ⟨encode 8 (client.versionedSize abi p) ++
    ((client.argument p.name).pointee.read (client.versionedSize abi p) ++
      strings.flatMap (client.memberString abi p guards)), ?_, ?_⟩
  · simp [load_eq hnull]
  · refine readsInto_first (length_encode ..) ?_
    rw [decode_encode hsize]
    refine readsInto_first (length_read ..) ?_
    rw [← append_nil (strings.flatMap _)]
    refine .bind (memberStrings_consumes hdistinct _) fun texts htexts => ?_
    exact readsInto_pure ⟨rfl, read_store_read .., htexts⟩

/-- What the caller and the annotations have to keep to for an operation to be read. -/
structure Operation.Admissible (abi : Abi) (client : Client) (op : Operation) : Prop where
  sent : op.NullableIsSent
  validated : op.validated abi client = true
  preflight : op.preflight abi client = true
  fits : op.CapacityFits abi client
  distinct : op.MembersDistinct

/-- **Requests.** Every operation is read as it was written, if the server knows the lengths. -/
theorem Operation.Admissible.requestReads {op : Operation} (h : op.Admissible abi client)
    (hknown : LengthsKnown abi client server op) :
    op.RequestReads abi lengthWidth client server := by
  cases op with
  | nullable => exact nullable_requestReads ..
  | array => exact array_requestReads h.sent h.validated hknown
  | inOutCount => exact inOutCount_requestReads ..
  | nullableArray => exact nullableArray_requestReads h.fits hknown
  | deepStruct => exact deepStruct_requestReads h.preflight h.distinct
  | nullTerminated => exact nullTerminated_requestReads h.validated
  | opaqueType => exact opaqueType_requestReads ..
  | dereference => exact dereference_requestReads h.validated
  | scalar => exact scalar_requestReads
  | versionedStruct => exact versionedStruct_requestReads h.distinct

end Lupine.Codegen
