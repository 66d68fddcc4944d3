import Lupine.Codegen.Client

/-!
# Generated servers

The code that the operations emit for the server, put together by `write_server_handler`
(`codegen/emit.py`): the reads of the request into local variables, and the fields of the response.
What the called function does is left open: it may leave anything in what it is given a pointer to.
-/

namespace Lupine.Codegen

open Foundations

/-- The local variables of a handler for one parameter. -/
structure Local where
  /-- The variable itself, where it is not a pointer to a buffer. -/
  object : Memory
  /-- `<name>_present`, or not `<name>_null`. -/
  present : Bool
  /-- `<name>_requested`. -/
  requested : Memory
  /-- `<name>_size`, `<name>_len` or `<name>_width`. -/
  size : ℕ
  /-- The heap buffer or slot, and how much of it was allocated. -/
  buffer : Memory
  allocated : ℕ
  members : String → Memory
  /-- A string that the function returned. -/
  text : Option (List UInt8)

abbrev Server := String → Local

namespace Server

variable (abi : Abi) (server : Server)

/-- `server_element_count_expr`: lengths are scalar variables here. -/
def value (p : Parameter) : ℤ :=
  abi.value (if p.type.isPointer then p.type.pointee else p.type) (server p.name).object

/-- `requested_count_expr`. -/
def requestedCount (count : Parameter) : ℤ :=
  if count.type.isPointer then abi.value count.type.pointee (server count.name).requested
  else server.value abi count

end Server

/-! ## The request -/

/-- `server_declaration`: what is initialised. -/
def Operation.declared (l : Local) : Operation → Local
  | .opaqueType .. | .scalar .. | .versionedStruct .. => l
  | _ => { l with
      object := fun _ => 0
      present := false
      requested := fun _ => 0
      allocated := 0
      text := none }

/-- The variables at the start. What is not initialised holds anything. -/
def Server.declare (server : Server) (ops : List Operation) : Server := fun name =>
  match ops.find? fun op => op.name = name with
  | some op => op.declared (server name)
  | none => server name

section Request

variable (abi : Abi) (lengthWidth : ℕ) (server : Server)

/-- The elements that are allocated for a nullable array: one if none are requested. -/
def capacity (requested : ℤ) : ℕ := if requested ≠ 0 then toSize requested else 1

/-- An array of a deep structure. -/
def readDeepMember (type : CType) (header : List UInt8) (members : String → Memory)
    (entry : String × String) : Reader (String → Memory) :=
  if abi.member type entry.2 header = 0 then pure members
  else do
    let bytes ← Reader.take (abi.memberBytes type entry header)
    return Function.update members entry.1 (.store bytes)

/-- A string member of a versioned structure. -/
def readMemberString (members : String → Memory) (member : String) : Reader (String → Memory) := do
  let length ← Reader.take 4
  let bytes ← Reader.take (decode length)
  return Function.update members member (.store bytes)

/-- `server_rpc_read`. -/
def Operation.serverRpcRead : Operation → Reader Server
  | .nullable _ _ p => do
    let present ← Reader.take 1
    if decode present = 0 then
      return Function.update server p.name { server p.name with present := false }
    else do
      let bytes ← Reader.take (abi.sizeOf (baseType p.type))
      return Function.update server p.name
        { server p.name with present := true, object := .store bytes }
  | .array send _ p length optional =>
    let size := abi.transferSize p.type.pointee (server.value abi) length
    if optional then do
      let null ← Reader.take 1
      if decode null ≠ 0 then
        return Function.update server p.name { server p.name with present := false, size := size }
      else do
        let bytes ← Reader.take size
        return Function.update server p.name { server p.name with
          present := true, size := size, buffer := .store bytes, allocated := size }
    else if send then do
      let bytes ← Reader.take size
      return Function.update server p.name { server p.name with
        size := size, buffer := .store bytes, allocated := size }
    else
      return Function.update server p.name
        { server p.name with buffer := fun _ => 0, allocated := size }
  | .inOutCount p _ => do
    let bytes ← Reader.take (abi.sizeOf p.type.pointee)
    return Function.update server p.name
      { server p.name with requested := .store bytes, object := .store bytes }
  | .nullableArray p count _ => do
    let null ← Reader.take 1
    if decode null ≠ 0 then
      return Function.update server p.name { server p.name with present := false }
    else
      let bytes := capacity (server.requestedCount abi count) * abi.sizeOf p.type.pointee
      -- `calloc` checks its product
      if bytes > sizeMax then failure
      else
        return Function.update server p.name
          { server p.name with present := true, buffer := fun _ => 0, allocated := bytes }
  | .deepStruct send _ p members =>
    if !send then return server
    else do
      let header ← Reader.take (abi.sizeOf p.type.pointee)
      let buffers ← members.foldlM (readDeepMember abi p.type.pointee header)
        (server p.name).members
      return Function.update server p.name
        { server p.name with object := .store header, members := buffers }
  | .nullTerminated send _ p =>
    if !send then return server
    else do
      let length ← Reader.take lengthWidth
      let bytes ← Reader.take (decode length)
      return Function.update server p.name { server p.name with
        size := decode length, buffer := .store bytes, allocated := decode length }
  | .opaqueType send _ p =>
    if !send then return server
    else do
      let bytes ← Reader.take (abi.sizeOf p.type)
      return Function.update server p.name { server p.name with object := .store bytes }
  | .dereference send _ p =>
    if !send then return server
    else do
      let bytes ← Reader.take (abi.sizeOf p.type.pointee)
      return Function.update server p.name { server p.name with object := .store bytes }
  | .scalar send _ p _ _ => do
    let width ← Reader.take 4
    if decode width = 0 then do
      let address ← Reader.take (abi.sizeOf p.type)
      return Function.update server p.name
        { server p.name with size := 0, object := .store address }
    else if send then do
      let bytes ← Reader.take (decode width)
      return Function.update server p.name
        { server p.name with size := decode width, buffer := .store bytes }
    else return Function.update server p.name { server p.name with size := decode width }
  | .versionedStruct p strings _ _ => do
    let size ← Reader.take 8
    let bytes ← Reader.take (decode size)
    let texts ← strings.foldlM readMemberString (server p.name).members
    return Function.update server p.name { server p.name with
      size := decode size, buffer := .store bytes, members := texts }

/-- The length of an `int` array is checked before the array is read. -/
def Operation.serverRefuses : Operation → Bool
  | .array _ _ _ length _ => length.negative (server.value abi)
  | _ => false

end Request

/-! ## The call -/

/-- What the called function leaves behind its pointers. -/
structure Outcome where
  object : String → Memory
  buffer : String → Memory
  members : String → String → Memory
  text : String → Option (List UInt8)

/-- A variable after the call. What is passed by value stays. -/
def Operation.called (outcome : Outcome) (l : Local) : Operation → Local
  | .opaqueType .. | .versionedStruct .. => l
  | op => { l with
      object := outcome.object op.name
      buffer := outcome.buffer op.name
      members := outcome.members op.name
      text := outcome.text op.name }

def Server.call (server : Server) (ops : List Operation) (outcome : Outcome) : Server := fun name =>
  match ops.find? fun op => op.name = name with
  | some op => op.called outcome (server name)
  | none => server name

/-! ## The response -/

section Response

variable (abi : Abi) (lengthWidth : ℕ) (server : Server) (success : Bool)

/-- `server_rpc_write`. `success` compares the return value. -/
def Operation.serverRpcWrite : Operation → List UInt8
  | .nullable _ recv p =>
    if recv && (server p.name).present then (server p.name).object.read (abi.sizeOf p.type.pointee)
    else []
  | .array _ recv p length _ =>
    if recv then
      (server p.name).buffer.read (abi.transferSize p.type.pointee (server.value abi) length)
    else []
  | .inOutCount p _ => (server p.name).object.read (abi.sizeOf p.type.pointee)
  | .nullableArray p count recvOn =>
    let n := transferCount count recvOn (server.value abi count) (server.requestedCount abi count)
    let bytes := abi.arrayBytes p.type.pointee n
    match recvOn with
    | some on =>
      let hasData := (server p.name).present && (success == (on = .success))
      flag hasData ++ if hasData && n ≠ 0 then (server p.name).buffer.read bytes else []
    | none => if (server p.name).present then (server p.name).buffer.read bytes else []
  | .deepStruct send recv p members =>
    if !recv then []
    else
      let header := (server p.name).object.read (abi.sizeOf p.type.pointee)
      if send then header
      else header ++ members.flatMap fun entry =>
        ((server p.name).members entry.1).read (abi.memberBytes p.type.pointee entry header)
  | .nullTerminated _ recv p =>
    if recv then
      let text := (server p.name).text.getD []
      let length := text.length % 256 ^ lengthWidth
      encode lengthWidth length ++ text.take length
    else []
  | .dereference _ recv p =>
    if recv then (server p.name).object.read (abi.sizeOf p.type.pointee) else []
  | .scalar _ recv p _ _ =>
    if recv then (server p.name).buffer.read (server p.name).size else []
  | .opaqueType .. | .versionedStruct .. => []

/-- A count that exceeds the capacity of an array that is returned on success. -/
def Operation.invalidCount : Operation → Bool
  | .nullableArray p count (some .success) =>
    count.type.isPointer && (server p.name).present &&
      server.value abi count > server.requestedCount abi count
  | _ => false

end Response

end Lupine.Codegen
