import Mathlib.Algebra.Ring.Int.Defs
import Lupine.Foundations.Wire
import Lupine.Codegen.Annotations

/-!
# Generated clients

The code that the operations emit for the client (`codegen/ops.py`, put together by
`write_cuda_client` in `codegen/codegen.py` and `write_client_rpc` in `codegen/emit.py`): the checks
before a request, the fields of the request, and the reads of the response.

A fragment of emitted code is represented by what it does. `rpc_write` appends to the message and
`rpc_read` takes from it; both fail on a null pointer unless there is nothing to transfer. Memory
allocation succeeds. The representation of C objects is given by an `Abi`, the same on both sides.
-/

namespace Lupine.Codegen

open Foundations

/-! ## C objects -/

/-- What the generated code depends on in the C ABI: sizes, the integer that an object denotes, and
the count members of structures. -/
structure Abi where
  sizeOf : CType → ℕ
  sizeOf_pos : ∀ type, 0 < sizeOf type
  integer : CType → List UInt8 → ℤ
  member : CType → String → List UInt8 → ℕ
  /-- The size of what a member points at. -/
  memberSize : CType → String → ℕ
  offsetOf : CType → String → ℕ

def toSize (n : ℤ) : ℕ := (n % 2 ^ 64).toNat

def sizeMul (a b : ℕ) : ℕ := a * b % 2 ^ 64

def sizeMax : ℕ := 2 ^ 64 - 1

/-- A `uint8_t` that is 0 or 1. -/
def flag (b : Bool) : List UInt8 := [if b then 1 else 0]

/-- The bytes of a string with its terminator, at most `length` of them. -/
def terminated (text : List UInt8) (length : ℕ) : List UInt8 := (text ++ [0]).take length

namespace Abi

variable (abi : Abi)

/-- The integer in an object. -/
def value (type : CType) (object : Memory) : ℤ := abi.integer type (object.read (abi.sizeOf type))

/-- `transfer_size_expr` and `server_transfer_size_expr`. -/
def transferSize (element : CType) (value : Parameter → ℤ) : Length → ℕ
  | .bytes n => toSize n
  | .parameter length =>
    if element.isVoid then toSize (value length)
    else sizeMul (toSize (value length)) (abi.sizeOf element)

def arrayBytes (element : CType) (n : ℤ) : ℕ := sizeMul (toSize n) (abi.sizeOf element)

/-- The bytes behind an array member, by the count in the structure. -/
def memberBytes (type : CType) (entry : String × String) (header : List UInt8) : ℕ :=
  sizeMul (abi.member type entry.2 header) (abi.memberSize type entry.1)

end Abi

/-- `NullableOperation.base_type`: a void pointer travels as itself. -/
def baseType (type : CType) : CType :=
  if type.pointee = .named "void" true then type else type.pointee

/-- `OpaqueTypeOperation.is_sent_cufunction`, for an operation that sends. -/
def Parameter.isFunction (p : Parameter) : Bool :=
  match p.type with
  | .named name _ => name = "CUfunction"
  | _ => false

/-- `NullableArrayOperation.transfer_count_expr`. -/
def transferCount (count : Parameter) (recvOn : Option RecvOn) (returned requested : ℤ) : ℤ :=
  if !count.type.isPointer then requested
  else if recvOn = some .success then returned
  else if returned < requested then returned
  else requested

/-! ## The caller -/

/-- An argument of the caller, with what it points at. -/
structure Argument where
  object : Memory
  null : Bool
  pointee : Memory
  /-- The string it points at, without its terminator. -/
  text : List UInt8
  /-- The arrays and strings that members of the structure point at. -/
  members : String → Memory
  memberNull : String → Bool
  memberText : String → List UInt8

/-- The state of a generated client function: the arguments, the `_requested` counts, and what it
asks of its surroundings. -/
structure Client where
  argument : String → Argument
  requested : String → Memory
  scalarOnHost : String → String → Bool
  /-- The values of width expressions. -/
  width : String → ℕ
  /-- `lupine_translate_private_function_for_rpc`. -/
  functionForRpc : Memory → Memory
  /-- The preprocessor conditions that hold. -/
  defined : String → Bool

namespace Client

def setArgument (client : Client) (name : String) (argument : Argument) : Client :=
  { client with argument := Function.update client.argument name argument }

section SetArgument

variable (client : Client) {name other : String} (argument : Argument)

@[simp] theorem setArgument_self : (client.setArgument name argument).argument name = argument :=
  Function.update_self ..

theorem setArgument_of_ne (h : other ≠ name) :
    (client.setArgument name argument).argument other = client.argument other :=
  Function.update_of_ne h ..

end SetArgument

variable (abi : Abi) (client : Client)

/-- `count_expr`: a value, or what a pointer points at. -/
def value (p : Parameter) : ℤ :=
  if p.type.isPointer then abi.value p.type.pointee (client.argument p.name).pointee
  else abi.value p.type (client.argument p.name).object

/-- `requested_count_expr`. -/
def requestedCount (count : Parameter) : ℤ :=
  if count.type.isPointer then abi.value count.type.pointee (client.requested count.name)
  else client.value abi count

/-- `rpc_write(conn, name, n)`. -/
def load (name : String) (n : ℕ) : Option (List UInt8) :=
  if (client.argument name).null && n ≠ 0 then none
  else some ((client.argument name).pointee.read n)

/-- `rpc_read(conn, name, n)`. -/
def rpcRead (name : String) (n : ℕ) : Reader Client :=
  if n = 0 then pure client
  else if (client.argument name).null then failure
  else do
    let bytes ← Reader.take n
    return client.setArgument name
      { client.argument name with pointee := (client.argument name).pointee.write bytes }

/-- The header that a structure pointer points at. -/
def header (p : Parameter) : List UInt8 :=
  (client.argument p.name).pointee.read (abi.sizeOf p.type.pointee)

/-- `width_expr`. -/
def scalarBytes (p : Parameter) : Option String → ℕ
  | some expression => client.width expression
  | none => abi.sizeOf p.type.pointee

/-- `<name>_width`. -/
def scalarWidth (p mode : Parameter) (width : Option String) : ℕ :=
  if !(client.argument p.name).null && client.scalarOnHost mode.name p.name then
    client.scalarBytes abi p width % 2 ^ 32
  else 0

/-- `<name>_size` of a versioned structure. -/
def versionedSize (p : Parameter) : ℕ :=
  if (client.argument p.name).null then 0
  else abi.member p.type.pointee "size" (client.header abi p) % 2 ^ 64

/-- The condition on a member that some headers lack. -/
def memberDefined (guards : List (String × String)) (member : String) : Bool :=
  match guards.reverse.find? fun entry => entry.1 = member with
  | some entry => client.defined entry.2
  | none => true

/-- `<name>_<member>_len`. -/
def memberLength (p : Parameter) (guards : List (String × String)) (member : String) : ℕ :=
  if client.memberDefined guards member &&
      abi.offsetOf p.type.pointee member + 8 ≤ client.versionedSize abi p &&
      !(client.argument p.name).memberNull member then
    (((client.argument p.name).memberText member).length + 1) % 2 ^ 32
  else 0

/-- The requested counts, as declared: zero if the anchor is null. -/
def declare (ops : List Operation) : Client := { client with
  requested := fun name =>
    match ops.findSome? fun
      | .inOutCount p anchor => if p.name = name then some anchor else none
      | _ => none with
    | some anchor =>
      if (client.argument anchor).null then fun _ => 0 else (client.argument name).pointee
    | none => client.requested name }

end Client

/-! ## Checks -/

section Checks

variable (abi : Abi) (client : Client)

/-- The signed check of `write_client_validation`. -/
def Length.negative (value : Parameter → ℤ) : Length → Bool
  | .bytes _ => false
  | .parameter length => length.type.isInt && value length < 0

/-- The checks of `write_client_validation`. -/
def Operation.validated : Operation → Bool
  | .array _ _ p length optional =>
    !length.negative (client.value abi) &&
      (optional || abi.transferSize p.type.pointee (client.value abi) length = 0 ||
        !(client.argument p.name).null)
  | .nullTerminated true _ p | .dereference _ _ p | .inOutCount p _ =>
    !(client.argument p.name).null
  | _ => true

/-- The checks of `write_cuda_client`: `client_preflight`, and the declarations of deep
structures. -/
def Operation.preflight : Operation → Bool
  | .array true _ p (.parameter length) false =>
    abi.transferSize p.type.pointee (client.value abi) (.parameter length) = 0 ||
      !(client.argument p.name).null
  | .nullTerminated _ true p => !(client.argument p.name).null
  | .deepStruct send _ p members =>
    !(client.argument p.name).null && (!send || members.all fun entry =>
      let count := abi.member p.type.pointee entry.2 (client.header abi p)
      count ≤ sizeMax / abi.memberSize p.type.pointee entry.1 &&
        (count = 0 || !(client.argument p.name).memberNull entry.1))
  | _ => true

end Checks

/-! ## The request -/

section Request

variable (abi : Abi) (lengthWidth : ℕ) (client : Client)

/-- An array that a member of a deep structure points at. -/
def Client.loadMember (p : Parameter) (entry : String × String) : Option (List UInt8) :=
  let bytes := abi.memberBytes p.type.pointee entry (client.header abi p)
  if (client.argument p.name).memberNull entry.1 && bytes ≠ 0 then none
  else some (((client.argument p.name).members entry.1).read bytes)

/-- A string member of a versioned structure. -/
def Client.memberString (p : Parameter) (guards : List (String × String)) (member : String) :
    List UInt8 :=
  encode 4 (client.memberLength abi p guards member) ++
    terminated ((client.argument p.name).memberText member)
      (client.memberLength abi p guards member)

/-- `<name>_len`. `lengthWidth` is the size of the length type. -/
def Client.stringLength (name : String) : ℕ :=
  ((client.argument name).text.length + 1) % 256 ^ lengthWidth

/-- The object that is sent for a parameter passed by value. -/
def Client.sentObject (p : Parameter) : Memory :=
  if p.isFunction then client.functionForRpc (client.argument p.name).object
  else (client.argument p.name).object

/-- `client_rpc_write`. -/
def Operation.clientRpcWrite : Operation → Option (List UInt8)
  | .nullable _ _ p =>
    if (client.argument p.name).null then some (flag false)
    else (client.load p.name (abi.sizeOf (baseType p.type))).map (flag true ++ ·)
  | .array send _ p length optional =>
    if !send then some []
    else
      let bytes := abi.transferSize p.type.pointee (client.value abi) length
      if !optional then client.load p.name bytes
      else if (client.argument p.name).null then some (flag true)
      else (client.load p.name bytes).map (flag false ++ ·)
  | .inOutCount p _ => some ((client.requested p.name).read (abi.sizeOf p.type.pointee))
  | .nullableArray p _ _ => some (flag (client.argument p.name).null)
  | .deepStruct send _ p members =>
    if !send then some []
    else (client.load p.name (abi.sizeOf p.type.pointee)).bind fun header =>
      (members.mapM (client.loadMember abi p)).map fun arrays => header ++ arrays.flatten
  | .nullTerminated send _ p =>
    if !send then some []
    else if (client.argument p.name).null then none
    else some (encode lengthWidth (client.stringLength lengthWidth p.name) ++
      terminated (client.argument p.name).text (client.stringLength lengthWidth p.name))
  | .opaqueType send _ p =>
    if !send then some [] else some ((client.sentObject p).read (abi.sizeOf p.type))
  | .dereference send _ p =>
    if !send then some [] else client.load p.name (abi.sizeOf p.type.pointee)
  | .scalar send _ p mode width =>
    let bytes := client.scalarWidth abi p mode width
    if bytes = 0 then
      some (encode 4 0 ++ (client.argument p.name).object.read (abi.sizeOf p.type))
    else if send then (client.load p.name bytes).map (encode 4 bytes ++ ·)
    else some (encode 4 bytes)
  | .versionedStruct p strings _ guards =>
    (client.load p.name (client.versionedSize abi p)).map fun bytes =>
      encode 8 (client.versionedSize abi p) ++ bytes ++
        strings.flatMap (client.memberString abi p guards)

end Request

/-! ## The response -/

section Response

variable (abi : Abi) (lengthWidth : ℕ)

/-- An array of a received deep structure, into the storage of its node. -/
def Client.readMember (p : Parameter) (client : Client) (entry : String × String) :
    Reader Client :=
  if abi.member p.type.pointee entry.2 (client.header abi p) = 0 then pure client
  else do
    let bytes ← Reader.take (abi.memberBytes p.type.pointee entry (client.header abi p))
    return client.setArgument p.name { client.argument p.name with
      members := Function.update (client.argument p.name).members entry.1 (.store bytes) }

/-- A conditional array. `n` is the count that is transferred. -/
def Client.readConditional (client : Client) (p : Parameter) (on : RecvOn) (n requested : ℤ) :
    Reader Client := do
  let hasData ← Reader.take 1
  if decode hasData = 0 then return client
  else if decode hasData ≠ 1 || (client.argument p.name).null ||
      (on = .success && n > requested) ||
      toSize n > sizeMax / abi.sizeOf p.type.pointee then failure
  else if n = 0 then return client
  else client.rpcRead p.name (abi.arrayBytes p.type.pointee n)

/-- A returned string, of at most one mebibyte. -/
def Client.readString (client : Client) (p : Parameter) : Reader Client := do
  let length ← Reader.take lengthWidth
  if decode length > 2 ^ 20 then failure
  else do
    let text ← Reader.take (decode length)
    return client.setArgument p.name { client.argument p.name with text := text }

/-- `client_rpc_read`. -/
def Operation.clientRpcRead (client : Client) : Operation → Reader Client
  | .nullable _ recv p =>
    if recv && !(client.argument p.name).null then
      client.rpcRead p.name (abi.sizeOf p.type.pointee)
    else return client
  | .array _ recv p length _ =>
    if recv then
      client.rpcRead p.name (abi.transferSize p.type.pointee (client.value abi) length)
    else return client
  | .inOutCount p _ => client.rpcRead p.name (abi.sizeOf p.type.pointee)
  | .nullableArray p count recvOn =>
    let requested := client.requestedCount abi count
    let n := transferCount count recvOn (client.value abi count) requested
    match recvOn with
    | some on => client.readConditional abi p on n requested
    | none =>
      if !(client.argument p.name).null && requested ≠ 0 &&
          (!count.type.isPointer || client.value abi count ≠ 0) then
        client.rpcRead p.name (abi.arrayBytes p.type.pointee n)
      else return client
  | .deepStruct send recv p members =>
    if !recv then return client
    else if send then client.rpcRead p.name (abi.sizeOf p.type.pointee)
    else client.rpcRead p.name (abi.sizeOf p.type.pointee) >>= fun client =>
      members.foldlM (Client.readMember abi p) client
  | .nullTerminated _ recv p =>
    if recv then client.readString lengthWidth p else return client
  | .dereference _ recv p =>
    if recv then client.rpcRead p.name (abi.sizeOf p.type.pointee) else return client
  | .scalar _ recv p mode width =>
    if recv then client.rpcRead p.name (client.scalarWidth abi p mode width) else return client
  | .opaqueType .. | .versionedStruct .. => return client

end Response

end Lupine.Codegen
