import Lupine.Codegen.Server

/-!
# Generated calls

A call as `write_cuda_client`, `write_client_rpc` and `write_server_handler` put it together: the
ticket of an asynchronous request and the operations; then what a synchronizing call brings back,
the operations again, and the return value.
-/

namespace Lupine.Codegen

open Foundations

/-! ## What a synchronization brings back -/

/-- `lupine_host_rows`: where a copy goes. It fits in memory. -/
structure HostRows where
  dst : ℕ
  width : ℕ
  height : ℕ
  pitch : ℕ
  depth : ℕ
  slice : ℕ
  fields_lt : ∀ n ∈ [dst, width, height, pitch, depth, slice], n < 256 ^ 8
  bytes_lt : width * height * depth < 2 ^ 64

/-- A deferred copy and its bytes. -/
structure Delivery where
  rows : HostRows
  data : Memory

/-- The deferred copies and the captured output of a call. -/
structure Effects where
  pending : List Delivery
  pending_lt : pending.length < 256 ^ 4
  output : List UInt8
  output_lt : output.length < 256 ^ 8

/-- `lupine_write_dtoh_rows`. -/
def Delivery.write (delivery : Delivery) : List UInt8 :=
  let rows := delivery.rows
  encode 8 rows.dst ++ (encode 8 rows.width ++ (encode 8 rows.height ++ (encode 8 rows.pitch ++
    (encode 8 rows.depth ++ (encode 8 rows.slice ++
      delivery.data.read (rows.width * rows.height * rows.depth))))))

/-- `lupine_write_pending_dtoh_copies`. -/
def writePending (pending : List Delivery) : List UInt8 :=
  encode 4 pending.length ++ pending.flatMap Delivery.write

/-- `lupine_write_captured_stdout`. -/
def writeStdout (output : List UInt8) : List UInt8 := encode 8 output.length ++ output

/-- The bytes of a copy: at once if it is contiguous, else row by row. -/
def readRows (width height pitch depth slice : ℕ) : Reader Unit :=
  if width = 0 || height = 0 || depth = 0 then return ()
  else if (height = 1 && depth = 1) || (depth = 1 && pitch = width) ||
      (pitch = width && slice = height * pitch) then
    Reader.take (width * height * depth) >>= fun _ => return ()
  else
    (List.range (height * depth)).foldlM (fun _ _ => Reader.take width >>= fun _ => return ()) ()

/-- `lupine_read_deferred_rows`. -/
def readDeferredRows : Reader Unit := do
  let _ ← Reader.take 8
  let width ← Reader.take 8
  let height ← Reader.take 8
  let pitch ← Reader.take 8
  let depth ← Reader.take 8
  let slice ← Reader.take 8
  readRows (decode width) (decode height) (decode pitch) (decode depth) (decode slice)

def readCopies : ℕ → Reader Unit
  | 0 => return ()
  | n + 1 => readDeferredRows >>= fun _ => readCopies n

/-- `lupine_read_deferred_dtoh_copies`. -/
def readPending : Reader Unit := Reader.take 4 >>= fun count => readCopies (decode count)

/-- `lupine_read_captured_stdout`. -/
def readStdout : Reader Unit :=
  Reader.take 8 >>= fun size => Reader.take (decode size) >>= fun _ => return ()

/-! ## Calls -/

/-- `SynchronizeAnnotation`. -/
structure Synchronize where
  deferredDtoh : Bool
  stdout : Bool

/-- An annotated function. -/
structure Prototype where
  ops : List Operation
  /-- The return type, unless it is void. -/
  result : Option CType
  async : Bool
  synchronize : Option Synchronize

/-- What the generators know of a library. -/
structure Backend where
  cuda : Bool
  /-- The size of the type of string lengths. -/
  lengthWidth : ℕ
  success : ℤ
  invalidResult : Memory

namespace Prototype

variable (abi : Abi) (backend : Backend) (f : Prototype)

/-- The request. The ticket of an asynchronous call leads. -/
def clientRequest (client : Client) (sequence : ℕ) : Option (List UInt8) :=
  (f.ops.mapM (Operation.clientRpcWrite abi backend.lengthWidth (client.declare f.ops))).map
    fun fields => (if f.async then encode 8 sequence else []) ++ fields.flatten

def serverStep (server : Server) (op : Operation) : Reader Server :=
  if op.serverRefuses abi server then failure
  else op.serverRpcRead abi backend.lengthWidth server

/-- The handler reads the arguments. -/
def serverRequest (server : Server) : Reader Server :=
  (if f.async then Reader.take 8 else pure []) >>= fun _ =>
    f.ops.foldlM (serverStep abi backend) (server.declare f.ops)

/-- `return_value == success`. -/
def succeeds (value : Memory) : Bool :=
  match f.result with
  | some type => abi.value type value = backend.success
  | none => false

/-- The return value. A count beyond the capacity makes a success invalid. -/
def returnValue (server : Server) (value : Memory) : Memory :=
  if f.succeeds abi backend value && f.ops.any (Operation.invalidCount abi server) then
    backend.invalidResult
  else value

/-- The server sends the output of a call only along with its copies. -/
def serverEffects (effects : Effects) : List UInt8 :=
  match f.synchronize with
  | some s =>
    if s.deferredDtoh then
      writePending effects.pending ++ if s.stdout then writeStdout effects.output else []
    else []
  | none => []

/-- The handler answers. -/
def serverResponse (server : Server) (value : Memory) (effects : Effects) : List UInt8 :=
  let value := f.returnValue abi backend server value
  f.serverEffects effects ++
    (f.ops.flatMap (Operation.serverRpcWrite abi backend.lengthWidth server
      (f.succeeds abi backend value)) ++
    match f.result with
    | some type => value.read (abi.sizeOf type)
    | none => [])

/-- Only the CUDA client reads what a synchronization brings back. -/
def clientEffects : Reader Unit :=
  match f.synchronize with
  | some s =>
    (if backend.cuda && s.deferredDtoh then readPending else pure ()) >>= fun _ =>
      if backend.cuda && s.stdout then readStdout else pure ()
  | none => pure ()

/-- The response, with the return value. -/
def clientResponse (client : Client) : Reader (Client × List UInt8) :=
  f.clientEffects backend >>= fun _ =>
    f.ops.foldlM (Operation.clientRpcRead abi backend.lengthWidth) (client.declare f.ops) >>=
      fun client =>
        match f.result with
        | some type => Reader.take (abi.sizeOf type) >>= fun value => return (client, value)
        | none => return (client, [])

end Prototype

end Lupine.Codegen
