import Lupine.Deferred.Release
import Lupine.Deferred.Synchronization
import Lupine.HostMemory.WriteBack
import Lupine.Codegen.LengthOrder
import Lupine.Codegen.Capacity
import Lupine.Http2.Stream
import Lupine.Bulk.PullOutcome
import Lupine.Bulk.Push
import Lupine.Http2.ControlFrames
import Lupine.Rpc.FailedSends
import Lupine.Rpc.AdmissionOutcome
import Lupine.Smemcpy.Hip
import Lupine.Events.Completion
import Lupine.Events.OwedCopies
import Lupine.Routing.Devices
import Lupine.Routing.DisjointOwners
import Lupine.Fatbin.HipBundle
import Lupine.Managed.Advice
import Lupine.Contexts.Stack
import Lupine.Contexts.Primary
import Lupine.Checkpoint.CallGateOutcome
import Lupine.Checkpoint.CaptureGate
import Lupine.Routing.LaneContext
import Lupine.Capture.Answers
import Lupine.Rpc.RequestIds
import Lupine.DeviceProxy.Descriptors
import Lupine.DeviceToHost.Chunks
import Lupine.HostToDevice.Overlay
import Lupine.Ipc.Broker
import Lupine.Transport.Arena
import Lupine.Transport.ArenaClaims
import Lupine.Transport.BulkLanes
import Lupine.Graphs.Lifetimes
import Lupine.HostMemory.DemandFetch
import Lupine.Contexts.PrimaryState
import Lupine.HostMemory.AttributeCache
