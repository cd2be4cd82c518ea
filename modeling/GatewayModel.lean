import GatewayModel.Lib.BitSet
import GatewayModel.Lib.Go
import GatewayModel.Lib.Channel
import GatewayModel.Lib.CircularList
import GatewayModel.Lib.Crc16
import GatewayModel.Lib.Execution
import GatewayModel.Lib.Json
import GatewayModel.Lib.Keys
import GatewayModel.Lib.Locks
import GatewayModel.Lib.Regexp
import GatewayModel.Lib.RoundRobin
import GatewayModel.Lib.Slice
import GatewayModel.Lib.Table
import GatewayModel.Pool.State
import GatewayModel.Pool.Operations
import GatewayModel.Pool.Execution
import GatewayModel.Pool.Theorems.Operations
import GatewayModel.Pool.Theorems.Represents
import GatewayModel.Pool.Theorems.Ring
import GatewayModel.Pool.Theorems.Flows
import GatewayModel.Pool.Theorems.Accounting
import GatewayModel.Pool.Theorems.Safety
import GatewayModel.Pool.Theorems.Affinity
import GatewayModel.Pool.Theorems.Balance
import GatewayModel.Pool.Theorems.Routing
import GatewayModel.Pool.Theorems.Coherence
import GatewayModel.Pool.Theorems.Deletion
import GatewayModel.Pool.Theorems.Migration
import GatewayModel.Pool.Theorems.Size
import GatewayModel.Pool.Concurrent.Get
import GatewayModel.Pool.Concurrent.Threads
import GatewayModel.Pool.Concurrent.Ageing
import GatewayModel.Pool.Concurrent.Watching
import GatewayModel.Pool.Concurrent.Counting
import GatewayModel.Pool.Concurrent.Delete
import GatewayModel.Pool.Concurrent.Linked
import GatewayModel.Pool.Concurrent.Handover
import GatewayModel.Pool.Concurrent.Programs
import GatewayModel.Pool.Concurrent.Locks
import GatewayModel.Pool.Concurrent.Spared
import GatewayModel.Pool.Concurrent.Panics
import GatewayModel.Pool.Concurrent.Semaphores
import GatewayModel.Pool.Concurrent.Serial
import GatewayModel.Pool.Concurrent.Tended
import GatewayModel.Nat.Context
import GatewayModel.Nat.Couples
import GatewayModel.Nat.Helpers
import GatewayModel.Nat.PortMapping
import GatewayModel.Nat.Theorems.Couples
import GatewayModel.Nat.Theorems.Leases
import GatewayModel.Nat.Theorems.Helpers
import GatewayModel.Nat.Theorems.Sequential
import GatewayModel.Nat.Theorems.Exhaustion
import GatewayModel.Nat.Theorems.Interleaving
import GatewayModel.Nat.Theorems.PortMapping
import GatewayModel.Nat.Theorems.RoundTrip
import GatewayModel.Nat.Theorems.Timers
import GatewayModel.Cnt.ContainerList
import GatewayModel.Cnt.Registry
import GatewayModel.Cnt.Provisioner
import GatewayModel.Cnt.Creation
import GatewayModel.Cnt.Lifecycle
import GatewayModel.Cnt.Parameters
import GatewayModel.Cnt.Registration
import GatewayModel.Cnt.Theorems.ContainerList
import GatewayModel.Cnt.Theorems.Steps
import GatewayModel.Cnt.Theorems.Creation
import GatewayModel.Cnt.Theorems.Registry
import GatewayModel.Cnt.Theorems.Scaling
import GatewayModel.Cnt.Theorems.Minimum
import GatewayModel.Cnt.Theorems.Size
import GatewayModel.Cnt.Theorems.Deadlock
import GatewayModel.Cnt.Theorems.Lifecycle
import GatewayModel.Cnt.Theorems.Requests
import GatewayModel.Cnt.Theorems.Listing
import GatewayModel.Cnt.Theorems.Parameters
import GatewayModel.Cnt.Theorems.Registration
import GatewayModel.Cnt.Theorems.Replicas
import GatewayModel.Cnt.Theorems.Selection
import GatewayModel.Net.Packet
import GatewayModel.Net.Gateway
import GatewayModel.Net.Theorems.FlowKey
import GatewayModel.Net.Theorems.Frames
import GatewayModel.Net.Theorems.Affinity
import GatewayModel.Net.Theorems.Collisions
import GatewayModel.Buf.BuffersPool
import GatewayModel.Buf.Theorems.BuffersPool
