import GatewayModel.Net.Theorems.Frames
import GatewayModel.Pool.Theorems.Affinity

open Go Execution Pool Pool.State

-- The packets of a flow are sent on one connection.
namespace Net

variable {checksumIBM : Bytes → UInt16} {pkt p₁ p₂ : Bytes} {s s' s₁ s₂ s₃ : Pool.State}
  {conn : ConnId} {reply : Reply}

structure Plain (pkt : Bytes) : Prop where
  datagram : Datagram pkt
  ihl      : ihl pkt = 5

instance : Decidable (Plain pkt) :=
  decidable_of_iff (Datagram pkt ∧ ihl pkt = 5) ⟨fun ⟨h₁, h₂⟩ => ⟨h₁, h₂⟩, fun h => ⟨h.datagram, h.ihl⟩⟩

end Net
