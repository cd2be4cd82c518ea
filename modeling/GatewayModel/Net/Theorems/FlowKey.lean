import GatewayModel.Lib.Crc16
import GatewayModel.Net.Packet

open Go

namespace Net

variable {checksumIBM : Bytes → UInt16} {pkt p₁ p₂ : Bytes}

def octet (pkt : Bytes) (i : Nat) : UInt8 :=
  pkt.getD i 0

section Parsers

theorem index_octet (h : i < pkt.length) : index pkt i = .ok (octet pkt i) :=
  index_of_lt h

theorem getPortsFromPkt_of_le (h : 24 ≤ pkt.length) :
    getPortsFromPkt pkt =
      .ok (word (octet pkt 20) (octet pkt 21), word (octet pkt 22) (octet pkt 23), none) := by
  have hn : ¬ pkt.length < 4 := by omega
  rw [getPortsFromPkt, getPortsFromBytes, if_neg hn, index_octet (by omega), index_octet (by omega),
    index_octet (by omega), index_octet (by omega)]
  rfl

def address (pkt : Bytes) (i : Nat) : Bytes :=
  ipv4 (octet pkt i) (octet pkt (i + 1)) (octet pkt (i + 2)) (octet pkt (i + 3))

theorem getIPsFromPkt_of_le (h : 20 ≤ pkt.length) :
    getIPsFromPkt pkt = .ok (address pkt 12, address pkt 16, none) := by
  have hn : ¬ pkt.length < max (12 + 3) (16 + 3) := by omega
  rw [getIPsFromPkt, getIPsFromBytes, if_neg hn, index_octet (by omega), index_octet (by omega),
    index_octet (by omega), index_octet (by omega), index_octet (by omega), index_octet (by omega),
    index_octet (by omega), index_octet (by omega)]
  rfl

theorem pktCrc16_of_le (h : 24 ≤ pkt.length) :
    pktCrc16 checksumIBM pkt = .ok (checksumIBM (flowBytes (address pkt 12) (address pkt 16)
      (word (octet pkt 20) (octet pkt 21)) (word (octet pkt 22) (octet pkt 23))), none) := by
  rw [pktCrc16, getIPsFromPkt_of_le (by omega), getPortsFromPkt_of_le h]
  rfl

theorem natRule_of_le (h : 24 ≤ pkt.length) :
    natRule pkt = .ok (decide (word (octet pkt 20) (octet pkt 21) ≠ 53)) := by
  rw [natRule, getPortsFromPkt_of_le h]
  rfl

end Parsers

section Flow

def ihl (pkt : Bytes) : Nat :=
  (octet pkt 0).toNat % 16

-- An IPv4 packet that holds a whole UDP datagram.
structure Datagram (pkt : Bytes) : Prop where
  version      : (octet pkt 0).toNat / 16 = 4
  ihl          : 5 ≤ ihl pkt
  length       : 4 * Net.ihl pkt + 8 ≤ pkt.length
  unfragmented : octet pkt 6 &&& 0x3f = 0 ∧ octet pkt 7 = 0
  protocol     : octet pkt 9 = 17

instance : Decidable (Datagram pkt) :=
  decidable_of_iff ((octet pkt 0).toNat / 16 = 4 ∧ 5 ≤ ihl pkt ∧ 4 * ihl pkt + 8 ≤ pkt.length ∧
      (octet pkt 6 &&& 0x3f = 0 ∧ octet pkt 7 = 0) ∧ octet pkt 9 = 17)
    ⟨fun ⟨h₁, h₂, h₃, h₄, h₅⟩ => ⟨h₁, h₂, h₃, h₄, h₅⟩,
      fun d => ⟨d.version, d.ihl, d.length, d.unfragmented, d.protocol⟩⟩

-- The UDP header comes after the options, whose length depends on the packet.
def sourcePort (pkt : Bytes) : UInt16 :=
  word (octet pkt (4 * ihl pkt)) (octet pkt (4 * ihl pkt + 1))

def targetPort (pkt : Bytes) : UInt16 :=
  word (octet pkt (4 * ihl pkt + 2)) (octet pkt (4 * ihl pkt + 3))

def flow (pkt : Bytes) : Bytes × Bytes × UInt16 × UInt16 :=
  (address pkt 12, address pkt 16, sourcePort pkt, targetPort pkt)

def flowCode (checksumIBM : Bytes → UInt16) (pkt : Bytes) : UInt16 :=
  let (srcIP, trgIP, src, trg) := flow pkt
  checksumIBM (flowBytes srcIP trgIP src trg)

theorem pktCrc16_of_datagram (d : Datagram pkt) (h : ihl pkt = 5) :
    pktCrc16 checksumIBM pkt = .ok (flowCode checksumIBM pkt, none) := by
  have hl := d.length
  rw [pktCrc16_of_le (by omega), flowCode, flow, sourcePort, targetPort, h]

theorem natRule_of_datagram (d : Datagram pkt) (h : ihl pkt = 5) :
    natRule pkt = .ok (decide (sourcePort pkt ≠ 53)) := by
  have hl := d.length
  rw [natRule_of_le (by omega), sourcePort, h]

def exampleDatagram (ihl id ttl : UInt8) (options : Bytes) (sourcePort : UInt8 × UInt8)
    (payload : Bytes) : Bytes :=
  [0x40 + ihl, 0, 0, 0, 0, id, 0x40, 0, ttl, 17, 0, 0, 10, 0, 0, 1, 10, 0, 0, 2] ++ options ++
    [sourcePort.1, sourcePort.2, 0, 80, 0, 0, 0, 0] ++ payload

def exampleOptions (n : Nat) : Bytes :=
  exampleDatagram (.ofNat n) 1 64 (List.replicate (4 * (n - 5)) 0) (0, 53) []

theorem exampleOptions_spec : ∀ n ∈ List.range' 5 11,
    Datagram (exampleOptions n) ∧ ihl (exampleOptions n) = n ∧
    flow (exampleOptions n) = flow (exampleOptions 5) ∧ sourcePort (exampleOptions n) = 53 ∧
    natRule (exampleOptions n) = .ok (decide (n ≠ 5)) := by
  decide +kernel

-- Two datagrams of one flow have the same code, and the rule of the NAT only rejects the source port
-- 53, if they have no options. For any other two lengths of the header, some datagrams do not.
theorem code_of_flow (h₁ : 5 ≤ n₁ ∧ n₁ ≤ 15) (h₂ : 5 ≤ n₂ ∧ n₂ ≤ 15) :
    (∀ p₁ p₂, Datagram p₁ → Datagram p₂ → (ihl p₁ = n₁) → (ihl p₂ = n₂) → (flow p₁ = flow p₂) →
      (∃ code, pktCrc16 checksumIBM p₁ = .ok (code, none) ∧
        pktCrc16 checksumIBM p₂ = .ok (code, none)) ∧
      natRule p₁ = .ok (decide (sourcePort p₁ ≠ 53)) ∧
      natRule p₂ = .ok (decide (sourcePort p₂ ≠ 53))) ↔
    n₁ = 5 ∧ n₂ = 5 := by
  constructor
  case mp =>
    -- Where the code looks for the port 53, it finds the options.
    intro h
    obtain ⟨d₁, hi₁, hf₁, hp₁, hn₁⟩ := exampleOptions_spec n₁ (List.mem_range'_1.mpr (by omega))
    obtain ⟨d₂, hi₂, hf₂, hp₂, hn₂⟩ := exampleOptions_spec n₂ (List.mem_range'_1.mpr (by omega))
    obtain ⟨_, hr₁, hr₂⟩ := h _ _ d₁ d₂ hi₁ hi₂ (hf₁.trans hf₂.symm)
    rw [hp₁, hn₁] at hr₁
    rw [hp₂, hn₂] at hr₂
    simpa using And.intro hr₁ hr₂
  case mpr =>
    rintro ⟨rfl, rfl⟩ p₁ p₂ d₁ d₂ hi₁ hi₂ hf
    refine ⟨⟨_, pktCrc16_of_datagram d₁ hi₁, ?_⟩, natRule_of_datagram d₁ hi₁, natRule_of_datagram d₂ hi₂⟩
    rw [pktCrc16_of_datagram d₂ hi₂, flowCode, flowCode, hf]

theorem code_of_flow_two_packets :
    let p₁ := exampleDatagram 5 1 64 [] (19, 136) [7]
    let p₂ := exampleDatagram 5 2 63 [] (19, 136) [8, 9]
    (Datagram p₁ ∧ Datagram p₂ ∧ ihl p₁ = 5 ∧ ihl p₂ = 5 ∧ flow p₁ = flow p₂) ∧
    (∃ code, pktCrc16 Crc16.ibm.checksum p₁ = .ok (code, none) ∧
      pktCrc16 Crc16.ibm.checksum p₂ = .ok (code, none)) ∧
    natRule p₁ = .ok (decide (sourcePort p₁ ≠ 53)) ∧
    natRule p₂ = .ok (decide (sourcePort p₂ ≠ 53)) := by
  intro p₁ p₂
  have ⟨d₁, d₂, h₁, h₂, hf⟩ : Datagram p₁ ∧ Datagram p₂ ∧ ihl p₁ = 5 ∧ ihl p₂ = 5 ∧
      flow p₁ = flow p₂ := by decide
  have hb : 5 ≤ 5 ∧ 5 ≤ 15 := by decide
  exact ⟨⟨d₁, d₂, h₁, h₂, hf⟩, (code_of_flow hb hb).mpr ⟨rfl, rfl⟩ p₁ p₂ d₁ d₂ h₁ h₂ hf⟩

-- Two packets of a flow with different options have different codes. A packet with options is
-- accepted from the source port 53, and another one is rejected from the source port 5000.
theorem code_of_options :
    let p₁ := exampleDatagram 6 1 64 [1, 1, 1, 1] (19, 136) []
    let p₂ := exampleDatagram 6 1 64 [1, 1, 1, 0] (19, 136) []
    let p₃ := exampleDatagram 6 1 64 [1, 1, 1, 1] (0, 53) []
    let p₄ := exampleDatagram 6 1 64 [0, 53, 0, 0] (19, 136) []
    (Datagram p₁ ∧ Datagram p₂ ∧ flow p₁ = flow p₂ ∧
      ∃ c₁ c₂, pktCrc16 Crc16.ibm.checksum p₁ = .ok (c₁, none) ∧
        pktCrc16 Crc16.ibm.checksum p₂ = .ok (c₂, none) ∧ c₁ ≠ c₂) ∧
    (Datagram p₃ ∧ sourcePort p₃ = 53 ∧ natRule p₃ = .ok true) ∧
    (Datagram p₄ ∧ sourcePort p₄ = 5000 ∧ natRule p₄ = .ok false) := by
  intro p₁ p₂ p₃ p₄
  refine ⟨⟨by decide, by decide, by decide, _, _, rfl, rfl, by decide +kernel⟩, ?_, ?_⟩
  case refine_1 => exact ⟨by decide, by decide, rfl⟩
  case refine_2 => exact ⟨by decide, by decide, rfl⟩

end Flow
end Net
