import GatewayModel.Lib.Go

open Go

-- The parsing of packets in the package `utils`.
namespace Net

abbrev Bytes := List UInt8

inductive PktError
  | ports
  | ips
  | crcIPs
  | crcPorts
  deriving Repr, DecidableEq

def PktError.text : PktError → String
  | .ports    => "Error provided byte slice with lenght lower than 4"
  | .ips      => "Error byte buffer provided smaller than expected!"
  | .crcIPs   => "Error reading IP addresses from packet!"
  | .crcPorts => "Error reading source and target addresses from packet!"

def word (high low : UInt8) : UInt16 :=
  (high.toUInt16 <<< 8) ||| low.toUInt16

def getPortsFromBytes (ptr1 ptr2 ptr3 ptr4 : Nat) (packet : Bytes) :
    Result (UInt16 × UInt16 × Option PktError) :=
  if packet.length < 4 then
    return (0, 0, some .ports)
  else do
    let source := word (← index packet ptr1) (← index packet ptr2)
    let target := word (← index packet ptr3) (← index packet ptr4)
    return (source, target, none)

-- `net.IPv4`, which yields an address of 16 bytes.
def ipv4 (a b c d : UInt8) : Bytes :=
  List.replicate 10 0 ++ [0xff, 0xff, a, b, c, d]

def getIPsFromBytes (ptr1 ptr2 : Nat) (pkt : Bytes) : Result (Bytes × Bytes × Option PktError) :=
  if pkt.length < max (ptr1 + 3) (ptr2 + 3) then
    return ([], [], some .ips)
  else do
    let src := ipv4 (← index pkt ptr1) (← index pkt (ptr1 + 1)) (← index pkt (ptr1 + 2))
      (← index pkt (ptr1 + 3))
    let trg := ipv4 (← index pkt ptr2) (← index pkt (ptr2 + 1)) (← index pkt (ptr2 + 2))
      (← index pkt (ptr2 + 3))
    return (src, trg, none)

def getIPsFromPkt : Bytes → Result (Bytes × Bytes × Option PktError) :=
  getIPsFromBytes 12 16

def getPortsFromPkt : Bytes → Result (UInt16 × UInt16 × Option PktError) :=
  getPortsFromBytes 20 21 22 23

section Crc

-- `crc16.ChecksumIBM`
variable (checksumIBM : Bytes → UInt16)

def flowBytes (srcIP trgIP : Bytes) (src trg : UInt16) : Bytes :=
  (List.replicate 12 0 : Bytes) ++ srcIP ++ trgIP ++ [(src >>> 8).toUInt8, (src &&& 255).toUInt8] ++
    [(trg >>> 8).toUInt8, (trg &&& 255).toUInt8]

def pktCrc16 (buff : Bytes) : Result (UInt16 × Option PktError) := do
  let (srcIP, trgIP, err) ← getIPsFromPkt buff
  if err.isSome then
    return (0, some .crcIPs)
  else
    let (src, trg, err) ← getPortsFromPkt buff
    if err.isSome
    then return (0, some .crcPorts)
    else return (checksumIBM (flowBytes srcIP trgIP src trg), none)

end Crc

def natRule (pkt : Bytes) : Result Bool := do
  let (src, _, err) ← getPortsFromPkt pkt
  if err.isSome
  then return false
  else return src ≠ 53

end Net
