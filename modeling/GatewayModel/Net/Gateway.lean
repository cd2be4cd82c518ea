import GatewayModel.Net.Packet
import GatewayModel.Pool.Operations

open Go Pool

namespace Net

abbrev RuleMap := List ((Bytes → Result Bool) × Pool.State)

def initRuleMap (natCrc2ConnMap : Pool.State) : RuleMap :=
  [(natRule, natCrc2ConnMap)]

-- The `fluxMaxAge` with which `InitRuleMap` creates the flow table of the NAT.
def natFluxMaxAge : Int :=
  500 * 1000

inductive Outcome
  | dropped
  | dispatched (conn : ConnId) (pkt : Bytes)
  deriving Repr, DecidableEq

section Dispatch

variable (checksumIBM : Bytes → UInt16)

-- The error of `PktCrc16` is discarded.
def getChan : RuleMap → Bytes → Result (RuleMap × Option ConnId × Option SemId)
  | [], _ => return ([], none, none)
  | (rule, crc2Conn) :: rm, pkt => do
    if ← rule pkt then
      let (code, _) ← pktCrc16 checksumIBM pkt
      let (crc2Conn, reply) ← crc2Conn.get code
      return ((rule, crc2Conn) :: rm, reply.conn, reply.lock)
    else
      let (rm, conn, lock) ← getChan rm pkt
      return ((rule, crc2Conn) :: rm, conn, lock)

-- Acquiring a nil semaphore dereferences it. An error of `SendToContainer3` is only logged.
def handleIncomingRequestsFromIPv4 (pktBuff : Bytes) (ruleMap : RuleMap) :
    Result (RuleMap × Outcome) := do
  let (ruleMap, outChan, lock) ← getChan checksumIBM ruleMap pktBuff
  match outChan with
  | none => return (ruleMap, .dropped)
  | some conn =>
    let _ ← deref lock
    return (ruleMap, .dispatched conn pktBuff)

end Dispatch

-- A raw socket stores a frame in the buffer, as far as there is room for it. The result has the
-- number of bytes that were stored.
def readFrom (buff frame : Bytes) : Bytes × Nat :=
  (frame.take buff.length ++ buff.drop frame.length, min frame.length buff.length)

-- `Frame.UnmarshalBinary` for frames with an untagged header. The result is the payload.
def unmarshalBinary (b : Bytes) : Option Bytes :=
  if b.length < 14
  then none
  else some (b.drop 14)

-- How a round of the loop of `readFromNetworkInterface` ends: the program exits, the frame is ignored,
-- or a goroutine is started that handles a packet.
inductive Round
  | fatal
  | ignored
  | started (pktBuff : Bytes)
  deriving Repr, DecidableEq

-- One round of the loop. `buff` has as many bytes as the interface's MTU says.
def readFromNetworkInterface (buff frame : Bytes) : Result (Bytes × Round) := do
  let (buff, size) := readFrom buff frame
  match unmarshalBinary (buff.take size) with
  | none        => return (buff, .fatal)
  | some ipBuff =>
    match ← index ipBuff 9 with
    | 17 =>
      if (← index buff 23) = 67
      then return (buff, .started buff)
      else return (buff, .started ipBuff)
    | _  => return (buff, .ignored)

end Net
