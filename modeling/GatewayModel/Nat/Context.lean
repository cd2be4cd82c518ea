import GatewayModel.Lib.Go
import GatewayModel.Lib.BitSet
import GatewayModel.Lib.Execution

open Go Execution

namespace NatContext

-- The ports leased to containers. A container is identified by a pointer of type `κ`.
structure CntPortMapping (β : Type) (κ : Type u) where
  bSet : BitSet β
  am   : Map κ (List UInt16)

structure Scan (β : Type) where
  cnt : BitSet β
  acc : List UInt16
  i   : Nat

inductive Half
  | lower
  | upper
  deriving Repr, DecidableEq

namespace Half

def offset : Half → UInt16
  | lower => 1
  | upper => 1025

def other : Half → Half
  | lower => upper
  | upper => lower

def join (acc acc' : List UInt16) : Half → List UInt16
  | lower => acc ++ acc'
  | upper => acc' ++ acc

end Half

variable [Bits β]

-- One round of the loop: a used index is skipped. The conversion drops all but the low 16 bits.
def Scan.visit (s : Scan β) (idx : Nat) : Scan β :=
  if s.cnt.test idx
  then s
  else { cnt := s.cnt.set idx, acc := s.acc.set s.i (UInt16.ofNat idx), i := s.i + 1 }

-- Without a clear index `NextClear` yields index 0. The helper sends `acc`, but it does not return:
-- it goes on with the loop, and as `acc` shares its array with the slice that was sent, what it
-- writes there is seen by the receiver.
def setHelper (offset : UInt16) (acc : List UInt16) (cnt : BitSet β) : List UInt16 × BitSet β :=
  let idx := (cnt.nextClear offset.toNat).getD 0
  let s   := (List.range' idx 100).foldl Scan.visit { cnt := cnt, acc := acc, i := 0 }
  (s.acc, s.cnt)

-- The helper that ends first if `half` is scheduled first. The upper helper cannot be that one without
-- a clear index, as `AssignPorts` receives its early send after the one of the lower helper.
def Half.first (half : Half) (bSet : BitSet β) : Half :=
  if (bSet.nextClear half.offset.toNat).isSome then half else lower

def releaseHelper (port : List UInt16) (checkMap : Map UInt16 κ) (counter : BitSet β) : BitSet β :=
  port.foldl (fun c p => if (checkMap p).isSome then c else c.clear p.toNat) counter

namespace CntPortMapping

variable [DecidableEq κ]

def newCntPortMapping : CntPortMapping β κ where
  bSet := .new 65536
  am   := .empty

def assignPorts (cp : CntPortMapping β κ) (half : Half) (cntAddr : κ) :
    CntPortMapping β κ × List UInt16 :=
  let first := half.first cp.bSet
  let (acc, bSet)  := setHelper first.offset (List.replicate 100 0) cp.bSet
  let (acc', bSet) := setHelper first.other.offset (List.replicate 100 0) bSet
  let res := first.join acc acc'
  ({ bSet := bSet, am := cp.am.set cntAddr res }, res)

-- `im` is the map of the `PortCntMapping`. The entry of `am` is kept.
def releasePorts (cp : CntPortMapping β κ) (cntAddr : κ) (im : Map UInt16 κ) : CntPortMapping β κ :=
  match cp.am cntAddr with
  | none      => cp
  | some buff => { cp with bSet := releaseHelper buff im cp.bSet }

end CntPortMapping

-- The mapping, and the ports that each container holds: those its last `AssignPorts` returned,
-- without the ones that later calls of `ReleasePorts` for it did not find in `im`.
structure State (β : Type) (κ : Type u) where
  cp      : CntPortMapping β κ
  holding : κ → List UInt16

inductive Op (κ : Type u)
  | assignPorts (half : Half) (cntAddr : κ)
  | releasePorts (cntAddr : κ) (im : Map UInt16 κ)

namespace State

variable [DecidableEq κ]

def init : State β κ where
  cp      := .newCntPortMapping
  holding := fun _ => []

def assignPorts (s : State β κ) (half : Half) (cntAddr : κ) : State β κ where
  cp      := (s.cp.assignPorts half cntAddr).1
  holding := Function.update s.holding cntAddr (s.cp.assignPorts half cntAddr).2

def releasePorts (s : State β κ) (cntAddr : κ) (im : Map UInt16 κ) : State β κ where
  cp      := s.cp.releasePorts cntAddr im
  holding := Function.update s.holding cntAddr
    ((s.holding cntAddr).filter fun p => (im p).isSome)

end State

def step [DecidableEq κ] (s : State β κ) : Op κ → Result (State β κ × List UInt16)
  | .assignPorts half cntAddr => .ok (s.assignPorts half cntAddr, (s.cp.assignPorts half cntAddr).2)
  | .releasePorts cntAddr im  => .ok (s.releasePorts cntAddr im, [])

end NatContext
