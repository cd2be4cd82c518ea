import GatewayModel.Lib.Channel
import GatewayModel.Nat.Context

open Go Execution

-- The two `setHelper` goroutines that a call of `AssignPorts` starts. Every access to the bits is an
-- atomic step, and the channels on which the helpers send are not buffered.
namespace NatContext.Helpers

-- Where a helper is: at `NextClear`, at the send after it has failed, at the test or the assignment of
-- an index of the loop, or at the last send.
inductive Pc
  | nextClear
  | sendEarly
  | test (idx length i : Nat)
  | set (idx length i : Nat)
  | send
  | done
  deriving Repr, DecidableEq

structure Helper where
  offset : UInt16
  acc    : List UInt16
  pc     : Pc
  deriving Repr, DecidableEq

def Helper.step [Bits β] (h : Helper) (cnt : BitSet β) : Option (Helper × BitSet β) :=
  match h.pc with
  | .nextClear =>
    match cnt.nextClear h.offset.toNat with
    | none     => some ({ h with pc := .sendEarly }, cnt)
    | some idx => some ({ h with pc := .test idx (idx + 100) 0 }, cnt)
  | .test idx length i =>
    if idx < length then
      if cnt.test idx
      then some ({ h with pc := .test (idx + 1) length i }, cnt)
      else some ({ h with pc := .set idx length i }, cnt)
    else
      some ({ h with pc := .send }, cnt)
  | .set idx length i => some ({ h with
      acc := h.acc.set i (UInt16.ofNat idx)
      pc  := .test (idx + 1) length (i + 1)
    }, cnt.set idx)
  | .sendEarly | .send | .done => none

-- The helper's send is received. After the early one it goes on with index 0.
def Helper.received (h : Helper) : Option Helper :=
  match h.pc with
  | .sendEarly => some { h with pc := .test 0 100 0 }
  | .send      => some { h with pc := .done }
  | _          => none

inductive Call.Pc
  | receiveLower
  | receiveUpper
  | append
  deriving Repr, DecidableEq

structure Call (κ : Type u) where
  cntAddr : κ
  lower   : Nat
  upper   : Nat
  pc      : Call.Pc

structure Sys (β : Type) (κ : Type u) where
  cp      : CntPortMapping β κ
  helpers : List Helper
  call    : Option (Call κ)

inductive Op (κ : Type u)
  | assignPorts (cntAddr : κ)
  | helper (n : Nat)
  | proceed
  | releasePorts (cntAddr : κ) (im : Map UInt16 κ)

namespace Sys

def newHelper (offset : UInt16) : Helper where
  offset := offset
  acc    := List.replicate 100 0
  pc     := .nextClear

variable [Bits β] [DecidableEq κ]

def init : Sys β κ where
  cp      := .newCntPortMapping
  helpers := []
  call    := none

variable (s : Sys β κ)

def update (n : Nat) (h : Helper) (b : BitSet β) : Sys β κ :=
  { s with cp := { s.cp with bSet := b }, helpers := s.helpers.set n h }

def accOf (n : Nat) : List UInt16 :=
  (s.helpers[n]?).elim [] (·.acc)

def assignPorts (cntAddr : κ) : Except Halt (Sys β κ) :=
  match s.call with
  | some _ => .error .blocked
  | none   => .ok { s with
      helpers := s.helpers ++ [newHelper 1, newHelper 1025]
      call    := some {
        cntAddr := cntAddr
        lower   := s.helpers.length
        upper   := s.helpers.length + 1
        pc      := .receiveLower
      }
    }

def runHelper (n : Nat) : Except Halt (Sys β κ) :=
  match (s.helpers[n]?).bind (·.step s.cp.bSet) with
  | none        => .error .blocked
  | some (h, b) => .ok (s.update n h b)

def receive (c : Call κ) (n : Nat) (pc : Call.Pc) : Except Halt (Sys β κ) :=
  match (s.helpers[n]?).bind (·.received) with
  | none   => .error .blocked
  | some h => .ok { s with helpers := s.helpers.set n h, call := some { c with pc := pc } }

-- The next step of `AssignPorts`. `append` copies what the slices of both helpers contain by then.
def proceed : Except Halt (Sys β κ × Option (List UInt16)) :=
  match s.call with
  | none   => .error .blocked
  | some c =>
    match c.pc with
    | .receiveLower => (s.receive c c.lower .receiveUpper).map (·, none)
    | .receiveUpper => (s.receive c c.upper .append).map (·, none)
    | .append       =>
      let res := s.accOf c.lower ++ s.accOf c.upper
      .ok ({ s with cp := { s.cp with am := s.cp.am.set c.cntAddr res }, call := none }, some res)

def releasePorts (cntAddr : κ) (im : Map UInt16 κ) : Except Halt (Sys β κ) :=
  match s.call with
  | some _ => .error .blocked
  | none   => .ok { s with cp := s.cp.releasePorts cntAddr im }

def step : Op κ → Except Halt (Sys β κ × Option (List UInt16))
  | .assignPorts cntAddr     => (s.assignPorts cntAddr).map (·, none)
  | .helper n                => (s.runHelper n).map (·, none)
  | .proceed                 => s.proceed
  | .releasePorts cntAddr im => (s.releasePorts cntAddr im).map (·, none)

end Sys
end NatContext.Helpers
