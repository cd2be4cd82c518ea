import GatewayModel.Cnt.Lifecycle

open Go Execution Pool

-- The registration of containers in `cnt/handler.go`, for all actions.
namespace Cnt

-- Go strings are sequences of bytes.
abbrev Str := List UInt8

-- `trimActionName`. Ranging over a string produces the rune 0 for the zero bytes only.
def trimActionName (actionName : Str) : Str :=
  actionName.takeWhile (· ≠ 0)

-- What `nflib.GetMsgFromBytes` decodes.
structure Msg where
  addr  : UInt32
  port  : UInt16
  cntId : UInt16
  repl  : Bool
  name  : Str
  deriving Repr, DecidableEq

-- The fields `cntPool` and `cntLst` are in `lifecycle`, together with the goroutines that wait for
-- the end of a container's lifetime. These look up `cil[actionName]` again, which is the entry that
-- they have been started for, as no entry is ever replaced.
structure ContainerInfo where
  lifecycle : Lifecycle
  maxFluxes : Int8

structure ConnElemProvisioner where
  c2e : Table UInt16 ElemId
  c2l : Map UInt16 Str

namespace ConnElemProvisioner

def empty : ConnElemProvisioner where
  c2e := .empty
  c2l := .empty

def addConnElem (cep : ConnElemProvisioner) (cntId : UInt16) (ce : ElemId) (cl : Str) :
    ConnElemProvisioner where
  c2e := cep.c2e.set cntId ce
  c2l := cep.c2l.set cntId cl

end ConnElemProvisioner

structure Actions where
  cil : Map Str ContainerInfo
  a2c : Map Str ConnElemProvisioner

namespace Actions

def nat : Str :=
  [0x6e, 0x61, 0x74]

def initRuleMap : Actions where
  cil := Map.empty.set nat { lifecycle := .init 500000, maxFluxes := 10 }
  a2c := Map.empty.set nat .empty

variable (g : Actions)

-- `addEntryToChan`. The connection is what `UDPConnFactory` returns for the address and the port of
-- the container, and is nil if they cannot be dialled.
def addEntryToChan (tMsg : Msg) (conn : Option ConnId) : Result Actions := do
  let actionName := trimActionName tMsg.name
  let info ← deref (g.cil actionName)
  let connPoolElem := info.lifecycle.registry.pool.elems.size
  let (lifecycle, _) ← info.lifecycle.register conn (some tMsg.addr) tMsg.cntId tMsg.repl
    info.maxFluxes
  let cep ← deref (g.a2c actionName)
  return {
    cil := g.cil.set actionName { info with lifecycle := lifecycle }
    a2c := g.a2c.set actionName (cep.addConnElem tMsg.cntId connPoolElem actionName)
  }

inductive ActionOp
  | expire (i : Nat)
  | stop (i : Nat)
  | scaleDown (connElem : ElemId)
  | traffic (op : Sys.TrafficOp)
  deriving Repr, DecidableEq

def ActionOp.toOp : ActionOp → Lifecycle.Op
  | .expire i           => .expire i
  | .stop i             => .stop i
  | .scaleDown connElem => .scaleDown connElem
  | .traffic op         => .traffic op

inductive Op
  | addEntryToChan (tMsg : Msg) (conn : Option ConnId)
  | action (name : Str) (op : ActionOp)
  | forget (name : Str) (cntId : UInt16)
  deriving Repr, DecidableEq

def action (name : Str) (op : ActionOp) : Result Actions :=
  match g.cil name with
  | none      => .ok g
  | some info => do
    let (lifecycle, _) ← info.lifecycle.step op.toOp
    return { g with cil := g.cil.set name { info with lifecycle := lifecycle } }

def forget (name : Str) (cntId : UInt16) : Actions :=
  match g.a2c name with
  | none     => g
  | some cep => { g with a2c := g.a2c.set name { cep with c2e := cep.c2e.delete cntId } }

def step : Op → Result (Actions × Unit)
  | .addEntryToChan tMsg conn => do
    let g ← g.addEntryToChan tMsg conn
    return (g, ())
  | .action name op => do
    let g ← g.action name op
    return (g, ())
  | .forget name cntId => return (g.forget name cntId, ())

end Actions
end Cnt
