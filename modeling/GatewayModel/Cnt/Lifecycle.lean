import GatewayModel.Cnt.Provisioner

open Go Execution Pool

namespace Pool.State

def upToTail (s : State) : Nat → Option ElemId → List ElemId
  | 0, _          => []
  | _ + 1, none   => []
  | n + 1, some e => e :: if s.tailElem = some e then [] else s.upToTail n (s.nextOf e)

def headToTail (s : State) : List ElemId :=
  s.upToTail s.elems.size s.headElem

end Pool.State

namespace Cnt

-- The registration, the expiry and the removal of containers, each taken as one atomic step. The
-- goroutines of `addEntryToChan` that wait for the end of a container's lifetime are `timers`.
structure Lifecycle where
  registry : Registry
  timers   : List (ElemId × ContainerId)

namespace Lifecycle

inductive Op
  | register (conn : Option ConnId) (addr : Option UInt32) (id : UInt16) (repl : Bool)
    (maxFluxes : Int8)
  | expire (i : Nat)
  | stop (i : Nat)
  | scaleDown (connElem : ElemId)
  | traffic (op : Sys.TrafficOp)
  deriving Repr, DecidableEq

def init (fluxMaxAge : Int) : Lifecycle where
  registry := .init fluxMaxAge
  timers   := []

-- `addEntryToChan`.
def register (l : Lifecycle) (conn : Option ConnId) (addr : Option UInt32) (id : UInt16)
    (repl : Bool) (maxFluxes : Int8) : Result (Lifecycle × Trace) := do
  let connElem := l.registry.pool.elems.size
  let cnt      := l.registry.pool.containers.size
  let (g, tr) ← l.registry.step (.pool (.add conn addr id repl maxFluxes))
  return ({ registry := g, timers := l.timers ++ [(connElem, cnt)] }, tr)

def expire (l : Lifecycle) (i : Nat) : Result (Lifecycle × Trace) :=
  match l.timers[i]? with
  | none                => .ok (l, [])
  | some (connElem, cnt) => do
    let (g, _)  ← l.registry.step (.removeContainer cnt)
    let (g, tr) ← g.step (.pool (.delete connElem))
    return ({ registry := g, timers := l.timers.eraseIdx i }, tr)

-- A timer's goroutine returns once the element's `stopChan` is closed.
def stop (l : Lifecycle) (i : Nat) : Result (Lifecycle × Trace) :=
  match l.timers[i]? with
  | none               => .ok (l, [])
  | some (connElem, _) => do
    let e ← l.registry.pool.elem connElem
    if e.stopChan
    then return ({ l with timers := l.timers.eraseIdx i }, [])
    else return (l, [])

-- What `startDropFunction` does with the element that it has looked up. No entry of the list is nil.
def scaleDown (l : Lifecycle) (connElem : ElemId) : Result (Lifecycle × Trace) := do
  let container ← l.registry.pool.getContainer connElem
  let (g, tr)   ← l.registry.step (.pool (.delete connElem))
  match container with
  | none     => return ({ l with registry := g }, tr)
  | some cnt => do
    let (g, _) ← g.step (.removeContainer cnt)
    return ({ l with registry := g }, tr)

def step (l : Lifecycle) : Op → Result (Lifecycle × Trace)
  | .register conn addr id repl maxFluxes => l.register conn addr id repl maxFluxes
  | .expire i                             => l.expire i
  | .stop i                               => l.stop i
  | .scaleDown connElem                   => l.scaleDown connElem
  | .traffic op                           => do
    let (g, tr) ← l.registry.step (.pool op.toOp)
    return ({ l with registry := g }, tr)

end Lifecycle
end Cnt
