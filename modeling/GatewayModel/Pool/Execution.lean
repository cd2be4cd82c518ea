import GatewayModel.Lib.Execution
import GatewayModel.Lib.RoundRobin
import GatewayModel.Pool.Operations

open Go Execution RoundRobin

namespace Pool

-- The operations on the flow table, each taken as one atomic step.
inductive Op
  | add (conn : Option ConnId) (addr : Option UInt32) (id : UInt16) (repl : Bool) (maxFluxes : Int8)
  | next
  | get (crc : Crc)
  | delete (ce : ElemId)
  | tick (i : Nat)
  | stop (i : Nat)
  | wait (d : Nat)
  deriving Repr, DecidableEq

-- What a step does to the ring: the elements that it adds and deletes, and those that `Next`
-- returns in it.
abbrev Trace := List (Event ElemId)

namespace State

-- A registration creates the container and passes it to `Add`. This is the only call of `Add`.
def register (s : State) (conn : Option ConnId) (addr : Option UInt32) (id : UInt16) (repl : Bool)
    (maxFluxes : Int8) : Result State :=
  let cnt : Container := {
    addr      := addr
    fluxes    := 0
    id        := id
    repl      := repl
    maxFluxes := maxFluxes
  }
  { s with containers := s.containers.alloc cnt }.add conn (some s.containers.size)

def step (s : State) : Op → Result (State × Trace)
  | .add conn addr id repl maxFluxes => do
    let s' ← s.register conn addr id repl maxFluxes
    return (s', [.add s.elems.size])
  | .next => do
    let (s', res) ← s.next
    return (s', [.next res])
  | .get crc => do
    let (s', reply) ← s.get crc
    return (s', reply.elem.toList.map .next)
  | .delete ce => do
    let (s', rCe) ← s.delete ce
    return (s', .delete ce :: rCe.toList.map .next)
  | .tick i => do
    let s' ← s.tick i
    return (s', [])
  | .stop i => do
    let s' ← s.stop i
    return (s', [])
  | .wait d =>
    return ({ s with clock := s.clock + d }, [])

end State

abbrev Step : State → (Op × Trace) → State → Prop :=
  Steps State.step

abbrev PoolRun (fluxMaxAge : Int) (ls : List (Op × Trace)) (s : State) : Prop :=
  Run Step (.init fluxMaxAge) ls s

def trace (ls : List (Op × Trace)) : Trace :=
  ls.flatMap (·.2)

theorem trace_concat : trace (ls ++ [l]) = trace ls ++ l.2 := by
  simp [trace]

end Pool
