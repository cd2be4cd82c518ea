import GatewayModel.Lib.Channel
import GatewayModel.Lib.Table
import GatewayModel.Cnt.Registry

open Go Execution Pool

-- The goroutines of `cnt/provisioner.go` and `cnt/handler.go` that scale one action.
namespace Cnt

-- The configuration of the scaling. The `float64` values are taken as rational numbers.
structure Provisioner where
  upThr   : ℚ
  downThr : ℚ
  upInc   : ℚ
  downInc : ℚ
  min     : Int

-- `calculateScalingDelta`. Comparisons with the load of an empty list are false.
def calculateScalingDelta (s : State) (cl : ContainerList) (upThr downThr upInc downDec : ℚ)
    (min : Int) : Result Int := do
  let (n, lp) ← cl.getLoadPercentage s
  match lp with
  | none    => return 0
  | some lp =>
    if lp ≥ upThr then
      return (n * upInc).ceil
    else if lp ≤ downThr then
      let delta := - max (n * downDec).floor 1
      if n + delta ≥ min
      then return delta
      else return 0
    else
      return 0

abbrev InstId := Nat

-- Where the goroutine of an instance is. The creation loop before the `select` and the periodic one
-- differ in that only the latter checks the size of the instance after each iteration.
inductive Pc
  | absent
  | creating (periodic : Bool) (i : Nat)
  | adding (periodic : Bool) (i : Nat) (cntId : UInt16)
  | select
  | removing (cntId : UInt16)
  | lookingUp (cntId : UInt16)
  | deleting (connElem : ElemId) (container : Option ContainerId) (cntLst : Option Unit)
  | unlisting (container : Option ContainerId) (cntLst : Option Unit)
  | returned
  deriving Repr, DecidableEq

structure Instance where
  size     : Int
  decChan  : Channel UInt16
  cntIdMap : List UInt16
  pc       : Pc
  deriving Repr, DecidableEq

inductive Creator
  | creating (i : Nat)
  | adding (i : Nat) (cntId : UInt16)
  | waiting
  deriving Repr, DecidableEq

-- Where `InstantiateFunctions` is. It holds the mutex for reading unless it is `idle`, and
-- `rest` are the keys of `c2e` that its loop has not produced yet.
inductive Scan
  | idle
  | next (delta : Int) (rest : List UInt16)
  | isAlive (delta : Int) (rest : List UInt16) (cntId : UInt16) (connElem : ElemId)
  | isRepl (delta : Int) (rest : List UInt16) (cntId : UInt16) (connElem : ElemId)
  | isAliveAgain (delta : Int) (rest : List UInt16) (cntId : UInt16) (connElem : ElemId)
  | send (delta : Int) (rest : List UInt16) (cntId : UInt16) (inst : InstId)
  deriving Repr, DecidableEq

structure Handler where
  cntId    : UInt16
  connElem : ElemId
  cnt      : ContainerId
  deriving Repr, DecidableEq

inductive Timer.Pc
  | start
  | select
  | delete
  deriving Repr, DecidableEq

structure Timer where
  connElem : ElemId
  cnt      : ContainerId
  pc       : Timer.Pc
  deriving Repr, DecidableEq

-- All values of `c2l` point to the list of the action. A `decision` is what `HandleScaling` has
-- calculated and not sent yet.
structure Sys where
  registry  : Registry
  c2e       : Table UInt16 ElemId
  c2l       : Map UInt16 Unit
  c2p       : Map UInt16 InstId
  instances : Heap Instance
  creator   : Creator
  decision  : Option Int
  scan      : Scan
  handlers  : List Handler
  timers    : List Timer

abbrev Calls := List (Registry.Op × Trace)

abbrev Outcome := Except Halt (Sys × Calls)

namespace Sys

inductive TrafficOp
  | get (crc : Crc)
  | tick (i : Nat)
  | stop (i : Nat)
  | wait (d : Nat)
  deriving Repr, DecidableEq

def TrafficOp.toOp : TrafficOp → Pool.Op
  | .get crc => .get crc
  | .tick i  => .tick i
  | .stop i  => .stop i
  | .wait d  => .wait d

theorem TrafficOp.toOp_ne_add (op : TrafficOp) : op.toOp ≠ .add conn addr cntId repl maxFluxes := by
  cases op <;> simp [toOp]

inductive TimerOp
  | start
  | fire
  | delete
  | stop
  deriving Repr, DecidableEq

-- A goroutine that creates functions picks their ids at random. All other steps of an instance's
-- goroutine outside of its `select` are `proceed`.
inductive CreatorOp
  | create (cntId : UInt16)
  | proceed
  deriving Repr, DecidableEq

inductive WorkerOp
  | create (cntId : UInt16)
  | tick
  | receive
  | proceed
  deriving Repr, DecidableEq

-- The loop over `c2e` produces the keys in any order.
inductive ScanOp
  | produce (i : Nat)
  | proceed
  deriving Repr, DecidableEq

inductive Op
  | traffic (op : TrafficOp)
  | register (conn : Option ConnId) (addr : Option UInt32) (id : UInt16) (repl : Bool)
    (maxFluxes : Int8)
  | addConnElem (i : Nat)
  | timer (i : Nat) (op : TimerOp)
  | creator (op : CreatorOp)
  | worker (inst : InstId) (op : WorkerOp)
  | handleScaling
  | receive
  | scan (op : ScanOp)
  deriving Repr, DecidableEq

def init (p : Provisioner) (fluxMaxAge : Int) : Sys where
  registry  := .init fluxMaxAge
  c2e       := .empty
  c2l       := .empty
  c2p       := .empty
  instances := Heap.empty.alloc {
    size     := p.min
    decChan  := .make 0
    cntIdMap := []
    pc       := .absent
  }
  creator   := .creating 0
  decision  := none
  scan      := .idle
  handlers  := []
  timers    := []

variable (p : Provisioner) (s : Sys)

-- The mutex of the `ConnElemProvisioner` is held by `InstantiateFunctions`. All other critical
-- sections of it are atomic steps.
def isLocked : Bool :=
  s.scan ≠ .idle

def orPanic : Result α → Except Halt α
  | .ok a    => .ok a
  | .error e => .error (.panic e)

def done (s : Sys) : Outcome :=
  .ok (s, [])

def call (op : Registry.Op) : Outcome :=
  match s.registry.step op with
  | .ok (g, tr) => .ok ({ s with registry := g }, [(op, tr)])
  | .error e    => .error (.panic e)

def setInst (i : InstId) (inst : Instance) : Sys :=
  { s with instances := s.instances.modify i fun _ => inst }

-- The first part of `addEntryToChan`, up to `AddContainer`.
def register (conn : Option ConnId) (addr : Option UInt32) (id : UInt16) (repl : Bool)
    (maxFluxes : Int8) : Outcome :=
  let h : Handler := {
    cntId    := id
    connElem := s.registry.pool.elems.size
    cnt      := s.registry.pool.containers.size
  }
  { s with handlers := s.handlers ++ [h] }.call (.pool (.add conn addr id repl maxFluxes))

def addConnElem (i : Nat) : Outcome :=
  match s.handlers[i]? with
  | none   => .error .blocked
  | some h =>
    if s.isLocked
    then .error .blocked
    else done { s with
      c2e      := s.c2e.set h.cntId h.connElem
      c2l      := s.c2l.set h.cntId ()
      handlers := s.handlers.eraseIdx i
      timers   := s.timers ++ [{ connElem := h.connElem, cnt := h.cnt, pc := .start }]
    }

-- The goroutine of `addEntryToChan`.
def timer (i : Nat) (op : TimerOp) : Outcome :=
  match s.timers[i]? with
  | none   => .error .blocked
  | some t =>
    match t.pc, op with
    | .start, .start => do
      let container ← orPanic (s.registry.pool.getContainer t.connElem)
      let _ ← orPanic (s.registry.pool.container container)
      done { s with timers := s.timers.set i { t with pc := .select } }
    | .select, .fire =>
      { s with timers := s.timers.set i { t with pc := .delete } }.call (.removeContainer t.cnt)
    | .select, .stop => do
      let e ← orPanic (s.registry.pool.elem t.connElem)
      if e.stopChan
      then done { s with timers := s.timers.eraseIdx i }
      else .error .blocked
    | .delete, .delete =>
      { s with timers := s.timers.eraseIdx i }.call (.pool (.delete t.connElem))
    | _, _ => .error .blocked

-- The goroutine that `InstantiateFunctions` starts for its initial instance, which is at address 0.
def create : CreatorOp → Outcome
  | .create cntId =>
    match s.creator with
    | .creating i =>
      if i < p.min ∧ cntId ≠ 0
      then done { s with creator := .adding i cntId }
      else .error .blocked
    | _ => .error .blocked
  | .proceed =>
    match s.creator with
    | .creating i =>
      if i < p.min
      then .error .blocked
      else done { s with creator := .waiting }
    | .adding i cntId =>
      if s.isLocked
      then .error .blocked
      else done { s with c2p := s.c2p.set cntId 0, creator := .creating (i + 1) }
    | .waiting => done { s with creator := .creating 0 }

-- `startDropFunction`.
def worker (i : InstId) (op : WorkerOp) : Outcome :=
  match s.instances.load i with
  | none      => .error .blocked
  | some inst =>
    match inst.pc, op with
    | .creating periodic n, .create cntId =>
      if n < inst.size ∧ cntId ≠ 0
      then done (s.setInst i { inst with
        cntIdMap := inst.cntIdMap.insert cntId
        pc       := .adding periodic n cntId
      })
      else .error .blocked
    | .creating _ n, .proceed =>
      if n < inst.size
      then .error .blocked
      else done (s.setInst i { inst with pc := .select })
    | .adding periodic n cntId, .proceed =>
      if s.isLocked
      then .error .blocked
      else done ({ s with c2p := s.c2p.set cntId i }.setInst i { inst with
        pc := if periodic ∧ inst.size ≤ 0 then .returned else .creating periodic (n + 1)
      })
    | .select, .tick =>
      done (s.setInst i { inst with pc := if inst.size ≤ 0 then .returned else .creating true 0 })
    | .select, .receive =>
      match inst.decChan.receive with
      | none                   => .error .blocked
      | some (cntInt, decChan) =>
        if cntInt ∈ inst.cntIdMap
        then done (s.setInst i { inst with
          decChan  := decChan
          cntIdMap := inst.cntIdMap.erase cntInt
          pc       := .removing cntInt
        })
        else done (s.setInst i { inst with decChan := decChan })
    | .removing cntInt, .proceed =>
      if s.isLocked
      then .error .blocked
      else done ({ s with c2p := s.c2p.delete cntInt }.setInst i { inst with
        pc := .lookingUp cntInt
      })
    | .lookingUp cntInt, .proceed => do
      let connElem  ← orPanic (deref (s.c2e.get cntInt))
      let container ← orPanic (s.registry.pool.getContainer connElem)
      done (s.setInst i { inst with pc := .deleting connElem container (s.c2l cntInt) })
    | .deleting connElem container cntLst, .proceed =>
      (s.setInst i { inst with pc := .unlisting container cntLst }).call (.pool (.delete connElem))
    | .unlisting container cntLst, .proceed => do
      let _ ← orPanic (deref cntLst)
      let s := s.setInst i { inst with size := inst.size - 1, pc := .select }
      -- No entry of the list is nil.
      match container with
      | none     => s.done
      | some cnt => s.call (.removeContainer cnt)
    | _, _ => .error .blocked

def handleScaling : Outcome :=
  match s.decision with
  | some _ => .error .blocked
  | none   => do
    let res ← orPanic (calculateScalingDelta s.registry.pool s.registry.lst p.upThr p.downThr p.upInc
      p.downInc p.min)
    done { s with decision := some res }

def receive : Outcome :=
  match s.scan, s.decision with
  | .idle, some delta =>
    let s := { s with decision := none }
    if delta > 0 then
      done { s with instances := s.instances.alloc {
        size     := delta
        decChan  := .make (delta.toNat + 1)
        cntIdMap := []
        pc       := .creating false 0
      } }
    else if delta < 0 then
      done { s with scan := .next delta s.c2e.keys }
    else
      s.done
  | _, _ => .error .blocked

-- The loop of `InstantiateFunctions` over `c2e`.
def scanLoop (op : ScanOp) : Outcome :=
  match s.scan, op with
  | .next delta rest, .produce i =>
    match rest[i]? with
    | none       => .error .blocked
    | some cntId =>
      match s.c2e.get cntId with
      | none          => done { s with scan := .next delta (rest.eraseIdx i) }
      | some connElem => done { s with scan := .isAlive delta (rest.eraseIdx i) cntId connElem }
  | .next _ rest, .proceed =>
    if rest = []
    then done { s with scan := .idle }
    else .error .blocked
  | .isAlive delta rest cntId connElem, .proceed =>
    if s.registry.pool.isAlive connElem
    then done { s with scan := .isRepl delta rest cntId connElem }
    else done { s with scan := .isAliveAgain delta rest cntId connElem }
  | .isRepl delta rest cntId connElem, .proceed => do
    if ← orPanic (s.registry.pool.isRepl connElem) then
      done { s with scan := .isAliveAgain delta rest cntId connElem }
    else
      match s.c2p cntId with
      | none      => done { s with c2e := s.c2e.delete cntId, scan := .next delta rest }
      | some inst => done { s with scan := .send delta rest cntId inst }
  | .isAliveAgain delta rest cntId connElem, .proceed =>
    if s.registry.pool.isAlive connElem
    then done { s with scan := .next delta rest }
    else done { s with c2e := s.c2e.delete cntId, scan := .next delta rest }
  | .send delta rest cntId i, .proceed =>
    match s.instances.load i with
    | none      => .error .blocked
    | some inst =>
      match inst.decChan.send cntId with
      | none         => .error .blocked
      | some decChan =>
        done ({ s with scan := if delta + 1 = 0 then .idle else .next (delta + 1) rest }.setInst i
          { inst with decChan := decChan })
  | _, _ => .error .blocked

def step : Op → Outcome
  | .traffic op                            => s.call (.pool op.toOp)
  | .register conn addr id repl maxFluxes => s.register conn addr id repl maxFluxes
  | .addConnElem i                         => s.addConnElem i
  | .timer i op                            => s.timer i op
  | .creator op                            => s.create p op
  | .worker i op                           => s.worker i op
  | .handleScaling                         => s.handleScaling p
  | .receive                               => s.receive
  | .scan op                               => s.scanLoop op

end Sys
end Cnt
