import GatewayModel.Pool.State

open Go

namespace Pool.State

-- `ConnPool.Add`. The new element is at address `s.elems.size`.
def add (s : State) (conn : Option ConnId) (container : Option ContainerId) : Result State :=
  let elem := s.elems.size
  let s := { s with elems := s.elems.alloc {
    conn        := conn
    prev        := none
    next        := none
    crc2ConnMap := some ()
    ports       := []
    container   := container
    stopChan    := false
  } }
  match s.headElem with
  | none => do
    let s := { s with headElem := some elem, tailElem := some elem }
    let s := s.setNext elem (some elem)
    let s := s.setPrev elem (some elem)
    return { s with currElem := s.headElem }
  | some head => do
    let tail ← deref s.tailElem
    let s := s.setNext tail (some elem)
    let s := s.setPrev elem (some tail)
    let s := s.setNext elem (some head)
    let s := s.setPrev head (some elem)
    return { s with tailElem := some elem }

def next (s : State) : Result (State × ElemId) := do
  let res  ← deref s.currElem
  let elem ← s.elem res
  return ({ s with currElem := elem.next }, res)

def sizeLoop (s : State) (fuel : Nat) (currElem : Option ElemId) (i : Nat) : Option (Result Nat) :=
  if currElem = s.tailElem then
    some (.ok i)
  else
    match fuel, currElem with
    | 0, _           => none
    | _ + 1, none    => some (.error .nilDereference)
    | fuel + 1, some p => s.sizeLoop fuel (s.nextOf p) (i + 1)

-- `ConnPool.SizeNoLock`, or `none` if the loop does not end within `fuel` iterations.
def sizeNoLock (s : State) (fuel : Nat) : Option (Result Nat) :=
  match s.headElem with
  | none      => some (.ok 0)
  | some head => s.sizeLoop fuel (some head) 1

-- The loop of `ConnPool.Size`, which breaks off after six iterations.
def cappedSizeLoop (s : State) (currElem : Option ElemId) (i : Nat) : Result Nat :=
  if currElem = s.tailElem then
    .ok i
  else if i > 5 then
    .ok i
  else
    match currElem with
    | none   => .error .nilDereference
    | some p => s.cappedSizeLoop (s.nextOf p) (i + 1)
termination_by 6 - i

def size (s : State) : Result Nat :=
  s.cappedSizeLoop s.headElem 0

def addCrc (s : State) (ce : ElemId) (crc : Crc) : State :=
  s.modifyElem ce fun e => { e with ports := e.ports.insert crc }

def isAlive (s : State) (ce : ElemId) : Bool :=
  (s.prevOf ce).isSome

def isRepl (s : State) (ce : ElemId) : Result Bool := do
  let e ← s.elem ce
  let c ← s.container e.container
  return c.repl

def getContainer (s : State) (ce : ElemId) : Result (Option ContainerId) := do
  let e ← s.elem ce
  return e.container

-- `Container.IncFluxes` and `Container.DecFluxes` on a container that may be nil.
def updateFluxes (s : State) (p : Option ContainerId) (f : Container → Container) : Result State := do
  let _ ← s.container p
  return { s with containers := p.elim s.containers (s.containers.modify · f) }

def incFluxes (s : State) (p : Option ContainerId) : Result State :=
  s.updateFluxes p Container.incFluxes

def decFluxes (s : State) (p : Option ContainerId) : Result State :=
  s.updateFluxes p Container.decFluxes

-- The goroutines of `Get` and `Delete` begin by creating a ticker, which panics for a timeout that
-- is not positive.
def watch (s : State) (w : Watcher) : Result State :=
  if w.timeout ≤ 0
  then .error .nonPositiveTicker
  else .ok { s with watchers := s.watchers ++ [w] }

section Get

-- What `Get` reads in its first critical section.
structure Lookup where
  conn      : Option (Option ConnId)
  container : Option (Option ContainerId)
  lock      : Option SemId
  deriving Repr, DecidableEq

def lookup (s : State) (crc : Crc) : Lookup where
  conn      := s.crc2conn crc
  container := s.crcContainer crc
  lock      := s.crc2lock crc

-- The second critical section of `Get` records the time of use.
def touch (s : State) (crc : Crc) : State :=
  { s with crcFluxUsageMap := s.crcFluxUsageMap.set crc s.clock }

-- The condition under which `Get` returns what it has looked up.
def fastPath (s : State) (l : Lookup) : Result Bool :=
  match l.conn, l.container with
  | some _, some p => do
    let c ← s.container p
    return decide (c.fluxes ≤ c.maxFluxes)
  | _, _ => return false

-- The critical section of `Get` that assigns the flow to `cpe`. The new semaphore is
-- `s.semaphores`.
def assign (s : State) (crc : Crc) (cpe : ConnPoolElem) : State :=
  { s with
    crc2conn     := s.crc2conn.set crc cpe.conn
    crc2lock     := s.crc2lock.set crc s.semaphores
    crcContainer := s.crcContainer.set crc cpe.container
    semaphores   := s.semaphores + 1
  }

-- What `Get` returns, and the element that it took from the pool unless it took the fast path.
structure Reply where
  conn : Option ConnId
  lock : Option SemId
  elem : Option ElemId

def get (s : State) (crc : Crc) : Result (State × Reply) := do
  let l := s.lookup crc
  let s := s.touch crc
  if ← s.fastPath l then
    return (s, { conn := l.conn.getD none, lock := l.lock, elem := none })
  else
    let (s, cpe) ← s.next
    let s := s.addCrc cpe crc
    let elem ← s.elem cpe
    let sem := s.semaphores
    let s := s.assign crc elem
    let s ← s.incFluxes elem.container
    let s ← s.watch { crc := crc, elem := cpe, origin := .get, timeout := s.fluxMaxAge }
    return (s, { conn := elem.conn, lock := some sem, elem := some cpe })

end Get

section Watchers

-- The check of a watcher whose ticker has fired.
def expired (s : State) (w : Watcher) : Bool :=
  match s.crcFluxUsageMap w.crc with
  | some timestamp => decide (s.clock - timestamp > w.timeout)
  | none           => false

def watcherMap (s : State) (w : Watcher) : Result Unit :=
  match w.origin with
  | .get       => .ok ()
  | .delete ce => do
    let e ← s.elem ce
    deref e.crc2ConnMap

-- The critical section in which an expired watcher removes its flow.
def forget (s : State) (w : Watcher) : State :=
  match w.origin with
  | .get => { s with
      crc2conn     := s.crc2conn.delete w.crc
      crcContainer := s.crcContainer.delete w.crc
    }
  | .delete _ => { s with crc2conn := s.crc2conn.delete w.crc }

-- The ticker branch of the `i`-th watcher. A watcher that has expired returns.
def tick (s : State) (i : Nat) : Result State :=
  match s.watchers[i]? with
  | none   => .ok s
  | some w => do
    s.watcherMap w
    if s.expired w then
      let e ← s.elem w.elem
      let s ← s.decFluxes e.container
      let s := s.forget w
      return { s with watchers := s.watchers.eraseIdx i }
    else
      return s

-- The other branch of the `i`-th watcher, which is open once its element's `stopChan` is closed.
-- While both branches are open, either may be taken.
def stop (s : State) (i : Nat) : Result State :=
  match s.watchers[i]? with
  | none   => .ok s
  | some w => do
    let e ← s.elem w.elem
    if e.stopChan
    then return { s with watchers := s.watchers.eraseIdx i }
    else return s

end Watchers

section Delete

-- The first critical section of `Delete`. The result tells whether `Delete` goes on.
def unlink (s : State) (ce : ElemId) : Result (State × Bool) := do
  let e ← s.elem ce
  if e.next = some ce then
    return ({ s with headElem := none, tailElem := none }, true)
  else
    match e.prev, e.next with
    | some prev, some next =>
      let s := s.setNext prev (some next)
      let s := s.setPrev next (some prev)
      let e ← s.elem ce
      return ({ s with
        currElem := if s.currElem = some ce then e.next else s.currElem
        headElem := if s.headElem = some ce then e.next else s.headElem
        tailElem := if s.tailElem = some ce then e.prev else s.tailElem
      }, true)
    | _, _ =>
      let s := s.modifyElem ce ({ · with conn := none, container := none, crc2ConnMap := none })
      return (s, false)

-- The second critical section of `Delete`.
def clear (s : State) (ce : ElemId) : Result State := do
  let e ← s.elem ce
  if e.stopChan
  then .error .closeOfClosedChannel
  else return s.modifyElem ce ({ · with stopChan := true, next := none, prev := none })

-- `sendTerminationSignal` for an element. Writing on a nil connection panics.
def terminate (s : State) (ce : ElemId) : Result State := do
  let e ← s.elem ce
  let c ← s.container e.container
  let _ ← deref c.addr
  let conn ← deref e.conn
  return { s with sent := s.sent ++ [conn] }

def deleteTimeout : Int :=
  500 * 1000

-- The loop of `Delete` that moves the flows of `ce` to `rCe`.
def remap (s : State) (ce rCe : ElemId) : List Crc → Result State
  | [] => .ok s
  | port :: ports => do
    let r ← s.elem rCe
    let s := { s with crc2conn := s.crc2conn.set port r.conn }
    let s ← s.incFluxes r.container
    let s ← s.watch { crc := port, elem := rCe, origin := .delete ce, timeout := deleteTimeout }
    s.remap ce rCe ports

-- The loop of `Delete` that copies the ports of the deleted element to `rCe`.
def merge (s : State) (rCe : ElemId) (ports : List Crc) : State :=
  s.modifyElem rCe fun r => { r with ports := ports.foldl (fun ps p => ps.insert p) r.ports }

-- What `Delete` does after its two critical sections. The result is the element that it took from
-- the pool as a replacement, if any.
def handOver (s : State) (ce : ElemId) : Result (State × Option ElemId) := do
  let e ← s.elem ce
  if e.ports = [] then
    let s ← s.terminate ce
    return (s.modifyElem ce ({ · with container := none }), none)
  else
    let (s, rCe) ← s.next
    deref e.crc2ConnMap
    let s ← s.remap ce rCe e.ports
    let s := s.merge rCe e.ports
    let s ← s.terminate ce
    return (s, some rCe)

def delete (s : State) (ce : ElemId) : Result (State × Option ElemId) := do
  let (s, unlinked) ← s.unlink ce
  if unlinked then
    let s ← s.clear ce
    s.handOver ce
  else
    return (s, none)

end Delete
end Pool.State
