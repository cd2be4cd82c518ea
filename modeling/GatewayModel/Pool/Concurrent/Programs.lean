import GatewayModel.Lib.Locks
import GatewayModel.Pool.Execution

open Go Locks Locks.Prog

-- The operations on the flow table with all their operations on mutexes. The calls run concurrently,
-- and each access between two operations on mutexes is an atomic step.
namespace Pool.Locking

-- The field `mu` of an element points to the mutex of its pool.
inductive Mutex
  | crc2ConnMap
  | connPool
  | container (i : ContainerId)
  deriving Repr, DecidableEq

abbrev Program := Prog State Mutex

section Container

def withContainer (mode : Mode) (p : Option ContainerId) (x : Program α) : Program α := do
  let i ← inspect fun _ => deref p
  locked mode (.container i) x

def incFluxes (p : Option ContainerId) : Program Unit :=
  withContainer .write p (perform fun s => do
    let s ← s.incFluxes p
    return (s, ()))

def decFluxes (p : Option ContainerId) : Program Unit :=
  withContainer .write p (perform fun s => do
    let s ← s.decFluxes p
    return (s, ()))

def getFluxes (p : Option ContainerId) : Program Int8 :=
  withContainer .read p (inspect fun s => do
    let c ← s.container p
    return c.fluxes)

def getMaxFluxes (p : Option ContainerId) : Program Int8 :=
  inspect fun s => do
    let c ← s.container p
    return c.maxFluxes

end Container

section Pool

-- The new container and the new element are not known to other goroutines before they are linked.
def add (conn : Option ConnId) (addr : Option UInt32) (id : UInt16) (repl : Bool) (maxFluxes : Int8) :
    Program Unit :=
  locked .write .connPool (perform fun s => do
    let s ← s.register conn addr id repl maxFluxes
    return (s, ()))

def next : Program ElemId :=
  locked .write .connPool (perform (·.next))

def addCrc (ce : ElemId) (crc : Crc) : Program Unit :=
  locked .write .connPool (update (·.addCrc ce crc))

def getContainer (ce : ElemId) : Program (Option ContainerId) :=
  locked .read .connPool (inspect (·.getContainer ce))

def isAlive (ce : ElemId) : Program Bool :=
  locked .read .connPool (inspect fun s => return s.isAlive ce)

def isRepl (ce : ElemId) : Program Bool :=
  locked .read .connPool (inspect (·.isRepl ce))

def getStopChan (ce : ElemId) : Program ElemId :=
  locked .read .connPool (inspect fun s => do
    let _ ← s.elem ce
    return ce)

end Pool

def watch (w : Watcher) : Program Unit :=
  perform fun s => do
    let s ← s.watch w
    return (s, ())

-- Calls a method of an element's container. The field `container` is read without a mutex.
def withContainerOf (ce : ElemId) (f : Option ContainerId → Program α) : Program α := do
  let container ← inspect (·.getContainer ce)
  f container

section Get

def fastPath (l : State.Lookup) : Program Bool :=
  match l.conn, l.container with
  | some _, some p => do
    let fluxes    ← getFluxes p
    let maxFluxes ← getMaxFluxes p
    return decide (fluxes ≤ maxFluxes)
  | _, _ => return false

def assign (crc : Crc) : Program State.Reply := do
  let cpe ← next
  addCrc cpe crc
  let sem ← locked .write .crc2ConnMap (perform fun s => do
    let elem ← s.elem cpe
    return (s.assign crc elem, s.semaphores))
  withContainerOf cpe incFluxes
  perform fun s => do
    let s ← s.watch { crc := crc, elem := cpe, origin := .get, timeout := s.fluxMaxAge }
    return (s, ())
  let elem ← inspect (·.elem cpe)
  return { conn := elem.conn, lock := some sem, elem := some cpe }

def get (crc : Crc) : Program State.Reply := do
  let l ← locked .read .crc2ConnMap (inspect fun s => return s.lookup crc)
  locked .write .crc2ConnMap (update (·.touch crc))
  if ← fastPath l
  then return { conn := l.conn.getD none, lock := l.lock, elem := none }
  else assign crc

end Get

section Watchers

-- A critical section of a watcher, which reads the pointer to the flow table before it locks and
-- unlocks the mutex.
def withMap (mode : Mode) (w : Watcher) (x : Program α) : Program α := do
  inspect (·.watcherMap w)
  lock mode .crc2ConnMap
  let a ← x
  inspect (·.watcherMap w)
  unlock mode .crc2ConnMap
  return a

def timestampOf (w : Watcher) : Program (Option Int) :=
  withMap .read w (inspect fun s => do
    s.watcherMap w
    return s.crcFluxUsageMap w.crc)

def forget (w : Watcher) : Program Unit :=
  withMap .write w (perform fun s => do
    s.watcherMap w
    return (s.forget w, ()))

def expire (w : Watcher) : Program Unit := do
  withContainerOf w.elem decFluxes
  forget w
  update fun s => { s with watchers := s.watchers.erase w }

def tick (w : Watcher) : Program Unit := do
  let timestamp ← timestampOf w
  let now ← inspect fun s => return s.clock
  if timestamp.any fun t => now - t > w.timeout
  then expire w
  else return ()

def stop (w : Watcher) : Program Unit :=
  perform fun s => do
    let e ← s.elem w.elem
    if e.stopChan
    then return ({ s with watchers := s.watchers.erase w }, ())
    else return (s, ())

end Watchers

section Delete

def derefMap (ce : ElemId) : Program Unit :=
  inspect fun s => do
    let e ← s.elem ce
    deref e.crc2ConnMap

-- The loop that moves the flows of `ce` to `rCe`. It runs while the mutex of the flow table is held.
def remap (ce rCe : ElemId) : List Crc → Program Unit
  | [] => return ()
  | port :: ports => do
    derefMap ce
    perform fun s => do
      let r ← s.elem rCe
      return ({ s with crc2conn := s.crc2conn.set port r.conn }, ())
    withContainerOf rCe incFluxes
    watch { crc := port, elem := rCe, origin := .delete ce, timeout := State.deleteTimeout }
    remap ce rCe ports

def terminate (ce : ElemId) : Program Unit :=
  perform fun s => do
    let s ← s.terminate ce
    return (s, ())

def portsOf (ce : ElemId) : Program (List Crc) :=
  inspect fun s => do
    let e ← s.elem ce
    return e.ports

def migrate (ce : ElemId) : Program (Option ElemId) := do
  let rCe ← next
  derefMap ce
  lock .write .crc2ConnMap
  let ports ← portsOf ce
  remap ce rCe ports
  derefMap ce
  unlock .write .crc2ConnMap
  locked .write .connPool (do
    let ports ← portsOf ce
    update (·.merge rCe ports))
  terminate ce
  return some rCe

def handOver (ce : ElemId) : Program (Option ElemId) := do
  let ports ← portsOf ce
  if ports = [] then
    terminate ce
    update (·.modifyElem ce ({ · with container := none }))
    return none
  else
    migrate ce

def delete (ce : ElemId) : Program (Option ElemId) := do
  let unlinked ← locked .write .connPool (perform (·.unlink ce))
  if unlinked then
    locked .write .connPool (perform fun s => do
      let s ← s.clear ce
      return (s, ()))
    handOver ce
  else
    return none

end Delete

inductive Call
  | get (crc : Crc)
  | add (conn : Option ConnId) (addr : Option UInt32) (id : UInt16) (repl : Bool) (maxFluxes : Int8)
  | next
  | addCrc (ce : ElemId) (crc : Crc)
  | delete (ce : ElemId)
  | isAlive (ce : ElemId)
  | isRepl (ce : ElemId)
  | getContainer (ce : ElemId)
  | getStopChan (ce : ElemId)
  | tick (w : Watcher)
  | stop (w : Watcher)
  | wait (d : Nat)
  deriving Repr, DecidableEq

def Call.program : Call → Program Unit
  | .get crc                         => do let _ ← Locking.get crc
  | .add conn addr id repl maxFluxes => Locking.add conn addr id repl maxFluxes
  | .next                            => do let _ ← Locking.next
  | .addCrc ce crc                   => Locking.addCrc ce crc
  | .delete ce                       => do let _ ← Locking.delete ce
  | .isAlive ce                      => do let _ ← Locking.isAlive ce
  | .isRepl ce                       => do let _ ← Locking.isRepl ce
  | .getContainer ce                 => do let _ ← Locking.getContainer ce
  | .getStopChan ce                  => do let _ ← Locking.getStopChan ce
  | .tick w                          => Locking.tick w
  | .stop w                          => Locking.stop w
  | .wait d                          => update fun s => { s with clock := s.clock + d }

end Pool.Locking
