import GatewayModel.Lib.Go
import GatewayModel.Lib.Execution

open Go Execution

namespace NatContext

abbrev CellId := Nat

-- The containers that ports are leased to. The values of `im` and `rm` are pointers to addresses in
-- `cells`, and ports that were set to the same address share a cell. Times are in nanoseconds.
structure PortCntMapping where
  im           : Map UInt16 CellId
  rm           : Map UInt32 CellId
  cells        : Heap UInt32
  lum          : Map UInt16 Int
  leaseTimeout : Int

namespace PortCntMapping

def newPortCntMapping (timeout : Int) : PortCntMapping where
  im           := .empty
  rm           := .empty
  cells        := .empty
  lum          := .empty
  leaseTimeout := timeout

def get (pc : PortCntMapping) (port : UInt16) : Result UInt32 :=
  match pc.im port with
  | none     => return 0
  | some val => deref (pc.cells.load val)

def set (pc : PortCntMapping) (port : UInt16) (addr : UInt32) (now : Int) : PortCntMapping :=
  match pc.rm addr with
  | none => { pc with
      cells := pc.cells.alloc addr
      rm    := pc.rm.set addr pc.cells.size
      im    := pc.im.set port pc.cells.size
      lum   := pc.lum.set port now
    }
  | some val => { pc with
      im  := pc.im.set port val
      lum := pc.lum.set port now
    }

def replace (pc : PortCntMapping) (oldAddr newAddr : UInt32) : PortCntMapping :=
  match pc.rm oldAddr with
  | none     => pc
  | some val => { pc with cells := pc.cells.modify val fun _ => newAddr }

def delete (pc : PortCntMapping) (port : UInt16) : PortCntMapping :=
  { pc with im := pc.im.delete port }

-- The check of a lease timer. For a port without a timestamp `lum` yields the zero time, which is in
-- the year 1 and so before `now` even after `leaseTimeout` has been added.
def expired (pc : PortCntMapping) (port : UInt16) (now : Int) : Bool :=
  match pc.lum port with
  | none           => true
  | some timestamp => decide (timestamp + pc.leaseTimeout < now)

def remove (pc : PortCntMapping) (port : UInt16) : PortCntMapping :=
  { pc with im := pc.im.delete port, lum := pc.lum.delete port }

inductive Op
  | set (port : UInt16) (addr : UInt32) (now : Int)
  | get (port : UInt16)
  | replace (oldAddr newAddr : UInt32)
  | delete (port : UInt16)
  deriving Repr, DecidableEq

def step (pc : PortCntMapping) : Op → Result (PortCntMapping × Option UInt32)
  | .set port addr now       => return (pc.set port addr now, none)
  | .get port                => do
    let addr ← pc.get port
    return (pc, some addr)
  | .replace oldAddr newAddr => return (pc.replace oldAddr newAddr, none)
  | .delete port             => return (pc.delete port, none)

def lookup (pc : PortCntMapping) : Map UInt16 UInt32 :=
  fun port => (pc.im port).bind pc.cells.load

end PortCntMapping

-- The operations on a plain map from ports to addresses.
namespace PlainMap

def replace (m : Map UInt16 UInt32) (oldAddr newAddr : UInt32) : Map UInt16 UInt32 :=
  fun port => if m port = some oldAddr then some newAddr else m port

def step (m : Map UInt16 UInt32) :
    PortCntMapping.Op → Result (Map UInt16 UInt32 × Option UInt32)
  | .set port addr _         => return (m.set port addr, none)
  | .get port                => return (m, some ((m port).getD 0))
  | .replace oldAddr newAddr => return (replace m oldAddr newAddr, none)
  | .delete port             => return (m.delete port, none)

end PlainMap

-- What the timer of a call of `Set` is going to do: it is to be started, it waits until the time `wake`
-- for its next check, it has found the lease expired, or it has removed the port.
inductive Phase
  | start
  | waiting (wake : Int)
  | removal
  | done
  deriving Repr, DecidableEq

structure Timer where
  port  : UInt16
  phase : Phase
  deriving Repr, DecidableEq

structure Timers where
  pc     : PortCntMapping
  clock  : Int
  timers : List Timer

namespace Timers

inductive Event
  | set (port : UInt16) (time : Int)
  | removed (port : UInt16) (time : Int)
  deriving Repr, DecidableEq

inductive Op
  | set (port : UInt16) (addr : UInt32)
  | start (i : Nat)
  | check (i : Nat)
  | remove (i : Nat)
  | replace (oldAddr newAddr : UInt32)
  | delete (port : UInt16)
  | wait (d : Nat)
  deriving Repr, DecidableEq

def init (timeout now : Int) : Timers where
  pc     := .newPortCntMapping timeout
  clock  := now
  timers := []

def setPhase (t : Timers) (i : Nat) (x : Timer) (phase : Phase) : Timers :=
  { t with timers := t.timers.set i { x with phase := phase } }

-- The operations on the `i`-th timer do nothing unless it is in the phase that they belong to.
def step (t : Timers) : Op → Result (Timers × List Event)
  | .set port addr =>
    return ({ t with pc := t.pc.set port addr t.clock, timers := t.timers ++ [⟨port, .start⟩] },
      [.set port t.clock])
  | .start i =>
    match t.timers[i]? with
    | some ⟨port, .start⟩ =>
      return (t.setPhase i ⟨port, .start⟩ (.waiting (t.clock + t.pc.leaseTimeout)), [])
    | _ => return (t, [])
  | .check i =>
    match t.timers[i]? with
    | some ⟨port, .waiting wake⟩ =>
      if t.clock < wake then
        return (t, [])
      else if t.pc.expired port t.clock then
        return (t.setPhase i ⟨port, .waiting wake⟩ .removal, [])
      else
        return (t.setPhase i ⟨port, .waiting wake⟩ (.waiting (t.clock + t.pc.leaseTimeout)), [])
    | _ => return (t, [])
  | .remove i =>
    match t.timers[i]? with
    | some ⟨port, .removal⟩ =>
      return ({ t.setPhase i ⟨port, .removal⟩ .done with pc := t.pc.remove port },
        [.removed port t.clock])
    | _ => return (t, [])
  | .replace oldAddr newAddr => return ({ t with pc := t.pc.replace oldAddr newAddr }, [])
  | .delete port             => return ({ t with pc := t.pc.delete port }, [])
  | .wait d                  => return ({ t with clock := t.clock + d }, [])

def events (ls : List (Op × List Event)) : List Event :=
  ls.flatMap (·.2)

theorem events_concat : events (ls ++ [l]) = events ls ++ l.2 := by
  simp [events]

end Timers
end NatContext
