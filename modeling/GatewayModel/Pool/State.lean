import GatewayModel.Lib.Go

open Go

-- The flow table of `utils/rulemap.go`: a `Crc2ConnMap`, its `ConnPool` and the objects that are
-- reachable from them.
namespace Pool

abbrev Crc         := UInt16
abbrev ConnId      := Nat
abbrev SemId       := Nat
abbrev ElemId      := Nat
abbrev ContainerId := Nat

structure Container where
  addr      : Option UInt32
  fluxes    : Int8
  id        : UInt16
  repl      : Bool
  maxFluxes : Int8
  deriving Repr, DecidableEq

namespace Container

def incFluxes (c : Container) : Container :=
  { c with fluxes := c.fluxes + 1 }

def decFluxes (c : Container) : Container :=
  if c.fluxes > 1
  then { c with fluxes := c.fluxes - 1 }
  else { c with fluxes := 0 }

end Container

-- The fields `mu` and `connPool` are the same for all elements of a pool and never change. The
-- field `crc2ConnMap` can only point to the pool's own `Crc2ConnMap` or be nil, and `stopChan`
-- tells whether the channel has been closed. The keys of `ports` are listed without repetition.
structure ConnPoolElem where
  conn        : Option ConnId
  prev        : Option ElemId
  next        : Option ElemId
  crc2ConnMap : Option Unit
  ports       : List Crc
  container   : Option ContainerId
  stopChan    : Bool
  deriving Repr, DecidableEq

-- The goroutines that `Get` and `Delete` start for a flow. One that was started by `Delete` reaches
-- the flow table through the deleted element `ce`.
inductive Watcher.Origin
  | get
  | delete (ce : ElemId)
  deriving Repr, DecidableEq

structure Watcher where
  crc     : Crc
  elem    : ElemId
  origin  : Watcher.Origin
  timeout : Int
  deriving Repr, DecidableEq

-- Times are in nanoseconds. `semaphores` is the number of semaphores that have been created, and
-- `sent` lists the connections on which a termination message has been written.
structure State where
  elems           : Heap ConnPoolElem
  containers      : Heap Container
  currElem        : Option ElemId
  headElem        : Option ElemId
  tailElem        : Option ElemId
  crc2conn        : Map Crc (Option ConnId)
  crc2lock        : Map Crc SemId
  crcFluxUsageMap : Map Crc Int
  crcContainer    : Map Crc (Option ContainerId)
  fluxMaxAge      : Int
  semaphores      : Nat
  watchers        : List Watcher
  clock           : Int
  sent            : List ConnId

namespace State

def init (fluxMaxAge : Int) : State where
  elems           := .empty
  containers      := .empty
  currElem        := none
  headElem        := none
  tailElem        := none
  crc2conn        := .empty
  crc2lock        := .empty
  crcFluxUsageMap := .empty
  crcContainer    := .empty
  fluxMaxAge      := fluxMaxAge
  semaphores      := 0
  watchers        := []
  clock           := 0
  sent            := []

variable (s : State)

def elem (p : ElemId) : Result ConnPoolElem :=
  deref (s.elems.load p)

def container (p : Option ContainerId) : Result Container :=
  deref (p.bind s.containers.load)

def modifyElem (p : ElemId) (f : ConnPoolElem → ConnPoolElem) : State :=
  { s with elems := s.elems.modify p f }

def setNext (p : ElemId) (n : Option ElemId) : State :=
  s.modifyElem p ({ · with next := n })

def setPrev (p : ElemId) (n : Option ElemId) : State :=
  s.modifyElem p ({ · with prev := n })

def nextOf (p : ElemId) : Option ElemId :=
  (s.elems.load p).bind (·.next)

def prevOf (p : ElemId) : Option ElemId :=
  (s.elems.load p).bind (·.prev)

def data (p : ElemId) : Option ConnPoolElem :=
  (s.elems.load p).map ({ · with prev := none, next := none })

def connOf (p : ElemId) : Option ConnId :=
  (s.data p).bind (·.conn)

def containerOf (p : ElemId) : Option ContainerId :=
  (s.data p).bind (·.container)

def portsOf (p : ElemId) : List Crc :=
  (s.data p).elim [] (·.ports)

variable {s} {p q : ElemId} {e : ConnPoolElem} {f : ConnPoolElem → ConnPoolElem}

theorem elem_eq_ok : (s.elem p = .ok e) ↔ (s.elems.load p = some e) :=
  deref_eq_ok

theorem container_eq_ok {i : Option ContainerId} {c : Container} :
    (s.container i = .ok c) ↔ (∃ j, i = some j ∧ s.containers.load j = some c) := by
  simp [container, deref_eq_ok, Option.bind_eq_some_iff]

section Load

variable (h : s.elems.load p = some e)

include h

theorem nextOf_eq : s.nextOf p = e.next := by
  simp [nextOf, h]

theorem prevOf_eq : s.prevOf p = e.prev := by
  simp [prevOf, h]

theorem connOf_eq : s.connOf p = e.conn := by
  simp [connOf, data, h]

theorem containerOf_eq : s.containerOf p = e.container := by
  simp [containerOf, data, h]

theorem portsOf_eq : s.portsOf p = e.ports := by
  simp [portsOf, data, h]

end Load

section Modify

variable (s) (p : ElemId) {f : ConnPoolElem → ConnPoolElem}

@[simp]
theorem size_modifyElem : (s.modifyElem p f).elems.size = s.elems.size :=
  Heap.size_modify

theorem load_modifyElem :
    (s.modifyElem p f).elems.load q = if q = p then (s.elems.load q).map f else s.elems.load q :=
  Heap.load_modify

theorem nextOf_modifyElem (hf : ∀ e, (f e).next = e.next) : (s.modifyElem p f).nextOf = s.nextOf := by
  ext1 q
  simp only [nextOf, load_modifyElem]
  split <;> cases s.elems.load q <;> simp [hf]

theorem prevOf_modifyElem (hf : ∀ e, (f e).prev = e.prev) : (s.modifyElem p f).prevOf = s.prevOf := by
  ext1 q
  simp only [prevOf, load_modifyElem]
  split <;> cases s.elems.load q <;> simp [hf]

@[simp]
theorem data_setNext {n : Option ElemId} : (s.setNext p n).data = s.data := by
  ext1 q
  simp only [data, setNext, load_modifyElem]
  split <;> cases s.elems.load q <;> simp

@[simp]
theorem data_setPrev {n : Option ElemId} : (s.setPrev p n).data = s.data := by
  ext1 q
  simp only [data, setPrev, load_modifyElem]
  split <;> cases s.elems.load q <;> simp

@[simp]
theorem size_setNext {n : Option ElemId} : (s.setNext p n).elems.size = s.elems.size :=
  size_modifyElem ..

@[simp]
theorem size_setPrev {n : Option ElemId} : (s.setPrev p n).elems.size = s.elems.size :=
  size_modifyElem ..

@[simp]
theorem prevOf_setNext {n : Option ElemId} : (s.setNext p n).prevOf = s.prevOf :=
  prevOf_modifyElem _ _ fun _ => rfl

@[simp]
theorem nextOf_setPrev {n : Option ElemId} : (s.setPrev p n).nextOf = s.nextOf :=
  nextOf_modifyElem _ _ fun _ => rfl

variable {p}

theorem nextOf_setNext {n : Option ElemId} (hp : p < s.elems.size) :
    (s.setNext p n).nextOf q = if q = p then n else s.nextOf q := by
  have ⟨e, he⟩ := Heap.exists_load hp
  simp only [nextOf, setNext, load_modifyElem]
  split <;> simp_all

theorem prevOf_setPrev {n : Option ElemId} (hp : p < s.elems.size) :
    (s.setPrev p n).prevOf q = if q = p then n else s.prevOf q := by
  have ⟨e, he⟩ := Heap.exists_load hp
  simp only [prevOf, setPrev, load_modifyElem]
  split <;> simp_all

end Modify

end State
end Pool
