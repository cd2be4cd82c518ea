import GatewayModel.Pool.Concurrent.Get

open Go Execution RoundRobin

-- Concurrent calls of `Get` and `Delete` together with the watchers that they start. The blocks that
-- are protected by a mutex are the atomic steps.
namespace Pool.Concurrent

-- The block that a call of `Delete` is going to execute, with the variables that are still in use.
inductive DeletePc
  | unlink
  | clear
  | ports
  | next
  | remap (rCe : ElemId)
  | merge (rCe : ElemId)
  | terminate
  | idle
  | done
  deriving Repr, DecidableEq

-- The ports of `ce` are read again by each loop over them.
def deleteBlock (s : State) (ce : ElemId) : DeletePc → Result (State × DeletePc)
  | .unlink => do
    let (s, unlinked) ← s.unlink ce
    return (s, if unlinked then .clear else .done)
  | .clear => do
    let s ← s.clear ce
    return (s, .ports)
  | .ports => do
    let e ← s.elem ce
    return (s, if e.ports = [] then .idle else .next)
  | .next => do
    let (s, rCe) ← s.next
    return (s, .remap rCe)
  | .remap rCe => do
    let e ← s.elem ce
    deref e.crc2ConnMap
    let s ← s.remap ce rCe e.ports
    return (s, .merge rCe)
  | .merge rCe => do
    let e ← s.elem ce
    return (s.merge rCe e.ports, .terminate)
  | .terminate => do
    let s ← s.terminate ce
    return (s, .done)
  | .idle => do
    let s ← s.terminate ce
    return (s.modifyElem ce ({ · with container := none }), .done)
  | .done => return (s, .done)

def deleteBlocks (s : State) (ce : ElemId) (pc : DeletePc) : Nat → Result (State × DeletePc)
  | 0     => return (s, pc)
  | n + 1 => do
    let (s, pc) ← deleteBlock s ce pc
    deleteBlocks s ce pc n

-- A watcher that has found its flow expired, and whether it has called `DecFluxes`.
structure Expiry where
  watcher : Watcher
  counted : Bool
  deriving Repr, DecidableEq

def expiryBlock (s : State) (x : Expiry) : Result (State × Option Expiry) :=
  if x.counted then do
    s.watcherMap x.watcher
    return (s.forget x.watcher, none)
  else do
    let e ← s.elem x.watcher.elem
    let s ← s.decFluxes e.container
    return (s, some { x with counted := true })

structure Deletion where
  ce : ElemId
  pc : DeletePc
  deriving Repr, DecidableEq

-- The watchers that are not in `expiring` are those of the pool.
structure Threads where
  pool     : State
  gets     : List Call
  deletes  : List Deletion
  expiring : List Expiry

namespace Threads

inductive Event
  | touched (crc : Crc) (time : Int)
  | removed (crc : Crc) (time : Int)
  deriving Repr, DecidableEq

-- A registration opens a connection of its own for the new element, which has the element's number,
-- unless that fails.
inductive Op
  | add (dialed : Bool) (addr : Option UInt32) (id : UInt16) (repl : Bool) (maxFluxes : Int8)
  | get (crc : Crc)
  | delete (ce : ElemId)
  | runGet (i : Nat)
  | runDelete (i : Nat)
  | check (i : Nat)
  | expire (i : Nat)
  | stop (i : Nat)
  | wait (d : Nat)
  deriving Repr, DecidableEq

def init (fluxMaxAge : Int) : Threads where
  pool     := .init fluxMaxAge
  gets     := []
  deletes  := []
  expiring := []

def recorded (s : State) (c : Call) : List Event :=
  match c.pc with
  | .touch _ => [.touched c.crc s.clock]
  | _        => []

def runGet (t : Threads) (i : Nat) : Result (Threads × List Event) :=
  match t.gets[i]? with
  | none   => return (t, [])
  | some c => do
    let (s, pc) ← block t.pool c.crc c.pc
    return ({ t with pool := s, gets := t.gets.set i { c with pc := pc } }, recorded t.pool c)

def runDelete (t : Threads) (i : Nat) : Result (Threads × List Event) :=
  match t.deletes[i]? with
  | none   => return (t, [])
  | some d => do
    let (s, pc) ← deleteBlock t.pool d.ce d.pc
    return ({ t with pool := s, deletes := t.deletes.set i { d with pc := pc } }, [])

-- The ticker of the `i`-th watcher has fired, and the watcher compares the time of use with the clock.
def check (t : Threads) (i : Nat) : Result (Threads × List Event) :=
  match t.pool.watchers[i]? with
  | none   => return (t, [])
  | some w => do
    t.pool.watcherMap w
    if t.pool.expired w then
      return ({ t with
        pool     := { t.pool with watchers := t.pool.watchers.eraseIdx i }
        expiring := t.expiring ++ [⟨w, false⟩]
      }, [])
    else
      return (t, [])

def expire (t : Threads) (i : Nat) : Result (Threads × List Event) :=
  match t.expiring[i]? with
  | none   => return (t, [])
  | some x => do
    let (s, x') ← expiryBlock t.pool x
    match x' with
    | some x' => return ({ t with pool := s, expiring := t.expiring.set i x' }, [])
    | none    => return ({ t with pool := s, expiring := t.expiring.eraseIdx i },
        [.removed x.watcher.crc t.pool.clock])

def step (t : Threads) : Op → Result (Threads × List Event)
  | .add dialed addr id repl maxFluxes => do
    let conn := if dialed then some t.pool.elems.size else none
    let s ← t.pool.register conn addr id repl maxFluxes
    return ({ t with pool := s }, [])
  | .get crc     => return ({ t with gets := t.gets ++ [⟨crc, .lookup⟩] }, [])
  | .delete ce   => return ({ t with deletes := t.deletes ++ [⟨ce, .unlink⟩] }, [])
  | .runGet i    => t.runGet i
  | .runDelete i => t.runDelete i
  | .check i     => t.check i
  | .expire i    => t.expire i
  | .stop i      => do
    let s ← t.pool.stop i
    return ({ t with pool := s }, [])
  | .wait d      => return ({ t with pool := { t.pool with clock := t.pool.clock + d } }, [])

def exampleGet (i : Nat) : List Op :=
  List.replicate 8 (.runGet i)

def events (ls : List (Op × List Event)) : List Event :=
  ls.flatMap (·.2)

theorem events_concat : events (ls ++ [l]) = events ls ++ l.2 := by
  simp [events]

end Threads

section Blocks

inductive DeleteBlocked (s : State) (ce : ElemId) : DeletePc → State → DeletePc → Prop
  | unlink    : (State.Unlinked s ce s' true) → DeleteBlocked s ce .unlink s' .clear
  | gone      : (State.Unlinked s ce s' false) → DeleteBlocked s ce .unlink s' .done
  | clear     : (s.clear ce = .ok s') → DeleteBlocked s ce .clear s' .ports
  | free      : (s.elems.load ce = some e) → (e.ports = []) → DeleteBlocked s ce .ports s .idle
  | ports     : (s.elems.load ce = some e) → (e.ports ≠ []) → DeleteBlocked s ce .ports s .next
  | next      : (s.next = .ok (s', rCe)) → DeleteBlocked s ce .next s' (.remap rCe)
  | remap     : (s.elems.load ce = some e) → (s.remap ce rCe e.ports = .ok s') →
                DeleteBlocked s ce (.remap rCe) s' (.merge rCe)
  | merge     : (s.elems.load ce = some e) →
                DeleteBlocked s ce (.merge rCe) (s.merge rCe e.ports) .terminate
  | terminate : DeleteBlocked s ce .terminate { s with sent := sent } .done
  | idle      : DeleteBlocked s ce .idle
                ({ s with sent := sent }.modifyElem ce ({ · with container := none })) .done
  | done      : DeleteBlocked s ce .done s .done

variable {s s' : State} {ce : ElemId} {pc pc' : DeletePc}

theorem deleteBlocks_of_ok (h : deleteBlock s ce pc = .ok (s', pc')) :
    deleteBlocks s ce pc (n + 1) = deleteBlocks s' ce pc' n := by
  rw [deleteBlocks, h]
  rfl

theorem deleteBlocks_of_error (h : deleteBlock s ce pc = .error p) :
    deleteBlocks s ce pc (n + 1) = .error p := by
  rw [deleteBlocks, h]
  rfl

theorem deleteBlocks_done : deleteBlocks s ce .done n = .ok (s, .done) := by
  induction n
  case zero      => rfl
  case succ n hi => exact (deleteBlocks_of_ok rfl).trans hi

theorem deleteBlocks_eq_handOver (s : State) (ce : ElemId) :
    deleteBlocks s ce .ports 5 = do
      let (s, _) ← s.handOver ce
      return (s, .done) := by
  rw [State.handOver]
  cases he : s.elem ce
  case error p =>
    have hb : deleteBlock s ce .ports = .error p := by simp only [deleteBlock, he]; rfl
    exact deleteBlocks_of_error hb
  case ok e =>
    by_cases hp : e.ports = []
    case pos =>
      have hb : deleteBlock s ce .ports = .ok (s, .idle) := by
        simp only [deleteBlock, he, bind, Except.bind, hp, if_true]
        rfl
      refine (deleteBlocks_of_ok hb).trans ?_
      simp only [bind, Except.bind, hp, if_true]
      cases ht : s.terminate ce
      case error p =>
        have hb : deleteBlock s ce .idle = .error p := by simp only [deleteBlock, ht]; rfl
        exact deleteBlocks_of_error hb
      case ok s₁ =>
        have hb : deleteBlock s ce .idle =
            .ok (s₁.modifyElem ce ({ · with container := none }), .done) := by
          simp only [deleteBlock, ht]
          rfl
        exact (deleteBlocks_of_ok hb).trans deleteBlocks_done
    case neg =>
      have hb : deleteBlock s ce .ports = .ok (s, .next) := by
        simp only [deleteBlock, he, bind, Except.bind, hp, if_false]
        rfl
      refine (deleteBlocks_of_ok hb).trans ?_
      simp only [bind, Except.bind, hp, if_false]
      cases hn : s.next
      case error p =>
        have hb : deleteBlock s ce .next = .error p := by simp only [deleteBlock, hn]; rfl
        exact deleteBlocks_of_error hb
      case ok q =>
        obtain ⟨s₁, rCe⟩ := q
        have hb : deleteBlock s ce .next = .ok (s₁, .remap rCe) := by
          simp only [deleteBlock, hn]
          rfl
        refine (deleteBlocks_of_ok hb).trans ?_
        obtain ⟨_, _, _, hs₁⟩ := State.next_inv hn
        have he₁ : s₁.elem ce = .ok e := hs₁ ▸ he
        simp only
        -- The ports are still the same in the next two blocks.
        cases hd : deref e.crc2ConnMap
        case error p =>
          have hb : deleteBlock s₁ ce (.remap rCe) = .error p := by
            simp only [deleteBlock, he₁, bind, Except.bind, hd]
          exact deleteBlocks_of_error hb
        case ok u =>
          simp only
          cases hm : s₁.remap ce rCe e.ports
          case error p =>
            have hb : deleteBlock s₁ ce (.remap rCe) = .error p := by
              simp only [deleteBlock, he₁, bind, Except.bind, hd, hm]
            exact deleteBlocks_of_error hb
          case ok s₂ =>
            have hb : deleteBlock s₁ ce (.remap rCe) = .ok (s₂, .merge rCe) := by
              simp only [deleteBlock, he₁, bind, Except.bind, hd, hm]
              rfl
            refine (deleteBlocks_of_ok hb).trans ?_
            obtain ⟨_, _, _, _, _, _, hs₂⟩ := State.remap_inv hm hp
            have he₂ : s₂.elem ce = .ok e := hs₂ ▸ he₁
            have hb : deleteBlock s₂ ce (.merge rCe) = .ok (s₂.merge rCe e.ports, .terminate) := by
              simp only [deleteBlock, he₂]
              rfl
            refine (deleteBlocks_of_ok hb).trans ?_
            simp only
            cases ht : (s₂.merge rCe e.ports).terminate ce
            case error p =>
              have hb : deleteBlock (s₂.merge rCe e.ports) ce .terminate = .error p := by
                simp only [deleteBlock, ht]
                rfl
              exact deleteBlocks_of_error hb
            case ok s₃ =>
              have hb : deleteBlock (s₂.merge rCe e.ports) ce .terminate = .ok (s₃, .done) := by
                simp only [deleteBlock, ht]
                rfl
              exact deleteBlocks_of_ok hb

-- The blocks of a `Delete` that is not interrupted are `State.delete`.
theorem deleteBlocks_eq_delete (s : State) (ce : ElemId) :
    deleteBlocks s ce .unlink 7 = do
      let (s, _) ← s.delete ce
      return (s, .done) := by
  rw [State.delete]
  cases hu : s.unlink ce
  case error p =>
    have hb : deleteBlock s ce .unlink = .error p := by simp only [deleteBlock, hu]; rfl
    exact deleteBlocks_of_error hb
  case ok q =>
    obtain ⟨s₁, b⟩ := q
    cases b
    case false =>
      have hb : deleteBlock s ce .unlink = .ok (s₁, .done) := by simp only [deleteBlock, hu]; rfl
      exact (deleteBlocks_of_ok hb).trans deleteBlocks_done
    case true =>
      have hb : deleteBlock s ce .unlink = .ok (s₁, .clear) := by simp only [deleteBlock, hu]; rfl
      refine (deleteBlocks_of_ok hb).trans ?_
      simp only [bind, Except.bind, if_true]
      cases hc : s₁.clear ce
      case error p =>
        have hb : deleteBlock s₁ ce .clear = .error p := by simp only [deleteBlock, hc]; rfl
        exact deleteBlocks_of_error hb
      case ok s₂ =>
        have hb : deleteBlock s₁ ce .clear = .ok (s₂, .ports) := by simp only [deleteBlock, hc]; rfl
        exact (deleteBlocks_of_ok hb).trans (deleteBlocks_eq_handOver s₂ ce)

theorem deleteBlock_inv (h : deleteBlock s ce pc = .ok (s', pc')) : DeleteBlocked s ce pc s' pc' := by
  cases pc <;>
    simp only [deleteBlock, bind_eq_ok, State.elem_eq_ok, pure_eq_ok, Prod.exists, Prod.mk.injEq] at h
  case unlink =>
    have ⟨_, b, hu, hs, hpc⟩ := h
    subst hs hpc
    cases b
    case true  => exact .unlink (State.unlink_inv hu)
    case false => exact .gone (State.unlink_inv hu)
  case clear =>
    have ⟨_, hc, hs, hpc⟩ := h
    subst hs hpc
    exact .clear hc
  case ports =>
    have ⟨e, he, hs, hpc⟩ := h
    subst hs hpc
    split
    case isTrue hp  => exact .free he hp
    case isFalse hp => exact .ports he hp
  case next =>
    have ⟨_, _, hn, hs, hpc⟩ := h
    subst hs hpc
    exact .next hn
  case remap =>
    have ⟨_, he, _, _, _, hm, hs, hpc⟩ := h
    subst hs hpc
    exact .remap he hm
  case merge =>
    have ⟨_, he, hs, hpc⟩ := h
    subst hs hpc
    exact .merge he
  case terminate =>
    have ⟨_, ht, hs, hpc⟩ := h
    have ⟨_, _, _, _, _, _, _, _, ht⟩ := State.terminate_inv ht
    subst hs hpc ht
    exact .terminate
  case idle =>
    have ⟨_, ht, hs, hpc⟩ := h
    have ⟨_, _, _, _, _, _, _, _, ht⟩ := State.terminate_inv ht
    subst hs hpc ht
    exact .idle
  case done =>
    have ⟨hs, hpc⟩ := h
    subst hs hpc
    exact .done

end Blocks

namespace Threads

inductive Stepped (t : Threads) : Op → Threads → List Event → Prop
  | idle :
    Stepped t op t []
  | add {cnt : Container} :
    (conn = if dialed then some t.pool.elems.size else none) →
    (State.Added { t.pool with containers := t.pool.containers.alloc cnt } conn
      (some t.pool.containers.size) s) →
    Stepped t (.add dialed addr cntId repl maxFluxes) { t with pool := s } []
  | get :
    Stepped t (.get crc) { t with gets := t.gets ++ [⟨crc, .lookup⟩] } []
  | delete :
    Stepped t (.delete ce) { t with deletes := t.deletes ++ [⟨ce, .unlink⟩] } []
  | runGet :
    (t.gets[i]? = some c) → (block t.pool c.crc c.pc = .ok (s, pc)) →
    Stepped t (.runGet i) { t with pool := s, gets := t.gets.set i { c with pc := pc } }
      (recorded t.pool c)
  | runDelete :
    (t.deletes[i]? = some d) → (DeleteBlocked t.pool d.ce d.pc s pc) →
    Stepped t (.runDelete i) { t with pool := s, deletes := t.deletes.set i { d with pc := pc } } []
  | check :
    (t.pool.watchers[i]? = some w) → (t.pool.expired w) →
    Stepped t (.check i) { t with
      pool     := { t.pool with watchers := t.pool.watchers.eraseIdx i }
      expiring := t.expiring ++ [⟨w, false⟩] } []
  | count :
    (t.expiring[i]? = some x) →
    Stepped t (.expire i) { t with
      pool     := { t.pool with containers := cs }
      expiring := t.expiring.set i { x with counted := true } } []
  | remove :
    (t.expiring[i]? = some x) →
    Stepped t (.expire i) { t with
      pool     := t.pool.forget x.watcher
      expiring := t.expiring.eraseIdx i } [.removed x.watcher.crc t.pool.clock]
  | stop :
    Stepped t (.stop i) { t with
      pool := { t.pool with watchers := t.pool.watchers.eraseIdx i } } []
  | wait :
    Stepped t (.wait d) { t with pool := { t.pool with clock := t.pool.clock + d } } []

variable {t t' : Threads} {s s' : State} {op : Op} {evs : List Event}

theorem expire_inv (h : t.expire i = .ok (t', evs)) : Stepped t (.expire i) t' evs := by
  simp only [expire] at h
  split at h
  case h_1 =>
    cases h
    exact .idle
  case h_2 x hx =>
    simp only [bind_eq_ok, Prod.exists] at h
    have ⟨s, x', hb, h⟩ := h
    simp only [expiryBlock] at hb
    split at hb
    case isTrue hc =>
      simp only [bind_eq_ok, pure_eq_ok, Prod.mk.injEq] at hb
      have ⟨_, _, hs, hx'⟩ := hb
      subst hs hx'
      cases h
      exact .remove hx
    case isFalse hc =>
      simp only [bind_eq_ok, pure_eq_ok, Prod.mk.injEq] at hb
      have ⟨_, _, _, hd, hs, hx'⟩ := hb
      have ⟨_, _, _, _, hd⟩ := State.updateFluxes_inv hd
      subst hs hx' hd
      cases h
      exact .count hx

theorem step_inv (h : t.step op = .ok (t', evs)) : Stepped t op t' evs := by
  cases op <;> simp only [step, bind_eq_ok, pure_eq_ok, Prod.mk.injEq] at h
  case add =>
    have ⟨_, ha, ht, he⟩ := h
    subst ht he
    exact .add rfl (State.add_inv ha)
  case get =>
    have ⟨ht, he⟩ := h
    subst ht he
    exact .get
  case delete =>
    have ⟨ht, he⟩ := h
    subst ht he
    exact .delete
  case expire => exact expire_inv h
  case wait =>
    have ⟨ht, he⟩ := h
    subst ht he
    exact .wait
  case stop =>
    have ⟨_, hk, ht, he⟩ := h
    subst ht he
    cases State.stop_inv hk
    case inl hs =>
      subst hs
      exact .idle
    case inr hs =>
      subst hs
      exact .stop
  case runGet =>
    simp only [runGet] at h
    split at h
    case h_1 =>
      cases h
      exact .idle
    case h_2 hi =>
      simp only [bind_eq_ok, pure_eq_ok, Prod.exists, Prod.mk.injEq] at h
      have ⟨_, _, hb, ht, he⟩ := h
      subst ht he
      exact .runGet hi hb
  case runDelete =>
    simp only [runDelete] at h
    split at h
    case h_1 =>
      cases h
      exact .idle
    case h_2 hi =>
      simp only [bind_eq_ok, pure_eq_ok, Prod.exists, Prod.mk.injEq] at h
      have ⟨_, _, hb, ht, he⟩ := h
      subst ht he
      exact .runDelete hi (deleteBlock_inv hb)
  case check =>
    simp only [check] at h
    split at h
    case h_1 =>
      cases h
      exact .idle
    case h_2 hi =>
      simp only [bind_eq_ok] at h
      have ⟨_, _, h⟩ := h
      split at h
      case isTrue hx =>
        cases h
        exact .check hi hx
      case isFalse =>
        cases h
        exact .idle

end Threads
end Pool.Concurrent
