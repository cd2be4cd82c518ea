import GatewayModel.Pool.Concurrent.Threads

open Go Execution

-- Calls that do not overlap. What their goroutines do, block after block, is what the atomic operations
-- do, whatever other goroutines have left unfinished.
namespace Pool.Concurrent

inductive SerialOp
  | add (dialed : Bool) (addr : Option UInt32) (id : UInt16) (repl : Bool) (maxFluxes : Int8)
  | get (crc : Crc)
  | delete (ce : ElemId)
  | tick (i : Nat)
  | stop (i : Nat)
  | wait (d : Nat)
  deriving Repr, DecidableEq

namespace SerialOp

def atomic (s : State) : SerialOp → Pool.Op
  | .add dialed addr id repl maxFluxes =>
    .add (if dialed then some s.elems.size else none) addr id repl maxFluxes
  | .get crc   => .get crc
  | .delete ce => .delete ce
  | .tick i    => .tick i
  | .stop i    => .stop i
  | .wait d    => .wait d

def schedule (gets deletes expiring : Nat) : SerialOp → List Threads.Op
  | .add dialed addr id repl maxFluxes => [.add dialed addr id repl maxFluxes]
  | .get crc   => .get crc :: List.replicate 8 (.runGet gets)
  | .delete ce => .delete ce :: List.replicate 7 (.runDelete deletes)
  | .tick i    => [.check i, .expire expiring, .expire expiring]
  | .stop i    => [.stop i]
  | .wait d    => [.wait d]

def returned (s : State) : SerialOp → List Call
  | .get crc =>
    match s.get crc with
    | .ok (_, reply) => [⟨crc, .done reply.conn reply.lock⟩]
    | .error _       => []
  | _ => []

def deleted : SerialOp → List Deletion
  | .delete ce => [⟨ce, .done⟩]
  | _          => []

def step (s : State) (op : SerialOp) : Result (State × List Call) :=
  (s.step (op.atomic s)).map fun r => (r.1, op.returned s)

def gets : SerialOp → Nat
  | .get _ => 1
  | _      => 0

def schedules (gets deletes expiring : Nat) : List SerialOp → List Threads.Op
  | []        => []
  | op :: ops => op.schedule gets deletes expiring ++
    schedules (gets + op.gets) (deletes + op.deleted.length) expiring ops

theorem length_returned {op : SerialOp} (h : op.step s = .ok (s', calls)) : calls.length = op.gets := by
  cases op
  case get crc =>
    simp only [step, atomic, State.step, returned] at h
    cases hg : s.get crc <;> simp only [hg] at h <;> cases h
    rfl
  all_goals
    rw [step] at h
    cases hs : s.step _ <;> rw [hs] at h <;> cases h
    rfl

end SerialOp

namespace Threads

variable (t : Threads)

theorem after_runGet (s : State) (gets : List Call) (crc : Crc) (pc : Pc) (n : Nat) :
    after step { t with pool := s, gets := gets ++ [⟨crc, pc⟩] } (.replicate n (.runGet gets.length)) =
      (blocks s crc pc n).map fun r => { t with pool := r.1, gets := gets ++ [⟨crc, r.2⟩] } := by
  induction n generalizing s pc
  case zero => rfl
  case succ n hi =>
    rw [List.replicate_succ, after_cons]
    cases hb : block s crc pc
    case error p =>
      rw [blocks_of_error hb]
      simp [step, runGet, hb, bind, Except.bind, Except.map]
    case ok r =>
      rw [blocks_of_ok hb, ← hi]
      simp [step, runGet, hb, bind, Except.bind, pure, Except.pure]

theorem after_runDelete (s : State) (deletes : List Deletion) (ce : ElemId) (pc : DeletePc) (n : Nat) :
    after step { t with pool := s, deletes := deletes ++ [⟨ce, pc⟩] }
        (.replicate n (.runDelete deletes.length)) =
      (deleteBlocks s ce pc n).map fun r =>
        { t with pool := r.1, deletes := deletes ++ [⟨ce, r.2⟩] } := by
  induction n generalizing s pc
  case zero => rfl
  case succ n hi =>
    rw [List.replicate_succ, after_cons]
    cases hb : deleteBlock s ce pc
    case error p =>
      rw [deleteBlocks_of_error hb]
      simp [step, runDelete, hb, bind, Except.bind, Except.map]
    case ok r =>
      rw [deleteBlocks_of_ok hb, ← hi]
      simp [step, runDelete, hb, bind, Except.bind, pure, Except.pure]

theorem expire_length : t.expire t.expiring.length = .ok (t, []) := by
  simp [expire, pure, Except.pure]

theorem after_expire (s : State) (w : Watcher) :
    after step { t with pool := s, expiring := t.expiring ++ [⟨w, false⟩] }
        [.expire t.expiring.length, .expire t.expiring.length] =
      (do
        let e ← s.elem w.elem
        let s ← s.decFluxes e.container
        s.watcherMap w
        return s.forget w : Result State).map fun s => { t with pool := s } := by
  rw [after_cons]
  cases he : s.elem w.elem
  case error p => simp [step, expire, expiryBlock, he, bind, Except.bind, Except.map]
  case ok e =>
    cases hd : s.decFluxes e.container
    case error p => simp [step, expire, expiryBlock, he, hd, bind, Except.bind, Except.map]
    case ok s₁ =>
      cases hm : s₁.watcherMap w <;>
        simp [after, exec, step, expire, expiryBlock, he, hd, hm, bind, Except.bind, pure, Except.pure,
          Except.map, List.eraseIdx_append_of_length_le]

theorem tick_of_expired {s : State} (hw : s.watchers[i]? = some w) (hm : s.watcherMap w = .ok ())
    (hx : s.expired w) :
    s.tick i = do
      let s : State := { s with watchers := s.watchers.eraseIdx i }
      let e ← s.elem w.elem
      let s ← s.decFluxes e.container
      s.watcherMap w
      return s.forget w := by
  have he : { s with watchers := s.watchers.eraseIdx i }.elem w.elem = s.elem w.elem := rfl
  simp only [State.tick, hw, hm, hx, he, ok_bind, if_true]
  cases s.elem w.elem
  case error => rfl
  case ok e =>
    simp only [ok_bind, State.decFluxes, State.updateFluxes]
    have hc : { s with watchers := s.watchers.eraseIdx i }.container e.container =
        s.container e.container := rfl
    rw [hc]
    cases s.container e.container
    case error => rfl
    case ok c =>
      have hm' : { s with
          watchers   := s.watchers.eraseIdx i
          containers := e.container.elim s.containers (s.containers.modify · .decFluxes)
        }.watcherMap w = .ok () := hm
      simp only [ok_bind, pure, Except.pure, State.forget] at hm' ⊢
      rw [hm']
      cases w.origin <;> rfl

theorem after_tick (i : Nat) :
    after step t [.check i, .expire t.expiring.length, .expire t.expiring.length] =
      (t.pool.tick i).map fun s => { t with pool := s } := by
  have hidle : after step t [.expire t.expiring.length, .expire t.expiring.length] = .ok t := by
    simp [after, exec, step, expire_length, Except.map]
  rw [after_cons, State.tick]
  cases hw : t.pool.watchers[i]?
  case none =>
    have hc : t.step (.check i) = .ok (t, []) := by simp [step, check, hw, pure, Except.pure]
    rw [hc]
    exact hidle
  case some w =>
    cases hm : t.pool.watcherMap w
    case error p => simp [step, check, hw, hm, bind, Except.bind, Except.map]
    case ok =>
      by_cases hx : t.pool.expired w
      case neg =>
        have hc : t.step (.check i) = .ok (t, []) := by
          simp [step, check, hw, hm, hx, bind, Except.bind, pure, Except.pure]
        rw [hc]
        simpa [hm, hx, bind, Except.bind, pure, Except.pure, Except.map] using hidle
      case pos =>
        have hc : t.step (.check i) = .ok ({ t with
            pool     := { t.pool with watchers := t.pool.watchers.eraseIdx i }
            expiring := t.expiring ++ [⟨w, false⟩] }, []) := by
          simp [step, check, hw, hm, hx, bind, Except.bind, pure, Except.pure]
        rw [hc]
        refine (t.after_expire _ w).trans ?_
        rw [← tick_of_expired hw hm hx, State.tick, hw]

theorem after_schedule (op : SerialOp) :
    after step t (op.schedule t.gets.length t.deletes.length t.expiring.length) =
      (op.step t.pool).map fun r =>
        { t with pool := r.1, gets := t.gets ++ r.2, deletes := t.deletes ++ op.deleted } := by
  cases op
  case add dialed addr id repl maxFluxes =>
    simp only [SerialOp.schedule, SerialOp.step, SerialOp.atomic, after_cons, step, State.step]
    cases t.pool.register (if dialed then some t.pool.elems.size else none) addr id repl maxFluxes <;>
      simp [bind, Except.bind, pure, Except.pure, Except.map, SerialOp.returned, SerialOp.deleted, after,
        exec]
  case get crc =>
    have hg := t.after_runGet t.pool t.gets crc .lookup 8
    rw [blocks_eq_get] at hg
    rw [SerialOp.schedule, after_cons]
    refine hg.trans ?_
    simp only [SerialOp.step, SerialOp.atomic, State.step, SerialOp.returned, SerialOp.deleted]
    cases t.pool.get crc <;> simp [bind, Except.bind, pure, Except.pure, Except.map]
  case delete ce =>
    have hd := t.after_runDelete t.pool t.deletes ce .unlink 7
    rw [deleteBlocks_eq_delete] at hd
    rw [SerialOp.schedule, after_cons]
    refine hd.trans ?_
    simp only [SerialOp.step, SerialOp.atomic, State.step, SerialOp.returned, SerialOp.deleted]
    cases t.pool.delete ce <;> simp [bind, Except.bind, pure, Except.pure, Except.map]
  case tick i =>
    rw [SerialOp.schedule, after_tick]
    simp only [SerialOp.step, SerialOp.atomic, State.step, SerialOp.returned, SerialOp.deleted]
    cases t.pool.tick i <;> simp [bind, Except.bind, pure, Except.pure, Except.map]
  case stop i =>
    simp only [SerialOp.schedule, SerialOp.step, SerialOp.atomic, after_cons, step, State.step]
    cases t.pool.stop i <;>
      simp [bind, Except.bind, pure, Except.pure, Except.map, SerialOp.returned, SerialOp.deleted, after,
        exec]
  case wait d =>
    simp [SerialOp.schedule, SerialOp.step, SerialOp.atomic, after, exec, step, State.step,
      pure, Except.pure, Except.map, SerialOp.returned, SerialOp.deleted]

-- Calls that do not overlap have the effect of the atomic operations in the same order: they leave the
-- same flow table and return the same connections and semaphores, or panic as these do.
theorem serial_calls (ops : List SerialOp) :
    after step t (SerialOp.schedules t.gets.length t.deletes.length t.expiring.length ops) =
      (exec SerialOp.step t.pool ops).map fun r => { t with
        pool    := r.1
        gets    := t.gets ++ r.2.flatMap (·.2)
        deletes := t.deletes ++ ops.flatMap (·.deleted)
      } := by
  induction ops generalizing t
  case nil => simp [SerialOp.schedules, after, exec, Except.map]
  case cons op ops hi =>
    rw [SerialOp.schedules, after_append, after_schedule]
    simp only [exec]
    cases h : op.step t.pool
    case error => rfl
    case ok r =>
      obtain ⟨s, calls⟩ := r
      have hs := hi { t with pool := s, gets := t.gets ++ calls, deletes := t.deletes ++ op.deleted }
      rw [List.length_append, List.length_append, SerialOp.length_returned h] at hs
      refine hs.trans ?_
      cases he : exec SerialOp.step s ops <;> simp [he, Except.map]

end Threads
end Pool.Concurrent
