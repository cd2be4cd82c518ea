import GatewayModel.Pool.Concurrent.Programs
import GatewayModel.Pool.Theorems.Operations

open Go Execution Locks Locks.Prog

namespace Pool.Locking

section Eval

variable {s : State}

theorem eval_withContainer {x : Program α} :
    (withContainer mode p x).eval s = deref p >>= fun _ => x.eval s := by
  simp only [withContainer, eval_bind, eval_inspect, eval_locked]
  cases deref p <;> rfl

theorem eval_updateFluxes {f : Container → Container} :
    (withContainer mode p (perform fun s => do
      let s ← s.updateFluxes p f
      return (s, ()))).eval s = s.updateFluxes p f >>= fun s => .ok (s, ()) := by
  rw [eval_withContainer, eval_perform]
  cases p <;> rfl

theorem eval_incFluxes : (incFluxes p).eval s = s.incFluxes p >>= fun s => .ok (s, ()) :=
  eval_updateFluxes

theorem eval_decFluxes : (decFluxes p).eval s = s.decFluxes p >>= fun s => .ok (s, ()) :=
  eval_updateFluxes

theorem eval_fastPath {l : State.Lookup} :
    (fastPath l).eval s = s.fastPath l >>= fun b => .ok (s, b) := by
  obtain ⟨conn, container, lock⟩ := l
  match conn, container with
  | none, _           => rfl
  | some _, none      => rfl
  | some _, some none => rfl
  | some _, some (some i) =>
    simp only [fastPath, State.fastPath, getFluxes, getMaxFluxes, eval_bind, eval_withContainer,
      eval_inspect, eval_pure, deref_some, ok_bind]
    cases hc : s.container (some i)
    case error => rfl
    case ok    => simp [hc, ok_bind, Pure.pure, Except.pure]

theorem updateFluxes_elems {s' : State} (h : s.updateFluxes p f = .ok s') : s'.elems = s.elems := by
  have ⟨_, _, _, _, hs⟩ := State.updateFluxes_inv h
  exact hs ▸ rfl

theorem watch_elems {s' : State} (h : s.watch w = .ok s') : s'.elems = s.elems := by
  have ⟨_, hs⟩ := State.watch_inv h
  exact hs ▸ rfl

theorem eval_withContainerOf {f : Option ContainerId → Program α} (he : s.elem ce = .ok e) :
    (withContainerOf ce f).eval s = (f e.container).eval s := by
  simp only [withContainerOf, State.getContainer, eval_bind, eval_inspect, he, ok_bind]
  rfl

-- What `Get` reads again after it has unlocked the mutexes has not changed if it is not interrupted.
theorem eval_assign : (assign crc).eval s = (do
    let (s, cpe) ← s.next
    let s := s.addCrc cpe crc
    let elem ← s.elem cpe
    let sem := s.semaphores
    let s := s.assign crc elem
    let s ← s.incFluxes elem.container
    let s ← s.watch { crc := crc, elem := cpe, origin := .get, timeout := s.fluxMaxAge }
    return (s, { conn := elem.conn, lock := some sem, elem := some cpe })) := by
  simp only [assign, next, addCrc, eval_bind, eval_locked, eval_perform, eval_update, eval_inspect,
    eval_pure]
  cases s.next
  case error => rfl
  case ok r =>
    obtain ⟨s, cpe⟩ := r
    simp only [ok_bind]
    cases he : (s.addCrc cpe crc).elem cpe
    case error => rfl
    case ok elem =>
      have he₁ : ((s.addCrc cpe crc).assign crc elem).elem cpe = .ok elem := he
      simp only [ok_bind, pure_bind, eval_withContainerOf he₁, eval_incFluxes]
      cases hf : ((s.addCrc cpe crc).assign crc elem).incFluxes elem.container
      case error => rfl
      case ok s₂ =>
        simp only [ok_bind]
        cases hw : s₂.watch { crc := crc, elem := cpe, origin := .get, timeout := s₂.fluxMaxAge }
        case error => rfl
        case ok s₃ =>
          have he₃ : s₃.elem cpe = .ok elem := by
            rw [State.elem, watch_elems hw, updateFluxes_elems hf]
            exact he₁
          simp only [ok_bind, pure_bind, he₃]
          rfl

theorem eval_get : (get crc).eval s = s.get crc := by
  simp only [get, eval_bind, eval_locked, eval_inspect, eval_update, ok_bind, eval_fastPath]
  change ((s.touch crc).fastPath (s.lookup crc) >>= _) >>= _ = _
  rw [State.get]
  cases (s.touch crc).fastPath (s.lookup crc)
  case error => rfl
  case ok b =>
    cases b
    case true  => rfl
    case false => exact eval_assign

theorem remap_elems {s' : State} (h : s.remap ce rCe ports = .ok s') : s'.elems = s.elems := by
  induction ports generalizing s
  case nil => cases h; rfl
  case cons port ports hi =>
    simp only [State.remap, bind_eq_ok] at h
    obtain ⟨_, _, s₁, hf, s₂, hw, h⟩ := h
    rw [hi h, watch_elems hw, updateFluxes_elems hf]

theorem eval_derefMap (he : s.elem ce = .ok e) :
    (derefMap ce).eval s = deref e.crc2ConnMap >>= fun _ => .ok (s, ()) := by
  simp only [derefMap, eval_inspect, he, ok_bind]

theorem eval_portsOf (he : s.elem ce = .ok e) : (portsOf ce).eval s = .ok (s, e.ports) := by
  simp only [portsOf, eval_inspect, he, ok_bind]
  rfl

theorem eval_terminate : (terminate ce).eval s = s.terminate ce >>= fun s => .ok (s, ()) :=
  eval_perform

theorem eval_remap (he : s.elem ce = .ok e) (hm : e.crc2ConnMap = some ()) :
    (remap ce rCe ports).eval s = s.remap ce rCe ports >>= fun s => .ok (s, ()) := by
  induction ports generalizing s
  case nil => rfl
  case cons port ports hi =>
    simp only [remap, State.remap, watch, eval_bind, eval_derefMap he, hm, deref_some, ok_bind,
      eval_perform]
    cases hr : s.elem rCe
    case error => rfl
    case ok r =>
      have hr₁ : State.elem { s with crc2conn := s.crc2conn.set port r.conn } rCe = .ok r := hr
      simp only [ok_bind, pure_bind, eval_withContainerOf hr₁, eval_incFluxes]
      cases hf : State.incFluxes { s with crc2conn := s.crc2conn.set port r.conn } r.container
      case error => rfl
      case ok s₂ =>
        simp only [ok_bind]
        cases hw : s₂.watch {
          crc     := port
          elem    := rCe
          origin  := .delete ce
          timeout := State.deleteTimeout
        }
        case error => rfl
        case ok s₃ =>
          refine hi ?_
          rw [State.elem, watch_elems hw, updateFluxes_elems hf]
          exact he

theorem eval_migrate (he : s.elem ce = .ok e) : (migrate ce).eval s = (do
    let (s, rCe) ← s.next
    deref e.crc2ConnMap
    let s ← s.remap ce rCe e.ports
    let s := s.merge rCe e.ports
    let s ← s.terminate ce
    return (s, some rCe)) := by
  simp only [migrate, next, eval_bind, eval_locked, eval_perform, eval_update, eval_lock, eval_unlock,
    eval_pure, eval_terminate]
  cases hn : s.next
  case error => rfl
  case ok r =>
    obtain ⟨s₁, rCe⟩ := r
    have he₁ : s₁.elem ce = .ok e := by
      have ⟨_, _, _, hs⟩ := State.next_inv hn
      exact hs ▸ he
    simp only [ok_bind, eval_derefMap he₁]
    cases hm : e.crc2ConnMap
    case none => rfl
    case some =>
      simp only [deref_some, ok_bind, eval_portsOf he₁, eval_remap he₁ hm]
      cases hr : s₁.remap ce rCe e.ports
      case error => rfl
      case ok s₂ =>
        have he₂ : s₂.elem ce = .ok e := by
          rw [State.elem, remap_elems hr]
          exact he₁
        simp only [ok_bind, eval_derefMap he₂, hm, deref_some, eval_portsOf he₂]
        cases (s₂.merge rCe e.ports).terminate ce <;> rfl

theorem eval_handOver : (handOver ce).eval s = s.handOver ce := by
  simp only [handOver, State.handOver, eval_bind]
  cases he : s.elem ce
  case error =>
    simp only [portsOf, eval_inspect, he]
    rfl
  case ok e =>
    simp only [eval_portsOf he, ok_bind]
    split
    case isTrue hp =>
      simp only [eval_bind, eval_terminate, eval_update]
      cases s.terminate ce <;> rfl
    case isFalse hp => exact eval_migrate he

theorem eval_delete : (delete ce).eval s = s.delete ce := by
  simp only [delete, State.delete, eval_bind, eval_locked, eval_perform]
  cases s.unlink ce
  case error => rfl
  case ok r =>
    obtain ⟨s₁, unlinked⟩ := r
    cases unlinked
    case false => rfl
    case true  =>
      simp only [ok_bind, if_true, eval_bind, eval_locked, eval_perform, eval_handOver]
      cases s₁.clear ce <;> rfl

theorem watcherMap_congr {s' : State} (h : s'.elems = s.elems) : s'.watcherMap w = s.watcherMap w := by
  simp only [State.watcherMap, State.elem, h]

theorem eval_withMap {x : Program α} (hm : s.watcherMap w = .ok ()) (hx : x.eval s = .ok (s', a))
    (hm' : s'.watcherMap w = .ok ()) : (withMap mode w x).eval s = .ok (s', a) := by
  simp only [withMap, eval_bind, eval_inspect, eval_lock, eval_unlock, eval_pure, ok_bind, hm, hx, hm']

theorem eval_timestampOf (hm : s.watcherMap w = .ok ()) :
    (timestampOf w).eval s = .ok (s, s.crcFluxUsageMap w.crc) := by
  refine eval_withMap hm ?_ hm
  simp only [eval_inspect, hm, ok_bind]
  rfl

theorem eval_forget (hm : s.watcherMap w = .ok ()) : (forget w).eval s = .ok (s.forget w, ()) := by
  refine eval_withMap hm ?_ ((watcherMap_congr (State.elems_forget w)).trans hm)
  simp only [eval_perform, hm, ok_bind]
  rfl

theorem eval_expire (hm : s.watcherMap w = .ok ()) : (expire w).eval s = (do
    let e ← s.elem w.elem
    let s ← s.decFluxes e.container
    let s := s.forget w
    return ({ s with watchers := s.watchers.erase w }, ())) := by
  simp only [expire, eval_bind, eval_update]
  cases he : s.elem w.elem
  case error =>
    simp only [withContainerOf, State.getContainer, eval_bind, eval_inspect, he]
    rfl
  case ok e =>
    simp only [ok_bind, eval_withContainerOf he, eval_decFluxes]
    cases hf : s.decFluxes e.container
    case error => rfl
    case ok s₁ =>
      have hm₁ : s₁.watcherMap w = .ok () := (watcherMap_congr (updateFluxes_elems hf)).trans hm
      simp only [ok_bind, eval_forget hm₁]
      rfl

theorem eval_tick (hw : s.watchers[i]? = some w) (hi : s.watchers.idxOf w = i) :
    (tick w).eval s = s.tick i >>= fun s => .ok (s, ()) := by
  simp only [tick, State.tick, hw, eval_bind]
  cases hm : s.watcherMap w
  case error =>
    simp only [timestampOf, withMap, eval_bind, eval_inspect, hm]
    rfl
  case ok =>
    have hx : s.expired w = (s.crcFluxUsageMap w.crc).any fun t => s.clock - t > w.timeout := by
      unfold State.expired
      split
      case h_1 h => simp [h]
      case h_2 h => simp [h]
    simp only [eval_timestampOf hm, eval_inspect, ok_bind, Pure.pure, Except.pure, hx]
    split
    case isFalse => rfl
    case isTrue  =>
      rw [eval_expire hm]
      cases s.elem w.elem
      case error => rfl
      case ok e =>
        simp only [ok_bind]
        cases hf : s.decFluxes e.container
        case error => rfl
        case ok s₁ =>
          have hws : (s₁.forget w).watchers = s.watchers := by
            obtain ⟨_, _, _, _, hs⟩ := State.updateFluxes_inv hf
            rw [State.watchers_forget, hs]
          simp only [ok_bind, hws, ← hi, List.eraseIdx_idxOf_eq_erase]
          rfl

theorem eval_stop (hw : s.watchers[i]? = some w) (hi : s.watchers.idxOf w = i) :
    (stop w).eval s = s.stop i >>= fun s => .ok (s, ()) := by
  simp only [stop, State.stop, hw, eval_perform]
  cases s.elem w.elem
  case error => rfl
  case ok e =>
    simp only [ok_bind, ← hi, List.eraseIdx_idxOf_eq_erase]
    split <;> rfl

end Eval

section Ordered

-- The mutex of a container may be taken while the one of the flow table is held.
def rank : Mutex → Nat
  | .crc2ConnMap | .connPool => 0
  | .container _             => 1

theorem ordered_withContainer {x : Program α} (hh : ∀ h ∈ held, rank h.2 = 0)
    (hx : ∀ held, x.Ordered rank held held) : (withContainer mode p x).Ordered rank held held := by
  refine .bind .inspect fun i => .locked (fun h hm => ?_) (hx _)
  rw [hh h hm]
  exact Nat.zero_lt_one

theorem ordered_withContainerOf {f : Option ContainerId → Program α}
    (hf : ∀ p, (f p).Ordered rank held held) : (withContainerOf ce f).Ordered rank held held :=
  .bind .inspect hf

theorem ordered_incFluxes (hh : ∀ h ∈ held, rank h.2 = 0) (p : Option ContainerId) :
    (incFluxes p).Ordered rank held held :=
  ordered_withContainer hh fun _ => .perform

theorem ordered_locked {x : Program α} (hx : ∀ held, x.Ordered rank held held) :
    (locked mode m x).Ordered rank [] [] :=
  .locked (by simp) (hx _)

theorem ordered_next : next.Ordered rank [] [] :=
  ordered_locked fun _ => .perform

theorem ordered_fastPath : (fastPath l).Ordered rank [] [] := by
  unfold fastPath
  split
  case h_1 =>
    refine .bind (ordered_withContainer (by simp) fun _ => .inspect) fun fluxes => ?_
    exact .bind .inspect fun maxFluxes => .pure
  case h_2 => exact .pure

theorem ordered_assign : (assign crc).Ordered rank [] [] := by
  refine .bind ordered_next fun cpe => .bind (ordered_locked fun _ => .update) fun _ => ?_
  refine .bind (ordered_locked fun _ => .perform) fun sem => ?_
  refine .bind (ordered_withContainerOf (ordered_incFluxes (by simp))) fun _ => ?_
  exact .bind .perform fun _ => .bind .inspect fun _ => .pure

theorem ordered_get : (get crc).Ordered rank [] [] := by
  refine .bind (ordered_locked fun _ => .inspect) fun l => ?_
  refine .bind (ordered_locked fun _ => .update) fun _ => .bind ordered_fastPath fun b => ?_
  cases b
  case true  => exact .pure
  case false => exact ordered_assign

theorem ordered_withMap {x : Program α} (hx : ∀ held, x.Ordered rank held held) :
    (withMap mode w x).Ordered rank [] [] := by
  refine .bind .inspect fun _ => .bind (.lock (by simp)) fun _ => .bind (hx _) fun _ => ?_
  exact .bind .inspect fun _ => .bind .unlock fun _ => .pure

theorem ordered_tick : (tick w).Ordered rank [] [] := by
  refine .bind (ordered_withMap fun _ => .inspect) fun timestamp => .bind .inspect fun now => ?_
  split
  case isFalse => exact .pure
  case isTrue  =>
    have hd : ∀ p, (decFluxes p).Ordered rank [] [] :=
      fun _ => ordered_withContainer (by simp) fun _ => .perform
    refine .bind (ordered_withContainerOf hd) fun _ => ?_
    exact .bind (ordered_withMap fun _ => .perform) fun _ => .update

theorem ordered_remap (hh : ∀ h ∈ held, rank h.2 = 0) : (remap ce rCe ports).Ordered rank held held := by
  induction ports
  case nil => exact .pure
  case cons port ports hi =>
    refine .bind .inspect fun _ => .bind .perform fun _ => ?_
    exact .bind (ordered_withContainerOf (ordered_incFluxes hh)) fun _ => .bind .perform fun _ => hi

theorem ordered_migrate : (migrate ce).Ordered rank [] [] := by
  refine .bind ordered_next fun rCe => .bind .inspect fun _ => .bind (.lock (by simp)) fun _ => ?_
  refine .bind .inspect fun ports => .bind (ordered_remap (by simp [rank])) fun _ => ?_
  refine .bind .inspect fun _ => .bind .unlock fun _ => ?_
  refine .bind (ordered_locked fun _ => .bind .inspect fun _ => .update) fun _ => ?_
  exact .bind .perform fun _ => .pure

theorem ordered_delete : (delete ce).Ordered rank [] [] := by
  refine .bind (ordered_locked fun _ => .perform) fun unlinked => ?_
  split
  case isFalse => exact .pure
  case isTrue  =>
    refine .bind (ordered_locked fun _ => .perform) fun _ => .bind .inspect fun ports => ?_
    split
    case isTrue  => exact .bind .perform fun _ => .bind .update fun _ => .pure
    case isFalse => exact ordered_migrate

theorem ordered_program (c : Call) : c.program.Ordered rank [] [] := by
  cases c
  case get          => exact .bind ordered_get fun _ => .pure
  case next         => exact .bind ordered_next fun _ => .pure
  case delete       => exact .bind ordered_delete fun _ => .pure
  case tick         => exact ordered_tick
  case add          => exact ordered_locked fun _ => .perform
  case addCrc       => exact ordered_locked fun _ => .update
  case isAlive      => exact .bind (ordered_locked fun _ => .inspect) fun _ => .pure
  case isRepl       => exact .bind (ordered_locked fun _ => .inspect) fun _ => .pure
  case getContainer => exact .bind (ordered_locked fun _ => .inspect) fun _ => .pure
  case getStopChan  => exact .bind (ordered_locked fun _ => .inspect) fun _ => .pure
  case stop         => exact .perform
  case wait         => exact .update

end Ordered

abbrev Step := Steps (World.step Call.program)

section Atomic

inductive Performs (s : State) : Pool.Op → Call → Prop
  | add    : Performs s (.add conn addr cntId repl maxFluxes) (.add conn addr cntId repl maxFluxes)
  | next   : Performs s .next .next
  | get    : Performs s (.get crc) (.get crc)
  | delete : Performs s (.delete ce) (.delete ce)
  | tick   : (s.watchers[i]? = some w) → (s.watchers.idxOf w = i) → Performs s (.tick i) (.tick w)
  | stop   : (s.watchers[i]? = some w) → (s.watchers.idxOf w = i) → Performs s (.stop i) (.stop w)
  | wait   : Performs s (.wait d) (.wait d)

theorem eval_program {s s' : State} (hc : Performs s op c) (hs : s.step op = .ok (s', tr)) :
    c.program.eval s = .ok (s', ()) := by
  cases hc <;> simp only [State.step, bind_eq_ok, pure_eq_ok, Prod.exists, Prod.mk.injEq] at hs
  case add =>
    obtain ⟨_, ha, hs, _⟩ := hs
    simp [Call.program, add, ha, hs]
  case next =>
    obtain ⟨_, _, hn, hs, _⟩ := hs
    simp [Call.program, next, hn, ok_bind, hs]
  case get =>
    obtain ⟨_, _, hg, hs, _⟩ := hs
    simp [Call.program, eval_get, hg, ok_bind, hs]
  case delete =>
    obtain ⟨_, _, hd, hs, _⟩ := hs
    simp [Call.program, eval_delete, hd, ok_bind, hs]
  case tick hw hi =>
    obtain ⟨_, ht, hs, _⟩ := hs
    simp [Call.program, eval_tick hw hi, ht, ok_bind, hs]
  case stop hw hi =>
    obtain ⟨_, ht, hs, _⟩ := hs
    simp [Call.program, eval_stop hw hi, ht, ok_bind, hs]
  case wait =>
    simp [Call.program, hs.left]

-- A call that is not interrupted does what the atomic operation does.
theorem exists_run_of_step {w : World State Mutex} (hc : Performs w.state op c)
    (hs : w.state.step op = .ok (s', tr)) (hh : ∀ t ∈ w.threads, t.held = []) :
    ∃ ls, Run Step w ls ⟨s', w.threads ++ [⟨[], .ret ()⟩]⟩ := by
  have ha : World.Alone ⟨w.state, w.threads ++ [⟨[], c.program⟩]⟩ w.threads.length := by
    intro j t hj ht
    have hlt := (List.getElem?_eq_some_iff.mp ht).fst
    simp only [List.length_append, List.length_singleton] at hlt
    rw [List.getElem?_append_left (by omega)] at ht
    exact hh t (List.mem_of_getElem? ht)
  have ⟨ls, h⟩ : ∃ ls, Run Step ⟨w.state, w.threads ++ [⟨[], c.program⟩]⟩ ls ⟨s', _⟩ :=
    World.exists_run_of_eval (ordered_program c) (eval_program hc hs) (by simp) ha
  refine ⟨(.start c, ()) :: ls, .head rfl ?_⟩
  simpa using h

end Atomic

-- In every interleaving of any number of calls, no goroutine waits, directly or through other waiting
-- goroutines, for a mutex that it holds, and a goroutine that has returned holds no mutex. As long as
-- there are goroutines that have not returned, one of them does not wait for a mutex that is held.
theorem mutexes_deadlock_free (h : Run Step (.init (.init age)) ls w) :
    (∀ i, ¬ Relation.TransGen w.WaitsFor i i) ∧
    (∀ t ∈ w.threads, (t.returned) → ∀ m, ¬ t.Holds m) ∧
    (∀ t ∈ w.threads, (¬ t.returned) →
      ∃ u ∈ w.threads, ¬ u.returned ∧ ∀ m, (u.Waits m) → ∀ v ∈ w.threads, ¬ v.Holds m) := by
  have ho := World.Ordered.of_run ordered_program h
  refine ⟨ho.acyclic, fun t ht hr m hh => ?_, fun t ht hr => ho.progress ht hr⟩
  have ⟨_, hl, _⟩ := hh
  simp [ho.held_of_returned ht hr] at hl

-- A `Delete` with the mutex of the flow table waits for the one of container 1, which a `Get` holds,
-- while another `Get` waits for the mutex of the flow table.
theorem mutexes_deadlock_free_chain :
    ∃ ls w, Run Step (.init (.init 5)) ls w ∧
      w.threads.map (·.awaited) =
        [none, none, none, none, some (.container 1), some .crc2ConnMap] ∧
      w.threads.map (·.held) =
        [[], [], [], [(.write, .container 1)], [(.write, .crc2ConnMap)], []] ∧
      (∀ i, ¬ Relation.TransGen w.WaitsFor i i) ∧
      (∀ t ∈ w.threads, (t.returned) → ∀ m, ¬ t.Holds m) ∧
      (∀ t ∈ w.threads, (¬ t.returned) →
        ∃ u ∈ w.threads, ¬ u.returned ∧ ∀ m, (u.Waits m) → ∀ v ∈ w.threads, ¬ v.Holds m) := by
  have ⟨w, ls, h, ht⟩ : ∃ w ls, Run Step (.init (.init 5)) ls w ∧
      decide (w.threads.map (·.awaited) =
          [none, none, none, none, some (.container 1), some .crc2ConnMap] ∧
        w.threads.map (·.held) =
          [[], [], [], [(.write, .container 1)], [(.write, .crc2ConnMap)], []]) = true :=
    Run.of_passes (
      [.start (.add (some 0) (some 0) 0 false 10)] ++ List.replicate 3 (.run 0) ++
      [.start (.add (some 1) (some 1) 1 false 10)] ++ List.replicate 3 (.run 1) ++
      [.start (.get 7)] ++ List.replicate 22 (.run 2) ++
      [.start (.get 8)] ++ List.replicate 18 (.run 3) ++
      [.start (.delete 0)] ++ List.replicate 17 (.run 4) ++
      [.start (.get 7)]) (by decide +kernel)
  have ⟨h₁, h₂⟩ := of_decide_eq_true ht
  exact ⟨ls, w, h, h₁, h₂, mutexes_deadlock_free h⟩

end Pool.Locking
