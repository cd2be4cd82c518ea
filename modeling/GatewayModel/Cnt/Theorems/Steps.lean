import GatewayModel.Cnt.Provisioner

open Go Execution Pool

namespace Cnt.Sys

inductive Moves (inst : Instance) : WorkerOp → Instance → Prop
  | create (hpc : inst.pc = .creating periodic n) :
    Moves inst (.create cntId)
      { inst with cntIdMap := inst.cntIdMap.insert cntId, pc := .adding periodic n cntId }
  | created (hpc : inst.pc = .creating periodic n) :
    Moves inst .proceed { inst with pc := .select }
  | tick (hpc : inst.pc = .select) :
    Moves inst .tick { inst with pc := if inst.size ≤ 0 then .returned else .creating true 0 }
  | receive (hpc : inst.pc = .select) (hq : inst.decChan.receive = some (cntId, decChan))
    (hm : cntId ∈ inst.cntIdMap) :
    Moves inst .receive { inst with
      decChan  := decChan
      cntIdMap := inst.cntIdMap.erase cntId
      pc       := .removing cntId
    }
  | ignore (hpc : inst.pc = .select) (hq : inst.decChan.receive = some (cntId, decChan)) :
    Moves inst .receive { inst with decChan := decChan }

inductive Scans (s : Sys) : ScanOp → Scan → Prop
  | skip (hsc : s.scan = .next delta rest) (hi : rest[i]? = some cntId) (hc : s.c2e.get cntId = none) :
    Scans s (.produce i) (.next delta (rest.eraseIdx i))
  | produce (hsc : s.scan = .next delta rest) (hi : rest[i]? = some cntId)
    (hc : s.c2e.get cntId = some connElem) :
    Scans s (.produce i) (.isAlive delta (rest.eraseIdx i) cntId connElem)
  | finish (hsc : s.scan = .next delta []) :
    Scans s .proceed .idle
  | alive (hsc : s.scan = .isAlive delta rest cntId connElem) :
    Scans s .proceed (.isRepl delta rest cntId connElem)
  | notAlive (hsc : s.scan = .isAlive delta rest cntId connElem) :
    Scans s .proceed (.isAliveAgain delta rest cntId connElem)
  | repl (hsc : s.scan = .isRepl delta rest cntId connElem) :
    Scans s .proceed (.isAliveAgain delta rest cntId connElem)
  | keep (hsc : s.scan = .isAliveAgain delta rest cntId connElem) :
    Scans s .proceed (.next delta rest)
  | select (hsc : s.scan = .isRepl delta rest cntId connElem)
    (hr : s.registry.pool.isRepl connElem = .ok false) (hp : s.c2p cntId = some inst) :
    Scans s .proceed (.send delta rest cntId inst)

inductive Drops (s : Sys) : UInt16 → Scan → Prop
  | noInstance (hsc : s.scan = .isRepl delta rest cntId connElem)
    (hr : s.registry.pool.isRepl connElem = .ok false) (hp : s.c2p cntId = none) :
    Drops s cntId (.next delta rest)
  | dead (hsc : s.scan = .isAliveAgain delta rest cntId connElem)
    (ha : s.registry.pool.isAlive connElem = false) :
    Drops s cntId (.next delta rest)

inductive Stepped (s : Sys) : Op → Sys → Calls → Prop
  | traffic (hg : s.registry.step (.pool op.toOp) = .ok (g, tr)) :
    Stepped s (.traffic op) { s with registry := g } [(.pool op.toOp, tr)]
  | register (hg : s.registry.step (.pool (.add conn addr cntId repl maxFluxes)) = .ok (g, tr)) :
    Stepped s (.register conn addr cntId repl maxFluxes)
      { s with
        registry := g
        handlers := s.handlers ++
          [⟨cntId, s.registry.pool.elems.size, s.registry.pool.containers.size⟩]
      }
      [(.pool (.add conn addr cntId repl maxFluxes), tr)]
  | addConnElem (hh : s.handlers[i]? = some h) (hsc : s.scan = .idle) :
    Stepped s (.addConnElem i)
      { s with
        c2e      := s.c2e.set h.cntId h.connElem
        c2l      := s.c2l.set h.cntId ()
        handlers := s.handlers.eraseIdx i
        timers   := ts
      } []
  | timer (hop : op ≠ .fire) : Stepped s (.timer i op) { s with timers := ts } []
  | timerFire (hg : s.registry.step (.removeContainer cnt) = .ok (g, tr)) :
    Stepped s (.timer i .fire) { s with registry := g, timers := ts } [(.removeContainer cnt, tr)]
  | timerDelete (hg : s.registry.step (.pool (.delete connElem)) = .ok (g, tr)) :
    Stepped s (.timer i .delete) { s with registry := g, timers := ts }
      [(.pool (.delete connElem), tr)]
  | creator : Stepped s (.creator op) { s with creator := c } []
  | creatorAdd (hsc : s.scan = .idle) :
    Stepped s (.creator .proceed) { s with c2p := s.c2p.set cntId 0, creator := c } []
  | move (hl : s.instances.load i = some inst) (hm : Moves inst op inst') :
    Stepped s (.worker i op) (s.setInst i inst') []
  | addInstance (hl : s.instances.load i = some inst) (hpc : inst.pc = .adding periodic n cntId)
    (hsc : s.scan = .idle) :
    Stepped s (.worker i .proceed) ({ s with c2p := s.c2p.set cntId i }.setInst i { inst with
      pc := if periodic ∧ inst.size ≤ 0 then .returned else .creating periodic (n + 1) }) []
  | removeInstance (hl : s.instances.load i = some inst) (hpc : inst.pc = .removing cntId)
    (hsc : s.scan = .idle) :
    Stepped s (.worker i .proceed)
      ({ s with c2p := s.c2p.delete cntId }.setInst i { inst with pc := .lookingUp cntId }) []
  | getConnElem (hl : s.instances.load i = some inst) (hpc : inst.pc = .lookingUp cntId)
    (hc : s.c2e.get cntId = some connElem) :
    Stepped s (.worker i .proceed)
      (s.setInst i { inst with pc := .deleting connElem container (s.c2l cntId) }) []
  | delete (hl : s.instances.load i = some inst) (hpc : inst.pc = .deleting connElem container cntLst)
    (hg : s.registry.step (.pool (.delete connElem)) = .ok (g, tr)) :
    Stepped s (.worker i .proceed)
      ({ s with registry := g }.setInst i { inst with pc := .unlisting container cntLst })
      [(.pool (.delete connElem), tr)]
  | removeNil (hl : s.instances.load i = some inst) (hpc : inst.pc = .unlisting none cntLst) :
    Stepped s (.worker i .proceed)
      (s.setInst i { inst with size := inst.size - 1, pc := .select }) []
  | removeContainer (hl : s.instances.load i = some inst)
    (hpc : inst.pc = .unlisting (some cnt) cntLst)
    (hg : s.registry.step (.removeContainer cnt) = .ok (g, tr)) :
    Stepped s (.worker i .proceed)
      ({ s with registry := g }.setInst i { inst with size := inst.size - 1, pc := .select })
      [(.removeContainer cnt, tr)]
  | handleScaling : Stepped s .handleScaling { s with decision := some res } []
  | scaleUp (hsc : s.scan = .idle) (hdec : s.decision = some delta) (hd : delta > 0) :
    Stepped s .receive
      { s with
        decision  := none
        instances := s.instances.alloc ⟨delta, .make (delta.toNat + 1), [], .creating false 0⟩
      } []
  | scaleDown (hsc : s.scan = .idle) (hdec : s.decision = some delta) (hd : delta < 0) :
    Stepped s .receive { s with decision := none, scan := .next delta s.c2e.keys } []
  | noScaling (hsc : s.scan = .idle) : Stepped s .receive { s with decision := none } []
  | scan (hs : Scans s op sc) : Stepped s (.scan op) { s with scan := sc } []
  | drop (hd : Drops s cntId sc) :
    Stepped s (.scan .proceed) { s with c2e := s.c2e.delete cntId, scan := sc } []
  | send (hsc : s.scan = .send delta rest cntId i) (hl : s.instances.load i = some inst)
    (hq : inst.decChan.send cntId = some decChan) :
    Stepped s (.scan .proceed)
      ({ s with scan := if delta + 1 = 0 then .idle else .next (delta + 1) rest }.setInst i
        { inst with decChan := decChan }) []

variable {p : Provisioner} {s s' : Sys} {cs : Calls} {i : Nat}

section Inversion

theorem isLocked_eq_false : (s.isLocked = false) ↔ (s.scan = .idle) := by
  simp [isLocked]

theorem done_eq_ok {s₁ : Sys} : (s₁.done = .ok (s', cs)) ↔ (s' = s₁ ∧ cs = []) := by
  simp [done, eq_comm]

theorem Stepped.of_done {s₁ : Sys} (h : s₁.done = .ok (s', cs)) (hs : Stepped s op s₁ []) :
    Stepped s op s' cs := by
  have ⟨h₁, h₂⟩ := done_eq_ok.mp h
  exact h₁ ▸ h₂ ▸ hs

theorem Stepped.of_call {s₁ : Sys} {op' : Registry.Op} (h : s₁.call op' = .ok (s', cs))
    (hs : ∀ {g tr}, (s₁.registry.step op' = .ok (g, tr)) →
      Stepped s op { s₁ with registry := g } [(op', tr)]) : Stepped s op s' cs := by
  simp only [call] at h
  split at h
  case h_1 hg =>
    cases h
    exact hs hg
  case h_2 => contradiction

theorem bind_orPanic_eq_ok {x : Result α} {f : α → Except Halt β} {b : β} :
    (orPanic x >>= f = .ok b) ↔ (∃ a, x = .ok a ∧ f a = .ok b) := by
  cases x <;> simp [orPanic, bind, Except.bind]

theorem timer_inv {op : TimerOp} (h : s.timer i op = .ok (s', cs)) :
    Stepped s (.timer i op) s' cs := by
  simp only [timer] at h
  split at h
  case h_1 => contradiction
  case h_2 t ht =>
    split at h
    case h_1 =>
      simp only [bind_orPanic_eq_ok] at h
      have ⟨_, _, _, _, h⟩ := h
      exact .of_done h (.timer (by simp))
    case h_2 =>
      exact .of_call h fun hg => .timerFire hg
    case h_3 =>
      simp only [bind_orPanic_eq_ok] at h
      have ⟨_, _, h⟩ := h
      split at h
      case isFalse => contradiction
      case isTrue  =>
        exact .of_done h (.timer (by simp))
    case h_4 =>
      exact .of_call h fun hg => .timerDelete hg
    case h_5 => contradiction

theorem create_inv {op : CreatorOp} (h : s.create p op = .ok (s', cs)) :
    Stepped s (.creator op) s' cs := by
  cases op <;> simp only [create] at h
  case create =>
    split at h
    case h_2 => contradiction
    case h_1 =>
      split at h
      case isFalse => contradiction
      case isTrue  =>
        exact .of_done h .creator
  case proceed =>
    split at h
    case h_1 =>
      split at h
      case isTrue  => contradiction
      case isFalse =>
        exact .of_done h .creator
    case h_2 =>
      split at h
      case isTrue     => contradiction
      case isFalse hl =>
        exact .of_done h (.creatorAdd (isLocked_eq_false.mp (by simpa using hl)))
    case h_3 =>
      exact .of_done h .creator

theorem receive_inv (h : s.receive = .ok (s', cs)) : Stepped s .receive s' cs := by
  simp only [receive] at h
  split at h
  case h_2 => contradiction
  case h_1 hsc hdec =>
    split at h
    case isTrue hd =>
      exact .of_done h (.scaleUp hsc hdec hd)
    case isFalse =>
      split at h
      case isTrue hd =>
        exact .of_done h (.scaleDown hsc hdec hd)
      case isFalse =>
        exact .of_done h (.noScaling hsc)

theorem worker_inv {op : WorkerOp} (h : s.worker i op = .ok (s', cs)) :
    Stepped s (.worker i op) s' cs := by
  simp only [worker] at h
  split at h
  case h_1 => contradiction
  case h_2 inst hl =>
    split at h
    case h_1 hpc =>
      split at h
      case isFalse => contradiction
      case isTrue  =>
        exact .of_done h (.move hl (.create hpc))
    case h_2 hpc =>
      split at h
      case isTrue  => contradiction
      case isFalse =>
        exact .of_done h (.move hl (.created hpc))
    case h_3 hpc =>
      split at h
      case isTrue     => contradiction
      case isFalse hn =>
        exact .of_done h (.addInstance hl hpc (isLocked_eq_false.mp (by simpa using hn)))
    case h_4 hpc =>
      exact .of_done h (.move hl (.tick hpc))
    case h_5 hpc =>
      split at h
      case h_1 => contradiction
      case h_2 hq =>
        split at h
        case isTrue hm =>
          exact .of_done h (.move hl (.receive hpc hq hm))
        case isFalse =>
          exact .of_done h (.move hl (.ignore hpc hq))
    case h_6 hpc =>
      split at h
      case isTrue     => contradiction
      case isFalse hn =>
        exact .of_done h (.removeInstance hl hpc (isLocked_eq_false.mp (by simpa using hn)))
    case h_7 hpc =>
      simp only [bind_orPanic_eq_ok, deref_eq_ok] at h
      obtain ⟨_, hce, _, _, h⟩ := h
      exact .of_done h (.getConnElem hl hpc hce)
    case h_8 hpc =>
      exact .of_call h fun hg => .delete hl hpc hg
    case h_9 hpc =>
      simp only [bind_orPanic_eq_ok] at h
      obtain ⟨_, _, h⟩ := h
      split at h
      case h_1 =>
        exact .of_done h (.removeNil hl hpc)
      case h_2 =>
        exact .of_call h fun hg => .removeContainer hl hpc hg
    case h_10 => contradiction

theorem scanLoop_inv {op : ScanOp} (h : s.scanLoop op = .ok (s', cs)) :
    Stepped s (.scan op) s' cs := by
  simp only [scanLoop] at h
  split at h
  case h_1 hsc =>
    split at h
    case h_1 => contradiction
    case h_2 hi =>
      split at h
      case h_1 hce =>
        exact .of_done h (.scan (.skip hsc hi hce))
      case h_2 hce =>
        exact .of_done h (.scan (.produce hsc hi hce))
  case h_2 hsc =>
    split at h
    case isFalse    => contradiction
    case isTrue hr =>
      subst hr
      exact .of_done h (.scan (.finish hsc))
  case h_3 hsc =>
    split at h
    case isTrue =>
      exact .of_done h (.scan (.alive hsc))
    case isFalse =>
      exact .of_done h (.scan (.notAlive hsc))
  case h_4 hsc =>
    simp only [bind_orPanic_eq_ok] at h
    have ⟨_, hr, h⟩ := h
    split at h
    case isTrue =>
      exact .of_done h (.scan (.repl hsc))
    case isFalse hb =>
      rw [Bool.eq_false_of_not_eq_true hb] at hr
      split at h
      case h_1 hp =>
        exact .of_done h (.drop (.noInstance hsc hr hp))
      case h_2 hp =>
        exact .of_done h (.scan (.select hsc hr hp))
  case h_5 hsc =>
    split at h
    case isTrue =>
      exact .of_done h (.scan (.keep hsc))
    case isFalse ha =>
      exact .of_done h (.drop (.dead hsc (by simpa using ha)))
  case h_6 hsc =>
    split at h
    case h_1 => contradiction
    case h_2 hl =>
      split at h
      case h_1    => contradiction
      case h_2 hq => exact .of_done h (.send hsc hl hq)
  case h_7 => contradiction

theorem handleScaling_inv (h : s.step p .handleScaling = .ok (s', cs)) :
    ∃ res, calculateScalingDelta s.registry.pool s.registry.lst p.upThr p.downThr p.upInc p.downInc
      p.min = .ok res ∧ s' = { s with decision := some res } ∧ cs = [] := by
  simp only [step, handleScaling] at h
  split at h
  case h_1 => contradiction
  case h_2 =>
    simp only [bind_orPanic_eq_ok] at h
    obtain ⟨res, hres, h⟩ := h
    exact ⟨res, hres, done_eq_ok.mp h⟩

theorem step_inv {op : Op} (h : s.step p op = .ok (s', cs)) : Stepped s op s' cs := by
  cases op
  case traffic =>
    exact .of_call h fun hg => .traffic hg
  case register =>
    exact .of_call h fun hg => .register hg
  case addConnElem i =>
    simp only [step, addConnElem] at h
    split at h
    case h_1 => contradiction
    case h_2 hh =>
      split at h
      case isTrue     => contradiction
      case isFalse hn =>
        exact .of_done h (.addConnElem hh (isLocked_eq_false.mp (by simpa using hn)))
  case timer   => exact timer_inv h
  case creator => exact create_inv h
  case worker  => exact worker_inv h
  case receive => exact receive_inv h
  case scan    => exact scanLoop_inv h
  case handleScaling =>
    obtain ⟨res, _, hs, hcs⟩ := handleScaling_inv h
    subst hs hcs
    exact .handleScaling

end Inversion

section Instances

inductive Advances (i : InstId) (inst : Instance) : Op → Instance → Prop
  | none : Advances i inst op inst
  | move (hm : Moves inst op inst') : Advances i inst (.worker i op) inst'
  | added (hpc : inst.pc = .adding periodic n cntId) :
    Advances i inst (.worker i .proceed)
      { inst with pc := if periodic ∧ inst.size ≤ 0 then .returned else .creating periodic (n + 1) }
  | removed (hpc : inst.pc = .removing cntId) :
    Advances i inst (.worker i .proceed) { inst with pc := .lookingUp cntId }
  | found (hpc : inst.pc = .lookingUp cntId) :
    Advances i inst (.worker i .proceed) { inst with pc := .deleting connElem container cntLst }
  | deleted (hpc : inst.pc = .deleting connElem container cntLst) :
    Advances i inst (.worker i .proceed) { inst with pc := .unlisting container cntLst }
  | unlisted (hpc : inst.pc = .unlisting container cntLst) :
    Advances i inst (.worker i .proceed) { inst with size := inst.size - 1, pc := .select }
  | requested (hq : inst.decChan.send cntId = some decChan) :
    Advances i inst (.scan .proceed) { inst with decChan := decChan }

variable {inst inst' : Instance} {j : InstId}

theorem load_setInst : (s.setInst i inst').instances.load j =
    if j = i then (s.instances.load j).map fun _ => inst' else s.instances.load j :=
  Heap.load_modify

theorem advances_setInst (hl : s.instances.load i = some inst) (ha : Advances i inst op inst')
    (hi : s'.instances = s.instances) (hj : s.instances.load j = some inst₀) :
    ∃ inst₁, (s'.setInst i inst').instances.load j = some inst₁ ∧ Advances j inst₀ op inst₁ := by
  rw [load_setInst, hi]
  by_cases he : j = i
  case pos =>
    subst he
    cases hl.symm.trans hj
    exact ⟨inst', by simp [hl], ha⟩
  case neg => exact ⟨inst₀, by simp [he, hj], .none⟩

theorem Stepped.advances (h : Stepped s op s' cs) (hj : s.instances.load j = some inst) :
    ∃ inst', s'.instances.load j = some inst' ∧ Advances j inst op inst' := by
  cases h
  case move hl hm             => exact advances_setInst hl (.move hm) rfl hj
  case addInstance hl hpc _   => exact advances_setInst hl (.added hpc) rfl hj
  case removeInstance hl hpc _ => exact advances_setInst hl (.removed hpc) rfl hj
  case getConnElem hl hpc _   => exact advances_setInst hl (.found hpc) rfl hj
  case delete hl hpc _        => exact advances_setInst hl (.deleted hpc) rfl hj
  case removeNil hl hpc       => exact advances_setInst hl (.unlisted hpc) rfl hj
  case removeContainer hl hpc _ => exact advances_setInst hl (.unlisted hpc) rfl hj
  case send hl hq             => exact advances_setInst hl (.requested hq) rfl hj
  case scaleUp =>
    have hlt := Heap.lt_size_of_load hj
    exact ⟨inst, (Heap.load_alloc_of_lt hlt).trans hj, .none⟩
  all_goals exact ⟨inst, hj, .none⟩

theorem Stepped.instance_inv (h : Stepped s op s' cs) (hj : s'.instances.load j = some inst') :
    (∃ inst, s.instances.load j = some inst ∧ Advances j inst op inst') ∨
    (∃ delta, 0 < delta ∧ inst' = ⟨delta, .make (delta.toNat + 1), [], .creating false 0⟩) := by
  cases hl : s.instances.load j
  case some inst =>
    have ⟨_, hl', ha⟩ := h.advances hl
    cases hj.symm.trans hl'
    exact .inl ⟨inst, rfl, ha⟩
  case none =>
    cases h
    case scaleUp delta _ _ hd =>
      rw [Heap.load_alloc, hl] at hj
      split at hj
      case isTrue =>
        cases hj
        exact .inr ⟨delta, hd, rfl⟩
      case isFalse => contradiction
    case move | addInstance | removeInstance | getConnElem | delete | removeNil | removeContainer |
        send =>
      rw [load_setInst] at hj
      split at hj <;> simp_all
    all_goals exact absurd (hl.symm.trans hj) (by simp)

end Instances

theorem Stepped.registry (h : Stepped s op s' cs) :
    Run (Steps Registry.step) s.registry cs s'.registry := by
  cases h
  case traffic hg         => exact .single hg
  case register hg        => exact .single hg
  case timerFire hg       => exact .single hg
  case timerDelete hg     => exact .single hg
  case delete hg          => exact .single hg
  case removeContainer hg => exact .single hg
  all_goals exact .refl

theorem registry_run (h : Run (Steps (step p)) s ls s') :
    Run (Steps Registry.step) s.registry (ls.flatMap (·.2)) s'.registry := by
  have ⟨_, r, hr⟩ : ∃ g, Run (Steps Registry.step) s.registry (ls.flatMap (·.2)) g ∧
      s'.registry = g :=
    h.simulate (R := fun s g => s.registry = g) rfl fun hr hs => ⟨_, hr ▸ (step_inv hs).registry, rfl⟩
  exact hr ▸ r

section Runs

def exampleProvisioner : Provisioner where
  upThr   := 1
  downThr := 0
  upInc   := 2
  downInc := 0
  min     := 2

-- A replica takes a flow, so that an instance of size two is started, which creates the containers 1
-- and 2. The flow ends.
def exampleStart : List Op := [
  .register (some 0) (some 0) 9 true 1, .addConnElem 0, .traffic (.get 7), .handleScaling, .receive,
  .traffic (.wait 6), .traffic (.tick 0),
  .worker 1 (.create 1), .worker 1 .proceed, .worker 1 (.create 2), .worker 1 .proceed,
  .worker 1 .proceed,
  .register (some 1) (some 0) 1 false 1, .addConnElem 0,
  .register (some 2) (some 0) 2 false 1, .addConnElem 0
]

def exampleSend (i : Nat) : List Op :=
  .scan (.produce i) :: List.replicate 3 (.scan .proceed)

def exampleHandle : List Op :=
  .worker 1 .receive :: List.replicate 4 (.worker 1 .proceed)

end Runs

end Cnt.Sys
