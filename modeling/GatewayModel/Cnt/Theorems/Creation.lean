import GatewayModel.Cnt.Creation
import GatewayModel.Cnt.Theorems.Steps
import GatewayModel.Nat.Theorems.Leases

open Go Execution NatContext

namespace Cnt

namespace OpenWhisk

variable [Bits β] {ow ow' : OpenWhisk β} {sv : Service} {t : Target} {half : Half} {cntId : UInt16}
  {repl : String}

theorem prepare_of_ne (h : t.action ≠ "nat") :
    (ow.prepare sv t half cntId repl).1.cpMap = ow.cpMap := by
  simp [prepare, count, h]

theorem prepare_of_eq (h : t.action = "nat") :
    (ow.prepare sv t half cntId repl).1.cpMap = (ow.cpMap.assignPorts half ow.addrs.size).1 := by
  simp [prepare, count, assignPorts, h]

theorem prepare_am_eq_iff :
    (ow.prepare sv t half cntId repl).1.cpMap.am = ow.cpMap.am ↔ t.action ≠ "nat" := by
  constructor
  case mp =>
    intro h hn
    rw [prepare_of_eq hn] at h
    have hnew := (congrFun h ow.addrs.size).symm.trans CntPortMapping.am_assignPorts
    exact absurd (ow.fresh _ le_rfl) (by simp [hnew])
  case mpr => exact fun hn => congrArg CntPortMapping.am (prepare_of_ne hn)

theorem createFunction_inv (h : ow.createFunction sv t half cntId repl = .ok (ow', err)) :
    ow' = (ow.prepare sv t half cntId repl).1 := by
  simp only [createFunction] at h
  split at h
  case h_1 => contradiction
  case h_3 => contradiction
  case h_2 => cases h; rfl
  case h_4 => split at h <;> cases h <;> rfl

theorem createFunction_error (h : ow.createFunction sv t half cntId repl = .ok (ow', err)) :
    (err ≠ none) ↔
      (sv.post (request t (ow.prepare sv t half cntId repl).2) = .failed) ∨
      (∃ code text, sv.post (request t (ow.prepare sv t half cntId repl).2) = .response code (some text) ∧
        code ≠ 200 ∧ code ≠ 202) := by
  simp only [createFunction] at h
  split at h
  case h_1       => contradiction
  case h_3       => contradiction
  case h_2 hp    => cases h; simp [hp]
  case h_4 hp =>
    split at h
    case isTrue hc  => cases h; simp [hp, hc]
    case isFalse hc => cases h; simp_all

end OpenWhisk

section Iterations

variable [Bits β] {sv : Service} {t : Target} {half : Half} {cntId : UInt16} {ow ow' : OpenWhisk β}
  {s s' : Sys}

theorem iteration_inv {enter add : Sys → Outcome}
    (h : iteration sv t half cntId repl enter add ow s = .ok (ow', s', err)) :
    ow.createFunction sv t half cntId repl = .ok (ow', err) ∧
    ∃ s₁ cs₁ cs₂, enter s = .ok (s₁, cs₁) ∧ add s₁ = .ok (s', cs₂) := by
  simp only [iteration, bind, Except.bind] at h
  split at h
  case h_1     => contradiction
  case h_2 hc =>
    split at h
    case h_1     => contradiction
    case h_2 he =>
      split at h
      case h_1     => contradiction
      case h_2 ha =>
        cases h
        exact ⟨mapError_eq_ok.mp hc, _, _, _, mapError_eq_ok.mp he, mapError_eq_ok.mp ha⟩

namespace Sys

theorem worker_create_inv (h : s.worker i (.create cntId) = .ok (s', cs)) :
    ∃ inst periodic n, s.instances.load i = some inst ∧
      s' = s.setInst i
        { inst with cntIdMap := inst.cntIdMap.insert cntId, pc := .adding periodic n cntId } := by
  simp only [worker] at h
  split at h
  case h_1         => contradiction
  case h_2 inst hl =>
    cases hpc : inst.pc <;> simp only [hpc] at h
    case creating periodic n =>
      split at h
      case isTrue  => exact ⟨inst, periodic, n, hl, (done_eq_ok.mp h).left⟩
      case isFalse => contradiction
    all_goals contradiction

theorem worker_add_inv {inst : Instance} (h : s.worker i .proceed = .ok (s', cs))
    (hl : s.instances.load i = some inst) (hpc : inst.pc = .adding periodic n cntId) :
    s' = { s with c2p := s.c2p.set cntId i }.setInst i { inst with
      pc := if periodic ∧ inst.size ≤ 0 then .returned else .creating periodic (n + 1) } := by
  simp only [worker, hl, hpc] at h
  split at h
  case isTrue  => contradiction
  case isFalse => exact (done_eq_ok.mp h).left

theorem create_create_inv (h : s.create p (.create cntId) = .ok (s', cs)) :
    ∃ n, s' = { s with creator := .adding n cntId } := by
  simp only [create] at h
  split at h
  case h_2 => contradiction
  case h_1 =>
    split at h
    case isTrue  => exact ⟨_, (done_eq_ok.mp h).left⟩
    case isFalse => contradiction

theorem create_add_inv (h : s.create p .proceed = .ok (s', cs)) (hc : s.creator = .adding n cntId) :
    s' = { s with c2p := s.c2p.set cntId 0, creator := .creating (n + 1) } := by
  simp only [create, hc] at h
  split at h
  case isTrue  => contradiction
  case isFalse => exact (done_eq_ok.mp h).left

end Sys

theorem startDropIteration_inv (h : startDropIteration sv t half i cntId ow s = .ok (ow', s', err)) :
    ow' = (ow.prepare sv t half cntId "0").1 ∧ s'.c2p = s.c2p.set cntId i ∧
    ∀ j, (s'.instances.load j).map (·.cntIdMap) = (s.instances.load j).map fun inst =>
      if j = i then inst.cntIdMap.insert cntId else inst.cntIdMap := by
  have ⟨hc, s₁, _, _, he, ha⟩ := iteration_inv h
  have ⟨inst, periodic, n, hl, hs₁⟩ := Sys.worker_create_inv he
  have hl₁ : s₁.instances.load i =
      some { inst with cntIdMap := inst.cntIdMap.insert cntId, pc := .adding periodic n cntId } := by
    simp [hs₁, Sys.setInst, hl]
  have hs' := Sys.worker_add_inv ha hl₁ rfl
  refine ⟨OpenWhisk.createFunction_inv hc, by simp [hs', hs₁, Sys.setInst], fun j => ?_⟩
  by_cases hj : j = i
  case pos => simp [hs', hs₁, Sys.setInst, hj, hl]
  case neg => simp [hs', hs₁, Sys.setInst, Heap.load_modify_ne hj, hj]

theorem instantiateIteration_inv
    (h : instantiateIteration sv t half p cntId ow s = .ok (ow', s', err)) :
    ow' = (ow.prepare sv t half cntId "1").1 ∧ s'.c2p = s.c2p.set cntId 0 ∧ s'.instances = s.instances := by
  have ⟨hc, s₁, _, _, he, ha⟩ := iteration_inv h
  have ⟨n, hs₁⟩ := Sys.create_create_inv he
  have hs' := Sys.create_add_inv ha (by rw [hs₁])
  exact ⟨OpenWhisk.createFunction_inv hc, by rw [hs', hs₁], by rw [hs', hs₁]⟩

-- The ports in use, the assignment map, `c2p` and the ids of all goroutines are the same.
structure Traceless (ow ow' : OpenWhisk β) (s s' : Sys) : Prop where
  bSet     : ow'.cpMap.bSet = ow.cpMap.bSet
  am       : ow'.cpMap.am = ow.cpMap.am
  c2p      : s'.c2p = s.c2p
  cntIdMap : ∀ j, (s'.instances.load j).map (·.cntIdMap) = (s.instances.load j).map (·.cntIdMap)

theorem startDropIteration_traceless
    (h : startDropIteration sv t half i cntId ow s = .ok (ow', s', err)) :
    Traceless ow ow' s s' ↔ t.action ≠ "nat" ∧ s.c2p cntId = some i ∧
      ∀ inst, (s.instances.load i = some inst) → cntId ∈ inst.cntIdMap := by
  obtain ⟨rfl, hp, hi⟩ := startDropIteration_inv h
  constructor
  case mp =>
    intro ht
    refine ⟨OpenWhisk.prepare_am_eq_iff.mp ht.am, ?_, fun inst hl => ?_⟩
    case refine_1 => rw [← ht.c2p, hp, Map.set_self]
    case refine_2 =>
      have he := (hi i).symm.trans (ht.cntIdMap i)
      simp only [hl, Option.map_some, if_true, Option.some.injEq] at he
      exact he ▸ List.mem_insert_self
  case mpr =>
    intro ⟨hn, hc, hm⟩
    refine ⟨by rw [OpenWhisk.prepare_of_ne hn], by rw [OpenWhisk.prepare_of_ne hn],
      hp.trans (Map.set_eq_self hc), fun j => (hi j).trans ?_⟩
    by_cases hj : j = i
    case neg => simp [hj]
    case pos =>
      subst hj
      cases hl : s.instances.load j
      case none      => rfl
      case some inst => simp [List.insert_of_mem (hm inst hl)]

theorem instantiateIteration_traceless
    (h : instantiateIteration sv t half p cntId ow s = .ok (ow', s', err)) :
    Traceless ow ow' s s' ↔ t.action ≠ "nat" ∧ s.c2p cntId = some 0 := by
  obtain ⟨rfl, hp, hi⟩ := instantiateIteration_inv h
  constructor
  case mp =>
    intro ht
    exact ⟨OpenWhisk.prepare_am_eq_iff.mp ht.am, by rw [← ht.c2p, hp, Map.set_self]⟩
  case mpr =>
    intro ⟨hn, hc⟩
    exact ⟨by rw [OpenWhisk.prepare_of_ne hn], by rw [OpenWhisk.prepare_of_ne hn],
      hp.trans (Map.set_eq_self hc), fun _ => by rw [hi]⟩

-- A creation that fails leaves no trace if, and only if, the action is not `nat` and the id that was
-- picked belongs to the instance already.
theorem failed_creation_traceless (ow ow' : OpenWhisk β) (s s' : Sys) (err : String) :
    (∀ i, (startDropIteration sv t half i cntId ow s = .ok (ow', s', some err)) →
      (Traceless ow ow' s s' ↔ t.action ≠ "nat" ∧ s.c2p cntId = some i ∧
        ∀ inst, (s.instances.load i = some inst) → cntId ∈ inst.cntIdMap)) ∧
    (∀ p, (instantiateIteration sv t half p cntId ow s = .ok (ow', s', some err)) →
      (Traceless ow ow' s s' ↔ t.action ≠ "nat" ∧ s.c2p cntId = some 0)) :=
  ⟨fun _ => startDropIteration_traceless, fun _ => instantiateIteration_traceless⟩

def exampleTarget (action : String) : Target where
  hostname  := "localhost"
  auth      := ""
  action    := action
  redisIp   := "172.17.0.1"
  redisPort := 6379

def exampleService : Service where
  getStringFromPortSlice := fun _ => ""
  post                   := fun _ => .response 500 (some "")

def records (test : Sys → Bool) (enter add : Sys → Outcome) (s : Sys) : Bool :=
  match enter s with
  | .error _     => false
  | .ok (s₁, _) =>
    match add s₁ with
    | .error _     => false
    | .ok (s', _) => test s'

theorem iteration_rejected {test : Sys → Bool} {enter add : Sys → Outcome}
    (h : records test enter add s = true) (t : Target) (half : Half) (cntId : UInt16) (repl : String)
    (ow : OpenWhisk β) :
    ∃ s' err, iteration exampleService t half cntId repl enter add ow s =
      .ok ((ow.prepare exampleService t half cntId repl).1, s', some err) ∧ test s' = true := by
  simp only [records] at h
  split at h
  case h_1      => contradiction
  case h_2 he =>
    split at h
    case h_1      => contradiction
    case h_2 ha =>
      have hc : ow.createFunction exampleService t half cntId repl =
        .ok ((ow.prepare exampleService t half cntId repl).1, some _) := rfl
      refine ⟨_, "Error StatusCode different by 200: " ++ toString 500 ++ "\n", ?_, h⟩
      simp only [iteration, hc, he, Except.mapError, bind, Except.bind, ha]
      rfl

theorem failed_creation_traceless_again :
    ∃ ls s, Run (Steps (Sys.step Sys.exampleProvisioner)) (.init Sys.exampleProvisioner 5) ls s ∧
      (∃ ow' s' err, startDropIteration exampleService (exampleTarget "dhcp") .lower 1 1
        (.init : OpenWhisk Words) s = .ok (ow', s', some err) ∧ Traceless .init ow' s s') ∧
      (∃ ow' s' err, instantiateIteration exampleService (exampleTarget "dhcp") .lower
        Sys.exampleProvisioner 2 (.init : OpenWhisk Words) s = .ok (ow', s', some err) ∧
        Traceless .init ow' s s') := by
  have ⟨s, ls, h, ht⟩ : ∃ s ls,
      Run (Steps (Sys.step Sys.exampleProvisioner)) (.init Sys.exampleProvisioner 5) ls s ∧
      decide (s.c2p 1 = some 1 ∧ s.c2p 2 = some 0 ∧
        (∀ inst ∈ s.instances.load 1, 1 ∈ inst.cntIdMap) ∧
        records (fun _ => true) (·.worker 1 (.create 1)) (·.worker 1 .proceed) s ∧
        records (fun _ => true) (·.create Sys.exampleProvisioner (.create 2))
          (·.create Sys.exampleProvisioner .proceed) s) = true :=
    Run.of_passes (Sys.exampleStart.take 5 ++ [.worker 1 (.create 1), .worker 1 .proceed,
      .creator (.create 2), .creator .proceed]) (by decide +kernel)
  have ⟨h₁, h₂, hm, hf₁, hf₂⟩ := of_decide_eq_true ht
  have ⟨s₁, e₁, hr₁, _⟩ :=
    iteration_rejected hf₁ (exampleTarget "dhcp") .lower 1 "0" (.init : OpenWhisk Words)
  have ⟨s₂, e₂, hr₂, _⟩ :=
    iteration_rejected hf₂ (exampleTarget "dhcp") .lower 2 "1" (.init : OpenWhisk Words)
  have hn : (exampleTarget "dhcp").action ≠ "nat" := by decide
  exact ⟨ls, s, h,
    ⟨_, s₁, e₁, hr₁, ((failed_creation_traceless _ _ _ _ _).left _ hr₁).mpr ⟨hn, h₁, hm⟩⟩,
    ⟨_, s₂, e₂, hr₂, ((failed_creation_traceless _ _ _ _ _).right _ hr₂).mpr ⟨hn, h₂⟩⟩⟩

-- A creation that fails leaves its id in `c2p` and `cntIdMap`, and for the action `nat` also the ports
-- that were assigned to it.
theorem exists_leak (β : Type) [Bits β] (half : Half) :
    ∃ ls s, Run (Steps (Sys.step Sys.exampleProvisioner)) (.init Sys.exampleProvisioner 5) ls s ∧
      (s.c2p 3 = none ∧ (s.instances.load 1).map (·.cntIdMap) = some []) ∧
      (∃ ow' s' err, startDropIteration exampleService (exampleTarget "dhcp") half 1 3
        (.init : OpenWhisk β) s = .ok (ow', s', some err) ∧ s'.c2p 3 = some 1 ∧
        (s'.instances.load 1).map (·.cntIdMap) = some [3]) ∧
      (∃ ow' s' err, instantiateIteration exampleService (exampleTarget "nat") half
        Sys.exampleProvisioner 3 (.init : OpenWhisk β) s = .ok (ow', s', some err) ∧
        s'.c2p 3 = some 0 ∧
        ((OpenWhisk.init : OpenWhisk β).cpMap.am 0 = none ∧ ow'.cpMap.am 0 ≠ none) ∧
        ((OpenWhisk.init : OpenWhisk β).cpMap.bSet.test 1 = false ∧
          ow'.cpMap.bSet.test 1 = true)) := by
  have ⟨s, ls, h, ht⟩ : ∃ s ls,
      Run (Steps (Sys.step Sys.exampleProvisioner)) (.init Sys.exampleProvisioner 5) ls s ∧
      decide (s.c2p 3 = none ∧ (s.instances.load 1).map (·.cntIdMap) = some [] ∧
        records (fun s' => s'.c2p 3 = some 1 ∧ (s'.instances.load 1).map (·.cntIdMap) = some [3])
          (·.worker 1 (.create 3)) (·.worker 1 .proceed) s ∧
        records (fun s' => s'.c2p 3 = some 0) (·.create Sys.exampleProvisioner (.create 3))
          (·.create Sys.exampleProvisioner .proceed) s) = true :=
    Run.of_passes (Sys.exampleStart.take 5) (by decide +kernel)
  have ⟨hp, hi, hf₁, hf₂⟩ := of_decide_eq_true ht
  have ⟨s₁, e₁, hr₁, ht₁⟩ := iteration_rejected hf₁ (exampleTarget "dhcp") half 3 "0" (.init : OpenWhisk β)
  have ⟨s₂, e₂, hr₂, ht₂⟩ := iteration_rejected hf₂ (exampleTarget "nat") half 3 "1" (.init : OpenWhisk β)
  refine ⟨ls, s, h, ⟨hp, hi⟩, ⟨_, s₁, e₁, hr₁, of_decide_eq_true ht₁⟩,
    ⟨_, s₂, e₂, hr₂, of_decide_eq_true ht₂, ⟨rfl, ?_⟩, BitSet.test_new, ?_⟩⟩
  case refine_1 =>
    rw [OpenWhisk.prepare_of_eq rfl]
    exact fun hn => absurd (CntPortMapping.am_assignPorts.symm.trans hn) (by simp)
  case refine_2 =>
    have hnew : (OpenWhisk.init : OpenWhisk β).cpMap.bSet.Agree
        (OpenWhisk.init : OpenWhisk Words).cpMap.bSet := .new
    rw [OpenWhisk.prepare_of_eq rfl]
    refine ((CntPortMapping.assignPorts_agree hnew half 0).right.test _).trans ?_
    cases half <;> decide +kernel

theorem failed_creation_leaks :
    ∃ ls s, Run (Steps (Sys.step Sys.exampleProvisioner)) (.init Sys.exampleProvisioner 5) ls s ∧
      (s.c2p 3 = none ∧ (s.instances.load 1).map (·.cntIdMap) = some []) ∧
      (∃ ow' s' err, startDropIteration exampleService (exampleTarget "dhcp") .lower 1 3
        (.init : OpenWhisk Words) s = .ok (ow', s', some err) ∧ s'.c2p 3 = some 1 ∧
        (s'.instances.load 1).map (·.cntIdMap) = some [3]) ∧
      (∃ ow' s' err, instantiateIteration exampleService (exampleTarget "nat") .lower
        Sys.exampleProvisioner 3 (.init : OpenWhisk Words) s = .ok (ow', s', some err) ∧
        s'.c2p 3 = some 0 ∧
        ((OpenWhisk.init : OpenWhisk Words).cpMap.am 0 = none ∧ ow'.cpMap.am 0 ≠ none) ∧
        ((OpenWhisk.init : OpenWhisk Words).cpMap.bSet.test 1 = false ∧
          ow'.cpMap.bSet.test 1 = true)) :=
  exists_leak Words .lower

end Iterations
end Cnt
