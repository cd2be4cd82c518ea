import GatewayModel.Cnt.Theorems.Registry
import GatewayModel.Cnt.Theorems.Scaling
import GatewayModel.Cnt.Theorems.Steps

open Go Execution Pool

namespace Cnt

def Pc.isRemoving : Pc → Bool
  | .removing _ | .lookingUp _ | .deleting .. | .unlisting .. => true
  | .absent | .creating .. | .adding .. | .select | .returned => false

def Scan.delta : Scan → Int
  | .idle => 0
  | .next delta _ | .isAlive delta .. | .isRepl delta .. | .isAliveAgain delta .. | .send delta .. => delta

def Instance.requests (inst : Instance) : Nat :=
  inst.decChan.queue.length + inst.pc.isRemoving.toNat

def removals (cs : Calls) : Nat :=
  cs.countP (·.1 matches .removeContainer _)

namespace Registry

variable {g g' : Registry}

theorem len_step (h : Sound g) (hs : g.step op = .ok (g', tr)) :
    g.lst.len ≤ g'.lst.len + removals [(op, tr)] := by
  cases op
  case pool op =>
    simp only [step, bind_eq_ok, Prod.exists] at hs
    obtain ⟨_, _, _, hg⟩ := hs
    split at hg <;> cases hg
    case h_1 => exact Nat.le_succ _
    case h_2 => exact le_refl _
  case removeContainer cnt =>
    simp only [step, bind_eq_ok, pure_eq_ok, Prod.mk.injEq] at hs
    obtain ⟨cl, hr, hg, _⟩ := hs
    obtain ⟨_, hr', hl⟩ := ContainerList.removeContainer_eq h.nodup cnt
    cases hr.symm.trans hr'
    subst hg
    have hlen : cl.len = (g.lst.toList.erase cnt).length := by rw [← hl, Slice.length_toList]
    rw [List.length_erase, Slice.length_toList] at hlen
    simp only [removals, List.countP_singleton]
    split at hlen <;> simp <;> omega

theorem Sound.run (h : Sound g) (r : Run (Steps Registry.step) g ls g') : Sound g' :=
  r.invariant h fun h hs => h.step hs

theorem len_run (h : Sound g) (r : Run (Steps Registry.step) g cs g') :
    g.lst.len ≤ g'.lst.len + removals cs := by
  induction r
  case refl => exact Nat.le_add_right ..
  case tail g₁ l g₂ r hs hi =>
    have hlen : g₁.lst.len ≤ g₂.lst.len + removals [l] := len_step (h.run r) hs
    simp only [removals, List.countP_append] at *
    omega

end Registry

namespace Sys

def requests (s : Sys) : Nat :=
  s.instances.total Instance.requests

def Op.fires : Op → Bool
  | .timer _ .fire => true
  | _              => false

def NoTimerFires (_ : Sys) (op : Op) : Prop :=
  op.fires = false

def sends (s : Sys) : Op → Bool
  | .scan .proceed => (s.scan matches .send ..)
  | _              => false

-- No removal request is in flight, and `InstantiateFunctions` is not in its loop.
def AtRest (s : Sys) : Prop :=
  s.requests = 0 ∧ s.scan = .idle

def DecidesAtRest (s : Sys) (op : Op) : Prop :=
  (op = .handleScaling) → s.AtRest

instance {s : Sys} {op : Op} : Decidable (s.NoTimerFires op) :=
  inferInstanceAs (Decidable (op.fires = false))

instance {s : Sys} : Decidable s.AtRest :=
  inferInstanceAs (Decidable (_ ∧ _))

instance {s : Sys} {op : Op} : Decidable (s.DecidesAtRest op) :=
  inferInstanceAs (Decidable (_ → _))

section Requests

variable {s s' : Sys} {inst inst' : Instance} {i : InstId}

theorem requests_setInst (hl : s.instances.load i = some inst) (inst' : Instance) :
    (s.setInst i inst').requests + inst.requests = s.requests + inst'.requests :=
  Heap.total_modify hl

theorem Moves.requests_le (h : Moves inst op inst') : inst'.requests ≤ inst.requests := by
  cases h
  case create hpc  => simp [Instance.requests, hpc, Pc.isRemoving]
  case created hpc => simp [Instance.requests, hpc, Pc.isRemoving]
  case tick hpc    =>
    simp only [Instance.requests, hpc]
    split <;> simp [Pc.isRemoving]
  case receive hpc hq _ =>
    have hq := (Channel.receive_eq_some hq).left
    simp [Instance.requests, hpc, hq, Pc.isRemoving]
  case ignore hpc hq =>
    have hq := (Channel.receive_eq_some hq).left
    simp [Instance.requests, hpc, hq]

theorem requests_setInst_le (hl : s.instances.load i = some inst)
    (h : inst'.requests + n ≤ inst.requests + m) :
    (s.setInst i inst').requests + n ≤ s.requests + m := by
  have := requests_setInst hl inst'
  omega

theorem Stepped.requests_le (h : Stepped s op s' cs) :
    s'.requests + (if op.fires then 0 else removals cs) ≤ s.requests + (s.sends op).toNat := by
  cases h
  case timer =>
    rw [show removals [] = 0 from rfl, ite_self]
    exact Nat.le_add_right ..
  case move hl hm => exact requests_setInst_le hl (Nat.le_add_right_of_le hm.requests_le)
  case addInstance hl hpc _ =>
    apply requests_setInst_le hl
    simp only [Instance.requests, hpc]
    split <;> simp [Pc.isRemoving, removals, Op.fires]
  case removeInstance hl hpc _ | getConnElem hl hpc _ | delete hl hpc _ | removeNil hl hpc |
      removeContainer hl hpc _ =>
    apply requests_setInst_le hl
    simp only [Instance.requests, hpc, removals]
    simp [Pc.isRemoving, sends, Op.fires]
  case send hsc hl hq =>
    have hq := (Channel.send_eq_some hq).left
    apply requests_setInst_le hl
    simp [Instance.requests, sends, hsc, removals, hq, Op.fires]
    omega
  case scaleUp =>
    simp [requests, Heap.total_alloc, Instance.requests, Channel.make, Pc.isRemoving, removals, Op.fires]
  all_goals exact Nat.le_add_right ..

end Requests

section Decisions

def promised (s : Sys) : Nat :=
  (- s.decision.getD 0).toNat + (- s.scan.delta).toNat

def Counting (s : Sys) : Prop :=
  (s.scan ≠ .idle) → s.scan.delta < 0

variable {p : Provisioner} {s s' : Sys}

theorem Stepped.promised_le (h : Stepped s op s' cs) (hd : s.Counting) (hop : op ≠ .handleScaling) :
    s'.promised + (s.sends op).toNat ≤ s.promised ∧ s'.Counting := by
  cases h
  case handleScaling => contradiction
  case scaleUp hsc hdec hlt =>
    refine ⟨?_, fun hne => absurd hsc hne⟩
    simp [promised, sends, hdec]
  case noScaling hsc =>
    refine ⟨?_, fun hne => absurd hsc hne⟩
    simp [promised, sends]
  case scaleDown hsc hdec hlt =>
    refine ⟨?_, fun _ => hlt⟩
    simp [promised, sends, hsc, hdec, Scan.delta]
  case scan hs | drop hs =>
    cases hs
    all_goals
      have hsc := ‹s.scan = _›
      simp only [Counting, hsc, ne_eq, reduceCtorEq, not_false_eq_true, true_imp_iff, Scan.delta] at hd
      refine ⟨by simp [promised, sends, hsc, Scan.delta], ?_⟩
      simp [Counting, Scan.delta, hd]
  case send delta rest cntId i _ _ hsc hl hq =>
    simp only [Counting, hsc, ne_eq, reduceCtorEq, not_false_eq_true, true_imp_iff, Scan.delta] at hd
    by_cases hz : delta + 1 = 0
    case pos =>
      refine ⟨?_, by simp [Counting, setInst, hz]⟩
      simp [promised, sends, setInst, hsc, hz, Scan.delta]
      omega
    case neg =>
      refine ⟨?_, fun _ => ?_⟩
      case refine_1 =>
        simp [promised, sends, setInst, hsc, hz, Scan.delta]
        omega
      case refine_2 =>
        simp only [setInst, if_neg hz, Scan.delta]
        omega
  all_goals exact ⟨le_refl _, hd⟩

-- The list holds, beyond the minimum, a container for each request that is in flight or may still be sent.
structure Covered (p : Provisioner) (s : Sys) : Prop where
  sound    : s.registry.Sound
  counting : s.Counting
  minimum  : p.min + s.requests + s.promised ≤ s.registry.lst.len

theorem Covered.step (h : Covered p s) (hinc : 0 ≤ p.upInc) (hs : s.step p op = .ok (s', cs))
    (ht : s.NoTimerFires op) (hg : s.DecidesAtRest op) : Covered p s' := by
  have hst := step_inv hs
  have hsound := h.sound.run hst.registry
  have hmin := h.minimum
  by_cases hop : op = .handleScaling
  case pos =>
    -- The decision has been checked against a list of which nothing is about to be removed.
    subst hop
    obtain ⟨hreq, hidle⟩ := hg rfl
    obtain ⟨res, hres, hs', _⟩ := handleScaling_inv hs
    subst hs'
    refine ⟨hsound, h.counting, ?_⟩
    have hz : s.requests = 0 := hreq
    have hr : requests { s with decision := some res } = 0 := hreq
    have hp : promised { s with decision := some res } = (- res).toNat := by
      simp [promised, hidle, Scan.delta]
    have hle : (res < 0) → p.min ≤ s.registry.lst.len + res := min_le_of_neg hres hinc
    rw [hr, hp]
    show p.min + (0 : Nat) + (- res).toNat ≤ s.registry.lst.len
    omega
  case neg =>
    have hlen := Registry.len_run h.sound hst.registry
    have hreq := hst.requests_le
    rw [if_neg (by simpa [NoTimerFires] using ht)] at hreq
    obtain ⟨hp, hc⟩ := hst.promised_le h.counting hop
    exact ⟨hsound, hc, by omega⟩

end Decisions

-- Take any reachable state that is at rest, with at least `Min` containers and no decision pending. From
-- there on the list has at least `Min` containers in every run in which no lifetime timer fires and
-- decisions are only taken at rest.
theorem minimum_kept {p : Provisioner} (hinc : 0 ≤ p.upInc)
    (h₀ : Run (Steps (step p)) (.init p age) ls₀ s₀) (hmin : p.min ≤ s₀.registry.lst.len)
    (hrest : s₀.AtRest) (hdec : s₀.decision = none)
    (h : Run (GuardedSteps (fun s op => s.NoTimerFires op ∧ s.DecidesAtRest op) (step p)) s₀ ls s) :
    p.min ≤ s.registry.lst.len := by
  obtain ⟨hreq, hidle⟩ := hrest
  have hs₀ : s₀.registry.Sound := Registry.Sound.init.run (registry_run h₀)
  have hc₀ : Covered p s₀ :=
    ⟨hs₀, fun hne => absurd hidle hne, by simpa [hreq, promised, hdec, hidle, Scan.delta] using hmin⟩
  have hc : Covered p s := by
    apply h.invariant hc₀
    intro s l s' hc ⟨⟨ht, hg⟩, hs⟩
    exact hc.step hinc hs ht hg
  have := hc.minimum
  omega

theorem minimum_kept_scale_down :
    ∃ ls₀ s₀ ls s, Run (Steps (step exampleProvisioner)) (.init exampleProvisioner 5) ls₀ s₀ ∧
      s₀.registry.lst.len = 3 ∧ s₀.AtRest ∧ s₀.decision = none ∧
      Run (GuardedSteps (fun s op => s.NoTimerFires op ∧ s.DecidesAtRest op)
        (step exampleProvisioner)) s₀ ls s ∧
      s.registry.lst.toList = [0, 2] ∧ exampleProvisioner.min ≤ s.registry.lst.len := by
  have ⟨s₀, ls₀, h₀, ht₀⟩ : ∃ s₀ ls₀,
      Run (Steps (step exampleProvisioner)) (.init exampleProvisioner 5) ls₀ s₀ ∧
      (decide (s₀.registry.lst.len = 3 ∧ s₀.AtRest ∧ s₀.decision = none) &&
        passes (restrict (fun s op => s.NoTimerFires op ∧ s.DecidesAtRest op)
          (step exampleProvisioner)) s₀
          ([.handleScaling, .receive] ++ exampleSend 1 ++ exampleHandle ++ [.handleScaling, .receive])
          fun s _ => decide (s.registry.lst.toList = [0, 2])) = true :=
    Run.of_passes exampleStart (by decide +kernel)
  have ⟨ht, hp⟩ := Bool.and_eq_true_iff.mp ht₀
  have ⟨hlen, hrest, hdec⟩ := of_decide_eq_true ht
  have ⟨s, ls, h, hl⟩ := Run.of_passes_restrict _ hp
  have hmin : exampleProvisioner.min ≤ s₀.registry.lst.len := by rw [hlen]; decide
  exact ⟨ls₀, s₀, ls, s, h₀, hlen, hrest, hdec, h, of_decide_eq_true hl,
    minimum_kept (by decide) h₀ hmin hrest hdec h⟩

-- Two decisions are taken on the same list of three containers, and a request is sent for each.
theorem minimum_not_kept :
    ∃ ls₀ s₀ ls s, Run (Steps (step exampleProvisioner)) (.init exampleProvisioner 5) ls₀ s₀ ∧
      exampleProvisioner.min ≤ s₀.registry.lst.len ∧ s₀.requests = 0 ∧
      Run (GuardedSteps NoTimerFires (step exampleProvisioner)) s₀ ls s ∧
      s.registry.lst.len < exampleProvisioner.min := by
  have ⟨s₀, ls₀, h₀, ht₀⟩ : ∃ s₀ ls₀,
      Run (Steps (step exampleProvisioner)) (.init exampleProvisioner 5) ls₀ s₀ ∧
      (decide (exampleProvisioner.min ≤ s₀.registry.lst.len ∧ s₀.requests = 0) &&
        passes (restrict NoTimerFires (step exampleProvisioner)) s₀
          ([.handleScaling, .receive, .handleScaling] ++ exampleSend 1 ++ [.receive] ++
            exampleSend 0 ++ exampleHandle ++ exampleHandle)
          fun s _ => decide (s.registry.lst.len < exampleProvisioner.min)) = true :=
    Run.of_passes exampleStart (by decide +kernel)
  have ⟨ht, hp⟩ := Bool.and_eq_true_iff.mp ht₀
  have ⟨hmin, hreq⟩ := of_decide_eq_true ht
  have ⟨s, ls, h, hl⟩ := Run.of_passes_restrict _ hp
  exact ⟨ls₀, s₀, ls, s, h₀, hmin, hreq, h, of_decide_eq_true hl⟩

end Sys
end Cnt
