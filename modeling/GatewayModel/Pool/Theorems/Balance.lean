import GatewayModel.Pool.Theorems.Accounting
import GatewayModel.Pool.Theorems.Safety

open Go Execution RoundRobin

-- How the calls of `Get` load the containers.
namespace Pool.State

variable {s s' s₁ s₂ : State} {r : Rotation ElemId} {evs : Trace} {ls ls₁ ls₂ : List (Op × Trace)}
  {x y : ElemId}

def fluxesOf (s : State) (e : ElemId) : Int :=
  ((s.containerOf e).bind s.containers.load).elim 0 (·.fluxes.toInt)

-- The step is a `Get`, which only opens a flow that fits into the `Fluxes` of the container, or time
-- passes.
def OpensFlow (s : State) : Op → Prop
  | .get crc => (s.SlowPath crc) → ∀ c ∈ s.chosen, c.fluxes < 127
  | .wait _  => True
  | _        => False

instance : (op : Op) → Decidable (OpensFlow s op)
  | .get crc => inferInstanceAs (Decidable ((s.SlowPath crc) → ∀ c ∈ s.chosen, c.fluxes < 127))
  | .wait _  => .isTrue trivial
  | .add .. | .next | .delete _ | .tick _ | .stop _ => .isFalse id

theorem OpensFlow.step (hi : Intact s (live evs)) (hs : Stepped s op tr s') (hg : s.OpensFlow op) :
    ∃ es : List ElemId, tr = es.map .next ∧
      ∀ e ∈ live evs, s'.fluxesOf e = s.fluxesOf e + es.count e := by
  cases hs
  case wait => exact ⟨[], rfl, fun e _ => (Int.add_zero _).symm⟩
  case get reply crc hg' =>
    refine ⟨reply.elem.toList, rfl, fun e he => ?_⟩
    cases hg'
    case fast => exact (Int.add_zero _).symm
    case slow cpe x i c hsp hc hx hxi hl _ =>
      have hcont := (containerOf_eq hx).trans hxi
      have hic : i = cpe := hi.own cpe i hcont
      have hlt : c.fluxes < 127 := hg hsp c (by simp [chosen, hc, hcont, hl])
      have he := hi.has e he
      have hes : (s.assigned crc cpe x i).containerOf e = some e := containerOf_assigned (s := s) ▸ he
      simp only [fluxesOf, he, hes, Option.bind_some, Option.toList_some, List.count_singleton,
        beq_iff_eq]
      by_cases hec : cpe = e
      case pos =>
        have hl : s.containers.load e = some c := hec ▸ hic ▸ hl
        have hl' : (s.assigned crc cpe x i).containers.load e = some c.incFluxes := by
          simp [State.assigned, hic, hec, hl]
        rw [hl, hl', if_pos hec]
        exact Container.toInt_incFluxes hlt
      case neg =>
        have hl' : (s.assigned crc cpe x i).containers.load e = s.containers.load e :=
          Heap.load_modify_ne (hic ▸ Ne.symm hec)
        rw [hl', if_neg hec]
        exact (Int.add_zero _).symm
  all_goals exact hg.elim

theorem run_opensFlow (h₁ : PoolRun age ls₁ s₁) (h₂ : Run (GuardedSteps OpensFlow step) s₁ ls₂ s₂) :
    PoolRun age (ls₁ ++ ls₂) s₂ ∧ ∃ es : List ElemId, trace ls₂ = es.map .next ∧
      ∀ e ∈ live (trace ls₁), s₂.fluxesOf e = s₁.fluxesOf e + es.count e := by
  induction h₂
  case refl => exact ⟨by simpa using h₁, [], rfl, by simp⟩
  case tail ls s l s' _ hs hi =>
    obtain ⟨hr, es, ht, hf⟩ := hi
    obtain ⟨hg, hs⟩ := hs
    obtain ⟨_, _, hint⟩ := exists_intact hr
    have hlive : live (trace (ls₁ ++ ls)) = live (trace ls₁) := by
      rw [trace, List.flatMap_append, ← trace, ← trace, ht, Refines.live_nexts]
    obtain ⟨es', ht', hf'⟩ := OpensFlow.step hint (step_inv hs) hg
    refine ⟨List.append_assoc .. ▸ hr.tail hs, es ++ es', ?_, fun e he => ?_⟩
    case refine_1 => rw [trace_concat, ht, ht', List.map_append]
    case refine_2 =>
      rw [hf' e (hlive ▸ he), hf e he, List.count_append]
      push_cast
      omega

-- Opening flows loads the containers evenly: while the elements on the ring stay the same and no flow
-- expires, the `Fluxes` of no container grows by more than one more than that of another one.
theorem gets_balanced (h₁ : PoolRun age ls₁ s₁) (h₂ : Run (GuardedSteps OpensFlow step) s₁ ls₂ s₂)
    (hx : x ∈ live (trace ls₁)) (hy : y ∈ live (trace ls₁)) :
    s₂.fluxesOf x - s₁.fluxesOf x ≤ s₂.fluxesOf y - s₁.fluxesOf y + 1 := by
  obtain ⟨hr, es, ht, hf⟩ := run_opensFlow h₁ h₂
  obtain ⟨r, hr⟩ := exists_refines hr
  have hh : History (trace ls₁ ++ es.map .next) r := by
    have := hr.history
    rwa [trace, List.flatMap_append, ← trace, ← trace, ht] at this
  obtain ⟨r₁, hh₁, hrun⟩ := hh.split
  have hc (e : ElemId) : (es.map Event.next).count (.next e) = es.count e :=
    List.count_map_of_injective _ _ (fun _ _ he => Event.next.inj he) _
  have hb := RoundRobin.balanced hh₁.order_nodup hrun (by simp) (hh₁.order_eq ▸ hx) (hh₁.order_eq ▸ hy)
  rw [hc, hc] at hb
  rw [hf x hx, hf y hy]
  omega

def exampleGets : List Op :=
  [.get 8, .wait 1, .get 9, .get 10]

theorem gets_balanced_three :
    ∃ ls₁ ls₂ s₁ s₂, PoolRun 5 ls₁ s₁ ∧ Run (GuardedSteps OpensFlow step) s₁ ls₂ s₂ ∧
      live (trace ls₁) = [0, 1] ∧ s₂.fluxesOf 0 = 2 ∧ s₂.fluxesOf 1 = 2 ∧
      s₂.fluxesOf 1 - s₁.fluxesOf 1 ≤ s₂.fluxesOf 0 - s₁.fluxesOf 0 + 1 := by
  have ⟨s₁, ls₁, h₁, ht₁⟩ : ∃ s₁ ls₁, Run (Steps step) (.init 5) ls₁ s₁ ∧
      decide (live (trace ls₁) = [0, 1] ∧
        passes (restrict OpensFlow step) s₁ exampleGets (fun s₂ _ =>
          decide (s₂.fluxesOf 0 = 2 ∧ s₂.fluxesOf 1 = 2)) = true) = true :=
    Run.of_passes [.add (some 0) (some 0) 0 false 10, .add (some 1) (some 1) 1 false 10, .get 7]
      (by decide +kernel)
  have ⟨hl, hp⟩ := of_decide_eq_true ht₁
  have ⟨s₂, ls₂, h₂, ht₂⟩ := Run.of_passes_restrict exampleGets hp
  have ⟨hx, hy⟩ := of_decide_eq_true ht₂
  exact ⟨ls₁, ls₂, s₁, s₂, h₁, h₂, hl, hx, hy, gets_balanced h₁ h₂ (by simp [hl]) (by simp [hl])⟩

section Overload

def Overloaded (s : State) : Prop :=
  ∀ i c, (s.containers.load i = some c) → c.maxFluxes < c.fluxes

def gets (ls : List (Op × Trace)) : List Crc :=
  ls.filterMap fun
    | (.get crc, _) => some crc
    | _             => none

theorem Overloaded.step (ho : s.Overloaded) (hs : Stepped s op tr s') (hg : s.OpensFlow op) :
    s'.Overloaded ∧ tr.length = (gets [(op, tr)]).length ∧
      s'.watchers.length = s.watchers.length + tr.length := by
  cases hs
  case wait => exact ⟨ho, rfl, rfl⟩
  case get hg' =>
    cases hg'
    case fast i c _ _ hl hle =>
      have := ho i c hl
      exact absurd (Int8.le_iff_toInt_le.mp hle) (Int.not_le.mpr (Int8.lt_iff_toInt_lt.mp this))
    case slow cpe x i c hsp hc hx hxi hl _ =>
      refine ⟨fun j c' hl' => ?_, rfl, List.length_append⟩
      have hcont := (containerOf_eq hx).trans hxi
      have hlt : c.fluxes < 127 := hg hsp c (by simp [chosen, hc, hcont, hl])
      simp only [State.assigned] at hl'
      by_cases hj : j = i
      case pos =>
        subst hj
        rw [Heap.load_modify_self, hl] at hl'
        cases hl'
        have hover : c.maxFluxes.toInt < c.fluxes.toInt := Int8.lt_iff_toInt_lt.mp (ho j c hl)
        have hinc := Container.toInt_incFluxes hlt
        have hmax : c.incFluxes.maxFluxes = c.maxFluxes := rfl
        exact Int8.lt_iff_toInt_lt.mpr (by rw [hmax]; omega)
      case neg =>
        rw [Heap.load_modify_ne hj] at hl'
        exact ho j c' hl'
  all_goals exact hg.elim

-- Under overload the flow table keeps no flow: while no container is within its limit, each call of `Get`
-- takes an element from the ring and starts a watcher, also for a flow that is open already.
theorem overloaded_gets_open (ho : s₁.Overloaded) (h : Run (GuardedSteps OpensFlow step) s₁ ls s₂) :
    (trace ls).length = (gets ls).length ∧
    s₂.watchers.length = s₁.watchers.length + (gets ls).length := by
  have hinv : s₂.Overloaded ∧ (trace ls).length = (gets ls).length ∧
      s₂.watchers.length = s₁.watchers.length + (gets ls).length := by
    refine h.invariant_labels (P := fun ls s₂ => s₂.Overloaded ∧ (trace ls).length = (gets ls).length ∧
      s₂.watchers.length = s₁.watchers.length + (gets ls).length) ⟨ho, rfl, rfl⟩ ?_
    rintro ls s ⟨op, tr⟩ s' ⟨ho, ht, hw⟩ ⟨hg, hs⟩
    obtain ⟨ho', ht', hw'⟩ := ho.step (step_inv hs) hg
    have hcat : (gets (ls ++ [(op, tr)])).length = (gets ls).length + (gets [(op, tr)]).length := by
      rw [gets, List.filterMap_append, List.length_append, ← gets, ← gets]
    rw [hcat, trace_concat, List.length_append]
    exact ⟨ho', by rw [ht, ht'], by rw [hw', hw, ht', Nat.add_assoc]⟩
  exact hinv.right

def exampleAgain : List Op :=
  [.get 7, .get 7, .get 8]

theorem overloaded_gets_open_again :
    ∃ ls₁ ls₂ s₁ s₂, PoolRun 5 ls₁ s₁ ∧ Run (GuardedSteps OpensFlow step) s₁ ls₂ s₂ ∧
      gets ls₂ = [7, 7, 8] ∧ s₁.watchers.length = 2 ∧
      s₂.watchers.length = s₁.watchers.length + (gets ls₂).length := by
  have ⟨s₁, ls₁, h₁, ht₁⟩ : ∃ s₁ ls₁, Run (Steps step) (.init 5) ls₁ s₁ ∧
      decide (s₁.watchers.length = 2 ∧ s₁.containers.size = 2 ∧
        (∀ i ∈ List.range 2, ∀ c ∈ s₁.containers.load i, c.maxFluxes < c.fluxes) ∧
        passes (restrict OpensFlow step) s₁ exampleAgain
          (fun _ ls₂ => decide (gets ls₂ = [7, 7, 8])) = true) = true :=
    Run.of_passes [.add (some 0) (some 0) 0 false 0, .add (some 1) (some 1) 1 false 0, .get 7, .get 8]
      (by decide +kernel)
  have ⟨hw, hz, ho, hp⟩ := of_decide_eq_true ht₁
  have ⟨s₂, ls₂, h₂, ht₂⟩ := Run.of_passes_restrict exampleAgain hp
  have ho : s₁.Overloaded := fun i c hl => ho i (List.mem_range.mpr (hz ▸ Heap.lt_size_of_load hl)) c hl
  exact ⟨ls₁, ls₂, s₁, s₂, h₁, h₂, of_decide_eq_true ht₂, hw, (overloaded_gets_open ho h₂).right⟩

end Overload

end Pool.State
