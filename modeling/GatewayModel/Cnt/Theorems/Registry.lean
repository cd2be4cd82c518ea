import GatewayModel.Cnt.Registry
import GatewayModel.Cnt.Theorems.ContainerList
import GatewayModel.Pool.Theorems.Accounting

open Go Execution Pool

namespace Cnt.Registry

theorem step_pool_inv {g g' : Registry} (hs : g.step (.pool op) = .ok (g', tr)) :
    State.Stepped g.pool op tr g'.pool := by
  simp only [step, bind_eq_ok, Prod.exists] at hs
  have ⟨_, _, hs, hg⟩ := hs
  split at hg <;> cases hg <;> exact State.step_inv hs

theorem step_removeContainer_inv {g g' : Registry}
    (hs : g.step (.removeContainer cnt) = .ok (g', tr)) :
    ∃ cl, g.lst.removeContainer cnt = .ok cl ∧ g' = { g with lst := cl } ∧ tr = [] := by
  simp only [step, bind_eq_ok, pure_eq_ok, Prod.mk.injEq] at hs
  have ⟨cl, hr, hg, ht⟩ := hs
  exact ⟨cl, hr, hg.symm, ht.symm⟩

def MaxFluxesIs (m : Int8) (_ : Registry) : Op → Prop
  | .pool (.add _ _ _ _ maxFluxes) => maxFluxes = m
  | _                              => True

-- The flows that `Get` and `Delete` assign to a container fit into its `Fluxes`.
def FitsInt8 (g : Registry) : Op → Prop
  | .pool (.get crc)   => (g.pool.SlowPath crc) → ∀ c ∈ g.pool.chosen, c.fluxes < 127
  | .pool (.delete ce) => (g.pool.isAlive ce) →
      ∀ c ∈ ((g.pool.replacement ce).bind g.pool.containerOf).bind g.pool.containers.load,
        c.fluxes.toInt + (g.pool.portsOf ce).length ≤ 127
  | _                  => True

instance {m : Int8} {g : Registry} : (op : Op) → Decidable (MaxFluxesIs m g op)
  | .pool (.add _ _ _ _ maxFluxes) => inferInstanceAs (Decidable (maxFluxes = m))
  | .pool .next | .pool (.get _) | .pool (.delete _) | .pool (.tick _) | .pool (.stop _)
  | .pool (.wait _) | .removeContainer _ => .isTrue trivial

instance {g : Registry} : (op : Op) → Decidable (g.FitsInt8 op)
  | .pool (.get crc)   => inferInstanceAs (Decidable ((g.pool.SlowPath crc) →
      ∀ c ∈ g.pool.chosen, c.fluxes < 127))
  | .pool (.delete ce) => inferInstanceAs (Decidable ((g.pool.isAlive ce) →
      ∀ c ∈ ((g.pool.replacement ce).bind g.pool.containerOf).bind g.pool.containers.load,
        c.fluxes.toInt + (g.pool.portsOf ce).length ≤ 127))
  | .pool (.add ..) | .pool .next | .pool (.tick _) | .pool (.stop _) | .pool (.wait _)
  | .removeContainer _ => .isTrue trivial

def Nonnegative (s : State) (m : Int8) : Prop :=
  ∀ i c, (s.containers.load i = some c) → 0 ≤ c.fluxes.toInt ∧ c.maxFluxes = m

section Nonnegative

variable {s s' : State} {m : Int8} {c : Container}

theorem toInt_decFluxes_nonneg (h : 0 ≤ c.fluxes.toInt) : 0 ≤ c.decFluxes.fluxes.toInt := by
  by_cases hz : 0 < c.fluxes.toInt
  case pos =>
    rw [Container.toInt_decFluxes hz]
    omega
  case neg =>
    have hn : ¬ c.fluxes > 1 := by
      intro hc
      have : 1 < c.fluxes.toInt := Int8.lt_iff_toInt_lt.mp hc
      omega
    simp [Container.decFluxes, hn]

theorem Nonnegative.modify (h : Nonnegative s m) (hs : s'.containers = s.containers.modify i f)
    (hl : s.containers.load i = some c) (hf : 0 ≤ (f c).fluxes.toInt ∧ (f c).maxFluxes = c.maxFluxes) :
    Nonnegative s' m := by
  intro j c' hj
  rw [hs, Heap.load_modify] at hj
  split at hj
  case isFalse => exact h j c' hj
  case isTrue hji =>
    rw [hji, hl] at hj
    cases hj
    exact ⟨hf.left, hf.right.trans (h i c hl).right⟩

theorem Nonnegative.congr (h : Nonnegative s m) (hs : s'.containers = s.containers) :
    Nonnegative s' m :=
  fun i c hc => h i c (hs ▸ hc)

theorem Nonnegative.step {g : Registry} (h : Nonnegative g.pool m)
    (hs : State.Stepped g.pool op tr s') (hm : MaxFluxesIs m g (.pool op))
    (hg : g.FitsInt8 (.pool op)) (hr : State.Refines g.pool evs r) : Nonnegative s' m := by
  cases hs
  case add cnt hc ha =>
    have hs : s'.containers = g.pool.containers.alloc cnt := by cases ha <;> rfl
    intro i c hl
    rw [hs, Heap.load_alloc] at hl
    split at hl
    case isFalse => exact h i c hl
    case isTrue  =>
      cases hl
      rw [hc]
      exact ⟨le_refl _, hm⟩
  case next hn =>
    obtain ⟨_, _, _, hs⟩ := State.next_inv hn
    exact h.congr (hs ▸ rfl)
  case get hg' =>
    cases hg'
    case fast => exact h.congr rfl
    case slow cpe e i c hsp hc he hi hl _ =>
      have hlt : c.fluxes < 127 := hg hsp c (by simp [State.chosen, hc, State.containerOf_eq he, hi, hl])
      apply h.modify rfl hl
      have := (h i c hl).left
      exact ⟨by rw [Container.toInt_incFluxes hlt]; omega, rfl⟩
  case delete ce s₁ s₂ hu hc ho =>
    have hf := hu.sameFlows.trans (State.clear_sameFlows hc)
    have ha := hr.isAlive_iff.mpr (hr.mem_live_of_unlinked hu hc)
    have hcur : s₂.currElem = g.pool.replacement ce := by
      obtain ⟨_, _, _, hs⟩ := State.clear_inv hc
      rw [← hu.currElem, hs]
      rfl
    cases ho
    case idle => exact h.congr hf.containers
    case moved e rCe r i c he _ hc' hrl hi hl =>
      have hfit := hg ha c (by
        rw [← hcur, hc', ← hf.containerOf, ← hf.containers]
        simp [State.containerOf_eq hrl, hi, hl])
      rw [← hf.portsOf, State.portsOf_eq he] at hfit
      have hl' : g.pool.containers.load i = some c := hf.containers ▸ hl
      have := (h i c hl').left
      have hinc : 0 ≤ (Container.incFluxes^[e.ports.length] c).fluxes.toInt := by
        rw [Container.toInt_incFluxes_iterate hfit]
        omega
      exact h.modify (by rw [← hf.containers]; rfl) hl' ⟨hinc, by rw [Container.incFluxes_iterate]⟩
  case deleteAgain hu => cases hu; exact h.congr rfl
  case tick hk =>
    cases hk
    case idle => exact h
    case expired w e j c _ _ _ _ hl =>
      apply h.modify rfl hl
      refine ⟨toInt_decFluxes_nonneg (h j c hl).left, ?_⟩
      unfold Container.decFluxes
      split <;> rfl
  case stop hk =>
    cases hk
    case inl hs => exact hs ▸ h
    case inr hs => exact h.congr (hs ▸ rfl)
  case wait => exact h.congr rfl

end Nonnegative

structure Sound (g : Registry) : Prop where
  nodup : g.lst.toList.Nodup
  alloc : ∀ cnt ∈ g.lst.toList, cnt < g.pool.containers.size

namespace Sound

variable {g g' : Registry} {s : State}

theorem init {age : Int} : Sound (.init age) where
  nodup := .nil
  alloc := by simp [Registry.init]

theorem grow (h : Sound g) (hz : g.pool.containers.size ≤ s.containers.size) :
    Sound { g with pool := s } where
  nodup        := h.nodup
  alloc cnt hm := lt_of_lt_of_le (h.alloc cnt hm) hz

theorem add (h : Sound g) (hz : s.containers.size = g.pool.containers.size + 1) :
    Sound { pool := s, lst := g.lst.addContainer g.pool.containers.size } where
  nodup := by
    rw [ContainerList.addContainer, Slice.toList_push]
    refine List.nodup_append.mpr ⟨h.nodup, List.nodup_singleton _, fun a ha b hb hab => ?_⟩
    exact ne_of_lt (h.alloc a ha) (hab.trans (List.mem_singleton.mp hb))
  alloc := by
    intro cnt hm
    rw [ContainerList.addContainer, Slice.toList_push] at hm
    cases List.mem_append.mp hm
    case inl hm => exact hz ▸ Nat.lt_succ_of_lt (h.alloc cnt hm)
    case inr hm => exact hz ▸ List.mem_singleton.mp hm ▸ Nat.lt_succ_self _

theorem removeContainer (h : Sound g) (hr : g.lst.removeContainer cnt = .ok cl) :
    Sound { g with lst := cl } := by
  have ⟨_, hr', hl⟩ := ContainerList.removeContainer_eq h.nodup cnt
  cases hr.symm.trans hr'
  constructor
  case nodup => exact hl ▸ h.nodup.erase cnt
  case alloc => exact hl ▸ fun c hm => h.alloc c (List.mem_of_mem_erase hm)

end Sound

theorem size_containers_step {s s' : State} (hs : State.Stepped s op tr s') :
    s'.containers.size = s.containers.size + if (op matches .add ..) then 1 else 0 := by
  cases hs
  case add ha =>
    cases ha <;> exact Heap.size_alloc
  case next hn =>
    have ⟨_, _, _, hs⟩ := State.next_inv hn
    simp [hs]
  case get hg => cases hg <;> simp [State.assigned, State.touch]
  case delete hu hc ho =>
    have hf := hu.sameFlows.trans (State.clear_sameFlows hc)
    rw [← hf.containers]
    cases ho
    case idle  => rfl
    case moved => exact Heap.size_modify
  case deleteAgain hu => cases hu; rfl
  case tick hk => cases hk <;> simp
  case stop hk =>
    cases hk
    case inl hs => simp [hs]
    case inr hs => simp [hs]
  case wait => rfl

theorem Sound.step (h : Sound g) (hs : g.step op = .ok (g', tr)) : Sound g' := by
  cases op
  case removeContainer =>
    have ⟨_, hr, hg, _⟩ := step_removeContainer_inv hs
    exact hg ▸ h.removeContainer hr
  case pool op =>
    simp only [Registry.step, bind_eq_ok, Prod.exists] at hs
    have ⟨s, _, hs, hg⟩ := hs
    have hz := size_containers_step (State.step_inv hs)
    split at hg
    case h_1 =>
      cases hg
      exact h.add hz
    case h_2 =>
      cases hg
      exact h.grow (by omega)

theorem nonnegative_of_run
    (h : Run (GuardedSteps (fun g op => MaxFluxesIs m g op ∧ g.FitsInt8 op) step) (.init age) ls g) :
    Sound g ∧ Nonnegative g.pool m := by
  obtain ⟨_, _, h₁, h₂⟩ : ∃ r, State.Refines g.pool (ls.flatMap (·.2)) r ∧ Sound g ∧
      Nonnegative g.pool m := by
    refine h.invariant_labels (P := fun ls g => ∃ r, State.Refines g.pool (ls.flatMap (·.2)) r ∧
      Sound g ∧ Nonnegative g.pool m)
      ⟨_, .init, .init, by simp [Nonnegative, Registry.init, State.init]⟩ ?_
    rintro ls g ⟨op, tr⟩ g' ⟨r, hr, h₁, h₂⟩ ⟨⟨hm, hf⟩, hs⟩
    have h₁' := h₁.step hs
    cases op
    case removeContainer =>
      obtain ⟨_, _, hg, ht⟩ := step_removeContainer_inv hs
      subst hg ht
      exact ⟨r, by simpa using hr, h₁', h₂⟩
    case pool op =>
      have hs := step_pool_inv hs
      obtain ⟨r', hr'⟩ := hr.step hs
      exact ⟨r', by simpa using hr', h₁', h₂.step hs hm hf hr⟩
  exact ⟨h₁, h₂⟩

-- In every run with `MaxFluxes = 10` in which the assigned flows fit into `Fluxes`, the load of a
-- non-empty list is a fraction.
theorem load_fraction
    (h : Run (GuardedSteps (fun g op => MaxFluxesIs 10 g op ∧ g.FitsInt8 op) step) (.init age) ls g)
    (hn : g.lst.toList ≠ []) :
    ∃ sum lp, ContainerList.loadSum g.pool 0 g.lst.toList = .ok sum ∧ sum.toNat ≤ g.lst.len ∧
      g.lst.getLoadPercentage g.pool = .ok (g.lst.len, some lp) ∧ 0 ≤ lp ∧ lp ≤ 1 := by
  have ⟨h₁, h₂⟩ := nonnegative_of_run h
  apply ContainerList.getLoadPercentage_le hn
  intro cnt hm
  have ⟨c, hc⟩ := Heap.exists_load (h₁.alloc cnt hm)
  exact ⟨c, hc, h₂ cnt c hc⟩

theorem load_fraction_overloaded :
    ∃ ls g, Run (GuardedSteps (fun g op => MaxFluxesIs 10 g op ∧ g.FitsInt8 op) step) (.init 5) ls g ∧
      g.lst.toList = [1] ∧
      ∃ sum lp, ContainerList.loadSum g.pool 0 g.lst.toList = .ok sum ∧ sum.toNat ≤ g.lst.len ∧
        g.lst.getLoadPercentage g.pool = .ok (g.lst.len, some lp) ∧ 0 ≤ lp ∧ lp ≤ 1 := by
  have ⟨g, ls, h, ht⟩ : ∃ g ls, Run (GuardedSteps (fun g op => MaxFluxesIs 10 g op ∧
      g.FitsInt8 op) step) (.init 5) ls g ∧ decide (g.lst.toList = [1]) = true :=
    Run.of_passes_restrict ([.pool (.add (some 0) (some 0) 0 false 10),
      .pool (.add (some 1) (some 1) 1 false 10), .pool (.delete 0), .removeContainer 0] ++
      (List.range 11).map fun crc => .pool (.get crc.toUInt16)) (by decide)
  have hl := of_decide_eq_true ht
  exact ⟨ls, g, h, hl, load_fraction h (by simp [hl])⟩

-- A container takes 128 flows, with which its `Fluxes` becomes negative.
theorem load_no_fraction :
    ∃ ls g, Run (GuardedSteps (MaxFluxesIs 10) step) (.init 5) ls g ∧ g.lst.toList = [0] ∧
      ContainerList.loadSum g.pool 0 g.lst.toList = .ok 4294967284 := by
  have ⟨g, ls, h, ht⟩ : ∃ g ls, Run (GuardedSteps (MaxFluxesIs 10) step) (.init 5) ls g ∧
      decide (g.lst.toList = [0] ∧
        ContainerList.loadSum g.pool 0 g.lst.toList = .ok 4294967284) = true :=
    Run.of_passes_restrict (.pool (.add (some 0) (some 0) 0 false 10) ::
      (List.range 128).map fun crc => .pool (.get crc.toUInt16)) (by decide +kernel)
  exact ⟨ls, g, h, of_decide_eq_true ht⟩

end Cnt.Registry
