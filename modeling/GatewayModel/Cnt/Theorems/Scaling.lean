import Mathlib.Tactic.Linarith
import GatewayModel.Cnt.Provisioner
import GatewayModel.Cnt.Theorems.ContainerList

open Go Pool

-- The decisions of `calculateScalingDelta`, compared with the load of the containers.
namespace Cnt

variable {s : State} {cl : ContainerList} {upThr downThr upInc downDec lp : ℚ} {min : Int}

section Load

variable {c : Container} {cs : List Container} {cnts : List ContainerId}

def share (c : Container) : ℚ :=
  1 ⊓ (c.fluxes.toInt / c.maxFluxes.toInt)

def exactLoad (cs : List Container) : ℚ :=
  (cs.map share).sum / cs.length

structure Container.Regular (c : Container) : Prop where
  fluxes    : 0 ≤ c.fluxes.toInt
  maxFluxes : 0 < c.maxFluxes.toInt

def saturated (cs : List Container) : Nat :=
  cs.countP (fun c => c.maxFluxes ≤ c.fluxes)

theorem loadSum_eq (sum : UInt32) (hcs : cnts.map s.containers.load = cs.map some)
    (hr : ∀ c ∈ cs, Container.Regular c) :
    ∃ t, ContainerList.loadSum s sum cnts = .ok t ∧ t.toNat = (sum.toNat + saturated cs) % 2 ^ 32 := by
  induction cs generalizing cnts sum
  case nil =>
    cases List.map_eq_nil_iff.mp hcs
    exact ⟨sum, rfl, (Nat.mod_eq_of_lt sum.toNat_lt).symm⟩
  case cons c cs hi =>
    have ⟨cnt, cnts', hcnts, hc, hcs'⟩ := List.map_eq_cons_iff.mp hcs
    subst hcnts
    have r := hr c (by simp)
    have hterm := ContainerList.loadTerm_eq r.fluxes r.maxFluxes
    generalize ha : (if c.maxFluxes ≤ c.fluxes then 1 else 0 : UInt32) = a at hterm
    have hat : a.toNat = if c.maxFluxes ≤ c.fluxes then 1 else 0 := by
      rw [← ha]
      split <;> rfl
    have ⟨t, ht, hsum⟩ := hi (sum + a) hcs' (fun c hm => hr c (by simp [hm]))
    refine ⟨t, ?_, ?_⟩
    case refine_1 => simpa [ContainerList.loadSum, State.container, hc, hterm, ok_bind] using ht
    case refine_2 =>
      rw [hsum, UInt32.toNat_add, Nat.mod_add_mod, hat, saturated, saturated, List.countP_cons]
      simp only [decide_eq_true_eq]
      rw [Nat.add_assoc, Nat.add_comm (List.countP ..)]

-- The load that `GetLoadPercentage` calculates.
def countedLoad (cs : List Container) : ℚ :=
  (saturated cs % 2 ^ 32 : Nat) / cs.length

theorem len_eq_length (hcs : cl.toList.map s.containers.load = cs.map some) : cl.len = cs.length := by
  simpa using congrArg List.length hcs

theorem getLoadPercentage_eq (hcs : cl.toList.map s.containers.load = cs.map some)
    (hr : ∀ c ∈ cs, Container.Regular c) (hne : cs ≠ []) :
    cl.getLoadPercentage s = .ok (cl.len, some (countedLoad cs)) := by
  have hlen := len_eq_length hcs
  have hz : ¬ cl.len = 0 := by
    rw [hlen]
    exact mt List.eq_nil_of_length_eq_zero hne
  have ⟨t, ht, hs⟩ := loadSum_eq 0 hcs hr
  rw [ContainerList.getLoadPercentage, ht, ok_bind, if_neg hz, hs, hlen]
  simp [countedLoad, Pure.pure, Except.pure]

-- A container that is idle or has reached its limit is counted as what it is.
def Extreme (c : Container) : Prop :=
  c.fluxes = 0 ∨ c.maxFluxes ≤ c.fluxes

theorem le_share (r : Container.Regular c) : (if c.maxFluxes ≤ c.fluxes then 1 else 0) ≤ share c ∧
    (share c = (if c.maxFluxes ≤ c.fluxes then 1 else 0) ↔ Extreme c) := by
  have hm : (0 : ℚ) < c.maxFluxes.toInt := by exact_mod_cast r.maxFluxes
  have hf : (0 : ℚ) ≤ c.fluxes.toInt := by exact_mod_cast r.fluxes
  split
  case isTrue hle =>
    have hq : (c.maxFluxes.toInt : ℚ) ≤ c.fluxes.toInt := by
      exact_mod_cast Int8.le_iff_toInt_le.mp hle
    have hs : share c = 1 := inf_eq_left.mpr ((one_le_div₀ hm).mpr hq)
    exact ⟨hs.ge, fun _ => .inr hle, fun _ => hs⟩
  case isFalse hle =>
    refine ⟨le_inf zero_le_one (div_nonneg hf hm.le), fun hs => .inl ?_, fun he => ?_⟩
    case refine_1 =>
      have hq : (c.fluxes.toInt : ℚ) / c.maxFluxes.toInt = 0 := by
        rcases min_choice (1 : ℚ) (c.fluxes.toInt / c.maxFluxes.toInt) with hc | hc
        case inl => exact absurd (hs.symm.trans hc) zero_ne_one
        case inr => exact hc.symm.trans hs
      have hz := (div_eq_zero_iff.mp hq).resolve_right hm.ne'
      exact Int8.toInt_inj.mp (by exact_mod_cast hz)
    case refine_2 => simp [share, he.resolve_right hle]

theorem saturated_le (hr : ∀ c ∈ cs, Container.Regular c) : saturated cs ≤ (cs.map share).sum ∧
    ((cs.map share).sum = saturated cs ↔ ∀ c ∈ cs, Extreme c) := by
  induction cs
  case nil => simp [saturated]
  case cons c cs hi =>
    obtain ⟨hle, heq⟩ := hi fun c hm => hr c (by simp [hm])
    obtain ⟨hle', heq'⟩ := le_share (hr c (by simp))
    have hc : (saturated (c :: cs) : ℚ) = (if c.maxFluxes ≤ c.fluxes then 1 else 0) + saturated cs := by
      simp only [saturated, List.countP_cons, decide_eq_true_eq]
      split <;> simp [add_comm]
    rw [List.map_cons, List.sum_cons, hc, List.forall_mem_cons, ← heq, ← heq']
    refine ⟨add_le_add hle' hle, fun he => ?_, fun ⟨h₁, h₂⟩ => by rw [h₁, h₂]⟩
    constructor <;> linarith

-- The load is never overestimated, and it is exact if no container uses a fraction of its limit and the
-- sum does not wrap around.
theorem countedLoad_le (hr : ∀ c ∈ cs, Container.Regular c) (hne : cs ≠ []) :
    countedLoad cs ≤ exactLoad cs ∧
    (countedLoad cs = exactLoad cs ↔ (∀ c ∈ cs, Extreme c) ∧ saturated cs < 2 ^ 32) := by
  have hpos : (0 : ℚ) < cs.length := by exact_mod_cast List.length_pos_of_ne_nil hne
  obtain ⟨hle, heq⟩ := saturated_le hr
  have hmod : ((saturated cs % 2 ^ 32 : Nat) : ℚ) ≤ saturated cs := by exact_mod_cast Nat.mod_le ..
  refine ⟨div_le_div_of_nonneg_right (hmod.trans hle) hpos.le, ?_⟩
  rw [countedLoad, exactLoad, div_left_inj' hpos.ne', ← heq]
  constructor
  case mp =>
    intro he
    refine ⟨by linarith, ?_⟩
    have hs : saturated cs % 2 ^ 32 = saturated cs := by
      have : ((saturated cs % 2 ^ 32 : Nat) : ℚ) = saturated cs := by linarith
      exact_mod_cast this
    exact hs ▸ Nat.mod_lt _ (by decide)
  case mpr =>
    intro ⟨he, hlt⟩
    rw [Nat.mod_eq_of_lt hlt, he]

-- What a decision should be, given the load.
structure FollowsLoad (load upThr downThr : ℚ) (delta : Int) : Prop where
  up      : (upThr ≤ load) → 0 < delta
  between : (downThr < load) → (load < upThr) → delta = 0
  down    : (load ≤ downThr) → delta ≤ 0

theorem followsLoad_of_eq (hl : cl.getLoadPercentage s = .ok (cl.len, some lp)) (hpos : 0 < cl.len)
    (hthr : downThr < upThr) (hinc : 0 < upInc) (downDec : Rat) (min : Int) :
    ∃ delta, calculateScalingDelta s cl upThr downThr upInc downDec min = .ok delta ∧
      FollowsLoad lp upThr downThr delta := by
  rw [calculateScalingDelta, hl, ok_bind]
  simp only [ge_iff_le]
  split
  case isTrue hup =>
    refine ⟨_, rfl, fun _ => ?_, fun _ hc => absurd hup (not_le.mpr hc), fun hc => ?_⟩
    case refine_1 =>
      have : (0 : ℚ) < cl.len * upInc := mul_pos (by exact_mod_cast hpos) hinc
      exact Rat.lt_ceil_iff.mpr (by exact_mod_cast this)
    case refine_2 => linarith
  case isFalse hup =>
    split
    case isTrue hdown =>
      have hmax : 1 ≤ max (cl.len * downDec).floor 1 := le_max_right ..
      split
      case isTrue  =>
        exact ⟨_, rfl, fun hc => absurd hc hup, fun hc => absurd hdown (not_le.mpr hc), fun _ => by omega⟩
      case isFalse =>
        exact ⟨_, rfl, fun hc => absurd hc hup, fun _ _ => rfl, fun _ => le_refl _⟩
    case isFalse hdown =>
      exact ⟨_, rfl, fun hc => absurd hc hup, fun _ _ => rfl, fun _ => le_refl _⟩

-- The decisions follow the exact load, for all thresholds, if and only if every container is idle or has
-- reached its limit and the sum does not wrap around.
theorem scaling_follows_load (hcs : cl.toList.map s.containers.load = cs.map some) (hne : cs ≠ [])
    (hr : ∀ c ∈ cs, Container.Regular c) :
    (∀ upThr downThr upInc downDec min, (downThr < upThr) → (0 < upInc) →
      ∃ delta, calculateScalingDelta s cl upThr downThr upInc downDec min = .ok delta ∧
        FollowsLoad (exactLoad cs) upThr downThr delta) ↔
    ((∀ c ∈ cs, Extreme c) ∧ saturated cs < 2 ^ 32) := by
  have hlp := getLoadPercentage_eq hcs hr hne
  have hpos : 0 < cl.len := len_eq_length hcs ▸ List.length_pos_of_ne_nil hne
  obtain ⟨hle, heq⟩ := countedLoad_le hr hne
  rw [← heq]
  constructor
  case mp =>
    -- Otherwise thresholds between the two loads ask for more containers, and none is added.
    intro h
    refine le_antisymm hle (le_of_not_gt fun hlt => ?_)
    obtain ⟨delta, hd, hf⟩ := h (exactLoad cs) (countedLoad cs) 1 0 0 hlt one_pos
    obtain ⟨delta', hd', hf'⟩ := followsLoad_of_eq hlp hpos hlt one_pos 0 0
    cases hd.symm.trans hd'
    exact absurd (hf.up (le_refl _)) (not_lt.mpr (hf'.down (le_refl _)))
  case mpr =>
    intro he upThr downThr upInc downDec min hthr hinc
    exact he ▸ followsLoad_of_eq hlp hpos hthr hinc downDec min

def exampleState (cs : List Container) : State :=
  let containers := cs.foldl Heap.alloc Heap.empty
  { State.init 0 with containers }

def exampleList (cs : List Container) : ContainerList where
  array := List.range cs.length
  len   := cs.length
  le    := by simp

def exampleContainer (fluxes maxFluxes : Int8) : Container where
  addr      := none
  fluxes    := fluxes
  id        := 1
  repl      := false
  maxFluxes := maxFluxes

theorem scaling_follows_load_mixed :
    let cs := [exampleContainer 0 2, exampleContainer 2 2, exampleContainer 0 2]
    ((exampleList cs).toList.map (exampleState cs).containers.load = cs.map some ∧
      (∀ c ∈ cs, Container.Regular c) ∧ (∀ c ∈ cs, Extreme c) ∧ saturated cs = 1) ∧
    ∃ delta, calculateScalingDelta (exampleState cs) (exampleList cs) (3 / 5) (3 / 10) (1 / 2) (2 / 5)
        1 = .ok delta ∧ FollowsLoad (exactLoad cs) (3 / 5) (3 / 10) delta := by
  intro cs
  have hcs : (exampleList cs).toList.map (exampleState cs).containers.load = cs.map some := by decide
  have hr : ∀ c ∈ cs, Container.Regular c := by
    simp only [cs, List.forall_mem_cons]
    exact ⟨⟨by decide, by decide⟩, ⟨by decide, by decide⟩, ⟨by decide, by decide⟩, by simp⟩
  have he : ∀ c ∈ cs, Extreme c := by
    simp only [cs, List.forall_mem_cons]
    exact ⟨.inl rfl, .inr (by decide), .inl rfl, by simp⟩
  have hs : saturated cs = 1 := by decide
  have h := (scaling_follows_load hcs (by simp [cs]) hr).mpr ⟨he, by rw [hs]; decide⟩
  exact ⟨⟨hcs, hr, he, hs⟩, h _ _ _ _ _ (by norm_num) (by norm_num)⟩

-- Two containers that use half of their limits, and two that are nearly full. With the configuration
-- of `ActionHandler`, one container is taken away in both cases.
theorem scaling_ignores_fractions :
    let half   := [exampleContainer 1 2, exampleContainer 1 2]
    let nearly := [exampleContainer 9 10, exampleContainer 9 10]
    ((exampleList half).toList.map (exampleState half).containers.load = half.map some ∧
      (exampleList nearly).toList.map (exampleState nearly).containers.load = nearly.map some) ∧
    (3 / 10 < exactLoad half ∧ exactLoad half < 3 / 5 ∧
      calculateScalingDelta (exampleState half) (exampleList half) (3 / 5) (3 / 10) (1 / 2) (2 / 5) 1 =
        .ok (-1)) ∧
    (3 / 5 ≤ exactLoad nearly ∧
      calculateScalingDelta (exampleState nearly) (exampleList nearly) (3 / 5) (3 / 10) (1 / 2) (2 / 5)
        1 = .ok (-1)) := by
  intro half nearly
  refine ⟨⟨?_, ?_⟩, ⟨?_, ?_, ?_⟩, ?_, ?_⟩ <;> decide +kernel

end Load

section Down

theorem getLoadPercentage_inv {r : Nat × Option ℚ} (h : cl.getLoadPercentage s = .ok r) :
    r.1 = cl.len := by
  simp only [ContainerList.getLoadPercentage, bind_eq_ok] at h
  obtain ⟨_, _, h⟩ := h
  split at h <;> cases h <;> rfl

theorem min_le_of_neg {delta : Int}
    (h : calculateScalingDelta s cl upThr downThr upInc downDec min = .ok delta) (hinc : 0 ≤ upInc)
    (hneg : delta < 0) : min ≤ cl.len + delta := by
  simp only [calculateScalingDelta, bind_eq_ok] at h
  obtain ⟨⟨n, lp⟩, hl, h⟩ := h
  have hn : n = cl.len := getLoadPercentage_inv hl
  subst hn
  dsimp only at h
  split at h
  case h_1 => cases h; contradiction
  case h_2 lp =>
    split at h
    case isTrue =>
      cases h
      have hc : (0 : ℚ) ≤ cl.len * upInc := mul_nonneg (Nat.cast_nonneg _) hinc
      have hn : -1 < (cl.len * upInc).ceil := Rat.lt_ceil_iff.mpr (by push_cast; linarith)
      omega
    case isFalse =>
      split at h
      case isTrue =>
        split at h <;> cases h
        case isTrue hge => exact hge
        case isFalse    => contradiction
      case isFalse => cases h; contradiction

theorem calculateScalingDelta_of_le (hl : cl.getLoadPercentage s = .ok (cl.len, some lp))
    (hlp : lp ≤ downThr) (hthr : downThr < upThr) :
    calculateScalingDelta s cl upThr downThr upInc downDec min =
      .ok (if cl.len + - max (cl.len * downDec).floor 1 ≥ min
        then - max (cl.len * downDec).floor 1 else 0) := by
  have hup : ¬ upThr ≤ lp := by linarith
  rw [calculateScalingDelta, hl, ok_bind]
  simp only [ge_iff_le, if_neg hup, if_pos hlp]
  split <;> rfl

-- Scaling down takes away at least one container and leaves at least `min` if and only if the full step
-- does not overshoot.
theorem scaling_down_progress (hl : cl.getLoadPercentage s = .ok (cl.len, some lp))
    (hlp : lp ≤ downThr) (hthr : downThr < upThr) (hlt : min < cl.len) :
    (∃ delta, calculateScalingDelta s cl upThr downThr upInc downDec min = .ok delta ∧
      delta < 0 ∧ min ≤ cl.len + delta ∧ cl.len + delta < cl.len) ↔
    (cl.len * downDec).floor ≤ cl.len - min := by
  have hle : 1 ≤ max (cl.len * downDec).floor 1 := le_max_right ..
  have hfl : (cl.len * downDec).floor ≤ max (cl.len * downDec).floor 1 := le_max_left ..
  rw [calculateScalingDelta_of_le hl hlp hthr]
  constructor
  case mp =>
    rintro ⟨delta, hd, hneg, hmin, _⟩
    split at hd <;> cases hd
    case isTrue  => omega
    case isFalse => contradiction
  case mpr =>
    intro h
    have hmax : max (cl.len * downDec).floor 1 ≤ cl.len - min := max_le h (by omega)
    rw [if_pos (by omega)]
    exact ⟨_, rfl, by omega, by omega, by omega⟩

theorem scaling_down_progress_five :
    let cs := List.replicate 5 (exampleContainer 0 2)
    ((exampleList cs).getLoadPercentage (exampleState cs) = .ok (5, some 0) ∧
      ((5 : ℚ) * (2 / 5)).floor ≤ 5 - 1) ∧
    ∃ delta, calculateScalingDelta (exampleState cs) (exampleList cs) (3 / 5) (3 / 10) (1 / 2) (2 / 5)
        1 = .ok delta ∧
      delta < 0 ∧ 1 ≤ (5 : Int) + delta ∧ (5 : Int) + delta < 5 := by
  intro cs
  have hl : (exampleList cs).getLoadPercentage (exampleState cs) = .ok (5, some 0) := by
    decide +kernel
  have hf : ((5 : ℚ) * (2 / 5)).floor ≤ 5 - 1 := by decide +kernel
  exact ⟨⟨hl, hf⟩, (scaling_down_progress hl (by norm_num) (by norm_num) (by decide)).mpr hf⟩

-- Eleven containers of which ten have to stay: the step would take away five, so none is taken away.
theorem scaling_down_overshoots :
    let cs := List.replicate 11 (exampleContainer 0 2)
    (exampleList cs).getLoadPercentage (exampleState cs) = .ok (11, some 0) ∧
    calculateScalingDelta (exampleState cs) (exampleList cs) (3 / 5) (3 / 10) (1 / 2) (1 / 2) 10 =
      .ok 0 := by
  intro cs
  constructor <;> decide +kernel

end Down
end Cnt
