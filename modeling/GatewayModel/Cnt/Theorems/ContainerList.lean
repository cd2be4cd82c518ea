import Mathlib.Tactic.Positivity
import GatewayModel.Cnt.ContainerList

open Go Pool

namespace Cnt.ContainerList

section Remove

variable {cl : ContainerList} {cnt : ContainerId}

theorem removeLoop_of_not_mem (h : ∀ j, (idx ≤ j) → (j < idx + n) → cl.array[j]? ≠ some cnt) :
    removeLoop cnt cl idx n = .ok cl := by
  induction n generalizing idx
  case zero      => rfl
  case succ n hi =>
    rw [removeLoop, if_neg (h idx (le_refl _) (by omega))]
    exact hi fun j h₁ h₂ => h j (by omega) (by omega)

theorem removeLoop_eq (nd : cl.toList.Nodup) (hk : cl.toList[k]? = some cnt) (hn : idx + n = cl.len)
    (hle : idx ≤ k) : ∃ cl', removeLoop cnt cl idx n = .ok cl' ∧ cl'.toList = cl.toList.eraseIdx k := by
  have hlt : k < cl.len := Slice.length_toList (s := cl) ▸ (List.getElem?_eq_some_iff.mp hk).fst
  have hne : ∀ {j}, (j ≠ k) → cl.toList[j]? ≠ some cnt := by
    intro j hjk hj
    have hj' := (List.getElem?_eq_some_iff.mp hj).fst
    exact hjk ((List.getElem?_inj hj' nd).mp (hj.trans hk.symm))
  induction n generalizing idx
  case zero => omega
  case succ n hi =>
    by_cases hidx : idx = k
    case neg =>
      have ha : cl.array[idx]? = cl.toList[idx]? := Slice.getElem?_array (by omega)
      rw [removeLoop, if_neg (ha ▸ hne hidx)]
      exact hi (by omega) (by omega)
    case pos =>
      subst hidx
      rw [removeLoop, if_pos (Slice.getElem?_array hlt ▸ hk)]
      by_cases hlast : idx + 1 = cl.len
      case pos =>
        have ⟨cl', hu, ht⟩ := Slice.upTo_eq_ok (s := cl) hlt.le
        have hz : n = 0 := by omega
        refine ⟨cl', by simp [hlast, hu, hz, removeLoop, bind, Except.bind], ?_⟩
        rw [ht, List.eraseIdx_eq_take_drop_succ, List.drop_of_length_le (by simp [hlast])]
        simp
      case neg =>
        have ⟨cl', hc, ht, ha⟩ := Slice.cut_eq_ok hlt
        refine ⟨cl', ?_, ht⟩
        rw [if_pos hlast, hc]
        apply removeLoop_of_not_mem
        intro j h₁ h₂
        cases ha j (by omega) (by omega)
        case inl hj => exact hj ▸ hne (by omega)
        case inr hj => exact hj ▸ hne (by omega)

theorem removeContainer_of_not_mem (hm : cnt ∉ cl.toList) : cl.removeContainer cnt = .ok cl := by
  refine removeLoop_of_not_mem fun j _ hj hc => hm ?_
  rw [Slice.getElem?_array (by omega)] at hc
  exact List.mem_of_getElem? hc

theorem removeContainer_eq (nd : cl.toList.Nodup) (cnt : ContainerId) :
    ∃ cl', cl.removeContainer cnt = .ok cl' ∧ cl'.toList = cl.toList.erase cnt := by
  by_cases hm : cnt ∈ cl.toList
  case pos =>
    have ⟨k, hk⟩ := List.mem_iff_getElem?.mp hm
    have ⟨cl', h, ht⟩ := removeLoop_eq nd hk (Nat.zero_add _) (Nat.zero_le k)
    have ⟨hlt, hk⟩ := List.getElem?_eq_some_iff.mp hk
    refine ⟨cl', h, ht.trans ?_⟩
    rw [← hk, nd.erase_getElem k hlt]
  case neg => exact ⟨cl, removeContainer_of_not_mem hm, (List.erase_of_not_mem hm).symm⟩

-- All other elements stay, in their order. Without the container in it, not even the array changes.
theorem removes_only_its_argument (nd : cl.toList.Nodup) (cnt : ContainerId) :
    ∃ cl', cl.removeContainer cnt = .ok cl' ∧ cl'.toList = cl.toList.filter (· ≠ cnt) ∧
      ((cnt ∉ cl.toList) → cl' = cl) := by
  have ⟨cl', h, ht⟩ := removeContainer_eq nd cnt
  refine ⟨cl', h, ?_, fun hm => ?_⟩
  case refine_1 =>
    rw [ht, nd.erase_eq_filter]
    exact List.filter_congr fun a _ => by rw [Bool.eq_iff_iff, bne_iff_ne, decide_eq_true_iff]
  case refine_2 =>
    rw [removeContainer_of_not_mem hm] at h
    exact (Except.ok.inj h).symm

theorem removes_only_its_argument_middle :
    let cl : ContainerList := { array := [3, 1, 2, 7], len := 3, le := by decide }
    cl.toList.Nodup ∧
    ∃ cl', cl.removeContainer 1 = .ok cl' ∧ cl'.toList = cl.toList.filter (· ≠ 1) ∧
      ((1 ∉ cl.toList) → cl' = cl) := by
  intro cl
  have nd : cl.toList.Nodup := by decide
  exact ⟨nd, removes_only_its_argument nd 1⟩

end Remove

section Load

variable {s : State} {c : Container}

-- The division drops the fraction, so only a container that has reached its limit adds to the sum.
theorem loadTerm_eq (h : 0 ≤ c.fluxes.toInt) (hm : 0 < c.maxFluxes.toInt) :
    loadTerm c = .ok (if c.maxFluxes ≤ c.fluxes then 1 else 0) := by
  have hne : c.maxFluxes ≠ 0 := fun hc => by simp [hc] at hm
  have h₁ : (1 : Int8).toInt = 1 := rfl
  have hq : (c.fluxes / c.maxFluxes).toInt = c.fluxes.toInt / c.maxFluxes.toInt := by
    have hlt := c.fluxes.toInt_lt
    have hnn : 0 ≤ c.fluxes.toInt / c.maxFluxes.toInt := Int.ediv_nonneg h hm.le
    have hle : c.fluxes.toInt / c.maxFluxes.toInt ≤ c.fluxes.toInt :=
      Int.ediv_le_self c.maxFluxes.toInt h
    rw [Int8.toInt_div, Int.tdiv_eq_ediv_of_nonneg h]
    exact Int.bmod_eq_of_le (by omega) (by omega)
  rw [loadTerm, if_neg hne]
  by_cases hle : c.maxFluxes ≤ c.fluxes
  case pos =>
    have hge : 1 ≤ (c.fluxes / c.maxFluxes).toInt := by
      rw [hq, Int.le_ediv_iff_mul_le hm, Int.one_mul]
      exact Int8.le_iff_toInt_le.mp hle
    have hmin : min 1 (c.fluxes / c.maxFluxes) = 1 := by
      unfold min
      split
      case isTrue => rfl
      case isFalse hn =>
        have := mt Int8.lt_iff_toInt_lt.mpr hn
        rw [← Int8.toInt_inj]
        omega
    rw [hmin, if_pos hle]
    rfl
  case neg =>
    have hz : c.fluxes / c.maxFluxes = 0 := by
      rw [← Int8.toInt_inj, hq]
      exact Int.ediv_eq_zero_of_lt h (by simpa [Int8.le_iff_toInt_le] using hle)
    rw [hz, if_neg hle]
    rfl

theorem loadTerm_le (h : 0 ≤ c.fluxes.toInt) (hm : c.maxFluxes = 10) :
    ∃ t, loadTerm c = .ok t ∧ t.toNat ≤ 1 := by
  refine ⟨_, loadTerm_eq h (by rw [hm]; decide), ?_⟩
  split
  case isTrue  => decide
  case isFalse => decide

variable {cnts : List ContainerId}

theorem loadSum_le (sum : UInt32)
    (h : ∀ cnt ∈ cnts, ∃ c, s.containers.load cnt = some c ∧ 0 ≤ c.fluxes.toInt ∧ c.maxFluxes = 10) :
    ∃ t, loadSum s sum cnts = .ok t ∧ t.toNat ≤ sum.toNat + cnts.length := by
  induction cnts generalizing sum
  case nil => exact ⟨sum, rfl, le_refl _⟩
  case cons cnt cnts hi =>
    have ⟨c, hc, hf, hm⟩ := h cnt (by simp)
    have ⟨a, ha, hle⟩ := loadTerm_le hf hm
    have ⟨t, ht, hle'⟩ := hi (sum + a) fun cnt' hm' => h cnt' (by simp [hm'])
    refine ⟨t, ?_, ?_⟩
    case refine_1 => simpa [loadSum, State.container, hc, ha, bind, Except.bind] using ht
    case refine_2 =>
      -- The addition of `uint32` values can only make the sum smaller.
      have : (sum + a).toNat ≤ sum.toNat + a.toNat := by
        rw [UInt32.toNat_add]
        exact Nat.mod_le ..
      rw [List.length_cons]
      omega

theorem getLoadPercentage_le {cl : ContainerList} (hn : cl.toList ≠ [])
    (h : ∀ cnt ∈ cl.toList,
      ∃ c, s.containers.load cnt = some c ∧ 0 ≤ c.fluxes.toInt ∧ c.maxFluxes = 10) :
    ∃ sum lp, loadSum s 0 cl.toList = .ok sum ∧ sum.toNat ≤ cl.len ∧
      getLoadPercentage s cl = .ok (cl.len, some lp) ∧ 0 ≤ lp ∧ lp ≤ 1 := by
  have ⟨sum, hs, hle⟩ := loadSum_le 0 h
  have hlen : cl.len ≠ 0 := by
    intro hc
    exact hn (List.eq_nil_of_length_eq_zero (Slice.length_toList.trans hc))
  simp only [Slice.length_toList, UInt32.toNat_zero, Nat.zero_add] at hle
  refine ⟨sum, sum.toNat / cl.len, hs, hle, ?_, by positivity, ?_⟩
  case refine_1 => simp [getLoadPercentage, hs, hlen, bind, Except.bind, pure, Except.pure]
  case refine_2 => exact div_le_one_of_le₀ (by exact_mod_cast hle) (by positivity)

end Load
end Cnt.ContainerList
