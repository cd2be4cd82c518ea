import Mathlib.Data.List.Chain
import GatewayModel.Cnt.Theorems.Scaling

open Go Pool

-- Which container `GetContainer` chooses.
namespace Cnt.ContainerList

variable {s : State} {cl : ContainerList} {cs : List Container} {i j : Nat}

section Order

variable {a b : Int8}

theorem min_ne_right : (min a b ≠ b) ↔ a < b := by
  unfold min
  split
  case isTrue h  => simp [h, Int8.ne_of_lt h]
  case isFalse h => simp [h]

def NoBusier (c c' : Container) : Prop :=
  c.fluxes ≤ c'.fluxes

instance : DecidableRel NoBusier :=
  fun c c' => inferInstanceAs (Decidable (c.fluxes ≤ c'.fluxes))

instance : Trans NoBusier NoBusier NoBusier where
  trans := Int8.le_trans

def Ascending (cs : List Container) : Prop :=
  cs.Pairwise NoBusier

instance : Decidable (Ascending cs) :=
  inferInstanceAs (Decidable (cs.Pairwise NoBusier))

def Descent (cs : List Container) (j : Nat) : Prop :=
  ∃ c c', cs[j]? = some c ∧ cs[j + 1]? = some c' ∧ c'.fluxes < c.fluxes

theorem ascending_iff : Ascending cs ↔ ∀ j, ¬ Descent cs j := by
  rw [Ascending, ← List.isChain_iff_pairwise, List.isChain_iff_getElem]
  constructor
  case mp =>
    intro h j ⟨c, c', hc, hc', hlt⟩
    have ⟨_, hc⟩ := List.getElem?_eq_some_iff.mp hc
    have ⟨hj, hc'⟩ := List.getElem?_eq_some_iff.mp hc'
    have hle := h j hj
    rw [hc, hc'] at hle
    exact Int8.not_lt.mpr hle hlt
  case mpr =>
    intro h j hj
    refine Int8.not_lt.mp fun hlt => h j ⟨_, _, ?_, ?_, hlt⟩
    case refine_1 => exact List.getElem?_eq_getElem ..
    case refine_2 => exact List.getElem?_eq_getElem ..

theorem Ascending.le_of_head (h : Ascending cs) (hc : cs[0]? = some c) :
    ∀ c' ∈ cs, c.fluxes ≤ c'.fluxes := by
  cases cs
  case nil => simp at hc
  case cons c₀ cs =>
    cases hc
    have ⟨hle, _⟩ := List.pairwise_cons.mp h
    exact List.forall_mem_cons.mpr ⟨Int8.le_refl _, hle⟩

end Order

section Scan

variable (hcs : cl.toList.map s.containers.load = cs.map some)
include hcs

theorem exists_container (hi : i < cs.length) :
    ∃ cnt c, index cl.toList i = .ok cnt ∧ s.container (some cnt) = .ok c ∧ cs[i]? = some c := by
  have hc : cs[i]? = some cs[i] := List.getElem?_eq_getElem hi
  have hm : (cl.toList[i]?).map s.containers.load = some (some cs[i]) := by
    rw [← List.getElem?_map, hcs, List.getElem?_map, hc, Option.map_some]
  have ⟨cnt, hn, hl⟩ := Option.map_eq_some_iff.mp hm
  exact ⟨cnt, cs[i], index_eq_ok.mpr hn, deref_eq_ok.mpr hl, hc⟩

theorem getLoop_succ (hi : i + 1 < cs.length) :
    ∃ prev p c, index cl.toList i = .ok prev ∧ cs[i]? = some p ∧ cs[i + 1]? = some c ∧
      getLoop s cl (i + 1) = if c.fluxes < p.fluxes then .ok (some prev) else getLoop s cl i := by
  have ⟨cnt, c, hn, hc, hci⟩ := exists_container hcs hi
  have ⟨prev, p, hn', hp, hpi⟩ := exists_container hcs (Nat.lt_of_succ_lt hi)
  refine ⟨prev, p, c, hn', hpi, hci, ?_⟩
  simp only [getLoop, hn, hn', hc, hp, ok_bind, min_ne_right]
  rfl

theorem getLoop_eq (hi : i < cs.length) :
    (getLoop s cl i = .ok none ∧ ∀ j < i, ¬ Descent cs j) ∨
    ∃ j prev, Descent cs j ∧ index cl.toList j = .ok prev ∧ getLoop s cl i = .ok (some prev) := by
  induction i
  case zero => exact .inl ⟨rfl, fun j hj => absurd hj (Nat.not_lt_zero j)⟩
  case succ i hind =>
    have ⟨prev, p, c, hn, hp, hc, hs⟩ := getLoop_succ hcs hi
    rw [hs]
    by_cases hlt : c.fluxes < p.fluxes
    case pos => exact .inr ⟨i, prev, ⟨p, c, hp, hc, hlt⟩, hn, if_pos hlt⟩
    case neg =>
      rw [if_neg hlt]
      refine (hind (Nat.lt_of_succ_lt hi)).imp_left fun ⟨hnone, hd⟩ => ⟨hnone, fun j hj hdj => ?_⟩
      rcases Nat.lt_succ_iff_lt_or_eq.mp hj with hj | hj
      case inl => exact hd j hj hdj
      case inr =>
        have ⟨p', c', hp', hc', hlt'⟩ := hj ▸ hdj
        cases hp.symm.trans hp'
        cases hc.symm.trans hc'
        exact hlt hlt'

omit hcs in
theorem getContainer_of_some (hl : cl.len = i + 1) (h : getLoop s cl i = .ok (some cnt)) :
    getContainer s cl (n + 1) = .ok (some cnt) := by
  simp only [getContainer, isEmpty, hl, h, ok_bind]
  rfl

omit hcs in
theorem getContainer_of_none (hl : cl.len = i + 1) (h : getLoop s cl i = .ok none)
    (hn : index cl.toList 0 = .ok cnt) : getContainer s cl (n + 1) = .ok (some cnt) := by
  simp only [getContainer, isEmpty, hl, h, hn, ok_bind]
  rfl

-- In its first round, `GetContainer` returns a container of a list that is not empty. It is a least
-- loaded one exactly if the list is in ascending order.
theorem least_loaded_chosen (hne : cs ≠ []) :
    ∃ cnt c, (∀ n, getContainer s cl (n + 1) = .ok (some cnt)) ∧ cnt ∈ cl.toList ∧
      s.container (some cnt) = .ok c ∧ ((∀ c' ∈ cs, c.fluxes ≤ c'.fluxes) ↔ Ascending cs) := by
  have ⟨i, hlen⟩ : ∃ i, cs.length = i + 1 := Nat.exists_eq_add_one.mpr (List.length_pos_of_ne_nil hne)
  have hl : cl.len = i + 1 := (len_eq_length hcs).trans hlen
  rcases getLoop_eq hcs (i := i) (by omega) with ⟨hnone, hd⟩ | ⟨j, prev, hd, hn, hs⟩
  case inl =>
    have ⟨cnt, c, hn, hc, hz⟩ := exists_container hcs (i := 0) (by omega)
    have ha : Ascending cs := by
      refine ascending_iff.mpr fun j hj => ?_
      have ⟨_, _, _, hj', _⟩ := hj
      have := (List.getElem?_eq_some_iff.mp hj').fst
      exact hd j (by omega) hj
    exact ⟨cnt, c, fun _ => getContainer_of_none hl hnone hn, List.mem_of_getElem? (index_eq_ok.mp hn),
      hc, iff_of_true (ha.le_of_head hz) ha⟩
  case inr =>
    have ⟨c, c', hc, hc', hlt⟩ := hd
    have hj := (List.getElem?_eq_some_iff.mp hc).fst
    have ⟨cnt, c₁, hn', hc₁, hz⟩ := exists_container hcs hj
    cases hn.symm.trans hn'
    cases hc.symm.trans hz
    have hle : ¬ ∀ c' ∈ cs, c.fluxes ≤ c'.fluxes := fun hle =>
      Int8.not_lt.mpr (hle c' (List.mem_of_getElem? hc')) hlt
    exact ⟨prev, c, fun _ => getContainer_of_some hl hs, List.mem_of_getElem? (index_eq_ok.mp hn), hc₁,
      iff_of_false hle fun ha => ascending_iff.mp ha j hd⟩

end Scan

theorem least_loaded_chosen_three :
    let cs := [exampleContainer (-1) 10, exampleContainer 2 10, exampleContainer 2 10]
    (((exampleList cs).toList.map (exampleState cs).containers.load = cs.map some ∧ cs ≠ []) ∧
      Ascending cs) ∧
    ∃ cnt c, (∀ n, getContainer (exampleState cs) (exampleList cs) (n + 1) = .ok (some cnt)) ∧
      cnt ∈ (exampleList cs).toList ∧ (exampleState cs).container (some cnt) = .ok c ∧
      ∀ c' ∈ cs, c.fluxes ≤ c'.fluxes := by
  intro cs
  have hcs : (exampleList cs).toList.map (exampleState cs).containers.load = cs.map some := by decide
  have hne : cs ≠ [] := by simp [cs]
  have ha : Ascending cs := by decide
  obtain ⟨cnt, c, hg, hm, hc, hl⟩ := least_loaded_chosen hcs hne
  exact ⟨⟨⟨hcs, hne⟩, ha⟩, cnt, c, hg, hm, hc, hl.mpr ha⟩

-- The last container has fewer flows than the one before it, which is returned. It is the busiest one.
theorem busiest_chosen :
    let cs := [exampleContainer 1 10, exampleContainer 5 10, exampleContainer 2 10]
    (exampleList cs).toList.map (exampleState cs).containers.load = cs.map some ∧
    (∀ n, getContainer (exampleState cs) (exampleList cs) (n + 1) = .ok (some 1)) ∧
    (exampleState cs).container (some 1) = .ok (exampleContainer 5 10) ∧
    ¬ ∀ c' ∈ cs, (exampleContainer 5 10).fluxes ≤ c'.fluxes := by
  intro cs
  refine ⟨by decide, fun n => ?_, by decide, by decide⟩
  rfl

end Cnt.ContainerList
