import GatewayModel.Nat.Couples

open Go Execution

namespace NatContext.Couples

variable {ν : Type u}

def since (cntAddr : UInt32) (ncs : List ν) : Op ν → List ν
  | .set a nc => if a = cntAddr then ncs ++ [nc] else ncs
  | .delete a => if a = cntAddr then [] else ncs

def history (cntAddr : UInt32) (ls : List (Op ν × Unit)) : List ν :=
  (ls.map Prod.fst).foldl (since cntAddr) []

def slice : List ν → Option (List (Option ν))
  | []        => none
  | nc :: ncs => some ((nc :: ncs).map some)

variable {im im' : Couples ν} {op : Op ν} {cntAddr : UInt32}

def Fresh (im : Couples ν) : Op ν → Prop
  | .set cntAddr _ => im cntAddr = none
  | .delete _      => True

instance [DecidableEq ν] : ∀ op, Decidable (Fresh im op)
  | .set cntAddr _ => inferInstanceAs (Decidable (im cntAddr = none))
  | .delete _      => .isTrue trivial

theorem get_step_of_ne (h : im.step op = .ok (im', u)) (hne : op.cntAddr ≠ cntAddr) :
    im'.get cntAddr = im.get cntAddr := by
  cases op <;> cases h
  case set a nc =>
    cases hm : im a <;> simp only [get, set, hm] <;> exact Map.set_ne hne.symm
  case delete a => exact Map.delete_ne hne.symm

theorem get_step (hf : Fresh im op) (h : im.step op = .ok (im', u)) {ncs : List ν}
    (hg : im.get cntAddr = slice ncs) : im'.get cntAddr = slice (since cntAddr ncs op) := by
  by_cases ha : op.cntAddr = cntAddr
  case neg =>
    have hs : since cntAddr ncs op = ncs := by cases op <;> exact if_neg ha
    rw [get_step_of_ne h ha, hg, hs]
  case pos =>
    subst ha
    cases op <;> cases h
    case set a nc =>
      have hn : im a = none := hf
      have hncs : ncs = [] := by
        cases ncs
        case nil  => rfl
        case cons => simp [get, Op.cntAddr, hn, slice] at hg
      simp [get, set, Op.cntAddr, hn, hncs, since, slice]
    case delete => simp [get, delete, Op.cntAddr, since, slice]

-- As long as `Set` is only called for addresses without a couple, `Get` returns what was set.
theorem couples_kept (h : Run (GuardedSteps Fresh step) (Map.empty : Couples ν) ls im)
    (cntAddr : UInt32) :
    im.get cntAddr = slice (history cntAddr ls) ∧
    ∀ op im' u, (op.cntAddr ≠ cntAddr) → (im.step op = .ok (im', u)) →
      im'.get cntAddr = im.get cntAddr := by
  refine ⟨?_, fun op im' u hne hs => get_step_of_ne hs hne⟩
  refine h.invariant_labels (P := fun ls im => im.get cntAddr = slice (history cntAddr ls)) rfl ?_
  intro ls im l im' hg ⟨hf, hs⟩
  rw [history, List.map_append, List.foldl_append]
  exact get_step hf hs hg

theorem couples_kept_again : ∃ ls im, Run (GuardedSteps Fresh step) (Map.empty : Couples Nat) ls im ∧
    history 1 ls = [8] ∧ im.get 1 = slice (history 1 ls) ∧
    ∀ op im' u, (op.cntAddr ≠ 1) → (im.step op = .ok (im', u)) → im'.get 1 = im.get 1 := by
  have ⟨im, ls, h, ht⟩ : ∃ im ls, Run (GuardedSteps Fresh step) (Map.empty : Couples Nat) ls im ∧
      decide (history 1 ls = [8]) = true :=
    Run.of_passes_restrict [.set 1 7, .set 2 9, .delete 1, .set 1 8] (by decide)
  have ⟨hg, hs⟩ := couples_kept h 1
  exact ⟨ls, im, h, of_decide_eq_true ht, hg, hs⟩

-- The second couple of an address takes the place of the first one, after a nil pointer.
theorem couples_lost : ∃ ls im, Run (Steps step) (Map.empty : Couples Nat) ls im ∧
    history 1 ls = [7, 8] ∧ im.get 1 = some [none, some 8] := by
  have ⟨im, ls, h, ht⟩ : ∃ im ls, Run (Steps step) (Map.empty : Couples Nat) ls im ∧
      decide (history 1 ls = [7, 8] ∧ im.get 1 = some [none, some 8]) = true :=
    Run.of_passes [.set 1 7, .set 1 8] (by decide)
  exact ⟨ls, im, h, of_decide_eq_true ht⟩

end NatContext.Couples
