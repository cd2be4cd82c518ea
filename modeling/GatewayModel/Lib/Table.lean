import Mathlib.Algebra.GroupWithZero.Nat
import Mathlib.Algebra.Order.BigOperators.Group.List
import Mathlib.Algebra.Order.Group.Nat
import GatewayModel.Lib.Go

namespace Go

-- Go maps over whose keys the program ranges.
structure Table (κ : Type u) (ν : Type v) where
  entries : List (κ × ν)
  nodup   : (entries.map (·.1)).Nodup

namespace Table

variable [DecidableEq κ] {t : Table κ ν} {k k' : κ} {v : ν}

def empty : Table κ ν where
  entries := []
  nodup   := .nil

def keys (t : Table κ ν) : List κ :=
  t.entries.map (·.1)

def get (t : Table κ ν) (k : κ) : Option ν :=
  (t.entries.find? (·.1 = k)).map (·.2)

def delete (t : Table κ ν) (k : κ) : Table κ ν where
  entries := t.entries.filter (·.1 ≠ k)
  nodup   := t.nodup.sublist (List.filter_sublist.map _)

def set (t : Table κ ν) (k : κ) (v : ν) : Table κ ν where
  entries := (k, v) :: (t.delete k).entries
  nodup   := List.nodup_cons.mpr ⟨by simp [delete], (t.delete k).nodup⟩

@[simp]
theorem get_empty : (empty : Table κ ν).get k = none :=
  rfl

theorem get_delete : (t.delete k).get k' = if k' = k then none else t.get k' := by
  simp only [get, delete, List.find?_filter]
  split
  case isTrue h =>
    subst h
    simp
  case isFalse h =>
    congr 2
    ext e
    by_cases he : e.1 = k'
    case pos => simp [he, h]
    case neg => simp [he]

theorem get_set : (t.set k v).get k' = if k' = k then some v else t.get k' := by
  have hd : (t.delete k).get k' = if k' = k then none else t.get k' := get_delete
  simp only [get] at hd
  simp only [get, set, List.find?_cons]
  split
  case h_1 h =>
    have h : k = k' := of_decide_eq_true h
    simp [h]
  case h_2 h =>
    have h : k ≠ k' := of_decide_eq_false h
    simpa [h.symm] using hd

end Table

namespace Heap

variable {h : Heap α} {p : Nat} {a : α} {f : α → α} {g : α → Nat}

def total (h : Heap α) (g : α → Nat) : Nat :=
  (h.cells.map g).sum

theorem total_alloc : (h.alloc a).total g = h.total g + g a := by
  simp [total, alloc]

theorem total_modify (l : h.load p = some a) :
    (h.modify p f).total g + g a = h.total g + g (f a) := by
  obtain ⟨cells⟩ := h
  simp only [total, modify, load] at *
  induction cells generalizing p
  case nil => simp at l
  case cons b cells hi =>
    cases p
    case zero =>
      cases l
      simp only [List.modify_zero_cons, List.map_cons, List.sum_cons]
      omega
    case succ p =>
      have := hi l
      simp only [List.modify_succ_cons, List.map_cons, List.sum_cons]
      omega

theorem le_total (l : h.load p = some a) : g a ≤ h.total g :=
  List.single_le_sum (fun _ _ => Nat.zero_le _) _ (List.mem_map_of_mem (List.mem_of_getElem? l))

def any (h : Heap α) (f : α → Bool) : Bool :=
  h.cells.any f

theorem any_eq_true {f : α → Bool} : (h.any f = true) ↔ (∃ p a, h.load p = some a ∧ f a) := by
  simp only [any, List.any_eq_true, load]
  constructor
  case mp =>
    rintro ⟨a, hm, hf⟩
    obtain ⟨p, hp⟩ := List.mem_iff_getElem?.mp hm
    exact ⟨p, a, hp, hf⟩
  case mpr =>
    rintro ⟨p, a, hp, hf⟩
    exact ⟨a, List.mem_of_getElem? hp, hf⟩

end Heap
end Go
