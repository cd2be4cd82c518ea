import Mathlib.Data.List.Nodup
import GatewayModel.Lib.Go

namespace Go

structure Slice (α : Type u) where
  array : List α
  len   : Nat
  le    : len ≤ array.length

namespace Slice

variable {α : Type u} {s s' : Slice α} {a : α} {i j : Nat}

def empty : Slice α where
  array := []
  len   := 0
  le    := Nat.le_refl _

def toList (s : Slice α) : List α :=
  s.array.take s.len

-- `append(s, a)`. Elements of the array that come after the slice may be overwritten.
def push (s : Slice α) (a : α) : Slice α where
  array := s.array.take s.len ++ a :: s.array.drop (s.len + 1)
  len   := s.len + 1
  le    := by
    have := s.le
    simp only [List.length_append, List.length_take, List.length_cons, List.length_drop]
    omega

-- `s[:i]`, which may reach up to the end of the array.
def upTo (s : Slice α) (i : Nat) : Result (Slice α) :=
  if h : i ≤ s.array.length
  then .ok { s with len := i, le := h }
  else .error .sliceOutOfRange

-- `append(s[:i], s[i+1:]...)`, which moves the elements after index `i` within the array.
def cut (s : Slice α) (i : Nat) : Result (Slice α) :=
  if h : i < s.len then
    .ok {
      array := s.array.take i ++ s.toList.drop (i + 1) ++ s.array.drop (s.len - 1)
      len   := s.len - 1
      le    := by
        have := s.le
        simp only [toList, List.length_append, List.length_take, List.length_drop]
        omega
    }
  else
    .error .sliceOutOfRange

@[simp]
theorem toList_empty : (empty : Slice α).toList = [] :=
  rfl

@[simp]
theorem length_toList : s.toList.length = s.len := by
  rw [toList, List.length_take]
  exact Nat.min_eq_left s.le

@[simp]
theorem toList_push : (s.push a).toList = s.toList ++ [a] := by
  have hl : (s.array.take s.len).length = s.len := length_toList (s := s)
  simp only [toList, push, List.take_append, hl]
  rw [List.take_of_length_le (by omega)]
  simp

theorem getElem?_array (h : i < s.len) : s.array[i]? = s.toList[i]? := by
  rw [toList, List.getElem?_take_of_lt h]

theorem upTo_eq_ok (h : i ≤ s.len) : ∃ s', s.upTo i = .ok s' ∧ s'.toList = s.toList.take i := by
  refine ⟨_, dif_pos (Nat.le_trans h s.le), ?_⟩
  rw [toList, toList, List.take_take, Nat.min_eq_left h]

theorem cut_eq_ok (h : i < s.len) : ∃ s', s.cut i = .ok s' ∧ s'.toList = s.toList.eraseIdx i ∧
    ∀ j, (i < j) → (j < s.len) → s'.array[j]? = s.toList[j + 1]? ∨ s'.array[j]? = s.toList[s.len - 1]? := by
  have hle := s.le
  have hi : (s.array.take i).length = i := by rw [List.length_take]; omega
  have hd : (s.toList.drop (i + 1)).length = s.len - (i + 1) := by simp
  refine ⟨_, dif_pos h, ?_, fun j hij hj => ?_⟩
  case refine_1 =>
    have ht : s.toList.take i = s.array.take i := by
      rw [toList, List.take_take, Nat.min_eq_left (Nat.le_of_lt h)]
    have hn : (s.array.take i ++ s.toList.drop (i + 1)).length = s.len - 1 := by
      rw [List.length_append, hi, hd]
      omega
    rw [List.eraseIdx_eq_take_drop_succ, ht]
    exact List.take_left' hn
  case refine_2 =>
    simp only
    by_cases hj' : j < s.len - 1
    case pos =>
      left
      rw [List.getElem?_append_left (by rw [List.length_append, hi, hd]; omega),
        List.getElem?_append_right (by omega), hi, List.getElem?_drop]
      congr 1
      omega
    case neg =>
      right
      have hj'' : j = s.len - 1 := by omega
      rw [List.getElem?_append_right (by rw [List.length_append, hi, hd]; omega), List.length_append,
        hi, hd, List.getElem?_drop, ← getElem?_array (by omega)]
      congr 1
      omega

end Slice
end Go
