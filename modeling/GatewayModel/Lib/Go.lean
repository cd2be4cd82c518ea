import Mathlib.Logic.Function.Basic
import Mathlib.Data.List.Basic

namespace Go

-- The run-time panics of the modelled code. A panic of any goroutine ends the program.
inductive Panic
  | nilDereference
  | closeOfClosedChannel
  | nonPositiveTicker
  | sliceOutOfRange
  | indexOutOfRange
  | divideByZero
  deriving Repr, DecidableEq

abbrev Result (α : Type u) := Except Panic α

theorem bind_eq_ok {x : Result α} {f : α → Result β} {b : β} :
    (x >>= f = .ok b) ↔ (∃ a, x = .ok a ∧ f a = .ok b) := by
  cases x <;> simp [bind, Except.bind]

theorem pure_eq_ok {a b : α} : ((pure a : Result α) = .ok b) ↔ a = b := by
  simp [pure, Except.pure]

theorem ok_bind {a : α} {f : α → Result β} : (.ok a >>= f) = f a :=
  rfl

theorem mapError_eq_ok {x : Except ε α} {f : ε → δ} : (x.mapError f = .ok a) ↔ (x = .ok a) := by
  cases x <;> simp [Except.mapError]

theorem map_eq_ok {x : Except ε α} {f : α → β} : (x.map f = .ok b) ↔ (∃ a, x = .ok a ∧ f a = b) := by
  cases x <;> simp [Except.map]

-- Dereferencing a pointer: `none` is the nil pointer.
def deref : Option α → Result α
  | some a => .ok a
  | none   => .error .nilDereference

@[simp]
theorem deref_some {a : α} : deref (some a) = .ok a :=
  rfl

@[simp]
theorem deref_none : deref (none : Option α) = .error .nilDereference :=
  rfl

theorem deref_eq_ok {p : Option α} {a : α} : (deref p = .ok a) ↔ (p = some a) := by
  cases p <;> simp

def index (xs : List α) (i : Nat) : Result α :=
  match xs[i]? with
  | some a => .ok a
  | none   => .error .indexOutOfRange

theorem index_eq_ok {xs : List α} {i : Nat} {a : α} : (index xs i = .ok a) ↔ (xs[i]? = some a) := by
  cases h : xs[i]? <;> simp [index, h]

theorem index_of_lt {xs : List α} {i : Nat} {a : α} (h : i < xs.length) :
    index xs i = .ok (xs.getD i a) := by
  rw [index_eq_ok, List.getD_eq_getElem?_getD, List.getElem?_eq_getElem h, Option.getD_some]

-- Go maps. The zero value that a lookup of a missing key yields is left to the lookup's caller.
abbrev Map (κ : Type u) (ν : Type v) := κ → Option ν

namespace Map

variable [DecidableEq κ] {m : Map κ ν} {k k' : κ} {v : ν}

def empty : Map κ ν :=
  fun _ => none

def set (m : Map κ ν) (k : κ) (v : ν) : Map κ ν :=
  Function.update m k (some v)

def delete (m : Map κ ν) (k : κ) : Map κ ν :=
  Function.update m k none

@[simp]
theorem set_self : (m.set k v) k = some v :=
  Function.update_self ..

theorem set_ne (h : k' ≠ k) : (m.set k v) k' = m k' :=
  Function.update_of_ne h ..

theorem set_apply : (m.set k v) k' = if k' = k then some v else m k' :=
  Function.update_apply ..

theorem set_eq_self (h : m k = some v) : m.set k v = m :=
  Function.update_eq_self_iff.mpr h.symm

@[simp]
theorem delete_self : (m.delete k) k = none :=
  Function.update_self ..

theorem delete_ne (h : k' ≠ k) : (m.delete k) k' = m k' :=
  Function.update_of_ne h ..

theorem delete_apply : (m.delete k) k' = if k' = k then none else m k' :=
  Function.update_apply ..

theorem delete_eq_some : ((m.delete k) k' = some v) ↔ (k' ≠ k ∧ m k' = some v) := by
  by_cases h : k' = k <;> simp [delete_apply, h]

theorem delete_eq_none : ((m.delete k) k' = none) ↔ (k' = k ∨ m k' = none) := by
  by_cases h : k' = k <;> simp [delete_apply, h]

end Map

-- The objects of one type that the program has allocated. An object's address is the number of
-- objects allocated before it, and objects are never freed.
structure Heap (α : Type u) where
  cells : List α

namespace Heap

variable {h : Heap α} {p q : Nat} {a : α} {f : α → α}

def empty : Heap α :=
  ⟨[]⟩

def size (h : Heap α) : Nat :=
  h.cells.length

def load (h : Heap α) (p : Nat) : Option α :=
  h.cells[p]?

def alloc (h : Heap α) (a : α) : Heap α :=
  ⟨h.cells ++ [a]⟩

def modify (h : Heap α) (p : Nat) (f : α → α) : Heap α :=
  ⟨h.cells.modify p f⟩

@[simp]
theorem size_empty : (empty : Heap α).size = 0 :=
  rfl

@[simp]
theorem load_empty : (empty : Heap α).load p = none :=
  rfl

@[simp]
theorem size_alloc : (h.alloc a).size = h.size + 1 := by
  simp [alloc, size]

@[simp]
theorem size_modify : (h.modify p f).size = h.size := by
  simp [modify, size]

theorem load_eq_none : (h.load p = none) ↔ (h.size ≤ p) := by
  simp [load, size]

theorem lt_size_of_load (l : h.load p = some a) : p < h.size := by
  by_contra hc
  simp [load_eq_none.mpr (Nat.le_of_not_lt hc)] at l

theorem exists_load (l : p < h.size) : ∃ a, h.load p = some a := by
  simp only [load, size] at *
  exact ⟨_, List.getElem?_eq_getElem l⟩

@[simp]
theorem load_alloc_self : (h.alloc a).load h.size = some a := by
  simp [alloc, load, size]

theorem load_alloc_of_lt (l : p < h.size) : (h.alloc a).load p = h.load p := by
  simp only [alloc, load, size] at *
  exact List.getElem?_append_left l

theorem load_alloc : (h.alloc a).load p = if p = h.size then some a else h.load p := by
  split
  case isTrue e  => simp [e]
  case isFalse n =>
    rcases Nat.lt_or_gt_of_ne n with l | l
    case inl => exact load_alloc_of_lt l
    case inr =>
      have hs : (h.alloc a).size = h.size + 1 := size_alloc
      rw [load_eq_none.mpr (by omega), load_eq_none.mpr (by omega)]

theorem load_modify : (h.modify p f).load q = if q = p then (h.load q).map f else h.load q := by
  simp only [modify, load, List.getElem?_modify, eq_comm (a := p)]
  split <;> cases h.cells[q]? <;> simp

@[simp]
theorem load_modify_self : (h.modify p f).load p = (h.load p).map f := by
  simp [load_modify]

theorem load_modify_ne (n : q ≠ p) : (h.modify p f).load q = h.load q := by
  simp [load_modify, n]

end Heap
end Go
