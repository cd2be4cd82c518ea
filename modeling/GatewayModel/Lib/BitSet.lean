import Mathlib.Data.Nat.Bitwise
import Mathlib.Data.Nat.Find

-- A package of bit sets: its operations, and what is assumed of them. Setting an index beyond the length
-- extends the set, and `nextClear` only finds indices below the length.
class Bits (β : Type) where
  new          : Nat → β
  length       : β → Nat
  test         : β → Nat → Bool
  set          : β → Nat → β
  clear        : β → Nat → β
  nextClear    : β → Nat → Option Nat
  length_new   : length (new n) = n
  test_new     : test (new n) i = false
  length_set   : length (set b i) = max (length b) (i + 1)
  test_set     : test (set b i) j = true ↔ (test b j = true ∨ i = j)
  length_clear : length (clear b i) = length b
  test_clear   : test (clear b i) j = true ↔ (test b j = true ∧ i ≠ j)
  nextClear_eq : nextClear b i = some j ↔
    (i ≤ j ∧ j < length b ∧ test b j = false ∧ ∀ m, (i ≤ m) → (m < j) → test b m = true)

def BitSet (β : Type) : Type :=
  β

namespace BitSet

variable [Bits β]

def new (length : Nat) : BitSet β :=
  Bits.new (β := β) length

def length (b : BitSet β) : Nat :=
  Bits.length (β := β) b

def test (b : BitSet β) (i : Nat) : Bool :=
  Bits.test (β := β) b i

def set (b : BitSet β) (i : Nat) : BitSet β :=
  Bits.set (β := β) b i

def clear (b : BitSet β) (i : Nat) : BitSet β :=
  Bits.clear (β := β) b i

def nextClear (b : BitSet β) (i : Nat) : Option Nat :=
  Bits.nextClear (β := β) b i

variable {b : BitSet β} {i j n : Nat}

@[simp]
theorem length_new : (new n : BitSet β).length = n :=
  Bits.length_new

@[simp]
theorem test_new : (new n : BitSet β).test i = false :=
  Bits.test_new

theorem length_set : (b.set i).length = max b.length (i + 1) :=
  Bits.length_set

theorem test_set : (b.set i).test j = true ↔ (b.test j = true ∨ i = j) :=
  Bits.test_set

@[simp]
theorem length_clear : (b.clear i).length = b.length :=
  Bits.length_clear

theorem test_clear : (b.clear i).test j = true ↔ (b.test j = true ∧ i ≠ j) :=
  Bits.test_clear

theorem nextClear_eq : b.nextClear i = some j ↔
    (i ≤ j ∧ j < b.length ∧ b.test j = false ∧ ∀ m, (i ≤ m) → (m < j) → b.test m = true) :=
  Bits.nextClear_eq

theorem test_foldl_set {is : List Nat} :
    (is.foldl set b).test j = true ↔ (b.test j = true ∨ j ∈ is) := by
  induction is generalizing b
  case nil          => simp
  case cons i is hi => rw [List.foldl_cons, hi, test_set, List.mem_cons, or_assoc, eq_comm (a := i)]

theorem length_foldl_set {is : List Nat} (h : ∀ i ∈ is, i < b.length) :
    (is.foldl set b).length = b.length := by
  induction is generalizing b
  case nil => rfl
  case cons i is hi =>
    have hl : (b.set i).length = b.length := length_set.trans (Nat.max_eq_left (h i (by simp)))
    rw [List.foldl_cons, hi fun j hj => by rw [hl]; exact h j (by simp [hj]), hl]

theorem length_foldl_set_le {is : List Nat} (h : ∀ i ∈ is, i < n) :
    (is.foldl set b).length ≤ max b.length n := by
  induction is generalizing b
  case nil => exact Nat.le_max_left ..
  case cons i is hi =>
    have hl := hi (b := b.set i) fun j hj => h j (by simp [hj])
    have hlt := h i (by simp)
    rw [length_set] at hl
    rw [List.foldl_cons]
    omega

theorem nextClear_eq_some (h : b.nextClear i = some j) : i ≤ j ∧ j < b.length ∧ b.test j = false := by
  obtain ⟨hle, hlt, hc, _⟩ := nextClear_eq.mp h
  exact ⟨hle, hlt, hc⟩

theorem nextClear_eq_of (hle : i ≤ j) (hlt : j < b.length) (hj : b.test j = false)
    (hs : ∀ m, (i ≤ m) → (m < j) → b.test m = true) : b.nextClear i = some j :=
  nextClear_eq.mpr ⟨hle, hlt, hj, hs⟩

theorem test_of_lt_nextClear (h : b.nextClear i = some j) (hle : i ≤ n) (hlt : n < j) :
    b.test n = true :=
  (nextClear_eq.mp h).right.right.right n hle hlt

theorem test_of_nextClear_eq_none (h : b.nextClear i = none) (hle : i ≤ j) (hlt : j < b.length) :
    b.test j = true := by
  by_contra hc
  -- The first clear index from `i` on would have been found.
  have hex : ∃ n, i ≤ n ∧ b.test n = false := ⟨j, hle, by simpa using hc⟩
  have hmin := Nat.find_min' hex ⟨hle, by simpa using hc⟩
  have hf := nextClear_eq_of (Nat.find_spec hex).left (by omega) (Nat.find_spec hex).right
    fun m h₁ h₂ => by simpa [h₁] using Nat.find_min hex h₂
  simp [h] at hf

-- Two sets, possibly of different packages, that cannot be told apart.
structure Agree [Bits γ] (b : BitSet β) (c : BitSet γ) : Prop where
  length : b.length = c.length
  test   : ∀ i, b.test i = c.test i

namespace Agree

variable [Bits γ] {c : BitSet γ}

theorem new : Agree (new n : BitSet β) (BitSet.new n : BitSet γ) where
  length := by simp
  test i := by simp

variable (h : Agree b c)
include h

theorem set : Agree (b.set i) (c.set i) where
  length := by rw [length_set, length_set, h.length]
  test j := by rw [Bool.eq_iff_iff, test_set, test_set, h.test]

theorem clear : Agree (b.clear i) (c.clear i) where
  length := by rw [length_clear, length_clear, h.length]
  test j := by rw [Bool.eq_iff_iff, test_clear, test_clear, h.test]

theorem nextClear : b.nextClear i = c.nextClear i := by
  refine Option.ext fun j => ?_
  simp only [nextClear_eq, h.length, h.test]

end Agree

end BitSet

-- A set of indices as a string of bits. The words of the string are read as one number, which has no
-- bit at or beyond the length.
structure Words where
  length : Nat
  words  : Nat
  bound  : words < 2 ^ length

namespace Words

variable {b : Words} {i j : Nat}

def nextClear (b : Words) (i : Nat) : Option Nat :=
  (List.range' i (b.length - i)).find? (fun j => !b.words.testBit j)

theorem nextClear_eq : b.nextClear i = some j ↔ (i ≤ j ∧ j < b.length ∧
    b.words.testBit j = false ∧ ∀ m, (i ≤ m) → (m < j) → b.words.testBit m = true) := by
  rw [nextClear, List.find?_range'_eq_some]
  grind

instance : Bits Words where
  new n := ⟨n, 0, Nat.two_pow_pos n⟩
  length b := b.length
  test b i := b.words.testBit i
  set b i := {
    length := max b.length (i + 1)
    words  := b.words ||| 2 ^ i
    bound  := Nat.or_lt_two_pow
      (b.bound.trans_le (Nat.pow_le_pow_right Nat.two_pos (Nat.le_max_left ..)))
      (Nat.pow_lt_pow_right Nat.one_lt_two (Nat.le_max_right ..))
  }
  clear b i := {
    length := b.length
    words  := b.words &&& (b.words ^^^ 2 ^ i)
    bound  := Nat.and_le_left.trans_lt b.bound
  }
  nextClear    := nextClear
  length_new   := rfl
  test_new     := Nat.zero_testBit _
  length_set   := rfl
  test_set     := by simp [Nat.testBit_or, Nat.testBit_two_pow]
  length_clear := rfl
  test_clear   := by
    intro b i j
    cases h : b.words.testBit j <;> simp_all [Nat.testBit_xor, Nat.testBit_two_pow]
  nextClear_eq := nextClear_eq

end Words
