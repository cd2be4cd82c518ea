import Mathlib.Data.Nat.Bitwise
import Mathlib.Logic.Function.Iterate

-- A reflected CRC of 16 bits: the polynomial, the initial remainder, and what the last remainder is
-- combined with.
structure Crc16 where
  poly   : UInt16
  init   : UInt16
  xorOut : UInt16

namespace Crc16

variable (c : Crc16)

def shift (r : UInt16) : UInt16 :=
  if r &&& 1 = 1
  then (r >>> 1) ^^^ c.poly
  else r >>> 1

def table (i : UInt8) : UInt16 :=
  c.shift^[8] i.toUInt16

def update (r : UInt16) (v : UInt8) : UInt16 :=
  c.table (r.toUInt8 ^^^ v) ^^^ (r >>> 8)

def checksum (data : List UInt8) : UInt16 :=
  data.foldl c.update c.init ^^^ c.xorOut

def ibm : Crc16 where
  poly   := 0xA001
  init   := 0xFFFF
  xorOut := 0xFFFF

variable {c} {a b r : UInt16} {v w v' w' : UInt8} {n : Nat}

section Shift

theorem and_one_eq_one : (r &&& 1 = 1) ↔ (r.toNat % 2 = 1) := by
  rw [← UInt16.toNat_inj, UInt16.toNat_and, UInt16.toNat_one, Nat.and_one_is_mod]

theorem toNat_shiftRight_one : (r >>> 1).toNat = r.toNat / 2 :=
  UInt16.toNat_shiftRight r 1

theorem shift_of_even (h : r.toNat % 2 = 0) : c.shift r = r >>> 1 := by
  rw [shift, if_neg]
  rw [and_one_eq_one]
  omega

theorem shift_of_odd (h : r.toNat % 2 = 1) : c.shift r = (r >>> 1) ^^^ c.poly := by
  rw [shift, if_pos (and_one_eq_one.mpr h)]

theorem shift_xor : c.shift (a ^^^ b) = c.shift a ^^^ c.shift b := by
  have hx : (a ^^^ b).toNat % 2 = (a.toNat + b.toNat) % 2 := by
    rw [UInt16.toNat_xor, Nat.xor_mod_two_eq]
  have hs : (a ^^^ b) >>> 1 = (a >>> 1) ^^^ (b >>> 1) := UInt16.shiftRight_xor
  rcases Nat.mod_two_eq_zero_or_one a.toNat with ha | ha <;>
    rcases Nat.mod_two_eq_zero_or_one b.toNat with hb | hb
  case inl.inl => rw [shift_of_even (by omega), shift_of_even ha, shift_of_even hb, hs]
  case inl.inr =>
    rw [shift_of_odd (by omega), shift_of_even ha, shift_of_odd hb, hs, UInt16.xor_assoc]
  case inr.inl =>
    rw [shift_of_odd (by omega), shift_of_odd ha, shift_of_even hb, hs, UInt16.xor_assoc,
      UInt16.xor_assoc, UInt16.xor_comm c.poly]
  case inr.inr =>
    rw [shift_of_even (by omega), shift_of_odd ha, shift_of_odd hb, hs, UInt16.xor_assoc,
      UInt16.xor_comm c.poly, UInt16.xor_assoc, UInt16.xor_self, UInt16.xor_zero]

theorem iterate_shift_xor : c.shift^[n] (a ^^^ b) = c.shift^[n] a ^^^ c.shift^[n] b := by
  induction n generalizing a b
  case zero      => rfl
  case succ n hi => simp only [Function.iterate_succ_apply, shift_xor, hi]

theorem toNat_iterate_shift (h : r.toNat % 2 ^ n = 0) : (c.shift^[n] r).toNat = r.toNat / 2 ^ n := by
  induction n generalizing r
  case zero      => simp
  case succ n hi =>
    have hr : r.toNat % 2 = 0 := by
      have := Nat.mod_mod_of_dvd r.toNat (Dvd.intro_left (2 ^ n) rfl : 2 ∣ 2 ^ n * 2)
      rw [Nat.pow_succ] at h
      omega
    have hs : (c.shift r).toNat = r.toNat / 2 := by
      rw [shift_of_even hr, toNat_shiftRight_one]
    rw [Function.iterate_succ_apply, hi, hs, Nat.div_div_eq_div_mul, Nat.pow_succ, Nat.mul_comm]
    rw [hs]
    rw [Nat.pow_succ, Nat.mul_comm, Nat.mod_mul] at h
    omega

-- A polynomial of degree 16 whose constant term is not zero.
def Invertible (c : Crc16) : Prop :=
  2 ^ 15 ≤ c.poly.toNat

theorem shift_injective (h : c.Invertible) : Function.Injective c.shift := by
  intro a b he
  rw [← UInt16.xor_eq_zero_iff, ← shift_xor] at he
  rw [← UInt16.xor_eq_zero_iff]
  generalize a ^^^ b = r at *
  have hs : (r >>> 1).toNat = r.toNat / 2 := toNat_shiftRight_one
  have hr := r.toNat_lt
  rcases Nat.mod_two_eq_zero_or_one r.toNat with hm | hm
  case inl =>
    rw [shift_of_even hm, ← UInt16.toNat_inj, hs] at he
    rw [← UInt16.toNat_inj]
    simp only [UInt16.toNat_zero] at *
    omega
  case inr =>
    rw [shift_of_odd hm, UInt16.xor_eq_zero_iff, ← UInt16.toNat_inj, hs] at he
    have := show 2 ^ 15 ≤ c.poly.toNat from h
    omega

theorem iterate_shift_injective (h : c.Invertible) (n : Nat) : Function.Injective c.shift^[n] :=
  (shift_injective h).iterate n

end Shift

section Update

theorem update_eq : c.update r v = c.shift^[8] (r ^^^ v.toUInt16) := by
  -- The remainder is its low byte and the rest `high`, which only moves down.
  generalize hh : r ^^^ r.toUInt8.toUInt16 = high
  have hr : r ^^^ v.toUInt16 = (r.toUInt8 ^^^ v).toUInt16 ^^^ high := by
    rw [← hh, UInt8.toUInt16_xor, UInt16.xor_comm r r.toUInt8.toUInt16, ← UInt16.xor_assoc,
      UInt16.xor_assoc r.toUInt8.toUInt16, UInt16.xor_comm v.toUInt16, ← UInt16.xor_assoc,
      UInt16.xor_self, UInt16.zero_xor, UInt16.xor_comm]
  have hn : high.toNat = r.toNat ^^^ r.toNat % 2 ^ 8 := by
    rw [← hh, UInt16.toNat_xor, UInt8.toNat_toUInt16, UInt16.toNat_toUInt8]
  have hm : high.toNat % 2 ^ 8 = 0 := by
    rw [hn, Nat.xor_mod_two_pow, Nat.mod_mod, Nat.xor_self]
  have hd : c.shift^[8] high = r >>> 8 := by
    rw [← UInt16.toNat_inj, toNat_iterate_shift hm, hn, Nat.xor_div_two_pow,
      Nat.div_eq_of_lt (Nat.mod_lt r.toNat (by decide)), Nat.xor_zero, UInt16.toNat_shiftRight]
    exact (Nat.shiftRight_eq_div_pow ..).symm
  rw [hr, iterate_shift_xor, hd]
  rfl

theorem update_injective (h : c.Invertible) (v : UInt8) :
    Function.Injective (fun r => c.update r v) := by
  intro a b he
  simp only [update_eq] at he
  exact (UInt16.xor_left_inj _).mp (iterate_shift_injective h 8 he)

theorem foldl_update_injective (h : c.Invertible) (data : List UInt8) :
    Function.Injective (fun r => data.foldl c.update r) := by
  induction data
  case nil            => exact fun _ _ he => he
  case cons v data hi => exact hi.comp (update_injective h v)

def pair (v w : UInt8) : UInt16 :=
  v.toUInt16 ^^^ w.toUInt16 <<< 8

theorem toNat_shiftLeft_byte : (w.toUInt16 <<< 8).toNat = w.toNat * 2 ^ 8 := by
  have hw := w.toNat_lt
  rw [UInt16.toNat_shiftLeft, UInt8.toNat_toUInt16, Nat.shiftLeft_eq]
  have hs : (8 : UInt16).toNat % 16 = 8 := rfl
  rw [hs]
  exact Nat.mod_eq_of_lt (by omega)

theorem pair_inj (h : pair v w = pair v' w') : v = v' ∧ w = w' := by
  have hn {v w : UInt8} : (pair v w).toNat = v.toNat ^^^ (w.toNat * 2 ^ 8) := by
    rw [pair, UInt16.toNat_xor, UInt8.toNat_toUInt16, toNat_shiftLeft_byte]
  have hlow {v w : UInt8} : (pair v w).toNat % 2 ^ 8 = v.toNat := by
    rw [hn, Nat.xor_mod_two_pow, Nat.mul_mod_left, Nat.xor_zero, Nat.mod_eq_of_lt v.toNat_lt]
  have hhigh {v w : UInt8} : (pair v w).toNat / 2 ^ 8 = w.toNat := by
    rw [hn, Nat.xor_div_two_pow, Nat.mul_div_cancel _ (by decide), Nat.div_eq_of_lt v.toNat_lt,
      Nat.zero_xor]
  constructor
  case left  => rw [← UInt8.toNat_inj, ← hlow, h, hlow]
  case right => rw [← UInt8.toNat_inj, ← hhigh (v := v), h, hhigh]

theorem update_update : c.update (c.update r v) w = c.shift^[16] (r ^^^ pair v w) := by
  have hw : c.shift^[8] (w.toUInt16 <<< 8) = w.toUInt16 := by
    have hm : (w.toUInt16 <<< 8).toNat % 2 ^ 8 = 0 := by
      rw [toNat_shiftLeft_byte, Nat.mul_mod_left]
    rw [← UInt16.toNat_inj, toNat_iterate_shift hm, toNat_shiftLeft_byte, UInt8.toNat_toUInt16,
      Nat.mul_div_cancel _ (by decide)]
  rw [update_eq, update_eq]
  nth_rewrite 1 [← hw]
  rw [← iterate_shift_xor, ← Function.iterate_add_apply, UInt16.xor_assoc, pair]

theorem update_update_injective (h : c.Invertible)
    (he : c.update (c.update r v) w = c.update (c.update r v') w') : v = v' ∧ w = w' := by
  rw [update_update, update_update] at he
  exact pair_inj ((UInt16.xor_right_inj r).mp (iterate_shift_injective h 16 he))

end Update

section Burst

variable {data₁ data₂ : List UInt8}

theorem eq_of_checksum_eq (h : c.Invertible) (hl : data₁.length = data₂.length)
    (hn : n + 1 < data₁.length) (hd : ∀ j, (j ≠ n) → (j ≠ n + 1) → data₁[j]? = data₂[j]?)
    (he : c.checksum data₁ = c.checksum data₂) : data₁ = data₂ := by
  have hsplit {l : List UInt8} (hlt : n + 1 < l.length) :
      ∃ v w, l = l.take n ++ v :: w :: l.drop (n + 2) :=
    ⟨l[n], l[n + 1], by simp⟩
  have ht : data₁.take n = data₂.take n := by
    refine List.ext_getElem? fun j => ?_
    simp only [List.getElem?_take]
    split
    case isTrue hj => exact hd j (by omega) (by omega)
    case isFalse   => rfl
  have hr : data₁.drop (n + 2) = data₂.drop (n + 2) := by
    refine List.ext_getElem? fun j => ?_
    simp only [List.getElem?_drop]
    exact hd _ (by omega) (by omega)
  have ⟨v₁, w₁, h₁⟩ := hsplit hn
  have ⟨v₂, w₂, h₂⟩ := hsplit (hl ▸ hn)
  rw [ht, hr] at h₁
  clear ht hr hd hl hn hsplit
  generalize data₂.take n = pre at h₁ h₂
  generalize data₂.drop (n + 2) = post at h₁ h₂
  subst h₁ h₂
  rw [checksum, checksum, UInt16.xor_left_inj] at he
  simp only [List.foldl_append, List.foldl_cons] at he
  have ⟨hv, hw⟩ := update_update_injective h (foldl_update_injective h post he)
  rw [hv, hw]

end Burst
end Crc16
