import GatewayModel.Nat.Helpers
import GatewayModel.Nat.Theorems.Leases

open Go Execution

namespace NatContext.Helpers

section Helper

def filled (idx m : Nat) : List UInt16 :=
  (List.range' idx m).map UInt16.ofNat ++ List.replicate (100 - m) 0

inductive At (idx : Nat) : Nat → Pc → Prop
  | nextClear : At idx 0 .nextClear
  | test : (m ≤ 100) → At idx m (.test (idx + m) (idx + 100) m)
  | set : (m < 100) → At idx m (.set (idx + m) (idx + 100) m)
  | send : At idx 100 .send
  | done : At idx 100 .done

theorem At.le (h : At idx m pc) : m ≤ 100 := by
  cases h <;> omega

theorem At.eq_zero (h : At idx m .nextClear) : m = 0 := by
  cases h
  rfl

theorem At.eq_full (h : At idx m .done) : m = 100 := by
  cases h
  rfl

structure Scans (offset : UInt16) (idx m : Nat) (h : Helper) : Prop where
  offset : h.offset = offset
  acc    : h.acc = filled idx m
  pc     : At idx m h.pc

def Pc.left : Pc → Nat
  | .nextClear                 => 202
  | .test idx length _         => 2 * (length - idx) + 1
  | .set idx length _          => 2 * (length - idx)
  | .sendEarly | .send | .done => 0

structure Advances [Bits β] (offset : UInt16) (idx m m' : Nat) (h h' : Helper) (cnt cnt' : BitSet β) :
    Prop where
  scans : Scans offset idx m' h'
  left  : h'.pc.left + 1 = h.pc.left
  ne    : h'.pc ≠ .done
  bits  : (m' = m ∧ cnt' = cnt) ∨ (m' = m + 1 ∧ m < 100 ∧ cnt' = cnt.set (idx + m))

variable [Bits β] {cnt cnt' b : BitSet β} {offset : UInt16} {idx m : Nat} {h h' : Helper}

theorem filled_set (hm : m < 100) : (filled idx m).set m (UInt16.ofNat (idx + m)) = filled idx (m + 1) := by
  have hr : List.replicate (100 - m) (0 : UInt16) = 0 :: List.replicate (100 - (m + 1)) 0 := by
    rw [← List.replicate_succ, show 100 - (m + 1) + 1 = 100 - m by omega]
  rw [filled, filled, hr, List.range'_1_concat, List.map_append, List.set_append_right _ _ (by simp)]
  simp

namespace Advances

variable {m' j : Nat} (a : Advances offset idx m m' h h' cnt cnt')
include a

theorem le : m ≤ m' := by
  rcases a.bits with ⟨hm, _⟩ | ⟨hm, _, _⟩ <;> omega

theorem test : (cnt'.test j = true) ↔ (cnt.test j = true ∨ (idx + m ≤ j ∧ j < idx + m')) := by
  rcases a.bits with ⟨hm, hb⟩ | ⟨hm, _, hb⟩
  case inl =>
    have hn : ¬ (idx + m ≤ j ∧ j < idx + m') := by omega
    simp [hb, hn]
  case inr =>
    have hj : (idx + m ≤ j ∧ j < idx + m') ↔ idx + m = j := by omega
    rw [hb, BitSet.test_set, hj]

theorem test_claimed {P : Prop} (h : (cnt.test j = true) ↔ (P ∨ (idx ≤ j ∧ j < idx + m))) :
    (cnt'.test j = true) ↔ (P ∨ (idx ≤ j ∧ j < idx + m')) := by
  have hle := a.le
  have hj : (idx ≤ j ∧ j < idx + m') ↔ ((idx ≤ j ∧ j < idx + m) ∨ (idx + m ≤ j ∧ j < idx + m')) := by
    omega
  rw [a.test, h, hj, or_assoc]

theorem length : cnt.length ≤ cnt'.length := by
  rcases a.bits with ⟨_, hb⟩ | ⟨_, _, hb⟩
  case inl => rw [hb]
  case inr => rw [hb, BitSet.length_set]; exact Nat.le_max_left ..

end Advances

theorem Scans.new : Scans offset idx 0 (Sys.newHelper offset) where
  offset := rfl
  acc    := rfl
  pc     := .nextClear

theorem Scans.advances (hs : Scans offset idx m h)
    (hn : (h.pc = .nextClear) → cnt.nextClear offset.toNat = some idx)
    (hc : (m < 100) → cnt.test (idx + m) = false) (he : h.step cnt = some (h', cnt')) :
    ∃ m', Advances offset idx m m' h h' cnt cnt' := by
  have ⟨ho, ha, hp⟩ := hs
  rcases h with ⟨offset', acc, pc⟩
  subst ho ha
  cases hp
  case nextClear =>
    simp only [Helper.step, hn rfl] at he
    cases he
    exact ⟨0, ⟨rfl, rfl, .test (by decide)⟩, by simp [Pc.left], by simp, .inl ⟨rfl, rfl⟩⟩
  case test hm =>
    simp only [Helper.step] at he
    by_cases hlt : m < 100
    case pos =>
      rw [if_pos (by omega), if_neg (by simp [hc hlt])] at he
      cases he
      exact ⟨m, ⟨rfl, rfl, .set hlt⟩, rfl, by simp, .inl ⟨rfl, rfl⟩⟩
    case neg =>
      cases show m = 100 by omega
      rw [if_neg (by omega)] at he
      cases he
      exact ⟨100, ⟨rfl, rfl, .send⟩, by simp [Pc.left], by simp, .inl ⟨rfl, rfl⟩⟩
  case set hm =>
    simp only [Helper.step] at he
    cases he
    refine ⟨m + 1, ⟨rfl, filled_set hm, .test hm⟩, ?_, by simp, .inr ⟨rfl, hm, rfl⟩⟩
    simp only [Pc.left]
    omega
  case send => simp [Helper.step] at he
  case done => simp [Helper.step] at he

theorem Scans.step_or_send (hs : Scans offset idx m h) (cnt : BitSet β) (hd : h.pc ≠ .done) :
    (∃ r, h.step cnt = some r) ∨ h.received = some { h with pc := .done } := by
  have ⟨ho, ha, hp⟩ := hs
  rcases h with ⟨offset', acc, pc⟩
  cases hp
  case nextClear =>
    left
    simp only [Helper.step]
    split <;> exact ⟨_, rfl⟩
  case test =>
    left
    simp only [Helper.step]
    split
    case isTrue  => split <;> exact ⟨_, rfl⟩
    case isFalse => exact ⟨_, rfl⟩
  case set  => exact .inl ⟨_, rfl⟩
  case send => exact .inr rfl
  case done => contradiction

theorem Scans.received_eq (hs : Scans offset idx m h) (he : h.received = some h') :
    h.pc = .send ∧ h' = { h with pc := .done } ∧ Scans offset idx m h' := by
  have ⟨ho, ha, hp⟩ := hs
  rcases h with ⟨offset', acc, pc⟩
  cases hp <;> cases he
  exact ⟨rfl, rfl, ho, ha, .done⟩

theorem Scans.acc_of_done (hs : Scans offset idx m h) (hd : h.pc = .done) : h.acc = filled idx 100 := by
  have ⟨_, ha, hp⟩ := hs
  rw [hd] at hp
  cases hp
  exact ha

theorem step_of_done (hd : h.pc = .done) : h.step cnt = none := by
  simp [Helper.step, hd]

end Helper

section Leasing

-- The first clear index from `offset` on begins 100 clear ones, up to `limit`.
structure Window [Bits β] (offset : UInt16) (limit : Nat) (b : BitSet β) (idx : Nat) : Prop where
  start : b.nextClear offset.toNat = some idx
  le    : idx + 99 ≤ limit
  clear : ∀ j, (idx ≤ j) → (j < idx + 100) → b.test j = false

structure Leasing [Bits β] (s₀ : Sys β κ) (lo up mL mU : Nat) (hL hU : Helper) (s : Sys β κ) : Prop where
  helpers : s.helpers = s₀.helpers ++ [hL, hU]
  lower   : Scans 1 lo mL hL
  upper   : Scans 1025 up mU hU
  test    : ∀ j, (s.cp.bSet.test j = true) ↔
    (s₀.cp.bSet.test j = true ∨ (lo ≤ j ∧ j < lo + mL) ∨ (up ≤ j ∧ j < up + mU))
  length  : s₀.cp.bSet.length ≤ s.cp.bSet.length

inductive Phase (k : κ) (n : Nat) (hL hU : Helper) : Option (Call κ) → Nat → Prop
  | receiveLower : (hL.pc ≠ .done) → (hU.pc ≠ .done) →
    Phase k n hL hU (some ⟨k, n, n + 1, .receiveLower⟩) 3
  | receiveUpper : (hL.pc = .done) → (hU.pc ≠ .done) →
    Phase k n hL hU (some ⟨k, n, n + 1, .receiveUpper⟩) 2
  | append : (hL.pc = .done) → (hU.pc = .done) → Phase k n hL hU (some ⟨k, n, n + 1, .append⟩) 1
  | returned : (hL.pc = .done) → (hU.pc = .done) → Phase k n hL hU none 0

inductive Op.OfCall (n : Nat) : Op κ → Prop
  | lower   : OfCall n (.helper n)
  | upper   : OfCall n (.helper (n + 1))
  | proceed : OfCall n .proceed

variable [Bits β] {b : BitSet β} {s₀ s s' : Sys β κ} {k : κ} {lo up mL mU : Nat} {hL hU : Helper}

section Phase

variable {n r : Nat} {call : Option (Call κ)} (p : Phase k n hL hU call r)
include p

theorem Phase.lower (hne : hL.pc ≠ .done) (hne' : h'.pc ≠ .done) :
    Phase k n h' hU call r ∧ call ≠ none := by
  cases p
  case receiveLower hU => exact ⟨.receiveLower hne' hU, by simp⟩
  all_goals contradiction

theorem Phase.upper (hne : hU.pc ≠ .done) (hne' : h'.pc ≠ .done) :
    Phase k n hL h' call r ∧ call ≠ none := by
  cases p
  case receiveLower hL _ => exact ⟨.receiveLower hL hne', by simp⟩
  case receiveUpper hL _ => exact ⟨.receiveUpper hL hne', by simp⟩
  all_goals contradiction

end Phase

theorem Window.le_start {limit : Nat} (w : Window offset limit b idx) : offset.toNat ≤ idx :=
  (BitSet.nextClear_eq_some w.start).left

namespace Leasing

variable (i : Leasing s₀ lo up mL mU hL hU s) (wL : Window 1 1024 s₀.cp.bSet lo)
  (wU : Window 1025 65535 s₀.cp.bSet up)
include i wL wU

theorem clear_lower (hm : mL ≤ m) (hlt : m < 100) : s.cp.bSet.test (lo + m) = false := by
  have hle : 1025 ≤ up := wU.le_start
  have hlim := wL.le
  have hc := wL.clear (lo + m) (by omega) (by omega)
  rw [Bool.eq_false_iff, ne_eq, i.test, hc]
  simp
  omega

theorem clear_upper (hm : mU ≤ m) (hlt : m < 100) : s.cp.bSet.test (up + m) = false := by
  have hle : 1025 ≤ up := wU.le_start
  have hlim := wL.le
  have hc := wU.clear (up + m) (by omega) (by omega)
  have hL := i.lower.pc.le
  rw [Bool.eq_false_iff, ne_eq, i.test, hc]
  simp
  omega

omit wL wU in
theorem nextClear_eq {limit : Nat} (w : Window offset limit s₀.cp.bSet idx)
    (hc : s.cp.bSet.test idx = false) : s.cp.bSet.nextClear offset.toNat = some idx := by
  have ⟨hle, hlt, _⟩ := BitSet.nextClear_eq_some w.start
  refine BitSet.nextClear_eq_of hle (hlt.trans_le i.length) hc fun m h₁ h₂ => ?_
  exact (i.test m).mpr (.inl (BitSet.test_of_lt_nextClear w.start h₁ h₂))

omit wL wU in
theorem getElem?_lower : s.helpers[s₀.helpers.length]? = some hL := by
  simp [i.helpers]

omit wL wU in
theorem getElem?_upper : s.helpers[s₀.helpers.length + 1]? = some hU := by
  simp [i.helpers]

theorem lower_step (he : hL.step s.cp.bSet = some (h', b)) :
    ∃ m', Advances 1 lo mL m' hL h' s.cp.bSet b ∧
      Leasing s₀ lo up m' mU h' hU (s.update s₀.helpers.length h' b) := by
  have hn (hp : hL.pc = .nextClear) : s.cp.bSet.nextClear (1 : UInt16).toNat = some lo := by
    have hz : mL = 0 := (hp ▸ i.lower.pc).eq_zero
    exact i.nextClear_eq wL (i.clear_lower wL wU (m := 0) (by omega) (by decide))
  have ⟨m', ha⟩ := i.lower.advances hn (i.clear_lower wL wU (le_refl mL)) he
  refine ⟨m', ha, ?_⟩
  constructor
  case helpers => simp [Sys.update, i.helpers]
  case lower   => exact ha.scans
  case upper   => exact i.upper
  case length  => exact i.length.trans ha.length
  case test =>
    intro j
    have hj := i.test j
    rw [← or_assoc, or_right_comm] at hj ⊢
    exact ha.test_claimed hj

theorem upper_step (he : hU.step s.cp.bSet = some (h', b)) :
    ∃ m', Advances 1025 up mU m' hU h' s.cp.bSet b ∧
      Leasing s₀ lo up mL m' hL h' (s.update (s₀.helpers.length + 1) h' b) := by
  have hn (hp : hU.pc = .nextClear) : s.cp.bSet.nextClear (1025 : UInt16).toNat = some up := by
    have hz : mU = 0 := (hp ▸ i.upper.pc).eq_zero
    exact i.nextClear_eq wU (i.clear_upper wL wU (m := 0) (by omega) (by decide))
  have ⟨m', ha⟩ := i.upper.advances hn (i.clear_upper wL wU (le_refl mU)) he
  refine ⟨m', ha, ?_⟩
  constructor
  case helpers => simp [Sys.update, i.helpers]
  case lower   => exact i.lower
  case upper   => exact ha.scans
  case length  => exact i.length.trans ha.length
  case test =>
    intro j
    have hj := i.test j
    rw [← or_assoc] at hj ⊢
    exact ha.test_claimed hj

end Leasing

-- Each step takes one of the 407 steps that the call needs.
structure InCall [Bits β] (s₀ : Sys β κ) (k : κ) (lo up mL mU r : Nat) (hL hU : Helper)
    (ls : List (Op κ × Option (List UInt16))) (s : Sys β κ) : Prop where
  leasing : Leasing s₀ lo up mL mU hL hU s
  phase   : Phase k s₀.helpers.length hL hU s.call r
  left    : hL.pc.left + hU.pc.left + r + ls.length = 407
  result  : (s.call = none) → s.cp.am k = some (filled lo 100 ++ filled up 100) ∧
    (.proceed, some (filled lo 100 ++ filled up 100)) ∈ ls

variable [DecidableEq κ] {ls : List (Op κ × Option (List UInt16))} {r : Nat} {out : Option (List UInt16)}
  {op : Op κ}

namespace Sys

variable {n n' : Nat}

theorem step_helper (hn : s.helpers[n]? = some h) (he : h.step s.cp.bSet = some (h', b)) :
    s.step (.helper n) = .ok (s.update n h' b, none) := by
  simp only [step, runHelper, hn, Option.bind_some, he]
  rfl

theorem step_receive_lower (hc : s.call = some ⟨k, n, n', .receiveLower⟩)
    (hn : s.helpers[n]? = some h) (hr : h.received = some h') :
    s.step .proceed = .ok ({ s with
      helpers := s.helpers.set n h', call := some ⟨k, n, n', .receiveUpper⟩ }, none) := by
  simp only [step, proceed, hc, receive, hn, Option.bind_some, hr]
  rfl

theorem step_receive_upper (hc : s.call = some ⟨k, n, n', .receiveUpper⟩)
    (hn : s.helpers[n']? = some h) (hr : h.received = some h') :
    s.step .proceed = .ok ({ s with
      helpers := s.helpers.set n' h', call := some ⟨k, n, n', .append⟩ }, none) := by
  simp only [step, proceed, hc, receive, hn, Option.bind_some, hr]
  rfl

theorem step_append (hc : s.call = some ⟨k, n, n', .append⟩) :
    s.step .proceed = .ok ({ s with
      cp := { s.cp with am := s.cp.am.set k (s.accOf n ++ s.accOf n') }, call := none },
      some (s.accOf n ++ s.accOf n')) := by
  simp only [step, proceed, hc]

end Sys

theorem Sys.helper_inv (h : s.step (.helper n) = .ok (s', out)) :
    ∃ hp h' b, s.helpers[n]? = some hp ∧ hp.step s.cp.bSet = some (h', b) ∧
      s' = s.update n h' b ∧ out = none := by
  simp only [Sys.step, Sys.runHelper] at h
  split at h
  case h_1 => contradiction
  case h_2 hb =>
    have ⟨hp, hn, hs⟩ := Option.bind_eq_some_iff.mp hb
    cases h
    exact ⟨hp, _, _, hn, hs, rfl, rfl⟩

omit [Bits β] [DecidableEq κ] in
theorem Sys.receive_inv {c : Call κ} {pc : Call.Pc} (h : s.receive c n pc = .ok s') :
    ∃ hp h', s.helpers[n]? = some hp ∧ hp.received = some h' ∧
      s' = { s with helpers := s.helpers.set n h', call := some { c with pc := pc } } := by
  simp only [Sys.receive] at h
  split at h
  case h_1 => contradiction
  case h_2 hb =>
    have ⟨hp, hn, hr⟩ := Option.bind_eq_some_iff.mp hb
    cases h
    exact ⟨hp, _, hn, hr, rfl⟩

namespace InCall

variable (i : InCall s₀ k lo up mL mU r hL hU ls s) (wL : Window 1 1024 s₀.cp.bSet lo)
  (wU : Window 1025 65535 s₀.cp.bSet up)
include i wL wU

omit wL wU [DecidableEq κ] in
theorem of_helper {mL' mU' : Nat} {hL' hU' : Helper} {l : Op κ × Option (List UInt16)}
    (hl : Leasing s₀ lo up mL' mU' hL' hU' s') (hp : Phase k s₀.helpers.length hL' hU' s'.call r)
    (hc : s'.call ≠ none) (hleft : hL'.pc.left + hU'.pc.left + 1 = hL.pc.left + hU.pc.left) :
    InCall s₀ k lo up mL' mU' r hL' hU' (ls ++ [l]) s' := by
  refine ⟨hl, hp, ?_, fun hnone => absurd hnone hc⟩
  have h := i.left
  rw [List.length_append, List.length_singleton]
  omega

theorem helper_lower (hs : s.step (.helper s₀.helpers.length) = .ok (s', out)) :
    ∃ m' h', InCall s₀ k lo up m' mU r h' hU (ls ++ [(.helper s₀.helpers.length, out)]) s' := by
  have ⟨hp, h', b, hn, he, hs', _⟩ := Sys.helper_inv hs
  subst hs'
  cases Option.some.inj (i.leasing.getElem?_lower.symm.trans hn)
  have hne : hL.pc ≠ .done := fun hd => by simp [step_of_done hd] at he
  have ⟨m', ha, hl⟩ := i.leasing.lower_step wL wU he
  have ⟨hp, hc⟩ := i.phase.lower hne ha.ne
  have hlf := ha.left
  exact ⟨m', h', i.of_helper hl hp hc (by omega)⟩

theorem helper_upper (hs : s.step (.helper (s₀.helpers.length + 1)) = .ok (s', out)) :
    ∃ m' h', InCall s₀ k lo up mL m' r hL h' (ls ++ [(.helper (s₀.helpers.length + 1), out)]) s' := by
  have ⟨hp, h', b, hn, he, hs', _⟩ := Sys.helper_inv hs
  subst hs'
  cases Option.some.inj (i.leasing.getElem?_upper.symm.trans hn)
  have hne : hU.pc ≠ .done := fun hd => by simp [step_of_done hd] at he
  have ⟨m', ha, hl⟩ := i.leasing.upper_step wL wU he
  have ⟨hp, hc⟩ := i.phase.upper hne ha.ne
  have hlf := ha.left
  exact ⟨m', h', i.of_helper hl hp hc (by omega)⟩

omit wL wU in
theorem proceed (hs : s.step .proceed = .ok (s', out)) :
    ∃ r' hL' hU', InCall s₀ k lo up mL mU r' hL' hU' (ls ++ [(.proceed, out)]) s' := by
  have l := i.leasing
  have hph := i.phase
  have hlf := i.left
  have hlen : (ls ++ [(Op.proceed, out)]).length = ls.length + 1 := List.length_append
  simp only [Sys.step, Sys.proceed] at hs
  generalize hc : s.call = call at hph hs
  cases hph
  case receiveLower hdL hdU =>
    obtain ⟨_, hr, ho⟩ := map_eq_ok.mp hs
    cases ho
    obtain ⟨hp, h', hn, hv, hs'⟩ := Sys.receive_inv hr
    subst hs'
    cases Option.some.inj (l.getElem?_lower.symm.trans hn)
    obtain ⟨hsend, he, hsc⟩ := l.lower.received_eq hv
    subst he
    refine ⟨2, _, hU, ⟨?_, hsc, l.upper, l.test, l.length⟩, .receiveUpper rfl hdU, ?_, by simp⟩
    case refine_1 => simp [l.helpers]
    case refine_2 =>
      simp only [hsend, Pc.left] at hlf ⊢
      omega
  case receiveUpper hdL hdU =>
    obtain ⟨_, hr, ho⟩ := map_eq_ok.mp hs
    cases ho
    obtain ⟨hp, h', hn, hv, hs'⟩ := Sys.receive_inv hr
    subst hs'
    cases Option.some.inj (l.getElem?_upper.symm.trans hn)
    obtain ⟨hsend, he, hsc⟩ := l.upper.received_eq hv
    subst he
    refine ⟨1, hL, _, ⟨?_, l.lower, hsc, l.test, l.length⟩, .append hdL rfl, ?_, by simp⟩
    case refine_1 => simp [l.helpers]
    case refine_2 =>
      simp only [hsend, Pc.left] at hlf ⊢
      omega
  case append hdL hdU =>
    have hres : s.accOf s₀.helpers.length ++ s.accOf (s₀.helpers.length + 1) =
        filled lo 100 ++ filled up 100 := by
      simp [Sys.accOf, l.getElem?_lower, l.getElem?_upper, l.lower.acc_of_done hdL,
        l.upper.acc_of_done hdU]
    simp only [hres] at hs
    cases hs
    refine ⟨0, hL, hU, ⟨l.helpers, l.lower, l.upper, l.test, l.length⟩, .returned hdL hdU, by omega, ?_⟩
    exact fun _ => ⟨Map.set_self, by simp⟩
  case returned => contradiction

omit wL wU in
theorem enabled (hc : s.call ≠ none) :
    ∃ op : Op κ, op.OfCall s₀.helpers.length ∧ ∃ r, s.step op = .ok r := by
  have l := i.leasing
  have hph := i.phase
  generalize hcall : s.call = call at hph hc
  cases hph
  case receiveLower hdL hdU =>
    rcases l.lower.step_or_send s.cp.bSet hdL with ⟨_, he⟩ | hv
    case inl => exact ⟨_, .lower, _, Sys.step_helper l.getElem?_lower he⟩
    case inr => exact ⟨_, .proceed, _, Sys.step_receive_lower hcall l.getElem?_lower hv⟩
  case receiveUpper hdL hdU =>
    rcases l.upper.step_or_send s.cp.bSet hdU with ⟨_, he⟩ | hv
    case inl => exact ⟨_, .upper, _, Sys.step_helper l.getElem?_upper he⟩
    case inr => exact ⟨_, .proceed, _, Sys.step_receive_upper hcall l.getElem?_upper hv⟩
  case append   => exact ⟨_, .proceed, _, Sys.step_append hcall⟩
  case returned => contradiction

end InCall

theorem InCall.start (lo up : Nat) (hi : s₀.call = none) (hs : s₀.step (.assignPorts k) = .ok (s, out)) :
    InCall s₀ k lo up 0 0 3 (Sys.newHelper 1) (Sys.newHelper 1025) [] s := by
  simp only [Sys.step, Sys.assignPorts, hi] at hs
  cases hs
  refine ⟨⟨rfl, .new, .new, fun j => ?_, le_refl _⟩, .receiveLower ?_ ?_, rfl, by simp⟩
  case refine_1 =>
    have hn {a : Nat} : ¬ (a ≤ j ∧ j < a + 0) := by omega
    simp only [hn, or_false]
  all_goals simp [Sys.newHelper]

theorem InCall.step (i : InCall s₀ k lo up mL mU r hL hU ls s) (wL : Window 1 1024 s₀.cp.bSet lo)
    (wU : Window 1025 65535 s₀.cp.bSet up) (ho : op.OfCall s₀.helpers.length)
    (hs : s.step op = .ok (s', out)) :
    ∃ mL mU r hL hU, InCall s₀ k lo up mL mU r hL hU (ls ++ [(op, out)]) s' := by
  cases ho
  case lower =>
    have ⟨m', h', i⟩ := i.helper_lower wL wU hs
    exact ⟨m', mU, r, h', hU, i⟩
  case upper =>
    have ⟨m', h', i⟩ := i.helper_upper wL wU hs
    exact ⟨mL, m', r, hL, h', i⟩
  case proceed =>
    have ⟨r', hL', hU', i⟩ := i.proceed hs
    exact ⟨mL, mU, r', hL', hU', i⟩

theorem InCall.run (hi : s₀.call = none) (wL : Window 1 1024 s₀.cp.bSet lo)
    (wU : Window 1025 65535 s₀.cp.bSet up)
    (h : Run (Steps Sys.step) s₀ ((.assignPorts k, none) :: ls) s)
    (hls : ∀ l ∈ ls, l.1.OfCall s₀.helpers.length) :
    ∃ mL mU r hL hU, InCall s₀ k lo up mL mU r hL hU ls s := by
  have ⟨s₁, h₁, h⟩ := h.cons_inv
  have i := InCall.start lo up hi h₁
  refine h.invariant_labels (P := fun ls s => (∀ l ∈ ls, l.1.OfCall s₀.helpers.length) →
    ∃ mL mU r hL hU, InCall s₀ k lo up mL mU r hL hU ls s) (fun _ => ⟨_, _, _, _, _, i⟩) ?_ hls
  intro ls s l s' hi hs hls
  have ⟨mL, mU, r, hL, hU, i⟩ := hi fun l hl => hls l (List.mem_append_left _ hl)
  exact i.step wL wU (hls l (by simp)) hs

end Leasing

end NatContext.Helpers
