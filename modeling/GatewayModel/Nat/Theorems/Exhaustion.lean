import GatewayModel.Nat.Theorems.Sequential

open Go Execution

-- The program has no call of `ReleasePorts`. Without one, the ports are used up after some calls of
-- `AssignPorts`, whatever the interleaving of the helpers is.
namespace NatContext.Helpers

section Bits

structure Grows [Bits β] (b b' : BitSet β) : Prop where
  length : b.length ≤ b'.length
  test   : ∀ j, (b.test j = true) → b'.test j = true

structure Dense [Bits β] (b : BitSet β) : Prop where
  length : 65536 ≤ b.length
  test   : ∀ j, (65536 ≤ j) → (j < b.length) → b.test j = true

def UsedTo [Bits β] (n : Nat) (b : BitSet β) : Prop :=
  ∀ j, (1 ≤ j) → (j ≤ n) → (j < 65536) → b.test j = true

variable [Bits β] {b b' : BitSet β} {n m idx : Nat}

theorem Grows.refl : Grows b b where
  length   := le_refl _
  test _ h := h

theorem Grows.set : Grows b (b.set idx) where
  length   := (Nat.le_max_left ..).trans_eq BitSet.length_set.symm
  test _ h := BitSet.test_set.mpr (.inl h)

theorem Dense.new : Dense (.new 65536 : BitSet β) where
  length         := BitSet.length_new.ge
  test _ hle hlt := absurd (hlt.trans_eq BitSet.length_new) (Nat.not_lt.mpr hle)

theorem Dense.set (h : Dense b) (hp : ∀ j, (65536 ≤ j) → (j < idx) → b.test j = true) :
    Dense (b.set idx) where
  length := h.length.trans Grows.set.length
  test j hle hlt := by
    refine BitSet.test_set.mpr ?_
    rcases Nat.lt_trichotomy j idx with hj | hj | hj
    case inl     => exact .inl (hp j hle hj)
    case inr.inl => exact .inr hj.symm
    case inr.inr =>
      have hl : (b.set idx).length = max b.length (idx + 1) := BitSet.length_set
      exact .inl (h.test j hle (by omega))

theorem UsedTo.grows (h : UsedTo n b) (hg : Grows b b') : UsedTo n b' :=
  fun j h₁ h₂ h₃ => hg.test j (h j h₁ h₂ h₃)

theorem UsedTo.mono (h : UsedTo n b) (hle : m ≤ n) : UsedTo m b :=
  fun j h₁ h₂ h₃ => h j h₁ (by omega) h₃

theorem UsedTo.of_all (h : UsedTo 65535 b) : UsedTo n b :=
  fun j h₁ _ h₃ => h j h₁ (by omega) h₃

theorem UsedTo.succ (h : UsedTo (idx - 1) b) (ht : b.test idx = true) : UsedTo idx b := by
  intro j h₁ h₂ h₃
  rcases Nat.lt_or_eq_of_le h₂ with hj | hj
  case inl => exact h j h₁ (by omega) h₃
  case inr => exact hj ▸ ht

theorem usedTo_of_nextClear_eq_none (hd : Dense b) (h : b.nextClear 1 = none) : UsedTo 65535 b := by
  intro j h₁ _ h₃
  have := hd.length
  exact BitSet.test_of_nextClear_eq_none h h₁ (by omega)

theorem usedTo_of_nextClear_eq_some (hu : UsedTo n b) (h : b.nextClear 1 = some idx) :
    UsedTo (idx - 1) b ∧ (UsedTo 65535 b ∨ n < idx) := by
  have hpass {j : Nat} (h₁ : 1 ≤ j) (h₂ : j < idx) := BitSet.test_of_lt_nextClear h h₁ h₂
  have ⟨hle, _, hc⟩ := BitSet.nextClear_eq_some h
  refine ⟨fun j h₁ _ _ => hpass h₁ (by omega), ?_⟩
  by_cases hp : 65536 ≤ idx
  case pos => exact .inl fun j h₁ _ _ => hpass h₁ (by omega)
  case neg =>
    refine .inr (Nat.lt_of_not_le fun hn => ?_)
    have := hu idx hle hn (by omega)
    simp [hc] at this

theorem nextClear_eq_none_of_usedTo (hd : Dense b) (hu : UsedTo 65535 b) {i : Nat} (hi : 1 ≤ i) :
    b.nextClear i = none := by
  rw [Option.eq_none_iff_forall_ne_some]
  intro idx h
  have ⟨hle, hlt, hc⟩ := BitSet.nextClear_eq_some h
  have ht : b.test idx = true := by
    by_cases hp : 65536 ≤ idx
    case pos => exact hd.test idx hp hlt
    case neg => exact hu idx (by omega) (by omega) (by omega)
  simp [hc] at ht

end Bits

section Helper

inductive Helper.Stepped [Bits β] (h : Helper) (b : BitSet β) : Helper → BitSet β → Prop
  | none : (h.pc = .nextClear) → (b.nextClear h.offset.toNat = none) →
    Stepped h b { h with pc := .sendEarly } b
  | some : (h.pc = .nextClear) → (b.nextClear h.offset.toNat = some idx) →
    Stepped h b { h with pc := .test idx (idx + 100) 0 } b
  | used : (h.pc = .test idx length i) → (b.test idx = true) →
    Stepped h b { h with pc := .test (idx + 1) length i } b
  | clear : (h.pc = .test idx length i) → (idx < length) → (b.test idx = false) →
    Stepped h b { h with pc := .set idx length i } b
  | last : (h.pc = .test idx length i) → (length ≤ idx) → Stepped h b { h with pc := .send } b
  | set : (h.pc = .set idx length i) → Stepped h b { h with
      acc := h.acc.set i (UInt16.ofNat idx)
      pc  := .test (idx + 1) length (i + 1)
    } (b.set idx)

structure Kept [Bits β] (P : BitSet β → Helper → Prop) : Prop where
  grows    : ∀ {b b' h}, P b h → Grows b b' → P b' h
  step     : ∀ {b b' h h'}, Dense b → P b h → h.Stepped b h' b' → P b' h'
  received : ∀ {b h h'}, P b h → (h.received = some h') → P b h'

variable [Bits β] {h h' : Helper} {b b' : BitSet β} {n : Nat}

theorem Helper.step_inv (hs : h.step b = .some (h', b')) : h.Stepped b h' b' := by
  simp only [Helper.step] at hs
  split at hs
  case h_1 hp =>
    split at hs
    case h_1 hn => cases hs; exact .none hp hn
    case h_2 hn => cases hs; exact .some hp hn
  case h_2 hp =>
    split at hs
    case isTrue hlt =>
      split at hs
      case isTrue ht  => cases hs; exact .used hp ht
      case isFalse ht => cases hs; exact .clear hp hlt (by simpa using ht)
    case isFalse hlt => cases hs; exact .last hp (Nat.le_of_not_lt hlt)
  case h_3 hp => cases hs; exact .set hp
  all_goals contradiction

theorem Helper.Stepped.grows (hs : h.Stepped b h' b') : Grows b b' := by
  cases hs
  case set => exact .set
  all_goals exact .refl

theorem Helper.received_inv (hr : h.received = .some h') :
    (h.pc = .sendEarly ∧ h' = { h with pc := .test 0 100 0 }) ∨
    (h.pc = .send ∧ h' = { h with pc := .done }) := by
  simp only [Helper.received] at hr
  split at hr
  case h_1 hp => exact .inl ⟨hp, (Option.some.inj hr).symm⟩
  case h_2 hp => exact .inr ⟨hp, (Option.some.inj hr).symm⟩
  case h_3    => contradiction

def Pc.index : Pc → Nat
  | .test idx _ _ | .set idx _ _ => idx
  | _                            => 0

def Passed (b : BitSet β) (h : Helper) : Prop :=
  ∀ j, (65536 ≤ j) → (j < h.pc.index) → b.test j = true

def Covers (n : Nat) (b : BitSet β) (h : Helper) : Prop :=
  h.offset = 1 ∧
  match h.pc with
  | .nextClear                               => UsedTo n b
  | .sendEarly                               => UsedTo 65535 b
  | .test idx length _ | .set idx length _   => UsedTo (idx - 1) b ∧ (UsedTo 65535 b ∨ n + 100 < length)
  | .send | .done                            => UsedTo (n + 100) b

structure Idle (b : BitSet β) (h : Helper) : Prop where
  used   : UsedTo 65535 b
  offset : 1 ≤ h.offset.toNat
  acc    : h.acc = List.replicate 100 0
  test   : ∀ idx length i, (h.pc = .test idx length i) → length ≤ 100
  set    : ∀ idx length i, (h.pc = .set idx length i) → idx = 0 ∧ length ≤ 100

theorem Passed.grows (hp : Passed b h) (hg : Grows b b') : Passed b' h :=
  fun j hle hlt => hg.test j (hp j hle hlt)

theorem Passed.step (hd : Dense b) (hp : Passed b h) (hs : h.Stepped b h' b') :
    Dense b' ∧ Passed b' h' := by
  cases hs
  case none => exact ⟨hd, fun j _ hlt => absurd hlt (Nat.not_lt_zero j)⟩
  case last => exact ⟨hd, fun j _ hlt => absurd hlt (Nat.not_lt_zero j)⟩
  case some hn =>
    have hlt := (BitSet.nextClear_eq_some hn).right.left
    exact ⟨hd, fun j hle hj => hd.test j hle (Nat.lt_trans hj hlt)⟩
  case used idx _ _ hpc ht =>
    simp only [Passed, hpc, Pc.index] at hp
    refine ⟨hd, fun j hle hj => ?_⟩
    rcases Nat.lt_or_eq_of_le (Nat.le_of_lt_succ hj) with hj | hj
    case inl => exact hp j hle hj
    case inr => exact hj ▸ ht
  case clear hpc _ _ =>
    simp only [Passed, hpc, Pc.index] at hp
    exact ⟨hd, hp⟩
  case set idx _ _ hpc =>
    simp only [Passed, hpc, Pc.index] at hp
    refine ⟨hd.set hp, fun j hle hj => BitSet.test_set.mpr ?_⟩
    rcases Nat.lt_or_eq_of_le (Nat.le_of_lt_succ hj) with hj | hj
    case inl => exact .inl (hp j hle hj)
    case inr => exact .inr hj.symm

theorem Passed.received (hr : h.received = .some h') : Passed b h' := by
  rcases h.received_inv hr with ⟨_, he⟩ | ⟨_, he⟩
  all_goals
    subst he
    exact fun j _ hlt => absurd hlt (Nat.not_lt_zero j)

theorem Covers.kept : Kept (β := β) (Covers n) where
  grows := by
    intro b b' h ⟨ho, hc⟩ hg
    refine ⟨ho, ?_⟩
    split at hc
    case h_3 => exact ⟨hc.left.grows hg, hc.right.imp_left (·.grows hg)⟩
    case h_4 => exact ⟨hc.left.grows hg, hc.right.imp_left (·.grows hg)⟩
    all_goals exact UsedTo.grows hc hg
  step := by
    intro b b' h h' hd ⟨ho, hc⟩ hs
    refine ⟨?_, ?_⟩
    case refine_1 => cases hs <;> exact ho
    cases hs
    all_goals
      have hpc := ‹h.pc = _›
      simp only [hpc] at hc
    case refine_2.none hn =>
      rw [ho] at hn
      exact usedTo_of_nextClear_eq_none hd hn
    case refine_2.some hn =>
      rw [ho] at hn
      have ⟨hu, ha⟩ := usedTo_of_nextClear_eq_some hc hn
      exact ⟨hu, ha.imp_right (Nat.add_lt_add_right · 100)⟩
    case refine_2.used ht => exact ⟨hc.left.succ ht, hc.right⟩
    case refine_2.clear => exact hc
    case refine_2.last hle =>
      rcases hc.right with ha | hlt
      case inl => exact ha.of_all
      case inr => exact hc.left.mono (by omega)
    case refine_2.set =>
      have hg {idx : Nat} : Grows b (b.set idx) := .set
      exact ⟨(hc.left.grows hg).succ (BitSet.test_set.mpr (.inr rfl)), hc.right.imp_left (·.grows hg)⟩
  received := by
    intro b h h' ⟨ho, hc⟩ hr
    rcases h.received_inv hr with ⟨hp, he⟩ | ⟨hp, he⟩
    all_goals
      subst he
      rw [hp] at hc
      refine ⟨ho, ?_⟩
    case inl => exact ⟨hc.of_all, .inl hc⟩
    case inr => exact hc

theorem Idle.kept : Kept (β := β) Idle where
  grows hi hg := ⟨hi.used.grows hg, hi.offset, hi.acc, hi.test, hi.set⟩
  step := by
    intro b b' h h' hd hi hs
    have hn := nextClear_eq_none_of_usedTo hd hi.used hi.offset
    cases hs
    case none => exact ⟨hi.used, hi.offset, hi.acc, by simp, by simp⟩
    case some hs => simp [hn] at hs
    case used hp _ =>
      refine ⟨hi.used, hi.offset, hi.acc, fun idx length i he => ?_, by simp⟩
      cases he
      exact hi.test _ _ _ hp
    case clear idx _ _ hp hlt hc =>
      refine ⟨hi.used, hi.offset, hi.acc, by simp, fun _ _ _ he => ?_⟩
      cases he
      have hl := hi.test _ _ _ hp
      refine ⟨Nat.eq_zero_of_not_pos fun hpos => ?_, hl⟩
      have ht := hi.used idx hpos (by omega) (by omega)
      simp [hc] at ht
    case last => exact ⟨hi.used, hi.offset, hi.acc, by simp, by simp⟩
    case set hp =>
      have ⟨hz, hl⟩ := hi.set _ _ _ hp
      refine ⟨hi.used.grows .set, hi.offset, ?_, fun idx length i he => ?_, by simp⟩
      case refine_1 =>
        rw [hz, hi.acc]
        exact List.set_replicate_self
      case refine_2 =>
        cases he
        exact hl
  received := by
    intro b h h' hi hr
    rcases h.received_inv hr with ⟨_, he⟩ | ⟨_, he⟩
    all_goals
      subst he
      refine ⟨hi.used, hi.offset, hi.acc, fun idx length i he => ?_, by simp⟩
      cases he
    exact le_refl _

end Helper

namespace Sys

inductive Stepped [Bits β] [DecidableEq κ] (s : Sys β κ) : Sys β κ → Option (List UInt16) → Prop
  | start : (s.call = none) → Stepped s { s with
      helpers := s.helpers ++ [newHelper 1, newHelper 1025]
      call    := some ⟨k, s.helpers.length, s.helpers.length + 1, .receiveLower⟩
    } none
  | helper : (s.helpers[n]? = some h) → (h.Stepped s.cp.bSet h' b) → Stepped s (s.update n h' b) none
  | lower : (s.call = some c) → (c.pc = .receiveLower) → (s.helpers[c.lower]? = some h) →
    (h.received = some h') → Stepped s { s with
      helpers := s.helpers.set c.lower h'
      call    := some { c with pc := .receiveUpper }
    } none
  | upper : (s.call = some c) → (c.pc = .receiveUpper) → (s.helpers[c.upper]? = some h) →
    (h.received = some h') → Stepped s { s with
      helpers := s.helpers.set c.upper h'
      call    := some { c with pc := .append }
    } none
  | append : (s.call = some c) → (c.pc = .append) → Stepped s { s with
      cp   := { s.cp with am := s.cp.am.set c.cntAddr (s.accOf c.lower ++ s.accOf c.upper) }
      call := none
    } (some (s.accOf c.lower ++ s.accOf c.upper))

def Holds (P : BitSet β → Helper → Prop) (m : Nat) (s : Sys β κ) : Prop :=
  ∃ h, s.helpers[m]? = some h ∧ P s.cp.bSet h

structure Leased [Bits β] (n : Nat) (s : Sys β κ) : Prop where
  dense    : Dense s.cp.bSet
  passed   : ∀ h ∈ s.helpers, Passed s.cp.bSet h
  used     : UsedTo (100 * n) s.cp.bSet
  lower    : ∀ c, (s.call = some c) → Holds (Covers (100 * n)) c.lower s
  received : ∀ c, (s.call = some c) → (c.pc ≠ .receiveLower) → UsedTo (100 * n + 100) s.cp.bSet
  idle     : (656 ≤ n) → ∀ c, (s.call = some c) → Holds Idle c.lower s ∧ Holds Idle c.upper s

def results (ls : List (Op κ × Option (List UInt16))) : List (List UInt16) :=
  ls.filterMap (·.2)

variable [Bits β] [DecidableEq κ] {s s' : Sys β κ} {op : Op κ} {out : Option (List UInt16)} {n m : Nat}
  {P : BitSet β → Helper → Prop}

theorem step_inv (hs : s.step op = .ok (s', out)) (hr : ∀ k im, op ≠ .releasePorts k im) :
    s.Stepped s' out := by
  cases op
  case assignPorts k =>
    simp only [step, assignPorts] at hs
    split at hs
    case h_1    => contradiction
    case h_2 hc =>
      cases hs
      exact .start hc
  case helper =>
    obtain ⟨_, _, _, hn, he, hs', ho⟩ := helper_inv hs
    subst hs' ho
    exact .helper hn (Helper.step_inv he)
  case proceed =>
    simp only [step, proceed] at hs
    split at hs
    case h_1 => contradiction
    case h_2 c hc =>
      split at hs
      case h_1 hp =>
        obtain ⟨_, hv, ho⟩ := map_eq_ok.mp hs
        cases ho
        obtain ⟨_, _, hn, hr, he⟩ := receive_inv hv
        subst he
        exact .lower hc hp hn hr
      case h_2 hp =>
        obtain ⟨_, hv, ho⟩ := map_eq_ok.mp hs
        cases ho
        obtain ⟨_, _, hn, hr, he⟩ := receive_inv hv
        subst he
        exact .upper hc hp hn hr
      case h_3 hp =>
        cases hs
        exact .append hc hp
  case releasePorts k im => exact absurd rfl (hr k im)

theorem Stepped.grows (hs : s.Stepped s' out) : Grows s.cp.bSet s'.cp.bSet := by
  cases hs
  case helper he => exact he.grows
  all_goals exact .refl

omit [DecidableEq κ] in
theorem Holds.set (hk : Kept P) (h : Holds P m s) (hg : Grows s.cp.bSet s'.cp.bSet)
    (hn : s.helpers[n]? = some hp) (he : s'.helpers = s.helpers.set n h')
    (hp' : P s.cp.bSet hp → P s'.cp.bSet h') : Holds P m s' := by
  obtain ⟨h₀, hm, hP⟩ := h
  by_cases hnm : n = m
  case pos =>
    cases hnm
    cases Option.some.inj (hm.symm.trans hn)
    exact ⟨h', by simp [he, (List.getElem?_eq_some_iff.mp hn).fst], hp' hP⟩
  case neg => exact ⟨h₀, by rw [he, List.getElem?_set_ne hnm, hm], hk.grows hP hg⟩

theorem Holds.step (hk : Kept P) (hd : Dense s.cp.bSet) (h : Holds P m s) (hs : s.Stepped s' out) :
    Holds P m s' := by
  have hg := hs.grows
  cases hs
  case start =>
    obtain ⟨h₀, hm, hP⟩ := h
    exact ⟨h₀, by simp [List.getElem?_append_left (List.getElem?_eq_some_iff.mp hm).fst, hm], hP⟩
  case helper hn he     => exact h.set hk hg hn rfl (hk.step hd · he)
  case lower hn hr      => exact h.set hk hg hn rfl (hk.received · hr)
  case upper hn hr      => exact h.set hk hg hn rfl (hk.received · hr)
  case append           => exact h

namespace Leased

omit [DecidableEq κ] in
theorem init : Leased 0 (init : Sys β κ) where
  dense            := .new
  passed           := by simp [Sys.init]
  used j h₁ h₂ _   := by omega
  lower _ hc       := by simp [Sys.init] at hc
  received _ hc    := by simp [Sys.init] at hc
  idle hn          := by omega

theorem passed_step (h : Leased n s) (hs : s.Stepped s' out) :
    Dense s'.cp.bSet ∧ ∀ h ∈ s'.helpers, Passed s'.cp.bSet h := by
  have hg := hs.grows
  cases hs
  case start =>
    refine ⟨h.dense, fun hp hm => ?_⟩
    rcases List.mem_append.mp hm with hm | hm
    case inl => exact h.passed hp hm
    case inr =>
      have hpc : hp.pc = .nextClear := by
        rcases List.mem_pair.mp hm with he | he <;> rw [he] <;> rfl
      exact fun j _ hlt => by simp [hpc, Pc.index] at hlt
  case helper hn he =>
    obtain ⟨hd, hp⟩ := (h.passed _ (List.mem_of_getElem? hn)).step h.dense he
    refine ⟨hd, fun h₀ hm => ?_⟩
    rcases List.mem_or_eq_of_mem_set hm with hm | hm
    case inl => exact (h.passed h₀ hm).grows hg
    case inr => exact hm ▸ hp
  case append => exact ⟨h.dense, h.passed⟩
  all_goals
    refine ⟨h.dense, fun h₀ hm => ?_⟩
    rcases List.mem_or_eq_of_mem_set hm with hm | hm
    case inl => exact h.passed h₀ hm
    case inr =>
      subst hm
      exact .received ‹_›

theorem step (h : Leased n s) (hs : s.Stepped s' out) : Leased (n + out.toList.length) s' := by
  obtain ⟨hd, hp⟩ := h.passed_step hs
  have hg := hs.grows
  have hcov {m : Nat} (hm : Holds (Covers (100 * n)) m s) := hm.step Covers.kept h.dense hs
  have hidle {m : Nat} (hm : Holds Idle m s) := hm.step Idle.kept h.dense hs
  cases hs
  case start =>
    refine ⟨hd, hp, h.used, fun c hc => ?_, fun c hc hne => ?_, fun hn c hc => ?_⟩
    all_goals cases hc
    case refine_1 => exact ⟨newHelper 1, by simp, rfl, h.used⟩
    case refine_2 => simp at hne
    case refine_3 =>
      have hn : 656 ≤ n := hn
      have hu : UsedTo 65535 s.cp.bSet := h.used.mono (by omega)
      exact ⟨⟨newHelper 1, by simp, hu, by decide, rfl, by simp [newHelper], by simp [newHelper]⟩,
        ⟨newHelper 1025, by simp, hu, by decide, rfl, by simp [newHelper], by simp [newHelper]⟩⟩
  case helper =>
    refine ⟨hd, hp, h.used.grows hg, fun c hc => hcov (h.lower c hc),
      fun c hc hne => (h.received c hc hne).grows hg, fun hn c hc => ?_⟩
    exact (h.idle hn c hc).imp hidle hidle
  case lower c _ _ hc _ hn hr =>
    refine ⟨hd, hp, h.used, fun c' hc' => ?_, fun c' hc' _ => ?_, fun hn c' hc' => ?_⟩
    all_goals cases hc'
    case refine_1 => exact hcov (h.lower c hc)
    case refine_2 =>
      -- The helper has sent, so its window is used up.
      obtain ⟨h₀, hm, _, hcv⟩ := h.lower c hc
      cases Option.some.inj (hm.symm.trans hn)
      rcases Helper.received_inv hr with ⟨hpc, _⟩ | ⟨hpc, _⟩
      all_goals rw [hpc] at hcv
      case inl => exact hcv.of_all
      case inr => exact hcv
    case refine_3 => exact (h.idle hn c hc).imp hidle hidle
  case upper c _ _ hc hpc _ _ =>
    refine ⟨hd, hp, h.used, fun c' hc' => ?_, fun c' hc' _ => ?_, fun hn c' hc' => ?_⟩
    all_goals cases hc'
    case refine_1 => exact hcov (h.lower c hc)
    case refine_2 => exact h.received c hc (by simp [hpc])
    case refine_3 => exact (h.idle hn c hc).imp hidle hidle
  case append c hc hpc =>
    refine ⟨hd, hp, ?_, by simp, by simp, by simp⟩
    exact h.received c hc (by simp [hpc])

theorem result_eq (h : Leased n s) (hs : s.Stepped s' (some res)) (hn : 656 ≤ n) :
    res = List.replicate 200 0 := by
  cases hs
  case append c hc _ =>
    obtain ⟨⟨hL, hmL, hiL⟩, ⟨hU, hmU, hiU⟩⟩ := h.idle hn c hc
    simp [accOf, hmL, hmU, hiL.acc, hiU.acc]

end Leased

omit [DecidableEq κ] in
theorem results_concat : results (ls ++ [(op, out)]) = results ls ++ out.toList := by
  cases out <;> simp [results]

-- After 656 calls no port is left: whatever the interleaving of the helpers is, each later call returns
-- nothing but port 0.
theorem leases_exhausted (h : Run (Steps step) (init : Sys β κ) ls s)
    (hr : ∀ k im out, (.releasePorts k im, out) ∉ ls) (hi : 656 ≤ i)
    (hres : (results ls)[i]? = some res) : res = List.replicate 200 0 := by
  have hinv : Leased (results ls).length s ∧
      ∀ i res, (656 ≤ i) → ((results ls)[i]? = some res) → res = List.replicate 200 0 := by
    refine h.invariant_labels (P := fun ls s => (∀ k im out, (.releasePorts k im, out) ∉ ls) →
      Leased (results ls).length s ∧
      ∀ i res, (656 ≤ i) → ((results ls)[i]? = some res) → res = List.replicate 200 0) ?_ ?_ hr
    case refine_1 => exact fun _ => ⟨.init, by simp [results]⟩
    case refine_2 =>
      intro ls s (op, out) s' hi hs hr
      obtain ⟨hl, hres⟩ := hi fun k im out hm => hr k im out (List.mem_append_left _ hm)
      have hs := step_inv hs fun k im (he : op = _) => hr k im out (by simp [he])
      rw [results_concat, List.length_append]
      refine ⟨hl.step hs, fun i res hle hi => ?_⟩
      rcases Nat.lt_or_ge i (results ls).length with hlt | hge
      case inl => exact hres i res hle (by rwa [List.getElem?_append_left hlt] at hi)
      case inr =>
        rw [List.getElem?_append_right hge] at hi
        have hout := List.mem_of_getElem? hi
        cases out
        case none => contradiction
        case some =>
          cases List.mem_singleton.mp hout
          have hlt := (List.getElem?_eq_some_iff.mp hi).fst
          exact hl.result_eq hs (by simp at hlt; omega)
  exact hinv.right i res hi hres

theorem exists_calls (n : Nat) : ∃ ls s, Run (Steps step) (init : Sys Words Nat) ls s ∧ s.call = none ∧
    (∀ k im out, (.releasePorts k im, out) ∉ ls) ∧ n ≤ (results ls).length := by
  induction n
  case zero => exact ⟨[], init, .refl, rfl, by simp, by simp⟩
  case succ n hi =>
    obtain ⟨ls, s, r, hc, hr, hn⟩ := hi
    obtain ⟨ls', s', r', hls, hc', _, hm⟩ := run_assignPorts hc .lower 0
    refine ⟨_, s', r.trans r', hc', fun k im out hmem => ?_, ?_⟩
    case refine_1 =>
      rcases List.mem_append.mp hmem with hmem | hmem
      case inl => exact hr k im out hmem
      case inr =>
        rcases List.mem_cons.mp hmem with he | hmem
        case inl => cases he
        case inr => cases hls _ hmem
    case refine_2 =>
      have hpos : 0 < (results ls').length :=
        List.length_pos_of_mem (List.mem_filterMap.mpr ⟨_, hm, rfl⟩)
      simp only [results, List.filterMap_append, List.length_append, List.filterMap_cons] at hn hpos ⊢
      omega

theorem leases_exhausted_late : ∃ ls s, Run (Steps step) (init : Sys Words Nat) ls s ∧
    (results ls)[656]? = some (List.replicate 200 0) := by
  have ⟨ls, s, r, _, hr, hn⟩ := exists_calls 657
  have hlt : 656 < (results ls).length := hn
  have hres := List.getElem?_eq_getElem hlt
  exact ⟨ls, s, r, by rw [hres, leases_exhausted r hr (le_refl 656) hres]⟩

end Sys

end NatContext.Helpers
