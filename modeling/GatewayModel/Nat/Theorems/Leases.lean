import GatewayModel.Nat.Context

open Go Execution

namespace NatContext

variable [Bits β] {b b₁ b₂ : BitSet β} {idx j n : Nat} {p offset : UInt16} {half : Half}
  {ports ports₁ ports₂ : List UInt16}

theorem toNat_ofNat_of_le (h : j ≤ 65535) : (UInt16.ofNat j).toNat = j :=
  UInt16.toNat_ofNat_of_lt' (Nat.lt_succ_of_le h)

section Scan

variable {m : Nat} {is : List Nat}

def clearOf (b : BitSet β) (is : List Nat) : List Nat :=
  is.filter fun j => !b.test j

theorem mem_clearOf : (j ∈ clearOf b is) ↔ (j ∈ is ∧ b.test j = false) := by
  simp [clearOf]

theorem clearOf_eq_self (h : ∀ j ∈ is, b.test j = false) : clearOf b is = is :=
  List.filter_eq_self.mpr fun j hj => by simp [h j hj]

theorem clearOf_set (h : idx ∉ is) : clearOf (b.set idx) is = clearOf b is := by
  refine List.filter_congr fun j hj => ?_
  have hne : idx ≠ j := fun he => h (he ▸ hj)
  have hs : (b.set idx).test j = b.test j := by
    rw [Bool.eq_iff_iff, BitSet.test_set]
    simp [hne]
  rw [hs]

theorem Scan.foldl_visit (found : List UInt16) (nd : is.Nodup) (hm : is.length ≤ m) :
    is.foldl visit ⟨b, found ++ List.replicate m 0, found.length⟩ =
    ⟨(clearOf b is).foldl BitSet.set b,
      found ++ (clearOf b is).map UInt16.ofNat ++ List.replicate (m - (clearOf b is).length) 0,
      found.length + (clearOf b is).length⟩ := by
  induction is generalizing b found m
  case nil => simp [clearOf]
  case cons idx is hi =>
    have ⟨hne, nd⟩ := List.nodup_cons.mp nd
    rw [List.length_cons] at hm
    rw [List.foldl_cons]
    cases ht : b.test idx
    case true =>
      have hc : clearOf b (idx :: is) = clearOf b is := by simp [clearOf, ht]
      rw [visit, if_pos ht, hc]
      exact hi found nd (by omega)
    case false =>
      have hc : clearOf b (idx :: is) = idx :: clearOf (b.set idx) is := by
        rw [clearOf_set hne]
        simp [clearOf, ht]
      have hr : List.replicate m (0 : UInt16) = 0 :: List.replicate (m - 1) 0 := by
        rw [← List.replicate_succ, show m - 1 + 1 = m by omega]
      have hv : visit ⟨b, found ++ List.replicate m 0, found.length⟩ idx =
          ⟨b.set idx, (found ++ [UInt16.ofNat idx]) ++ List.replicate (m - 1) 0,
            (found ++ [UInt16.ofNat idx]).length⟩ := by
        simp [visit, ht, hr]
      rw [hv, hi _ nd (by omega), hc]
      simp [Nat.sub_sub, Nat.add_comm, Nat.add_left_comm]

def claimed (offset : UInt16) (b : BitSet β) : List Nat :=
  clearOf b (List.range' ((b.nextClear offset.toNat).getD 0) 100)

theorem setHelper_eq :
    setHelper offset (List.replicate 100 0) b =
      ((claimed offset b).map UInt16.ofNat ++ List.replicate (100 - (claimed offset b).length) 0,
        (claimed offset b).foldl BitSet.set b) := by
  have hl := Scan.foldl_visit (b := b) (m := 100) []
    (List.nodup_range' (s := (b.nextClear offset.toNat).getD 0) (n := 100)) (by simp)
  simp only [List.nil_append, List.length_nil] at hl
  simp only [setHelper, hl]
  rfl

theorem length_setHelper : (setHelper offset (List.replicate 100 0) b).1.length = 100 := by
  have hle : (claimed offset b).length ≤ 100 :=
    (List.length_filter_le ..).trans_eq List.length_range'
  rw [setHelper_eq, List.length_append, List.length_map, List.length_replicate]
  omega

theorem setHelper_of_clear (hn : b.nextClear offset.toNat = some idx)
    (hc : ∀ j ∈ List.range' idx 100, b.test j = false) :
    setHelper offset (List.replicate 100 0) b =
      ((List.range' idx 100).map UInt16.ofNat, (List.range' idx 100).foldl BitSet.set b) := by
  have hcl : claimed offset b = List.range' idx 100 := by
    rw [claimed, hn]
    exact clearOf_eq_self hc
  rw [setHelper_eq, hcl]
  simp

theorem clear_of_zero_notMem (h : 0 ∉ (setHelper offset (List.replicate 100 0) b).1) :
    ∀ j ∈ List.range' ((b.nextClear offset.toNat).getD 0) 100, b.test j = false := by
  rw [setHelper_eq, List.mem_append, not_or] at h
  have hlen : 100 ≤ (claimed offset b).length := by
    by_contra hc
    exact h.right (List.mem_replicate.mpr ⟨by omega, rfl⟩)
  have hall : claimed offset b = List.range' ((b.nextClear offset.toNat).getD 0) 100 :=
    List.filter_sublist.eq_of_length_le (by simpa [claimed, clearOf] using hlen)
  exact fun j hj => (mem_clearOf.mp (hall ▸ hj)).right

end Scan

-- The first clear index from `offset` on begins 100 clear ones, all of which are port numbers.
def Room (offset : UInt16) (b : BitSet β) : Prop :=
  (b.nextClear offset.toNat).any (fun idx =>
    idx + 99 ≤ 65535 && (List.range' idx 100).all (fun j => !b.test j)) = true

instance : Decidable (Room offset b) :=
  inferInstanceAs (Decidable (_ = _))

theorem setHelper_of_room (h : Room offset b) :
    ∃ idx, offset.toNat ≤ idx ∧ idx + 99 ≤ 65535 ∧
      (∀ j ∈ List.range' idx 100, b.test j = false) ∧
      setHelper offset (List.replicate 100 0) b =
        ((List.range' idx 100).map UInt16.ofNat, (List.range' idx 100).foldl BitSet.set b) := by
  have ⟨idx, hn, hr⟩ := (Option.any_eq_true ..).mp h
  simp only [Bool.and_eq_true, decide_eq_true_eq, List.all_eq_true, Bool.not_eq_eq_eq_not,
    Bool.not_true] at hr
  exact ⟨idx, (BitSet.nextClear_eq_some hn).left, hr.left, hr.right, setHelper_of_clear hn hr.right⟩

structure Leases (b : BitSet β) (ports : List UInt16) (b' : BitSet β) : Prop where
  free  : ∀ p ∈ ports, b.test p.toNat = false
  used  : ∀ p ∈ ports, b'.test p.toNat = true
  keeps : ∀ j, b.test j = true → b'.test j = true
  ne    : 0 ∉ ports

@[simp]
theorem Half.mem_join : (p ∈ half.join ports₁ ports₂) ↔ (p ∈ ports₁ ∨ p ∈ ports₂) := by
  cases half <;> simp [join, or_comm]

theorem Leases.join (h₁ : Leases b ports₁ b₁) (h₂ : Leases b₁ ports₂ b₂) :
    Leases b (half.join ports₁ ports₂) b₂ where
  free p hp := by
    rcases Half.mem_join.mp hp with hp | hp
    case inl => exact h₁.free p hp
    case inr =>
      -- A port that was used before the first lease would still be used at the second one.
      by_contra hb
      have hk := h₁.keeps _ (by simpa using hb)
      simp [h₂.free p hp] at hk
  used p hp := by
    rcases Half.mem_join.mp hp with hp | hp
    case inl => exact h₂.keeps _ (h₁.used p hp)
    case inr => exact h₂.used p hp
  keeps j hj := h₂.keeps j (h₁.keeps j hj)
  ne := by simp [h₁.ne, h₂.ne]

theorem Leases.of_room (h : Room offset b) (ho : 0 < offset.toNat) :
    Leases b (setHelper offset (List.replicate 100 0) b).1
      (setHelper offset (List.replicate 100 0) b).2 := by
  have ⟨idx, hle, hlt, hc, he⟩ := setHelper_of_room h
  have hp : ∀ p ∈ (List.range' idx 100).map UInt16.ofNat, p.toNat ∈ List.range' idx 100 := by
    intro p hp
    have ⟨j, hj, he⟩ := List.mem_map.mp hp
    have hr := List.mem_range'_1.mp hj
    rw [← he, toNat_ofNat_of_le (by omega)]
    exact hj
  rw [he]
  constructor
  case free  => exact fun p hm => hc _ (hp p hm)
  case used  => exact fun p hm => BitSet.test_foldl_set.mpr (.inr (hp p hm))
  case keeps => exact fun j hj => BitSet.test_foldl_set.mpr (.inl hj)
  case ne =>
    intro hm
    have := List.mem_range'_1.mp (hp 0 hm)
    simp only [UInt16.toNat_zero] at this
    omega

theorem releaseHelper_test {im : Map UInt16 κ} :
    (releaseHelper ports im b).test j = true ↔
    b.test j = true ∧ ∀ p ∈ ports, im p = none → p.toNat ≠ j := by
  induction ports generalizing b
  case nil => simp [releaseHelper]
  case cons p ports hi =>
    simp only [releaseHelper, List.foldl_cons] at hi ⊢
    rw [hi, List.forall_mem_cons]
    cases hp : im p <;> simp [BitSet.test_clear, and_assoc]

variable {s s' : State β κ} {k : κ}

theorem CntPortMapping.releasePorts_test {cp : CntPortMapping β κ} {im : Map UInt16 κ} :
    (cp.releasePorts k im).bSet.test j = true ↔
    cp.bSet.test j = true ∧ ∀ p ∈ (cp.am k).getD [], im p = none → p.toNat ≠ j := by
  simp only [releasePorts]
  split
  case h_1 ha      => simp [ha]
  case h_2 buff ha => simp [ha, releaseHelper_test]

-- Each of the helpers finds the bits with property `P`, the second one after the first one has run.
def OnHelpers (P : UInt16 → BitSet β → Prop) (half : Half) (b : BitSet β) : Prop :=
  P (half.first b).offset b ∧
  P (half.first b).other.offset (setHelper (half.first b).offset (List.replicate 100 0) b).2

instance {P : UInt16 → BitSet β → Prop} [∀ offset b, Decidable (P offset b)] :
    Decidable (OnHelpers P half b) :=
  inferInstanceAs (Decidable (_ ∧ _))

-- Both helpers find room, and `ReleasePorts` only clears ports that the container holds or that are
-- free already.
def KeepsLeases (s : State β κ) : Op κ → Prop
  | .assignPorts half _ => OnHelpers Room half s.cp.bSet
  | .releasePorts k im  =>
    ∀ p ∈ (s.cp.am k).getD [], im p = none → p ∈ s.holding k ∨ s.cp.bSet.test p.toNat = false

theorem KeepsLeases.of_am_eq {im : Map UInt16 κ} (h : s.cp.am k = some (s.holding k)) :
    KeepsLeases s (.releasePorts k im) := by
  intro p hp _
  rw [h] at hp
  exact .inl hp

instance : ∀ op, Decidable (KeepsLeases s op)
  | .assignPorts half _ => inferInstanceAs (Decidable (OnHelpers Room half s.cp.bSet))
  | .releasePorts k im  =>
    if h : s.cp.am k = some (s.holding k)
    then .isTrue (.of_am_eq h)
    else inferInstanceAs (Decidable (∀ p ∈ (s.cp.am k).getD [],
      im p = none → p ∈ s.holding k ∨ s.cp.bSet.test p.toNat = false))

structure Exclusive (s : State β κ) : Prop where
  used : ∀ k, ∀ p ∈ s.holding k, s.cp.bSet.test p.toNat = true
  once : ∀ k₁ k₂, ∀ p ∈ s.holding k₁, p ∈ s.holding k₂ → k₁ = k₂
  ne   : ∀ k, 0 ∉ s.holding k

theorem Exclusive.init : Exclusive (State.init : State β κ) where
  used _ _ h     := by simp [State.init] at h
  once _ _ _ h _ := by simp [State.init] at h
  ne             := by simp [State.init]

variable [DecidableEq κ]

theorem Half.first_lower : lower.first b = .lower :=
  ite_self _

theorem Half.offset_pos : 0 < half.offset.toNat := by
  cases half <;> decide

namespace CntPortMapping

variable {cp : CntPortMapping β κ} {acc acc' : List UInt16}

-- The results of the helpers are named, as evaluating them is slow.
theorem assignPorts_eq {first : Half} (hf : half.first cp.bSet = first)
    (h₁ : setHelper first.offset (List.replicate 100 0) cp.bSet = (acc, b₁))
    (h₂ : setHelper first.other.offset (List.replicate 100 0) b₁ = (acc', b₂)) :
    cp.assignPorts half k =
      ({ bSet := b₂, am := cp.am.set k (first.join acc acc') }, first.join acc acc') := by
  rw [assignPorts, hf]
  split
  case h_1 he =>
    cases h₁.symm.trans he
    rw [h₂]

theorem assignPorts_join {P : BitSet β → List UInt16 → BitSet β → Prop}
    {Q : UInt16 → BitSet β → Prop} (k : κ)
    (hP : ∀ {half : Half} {b ports₁ b₁ ports₂ b₂}, P b ports₁ b₁ → P b₁ ports₂ b₂ →
      P b (half.join ports₁ ports₂) b₂)
    (hQ : ∀ {half : Half} {b}, Q half.offset b → P b (setHelper half.offset (List.replicate 100 0) b).1
      (setHelper half.offset (List.replicate 100 0) b).2)
    (h : OnHelpers Q half cp.bSet) :
    P cp.bSet (cp.assignPorts half k).2 (cp.assignPorts half k).1.bSet := by
  obtain ⟨h₁, h₂⟩ := h
  have hp₁ := hQ h₁
  rcases he₁ : setHelper (half.first cp.bSet).offset (List.replicate 100 0) cp.bSet with ⟨acc, b₁⟩
  rw [he₁] at h₂ hp₁
  have hp₂ := hQ h₂
  rcases he₂ : setHelper (half.first cp.bSet).other.offset (List.replicate 100 0) b₁ with ⟨acc', b₂⟩
  rw [he₂] at hp₂
  rw [assignPorts_eq rfl he₁ he₂]
  exact hP hp₁ hp₂

theorem leases_assignPorts (h : OnHelpers Room half cp.bSet) (k : κ) :
    Leases cp.bSet (cp.assignPorts half k).2 (cp.assignPorts half k).1.bSet :=
  assignPorts_join k Leases.join (Leases.of_room · Half.offset_pos) h

theorem am_assignPorts : (cp.assignPorts half k).1.am k = some (cp.assignPorts half k).2 :=
  Map.set_self

theorem am_assignPorts_ne {k' : κ} (h : k' ≠ k) : (cp.assignPorts half k).1.am k' = cp.am k' := by
  have he : (cp.assignPorts half k).1.am = cp.am.set k (cp.assignPorts half k).2 := rfl
  rw [he, Map.set_ne h]

end CntPortMapping

namespace Exclusive

theorem assignPorts (i : Exclusive s) (h : OnHelpers Room half s.cp.bSet) :
    Exclusive (s.assignPorts half k) := by
  have hl := CntPortMapping.leases_assignPorts h k
  have hk : (s.assignPorts half k).holding k = (s.cp.assignPorts half k).2 := Function.update_self ..
  have hk' {k'} (hn : k' ≠ k) : (s.assignPorts half k).holding k' = s.holding k' :=
    Function.update_of_ne hn ..
  -- The ports of the other containers are used, so the new ones are not among them.
  have hf {k' p} (hp : p ∈ s.holding k') : p ∉ (s.cp.assignPorts half k).2 := by
    intro hm
    have hu := i.used k' p hp
    simp [hl.free p hm] at hu
  constructor
  case used =>
    intro k' p hp
    by_cases he : k' = k
    case pos => exact hl.used p (by rwa [he, hk] at hp)
    case neg => exact hl.keeps _ (i.used k' p (by rwa [hk' he] at hp))
  case once =>
    intro k₁ k₂ p h₁ h₂
    by_cases he₁ : k₁ = k <;> by_cases he₂ : k₂ = k
    case pos => rw [he₁, he₂]
    case neg =>
      rw [he₁, hk] at h₁
      rw [hk' he₂] at h₂
      exact absurd h₁ (hf h₂)
    case pos =>
      rw [hk' he₁] at h₁
      rw [he₂, hk] at h₂
      exact absurd h₂ (hf h₁)
    case neg =>
      rw [hk' he₁] at h₁
      rw [hk' he₂] at h₂
      exact i.once k₁ k₂ p h₁ h₂
  case ne =>
    intro k' hp
    by_cases he : k' = k
    case pos => exact hl.ne (by rwa [he, hk] at hp)
    case neg => exact i.ne k' (by rwa [hk' he] at hp)

theorem releasePorts {im : Map UInt16 κ} (i : Exclusive s)
    (h : KeepsLeases s (.releasePorts k im)) : Exclusive (s.releasePorts k im) := by
  have hk {p} (hp : p ∈ (s.releasePorts k im).holding k) : p ∈ s.holding k ∧ im p ≠ none := by
    simpa [State.releasePorts, Option.isSome_iff_ne_none] using hp
  have hs {k' p} (hp : p ∈ (s.releasePorts k im).holding k') : p ∈ s.holding k' := by
    by_cases he : k' = k
    case pos => exact he ▸ (hk (he ▸ hp)).left
    case neg => simpa [State.releasePorts, he] using hp
  constructor
  case used =>
    intro k' p hp
    refine CntPortMapping.releasePorts_test.mpr ⟨i.used k' p (hs hp), ?_⟩
    intro p' hp' hi he
    cases UInt16.toNat_inj.mp he
    by_cases he : k' = k
    case pos => exact (hk (he ▸ hp)).right hi
    case neg =>
      rcases h p hp' hi with hh | hf
      case inl => exact he (i.once k' k p (hs hp) hh)
      case inr => simp [i.used k' p (hs hp)] at hf
  case once => exact fun k₁ k₂ p h₁ h₂ => i.once k₁ k₂ p (hs h₁) (hs h₂)
  case ne   => exact fun k' hp => i.ne k' (hs hp)

theorem step (i : Exclusive s) (h : GuardedSteps KeepsLeases NatContext.step s l s') :
    Exclusive s' := by
  have ⟨hg, hs⟩ := h
  rcases l with ⟨op, out⟩
  cases op <;> cases hs
  case assignPorts  => exact i.assignPorts hg
  case releasePorts => exact i.releasePorts hg

end Exclusive

-- As long as `AssignPorts` finds room for its 200 ports and `ReleasePorts` frees none but the
-- container's own ports, no port is leased twice.
theorem leases_exclusive (h : Run (GuardedSteps KeepsLeases step) (State.init : State β κ) ls s) :
    (∀ p k₁ k₂, p ∈ s.holding k₁ → p ∈ s.holding k₂ → k₁ = k₂) ∧ ∀ k, 0 ∉ s.holding k := by
  have i : Exclusive s := h.invariant .init (fun i hs => i.step hs)
  exact ⟨fun p k₁ k₂ h₁ h₂ => i.once k₁ k₂ p h₁ h₂, i.ne⟩

theorem leases_exclusive_reuse : ∃ ls s,
    Run (GuardedSteps KeepsLeases step) (State.init : State Words Nat) ls s ∧
    s.holding 0 = [] ∧ 200 ∈ s.holding 1 ∧ 100 ∈ s.holding 2 ∧ 1025 ∈ s.holding 2 ∧
    ((∀ p k₁ k₂, p ∈ s.holding k₁ → p ∈ s.holding k₂ → k₁ = k₂) ∧ ∀ k, 0 ∉ s.holding k) := by
  have ⟨s, ls, h, ht⟩ : ∃ s ls,
      Run (GuardedSteps KeepsLeases step) (State.init : State Words Nat) ls s ∧
      decide (s.holding 0 = [] ∧ 200 ∈ s.holding 1 ∧ 100 ∈ s.holding 2 ∧ 1025 ∈ s.holding 2) = true :=
    Run.of_passes_restrict [.assignPorts .lower 0, .assignPorts .upper 1, .releasePorts 0 .empty,
      .assignPorts .upper 2] (by decide +kernel)
  have ⟨h₀, h₁, h₂, h₃⟩ := of_decide_eq_true ht
  exact ⟨ls, s, h, h₀, h₁, h₂, h₃, leases_exclusive h⟩

section Agree

structure State.Agree [Bits γ] (s : State β κ) (t : State γ κ) : Prop where
  bSet    : s.cp.bSet.Agree t.cp.bSet
  am      : s.cp.am = t.cp.am
  holding : s.holding = t.holding

variable [Bits γ] {c : BitSet γ} {t : State γ κ}

theorem Scan.foldl_visit_agree (h : b.Agree c) (acc : List UInt16) (i : Nat) (is : List Nat) :
    let sc := is.foldl visit ⟨b, acc, i⟩
    let sc' := is.foldl visit ⟨c, acc, i⟩
    sc.cnt.Agree sc'.cnt ∧ sc.acc = sc'.acc := by
  induction is generalizing b c acc i
  case nil => exact ⟨h, rfl⟩
  case cons idx is hi =>
    simp only [List.foldl_cons, visit, h.test]
    split
    case isTrue  => exact hi h ..
    case isFalse => exact hi h.set ..

theorem setHelper_agree (h : b.Agree c) (offset : UInt16) (acc : List UInt16) :
    ∃ acc' b' c', setHelper offset acc b = (acc', b') ∧ setHelper offset acc c = (acc', c') ∧
      b'.Agree c' := by
  simp only [setHelper, h.nextClear]
  obtain ⟨ha, he⟩ := Scan.foldl_visit_agree h acc 0
    (List.range' ((c.nextClear offset.toNat).getD 0) 100)
  exact ⟨_, _, _, rfl, by rw [he], ha⟩

omit [DecidableEq κ] in
theorem releaseHelper_agree {im : Map UInt16 κ} (h : b.Agree c) :
    (releaseHelper ports im b).Agree (releaseHelper ports im c) := by
  induction ports generalizing b c
  case nil => exact h
  case cons p ports hi =>
    simp only [releaseHelper, List.foldl_cons] at hi ⊢
    split
    case isTrue  => exact hi h
    case isFalse => exact hi h.clear

theorem CntPortMapping.assignPorts_agree {cp : CntPortMapping β κ} {cp' : CntPortMapping γ κ}
    (h : cp.bSet.Agree cp'.bSet) (half : Half) (k : κ) :
    (cp.assignPorts half k).2 = (cp'.assignPorts half k).2 ∧
    (cp.assignPorts half k).1.bSet.Agree (cp'.assignPorts half k).1.bSet := by
  have hf : half.first cp.bSet = half.first cp'.bSet := by simp only [Half.first, h.nextClear]
  obtain ⟨acc, b₁, c₁, hb₁, hc₁, h₁⟩ :=
    setHelper_agree h (half.first cp.bSet).offset (List.replicate 100 0)
  obtain ⟨acc', b₂, c₂, hb₂, hc₂, h₂⟩ :=
    setHelper_agree h₁ (half.first cp.bSet).other.offset (List.replicate 100 0)
  rw [assignPorts_eq rfl hb₁ hb₂, assignPorts_eq hf.symm hc₁ hc₂]
  exact ⟨rfl, h₂⟩

namespace State.Agree

omit [DecidableEq κ] in
theorem init : (init : State β κ).Agree (State.init : State γ κ) where
  bSet    := .new
  am      := rfl
  holding := rfl

theorem step (h : s.Agree t) (hs : Steps NatContext.step s l s') :
    ∃ t', Run (Steps NatContext.step) t [l] t' ∧ s'.Agree t' := by
  rcases l with ⟨op, out⟩
  cases op <;> cases hs
  case assignPorts half k =>
    obtain ⟨he, hb⟩ := CntPortMapping.assignPorts_agree h.bSet half k
    have ht : Steps NatContext.step t (.assignPorts half k, (s.cp.assignPorts half k).2)
        (t.assignPorts half k) := by
      rw [he]
      rfl
    have ha : (s.assignPorts half k).cp.am = s.cp.am.set k (s.cp.assignPorts half k).2 := rfl
    refine ⟨_, .single ht, hb, ?_, ?_⟩
    case refine_1 => rw [ha, he, h.am]; rfl
    case refine_2 => simp only [assignPorts, he, h.holding]
  case releasePorts k im =>
    refine ⟨t.releasePorts k im, .single rfl, ?_, ?_, ?_⟩
    all_goals simp only [releasePorts, CntPortMapping.releasePorts, h.am, h.holding]
    all_goals cases t.cp.am k
    case refine_1.none => exact h.bSet
    case refine_1.some => exact releaseHelper_agree h.bSet
    case refine_2.none => exact h.am
    case refine_2.some => rfl

end State.Agree

theorem State.exists_agree (h : Run (Steps step) (State.init : State β κ) ls s) (γ : Type) [Bits γ] :
    ∃ t : State γ κ, Run (Steps step) State.init ls t ∧ s.Agree t := by
  have ⟨t, r, ha⟩ := h.simulate (R := State.Agree) (t := (State.init : State γ κ)) (f := ([·])) .init
    fun ha hs => ha.step hs
  exact ⟨t, by simpa using r, ha⟩

end Agree

-- A second `ReleasePorts` for a container frees ports that were leased to another one in between.
-- And after a release that keeps one port, the next container gets slots that were never filled.
theorem exists_overlap (β : Type) [Bits β] :
    (∃ ls s, Run (Steps step) (State.init : State β Nat) ls s ∧
      1 ∈ s.holding 1 ∧ 1 ∈ s.holding 2) ∧
    (∃ ls s, Run (Steps step) (State.init : State β Nat) ls s ∧ 0 ∈ s.holding 1) := by
  constructor
  case left =>
    have ⟨s, ls, h, ht⟩ : ∃ s ls, Run (Steps step) (State.init : State Words Nat) ls s ∧
        decide (1 ∈ s.holding 1 ∧ 1 ∈ s.holding 2) = true :=
      Run.of_passes [.assignPorts .lower 0, .releasePorts 0 .empty, .assignPorts .lower 1,
        .releasePorts 0 .empty, .assignPorts .lower 2] (by decide +kernel)
    have ⟨t, h, ha⟩ := State.exists_agree h β
    exact ⟨ls, t, h, ha.holding ▸ of_decide_eq_true ht⟩
  case right =>
    have ⟨s, ls, h, ht⟩ : ∃ s ls, Run (Steps step) (State.init : State Words Nat) ls s ∧
        decide (0 ∈ s.holding 1) = true :=
      Run.of_passes [.assignPorts .lower 0, .releasePorts 0 (Map.empty.set 50 0), .assignPorts .lower 1]
        (by decide +kernel)
    have ⟨t, h, ha⟩ := State.exists_agree h β
    exact ⟨ls, t, h, ha.holding ▸ of_decide_eq_true ht⟩

theorem leases_overlap :
    (∃ ls s, Run (Steps step) (State.init : State Words Nat) ls s ∧
      1 ∈ s.holding 1 ∧ 1 ∈ s.holding 2) ∧
    (∃ ls s, Run (Steps step) (State.init : State Words Nat) ls s ∧ 0 ∈ s.holding 1) :=
  exists_overlap Words

end NatContext
