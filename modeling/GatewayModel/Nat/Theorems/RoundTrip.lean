import GatewayModel.Nat.Theorems.Leases

open Go Execution

namespace NatContext

variable [Bits β] {b b₁ b₂ : BitSet β} {offset p : UInt16} {half : Half} {j n : Nat}
  {ports ports₁ ports₂ : List UInt16}

section Claims

-- The window that a helper scans ends with a port number.
def Fits (offset : UInt16) (b : BitSet β) : Prop :=
  (b.nextClear offset.toNat).getD 0 + 99 ≤ 65535

instance : Decidable (Fits offset b) :=
  inferInstanceAs (Decidable (_ ≤ _))

theorem Fits.toNat_ofNat (h : Fits offset b) (hj : j ∈ claimed offset b) :
    (UInt16.ofNat j).toNat = j := by
  have hm := List.mem_range'_1.mp (mem_clearOf.mp hj).left
  have hf : (b.nextClear offset.toNat).getD 0 + 99 ≤ 65535 := h
  exact toNat_ofNat_of_le (by omega)

structure Claims (b : BitSet β) (ports : List UInt16) (b' : BitSet β) : Prop where
  free  : ∀ p ∈ ports, p = 0 ∨ b.test p.toNat = false
  set   : ∀ j, (b'.test j = true) → b.test j = true ∨ ∃ p ∈ ports, p.toNat = j
  keeps : ∀ j, (b.test j = true) → b'.test j = true

theorem Claims.join (h₁ : Claims b ports₁ b₁) (h₂ : Claims b₁ ports₂ b₂) :
    Claims b (half.join ports₁ ports₂) b₂ where
  free p hp := by
    rcases Half.mem_join.mp hp with hp | hp
    case inl => exact h₁.free p hp
    case inr =>
      refine (h₂.free p hp).imp_right fun hf => ?_
      by_contra hc
      simp [h₁.keeps _ (by simpa using hc)] at hf
  set j hj := by
    rcases h₂.set j hj with hj | ⟨p, hp, he⟩
    case inl =>
      refine (h₁.set j hj).imp_right fun ⟨p, hp, he⟩ => ?_
      exact ⟨p, Half.mem_join.mpr (.inl hp), he⟩
    case inr => exact .inr ⟨p, Half.mem_join.mpr (.inr hp), he⟩
  keeps j hj := h₂.keeps j (h₁.keeps j hj)

theorem Claims.of_fits (h : Fits offset b) :
    Claims b (setHelper offset (List.replicate 100 0) b).1
      (setHelper offset (List.replicate 100 0) b).2 := by
  rw [setHelper_eq]
  constructor
  case free =>
    intro p hp
    rcases List.mem_append.mp hp with hp | hp
    case inl =>
      have ⟨j, hj, he⟩ := List.mem_map.mp hp
      right
      rw [← he, h.toNat_ofNat hj]
      exact (mem_clearOf.mp hj).right
    case inr => exact .inl (List.eq_of_mem_replicate hp)
  case set =>
    intro j hj
    refine (BitSet.test_foldl_set.mp hj).imp_right fun hj => ?_
    exact ⟨UInt16.ofNat j, List.mem_append_left _ (List.mem_map_of_mem hj), h.toNat_ofNat hj⟩
  case keeps => exact fun j hj => BitSet.test_foldl_set.mpr (.inl hj)

def Bounded (b : BitSet β) : Prop :=
  ∀ j, (65535 < j) → b.test j = false

theorem Claims.bounded (h : Claims b ports b₁) (hb : Bounded b) : Bounded b₁ := by
  intro j hj
  by_contra hc
  rcases h.set j (by simpa using hc) with ht | ⟨p, _, he⟩
  case inl => simp [hb j hj] at ht
  case inr =>
    have := p.toNat_lt
    omega

theorem Fits.of_bounded (hb : Bounded b)
    (h : Bounded (setHelper offset (List.replicate 100 0) b).2) : Fits offset b := by
  let idx := (b.nextClear offset.toNat).getD 0
  show idx + 99 ≤ 65535
  by_contra hc
  have hm : max idx 65536 ∈ claimed offset b := by
    refine mem_clearOf.mpr ⟨List.mem_range'_1.mpr (by omega), ?_⟩
    rcases Nat.le_total idx 65535 with hle | hlt
    case inl => exact hb _ (by omega)
    case inr => exact hb _ (by omega)
  have ht := h (max idx 65536) (by omega)
  rw [setHelper_eq, Bool.eq_false_iff] at ht
  exact ht (BitSet.test_foldl_set.mpr (.inr hm))

theorem Claims.release_iff (h : Claims b ports b₁) :
    (∀ j, (releaseHelper ports (Map.empty : Map UInt16 κ) b₁).test j = b.test j) ↔
    (b.test 0 = false ∨ 0 ∉ ports) := by
  constructor
  case mp =>
    intro hr
    by_contra hc
    obtain ⟨ht, h₀⟩ : b.test 0 = true ∧ 0 ∈ ports := by simpa using hc
    have hr := (hr 0).trans ht
    exact (releaseHelper_test.mp hr).right 0 h₀ rfl rfl
  case mpr =>
    intro h₀ j
    rw [Bool.eq_iff_iff, releaseHelper_test]
    constructor
    case mp =>
      intro ⟨hj, hp⟩
      refine (h.set j hj).resolve_right fun ⟨p, hm, he⟩ => ?_
      exact hp p hm rfl he
    case mpr =>
      intro hj
      refine ⟨h.keeps j hj, fun p hp _ he => ?_⟩
      subst he
      rcases h.free p hp with hz | hf
      case inl =>
        subst hz
        cases h₀
        case inl h₀ => simp [show b.test 0 = true from hj] at h₀
        case inr h₀ => exact h₀ hp
      case inr => simp [hj] at hf

theorem zero_notMem_iff (hf : Fits half.offset b) (h₀ : b.test 0 = true) :
    (0 ∉ (setHelper half.offset (List.replicate 100 0) b).1) ↔ Room half.offset b := by
  refine ⟨fun hn => ?_, fun hr => (Leases.of_room hr Half.offset_pos).ne⟩
  have hc := clear_of_zero_notMem hn
  cases hx : b.nextClear half.offset.toNat
  case none =>
    rw [hx] at hc
    have := hc 0 (by simp)
    simp [h₀] at this
  case some idx =>
    rw [Fits, hx] at hf
    rw [hx] at hc
    refine (Option.any_eq_true ..).mpr ⟨idx, hx, ?_⟩
    simp only [Bool.and_eq_true, decide_eq_true_eq, List.all_eq_true]
    exact ⟨hf, fun j hj => by simpa using hc j hj⟩

end Claims

section Runs

variable {s s' : State β κ} {k : κ}

def Fitting (s : State β κ) : Op κ → Prop
  | .assignPorts half _ => OnHelpers Fits half s.cp.bSet
  | .releasePorts _ _   => True

instance : ∀ op, Decidable (Fitting s op)
  | .assignPorts half _ => inferInstanceAs (Decidable (OnHelpers Fits half s.cp.bSet))
  | .releasePorts _ _   => .isTrue trivial

variable [DecidableEq κ]

namespace CntPortMapping

variable {cp : CntPortMapping β κ}

theorem claims_assignPorts (h : OnHelpers Fits half cp.bSet) (k : κ) :
    Claims cp.bSet (cp.assignPorts half k).2 (cp.assignPorts half k).1.bSet :=
  assignPorts_join k Claims.join Claims.of_fits h

theorem bounded_assignPorts (hb : Bounded cp.bSet) :
    Bounded (cp.assignPorts half k).1.bSet ↔ OnHelpers Fits half cp.bSet := by
  refine ⟨fun h => ?_, fun h => (claims_assignPorts h k).bounded hb⟩
  rcases he₁ : setHelper (half.first cp.bSet).offset (List.replicate 100 0) cp.bSet with ⟨acc, b₁⟩
  rcases he₂ : setHelper (half.first cp.bSet).other.offset (List.replicate 100 0) b₁ with ⟨acc', b₂⟩
  rw [assignPorts_eq rfl he₁ he₂] at h
  have hb₁ : Bounded b₁ := by
    intro j hj
    by_contra hc
    have ht := h j hj
    rw [setHelper_eq] at he₂
    cases he₂
    rw [Bool.eq_false_iff] at ht
    exact ht (BitSet.test_foldl_set.mpr (.inl (by simpa using hc)))
  rw [OnHelpers, he₁]
  exact ⟨.of_bounded hb (by rwa [he₁]), .of_bounded hb₁ (by rwa [he₂])⟩

theorem zero_notMem_assignPorts (hf : OnHelpers Fits half cp.bSet) (h₀ : cp.bSet.test 0 = true) :
    (0 ∉ (cp.assignPorts half k).2) ↔ OnHelpers Room half cp.bSet := by
  obtain ⟨hf₁, hf₂⟩ := hf
  have h₁ := zero_notMem_iff hf₁ h₀
  have hk := (Claims.of_fits hf₁).keeps 0 h₀
  rw [OnHelpers]
  rcases he₁ : setHelper (half.first cp.bSet).offset (List.replicate 100 0) cp.bSet with ⟨acc, b₁⟩
  rw [he₁] at hf₂ h₁ hk
  have h₂ := zero_notMem_iff hf₂ hk
  rcases he₂ : setHelper (half.first cp.bSet).other.offset (List.replicate 100 0) b₁ with ⟨acc', b₂⟩
  rw [he₂] at h₂
  rw [assignPorts_eq rfl he₁ he₂, Half.mem_join, not_or, h₁, h₂]

omit [DecidableEq κ] in
theorem bounded_releasePorts {im : Map UInt16 κ} :
    Bounded (cp.releasePorts k im).bSet ↔ Bounded cp.bSet := by
  refine forall₂_congr fun j hj => ?_
  have hn : ∀ p ∈ (cp.am k).getD [], im p = none → p.toNat ≠ j := by
    intro p _ _
    have := p.toNat_lt
    omega
  rw [Bool.eq_false_iff, Bool.eq_false_iff, not_iff_not, releasePorts_test, and_iff_left hn]

end CntPortMapping

open CntPortMapping in
theorem Bounded.step (i : Bounded s.cp.bSet) (h : GuardedSteps Fitting NatContext.step s l s') :
    Bounded s'.cp.bSet := by
  have ⟨hg, hs⟩ := h
  rcases l with ⟨op, out⟩
  cases op <;> cases hs
  case assignPorts  => exact (bounded_assignPorts i).mpr hg
  case releasePorts => exact bounded_releasePorts.mpr i

open CntPortMapping in
-- As long as all windows fit, no bit beyond the port numbers is set. `ReleasePorts` then takes back what
-- `AssignPorts` has done, if both of its windows fit and, where port 0 is used, it leaves no slot empty.
theorem release_undoes_assign (h : Run (GuardedSteps Fitting step) (State.init : State β κ) ls s) :
    (∀ j, (65535 < j) → s.cp.bSet.test j = false) ∧
    ∀ half k,
      ((∀ j, (65535 < j) → (s.assignPorts half k).cp.bSet.test j = false) ↔
        OnHelpers Fits half s.cp.bSet) ∧
      ((∀ j, ((s.assignPorts half k).releasePorts k .empty).cp.bSet.test j = s.cp.bSet.test j) ↔
        OnHelpers Fits half s.cp.bSet ∧
        (s.cp.bSet.test 0 = false ∨ OnHelpers Room half s.cp.bSet)) := by
  have i : Bounded s.cp.bSet := h.invariant (P := fun s => Bounded s.cp.bSet)
    (fun j _ => BitSet.test_new) (fun i hs => i.step hs)
  refine ⟨i, fun half k => ⟨bounded_assignPorts i, ?_⟩⟩
  have hrel (hf : OnHelpers Fits half s.cp.bSet) :
      (∀ j, ((s.assignPorts half k).releasePorts k .empty).cp.bSet.test j = s.cp.bSet.test j) ↔
      (s.cp.bSet.test 0 = false ∨ OnHelpers Room half s.cp.bSet) := by
    simp only [State.releasePorts, State.assignPorts, releasePorts, am_assignPorts]
    rw [(claims_assignPorts hf k).release_iff]
    cases h₀ : s.cp.bSet.test 0
    case false => simp
    case true  => simp [zero_notMem_assignPorts hf h₀]
  constructor
  case mp =>
    intro hr
    have hb : Bounded ((s.assignPorts half k).releasePorts k .empty).cp.bSet :=
      fun j hj => (hr j).trans (i j hj)
    have hf := (bounded_assignPorts i).mp (bounded_releasePorts.mp hb)
    exact ⟨hf, (hrel hf).mp hr⟩
  case mpr =>
    rintro ⟨hf, h₀⟩
    exact (hrel hf).mpr h₀

theorem release_undoes_assign_fragmented : ∃ ls s,
    Run (GuardedSteps Fitting step) (State.init : State Words Nat) ls s ∧
    s.cp.am 1 = none ∧ s.cp.bSet.test 50 = true ∧ 0 ∈ (s.cp.assignPorts .upper 1).2 ∧
    ∀ j, ((s.assignPorts .upper 1).releasePorts 1 .empty).cp.bSet.test j = s.cp.bSet.test j := by
  have ⟨s, ls, h, ht⟩ : ∃ s ls, Run (GuardedSteps Fitting step) (State.init : State Words Nat) ls s ∧
      decide (s.cp.am 1 = none ∧ s.cp.bSet.test 50 = true ∧ 0 ∈ (s.cp.assignPorts .upper 1).2 ∧
        OnHelpers Fits .upper s.cp.bSet ∧ s.cp.bSet.test 0 = false) = true :=
    Run.of_passes_restrict [.assignPorts .lower 0, .releasePorts 0 (Map.empty.set 50 0)]
      (by decide +kernel)
  have ⟨ha, hu, hz, hf, h₀⟩ := of_decide_eq_true ht
  have ⟨_, hr⟩ := release_undoes_assign h
  exact ⟨ls, s, h, ha, hu, hz, (hr .upper 1).right.mpr ⟨hf, .inl h₀⟩⟩

end Runs

section Exhaustion

open CntPortMapping (am_assignPorts am_assignPorts_ne)

structure UsedUpTo (c : Nat) (s : State β Nat) : Prop where
  test   : ∀ j, (s.cp.bSet.test j = true) ↔ (1025 ≤ j ∧ j < c)
  length : s.cp.bSet.length = 65536
  am     : s.cp.am 1 = none

def keepUpper : Map UInt16 Nat :=
  fun p => if p < 1025 then none else some 0

variable {c : Nat} {s : State β Nat}

theorem UsedUpTo.init : UsedUpTo 1025 (State.init : State β Nat) where
  test j := by simp [State.init, CntPortMapping.newCntPortMapping]
  length := BitSet.length_new
  am     := rfl

theorem releaseHelper_length {im : Map UInt16 κ} : (releaseHelper ports im b).length = b.length := by
  induction ports generalizing b
  case nil => rfl
  case cons p ports hi =>
    simp only [releaseHelper, List.foldl_cons] at hi ⊢
    rw [hi]
    cases im p <;> simp

namespace UsedUpTo

variable (h : UsedUpTo c s) (hc : 1025 ≤ c) (hlt : c < 65536)
include h hc hlt

theorem assignPorts_eq (k : Nat) :
    (s.cp.assignPorts .lower k).2 = (List.range' 1 100 ++ List.range' c 100).map UInt16.ofNat ∧
    (s.cp.assignPorts .lower k).1.bSet =
      (List.range' 1 100 ++ List.range' c 100).foldl BitSet.set s.cp.bSet := by
  let b₁ := (List.range' 1 100).foldl BitSet.set s.cp.bSet
  have hl : b₁.length = 65536 := by
    rw [BitSet.length_foldl_set fun j hj => ?_, h.length]
    have := List.mem_range'_1.mp hj
    rw [h.length]
    omega
  have hc₁ : ∀ j ∈ List.range' 1 100, s.cp.bSet.test j = false := by
    intro j hj
    rw [List.mem_range'_1] at hj
    rw [Bool.eq_false_iff, ne_eq, h.test]
    omega
  have h₁ : s.cp.bSet.nextClear (1 : UInt16).toNat = some 1 :=
    BitSet.nextClear_eq_of (le_refl 1) (by rw [h.length]; decide) (hc₁ 1 (by simp)) fun j h₁ h₂ =>
      absurd h₂ (Nat.not_lt.mpr h₁)
  have hc₂ : ∀ j ∈ List.range' c 100, b₁.test j = false := by
    intro j hj
    rw [List.mem_range'_1] at hj
    rw [Bool.eq_false_iff, ne_eq, BitSet.test_foldl_set, h.test, List.mem_range'_1]
    omega
  have h₂ : b₁.nextClear (1025 : UInt16).toNat = some c :=
    BitSet.nextClear_eq_of hc (hl ▸ hlt) (hc₂ c (by simp [List.mem_range'_1])) fun j h₁ h₂ =>
      BitSet.test_foldl_set.mpr (.inl ((h.test j).mpr ⟨h₁, h₂⟩))
  rw [CntPortMapping.assignPorts_eq Half.first_lower (setHelper_of_clear h₁ hc₁)
    (setHelper_of_clear h₂ hc₂), List.map_append, List.foldl_append]
  exact ⟨rfl, rfl⟩

theorem test_assignPorts (k : Nat) : ((s.cp.assignPorts .lower k).1.bSet.test j = true) ↔
    ((1 ≤ j ∧ j < 101) ∨ (1025 ≤ j ∧ j < c + 100)) := by
  rw [(h.assignPorts_eq hc hlt k).right, BitSet.test_foldl_set, h.test, List.mem_append,
    List.mem_range'_1, List.mem_range'_1]
  omega

theorem extend (hle : c + 100 ≤ 65536) :
    UsedUpTo (c + 100) ((s.assignPorts .lower 0).releasePorts 0 keepUpper) where
  test j := by
    have hp {p : UInt16} : (keepUpper p = none) ↔ p.toNat < 1025 := by
      rw [keepUpper, ite_eq_left_iff]
      simp [UInt16.lt_iff_toNat_lt]
    have ht := h.test_assignPorts hc hlt (j := j) 0
    have hr := h.assignPorts_eq hc hlt 0
    simp only [State.releasePorts, State.assignPorts, CntPortMapping.releasePorts_test, am_assignPorts,
      Option.getD_some, ht, hr.left, List.forall_mem_map, hp]
    constructor
    case mp =>
      rintro ⟨hj, hn⟩
      refine hj.resolve_left fun hl => ?_
      have he : (UInt16.ofNat j).toNat = j := toNat_ofNat_of_le (by omega)
      exact hn j (by simp [List.mem_range'_1]; omega) (by omega) he
    case mpr =>
      intro hj
      exact ⟨.inr hj, fun _ _ hlt he => by omega⟩
  length := by
    have hl : (s.cp.assignPorts .lower 0).1.bSet.length = 65536 := by
      rw [(h.assignPorts_eq hc hlt 0).right, BitSet.length_foldl_set fun j hj => ?_, h.length]
      rw [h.length]
      simp only [List.mem_append, List.mem_range'_1] at hj
      omega
    simp only [State.releasePorts, State.assignPorts, CntPortMapping.releasePorts, am_assignPorts,
      releaseHelper_length, hl]
  am := by
    have hne : 1 ≠ 0 := by decide
    simp only [State.releasePorts, State.assignPorts, CntPortMapping.releasePorts, am_assignPorts]
    exact (am_assignPorts_ne hne).trans h.am

end UsedUpTo

theorem exists_usedUpTo (hn : 1025 + 100 * n ≤ 65536) :
    ∃ ls s, Run (Steps step) (State.init : State β Nat) ls s ∧ UsedUpTo (1025 + 100 * n) s := by
  induction n
  case zero => exact ⟨[], .init, .refl, .init⟩
  case succ n hi =>
    have ⟨ls, s, h, hu⟩ := hi (by omega)
    have h₁ : Steps step s (.assignPorts .lower 0, (s.cp.assignPorts .lower 0).2)
        (s.assignPorts .lower 0) := rfl
    have h₂ : Steps step (s.assignPorts .lower 0) (.releasePorts 0 keepUpper, [])
        ((s.assignPorts .lower 0).releasePorts 0 keepUpper) := rfl
    exact ⟨_, _, (h.tail h₁).tail h₂, hu.extend (by omega) (by omega) (by omega)⟩

-- The upper window of the next lease goes beyond the port numbers, and its last bits stay set.
theorem exists_leftover (β : Type) [Bits β] : ∃ ls s,
    Run (Steps step) (State.init : State β Nat) ls s ∧
    s.cp.am 1 = none ∧ s.cp.bSet.test 65536 = false ∧
    (s.assignPorts .lower 1).cp.bSet.test 65536 = true ∧
    ((s.assignPorts .lower 1).releasePorts 1 .empty).cp.bSet.test 65536 = true := by
  have ⟨ls, s, h, hu⟩ := exists_usedUpTo (β := β) (n := 645) (by decide)
  have hs : (s.assignPorts .lower 1).cp.bSet.test 65536 = true :=
    (hu.test_assignPorts (by decide) (by decide) 1).mpr (.inr (by decide))
  refine ⟨ls, s, h, hu.am, ?_, hs, ?_⟩
  case refine_1 =>
    rw [Bool.eq_false_iff, ne_eq, hu.test]
    decide
  case refine_2 =>
    refine CntPortMapping.releasePorts_test.mpr ⟨hs, fun p _ _ he => ?_⟩
    have := p.toNat_lt
    omega

theorem release_leaves_bits : ∃ ls s,
    Run (Steps step) (State.init : State Words Nat) ls s ∧
    s.cp.am 1 = none ∧ s.cp.bSet.test 65536 = false ∧
    (s.assignPorts .lower 1).cp.bSet.test 65536 = true ∧
    ((s.assignPorts .lower 1).releasePorts 1 .empty).cp.bSet.test 65536 = true :=
  exists_leftover Words

end Exhaustion
end NatContext
