import Mathlib.Data.List.Nodup
import GatewayModel.Nat.Theorems.Sequential

open Go Execution

namespace NatContext.Helpers

variable [Bits β] {b : BitSet β} {offset : UInt16} {idx : Nat}

section Lease

variable {lo up j : Nat} {b' : BitSet β}

-- What `AssignPorts` should do: it returns 200 distinct ports that were free, the first half of them
-- up to 1024 and the second one beyond, and marks them as used.
structure ProperLease (b : BitSet β) (res : List UInt16) (b' : BitSet β) : Prop where
  length : res.length = 200
  nodup  : res.Nodup
  free   : ∀ p ∈ res, b.test p.toNat = false
  used   : ∀ p ∈ res, b'.test p.toNat = true
  lower  : ∀ p ∈ res.take 100, 1 ≤ p.toNat ∧ p.toNat ≤ 1024
  upper  : ∀ p ∈ res.drop 100, 1025 ≤ p.toNat ∧ p.toNat ≤ 65535
  frame  : ∀ j, (∀ p ∈ res, p.toNat ≠ j) → b'.test j = b.test j

theorem filled_full : filled idx 100 = (List.range' idx 100).map UInt16.ofNat := by
  simp [filled]

theorem Window.mem_filled {limit : Nat} (w : Window offset limit b idx) (hl : limit ≤ 65535)
    {p : UInt16} : (p ∈ filled idx 100) ↔ (idx ≤ p.toNat ∧ p.toNat < idx + 100) := by
  have hle := w.le
  rw [filled_full, List.mem_map]
  constructor
  case mp =>
    intro ⟨j, hj, he⟩
    have hj := List.mem_range'_1.mp hj
    rwa [← he, toNat_ofNat_of_le (by omega)]
  case mpr =>
    intro hp
    exact ⟨p.toNat, List.mem_range'_1.mpr hp, UInt16.ofNat_toNat⟩

theorem Window.nodup_filled {limit : Nat} (w : Window offset limit b idx) (hl : limit ≤ 65535) :
    (filled idx 100).Nodup := by
  have hle := w.le
  rw [filled_full]
  refine List.Nodup.map_on (fun a ha c hc he => ?_) List.nodup_range'
  have ha := List.mem_range'_1.mp ha
  have hc := List.mem_range'_1.mp hc
  have he := congrArg UInt16.toNat he
  rwa [toNat_ofNat_of_le (by omega), toNat_ofNat_of_le (by omega)] at he

theorem properLease (wL : Window 1 1024 b lo) (wU : Window 1025 65535 b up)
    (ht : ∀ j, (b'.test j = true) ↔
      (b.test j = true ∨ (lo ≤ j ∧ j < lo + 100) ∨ (up ≤ j ∧ j < up + 100))) :
    ProperLease b (filled lo 100 ++ filled up 100) b' := by
  have hL {p : UInt16} := wL.mem_filled (p := p) (by decide)
  have hU {p : UInt16} := wU.mem_filled (p := p) (by decide)
  have hlo : 1 ≤ lo := wL.le_start
  have hle := wL.le
  have hup : 1025 ≤ up := wU.le_start
  have hle' := wU.le
  have hlen {idx : Nat} : (filled idx 100).length = 100 := by simp [filled_full]
  constructor
  case length => rw [List.length_append, hlen, hlen]
  case nodup =>
    refine List.nodup_append.mpr ⟨wL.nodup_filled (by decide), wU.nodup_filled (by decide), ?_⟩
    intro p hp q hq he
    have := hL.mp hp
    have := hU.mp (he ▸ hq)
    omega
  case free =>
    intro p hp
    rcases List.mem_append.mp hp with hp | hp
    case inl => exact wL.clear _ (hL.mp hp).left (hL.mp hp).right
    case inr => exact wU.clear _ (hU.mp hp).left (hU.mp hp).right
  case used =>
    intro p hp
    refine (ht _).mpr (.inr ?_)
    exact (List.mem_append.mp hp).imp hL.mp hU.mp
  case lower =>
    intro p hp
    rw [List.take_left' hlen, hL] at hp
    omega
  case upper =>
    intro p hp
    rw [List.drop_left' hlen, hU] at hp
    omega
  case frame =>
    intro j hj
    rw [Bool.eq_iff_iff, ht, or_iff_left]
    intro hc
    have he : (UInt16.ofNat j).toNat = j := toNat_ofNat_of_le (by omega)
    refine hj (UInt16.ofNat j) (List.mem_append.mpr ?_) he
    rwa [hL, hU, he]

-- The converse for one helper: it cannot return such ports unless its window is free. A port whose number
-- has overflowed would be one that it has passed over.
theorem Window.of_setHelper {limit : Nat} (ho : 1 ≤ offset.toNat)
    (hp : ∀ p ∈ (setHelper offset (List.replicate 100 0) b).1,
      offset.toNat ≤ p.toNat ∧ p.toNat ≤ limit ∧ b.test p.toNat = false) :
    ∃ idx, Window offset limit b idx := by
  have hz : 0 ∉ (setHelper offset (List.replicate 100 0) b).1 := by
    intro hm
    have := (hp 0 hm).left
    simp only [UInt16.toNat_zero] at this
    omega
  have hc := clear_of_zero_notMem hz
  have hcl : claimed offset b = List.range' ((b.nextClear offset.toNat).getD 0) 100 := clearOf_eq_self hc
  rw [setHelper_eq, hcl, List.mem_append, not_or, List.mem_map] at hz
  rw [setHelper_eq, hcl, List.forall_mem_append, List.forall_mem_map] at hp
  cases hn : b.nextClear offset.toNat
  case none => exact absurd ⟨0, by simp [hn], rfl⟩ hz.left
  case some idx =>
    rw [hn, Option.getD_some] at hc hp
    have hle : idx + 99 ≤ limit := by
      have ⟨h₁, h₂, h₃⟩ := hp.left (idx + 99) (List.mem_range'_1.mpr (by omega))
      rw [UInt16.toNat_ofNat'] at h₁ h₂ h₃
      rcases Nat.lt_or_ge (idx + 99) 65536 with hlt | hge
      case inl => rwa [Nat.mod_eq_of_lt hlt] at h₂
      case inr =>
        have := BitSet.test_of_lt_nextClear hn h₁ (by omega)
        simp [this] at h₃
    exact ⟨idx, hn, hle, fun j h₁ h₂ => hc j (List.mem_range'_1.mpr ⟨h₁, h₂⟩)⟩

theorem Window.of_foldl_set (w : Window 1 1024 b lo)
    (h : Window 1025 65535 ((List.range' lo 100).foldl BitSet.set b) up) : Window 1025 65535 b up := by
  have hle := w.le
  have hup : 1025 ≤ up := h.le_start
  have ht {j : Nat} (hj : 1025 ≤ j) :
      ((List.range' lo 100).foldl BitSet.set b).test j = b.test j := by
    rw [Bool.eq_iff_iff, BitSet.test_foldl_set, or_iff_left]
    intro hm
    have := List.mem_range'_1.mp hm
    omega
  have hl : ((List.range' lo 100).foldl BitSet.set b).length ≤ max b.length 1025 := by
    refine BitSet.length_foldl_set_le fun j hj => ?_
    have := List.mem_range'_1.mp hj
    omega
  obtain ⟨_, hlt, hc, hpass⟩ := BitSet.nextClear_eq.mp h.start
  constructor
  case start =>
    refine BitSet.nextClear_eq_of hup (by omega) (by rwa [ht hup] at hc) fun j h₁ h₂ => ?_
    have hj := hpass j h₁ h₂
    rwa [ht h₁] at hj
  case le => exact h.le
  case clear =>
    intro j h₁ h₂
    have hj := h.clear j h₁ h₂
    rwa [ht (by omega)] at hj

theorem windows_of_properLease {lower upper : List UInt16} {b₁ b₂ : BitSet β}
    (hL : setHelper 1 (List.replicate 100 0) b = (lower, b₁))
    (hU : setHelper 1025 (List.replicate 100 0) b₁ = (upper, b₂))
    (h : ProperLease b (lower ++ upper) b₂) :
    (∃ lo, Window 1 1024 b lo) ∧ ∃ up, Window 1025 65535 b up := by
  have hlen : lower.length = 100 := by
    have hlen : (setHelper 1 (List.replicate 100 0) b).1.length = 100 := length_setHelper
    rwa [hL] at hlen
  have hl := h.lower
  rw [List.take_left' hlen] at hl
  have hu := h.upper
  rw [List.drop_left' hlen] at hu
  obtain ⟨lo, wL⟩ : ∃ lo, Window 1 1024 b lo := by
    refine Window.of_setHelper (by decide) fun p hp => ?_
    rw [hL] at hp
    exact ⟨(hl p hp).left, (hl p hp).right, h.free p (List.mem_append_left _ hp)⟩
  have hb₁ : b₁ = (List.range' lo 100).foldl BitSet.set b := by
    have he := setHelper_of_clear wL.start fun j hj =>
      wL.clear j (List.mem_range'_1.mp hj).left (List.mem_range'_1.mp hj).right
    exact (Prod.mk.inj (hL.symm.trans he)).right
  refine ⟨⟨lo, wL⟩, ?_⟩
  obtain ⟨up, wU⟩ : ∃ up, Window 1025 65535 b₁ up := by
    refine Window.of_setHelper (by decide) fun p hp => ?_
    rw [hU] at hp
    refine ⟨(hu p hp).left, (hu p hp).right, ?_⟩
    rw [hb₁, Bool.eq_false_iff, ne_eq, BitSet.test_foldl_set, List.mem_range'_1]
    have hf := h.free p (List.mem_append_right _ hp)
    have hle := (hu p hp).left
    have hlo := wL.le
    simp only [hf, Bool.false_eq_true, false_or]
    omega
  exact ⟨up, wL.of_foldl_set (hb₁ ▸ wU)⟩

variable [DecidableEq κ] {s s' : Sys β κ} {k : κ} {ls : List (Op κ × Option (List UInt16))}

-- Each interleaving of a call with its helpers ends with a proper lease: there are at most 407 steps, one of
-- them is enabled until `AssignPorts` returns, and then it returns such a lease.
def LeasesProperly (s : Sys β κ) (k : κ) : Prop :=
  ∀ ls s', Run (Steps Sys.step) s ((.assignPorts k, none) :: ls) s' →
    (∀ l ∈ ls, l.1.OfCall s.helpers.length) →
    ls.length ≤ 407 ∧
    ((s'.call ≠ none) → ∃ op : Op κ, op.OfCall s.helpers.length ∧ ∃ r, s'.step op = .ok r) ∧
    ((s'.call = none) → ∃ res, (.proceed, some res) ∈ ls ∧ s'.cp.am k = some res ∧
      ProperLease s.cp.bSet res s'.cp.bSet)

theorem leasesProperly_of_windows (hc : s.call = none) (wL : Window 1 1024 s.cp.bSet lo)
    (wU : Window 1025 65535 s.cp.bSet up) : LeasesProperly s k := by
  intro ls s' h hls
  have ⟨mL, mU, r, hL, hU, i⟩ := InCall.run hc wL wU h hls
  have hlf := i.left
  refine ⟨by omega, i.enabled, fun hn => ?_⟩
  have ⟨ha, hm⟩ := i.result hn
  have ⟨hmL, hmU⟩ : mL = 100 ∧ mU = 100 := by
    have hph := i.phase
    rw [hn] at hph
    cases hph
    case returned hdL hdU => exact ⟨(hdL ▸ i.leasing.lower.pc).eq_full, (hdU ▸ i.leasing.upper.pc).eq_full⟩
  subst hmL hmU
  exact ⟨_, hm, ha, properLease wL wU i.leasing.test⟩

-- A call leases properly, whatever the interleaving, if and only if both helpers find a free window.
theorem assignPorts_leases_properly (hc : s.call = none) (k : κ) :
    LeasesProperly s k ↔
    ((∃ lo, Window 1 1024 s.cp.bSet lo) ∧ ∃ up, Window 1025 65535 s.cp.bSet up) := by
  constructor
  case mp =>
    -- The lower helper may run before the upper one.
    intro h
    obtain ⟨ls, s', r, hls, hn, he, _⟩ := Sys.run_assignPorts hc .lower k
    obtain ⟨_, _, hr⟩ := h ls s' r hls
    obtain ⟨res, _, ha, hp⟩ := hr hn
    rcases hL : setHelper 1 (List.replicate 100 0) s.cp.bSet with ⟨lower, b₁⟩
    rcases hU : setHelper 1025 (List.replicate 100 0) b₁ with ⟨upper, b₂⟩
    rw [CntPortMapping.assignPorts_eq Half.first_lower hL hU] at he
    have hs : s'.cp.am k = some (lower ++ upper) := by
      rw [he]
      exact Map.set_self
    cases Option.some.inj (hs.symm.trans ha)
    rw [he] at hp
    exact windows_of_properLease hL hU hp
  case mpr => exact fun ⟨⟨_, wL⟩, ⟨_, wU⟩⟩ => leasesProperly_of_windows hc wL wU

instance {limit : Nat} : Decidable (Window offset limit b idx) :=
  decidable_of_iff ((b.nextClear offset.toNat = some idx) ∧ idx + 99 ≤ limit ∧
      ∀ j ∈ List.range' idx 100, b.test j = false)
    ⟨fun ⟨hs, hl, hc⟩ => ⟨hs, hl, fun j h₁ h₂ => hc j (List.mem_range'_1.mpr ⟨h₁, h₂⟩)⟩,
      fun w => ⟨w.start, w.le, fun j hj => w.clear j (List.mem_range'_1.mp hj).left
        (List.mem_range'_1.mp hj).right⟩⟩

theorem assignPorts_leases_properly_reuse : ∃ ls s, Run (Steps Sys.step) (Sys.init : Sys Words Nat) ls s ∧
    s.cp.bSet.test 150 = true ∧ LeasesProperly s 2 := by
  have ⟨t, ls, h, ht⟩ : ∃ t ls, Run (Steps NatContext.step) (State.init : State Words Nat) ls t ∧
      decide (t.cp.bSet.test 150 = true ∧ Window 1 1024 t.cp.bSet 1 ∧
        Window 1025 65535 t.cp.bSet 1025) = true :=
    Run.of_passes [.assignPorts .lower 0, .assignPorts .upper 1, .releasePorts 0 .empty]
      (by decide +kernel)
  have ⟨hu, wL, wU⟩ := of_decide_eq_true ht
  have ⟨ls, s, r, hc, he⟩ := Sys.exists_run h
  rw [← he] at hu wL wU
  exact ⟨ls, s, r, hu, (assignPorts_leases_properly hc 2).mpr ⟨⟨1, wL⟩, ⟨1025, wU⟩⟩⟩

def ManyFree (lo up : Nat) (b : BitSet β) : Prop :=
  ∃ ports : List Nat, ports.length = 100 ∧ ports.Nodup ∧ ∀ p ∈ ports, lo ≤ p ∧ p ≤ up ∧ b.test p = false

theorem ManyFree.of_range' (h₁ : lo ≤ idx) (h₂ : idx + 99 ≤ up)
    (h : ∀ p ∈ List.range' idx 100, b.test p = false) : ManyFree lo up b := by
  refine ⟨List.range' idx 100, List.length_range', List.nodup_range', fun p hp => ⟨?_, ?_, h p hp⟩⟩
  all_goals
    have := List.mem_range'_1.mp hp
    omega

-- A container keeps port 50 when it releases its ports. The window of the next call contains that port,
-- and so the call returns 99 ports of the lower half and port 0.
theorem exists_hole (β : Type) [Bits β] : ∃ ls ls' s s' res,
    Run (Steps Sys.step) (Sys.init : Sys β Nat) ls s ∧ s.call = none ∧
    ManyFree 1 1024 s.cp.bSet ∧ ManyFree 1025 65535 s.cp.bSet ∧
    Run (Steps Sys.step) s ((.assignPorts 1, none) :: ls') s' ∧
    (∀ l ∈ ls', l.1.OfCall s.helpers.length) ∧ (.proceed, some res) ∈ ls' ∧ s'.call = none ∧
    0 ∈ res.take 100 ∧ ¬ ProperLease s.cp.bSet res s'.cp.bSet := by
  have ⟨t, ls, h, ht⟩ : ∃ t ls, Run (Steps NatContext.step) (State.init : State Words Nat) ls t ∧
      decide ((∀ p ∈ List.range' 101 100, t.cp.bSet.test p = false) ∧
        (∀ p ∈ List.range' 1025 100, t.cp.bSet.test p = false) ∧
        0 ∈ (t.cp.assignPorts .lower 1).2.take 100) = true :=
    Run.of_passes [.assignPorts .lower 0, .releasePorts 0 (Map.empty.set 50 0)] (by decide +kernel)
  have ⟨hL, hU, hz⟩ := of_decide_eq_true ht
  have ⟨t', h, ha⟩ := State.exists_agree h β
  have ⟨ls, s, r, hc, he⟩ := Sys.exists_run h
  simp only [ha.bSet.test] at hL hU
  rw [(CntPortMapping.assignPorts_agree ha.bSet _ _).left] at hz
  rw [← he] at hL hU hz
  have ⟨ls', s', r', hls, hn, _, hm⟩ := Sys.run_assignPorts hc .lower 1
  refine ⟨ls, ls', s, s', _, r, hc, .of_range' (by decide) (by decide) hL,
    .of_range' (by decide) (by decide) hU, r', hls, hm, hn, hz, fun hp => ?_⟩
  have := hp.lower 0 hz
  simp at this

theorem lease_has_hole : ∃ ls ls' s s' res,
    Run (Steps Sys.step) (Sys.init : Sys Words Nat) ls s ∧ s.call = none ∧
    ManyFree 1 1024 s.cp.bSet ∧ ManyFree 1025 65535 s.cp.bSet ∧
    Run (Steps Sys.step) s ((.assignPorts 1, none) :: ls') s' ∧
    (∀ l ∈ ls', l.1.OfCall s.helpers.length) ∧ (.proceed, some res) ∈ ls' ∧ s'.call = none ∧
    0 ∈ res.take 100 ∧ ¬ ProperLease s.cp.bSet res s'.cp.bSet :=
  exists_hole Words

end Lease

end NatContext.Helpers
