import GatewayModel.Nat.PortMapping

open Go Execution

-- The lease timers that the calls of `Set` start.
namespace NatContext

namespace PortCntMapping

variable {pc : PortCntMapping} {port : UInt16} {addr : UInt32}

@[simp]
theorem lum_set {now : Int} : (pc.set port addr now).lum = pc.lum.set port now := by
  simp only [set]
  split <;> rfl

@[simp]
theorem leaseTimeout_set {now : Int} : (pc.set port addr now).leaseTimeout = pc.leaseTimeout := by
  simp only [set]
  split <;> rfl

@[simp]
theorem im_replace : (pc.replace oldAddr newAddr).im = pc.im := by
  simp only [replace]
  split <;> rfl

@[simp]
theorem lum_replace : (pc.replace oldAddr newAddr).lum = pc.lum := by
  simp only [replace]
  split <;> rfl

@[simp]
theorem leaseTimeout_replace : (pc.replace oldAddr newAddr).leaseTimeout = pc.leaseTimeout := by
  simp only [replace]
  split <;> rfl

theorem im_set_ne {now : Int} (h : port' ≠ port) : (pc.set port addr now).im port' = pc.im port' := by
  simp only [set]
  split <;> exact Map.set_ne h

end PortCntMapping

namespace Timers

inductive Stepped (t : Timers) : Op → Timers → List Event → Prop
  | idle :
    Stepped t op t []
  | set :
    Stepped t (.set port addr) { t with
      pc     := t.pc.set port addr t.clock
      timers := t.timers ++ [⟨port, .start⟩] } [.set port t.clock]
  | start :
    (t.timers[i]? = some ⟨port, .start⟩) →
    Stepped t (.start i) (t.setPhase i ⟨port, .start⟩ (.waiting (t.clock + t.pc.leaseTimeout))) []
  | again :
    (t.timers[i]? = some ⟨port, .waiting wake⟩) →
    Stepped t (.check i)
      (t.setPhase i ⟨port, .waiting wake⟩ (.waiting (t.clock + t.pc.leaseTimeout))) []
  | expired :
    (t.timers[i]? = some ⟨port, .waiting wake⟩) → (t.pc.expired port t.clock) →
    Stepped t (.check i) (t.setPhase i ⟨port, .waiting wake⟩ .removal) []
  | remove :
    (t.timers[i]? = some ⟨port, .removal⟩) →
    Stepped t (.remove i) { t.setPhase i ⟨port, .removal⟩ .done with pc := t.pc.remove port }
      [.removed port t.clock]
  | replace :
    Stepped t (.replace oldAddr newAddr) { t with pc := t.pc.replace oldAddr newAddr } []
  | delete :
    Stepped t (.delete port) { t with pc := t.pc.delete port } []
  | wait :
    Stepped t (.wait d) { t with clock := t.clock + d } []

variable {t t' : Timers} {op : Op} {evs evs' : List Event} {port : UInt16} {timeout : Int}

theorem step_inv (h : t.step op = .ok (t', evs)) : Stepped t op t' evs := by
  cases op <;> simp only [step] at h
  case set | replace | delete | wait =>
    cases h
    constructor
  case start =>
    split at h
    case h_1 hi =>
      cases h
      exact .start hi
    case h_2 =>
      cases h
      exact .idle
  case remove =>
    split at h
    case h_1 hi =>
      cases h
      exact .remove hi
    case h_2 =>
      cases h
      exact .idle
  case check =>
    split at h
    case h_2 =>
      cases h
      exact .idle
    case h_1 hi =>
      split at h
      case isTrue =>
        cases h
        exact .idle
      case isFalse =>
        split at h
        case isTrue hx =>
          cases h
          exact .expired hi hx
        case isFalse =>
          cases h
          exact .again hi

theorem mem_setPhase (h : x ∈ (t.setPhase i y phase).timers) :
    x ∈ t.timers ∨ x = { y with phase := phase } :=
  List.mem_or_eq_of_mem_set h

section Leaks

-- Every port in use has a timestamp and a timer that is going to check it.
structure Watched (t : Timers) : Prop where
  stamps : ∀ port, (t.pc.im port ≠ none) → t.pc.lum port ≠ none
  timers : ∀ port, (t.pc.im port ≠ none) → ∃ x ∈ t.timers, x.port = port ∧ x.phase ≠ .done

namespace Watched

theorem init {now : Int} : Watched (.init timeout now) where
  stamps := by simp [Timers.init, PortCntMapping.newPortCntMapping, Map.empty]
  timers := by simp [Timers.init, PortCntMapping.newPortCntMapping, Map.empty]

theorem mono (h : Watched t)
    (hi : ∀ port, (t'.pc.im port ≠ none) → t.pc.im port ≠ none ∧ t'.pc.lum port = t.pc.lum port)
    (ht : ∀ x ∈ t.timers, (t'.pc.im x.port ≠ none) → (x.phase ≠ .done) →
      ∃ y ∈ t'.timers, y.port = x.port ∧ y.phase ≠ .done) : Watched t' where
  stamps port hp := by
    have ⟨hp, hl⟩ := hi port hp
    exact hl ▸ h.stamps port hp
  timers port hp := by
    have ⟨x, hx, hxp, hxd⟩ := h.timers port (hi port hp).left
    have ⟨y, hy, hyp, hyd⟩ := ht x hx (hxp ▸ hp) hxd
    exact ⟨y, hy, hyp.trans hxp, hyd⟩

theorem setPhase {y : Timer} (h : Watched t) (hi : t.timers[i]? = some y) (hp : phase ≠ .done) :
    Watched (t.setPhase i y phase) := by
  refine h.mono (fun _ hp => ⟨hp, rfl⟩) fun x hx _ hd => ?_
  have ⟨j, hj⟩ := List.mem_iff_getElem?.mp hx
  have hlt := (List.getElem?_eq_some_iff.mp hi).fst
  by_cases hij : i = j
  case pos =>
    cases (hij ▸ hi).symm.trans hj
    exact ⟨_, List.mem_of_getElem? (List.getElem?_set_self hlt), rfl, hp⟩
  case neg => exact ⟨x, List.mem_of_getElem? ((List.getElem?_set_ne hij).trans hj), rfl, hd⟩

theorem set (h : Watched t) : Watched { t with
    pc := t.pc.set port addr t.clock, timers := t.timers ++ [⟨port, .start⟩] } := by
  constructor
  case stamps =>
    intro port' hp
    simp only [PortCntMapping.lum_set, Map.set_apply] at hp ⊢
    split
    case isTrue     => simp
    case isFalse hn => exact h.stamps port' (PortCntMapping.im_set_ne hn ▸ hp)
  case timers =>
    intro port' hp
    by_cases hn : port' = port
    case pos => exact ⟨⟨port, .start⟩, by simp, hn.symm, by simp⟩
    case neg =>
      have ⟨x, hx, hx'⟩ := h.timers port' (PortCntMapping.im_set_ne hn ▸ hp)
      exact ⟨x, List.mem_append_left _ hx, hx'⟩

-- The port that a timer removes is not in use any more, so that its timers are not needed.
theorem remove (h : Watched t) (hi : t.timers[i]? = some ⟨port, .removal⟩) :
    Watched { t.setPhase i ⟨port, .removal⟩ .done with pc := t.pc.remove port } := by
  have hd : ∀ {port'}, ((t.pc.remove port).im port' ≠ none) → port' ≠ port ∧ t.pc.im port' ≠ none :=
    fun hp => not_or.mp (mt Map.delete_eq_none.mpr hp)
  apply h.mono
  case hi =>
    intro port' hp
    have ⟨hne, hp⟩ := hd hp
    exact ⟨hp, Map.delete_ne hne⟩
  case ht =>
    intro x hx hp hxd
    have ⟨j, hj⟩ := List.mem_iff_getElem?.mp hx
    have hij : i ≠ j := by
      intro hij
      cases (hij ▸ hi).symm.trans hj
      exact (hd hp).left rfl
    exact ⟨x, List.mem_of_getElem? ((List.getElem?_set_ne hij).trans hj), rfl, hxd⟩

theorem step (h : Watched t) (hs : Stepped t op t' evs) : Watched t' := by
  cases hs
  case idle         => exact h
  case set          => exact h.set
  case remove hi    => exact h.remove hi
  case start hi     => exact h.setPhase hi (by simp)
  case again hi     => exact h.setPhase hi (by simp)
  case expired hi _ => exact h.setPhase hi (by simp)
  case replace => exact h.mono (by simp) fun x hx _ hd => ⟨x, hx, rfl, hd⟩
  case wait    => exact h.mono (fun _ hp => ⟨hp, rfl⟩) fun x hx _ hd => ⟨x, hx, rfl, hd⟩
  case delete =>
    refine h.mono (fun port hp => ⟨?_, rfl⟩) fun x hx _ hd => ⟨x, hx, rfl, hd⟩
    exact (not_or.mp (mt Map.delete_eq_none.mpr hp)).right

end Watched

-- However the critical sections of the calls and of their timers are interleaved, every port in use has
-- a timestamp and a timer that has not yet removed it.
theorem leases_watched {now : Int} (h : Run (Steps step) (.init timeout now) ls t)
    (hp : t.pc.im port ≠ none) :
    t.pc.lum port ≠ none ∧ ∃ x ∈ t.timers, x.port = port ∧ x.phase ≠ .done := by
  have hw : Watched t := h.invariant .init fun hw hs => hw.step (step_inv hs)
  exact ⟨hw.stamps port hp, hw.timers port hp⟩

theorem leases_watched_renewed :
    ∃ ls t, Run (Steps step) (.init 5 100) ls t ∧
      t.timers.map (·.phase) = [.done, .waiting 112, .start] ∧ t.pc.im 80 ≠ none ∧
      t.pc.lum 80 ≠ none ∧ ∃ x ∈ t.timers, x.port = 80 ∧ x.phase ≠ .done := by
  have ⟨t, ls, h, ht⟩ : ∃ t ls, Run (Steps step) (.init 5 100) ls t ∧
      decide (t.timers.map (·.phase) = [.done, .waiting 112, .start] ∧ t.pc.im 80 ≠ none) = true :=
    Run.of_passes [.set 80 1, .start 0, .wait 6, .check 0, .set 80 2, .replace 2 3, .wait 1, .start 1,
      .remove 0, .set 80 1] (by decide)
  have ⟨hp, hi⟩ := of_decide_eq_true ht
  exact ⟨ls, t, h, hp, hi, leases_watched h hi⟩

end Leaks

section Renewals

-- No call of `Set` enters its critical section while a timer of the port is between the check in which
-- it has found the lease expired and the removal of the port.
def RenewsInTime (t : Timers) : Op → Prop
  | .set port _ => ∀ x ∈ t.timers, (x.port = port) → x.phase ≠ .removal
  | _           => True

instance : (op : Op) → Decidable (t.RenewsInTime op)
  | .set port _ => inferInstanceAs (Decidable (∀ x ∈ t.timers, (x.port = port) → x.phase ≠ .removal))
  | .start _ | .check _ | .remove _ | .replace .. | .delete _ | .wait _ => .isTrue trivial

-- The calls of `Set` are not in the future, and those that `lum` does not know of are more than the
-- timeout ago, as are all those for a port that a timer is about to remove.
structure Stamped (t : Timers) (timeout : Int) (evs : List Event) : Prop where
  lease   : t.pc.leaseTimeout = timeout
  past    : ∀ port time, (.set port time ∈ evs) → time ≤ t.clock
  stamps  : ∀ port time, (.set port time ∈ evs) →
            (∃ ts, t.pc.lum port = some ts ∧ time ≤ ts) ∨ (time + timeout < t.clock)
  removal : ∀ x ∈ t.timers, (x.phase = .removal) →
            ∀ time, (.set x.port time ∈ evs) → time + timeout < t.clock

namespace Stamped

theorem init {now : Int} : Stamped (.init timeout now) timeout [] where
  lease   := rfl
  past    := by simp
  stamps  := by simp
  removal := by simp

theorem congr (h : Stamped t timeout evs) (hc : t'.clock = t.clock) (hl : t'.pc.lum = t.pc.lum)
    (ht : t'.pc.leaseTimeout = t.pc.leaseTimeout)
    (hx : ∀ x ∈ t'.timers, (x.phase = .removal) → x ∈ t.timers) : Stamped t' timeout evs where
  lease        := ht.trans h.lease
  past         := hc ▸ h.past
  stamps       := hc ▸ hl ▸ h.stamps
  removal x hm := fun hp => hc ▸ h.removal x (hx x hm hp) hp

theorem waiting (h : Stamped t timeout evs) (i : Nat) (x : Timer) (wake : Int) :
    Stamped (t.setPhase i x (.waiting wake)) timeout evs := by
  refine h.congr rfl rfl rfl fun y hm hp => ?_
  cases mem_setPhase hm
  case inl hm => exact hm
  case inr hm => simp [hm] at hp

theorem set (h : Stamped t timeout evs) (hg : t.RenewsInTime (.set port addr)) :
    Stamped { t with
      pc     := t.pc.set port addr t.clock
      timers := t.timers ++ [⟨port, .start⟩] } timeout (evs ++ [.set port t.clock]) := by
  constructor
  case lease => exact PortCntMapping.leaseTimeout_set.trans h.lease
  case past =>
    intro port' time hm
    cases List.mem_append.mp hm
    case inl hm => exact h.past port' time hm
    case inr hm =>
      cases List.mem_singleton.mp hm
      exact Int.le_refl _
  case stamps =>
    intro port' time hm
    simp only [PortCntMapping.lum_set, Map.set_apply]
    cases List.mem_append.mp hm
    case inr hm =>
      cases List.mem_singleton.mp hm
      exact .inl ⟨t.clock, by simp, Int.le_refl _⟩
    case inl hm =>
      split
      case isTrue  => exact .inl ⟨t.clock, rfl, h.past port' time hm⟩
      case isFalse => exact h.stamps port' time hm
  case removal =>
    intro x hx hp time hm
    have hx' : x ∈ t.timers := by
      cases List.mem_append.mp hx
      case inl hx => exact hx
      case inr hx =>
        cases List.mem_singleton.mp hx
        contradiction
    cases List.mem_append.mp hm
    case inl hm => exact h.removal x hx' hp time hm
    case inr hm =>
      cases List.mem_singleton.mp hm
      exact absurd hp (hg x hx' rfl)

theorem expired {x : Timer} (h : Stamped t timeout evs) (hx : t.pc.expired x.port t.clock) :
    Stamped (t.setPhase i x .removal) timeout evs where
  lease   := h.lease
  past    := h.past
  stamps  := h.stamps
  removal := by
    intro y hy hp time hm
    cases mem_setPhase hy
    case inl hy => exact h.removal y hy hp time hm
    case inr hy =>
      rw [hy] at hm
      cases h.stamps x.port time hm
      case inr hlt => exact hlt
      case inl hts =>
        have ⟨ts, hts, hle⟩ := hts
        simp only [PortCntMapping.expired, hts, h.lease, decide_eq_true_eq] at hx
        exact Int.lt_of_le_of_lt (Int.add_le_add_right hle timeout) hx

theorem remove (h : Stamped t timeout evs) (hi : t.timers[i]? = some ⟨port, .removal⟩) :
    Stamped { t.setPhase i ⟨port, .removal⟩ .done with pc := t.pc.remove port } timeout
      (evs ++ [.removed port t.clock]) := by
  have hset : ∀ {port' time'}, (.set port' time' ∈ evs ++ [.removed port t.clock]) →
      .set port' time' ∈ evs := by simp
  constructor
  case lease   => exact h.lease
  case past    => exact fun port' time hm => h.past port' time (hset hm)
  case stamps =>
    intro port' time hm
    by_cases hn : port' = port
    case pos =>
      subst hn
      exact .inr (h.removal _ (List.mem_of_getElem? hi) rfl time (hset hm))
    case neg =>
      have hl : (t.pc.remove port).lum port' = t.pc.lum port' := Map.delete_ne hn
      exact hl ▸ h.stamps port' time (hset hm)
  case removal =>
    intro x hx hp time hm
    cases mem_setPhase hx
    case inl hx => exact h.removal x hx hp time (hset hm)
    case inr hx => simp [hx] at hp

theorem wait (h : Stamped t timeout evs) (d : Nat) :
    Stamped { t with clock := t.clock + d } timeout evs := by
  have hle : t.clock ≤ t.clock + d := by omega
  constructor
  case lease   => exact h.lease
  case past    => exact fun port time hm => Int.le_trans (h.past port time hm) hle
  case stamps  => exact fun port time hm =>
    (h.stamps port time hm).imp_right fun hlt => Int.lt_of_lt_of_le hlt hle
  case removal => exact fun x hx hp time hm => Int.lt_of_lt_of_le (h.removal x hx hp time hm) hle

theorem step (h : Stamped t timeout evs) (hs : Stepped t op t' evs') (hg : t.RenewsInTime op) :
    Stamped t' timeout (evs ++ evs') := by
  cases hs
  case set       => exact h.set hg
  case remove hi => exact h.remove hi
  all_goals rw [List.append_nil]
  case idle           => exact h
  case start          => exact h.waiting ..
  case again          => exact h.waiting ..
  case expired hi hx  => exact h.expired hx
  case wait d         => exact h.wait d
  case replace        => exact h.congr rfl (by simp) (by simp) fun _ hm _ => hm
  case delete         => exact h.congr rfl rfl rfl fun _ hm _ => hm

end Stamped

-- All calls of `Set` for a port that is removed are more than `timeout` ago.
def Lapsed (timeout : Int) (evs : List Event) : Prop :=
  ∀ pre ev post, (evs = pre ++ ev :: post) → ∀ port time, (ev = .removed port time) →
    ∀ time', (.set port time' ∈ pre) → time' + timeout < time

theorem Lapsed.step (h : Lapsed timeout evs) (ht : Stamped t timeout evs)
    (hs : Stepped t op t' evs') : Lapsed timeout (evs ++ evs') := by
  cases hs
  case set => exact forall_split_concat h (by simp)
  case remove hi =>
    refine forall_split_concat h ?_
    intro port time he time' hm
    cases he
    exact ht.removal _ (List.mem_of_getElem? hi) rfl time' hm
  all_goals simpa using h

-- In every run in which no call of `Set` falls between the check of a timer and the removal of the
-- port, a port is only removed if all calls of `Set` for it, and so the latest one, are more than the
-- timeout ago.
theorem renewed_lease_kept {now : Int}
    (h : Run (GuardedSteps RenewsInTime step) (.init timeout now) ls t)
    (he : events ls = pre ++ .removed port time :: post) (hs : .set port time' ∈ pre) :
    time' + timeout < time := by
  obtain ⟨_, hl⟩ : Stamped t timeout (events ls) ∧ Lapsed timeout (events ls) := by
    refine h.invariant_labels (P := fun ls t => Stamped t timeout (events ls) ∧
      Lapsed timeout (events ls)) ⟨.init, fun pre ev post he => by simp [events] at he⟩ ?_
    rintro ls t l t' ⟨ht, hl⟩ ⟨hg, hs⟩
    have hs := step_inv hs
    rw [events_concat]
    exact ⟨ht.step hs hg, hl.step ht hs⟩
  exact hl pre _ post he port time rfl time' hs

-- The lease is renewed at the time 103, so that the check of the first timer at the time 106 finds it
-- valid, and removed by the second timer at the time 109.
theorem renewed_lease_kept_once :
    ∃ ls t pre post, Run (GuardedSteps RenewsInTime step) (.init 5 100) ls t ∧
      events ls = pre ++ .removed 80 109 :: post ∧ .set 80 103 ∈ pre ∧ (103 : Int) + 5 < 109 := by
  have ⟨t, ls, h, ht⟩ : ∃ t ls, Run (GuardedSteps RenewsInTime step) (.init 5 100) ls t ∧
      decide (events ls = [.set 80 100, .set 80 103] ++ .removed 80 109 :: []) = true :=
    Run.of_passes_restrict [.set 80 1, .start 0, .wait 3, .set 80 1, .start 1, .wait 3, .check 0,
      .wait 3, .check 1, .remove 1] (by decide)
  have he := of_decide_eq_true ht
  have hm : Event.set 80 103 ∈ [Event.set 80 100, .set 80 103] := by decide
  exact ⟨ls, t, _, _, h, he, hm, renewed_lease_kept h he hm⟩

-- The lease is renewed at the time 106, between the check of the first timer and its removal, which
-- takes the port away at the same time.
theorem renewed_lease_lost :
    ∃ ls t t', Run (Steps step) (.init 5 100) ls t ∧ events ls = [.set 80 100, .set 80 106] ∧
      t.pc.lookup 80 = some 2 ∧ t.step (.remove 0) = .ok (t', [.removed 80 106]) ∧
      t'.pc.im 80 = none := by
  have ⟨t, ls, t', h, he, hl, hs, hn⟩ : ∃ t ls t', exec step (.init 5 100)
      [.set 80 1, .start 0, .wait 6, .check 0, .set 80 2] = .ok (t, ls) ∧
      events ls = [.set 80 100, .set 80 106] ∧ t.pc.lookup 80 = some 2 ∧
      t.step (.remove 0) = .ok (t', [.removed 80 106]) ∧ t'.pc.im 80 = none :=
    ⟨_, _, _, rfl, rfl, rfl, rfl, rfl⟩
  exact ⟨ls, t, t', .of_exec h, he, hl, hs, hn⟩

end Renewals
end Timers
end NatContext
