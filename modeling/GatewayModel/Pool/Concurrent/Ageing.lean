import GatewayModel.Pool.Concurrent.Threads

open Go Execution

namespace Pool.Concurrent

def Pc.touches : Pc → Bool
  | .touch _ => true
  | _        => false

def DeletePc.remaps : DeletePc → Bool
  | .remap _ => true
  | _        => false

structure SameTimes (s s' : State) : Prop where
  clock           : s'.clock = s.clock
  fluxMaxAge      : s'.fluxMaxAge = s.fluxMaxAge
  crcFluxUsageMap : s'.crcFluxUsageMap = s.crcFluxUsageMap

section Blocks

variable {s s' : State} {crc : Crc} {ce : ElemId}

theorem block_touch (h : block s crc pc = .ok (s', pc')) (ht : pc.touches) : s' = s.touch crc := by
  cases block_inv h <;> simp [Pc.touches] at ht
  rfl

theorem block_sameTimes (h : block s crc pc = .ok (s', pc')) (ht : pc.touches = false) :
    SameTimes s s' := by
  cases block_inv h
  case touch => simp [Pc.touches] at ht
  all_goals exact ⟨rfl, rfl, rfl⟩

theorem block_watchers (h : block s crc pc = .ok (s', pc')) :
    ∀ w ∈ s'.watchers, w ∈ s.watchers ∨ w.timeout = s.fluxMaxAge := by
  intro w hw
  cases pc
  case watch cpe sem =>
    simp only [block, bind_eq_ok, State.elem_eq_ok, pure_eq_ok, Prod.mk.injEq] at h
    obtain ⟨_, _, _, hs, hs', _⟩ := h
    obtain ⟨_, hs⟩ := State.watch_inv hs
    subst hs' hs
    cases List.mem_append.mp hw
    case inl hw => exact .inl hw
    case inr hw =>
      cases List.mem_singleton.mp hw
      exact .inr rfl
  all_goals
    cases block_inv h
    all_goals exact .inl hw

variable {pc pc' : DeletePc}

theorem DeleteBlocked.sameTimes (h : DeleteBlocked s ce pc s' pc') : SameTimes s s' := by
  cases h
  case unlink hu => cases hu <;> exact ⟨rfl, rfl, rfl⟩
  case gone hu =>
    cases hu
    exact ⟨rfl, rfl, rfl⟩
  case clear hc =>
    have ⟨_, _, _, hs⟩ := State.clear_inv hc
    subst hs
    exact ⟨rfl, rfl, rfl⟩
  case next hn =>
    have ⟨_, _, _, hs⟩ := State.next_inv hn
    subst hs
    exact ⟨rfl, rfl, rfl⟩
  case remap hm =>
    have ⟨_, hs⟩ := State.remap_eq hm
    subst hs
    exact ⟨rfl, rfl, rfl⟩
  all_goals exact ⟨rfl, rfl, rfl⟩

theorem DeleteBlocked.watchers (h : DeleteBlocked s ce pc s' pc') :
    ∀ w ∈ s'.watchers, w ∈ s.watchers ∨ (pc.remaps ∧ w.timeout = State.deleteTimeout) := by
  intro w hw
  cases h
  case unlink hu => exact .inl (hu.sameFlows.watchers ▸ hw)
  case gone hu =>
    cases hu
    exact .inl hw
  case clear hc => exact .inl ((State.clear_sameFlows hc).watchers ▸ hw)
  case next hn =>
    have ⟨_, _, _, hs⟩ := State.next_inv hn
    subst hs
    exact .inl hw
  case remap hm =>
    have ⟨_, hs⟩ := State.remap_eq hm
    subst hs
    cases List.mem_append.mp hw
    case inl hw => exact .inl hw
    case inr hw =>
      have ⟨_, _, hw⟩ := List.mem_map.mp hw
      subst hw
      exact .inr ⟨rfl, rfl⟩
  all_goals exact .inl hw

end Blocks

namespace Threads

variable {t t' : Threads} {s : State} {evs : List Event} {age : Int}

-- No call of `Get` records a time of use while a watcher is about to remove its flow, and `Delete`
-- only starts watchers that wait at least as long as those of `Get`.
def RespectsAge (t : Threads) : Op → Prop
  | .runGet i    => ∀ c ∈ t.gets[i]?, c.pc.touches → ∀ x ∈ t.expiring, x.watcher.crc ≠ c.crc
  | .runDelete i => ∀ d ∈ t.deletes[i]?, d.pc.remaps → t.pool.fluxMaxAge ≤ State.deleteTimeout
  | _            => True

instance : (op : Op) → Decidable (t.RespectsAge op)
  | .runGet i    => inferInstanceAs (Decidable (∀ c ∈ t.gets[i]?, c.pc.touches →
                      ∀ x ∈ t.expiring, x.watcher.crc ≠ c.crc))
  | .runDelete i => inferInstanceAs (Decidable (∀ d ∈ t.deletes[i]?, d.pc.remaps →
                      t.pool.fluxMaxAge ≤ State.deleteTimeout))
  | .add .. | .get _ | .delete _ | .check _ | .expire _ | .stop _ | .wait _ => .isTrue trivial

theorem recorded_eq :
    recorded s c = if c.pc.touches then [.touched c.crc s.clock] else [] := by
  cases hpc : c.pc <;> simp [recorded, Pc.touches, hpc]

-- The times that were recorded are not later than those in the map, and a flow that a watcher is about
-- to remove has not been used for `age`.
structure Aged (t : Threads) (age : Int) (evs : List Event) : Prop where
  maxAge   : t.pool.fluxMaxAge = age
  past     : ∀ crc ts, (t.pool.crcFluxUsageMap crc = some ts) → ts ≤ t.pool.clock
  stamps   : ∀ crc time, (.touched crc time ∈ evs) →
             ∃ ts, t.pool.crcFluxUsageMap crc = some ts ∧ time ≤ ts
  timeouts : ∀ w ∈ t.pool.watchers, age ≤ w.timeout
  expiring : ∀ x ∈ t.expiring, ∀ time, (.touched x.watcher.crc time ∈ evs) →
             time < t.pool.clock - age

namespace Aged

theorem init : Aged (.init age) age [] where
  maxAge   := rfl
  past     := by simp [Threads.init, State.init, Map.empty]
  stamps   := by simp
  timeouts := by simp [Threads.init, State.init]
  expiring := by simp [Threads.init]

theorem congr (h : Aged t age evs) (ht : SameTimes t.pool t'.pool)
    (hw : ∀ w ∈ t'.pool.watchers, w ∈ t.pool.watchers ∨ age ≤ w.timeout)
    (hx : ∀ x ∈ t'.expiring, ∃ x' ∈ t.expiring, x'.watcher = x.watcher) : Aged t' age evs where
  maxAge   := ht.fluxMaxAge.trans h.maxAge
  past     := by rw [ht.clock, ht.crcFluxUsageMap]; exact h.past
  stamps   := by rw [ht.crcFluxUsageMap]; exact h.stamps
  timeouts := fun w hm => (hw w hm).elim (h.timeouts w) id
  expiring := by
    intro x hm
    have ⟨x', hm', hxw⟩ := hx x hm
    rw [ht.clock, ← hxw]
    exact h.expiring x' hm'

theorem touch {gets : List Call} (h : Aged t age evs)
    (hg : ∀ x ∈ t.expiring, x.watcher.crc ≠ crc) :
    Aged { t with pool := t.pool.touch crc, gets := gets } age
      (evs ++ [.touched crc t.pool.clock]) where
  maxAge   := h.maxAge
  timeouts := h.timeouts
  past     := by
    intro crc' ts hts
    simp only [State.touch, Map.set_apply] at hts
    split at hts
    case isTrue  => exact le_of_eq (Option.some.inj hts).symm
    case isFalse => exact h.past crc' ts hts
  stamps   := by
    intro crc' time hm
    simp only [State.touch, Map.set_apply]
    cases List.mem_append.mp hm
    case inr hm =>
      cases List.mem_singleton.mp hm
      exact ⟨t.pool.clock, by simp, le_refl _⟩
    case inl hm =>
      obtain ⟨ts, hts, hle⟩ := h.stamps crc' time hm
      split
      case isTrue  => exact ⟨t.pool.clock, rfl, le_trans hle (h.past crc' ts hts)⟩
      case isFalse => exact ⟨ts, hts, hle⟩
  expiring := by
    intro x hx time hm
    cases List.mem_append.mp hm
    case inl hm => exact h.expiring x hx time hm
    case inr hm =>
      cases List.mem_singleton.mp hm
      exact absurd rfl (hg x hx)

theorem check (h : Aged t age evs) (hi : t.pool.watchers[i]? = some w) (hx : t.pool.expired w) :
    Aged { t with
      pool     := { t.pool with watchers := t.pool.watchers.eraseIdx i }
      expiring := t.expiring ++ [⟨w, false⟩] } age evs where
  maxAge   := h.maxAge
  past     := h.past
  stamps   := h.stamps
  timeouts := fun w hw => h.timeouts w (List.mem_of_mem_eraseIdx hw)
  expiring := by
    intro x hm time ht
    cases List.mem_append.mp hm
    case inl hm => exact h.expiring x hm time ht
    case inr hm =>
      cases List.mem_singleton.mp hm
      have ⟨ts, hts, hle⟩ := h.stamps w.crc time ht
      have hto := h.timeouts w (List.mem_of_getElem? hi)
      simp only [State.expired, hts, decide_eq_true_eq] at hx
      have hlt : ts < t.pool.clock - age := by omega
      exact lt_of_le_of_lt hle hlt

theorem wait (h : Aged t age evs) (d : Nat) :
    Aged { t with pool := { t.pool with clock := t.pool.clock + d } } age evs where
  maxAge   := h.maxAge
  stamps   := h.stamps
  timeouts := h.timeouts
  past     := by
    intro crc ts hts
    have hle := h.past crc ts hts
    have hd : t.pool.clock ≤ t.pool.clock + d := by omega
    exact le_trans hle hd
  expiring := by
    intro x hx time ht
    have hlt := h.expiring x hx time ht
    have hle : t.pool.clock - age ≤ t.pool.clock + d - age := by omega
    exact lt_of_lt_of_le hlt hle

theorem add {cs : Heap Container} (h : Aged t age evs)
    (ha : State.Added { t.pool with containers := cs } conn cnt s) :
    Aged { t with pool := s } age evs := by
  have ht : SameTimes t.pool s := by cases ha <;> exact ⟨rfl, rfl, rfl⟩
  have hw : s.watchers = t.pool.watchers := by cases ha <;> rfl
  exact h.congr ht (fun _ hm => .inl (hw ▸ hm)) fun x hx => ⟨x, hx, rfl⟩

theorem remove (h : Aged t age evs) (w : Watcher) (i : Nat) :
    Aged { t with pool := t.pool.forget w, expiring := t.expiring.eraseIdx i } age
      (evs ++ [.removed w.crc t.pool.clock]) := by
  have ht : SameTimes t.pool (t.pool.forget w) := by
    cases ho : w.origin <;> simp only [State.forget, ho] <;> exact ⟨rfl, rfl, rfl⟩
  have hw : (t.pool.forget w).watchers = t.pool.watchers := by
    cases ho : w.origin <;> simp only [State.forget, ho]
  have hr : Aged { t with pool := t.pool.forget w, expiring := t.expiring.eraseIdx i } age evs :=
    h.congr ht (fun _ hm => .inl (hw ▸ hm)) fun x hx => ⟨x, List.mem_of_mem_eraseIdx hx, rfl⟩
  constructor
  case maxAge   => exact hr.maxAge
  case past     => exact hr.past
  case timeouts => exact hr.timeouts
  case stamps   => exact fun crc time hm => hr.stamps crc time (by simpa using hm)
  case expiring => exact fun x hx time hm => hr.expiring x hx time (by simpa using hm)

theorem step (h : Aged t age evs) (hs : Stepped t op t' evs') (hg : t.RespectsAge op) :
    Aged t' age (evs ++ evs') := by
  cases hs
  case runGet c s pc hi hb =>
    cases hto : c.pc.touches
    case true =>
      rw [recorded_eq, if_pos hto, block_touch hb hto]
      exact h.touch (hg c hi hto)
    case false =>
      rw [recorded_eq, if_neg (by simp [hto]), List.append_nil]
      refine h.congr (block_sameTimes hb hto) (fun w hw => ?_) fun x hx => ⟨x, hx, rfl⟩
      exact (block_watchers hb w hw).imp_right fun hw => le_of_eq (hw.trans h.maxAge).symm
  all_goals try rw [List.append_nil]
  case idle  => exact h
  case check hi hx => exact h.check hi hx
  case wait d => exact h.wait d
  case get | delete =>
    exact h.congr ⟨rfl, rfl, rfl⟩ (fun _ hw => .inl hw) fun x hx => ⟨x, hx, rfl⟩
  case add ha => exact h.add ha
  case runDelete d s pc hi hb =>
    refine h.congr hb.sameTimes (fun w hw => ?_) fun x hx => ⟨x, hx, rfl⟩
    refine (hb.watchers w hw).imp_right fun hw => ?_
    rw [hw.right, ← h.maxAge]
    exact hg d hi hw.left
  case count x _ hi =>
    refine h.congr ⟨rfl, rfl, rfl⟩ (fun _ hw => .inl hw) fun x' hx' => ?_
    cases List.mem_or_eq_of_mem_set hx'
    case inl hx' => exact ⟨x', hx', rfl⟩
    case inr hx' => exact ⟨x, List.mem_of_getElem? hi, by rw [hx']⟩
  case stop =>
    exact h.congr ⟨rfl, rfl, rfl⟩ (fun _ hw => .inl (List.mem_of_mem_eraseIdx hw))
      fun x hx => ⟨x, hx, rfl⟩
  case remove => exact h.remove _ _

end Aged

def Timely (age : Int) (evs : List Event) : Prop :=
  ∀ pre ev post, (evs = pre ++ ev :: post) → ∀ crc time, (ev = .removed crc time) →
    ∀ time', (.touched crc time' ∈ pre) → time' < time - age

theorem Timely.step (h : Timely age evs) (ha : Aged t age evs) (hs : Stepped t op t' evs') :
    Timely age (evs ++ evs') := by
  cases hs
  case runGet c _ _ _ _ =>
    rw [recorded_eq]
    split
    case isTrue  => exact forall_split_concat h (by simp)
    case isFalse => simpa using h
  case remove hi =>
    refine forall_split_concat h ?_
    intro crc time he time' hm
    cases he
    exact ha.expiring _ (List.mem_of_getElem? hi) time' hm
  all_goals simpa using h

-- In every run in which no `Get` records a time of use between the check of a watcher and the removal
-- of its flow, and `Delete` only starts watchers whose timeout is not less than `fluxMaxAge`, a flow
-- is only removed if it has not been used for `fluxMaxAge`.
theorem active_flow_kept (h : Run (GuardedSteps RespectsAge step) (.init age) ls t)
    (he : events ls = pre ++ .removed crc time :: post) (ht : .touched crc time' ∈ pre) :
    time' < time - age := by
  obtain ⟨_, hd⟩ : Aged t age (events ls) ∧ Timely age (events ls) := by
    refine h.invariant_labels (P := fun ls t => Aged t age (events ls) ∧ Timely age (events ls))
      ⟨.init, fun pre ev post he => by simp [events] at he⟩ ?_
    rintro ls t l t' ⟨ha, hd⟩ ⟨hg, hs⟩
    have hs := step_inv hs
    rw [events_concat]
    exact ⟨ha.step hs hg, hd.step ha hs⟩
  exact hd pre _ post he crc time rfl time' ht

theorem active_flow_kept_expiry :
    ∃ ls t pre post, Run (GuardedSteps RespectsAge step) (.init 5) ls t ∧
      events ls = pre ++ .removed 7 9 :: post ∧ .touched 7 3 ∈ pre ∧ (3 : Int) < 9 - 5 := by
  have ⟨t, ls, h, ht⟩ : ∃ t ls, Run (GuardedSteps RespectsAge step) (.init 5) ls t ∧
      decide (events ls = [.touched 7 0, .touched 7 3] ++ .removed 7 9 :: []) = true :=
    Run.of_passes_restrict ([.add true (some 0) 0 false 10, .get 7] ++ exampleGet 0 ++
      [.wait 3, .get 7, .runGet 1, .runGet 1, .runGet 1, .wait 3, .check 0, .wait 3, .check 0,
        .expire 0, .expire 0]) (by decide)
  have he := of_decide_eq_true ht
  have hm : Event.touched 7 3 ∈ [Event.touched 7 0, .touched 7 3] := by decide
  exact ⟨ls, t, _, _, h, he, hm, active_flow_kept h he hm⟩

-- A flow is used between the check of its watcher and its removal. And after the flow has been handed
-- over by `Delete`, it is removed before `fluxMaxAge` has passed.
theorem active_flow_removed :
    (∃ ls t t', Run (Steps step) (.init 5) ls t ∧ events ls = [.touched 7 0, .touched 7 6] ∧
      (t.pool.crc2conn 7).isSome ∧ t.step (.expire 0) = .ok (t', [.removed 7 6]) ∧
      t'.pool.crc2conn 7 = none) ∧
    (∃ ls t t', Run (Steps step) (.init 1000000) ls t ∧ events ls = [.touched 7 0] ∧
      (t.pool.crc2conn 7).isSome ∧ t.step (.expire 0) = .ok (t', [.removed 7 500001]) ∧
      t'.pool.crc2conn 7 = none) := by
  constructor
  case left =>
    have ⟨t, ls, t', h, he, hc, ht, hc'⟩ : ∃ t ls t', exec step (.init 5)
        ([.add true (some 0) 0 false 10, .get 7] ++ exampleGet 0 ++ [.wait 6, .check 0, .get 7,
          .runGet 1, .runGet 1, .runGet 1, .expire 0]) = .ok (t, ls) ∧
        events ls = [.touched 7 0, .touched 7 6] ∧ (t.pool.crc2conn 7).isSome ∧
        t.step (.expire 0) = .ok (t', [.removed 7 6]) ∧ t'.pool.crc2conn 7 = none :=
      ⟨_, _, _, rfl, rfl, rfl, rfl, rfl⟩
    exact ⟨ls, t, t', .of_exec h, he, hc, ht, hc'⟩
  case right =>
    have ⟨t, ls, t', h, he, hc, ht, hc'⟩ : ∃ t ls t', exec step (.init 1000000)
        ([.add true (some 0) 0 false 10, .add true (some 1) 1 false 10, .get 7] ++ exampleGet 0 ++
          .delete 0 :: List.replicate 7 (.runDelete 0) ++ [.wait 500001, .check 1, .expire 0]) =
          .ok (t, ls) ∧
        events ls = [.touched 7 0] ∧ (t.pool.crc2conn 7).isSome ∧
        t.step (.expire 0) = .ok (t', [.removed 7 500001]) ∧ t'.pool.crc2conn 7 = none :=
      ⟨_, _, _, rfl, rfl, rfl, rfl, rfl⟩
    exact ⟨ls, t, t', .of_exec h, he, hc, ht, hc'⟩

end Threads
end Pool.Concurrent
