import GatewayModel.Pool.Theorems.Flows

open Go Execution CircularList RoundRobin

-- Concurrent calls of `Delete`, whose two critical sections and the rest are the atomic steps.
namespace Pool.Concurrent

-- The elements whose `Delete` has left the first critical section are in `unlinked`, and those whose
-- `Delete` has left the second one are in `cleared`.
structure Deletes where
  pool     : State
  unlinked : List ElemId
  cleared  : List ElemId

namespace Deletes

inductive Op
  | add (conn : Option ConnId) (addr : Option UInt32) (id : UInt16) (repl : Bool) (maxFluxes : Int8)
  | next
  | unlink (ce : ElemId)
  | clear (i : Nat)
  | handOver (i : Nat)
  deriving Repr, DecidableEq

def init (fluxMaxAge : Int) : Deletes where
  pool     := .init fluxMaxAge
  unlinked := []
  cleared  := []

def step (d : Deletes) : Op → Result (Deletes × Trace)
  | .add conn addr id repl maxFluxes => do
    let s ← d.pool.register conn addr id repl maxFluxes
    return ({ d with pool := s }, [.add d.pool.elems.size])
  | .next => do
    let (s, res) ← d.pool.next
    return ({ d with pool := s }, [.next res])
  | .unlink ce => do
    let (s, unlinked) ← d.pool.unlink ce
    if unlinked
    then return ({ d with pool := s, unlinked := d.unlinked ++ [ce] }, [.delete ce])
    else return ({ d with pool := s }, [.delete ce])
  | .clear i =>
    match d.unlinked[i]? with
    | none    => return (d, [])
    | some ce => do
      let s ← d.pool.clear ce
      return ({ pool := s, unlinked := d.unlinked.eraseIdx i, cleared := d.cleared ++ [ce] }, [])
  | .handOver i =>
    match d.cleared[i]? with
    | none    => return (d, [])
    | some ce => do
      let (s, rCe) ← d.pool.handOver ce
      return ({ d with pool := s, cleared := d.cleared.eraseIdx i }, rCe.toList.map .next)

-- No `Delete` begins on an element while another `Delete` of it is between its critical sections.
def DeletesOnce (d : Deletes) : Op → Prop
  | .unlink ce => ce ∉ d.unlinked
  | _          => True

instance {d : Deletes} : (op : Op) → Decidable (d.DeletesOnce op)
  | .unlink ce => inferInstanceAs (Decidable (ce ∉ d.unlinked))
  | .add .. | .next | .clear _ | .handOver _ => .isTrue trivial

def closed (s : State) (ce : ElemId) : Bool :=
  (s.data ce).any (·.stopChan)

section Closed

variable {s s' : State} {ce q : ElemId}

theorem closed_eq (h : s.elems.load q = some e) : closed s q = e.stopChan := by
  simp [closed, State.data, h]

theorem closed_modifyElem {f : ConnPoolElem → ConnPoolElem} (hf : ∀ e, (f e).stopChan = e.stopChan) :
    closed (s.modifyElem ce f) q = closed s q := by
  simp only [closed, State.data, State.load_modifyElem]
  split <;> cases s.elems.load q <;> simp [hf]

theorem closed_added (h : State.Added s conn cnt s') (hc : closed s' q) : closed s q := by
  simp only [closed, h.data] at hc
  split at hc
  case isTrue  => contradiction
  case isFalse => exact hc

theorem closed_unlinked (h : State.Unlinked s ce s' b) : closed s' q = closed s q := by
  cases b
  case true  => simp [closed, h.data]
  case false =>
    cases h
    exact closed_modifyElem fun _ => rfl

theorem closed_clear (h : s.clear ce = .ok s') (hc : closed s' q) : q = ce ∨ closed s q := by
  have ⟨_, _, _, hs⟩ := State.clear_inv h
  subst hs
  by_cases hq : q = ce
  case pos => exact .inl hq
  case neg => exact .inr (by simpa [closed, State.data, State.load_modifyElem, hq] using hc)

theorem closed_handedOver (h : State.HandedOver s ce s' rCe) : closed s' q = closed s q := by
  cases h <;> exact closed_modifyElem fun _ => rfl

theorem clear_ne_error (h : closed s ce = false) : s.clear ce ≠ .error .closeOfClosedChannel := by
  simp only [State.clear, State.elem]
  cases he : s.elems.load ce
  case none   => simp [bind, Except.bind]
  case some e => simp [bind, Except.bind, pure, Except.pure, (closed_eq he).symm.trans h]

end Closed

-- The elements that are between the critical sections of their `Delete` are those that the ring has
-- left behind with their old links, and only the channels of elements past that are closed.
structure Sound (d : Deletes) (evs : Trace) (r : Rotation ElemId) : Prop where
  history    : History evs r
  represents : State.Represents d.pool r { ce | ce ∈ d.unlinked }
  elems      : ∀ e, (e ∈ added evs) ↔ (e < d.pool.elems.size)
  once       : d.unlinked.Nodup
  closed     : ∀ ce, (closed d.pool ce) → (ce ∉ r.order) ∧ (ce ∉ d.unlinked)

namespace Sound

variable {d d' : Deletes} {evs : Trace} {r : Rotation ElemId} {s s' : State} {ce : ElemId}

theorem init {age : Int} : Sound (.init age) [] .empty where
  history    := .nil
  represents := by simpa [Deletes.init] using State.Represents.init
  elems      := by simp [added, Deletes.init, State.init]
  once       := .nil
  closed     := by simp [Deletes.closed, Deletes.init, State.init, State.data]

theorem add (h : Sound d evs r) (ha : State.Added { d.pool with containers := cs } conn cnt s) :
    Sound { d with pool := s } (evs ++ [.add d.pool.elems.size]) (r.add d.pool.elems.size) := by
  have hr : State.Represents { d.pool with containers := cs } r { ce | ce ∈ d.unlinked } :=
    h.represents.congr rfl rfl rfl rfl (fun _ => rfl) (le_refl _)
  have hn : d.pool.elems.size ∉ added evs := fun hc => lt_irrefl _ ((h.elems _).mp hc)
  constructor
  case history    => exact h.history.add hn
  case represents => exact hr.add ha
  case once       => exact h.once
  case elems =>
    intro e
    rw [ha.size, added_append, List.mem_append, h.elems e, Nat.lt_succ_iff_lt_or_eq]
    simp [added]
  case closed =>
    intro ce hc
    have hc' : Deletes.closed { d.pool with containers := cs } ce := closed_added ha hc
    obtain ⟨h₁, h₂⟩ := h.closed ce hc'
    refine ⟨?_, h₂⟩
    have hne : ce ≠ d.pool.elems.size := by
      intro he
      simp [Deletes.closed, ha.data, he, State.newElem] at hc
    simp [h₁, hne]

theorem next (h : Sound d evs r) (hn : d.pool.next = .ok (s, res)) :
    ∃ r', Sound { d with pool := s } (evs ++ [.next res]) r' := by
  have ⟨e, hc, he, hs⟩ := State.next_inv hn
  subst hs
  have ⟨r', hh, hr⟩ := h.represents.next_history h.history hc he
  have ho : r'.order = r.order := by rw [hh.order_eq, h.history.order_eq, live_concat_next]
  exact ⟨r', hh, hr, by simpa [added] using h.elems, h.once, ho ▸ h.closed⟩

theorem unlink (h : Sound d evs r) (hu : State.Unlinked d.pool ce s true) (hg : ce ∉ d.unlinked) :
    Sound { d with pool := s, unlinked := d.unlinked ++ [ce] } (evs ++ [.delete ce])
      (r.delete ce) := by
  have hm : ce ∈ r.order := by
    by_contra hm
    exact Bool.noConfusion (h.represents.unlink_of_gone hm hg hu).left
  have ho := Rotation.order_delete (a := ce) h.represents.order_nodup
  constructor
  case history    => exact h.history.delete ((h.elems ce).mpr hu.lt_size)
  case elems      => simpa [added, hu.size] using h.elems
  case represents =>
    have hl : { e | e ∈ d.unlinked ++ [ce] } = insert ce { e | e ∈ d.unlinked } := by
      ext
      simp [or_comm]
    exact hl ▸ (h.represents.unlink hm hu).right
  case once =>
    exact List.nodup_append.mpr ⟨h.once, List.nodup_singleton ce, by
      intro a ha b hb hab
      exact hg (List.mem_singleton.mp hb ▸ hab ▸ ha)⟩
  case closed =>
    intro e hc
    obtain ⟨h₁, h₂⟩ := h.closed e (closed_unlinked hu ▸ hc)
    refine ⟨fun hc => h₁ (List.mem_of_mem_erase (ho ▸ hc)), fun hc => ?_⟩
    cases List.mem_append.mp hc
    case inl hc => exact h₂ hc
    case inr hc => exact h₁ (List.mem_singleton.mp hc ▸ hm)

theorem unlinkAgain (h : Sound d evs r) (hu : State.Unlinked d.pool ce s false)
    (hg : ce ∉ d.unlinked) : Sound { d with pool := s } (evs ++ [.delete ce]) r := by
  have hm : ce ∉ r.order := fun hm => Bool.noConfusion (h.represents.unlink hm hu).left
  have hh := h.history.delete ((h.elems ce).mpr hu.lt_size)
  rw [Rotation.delete_of_not_mem hm] at hh
  constructor
  case history    => exact hh
  case represents => exact (h.represents.unlink_of_gone hm hg hu).right
  case elems      => simpa [added, hu.size] using h.elems
  case once       => exact h.once
  case closed     => exact fun e hc => h.closed e (closed_unlinked hu ▸ hc)

theorem clear (h : Sound d evs r) (hi : d.unlinked[i]? = some ce) (hc : d.pool.clear ce = .ok s) :
    Sound { pool := s, unlinked := d.unlinked.eraseIdx i, cleared := cs } evs r := by
  have hm := List.mem_of_getElem? hi
  have he : d.unlinked.eraseIdx i = d.unlinked.erase ce := by
    have ⟨hlt, hi⟩ := List.getElem?_eq_some_iff.mp hi
    rw [← hi, h.once.erase_getElem i hlt]
  have hz := State.clear_size hc
  constructor
  case history    => exact h.history
  case elems      => simpa [hz] using h.elems
  case once       => exact he ▸ h.once.erase ce
  case represents =>
    have hl : { e | e ∈ d.unlinked.eraseIdx i } = { e | e ∈ d.unlinked } \ {ce} := by
      ext e
      rw [he]
      simp [h.once.mem_erase_iff, and_comm]
    exact hl ▸ h.represents.clear hm hc
  case closed =>
    intro e hcl
    simp only [he]
    cases closed_clear hc hcl
    case inl hec =>
      subst hec
      exact ⟨(h.represents.apart e hm).left, h.once.not_mem_erase⟩
    case inr hcl =>
      have ⟨h₁, h₂⟩ := h.closed e hcl
      exact ⟨h₁, fun hc => h₂ (List.mem_of_mem_erase hc)⟩

theorem handOver (h : Sound d evs r) (ho : State.HandedOver d.pool ce s rCe) :
    ∃ r', Sound { d with pool := s, cleared := cs } (evs ++ rCe.toList.map .next) r' := by
  have ⟨r', hh, hr⟩ := h.represents.handOver_history h.history ho
  have hord : r'.order = r.order := by
    rw [hh.order_eq, h.history.order_eq, State.Refines.live_nexts]
  refine ⟨r', hh, hr, fun e => ?_, h.once, fun ce hc => hord ▸ h.closed ce (closed_handedOver ho ▸ hc)⟩
  rw [ho.size, ← h.elems e]
  cases rCe <;> simp [added]

theorem step (h : Sound d evs r) (hs : d.step op = .ok (d', tr)) (hg : d.DeletesOnce op) :
    ∃ r', Sound d' (evs ++ tr) r' := by
  cases op <;> simp only [Deletes.step, bind_eq_ok, pure_eq_ok, Prod.exists, Prod.mk.injEq] at hs
  case add =>
    obtain ⟨s, hr, hd, ht⟩ := hs
    subst hd ht
    exact ⟨_, h.add (State.add_inv hr)⟩
  case next =>
    obtain ⟨s, _, hn, hd, ht⟩ := hs
    subst hd ht
    exact h.next hn
  case unlink =>
    obtain ⟨s, b, hu, hs⟩ := hs
    have hu := State.unlink_inv hu
    cases b
    case true =>
      cases hs
      exact ⟨_, h.unlink hu hg⟩
    case false =>
      cases hs
      exact ⟨_, h.unlinkAgain hu hg⟩
  case clear =>
    split at hs
    case h_1 =>
      cases hs
      exact ⟨r, by simpa using h⟩
    case h_2 hi =>
      simp only [bind_eq_ok, pure_eq_ok, Prod.mk.injEq] at hs
      obtain ⟨s, hc, hd, ht⟩ := hs
      subst hd ht
      exact ⟨r, by simpa using h.clear hi hc⟩
  case handOver =>
    split at hs
    case h_1 =>
      cases hs
      exact ⟨r, by simpa using h⟩
    case h_2 hi =>
      simp only [bind_eq_ok, pure_eq_ok, Prod.exists, Prod.mk.injEq] at hs
      obtain ⟨s, rCe, ho, hd, ht⟩ := hs
      subst hd ht
      exact h.handOver (State.handOver_inv ho)

end Sound

-- In every run in which no `Delete` begins on an element between the critical sections of another
-- one, no channel is closed twice, and the elements that have been added and not been deleted can
-- be reached from the head.
theorem delete_safe (h : Run (GuardedSteps DeletesOnce step) (.init age) ls d) :
    (∀ i, d.step (.clear i) ≠ .error .closeOfClosedChannel) ∧
    (∀ e ∈ live (ls.flatMap (·.2)), ∃ n, e ∈ follow d.pool.nextOf n d.pool.headElem) := by
  have ⟨r, hr⟩ : ∃ r, Sound d (ls.flatMap (·.2)) r := by
    refine h.invariant_labels (P := fun ls d => ∃ r, Sound d (ls.flatMap (·.2)) r) ⟨_, .init⟩ ?_
    intro ls d l d' ⟨r, hr⟩ ⟨hg, hs⟩
    have ⟨r', hr'⟩ := hr.step hs hg
    exact ⟨r', by simpa using hr'⟩
  constructor
  case left =>
    intro i
    simp only [step]
    split
    case h_1 => simp [pure, Except.pure]
    case h_2 ce hi =>
      have hc : closed d.pool ce = false := by
        by_contra hc
        exact (hr.closed ce (by simpa using hc)).right (List.mem_of_getElem? hi)
      intro he
      cases hs : d.pool.clear ce <;> simp_all [bind, Except.bind, pure, Except.pure]
      exact clear_ne_error hc hs
  case right =>
    intro e he
    rw [← hr.history.order_eq] at he
    have hw := hr.represents.wellLinked (List.ne_nil_of_mem he)
    exact ⟨_, hw.visits ▸ he⟩

theorem delete_safe_overlapping :
    ∃ ls d, Run (GuardedSteps DeletesOnce step) (.init 5) ls d ∧ live (ls.flatMap (·.2)) = [2] ∧
      d.unlinked = [1] ∧ (∀ i, d.step (.clear i) ≠ .error .closeOfClosedChannel) ∧
      (∃ n, 2 ∈ follow d.pool.nextOf n d.pool.headElem) := by
  have ⟨d, ls, h, ht⟩ : ∃ d ls, Run (GuardedSteps DeletesOnce step) (.init 5) ls d ∧
      decide (live (ls.flatMap (·.2)) = [2] ∧ d.unlinked = [1]) = true :=
    Run.of_passes_restrict [.add (some 0) (some 0) 0 false 10, .add (some 1) (some 1) 1 false 10,
      .unlink 0, .unlink 1, .add (some 2) (some 2) 2 false 10, .clear 0, .next, .unlink 0]
      (by decide)
  have ⟨hl, hu⟩ := of_decide_eq_true ht
  have ⟨h₁, h₂⟩ := delete_safe h
  exact ⟨ls, d, h, hl, hu, h₁, h₂ 2 (by simp [hl])⟩

-- The only element is unlinked twice. Either both calls go on and the second one closes a closed
-- channel, or an element that is added in between is lost with the head.
theorem delete_unsafe :
    (∃ ls d, Run (Steps step) (.init 5) ls d ∧
      d.step (.clear 0) = .error .closeOfClosedChannel) ∧
    (∃ ls d, Run (Steps step) (.init 5) ls d ∧ live (ls.flatMap (·.2)) = [1] ∧
      ∀ n, 1 ∉ follow d.pool.nextOf n d.pool.headElem) := by
  constructor
  case left =>
    have ⟨d, ls, h, he⟩ : ∃ d ls, exec step (.init 5) [.add (some 0) (some 0) 0 false 10,
        .unlink 0, .unlink 0, .clear 0] = .ok (d, ls) ∧
        d.step (.clear 0) = .error .closeOfClosedChannel := ⟨_, _, rfl, rfl⟩
    exact ⟨ls, d, .of_exec h, he⟩
  case right =>
    have ⟨d, ls, h, ht⟩ : ∃ d ls, Run (Steps step) (.init 5) ls d ∧
        decide (live (ls.flatMap (·.2)) = [1] ∧ d.pool.headElem = none) = true :=
      Run.of_passes [.add (some 0) (some 0) 0 false 10, .unlink 0,
        .add (some 1) (some 1) 1 false 10, .unlink 0] (by decide)
    have ⟨hl, hh⟩ := of_decide_eq_true ht
    refine ⟨ls, d, h, hl, fun n => ?_⟩
    rw [hh]
    cases n <;> simp [follow]

end Deletes
end Pool.Concurrent
