import GatewayModel.Cnt.Theorems.Registry
import GatewayModel.Cnt.Theorems.Steps

open Go Execution Pool

namespace Cnt

def Pc.request : Pc → Option UInt16
  | .removing cntId | .lookingUp cntId => some cntId
  | .absent | .creating .. | .adding .. | .select | .deleting .. | .unlisting .. | .returned => none

def Instance.pending (inst : Instance) : List UInt16 :=
  inst.decChan.queue ++ inst.pc.request.toList

def Scan.current : Scan → Option UInt16
  | .idle | .next .. => none
  | .isAlive _ _ cntId _ | .isRepl _ _ cntId _ | .isAliveAgain _ _ cntId _ | .send _ _ cntId _ =>
    some cntId

namespace Registry

variable {g g' : Registry}

theorem size_elems_step {s s' : State} (hs : State.Stepped s op tr s') :
    s.elems.size ≤ s'.elems.size := by
  cases hs
  case add ha => exact ha.size ▸ Nat.le_succ _
  case next hn =>
    have ⟨_, _, _, hs⟩ := State.next_inv hn
    exact hs ▸ le_refl _
  case get hg => cases hg <;> simp [State.assigned, State.touch]
  case delete hu hc ho => rw [ho.size, State.clear_size hc, hu.size]
  case deleteAgain hu  => exact hu.size ▸ le_refl _
  case tick hk =>
    cases hk
    case idle    => exact le_refl _
    case expired => simp [State.elems_forget]
  case stop hk =>
    cases hk
    case inl hs => exact hs ▸ le_refl _
    case inr hs => exact hs ▸ le_refl _
  case wait => exact le_refl _

theorem size_elems_run (r : Run (Steps step) g cs g') : g.pool.elems.size ≤ g'.pool.elems.size := by
  induction r
  case refl => exact le_refl _
  case tail g₁ l g₂ _ hs hi =>
    obtain ⟨op, _⟩ := l
    apply le_trans hi
    cases op
    case pool =>
      simp only [Steps, step, bind_eq_ok, Prod.exists] at hs
      obtain ⟨s, _, hs, hg⟩ := hs
      have hp : g₂.pool = s := by split at hg <;> cases hg <;> rfl
      exact hp ▸ size_elems_step (State.step_inv hs)
    case removeContainer =>
      simp only [Steps, step, bind_eq_ok, pure_eq_ok, Prod.mk.injEq] at hs
      obtain ⟨_, _, hg, _⟩ := hs
      exact hg ▸ le_refl _

theorem size_elems_add (hs : g.step (.pool (.add conn addr cntId repl maxFluxes)) = .ok (g', tr)) :
    g.pool.elems.size < g'.pool.elems.size := by
  simp only [step, State.step, bind_eq_ok, pure_eq_ok, Prod.exists, Prod.mk.injEq] at hs
  obtain ⟨_, _, ⟨_, hr, hp, _⟩, hg, _⟩ := hs
  subst hg hp
  exact (State.add_inv hr).size ▸ Nat.lt_succ_self _

end Registry

namespace Sys

variable {p : Provisioner} {s s' : Sys} {inst inst' : Instance} {i : InstId} {cntId : UInt16}

def isRequested (s : Sys) (cntId : UInt16) : Bool :=
  s.instances.any (cntId ∈ ·.pending)

def dropped (s : Sys) : Op → Option UInt16
  | .scan .proceed =>
    match s.scan with
    | .isRepl _ _ cntId connElem =>
      if s.registry.pool.isRepl connElem = .ok false ∧ s.c2p cntId = none
      then some cntId
      else none
    | .isAliveAgain _ _ cntId connElem =>
      if s.registry.pool.isAlive connElem
      then none
      else some cntId
    | _ => none
  | _ => none

theorem Drops.dropped (h : Drops s cntId sc) : s.dropped (.scan .proceed) = some cntId := by
  cases h
  case noInstance hsc hr hp => simp [Sys.dropped, hsc, hr, hp]
  case dead hsc ha          => simp [Sys.dropped, hsc, ha]

-- The loop deletes no entry for which there is a request.
def KeepsRequested (s : Sys) (op : Op) : Prop :=
  (s.dropped op).any s.isRequested = false

instance {s : Sys} {op : Op} : Decidable (s.KeepsRequested op) :=
  inferInstanceAs (Decidable ((s.dropped op).any s.isRequested = false))

def Found (s : Sys) (cntId : UInt16) : Prop :=
  ∃ connElem, s.c2e.get cntId = some connElem

-- There are entries for all requests and for the id that the loop is at, and all entries are
-- elements.
structure Findable (s : Sys) : Prop where
  pending  : ∀ i inst, (s.instances.load i = some inst) → ∀ cntId ∈ inst.pending, s.Found cntId
  current  : ∀ cntId ∈ s.scan.current, s.Found cntId
  entries  : ∀ cntId connElem, (s.c2e.get cntId = some connElem) →
    connElem < s.registry.pool.elems.size
  handlers : ∀ h ∈ s.handlers, h.connElem < s.registry.pool.elems.size

theorem Moves.pending (h : Moves inst op inst') : inst'.pending ⊆ inst.pending := by
  cases h
  case create hpc  => simp [Instance.pending, hpc, Pc.request]
  case created hpc => simp [Instance.pending, hpc, Pc.request]
  case tick hpc =>
    simp only [Instance.pending, hpc]
    split <;> simp [Pc.request]
  case receive hpc hq _ =>
    intro cntId
    have hq := (Channel.receive_eq_some hq).left
    simp [Instance.pending, hpc, hq, Pc.request, or_comm]
  case ignore hpc hq =>
    intro cntId
    have hq := (Channel.receive_eq_some hq).left
    simp only [Instance.pending, hpc, hq, Pc.request]
    simp
    exact .inr

namespace Findable

theorem init {age : Int} : Findable (.init p age) where
  current  := by simp [Sys.init, Scan.current]
  entries  := by simp [Sys.init]
  handlers := by simp [Sys.init]
  pending i inst hl := by
    simp only [Sys.init, Heap.load_alloc] at hl
    split at hl
    case isTrue  => cases hl; simp [Instance.pending, Channel.make, Pc.request]
    case isFalse => simp at hl

theorem congr (h : Findable s) (hi : s'.instances = s.instances) (hc : s'.c2e = s.c2e)
    (hz : s.registry.pool.elems.size ≤ s'.registry.pool.elems.size)
    (hsc : ∀ cntId ∈ s'.scan.current, s.Found cntId)
    (hh : ∀ h ∈ s'.handlers, h.connElem < s'.registry.pool.elems.size) : Findable s' where
  pending i inst hl cntId hm := by simpa [Found, hc] using h.pending i inst (hi ▸ hl) cntId hm
  current cntId hm           := by simpa [Found, hc] using hsc cntId hm
  entries cntId connElem hg  := lt_of_lt_of_le (h.entries cntId connElem (hc ▸ hg)) hz
  handlers                   := hh

theorem frame (h : Findable s) (hi : s'.instances = s.instances) (hc : s'.c2e = s.c2e)
    (hz : s.registry.pool.elems.size ≤ s'.registry.pool.elems.size) (hsc : s'.scan = s.scan)
    (hh : s'.handlers = s.handlers) : Findable s' :=
  h.congr hi hc hz (hsc ▸ h.current) fun x hx => lt_of_lt_of_le (h.handlers x (hh ▸ hx)) hz

theorem setInst (h : Findable s) (hl : s.instances.load i = some inst)
    (hp : ∀ cntId ∈ inst'.pending, s.Found cntId) : Findable (s.setInst i inst') where
  current  := h.current
  entries  := h.entries
  handlers := h.handlers
  pending j inst₁ hl₁ := by
    simp only [Sys.setInst, Heap.load_modify] at hl₁
    split at hl₁
    case isTrue hj => subst hj; rw [hl] at hl₁; cases hl₁; exact hp
    case isFalse   => exact h.pending j inst₁ hl₁

theorem subset (h : Findable s) (hl : s.instances.load i = some inst)
    (hp : inst'.pending ⊆ inst.pending) : Findable (s.setInst i inst') :=
  h.setInst hl fun cntId hm => h.pending i inst hl cntId (hp hm)

theorem alloc (h : Findable s) (hp : inst.pending = []) :
    Findable { s with decision := d, instances := s.instances.alloc inst } where
  current  := h.current
  entries  := h.entries
  handlers := h.handlers
  pending j inst₁ hl₁ := by
    rw [Heap.load_alloc] at hl₁
    split at hl₁
    case isTrue  => cases hl₁; simp [hp]
    case isFalse => exact h.pending j inst₁ hl₁

theorem addConnElem (h : Findable s) (hh : s.handlers[j]? = some hd) :
    Findable { s with
      c2e      := s.c2e.set hd.cntId hd.connElem
      c2l      := m
      handlers := s.handlers.eraseIdx j
      timers   := ts
    } := by
  have hf : ∀ {cntId}, s.Found cntId →
      ∃ connElem, (s.c2e.set hd.cntId hd.connElem).get cntId = some connElem := by
    intro cntId ⟨connElem, hc⟩
    rw [Table.get_set]
    split
    case isTrue  => exact ⟨_, rfl⟩
    case isFalse => exact ⟨connElem, hc⟩
  constructor
  case pending  => exact fun i inst hl cntId hm => hf (h.pending i inst hl cntId hm)
  case current  => exact fun cntId hm => hf (h.current cntId hm)
  case handlers => exact fun x hx => h.handlers x (List.mem_of_mem_eraseIdx hx)
  case entries  =>
    intro cntId connElem hg
    rw [Table.get_set] at hg
    split at hg
    case isTrue  => cases hg; exact h.handlers hd (List.mem_of_getElem? hh)
    case isFalse => exact h.entries cntId connElem hg

theorem scan (h : Findable s) (hs : Scans s op sc) : Findable { s with scan := sc } := by
  refine h.congr rfl rfl (le_refl _) ?_ h.handlers
  have hcur := h.current
  cases hs
  case skip | finish | keep => simp [Scan.current]
  case produce hc => exact fun _ hm => Option.mem_some.mp hm ▸ ⟨_, hc⟩
  case alive hsc | notAlive hsc | repl hsc | select hsc _ _ => exact fun _ hm => hcur _ (hsc ▸ hm)

theorem drop (h : Findable s) (hd : Drops s cntId sc) (hg : s.KeepsRequested (.scan .proceed)) :
    Findable { s with c2e := s.c2e.delete cntId, scan := sc } := by
  have hcur : sc.current = none := by cases hd <;> rfl
  have hn : s.isRequested cntId = false := by simpa [KeepsRequested, hd.dropped] using hg
  constructor
  case handlers => exact h.handlers
  case current  => simp [hcur]
  case entries  =>
    intro cntId' connElem hc
    rw [Table.get_delete] at hc
    split at hc
    case isTrue  => contradiction
    case isFalse => exact h.entries cntId' connElem hc
  case pending =>
    intro i inst hl cntId' hm
    have hne : cntId' ≠ cntId := by
      intro he
      have hr : s.isRequested cntId := Heap.any_eq_true.mpr ⟨i, inst, hl, by simpa [he] using hm⟩
      simp [hn] at hr
    obtain ⟨connElem, hc⟩ := h.pending i inst hl cntId' hm
    exact ⟨connElem, by rw [Table.get_delete, if_neg hne, hc]⟩

theorem step (h : Findable s) (hs : s.step p op = .ok (s', cs)) (hg : s.KeepsRequested op) :
    Findable s' := by
  have hst := step_inv hs
  have hz := Registry.size_elems_run hst.registry
  cases hst
  case traffic | timerFire | timerDelete => exact h.frame rfl rfl hz rfl rfl
  case register hr =>
    refine h.congr rfl rfl hz h.current fun x hx => ?_
    cases List.mem_append.mp hx
    case inl hx => exact lt_of_lt_of_le (h.handlers x hx) hz
    case inr hx =>
      cases List.mem_singleton.mp hx
      exact Registry.size_elems_add hr
  case addConnElem hh _ => exact h.addConnElem hh
  case move hl hm       => exact h.subset hl hm.pending
  case scan hsc         => exact h.scan hsc
  case drop hd          => exact h.drop hd hg
  case scaleUp          => exact h.alloc rfl
  case scaleDown        => exact h.congr rfl rfl hz (by simp [Scan.current]) h.handlers
  case send delta rest cntId i inst _ hsc hl hq =>
    have hq := (Channel.send_eq_some hq).left
    have hcur := h.current cntId (by simp [hsc, Scan.current])
    have hpend := h.pending i inst hl
    have hn : (if delta + 1 = 0 then Scan.idle else .next (delta + 1) rest).current = none := by
      split <;> rfl
    refine setInst (h.congr rfl rfl hz (by simp [hn]) h.handlers) hl fun cntId' hm => ?_
    simp only [Instance.pending, hq, List.mem_append, List.mem_singleton] at hm hpend
    rcases hm with (hm | hm) | hm
    case inl.inl => exact hpend cntId' (.inl hm)
    case inl.inr => exact hm ▸ hcur
    case inr     => exact hpend cntId' (.inr hm)
  case addInstance hl hpc _ =>
    refine subset (h.frame rfl rfl hz rfl rfl) hl ?_
    simp only [Instance.pending, hpc]
    split <;> simp [Pc.request]
  case removeInstance hl hpc _ | getConnElem hl hpc _ | delete hl hpc _ | removeNil hl hpc |
      removeContainer hl hpc _ =>
    refine subset (h.frame rfl rfl hz rfl rfl) hl ?_
    simp [Instance.pending, hpc, Pc.request]
  all_goals exact h.frame rfl rfl hz rfl rfl

end Findable

-- In every run in which the loop deletes no entry for which there is a request, a goroutine that
-- looks up a request finds its element, and does not dereference nil.
theorem request_found (h : Run (GuardedSteps KeepsRequested (step p)) (.init p age) ls s)
    (hl : s.instances.load i = some inst) (hpc : inst.pc = .lookingUp cntId) :
    (∃ connElem, s.c2e.get cntId = some connElem) ∧
    s.step p (.worker i .proceed) ≠ .error (.panic .nilDereference) := by
  have hf : Findable s := h.invariant .init fun hf ⟨hg, hs⟩ => hf.step hs hg
  have ⟨connElem, hc⟩ := hf.pending i inst hl cntId (by simp [Instance.pending, hpc, Pc.request])
  have ⟨e, he⟩ := Heap.exists_load (hf.entries cntId connElem hc)
  refine ⟨⟨connElem, hc⟩, ?_⟩
  simp [Sys.step, worker, hl, hpc, hc, State.getContainer, State.elem, he, orPanic, done, bind,
    Except.bind, pure, Except.pure]

theorem request_found_received :
    ∃ ls s inst, Run (GuardedSteps KeepsRequested (step exampleProvisioner))
        (.init exampleProvisioner 5) ls s ∧
      s.instances.load 1 = some inst ∧ inst.pc = .lookingUp 1 ∧
      (∃ connElem, s.c2e.get 1 = some connElem) ∧
      s.step exampleProvisioner (.worker 1 .proceed) ≠ .error (.panic .nilDereference) := by
  have ⟨s, ls, h, ht⟩ : ∃ s ls, Run (GuardedSteps KeepsRequested (step exampleProvisioner))
        (.init exampleProvisioner 5) ls s ∧
      ((s.instances.load 1).any fun inst => inst.pc = .lookingUp 1) = true :=
    Run.of_passes_restrict (exampleStart ++ [.handleScaling, .receive] ++ exampleSend 1 ++
      exampleHandle.take 2) (by decide +kernel)
  have ⟨inst, hl, hpc⟩ := (Option.any_eq_true ..).mp ht
  have hpc := of_decide_eq_true hpc
  exact ⟨ls, s, inst, h, hl, hpc, request_found h hl hpc⟩

-- A container's lifetime ends while a request for it is queued. The loop that is run for a decision
-- from before that deletes the entry, and the goroutine dereferences nil.
theorem request_not_found :
    ∃ ls s inst, Run (Steps (step exampleProvisioner)) (.init exampleProvisioner 5) ls s ∧
      s.instances.load 1 = some inst ∧ inst.pc = .lookingUp 1 ∧ s.c2e.get 1 = none ∧
      s.step exampleProvisioner (.worker 1 .proceed) = .error (.panic .nilDereference) := by
  have ⟨s, ls, h, ht⟩ : ∃ s ls, Run (Steps (step exampleProvisioner))
        (.init exampleProvisioner 5) ls s ∧
      (decide (s.c2e.get 1 = none) &&
        (s.instances.load 1).any fun inst => inst.pc = .lookingUp 1) = true :=
    Run.of_passes (exampleStart ++ [.handleScaling, .receive, .handleScaling] ++ exampleSend 1 ++
      [.timer 1 .start, .timer 1 .fire, .timer 1 .delete, .receive] ++
      [.scan (.produce 1), .scan .proceed, .scan .proceed] ++ exampleSend 0 ++
      exampleHandle.take 2) (by decide +kernel)
  have ⟨hn, hany⟩ := Bool.and_eq_true_iff.mp ht
  have hn := of_decide_eq_true hn
  have ⟨inst, hl, hpc⟩ := (Option.any_eq_true ..).mp hany
  have hpc := of_decide_eq_true hpc
  refine ⟨ls, s, inst, h, hl, hpc, hn, ?_⟩
  simp [step, worker, hl, hpc, hn, orPanic, bind, Except.bind]

end Sys
end Cnt
