import GatewayModel.Pool.Theorems.Routing
import GatewayModel.Pool.Theorems.Safety

open Go Execution RoundRobin

namespace Pool.State

variable {s s' s₁ s₂ : State} {r : Rotation ElemId} {evs : Trace} {ce : ElemId} {crc : Crc}

-- The maps have the same keys, and their values for a key are the connection and the container that
-- one element was added with. The container of the element at address `e` is the one at address `e`.
structure Coherent (s : State) (cs : List (Option ConnId)) : Prop where
  keys  : ∀ crc, (s.crc2conn crc = none) ↔ (s.crcContainer crc = none)
  pairs : ∀ crc conn cnt, (s.crc2conn crc = some conn) → (s.crcContainer crc = some cnt) →
          ∃ e, cs[e]? = some conn ∧ cnt = some e

-- The steps that keep the maps coherent:
-- * `Delete` only moves flows that are assigned to the container of the replacement already, and
-- * a watcher that was started by `Delete` only expires if its flow is not known any more.
def KeepsCoherent (s : State) : Op → Prop
  | .delete ce => (s.isAlive ce) → ∀ port ∈ s.portsOf ce,
                  s.crcContainer port = some ((s.replacement ce).bind s.containerOf)
  | .tick i    => ∀ w ∈ s.watchers[i]?,
                  (w.origin ≠ .get) → (s.expired w) → s.crc2conn w.crc = none
  | _          => True

instance : (op : Op) → Decidable (KeepsCoherent s op)
  | .delete ce =>
    -- The flows of the element are listed, so not all of them have to be tried.
    let _ : Decidable (∀ port ∈ s.portsOf ce,
      s.crcContainer port = some ((s.replacement ce).bind s.containerOf)) := List.decidableBAll _ _
    inferInstanceAs (Decidable ((s.isAlive ce) → ∀ port ∈ s.portsOf ce,
      s.crcContainer port = some ((s.replacement ce).bind s.containerOf)))
  | .tick i    => inferInstanceAs (Decidable (∀ w ∈ s.watchers[i]?,
                    (w.origin ≠ .get) → (s.expired w) → s.crc2conn w.crc = none))
  | .add .. | .next | .get _ | .stop _ | .wait _ => .isTrue trivial

structure Wired (s : State) (cs : List (Option ConnId)) : Prop where
  size : cs.length = s.elems.size
  conn : ∀ e i, (s.containerOf e = some i) → cs[e]? = some (s.connOf e)

namespace Wired

theorem init {age : Int} : Wired (.init age) [] where
  size := rfl
  conn := by simp [containerOf_apply, State.init]

theorem mono (h : Wired s cs) (hz : s'.elems.size = s.elems.size)
    (ho : ∀ e i, (s'.containerOf e = some i) →
      s.containerOf e = some i ∧ s'.connOf e = s.connOf e) : Wired s' cs where
  size        := h.size.trans hz.symm
  conn e i hi := by
    have ⟨hi, hc⟩ := ho e i hi
    exact hc ▸ h.conn e i hi

theorem congr (h : Wired s cs) (he : s'.elems = s.elems) : Wired s' cs :=
  h.mono (by rw [he]) (by simp [containerOf_apply, connOf_apply, he])

theorem add (h : Wired s cs) (ha : Added s c cnt s') : Wired s' (cs ++ [c]) where
  size := by simp [h.size, ha.size]
  conn := by
    intro e i hi
    by_cases he : e = s.elems.size
    case pos =>
      rw [he, ← h.size, List.getElem?_concat_length]
      simp [connOf, ha.data, h.size, newElem]
    case neg =>
      rw [ha.containerOf he] at hi
      have hc := h.conn e i hi
      have hlt := (List.getElem?_eq_some_iff.mp hc).fst
      rw [ha.connOf he, List.getElem?_append_left hlt, hc]

theorem modifyElem (h : Wired s cs) {f : ConnPoolElem → ConnPoolElem}
    (hf : ∀ e, (f e).container = none ∨ ((f e).container = e.container ∧ (f e).conn = e.conn)) :
    Wired (s.modifyElem ce f) cs := by
  apply h.mono (size_modifyElem ..)
  intro q i hi
  simp only [containerOf_apply, connOf_apply, load_modifyElem] at hi ⊢
  split at hi
  case isFalse hq => simp [hq, hi]
  case isTrue hq =>
    cases hl : s.elems.load q
    case none   => simp [hl] at hi
    case some e => cases hf e <;> simp_all

theorem get (h : Wired s cs) (hg : Got s crc s' reply) : Wired s' cs := by
  cases hg
  case fast => exact h.congr rfl
  case slow =>
    apply h.mono Heap.size_modify
    intro e i hi
    rw [containerOf_assigned] at hi
    exact ⟨hi, by rw [connOf_assigned]⟩

theorem delete (h : Wired s cs) (hu : Unlinked s ce s₁ true) (hc : s₁.clear ce = .ok s₂)
    (ho : HandedOver s₂ ce s' rCe) : Wired s' cs := by
  have hf := hu.sameFlows.trans (clear_sameFlows hc)
  have h₂ : Wired s₂ cs :=
    h.mono ((clear_size hc).trans hu.size) (by simp [hf.containerOf, hf.connOf])
  cases ho
  case idle e _ _ _ _ _ _ =>
    have h₃ : Wired { s₂ with sent := s₂.sent ++ e.conn.toList } cs := h₂.congr rfl
    exact h₃.modifyElem fun _ => .inl rfl
  case moved e rCe r i _ _ _ _ _ _ _ =>
    have h₃ : Wired (s₂.remapped ce rCe r i e.ports) cs := h₂.congr rfl
    have h₄ : Wired ((s₂.remapped ce rCe r i e.ports).merge rCe e.ports) cs :=
      h₃.modifyElem fun _ => .inr ⟨rfl, rfl⟩
    exact h₄.congr rfl

theorem step (h : Wired s cs) (hs : Stepped s op tr s') : Wired s' (cs ++ conns [(op, tr)]) := by
  cases hs
  case add cnt _ ha =>
    have h' : Wired { s with containers := s.containers.alloc cnt } cs := h.congr rfl
    exact h'.add ha
  all_goals simp only [conns, List.filterMap_cons, List.filterMap_nil, List.append_nil]
  case next hn =>
    obtain ⟨_, _, _, hs⟩ := next_inv hn
    subst hs
    exact h.congr rfl
  case get hg          => exact h.get hg
  case delete hu hc ho => exact h.delete hu hc ho
  case wait            => exact h.congr rfl
  case deleteAgain hu  =>
    cases hu
    exact h.modifyElem fun _ => .inl rfl
  case tick hk =>
    cases hk
    case idle    => exact h
    case expired => exact h.congr (elems_forget _)
  case stop hk =>
    cases hk
    case inl hs => exact hs ▸ h
    case inr hs => exact hs ▸ h.congr rfl

end Wired

namespace Coherent

theorem init {age : Int} : Coherent (.init age) [] where
  keys  := by simp [State.init, Map.empty]
  pairs := by simp [State.init, Map.empty]

theorem congr (h : Coherent s cs) (hc : s'.crc2conn = s.crc2conn)
    (hx : s'.crcContainer = s.crcContainer) : Coherent s' cs where
  keys  := hc ▸ hx ▸ h.keys
  pairs := hc ▸ hx ▸ h.pairs

theorem mono (h : Coherent s cs) : Coherent s (cs ++ cs') where
  keys  := h.keys
  pairs := by
    intro crc conn cnt hc hx
    have ⟨e, he, hcnt⟩ := h.pairs crc conn cnt hc hx
    refine ⟨e, ?_, hcnt⟩
    rw [List.getElem?_append_left (List.getElem?_eq_some_iff.mp he).fst, he]

theorem assign (h : Coherent s cs) (ports : List Crc) (he : cs[e]? = some conn)
    (hc : ∀ crc, s'.crc2conn crc = if crc ∈ ports then some conn else s.crc2conn crc)
    (hx : ∀ crc, s'.crcContainer crc = if crc ∈ ports then some (some e) else s.crcContainer crc) :
    Coherent s' cs where
  keys crc := by
    rw [hc, hx]
    split
    case isTrue  => simp
    case isFalse => exact h.keys crc
  pairs crc conn' cnt hc' hx' := by
    rw [hc] at hc'
    rw [hx] at hx'
    split at hc'
    case isFalse hp => exact h.pairs crc conn' cnt hc' (by rwa [if_neg hp] at hx')
    case isTrue hp =>
      rw [if_pos hp] at hx'
      cases hc'
      cases hx'
      exact ⟨e, he, rfl⟩

theorem get (h : Coherent s cs) (hw : Wired s cs) (hi : Intact s l) (hg : Got s crc s' reply) :
    Coherent s' cs := by
  cases hg
  case fast => exact h.congr rfl rfl
  case slow cpe e i c _ _ he hci _ _ =>
    have hco := (containerOf_eq he).trans hci
    have hconn : cs[cpe]? = some e.conn := by rw [hw.conn cpe i hco, connOf_eq he]
    cases hi.own cpe i hco
    apply h.assign [crc] hconn
    · simp [assigned, Map.set_apply]
    · simp [assigned, Map.set_apply]

theorem delete (h : Coherent s cs) (hw : Wired s cs) (hi : Intact s l)
    (hu : Unlinked s ce s₁ true) (hc : s₁.clear ce = .ok s₂) (ho : HandedOver s₂ ce s' rCe)
    (hg : ∀ port ∈ s.portsOf ce, s.crcContainer port = some ((s.replacement ce).bind s.containerOf)) :
    Coherent s' cs := by
  have hf := hu.sameFlows.trans (clear_sameFlows hc)
  have h₂ : Coherent s₂ cs := h.congr hf.crc2conn hf.crcContainer
  cases ho
  case idle => exact h₂.congr rfl rfl
  case moved e rCe r i c he hp hcur hrl hci _ =>
    have hports : s.portsOf ce = e.ports := by rw [← hf.portsOf, portsOf_eq he]
    have hrep : s.replacement ce = some rCe := by
      have ⟨_, _, _, hs⟩ := clear_inv hc
      rw [← hu.currElem, ← hcur, hs]
      rfl
    have hco : s.containerOf rCe = some i := by
      rw [← hf.containerOf, containerOf_eq hrl, hci]
    have hconn : cs[rCe]? = some r.conn := by
      rw [hw.conn rCe i hco, ← hf.connOf, connOf_eq hrl]
    cases hi.own rCe i hco
    apply h₂.assign e.ports hconn
    case hc => intro crc; rfl
    case hx =>
      intro crc
      change s₂.crcContainer crc = _
      rw [hf.crcContainer]
      split
      case isFalse   => rfl
      case isTrue hm =>
        rw [hg crc (hports ▸ hm), hrep]
        exact congrArg some hco

theorem forget (h : Coherent s cs) (w : Watcher) (hg : (w.origin ≠ .get) → s.crc2conn w.crc = none) :
    Coherent (s.forget w) cs := by
  cases ho : w.origin <;> simp only [State.forget, ho]
  case get =>
    constructor
    case keys =>
      intro crc
      rw [Map.delete_eq_none, Map.delete_eq_none, h.keys crc]
    case pairs =>
      intro crc conn cnt hc hx
      exact h.pairs crc conn cnt (Map.delete_eq_some.mp hc).right (Map.delete_eq_some.mp hx).right
  case delete =>
    have hd : s.crc2conn.delete w.crc = s.crc2conn := by
      funext crc
      rw [Map.delete_apply]
      split
      case isTrue hcrc => rw [hcrc, hg (by simp [ho])]
      case isFalse     => rfl
    exact h.congr hd rfl

theorem step (h : Coherent s cs) (hw : Wired s cs) (hi : Intact s (live evs)) (hr : Refines s evs r)
    (hs : Stepped s op tr s') (hg : KeepsCoherent s op) :
    Coherent s' (cs ++ conns [(op, tr)]) := by
  cases hs
  case add ha =>
    have h' : Coherent s' cs := h.congr (by cases ha <;> rfl) (by cases ha <;> rfl)
    exact h'.mono
  all_goals simp only [conns, List.filterMap_cons, List.filterMap_nil, List.append_nil]
  case next hn =>
    obtain ⟨_, _, _, hs⟩ := next_inv hn
    subst hs
    exact h.congr rfl rfl
  case get hg' => exact h.get hw hi hg'
  case wait    => exact h.congr rfl rfl
  case delete hu hc ho =>
    have hm := hr.mem_live_of_unlinked hu hc
    exact h.delete hw hi hu hc ho (hg (hr.isAlive_iff.mpr hm))
  case deleteAgain hu =>
    cases hu
    exact h.congr rfl rfl
  case tick hk =>
    cases hk
    case idle => exact h
    case expired w _ _ _ hwi hx _ _ _ =>
      exact (h.forget w fun ho => hg w hwi ho hx).congr rfl rfl
  case stop hk =>
    cases hk
    case inl hs => exact hs ▸ h
    case inr hs => exact hs ▸ h.congr rfl rfl

end Coherent

-- In every run whose steps keep the maps coherent, they have the same keys, and the connection and the
-- container of a flow are those of one element.
theorem coherent_maps (h : Run (GuardedSteps KeepsCoherent step) (.init age) ls s) :
    Coherent s (conns ls) := by
  have ⟨_, _, _, _, hc⟩ : ∃ r, Refines s (trace ls) r ∧ Intact s (live (trace ls)) ∧
      Wired s (conns ls) ∧ Coherent s (conns ls) := by
    refine run_invariant (P := fun ls s => Intact s (live (trace ls)) ∧ Wired s (conns ls) ∧
      Coherent s (conns ls)) h (·.right) ⟨.init, .init, .init⟩ ?_
    intro ls s l s' r hr ⟨hi, hw, hc⟩ ⟨hg, hs⟩
    have hs := step_inv hs
    rw [trace_concat, conns_concat]
    exact ⟨hi.step hr hs, hw.step hs, hc.step hw hi hr hs hg⟩
  exact hc

theorem coherent_maps_churn :
    ∃ ls s, Run (GuardedSteps KeepsCoherent step) (.init 5) ls s ∧
      conns ls = [some 0, some 1] ∧ live (trace ls) = [1] ∧
      s.crc2conn 7 = some (some 1) ∧ s.crcContainer 7 = some (some 1) ∧ s.crc2conn 8 = none ∧
      Coherent s (conns ls) := by
  have ⟨s, ls, h, ht⟩ : ∃ s ls, Run (GuardedSteps KeepsCoherent step) (.init 5) ls s ∧
      decide (conns ls = [some 0, some 1] ∧ live (trace ls) = [1] ∧ s.crc2conn 7 = some (some 1) ∧
        s.crcContainer 7 = some (some 1) ∧ s.crc2conn 8 = none) = true :=
    Run.of_passes_restrict [.add (some 0) (some 0) 0 false 0, .add (some 1) (some 1) 1 false 10,
      .get 7, .get 7, .delete 0, .get 8, .wait 10, .get 7, .tick 3] (by decide)
  have ⟨hcs, hl, h₁, h₂, h₃⟩ := of_decide_eq_true ht
  exact ⟨ls, s, h, hcs, hl, h₁, h₂, h₃, coherent_maps h⟩

-- `Delete` moves the flow 7 to the connection of element 1 and leaves it assigned to the container of
-- element 0. The watcher that it starts removes the flow from one of the maps only.
theorem incoherent_maps :
    (∃ ls s, PoolRun 5 ls s ∧ conns ls = [some 0, some 1] ∧ s.crc2conn 7 = some (some 1) ∧
      s.crcContainer 7 = some (some 0) ∧ ¬ Coherent s (conns ls)) ∧
    (∃ ls s, PoolRun 5 ls s ∧ conns ls = [some 0, some 1] ∧ s.crc2conn 7 = none ∧
      s.crcContainer 7 = some (some 0) ∧ ¬ Coherent s (conns ls)) := by
  constructor
  case left =>
    have ⟨s, ls, h, ht⟩ : ∃ s ls, PoolRun 5 ls s ∧ decide (conns ls = [some 0, some 1] ∧
        s.crc2conn 7 = some (some 1) ∧ s.crcContainer 7 = some (some 0)) = true :=
      Run.of_passes [.add (some 0) (some 0) 0 false 10, .add (some 1) (some 1) 1 false 10, .get 7,
        .delete 0] (by decide)
    have ⟨hcs, h₁, h₂⟩ := of_decide_eq_true ht
    refine ⟨ls, s, h, hcs, h₁, h₂, fun hc => ?_⟩
    have ⟨e, he, hcnt⟩ := hc.pairs 7 _ _ h₁ h₂
    simp [hcs, ← Option.some.inj hcnt] at he
  case right =>
    have ⟨s, ls, h, ht⟩ : ∃ s ls, PoolRun 5 ls s ∧ decide (conns ls = [some 0, some 1] ∧
        s.crc2conn 7 = none ∧ s.crcContainer 7 = some (some 0)) = true :=
      Run.of_passes [.add (some 0) (some 0) 0 false 10, .add (some 1) (some 1) 1 false 10, .get 7,
        .delete 0, .wait 600000, .tick 1] (by decide)
    have ⟨hcs, h₁, h₂⟩ := of_decide_eq_true ht
    refine ⟨ls, s, h, hcs, h₁, h₂, fun hc => ?_⟩
    simp [(hc.keys 7).mp h₁] at h₂

end Pool.State
