import Mathlib.Data.FinEnum
import GatewayModel.Lib.Keys
import GatewayModel.Pool.Theorems.Flows

open Go Execution RoundRobin

namespace Pool.State

variable {s s' s₁ s₂ : State} {r : Rotation ElemId} {evs : Trace} {ce : ElemId}

noncomputable def flows (s : State) (i : ContainerId) : Nat :=
  (s.crcContainer.keysOf (some i)).ncard

def ring (s : State) : List ElemId :=
  (List.range s.elems.size).filter s.isAlive

def Assigned (s : State) (crc : Crc) : Prop :=
  ∃ e ∈ s.ring, s.crcContainer crc = some (s.containerOf e)

def chosen (s : State) : Option Container :=
  (s.currElem.bind s.containerOf).bind s.containers.load

-- The steps that keep the number of flows of each container equal to its `Fluxes`:
-- * `Get` does not assign a flow again while it is assigned to an element on the ring, and `Fluxes`
--   does not overflow,
-- * `Delete` does not move flows to another element, and
-- * a watcher of a deleted element does not remove the assignment of a flow to an element on the
--   ring.
def KeepsAccounts (s : State) : Op → Prop
  | .get crc   => (s.SlowPath crc) → (¬ s.Assigned crc) ∧ (∀ c ∈ s.chosen, c.fluxes < 127)
  | .delete ce => (s.isAlive ce) → (s.portsOf ce ≠ []) → s.nextOf ce = some ce
  | .tick i    => ∀ w ∈ s.watchers[i]?,
                  (w.origin = .get) → (s.expired w) → (¬ s.isAlive w.elem) → ¬ s.Assigned w.crc
  | _          => True

instance {crc : Crc} : Decidable (s.Assigned crc) :=
  inferInstanceAs (Decidable (∃ e ∈ s.ring, s.crcContainer crc = some (s.containerOf e)))

instance {crc : Crc} : Decidable (s.SlowPath crc) :=
  inferInstanceAs (Decidable (s.fastPath (s.lookup crc) = .ok false))

instance : (op : Op) → Decidable (KeepsAccounts s op)
  | .get crc   => inferInstanceAs (Decidable ((s.SlowPath crc) →
                    (¬ s.Assigned crc) ∧ (∀ c ∈ s.chosen, c.fluxes < 127)))
  | .delete ce => inferInstanceAs (Decidable ((s.isAlive ce) → (s.portsOf ce ≠ []) →
                    s.nextOf ce = some ce))
  | .tick i    => inferInstanceAs (Decidable (∀ w ∈ s.watchers[i]?, (w.origin = .get) →
                    (s.expired w) → (¬ s.isAlive w.elem) → ¬ s.Assigned w.crc))
  | .add .. | .next | .stop _ | .wait _ => .isTrue trivial

-- Containers and elements are created in pairs, so that the container of an element has the same
-- address as the element. The flows of a live element that are watched are assigned to it, and are
-- watched once.
structure Accounted (s : State) (live : List ElemId) : Prop where
  size     : s.containers.size = s.elems.size
  alloc    : ∀ e ∈ live, e < s.elems.size
  own      : ∀ e i, (s.containerOf e = some i) → i = e
  has      : ∀ e ∈ live, s.containerOf e = some e
  entries  : ∀ crc p, (s.crcContainer crc = some p) → ∃ i < s.elems.size, p = some i
  watchers : ∀ w ∈ s.watchers, w.elem < s.elems.size
  watched  : ∀ w ∈ s.watchers, (w.elem ∈ live) →
             w.origin = .get ∧ s.crcContainer w.crc = some (some w.elem)
  once     : s.watchers.Pairwise fun v w => (v.elem ∈ live) → (w.elem ∈ live) → v.crc ≠ w.crc
  fluxes   : ∀ e ∈ live, ∀ c, (s.containers.load e = some c) → c.fluxes.toInt = s.flows e

namespace Accounted

theorem init {age : Int} : Accounted (.init age) [] where
  size     := rfl
  alloc    := by simp
  own      := by simp [containerOf_apply, State.init]
  has      := by simp
  entries  := by simp [State.init, Map.empty]
  watchers := by simp [State.init]
  watched  := by simp
  once     := .nil
  fluxes   := by simp

theorem mono (h : Accounted s l) (hz : s'.elems.size = s.elems.size)
    (hz' : s'.containers.size = s.containers.size) (hl : l' ⊆ l)
    (ho : ∀ e i, (s'.containerOf e = some i) → s.containerOf e = some i)
    (hh : ∀ e ∈ l', s'.containerOf e = s.containerOf e) (hc : s'.crcContainer = s.crcContainer)
    (hw : s'.watchers.Sublist s.watchers)
    (hf : ∀ e ∈ l', s'.containers.load e = s.containers.load e) : Accounted s' l' where
  size                := hz'.trans (h.size.trans hz.symm)
  alloc e he          := hz ▸ h.alloc e (hl he)
  own e i hi          := h.own e i (ho e i hi)
  has e he            := (hh e he).trans (h.has e (hl he))
  entries             := by rw [hz, hc]; exact h.entries
  watchers w hm       := hz ▸ h.watchers w (hw.subset hm)
  watched w hm he     := hc ▸ h.watched w (hw.subset hm) (hl he)
  once                := (h.once.sublist hw).imp fun hr hv hw => hr (hl hv) (hl hw)
  fluxes e he c hload := by
    rw [flows, hc]
    exact h.fluxes e (hl he) c (hf e he ▸ hload)

theorem add (h : Accounted s l) (hc : c.fluxes = 0)
    (ha : Added { s with containers := s.containers.alloc c } conn (some s.containers.size) s') :
    Accounted s' (l ++ [s.elems.size]) := by
  have hz : s'.elems.size = s.elems.size + 1 := ha.size
  obtain ⟨ht, ht', hw⟩ : s'.containers = s.containers.alloc c ∧ s'.crcContainer = s.crcContainer ∧
      s'.watchers = s.watchers := by cases ha <;> exact ⟨rfl, rfl, rfl⟩
  constructor
  case size => rw [ht, hz, Heap.size_alloc, h.size]
  case alloc =>
    intro e he
    cases List.mem_append.mp he
    case inl he => exact hz ▸ Nat.lt_succ_of_lt (h.alloc e he)
    case inr he => exact hz ▸ List.mem_singleton.mp he ▸ Nat.lt_succ_self _
  case own => exact ha.own h.size h.own
  case has => exact ha.has h.size h.alloc h.has
  case entries =>
    intro crc p hp
    obtain ⟨i, hi, hp⟩ := h.entries crc p (ht' ▸ hp)
    exact ⟨i, hz ▸ Nat.lt_succ_of_lt hi, hp⟩
  case watchers =>
    intro w hm
    exact hz ▸ Nat.lt_succ_of_lt (h.watchers w (hw ▸ hm))
  all_goals
    -- The watchers are those of the elements from before.
    have hold' : ∀ w ∈ s.watchers, (w.elem ∈ l ++ [s.elems.size]) → w.elem ∈ l := by
      intro w hm he
      refine (List.mem_append.mp he).resolve_right fun hc => ?_
      exact ne_of_lt (h.watchers w hm) (List.mem_singleton.mp hc)
  case watched =>
    intro w hm he
    rw [hw] at hm
    exact ht' ▸ h.watched w hm (hold' w hm he)
  case once =>
    rw [hw]
    exact h.once.imp_of_mem fun hv hw hr hv' hw' => hr (hold' _ hv hv') (hold' _ hw hw')
  case fluxes =>
    intro e he c' hl
    rw [flows, ht']
    rw [ht, Heap.load_alloc] at hl
    cases List.mem_append.mp he
    case inl he =>
      rw [if_neg (h.size ▸ ne_of_lt (h.alloc e he))] at hl
      exact h.fluxes e he c' hl
    case inr he =>
      have he := List.mem_singleton.mp he
      rw [if_pos (he.trans h.size.symm)] at hl
      cases hl
      -- No flow is assigned to a container that did not exist.
      have : s.crcContainer.keysOf (some e) = ∅ := by
        apply Map.keysOf_eq_empty
        intro crc hx
        obtain ⟨i, hi, hp⟩ := h.entries crc _ hx
        exact ne_of_lt hi (Option.some.inj hp ▸ he)
      simp [hc, this]

theorem assigned (h : Accounted s (live evs)) (hr : Refines s evs r) (he : e ∈ live evs)
    (hx : s.crcContainer crc = some (some e)) : s.Assigned crc := by
  refine ⟨e, ?_, hx.trans (congrArg some (h.has e he).symm)⟩
  rw [ring, List.mem_filter, List.mem_range]
  exact ⟨h.alloc e he, hr.isAlive_iff.mpr he⟩

theorem get_slow (h : Accounted s (live evs)) (hr : Refines s evs r) (hn : ¬ s.Assigned crc)
    (hc : s.currElem = some cpe) (he : s.elems.load cpe = some e) (hi : e.container = some i)
    (hl : s.containers.load i = some c) (hg : ∀ c ∈ s.chosen, c.fluxes < 127) :
    Accounted (s.assigned crc cpe e i) (live evs) := by
  have hcont := (containerOf_eq he).trans hi
  have hic : i = cpe := h.own cpe i hcont
  subst hic
  have hlt : c.fluxes < 127 := hg c (by simp [chosen, hc, hcont, hl])
  have hz : (s.assigned crc i e i).elems.size = s.elems.size := Heap.size_modify
  -- The flow is not watched for a live element yet.
  have hne : ∀ w ∈ s.watchers, (w.elem ∈ live evs) → w.crc ≠ crc := by
    intro w hm hw hcrc
    exact hn (h.assigned hr hw (hcrc ▸ (h.watched w hm hw).right))
  constructor
  case size  => exact Heap.size_modify.trans (h.size.trans hz.symm)
  case alloc => exact hz ▸ h.alloc
  case own   => exact containerOf_assigned (s := s) ▸ h.own
  case has   => exact containerOf_assigned (s := s) ▸ h.has
  case entries =>
    intro crc' p hp
    rw [hz]
    simp only [State.assigned, Map.set_apply] at hp
    split at hp
    case isTrue  => exact ⟨i, Heap.lt_size_of_load he, (Option.some.inj hp).symm⟩
    case isFalse => exact h.entries crc' p hp
  case watchers =>
    intro w hm
    rw [hz]
    cases List.mem_append.mp hm
    case inl hm => exact h.watchers w hm
    case inr hm => exact List.mem_singleton.mp hm ▸ Heap.lt_size_of_load he
  case watched =>
    intro w hm hw
    cases List.mem_append.mp hm
    case inl hm =>
      obtain ⟨h₁, h₂⟩ := h.watched w hm hw
      exact ⟨h₁, (Map.set_ne (hne w hm hw)).trans h₂⟩
    case inr hm =>
      cases List.mem_singleton.mp hm
      exact ⟨rfl, Map.set_self⟩
  case once =>
    refine List.pairwise_append.mpr ⟨h.once, List.pairwise_singleton .., fun v hv w hw hv' _ => ?_⟩
    cases List.mem_singleton.mp hw
    exact hne v hv hv'
  case fluxes =>
    intro e' he' c' hl'
    have hx : s.crcContainer crc ≠ some (some e') := fun hx => hn (h.assigned hr he' hx)
    simp only [State.assigned, flows] at hl' ⊢
    by_cases hei : e' = i
    case pos =>
      subst hei
      rw [Heap.load_modify_self, hl] at hl'
      cases hl'
      rw [Map.ncard_keysOf_set hx, Container.toInt_incFluxes hlt, h.fluxes e' he' c hl]
      rfl
    case neg =>
      rw [Heap.load_modify_ne hei] at hl'
      rw [Map.keysOf_set_ne hx fun hc => hei (Option.some.inj hc).symm]
      exact h.fluxes e' he' c' hl'

theorem delete (h : Accounted s (live evs)) (hr : Refines s evs r) (hu : Unlinked s ce s₁ true)
    (hc : s₁.clear ce = .ok s₂) (ho : HandedOver s₂ ce s' rCe)
    (hg : (s.portsOf ce ≠ []) → s.nextOf ce = some ce) : Accounted s' ((live evs).erase ce) := by
  have hf := hu.sameFlows.trans (clear_sameFlows hc)
  have hz := (clear_size hc).trans hu.size
  have h₂ : Accounted s₂ ((live evs).erase ce) := by
    apply h.mono hz (by rw [hf.containers]) List.erase_subset
    · exact fun _ _ hi => hf.containerOf ▸ hi
    · exact fun e _ => congrFun hf.containerOf e
    · exact hf.crcContainer
    · exact hf.watchers ▸ .refl _
    · exact fun _ _ => by rw [hf.containers]
  have hz' := ho.size
  cases ho
  case idle e _ _ he _ _ _ =>
    have hc : ∀ q, (q ≠ ce) → State.containerOf ({ s₂ with sent := s₂.sent ++ e.conn.toList }.modifyElem
        ce ({ · with container := none })) q = s₂.containerOf q := by
      intro e hne
      simp [containerOf_apply, load_modifyElem, hne]
    apply h₂.mono hz' rfl (fun _ => id) _ _ rfl (.refl _) (fun _ _ => rfl)
    case _ =>
      intro e i hi
      by_cases hne : e = ce
      case pos => simp [hne, containerOf_apply, load_modifyElem, he] at hi
      case neg => exact hc e hne ▸ hi
    case _ => exact fun e hm => hc e fun hne => hr.live_nodup.not_mem_erase (hne ▸ hm)
  case moved e rCe r i c he hp hcur hrl hi hl =>
    -- There is no other element, so the ring is empty now.
    have hports : s.portsOf ce = e.ports := by rw [← hf.portsOf, portsOf_eq he]
    have hn := hg (hports ▸ hp)
    have hm := hr.mem_live_of_unlinked hu hc
    have hnil : (live evs).erase ce = [] := by
      rw [← hr.history.order_eq] at *
      rw [(hr.represents.ring.next_eq_self_iff hm).mp hn]
      simp
    rw [hnil] at h₂ ⊢
    constructor
    case size    => exact Heap.size_modify.trans (h₂.size.trans hz'.symm)
    case own     =>
      have : ((s₂.remapped ce rCe r i e.ports).merge rCe e.ports).containerOf = s₂.containerOf :=
        containerOf_modifyElem fun _ => rfl
      exact this ▸ h₂.own
    case entries => exact hz' ▸ h₂.entries
    case watchers =>
      intro w hm
      rw [hz']
      cases List.mem_append.mp hm
      case inl hm => exact h₂.watchers w hm
      case inr hm =>
        have ⟨_, _, hw⟩ := List.mem_map.mp hm
        exact hw ▸ Heap.lt_size_of_load hrl
    case once => exact List.pairwise_of_forall fun v _ hv => absurd hv (List.not_mem_nil)
    all_goals simp

theorem deleteAgain (h : Accounted s (live evs)) (hr : Refines s evs r)
    (hu : Unlinked s ce s' false) : Accounted s' (live evs) := by
  have hm := hr.not_mem_live_of_gone hu
  have hz := hu.size
  cases hu
  case gone e he _ _ =>
    apply h.mono hz rfl (fun _ => id) _ _ rfl (.refl _) (fun _ _ => rfl)
    case _ =>
      intro q i hi
      by_cases hq : q = ce
      case pos => simp [hq, containerOf_apply, load_modifyElem, he] at hi
      case neg => simpa [containerOf_apply, load_modifyElem, hq] using hi
    case _ =>
      intro q hq
      have hne : q ≠ ce := fun hc => hm (hc ▸ hq)
      simp [containerOf_apply, load_modifyElem, hne]

theorem crcContainer_forget (w : Watcher) :
    (s.forget w).crcContainer =
      if w.origin = .get then s.crcContainer.delete w.crc else s.crcContainer := by
  cases ho : w.origin <;> simp [forget, ho]

theorem expired (h : Accounted s (live evs)) (hr : Refines s evs r)
    (hw : s.watchers[i]? = some w) (he : s.elems.load w.elem = some e) (hj : e.container = some j)
    (hg : (w.origin = .get) → (w.elem ∉ live evs) → ¬ s.Assigned w.crc) :
    Accounted { s.forget w with
      containers := s.containers.modify j .decFluxes, watchers := s.watchers.eraseIdx i }
      (live evs) := by
  have hwm := List.mem_of_getElem? hw
  cases h.own w.elem j ((containerOf_eq he).trans hj)
  have hsub : (s.watchers.eraseIdx i).Sublist s.watchers := List.eraseIdx_sublist ..
  have hx := crcContainer_forget (s := s) w
  -- The assignment that is removed is not the one of another flow that is watched.
  have hne : ∀ v ∈ s.watchers.eraseIdx i, (v.elem ∈ live evs) → (w.origin = .get) → v.crc ≠ w.crc := by
    intro v hv hl ho hcrc
    by_cases hwl : w.elem ∈ live evs
    case pos =>
      have := rel_of_mem_eraseIdx (fun hr h₁ h₂ => (hr h₂ h₁).symm) h.once hw hv
      exact this hwl hl hcrc.symm
    case neg =>
      have ha := h.assigned hr hl (h.watched v (hsub.subset hv) hl).right
      exact hg ho hwl (hcrc ▸ ha)
  constructor
  case size     => simpa using h.size
  case alloc    => simpa using h.alloc
  case own      => simpa [containerOf_apply] using h.own
  case has      => simpa [containerOf_apply] using h.has
  case watchers => simpa using fun v hv => h.watchers v (hsub.subset hv)
  case once     => exact h.once.sublist hsub
  case entries =>
    intro crc p hp
    simp only [hx, elems_forget] at hp ⊢
    split at hp
    case isFalse => exact h.entries crc p hp
    case isTrue =>
      rw [Map.delete_apply] at hp
      split at hp
      case isTrue  => contradiction
      case isFalse => exact h.entries crc p hp
  case watched =>
    intro v hv hl
    obtain ⟨h₁, h₂⟩ := h.watched v (hsub.subset hv) hl
    simp only [hx]
    split
    case isFalse   => exact ⟨h₁, h₂⟩
    case isTrue ho => exact ⟨h₁, (Map.delete_ne (hne v hv hl ho)).trans h₂⟩
  case fluxes =>
    intro e' he' c' hl'
    simp only [hx, flows] at hl' ⊢
    by_cases hew : e' = w.elem
    case pos =>
      subst hew
      obtain ⟨ho, hass⟩ := h.watched w hwm he'
      rw [Heap.load_modify_self, Option.map_eq_some_iff] at hl'
      obtain ⟨c, hl, hc⟩ := hl'
      have hcnt := Map.ncard_keysOf_delete hass
      have hfl := h.fluxes _ he' c hl
      rw [flows] at hfl
      rw [if_pos ho, ← hc, Container.toInt_decFluxes (by omega)]
      omega
    case neg =>
      rw [Heap.load_modify_ne hew] at hl'
      split
      case isFalse => exact h.fluxes e' he' c' hl'
      case isTrue ho =>
        rw [Map.keysOf_delete_ne]
        case _ => exact h.fluxes e' he' c' hl'
        case _ =>
          intro hass
          by_cases hwl : w.elem ∈ live evs
          case pos =>
            have := (h.watched w hwm hwl).right.symm.trans hass
            exact hew (Option.some.inj (Option.some.inj this)).symm
          case neg => exact hg ho hwl (h.assigned hr he' hass)

theorem step (h : Accounted s (live evs)) (hr : Refines s evs r) (hs : Stepped s op tr s')
    (hg : KeepsAccounts s op) : Accounted s' (live (evs ++ tr)) := by
  cases hs
  case add hc ha =>
    rw [hr.live_add]
    exact h.add (by rw [hc]) ha
  case next hn =>
    have ⟨_, _, _, hs⟩ := next_inv hn
    subst hs
    rw [live_concat_next]
    exact h.mono rfl rfl (fun _ => id) (fun _ _ => id) (fun _ _ => rfl) rfl (.refl _) fun _ _ => rfl
  case get hg' =>
    rw [Refines.live_nexts]
    cases hg'
    case fast =>
      exact h.mono rfl rfl (fun _ => id) (fun _ _ => id) (fun _ _ => rfl) rfl (.refl _) fun _ _ => rfl
    case slow hsp hc he hi hl _ =>
      have ⟨h₁, h₂⟩ := hg hsp
      exact h.get_slow hr h₁ hc he hi hl h₂
  case delete hu hc ho =>
    have hm := hr.mem_live_of_unlinked hu hc
    rw [hr.live_delete]
    exact h.delete hr hu hc ho (hg (hr.isAlive_iff.mpr hm))
  case deleteAgain hu =>
    rw [live_concat_delete hr.live_nodup, List.erase_of_not_mem (hr.not_mem_live_of_gone hu)]
    exact h.deleteAgain hr hu
  case tick hk =>
    rw [List.append_nil]
    cases hk
    case idle => exact h
    case expired w _ _ _ hw hx he hj _ =>
      apply h.expired hr hw he hj
      exact fun ho hm => hg w hw ho hx (mt hr.isAlive_iff.mp hm)
  case stop hk =>
    rw [List.append_nil]
    cases hk
    case inl hs => exact hs ▸ h
    case inr hs =>
      subst hs
      exact h.mono rfl rfl (fun _ => id) (fun _ _ => id) (fun _ _ => rfl) rfl
        (List.eraseIdx_sublist ..) fun _ _ => rfl
  case wait =>
    rw [List.append_nil]
    exact h.mono rfl rfl (fun _ => id) (fun _ _ => id) (fun _ _ => rfl) rfl (.refl _) fun _ _ => rfl

end Accounted

-- In every run whose steps keep the accounts, `Fluxes` is exact for all elements on the ring.
theorem fluxes_exact (h : Run (GuardedSteps KeepsAccounts step) (.init age) ls s)
    (he : e ∈ live (trace ls)) :
    ∃ i c, s.containerOf e = some i ∧ s.containers.load i = some c ∧
      c.fluxes.toInt = s.flows i := by
  have ⟨_, _, ha⟩ : ∃ r, Refines s (trace ls) r ∧ Accounted s (live (trace ls)) := by
    refine run_invariant (P := fun ls s => Accounted s (live (trace ls))) h (·.right) .init ?_
    intro ls s l s' r hr ha ⟨hg, hs⟩
    rw [trace_concat]
    exact ha.step hr (step_inv hs) hg
  have ⟨c, hc⟩ := Heap.exists_load (ha.size.symm ▸ ha.alloc e he)
  exact ⟨e, c, ha.has e he, hc, ha.fluxes e he c hc⟩

theorem fluxes_exact_churn :
    ∃ ls s, Run (GuardedSteps KeepsAccounts step) (.init 5) ls s ∧
      s.crcContainer 7 = some (some 0) ∧ s.crcContainer 8 = some (some 1) ∧
      (∃ i c, s.containerOf 0 = some i ∧ s.containers.load i = some c ∧
        c.fluxes.toInt = s.flows i) := by
  have ⟨s, ls, h, ht⟩ : ∃ s ls, Run (GuardedSteps KeepsAccounts step) (.init 5) ls s ∧
      decide (live (trace ls) = [0, 1] ∧ s.crcContainer 7 = some (some 0) ∧
        s.crcContainer 8 = some (some 1)) = true :=
    Run.of_passes_restrict [.add (some 0) (some 0) 0 false 10, .add (some 1) (some 1) 1 false 10,
      .get 7, .get 8, .wait 10, .get 8, .tick 0, .get 7, .add (some 2) (some 2) 2 false 10,
      .delete 2] (by decide)
  have ⟨hl, h₇, h₈⟩ := of_decide_eq_true ht
  exact ⟨ls, s, h, h₇, h₈, fluxes_exact h (by simp [hl])⟩

-- `Delete` counts the flow 7 for the replacement but leaves its assignment as it is.
theorem fluxes_inexact :
    ∃ ls s, PoolRun 5 ls s ∧ live (trace ls) = [1] ∧
      ∃ c, s.containerOf 1 = some 1 ∧ s.containers.load 1 = some c ∧ c.fluxes = 1 ∧ s.flows 1 = 0 := by
  have ⟨s, ls, h, hl, hc, hf, hx⟩ : ∃ s ls, exec step (.init 5) [.add (some 0) (some 0) 0 false 10,
      .add (some 1) (some 1) 1 false 10, .get 7, .delete 0] = .ok (s, ls) ∧ live (trace ls) = [1] ∧
      s.containerOf 1 = some 1 ∧ (s.containers.load 1 = some ⟨some 1, 1, 1, false, 10⟩) ∧
      s.crcContainer = Map.set .empty 7 (some 0) :=
    ⟨_, _, rfl, by decide, by decide, by decide, rfl⟩
  refine ⟨ls, s, .of_exec h, hl, _, hc, hf, rfl, ?_⟩
  have : s.crcContainer.keysOf (some 1) = ∅ := by
    apply Map.keysOf_eq_empty
    intro crc
    rw [hx, Map.set_apply]
    split <;> simp [Map.empty]
  rw [flows, this, Set.ncard_empty]

end Pool.State
