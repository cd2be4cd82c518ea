import GatewayModel.Pool.Theorems.Flows

open Go Execution RoundRobin

namespace Pool.State

variable {s s' s₁ s₂ : State} {r : Rotation ElemId} {evs : Trace} {ce : ElemId} {crc : Crc}

-- What holds of the pointers in the flow table after every run. Containers and elements are created
-- in pairs, so that the container of an element has the same address as the element. The maps hold
-- no nil container, and there is a lock for every flow that is known.
structure Intact (s : State) (live : List ElemId) : Prop where
  size    : s.containers.size = s.elems.size
  own     : ∀ e i, (s.containerOf e = some i) → i = e
  has     : ∀ e ∈ live, s.containerOf e = some e
  entries : ∀ crc p, (s.crcContainer crc = some p) → ∃ i < s.elems.size, p = some i
  locks   : ∀ crc, (s.crc2conn crc ≠ none) → s.crc2lock crc ≠ none
  ports   : ∀ e crc, (crc ∈ s.portsOf e) → s.crc2lock crc ≠ none

namespace Intact

theorem init {age : Int} : Intact (.init age) [] where
  size    := rfl
  own     := by simp [containerOf_apply, State.init]
  has     := by simp
  entries := by simp [State.init, Map.empty]
  locks   := by simp [State.init, Map.empty]
  ports   := by simp [portsOf_apply, State.init]

theorem mono (h : Intact s l) (hz : s'.elems.size = s.elems.size)
    (hz' : s'.containers.size = s.containers.size) (hl : l' ⊆ l)
    (ho : ∀ e i, (s'.containerOf e = some i) → s.containerOf e = some i)
    (hh : ∀ e ∈ l', s'.containerOf e = s.containerOf e)
    (hx : ∀ crc p, (s'.crcContainer crc = some p) → s.crcContainer crc = some p)
    (hc : ∀ crc, (s'.crc2conn crc ≠ none) → s.crc2conn crc ≠ none)
    (hp : s'.portsOf = s.portsOf) (hk : s'.crc2lock = s.crc2lock) : Intact s' l' where
  size             := hz'.trans (h.size.trans hz.symm)
  own e i hi       := h.own e i (ho e i hi)
  has e he         := (hh e he).trans (h.has e (hl he))
  entries crc p he := hz ▸ h.entries crc p (hx crc p he)
  locks crc he     := hk ▸ h.locks crc (hc crc he)
  ports e crc he   := hk ▸ h.ports e crc (hp ▸ he)

theorem congr (h : Intact s l) (he : s'.elems = s.elems) (hc : s'.containers = s.containers)
    (hx : s'.crcContainer = s.crcContainer) (h₁ : s'.crc2conn = s.crc2conn)
    (hk : s'.crc2lock = s.crc2lock) : Intact s' l := by
  have hco : s'.containerOf = s.containerOf := by simp [containerOf_apply, he, funext_iff]
  have hpo : s'.portsOf = s.portsOf := by simp [portsOf_apply, he, funext_iff]
  exact h.mono (by rw [he]) (by rw [hc]) (fun _ => id) (fun _ _ => hco ▸ id) (fun e _ => by rw [hco])
    (fun _ _ => hx ▸ id) (fun _ => h₁ ▸ id) hpo hk

theorem add (h : Intact s l) (hl : ∀ e ∈ l, e < s.elems.size)
    (ha : Added { s with containers := s.containers.alloc c } conn (some s.containers.size) s') :
    Intact s' (l ++ [s.elems.size]) := by
  have hz : s'.elems.size = s.elems.size + 1 := ha.size
  obtain ⟨ht, hx, hc, hk⟩ : s'.containers = s.containers.alloc c ∧ s'.crcContainer = s.crcContainer ∧
      s'.crc2conn = s.crc2conn ∧ s'.crc2lock = s.crc2lock := by cases ha <;> exact ⟨rfl, rfl, rfl, rfl⟩
  constructor
  case size  => rw [ht, hz, Heap.size_alloc, h.size]
  case locks => exact hc ▸ hk ▸ h.locks
  case own   => exact ha.own h.size h.own
  case has   => exact ha.has h.size hl h.has
  case entries =>
    intro crc p hp
    obtain ⟨i, hi, hp⟩ := h.entries crc p (hx ▸ hp)
    exact ⟨i, hz ▸ Nat.lt_succ_of_lt hi, hp⟩
  case ports =>
    intro e crc hp
    rw [hk]
    by_cases he : e = s.elems.size
    case pos => simp [State.portsOf, ha.data, he, newElem] at hp
    case neg =>
      rw [ha.portsOf he] at hp
      exact h.ports e crc hp

theorem get (h : Intact s l) (hg : Got s crc s' reply) : Intact s' l := by
  cases hg
  case fast => exact h.congr rfl rfl rfl rfl rfl
  case slow cpe e i c _ hc he hi hl _ =>
    have hz : (s.assigned crc cpe e i).elems.size = s.elems.size := Heap.size_modify
    have hk : ∀ crc', (s.crc2lock crc' ≠ none ∨ crc' = crc) →
        (s.assigned crc cpe e i).crc2lock crc' ≠ none := by
      intro crc' hk
      simp only [assigned, Map.set_apply]
      split
      case isTrue     => simp
      case isFalse hn => exact hk.resolve_right hn
    constructor
    case size => exact Heap.size_modify.trans (h.size.trans hz.symm)
    case own  => exact containerOf_assigned (s := s) ▸ h.own
    case has  => exact containerOf_assigned (s := s) ▸ h.has
    case entries =>
      intro crc' p hp
      rw [hz]
      simp only [assigned, Map.set_apply] at hp
      split at hp
      case isTrue  => exact ⟨i, h.size ▸ Heap.lt_size_of_load hl, (Option.some.inj hp).symm⟩
      case isFalse => exact h.entries crc' p hp
    case locks =>
      intro crc' hx
      apply hk
      by_cases hcrc : crc' = crc
      case pos => exact .inr hcrc
      case neg =>
        simp only [assigned, Map.set_ne hcrc] at hx
        exact .inl (h.locks crc' hx)
    case ports =>
      intro q crc' hp
      exact hk crc' <| ((mem_portsOf_assigned he).mp hp).imp (h.ports q crc') And.right

theorem withoutContainer {f : ConnPoolElem → ConnPoolElem} (h : Intact s l) (hm : ce ∉ l)
    (hf : ∀ e, (f e).container = none) (hp : ∀ e, (f e).ports = e.ports) :
    Intact (s.modifyElem ce f) l := by
  have hz : (s.modifyElem ce f).elems.size = s.elems.size := Heap.size_modify
  refine h.mono hz rfl (fun _ => id) (fun q i hi => ?_) (fun q hq => ?_) (fun _ _ => id) (fun _ => id)
    (portsOf_modifyElem hp) rfl
  case refine_1 =>
    by_cases hq : q = ce
    case pos =>
      cases he : s.elems.load ce <;> simp [hq, containerOf_apply, load_modifyElem, he, hf] at hi
    case neg => simpa [containerOf_apply, load_modifyElem, hq] using hi
  case refine_2 =>
    have hne : q ≠ ce := fun hc => hm (hc ▸ hq)
    simp [containerOf_apply, load_modifyElem, hne]

theorem handOver (h : Intact s l) (hm : ce ∉ l) (ho : HandedOver s ce s' rCe) : Intact s' l := by
  have hz := ho.size
  cases ho
  case idle e _ _ _ _ _ _ =>
    have h₁ : Intact { s with sent := s.sent ++ e.conn.toList } l := h.congr rfl rfl rfl rfl rfl
    exact h₁.withoutContainer hm (fun _ => rfl) (fun _ => rfl)
  case moved e rCe r i c he hp hcur hrl hi hl =>
    have hco : ((s.remapped ce rCe r i e.ports).merge rCe e.ports).containerOf = s.containerOf :=
      containerOf_modifyElem fun _ => rfl
    -- The flows that are moved have been assigned to the deleted element before.
    have hk : ∀ crc ∈ e.ports, s.crc2lock crc ≠ none :=
      fun crc hx => h.ports ce crc (portsOf_eq he ▸ hx)
    constructor
    case size    => exact Heap.size_modify.trans (h.size.trans hz.symm)
    case own     => exact hco ▸ h.own
    case has     => exact hco ▸ h.has
    case entries => exact hz ▸ h.entries
    case locks =>
      intro crc hx
      by_cases hx' : crc ∈ e.ports
      case pos => exact hk crc hx'
      case neg =>
        simp only [remapped, merge, modifyElem, hx', if_false] at hx
        exact h.locks crc hx
    case ports =>
      intro q crc hp
      exact ((mem_portsOf_merge hrl).mp hp).elim (h.ports q crc) fun hx => hk crc hx.right

theorem delete (h : Intact s l) (nd : l.Nodup) (hu : Unlinked s ce s₁ true)
    (hc : s₁.clear ce = .ok s₂) (ho : HandedOver s₂ ce s' rCe) : Intact s' (l.erase ce) := by
  have hf := hu.sameFlows.trans (clear_sameFlows hc)
  have hk : s₂.crc2lock = s.crc2lock := by
    have ⟨_, _, _, hs⟩ := clear_inv hc
    subst hs
    cases hu <;> rfl
  have h₂ : Intact s₂ (l.erase ce) := by
    apply h.mono ((clear_size hc).trans hu.size) (by rw [hf.containers]) List.erase_subset
    · exact fun _ _ hi => hf.containerOf ▸ hi
    · exact fun e _ => congrFun hf.containerOf e
    · exact fun _ _ => hf.crcContainer ▸ id
    · exact fun _ => hf.crc2conn ▸ id
    · exact hf.portsOf
    · exact hk
  exact h₂.handOver nd.not_mem_erase ho

theorem deleteAgain (h : Intact s l) (hm : ce ∉ l) (hu : Unlinked s ce s' false) : Intact s' l := by
  cases hu
  exact h.withoutContainer hm (fun _ => rfl) (fun _ => rfl)

theorem forget (h : Intact s l) (w : Watcher) : Intact (s.forget w) l := by
  have hc : ∀ crc, (s.crc2conn.delete w.crc crc ≠ none) → s.crc2conn crc ≠ none :=
    fun _ hx => (not_or.mp (mt Map.delete_eq_none.mpr hx)).right
  cases ho : w.origin <;> simp only [State.forget, ho]
  case get =>
    exact h.mono rfl rfl (fun _ => id) (fun _ _ => id) (fun _ _ => rfl)
      (fun _ _ hx => (Map.delete_eq_some.mp hx).right) hc rfl rfl
  case delete =>
    exact h.mono rfl rfl (fun _ => id) (fun _ _ => id) (fun _ _ => rfl) (fun _ _ => id) hc rfl rfl

theorem step (h : Intact s (live evs)) (hr : Refines s evs r) (hs : Stepped s op tr s') :
    Intact s' (live (evs ++ tr)) := by
  cases hs
  case add ha =>
    rw [hr.live_add]
    exact h.add (fun _ => hr.lt_size) ha
  case next hn =>
    have ⟨_, _, _, hs⟩ := next_inv hn
    subst hs
    rw [live_concat_next]
    exact h.congr rfl rfl rfl rfl rfl
  case get hg =>
    rw [Refines.live_nexts]
    exact h.get hg
  case delete hu hc ho =>
    rw [hr.live_delete]
    exact h.delete hr.live_nodup hu hc ho
  case deleteAgain hu =>
    have hm := hr.not_mem_live_of_gone hu
    rw [live_concat_delete hr.live_nodup, List.erase_of_not_mem hm]
    exact h.deleteAgain hm hu
  case tick hk =>
    rw [List.append_nil]
    cases hk
    case idle => exact h
    case expired w _ j _ _ _ _ _ _ =>
      have h' := h.forget w
      refine ⟨?_, h'.own, h'.has, h'.entries, h'.locks, h'.ports⟩
      simpa using h.size
  case stop hk =>
    rw [List.append_nil]
    cases hk
    case inl hs => exact hs ▸ h
    case inr hs =>
      subst hs
      exact h.congr rfl rfl rfl rfl rfl
  case wait =>
    rw [List.append_nil]
    exact h.congr rfl rfl rfl rfl rfl

end Intact

theorem exists_intact (h : PoolRun age ls s) :
    ∃ r, Refines s (trace ls) r ∧ Intact s (live (trace ls)) := by
  refine run_invariant (P := fun ls s => Intact s (live (trace ls))) h id .init ?_
  intro ls s l s' r hr hi hs
  rw [trace_concat]
  exact hi.step hr (step_inv hs)

section Calls

theorem next_of_load (hc : s.currElem = some res) (he : s.elems.load res = some e) :
    s.next = .ok ({ s with currElem := e.next }, res) := by
  simp [next, hc, elem, he, bind, Except.bind, pure, Except.pure]

theorem get_of_slowPath (h : s.SlowPath crc) (hc : s.currElem = some cpe)
    (he : s.elems.load cpe = some e) (hi : e.container = some i)
    (hl : s.containers.load i = some c) :
    s.get crc = if 0 < s.fluxMaxAge
      then .ok (s.assigned crc cpe e i, ⟨e.conn, some s.semaphores, some cpe⟩)
      else .error .nonPositiveTicker := by
  have hf : (s.touch crc).fastPath (s.lookup crc) = .ok false := h
  have hn : (s.touch crc).next = .ok ({ s.touch crc with currElem := e.next }, cpe) :=
    next_of_load hc he
  have he' : ({ s.touch crc with currElem := e.next }.addCrc cpe crc).elem cpe =
      .ok { e with ports := e.ports.insert crc } := by
    have : s.elems.load cpe = some e := he
    simp [elem, addCrc, modifyElem, touch, this]
  have hl' : ({ s.touch crc with currElem := e.next }.addCrc cpe crc).containers.load i = some c := hl
  simp only [get, hf, hn, he', bind, Except.bind, Bool.false_eq_true, if_false, incFluxes,
    updateFluxes, container, assign, hi, Option.bind_some, hl', deref_some, pure, Except.pure, watch,
    Option.elim_some]
  by_cases ha : 0 < s.fluxMaxAge
  case pos =>
    have ha' : ¬ ({ s.touch crc with currElem := e.next }.addCrc cpe crc).fluxMaxAge ≤ 0 :=
      Int.not_le.mpr ha
    simp only [ha', ha, if_true, if_false]
    simp [assigned, addCrc, touch, modifyElem]
  case neg =>
    have ha' : ({ s.touch crc with currElem := e.next }.addCrc cpe crc).fluxMaxAge ≤ 0 :=
      Int.not_lt.mp ha
    simp only [ha', ha, if_true, if_false]

namespace Intact

-- The maps hold no nil container, so the test of the fast path succeeds.
theorem fastPath_ok (h : Intact s l) (crc : Crc) : ∃ b, s.fastPath (s.lookup crc) = .ok b := by
  simp only [fastPath, lookup]
  split
  case h_2     => exact ⟨false, rfl⟩
  case h_1 p _ hp =>
    obtain ⟨i, hi, hp⟩ := h.entries crc p hp
    obtain ⟨c, hc⟩ := Heap.exists_load (h.size.symm ▸ hi)
    refine ⟨decide (c.fluxes ≤ c.maxFluxes), ?_⟩
    simp [container, hp, hc, bind, Except.bind, pure, Except.pure]

theorem cursor (h : Intact s (live evs)) (hr : Refines s evs r) (hl : live evs ≠ []) :
    ∃ cpe e c, cpe ∈ live evs ∧ s.currElem = some cpe ∧ s.elems.load cpe = some e ∧
      e.container = some cpe ∧ s.containers.load cpe = some c := by
  have ⟨cpe, hm, hc⟩ := (hr.represents.wellLinked (hr.history.order_eq ▸ hl)).cursor
  rw [hr.history.order_eq] at hm
  have hlt := hr.lt_size hm
  have ⟨e, he⟩ := Heap.exists_load hlt
  have ⟨c, hcl⟩ := Heap.exists_load (h.size.symm ▸ hlt)
  exact ⟨cpe, e, c, hm, hc, he, (containerOf_eq he).symm.trans (h.has cpe hm), hcl⟩

theorem get_cases (h : Intact s (live evs)) (hr : Refines s evs r)
    (hl : (s.SlowPath crc) → live evs ≠ []) :
    (∃ s' reply, s.get crc = .ok (s', reply) ∧ (reply.conn ≠ none → reply.lock ≠ none)) ∨
    (s.get crc = .error .nonPositiveTicker ∧ s.fluxMaxAge ≤ 0) := by
  have ⟨b, hb⟩ := h.fastPath_ok crc
  cases b
  case true =>
    refine .inl ⟨_, _, get_of_fastPath hb, fun hn => h.locks crc fun hx => hn ?_⟩
    simp [hx]
  case false =>
    have ⟨cpe, e, c, _, hc, he, hi, hcl⟩ := h.cursor hr (hl hb)
    have hg := get_of_slowPath hb hc he hi hcl
    split at hg
    case isTrue      => exact .inl ⟨_, _, hg, by simp⟩
    case isFalse ha => exact .inr ⟨hg, Int.not_lt.mp ha⟩

end Intact
end Calls

section Empty

-- `Next` and a `Get` that takes an element from the pool are called while there is one, and `Delete`
-- does not take a replacement from a ring that it has emptied.
def TakesFromRing (s : State) : Op → Prop
  | .next      => s.headElem ≠ none
  | .get crc   => (s.SlowPath crc) → s.headElem ≠ none
  | .delete ce => (s.nextOf ce = some ce) → s.portsOf ce = []
  | _          => True

instance : (op : Op) → Decidable (TakesFromRing s op)
  | .next      => inferInstanceAs (Decidable (s.headElem ≠ none))
  | .get crc   => inferInstanceAs (Decidable ((s.fastPath (s.lookup crc) = .ok false) →
                    s.headElem ≠ none))
  | .delete ce => inferInstanceAs (Decidable ((s.nextOf ce = some ce) → s.portsOf ce = []))
  | .add .. | .tick _ | .stop _ | .wait _ => .isTrue trivial

def TakesLive (evs : Trace) : Prop :=
  ∀ pre x post, (evs = pre ++ .next x :: post) → x ∉ deleted pre

theorem TakesLive.nil : TakesLive [] := by
  intro pre x post h
  simp at h

theorem TakesLive.concat (h : TakesLive evs) (hx : ∀ x, (ev = .next x) → x ∉ deleted evs) :
    TakesLive (evs ++ [ev]) := by
  intro pre x post he
  refine forall_split_concat (P := fun pre ev => ∀ x, (ev = .next x) → x ∉ deleted pre) ?_ hx
    pre (.next x) post he x rfl
  intro pre ev post he x hev
  exact h pre x post (hev ▸ he)

namespace Refines

theorem live_ne_nil (h : Refines s evs r) (hh : s.headElem ≠ none) : live evs ≠ [] := by
  intro hl
  rw [h.represents.head, h.history.order_eq, hl] at hh
  contradiction

theorem cursor_not_deleted (h : Refines s evs r) (hl : live evs ≠ []) (hc : s.currElem = some p) :
    p ∉ deleted evs :=
  (mem_live_iff.mp (h.cursor_mem hl hc)).right

theorem live_cleared_ne_nil (h : Refines s evs r) (hu : Unlinked s ce s₁ true)
    (hc : s₁.clear ce = .ok s₂) (hp : s₂.portsOf ce ≠ [])
    (hg : (s.nextOf ce = some ce) → s.portsOf ce = []) : live (evs ++ [.delete ce]) ≠ [] := by
  rw [live_concat_delete h.live_nodup]
  intro hl
  have hf := hu.sameFlows.trans (clear_sameFlows hc)
  exact hp (hf.portsOf ▸ hg (h.cursor_cleared hu hc hl).left)

end Refines

theorem TakesLive.step (h : TakesLive evs) (hr : Refines s evs r) (hs : Stepped s op tr s')
    (hg : TakesFromRing s op) : TakesLive (evs ++ tr) := by
  cases hs
  case add  => exact h.concat (by simp)
  case next hn =>
    refine h.concat fun x hx => ?_
    have ⟨_, hc, _, _⟩ := next_inv hn
    cases hx
    exact hr.cursor_not_deleted (hr.live_ne_nil hg) hc
  case get hg' =>
    cases hg'
    case fast           => simpa using h
    case slow hs hc _ _ _ _ =>
      refine h.concat fun x hx => ?_
      cases hx
      exact hr.cursor_not_deleted (hr.live_ne_nil (hg hs)) hc
  case delete ce _ _ hu hc ho =>
    have h' : TakesLive (evs ++ [.delete ce]) := h.concat (by simp)
    have hr' := (hr.cleared hu hc).right
    cases ho
    case idle => exact h'
    case moved rCe _ _ _ he hp hcur _ _ _ =>
      have hl := hr.live_cleared_ne_nil hu hc (portsOf_eq he ▸ hp) hg
      have h'' : TakesLive (evs ++ [.delete ce] ++ [.next rCe]) := by
        refine h'.concat fun x hx => ?_
        cases hx
        exact hr'.cursor_not_deleted hl hcur
      simpa using h''
  case deleteAgain => exact h.concat (by simp)
  all_goals simpa using h

structure FindsElement (s : State) : Prop where
  next   : (TakesFromRing s .next) → ∃ s' res, s.next = .ok (s', res)
  get    : ∀ crc, (TakesFromRing s (.get crc)) → s.get crc ≠ .error .nilDereference
  delete : ∀ ce s₁ s₂, (TakesFromRing s (.delete ce)) → (s.unlink ce = .ok (s₁, true)) →
           (s₁.clear ce = .ok s₂) → (s₂.portsOf ce ≠ []) → ∃ s' res, s₂.next = .ok (s', res)

theorem Intact.findsElement (h : Intact s (live evs)) (hr : Refines s evs r) : FindsElement s where
  next := by
    intro hg
    have ⟨_, _, _, _, hc, he, _, _⟩ := h.cursor hr (hr.live_ne_nil hg)
    exact ⟨_, _, next_of_load hc he⟩
  get := by
    intro crc hg
    cases h.get_cases hr fun hs => hr.live_ne_nil (hg hs)
    case inl hok =>
      have ⟨_, _, hok, _⟩ := hok
      simp [hok]
    case inr herr => simp [herr.left]
  delete := by
    intro ce s₁ s₂ hg hu hc hp
    have hu := unlink_inv hu
    have hr' := (hr.cleared hu hc).right
    have hl := hr.live_cleared_ne_nil hu hc hp hg
    have ⟨c, hm, hcur⟩ := (hr'.represents.wellLinked (hr'.history.order_eq ▸ hl)).cursor
    rw [hr'.history.order_eq] at hm
    have ⟨_, he⟩ := Heap.exists_load (hr'.lt_size hm)
    exact ⟨_, _, next_of_load hcur he⟩

-- In every run in which elements are only taken from a non-empty ring, `Next` and `Get` find all
-- their pointers, and `Next` returns no deleted element.
theorem next_safe (h : Run (GuardedSteps TakesFromRing step) (.init age) ls s) :
    FindsElement s ∧ TakesLive (trace ls) := by
  have ⟨r, hr, hi, ht⟩ : ∃ r, Refines s (trace ls) r ∧ Intact s (live (trace ls)) ∧
      TakesLive (trace ls) := by
    refine run_invariant (P := fun ls s => Intact s (live (trace ls)) ∧ TakesLive (trace ls)) h
      (·.right) ⟨.init, .nil⟩ ?_
    intro ls s l s' r hr ⟨hi, ht⟩ ⟨hg, hs⟩
    have hs := step_inv hs
    rw [trace_concat]
    exact ⟨hi.step hr hs, ht.step hr hs hg⟩
  exact ⟨hi.findsElement hr, ht⟩

theorem next_safe_churn :
    ∃ ls s, Run (GuardedSteps TakesFromRing step) (.init 5) ls s ∧
      live (trace ls) = [2] ∧ deleted (trace ls) = [0, 1] ∧ TakesFromRing s .next ∧
      FindsElement s ∧ TakesLive (trace ls) := by
  have ⟨s, ls, h, ht⟩ : ∃ s ls, Run (GuardedSteps TakesFromRing step) (.init 5) ls s ∧
      decide (live (trace ls) = [2] ∧ deleted (trace ls) = [0, 1] ∧ TakesFromRing s .next) = true :=
    Run.of_passes_restrict [.add (some 0) (some 0) 0 false 10, .delete 0,
      .add (some 1) (some 1) 1 false 10, .add (some 2) (some 2) 2 false 10, .get 7, .delete 1,
      .get 7, .next] (by decide)
  have ⟨hl, hd, hg⟩ := of_decide_eq_true ht
  exact ⟨ls, s, h, hl, hd, hg, next_safe h⟩

-- Before the first `Add` both calls dereference a nil cursor. After the only element has been deleted
-- without flows, `Get` dereferences its nil container. If it is deleted with a flow, the call of
-- `Next` in `Delete` returns the deleted element, and the next one dereferences a nil cursor.
theorem next_unsafe :
    (State.init 5).next = .error .nilDereference ∧
    (State.init 5).get 7 = .error .nilDereference ∧
    (∃ ls s, PoolRun 5 ls s ∧ live (trace ls) = [] ∧ s.get 7 = .error .nilDereference) ∧
    (∃ ls s, PoolRun 5 ls s ∧ s.next = .error .nilDereference ∧ ¬ TakesLive (trace ls)) := by
  refine ⟨rfl, rfl, ?_, ?_⟩
  case refine_1 =>
    have ⟨s, ls, h, hl, he⟩ : ∃ s ls, exec step (.init 5) [.add (some 0) (some 0) 0 false 10,
        .delete 0] = .ok (s, ls) ∧ live (trace ls) = [] ∧ s.get 7 = .error .nilDereference :=
      ⟨_, _, rfl, rfl, rfl⟩
    exact ⟨ls, s, .of_exec h, hl, he⟩
  case refine_2 =>
    have ⟨s, ls, h, he, ht⟩ : ∃ s ls, exec step (.init 5) [.add (some 0) (some 0) 0 false 10,
        .get 7, .delete 0] = .ok (s, ls) ∧ s.next = .error .nilDereference ∧
        trace ls = [.add 0, .next 0, .delete 0] ++ .next 0 :: [] :=
      ⟨_, _, rfl, rfl, rfl⟩
    exact ⟨ls, s, .of_exec h, he, fun hn => hn _ _ _ ht (by decide)⟩

end Empty
end Pool.State
