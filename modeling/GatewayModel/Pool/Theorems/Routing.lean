import GatewayModel.Pool.Theorems.Flows

open Go Execution RoundRobin

namespace Pool

-- The connections that are passed to `Add`, in the order of the calls. The connection at index `i`
-- is the one of the element at address `i`.
def conns (ls : List (Op × Trace)) : List (Option ConnId) :=
  ls.filterMap fun
    | (.add conn .., _) => some conn
    | _                 => none

theorem conns_concat : conns (ls ++ [l]) = conns ls ++ conns [l] :=
  List.filterMap_append

namespace State

variable {s s' s₁ s₂ : State} {r : Rotation ElemId} {evs : Trace} {ce : ElemId}

-- Every entry of `crc2conn` is the connection of a live element that knows the flow. If there is
-- no live element, a flow cannot be assigned to the element at the cursor.
structure Routed (s : State) (live : List ElemId) : Prop where
  entries  : ∀ crc conn, (s.crc2conn crc = some conn) →
             ∃ e ∈ live, s.connOf e = conn ∧ crc ∈ s.portsOf e
  dangling : (live = []) → ∀ e, (s.currElem = some e) → s.containerOf e = none

-- `Delete` does not remove the only element of the ring while it has flows.
def KeepsFlows (s : State) : Op → Prop
  | .delete ce => (s.nextOf ce = some ce) → s.portsOf ce = []
  | _          => True

instance : (op : Op) → Decidable (KeepsFlows s op)
  | .delete ce => inferInstanceAs (Decidable ((s.nextOf ce = some ce) → s.portsOf ce = []))
  | .add .. | .next | .get _ | .tick _ | .stop _ | .wait _ => .isTrue trivial

namespace Routed

theorem init {age : Int} : Routed (.init age) [] where
  entries  := by simp [State.init, Map.empty]
  dangling := by simp [State.init]

theorem add (h : Routed s (live evs)) (hr : Refines s evs r) (ha : Added s conn cnt s')
    (hc : s'.crc2conn = s.crc2conn) : Routed s' (live evs ++ [s.elems.size]) where
  dangling := by simp
  entries  := by
    intro crc conn he
    have ⟨e, hm, hconn, hp⟩ := h.entries crc conn (hc ▸ he)
    have hne := ne_of_lt (hr.lt_size hm)
    exact ⟨e, by simp [hm], (ha.connOf hne).trans hconn, ha.portsOf hne ▸ hp⟩

theorem next (h : Routed s (live evs)) (hr : Refines s evs r) (he : s.elems.load p = some e) :
    Routed { s with currElem := e.next } (live evs) where
  entries        := h.entries
  dangling hl c hc := by
    -- The links of all elements are nil while there is no live element.
    have ho : r.order = [] := hr.history.order_eq ▸ hl
    have hn := (hr.represents.gone p (by simp [ho]) (Set.notMem_empty p)).left
    cases (hc.symm.trans (nextOf_eq he).symm).trans hn

theorem get (h : Routed s (live evs)) (hr : Refines s evs r) (hg : Got s crc s' reply) :
    Routed s' (live evs) := by
  cases hg
  case fast => exact ⟨h.entries, h.dangling⟩
  case slow cpe e i c _ hc he hi _ _ =>
    have hl : live evs ≠ [] := by
      intro hl
      have := (containerOf_eq he).symm.trans (h.dangling hl cpe hc)
      simp [hi] at this
    have hm := hr.cursor_mem hl hc
    refine ⟨fun crc' conn hx => ?_, fun hl' => absurd hl' hl⟩
    simp only [assigned, Map.set_apply] at hx
    rw [connOf_assigned]
    split at hx
    case isTrue hcrc =>
      cases hx
      exact ⟨cpe, hm, connOf_eq he, (mem_portsOf_assigned he).mpr (.inr ⟨rfl, hcrc⟩)⟩
    case isFalse =>
      obtain ⟨e', hm', hc', hp'⟩ := h.entries crc' conn hx
      exact ⟨e', hm', hc', (mem_portsOf_assigned he).mpr (.inl hp')⟩

theorem delete (h : Routed s (live evs)) (hr : Refines s evs r) (hu : Unlinked s ce s₁ true)
    (hc : s₁.clear ce = .ok s₂) (ho : HandedOver s₂ ce s' rCe)
    (hg : (s.nextOf ce = some ce) → s.portsOf ce = []) : Routed s' ((live evs).erase ce) := by
  have hf := hu.sameFlows.trans (clear_sameFlows hc)
  have hconn := ho.connOf.trans hf.connOf
  have hsub : ∀ {crc q}, (crc ∈ s.portsOf q) → crc ∈ s'.portsOf q := by
    intro crc q hp
    exact ho.mem_portsOf (hf.portsOf ▸ hp)
  have nd := hr.live_nodup
  cases ho
  case idle e _ _ he hp _ _ =>
    have hports : s.portsOf ce = [] := by rw [← hf.portsOf, portsOf_eq he, hp]
    constructor
    case entries =>
      intro crc conn hx
      have ⟨e', hm, hc', hp'⟩ := h.entries crc conn (hf.crc2conn ▸ hx)
      have hne : e' ≠ ce := fun hc => by simp [hc, hports] at hp'
      refine ⟨e', nd.mem_erase_iff.mpr ⟨hne, hm⟩, (congrFun hconn e').trans hc', hsub hp'⟩
    case dangling =>
      intro hl c hcur
      cases (hr.cursor_cleared hu hc hl).right.symm.trans hcur
      simp [containerOf_apply, load_modifyElem, he]
  case moved e rCe r i c he hp hcur hrl hi _ =>
    have hports : s.portsOf ce = e.ports := by rw [← hf.portsOf, portsOf_eq he]
    have hl : (live evs).erase ce ≠ [] := by
      intro hl
      exact hp (hports.symm.trans (hg (hr.cursor_cleared hu hc hl).left))
    have hm : rCe ∈ (live evs).erase ce := by
      have hr₂ := (hr.cleared hu hc).right
      rw [← live_concat_delete nd] at *
      exact hr₂.cursor_mem hl hcur
    refine ⟨fun crc conn hx => ?_, fun hl' => absurd hl' hl⟩
    by_cases hx' : crc ∈ e.ports
    case pos =>
      simp only [remapped, merge, modifyElem, hx', if_true, Option.some.injEq] at hx
      subst hx
      refine ⟨rCe, hm, ?_, (mem_portsOf_merge hrl).mpr (.inr ⟨rfl, hx'⟩)⟩
      exact (congrFun hconn rCe).trans ((congrFun hf.connOf rCe).symm.trans (connOf_eq hrl))
    case neg =>
      simp only [remapped, merge, modifyElem, hx', if_false, hf.crc2conn] at hx
      have ⟨e', hm', hc', hp'⟩ := h.entries crc conn hx
      have hne : e' ≠ ce := fun hc => hx' (hports ▸ hc ▸ hp')
      exact ⟨e', nd.mem_erase_iff.mpr ⟨hne, hm'⟩, (congrFun hconn e').trans hc', hsub hp'⟩

theorem deleteAgain (h : Routed s (live evs)) (hr : Refines s evs r)
    (hu : Unlinked s ce s' false) : Routed s' (live evs) := by
  have hm := hr.not_mem_live_of_gone hu
  cases hu
  case gone e he _ _ =>
    constructor
    case entries =>
      intro crc conn hx
      have ⟨e', hm', hc', hp'⟩ := h.entries crc conn hx
      have hne : e' ≠ ce := fun hc => hm (hc ▸ hm')
      refine ⟨e', hm', ?_, ?_⟩
      · simpa [connOf_apply, load_modifyElem, hne] using hc'
      · rw [portsOf_modifyElem]
        · exact hp'
        · exact fun _ => rfl
    case dangling =>
      intro hl c hc
      have := h.dangling hl c hc
      simp only [containerOf_apply, load_modifyElem] at this ⊢
      split
      case isTrue  => cases s.elems.load c <;> rfl
      case isFalse => exact this

theorem forget (h : Routed s l) (w : Watcher) (hd : s'.data = s.data)
    (hc : s'.currElem = s.currElem) (hx : s'.crc2conn = (s.forget w).crc2conn) : Routed s' l where
  dangling := by simpa [containerOf, hd, hc] using h.dangling
  entries  := by
    intro crc conn he
    have hx : s.crc2conn crc = some conn := by
      rw [hx] at he
      cases ho : w.origin <;> simp only [State.forget, ho, Map.delete_apply] at he
      all_goals
        split at he
        case isTrue  => contradiction
        case isFalse => exact he
    simpa [connOf, portsOf, hd] using h.entries crc conn hx

theorem step (h : Routed s (live evs)) (hr : Refines s evs r) (hs : Stepped s op tr s')
    (hg : KeepsFlows s op) : Routed s' (live (evs ++ tr)) := by
  cases hs
  case add cnt _ ha =>
    have hr' : Refines { s with containers := s.containers.alloc cnt } evs r :=
      hr.congr rfl rfl rfl rfl
    have h' : Routed { s with containers := s.containers.alloc cnt } (live evs) :=
      ⟨h.entries, h.dangling⟩
    rw [hr.live_add]
    exact h'.add hr' ha (by cases ha <;> rfl)
  case next hn =>
    have ⟨_, _, he, hs⟩ := next_inv hn
    subst hs
    rw [live_concat_next]
    exact h.next hr he
  case get hg' =>
    rw [Refines.live_nexts]
    exact h.get hr hg'
  case delete hu hc ho =>
    rw [hr.live_delete]
    exact h.delete hr hu hc ho hg
  case deleteAgain hu =>
    have hm := hr.not_mem_live_of_gone hu
    rw [live_concat_delete hr.live_nodup, List.erase_of_not_mem hm]
    exact h.deleteAgain hr hu
  case tick hk =>
    rw [List.append_nil]
    cases hk
    case idle => exact h
    case expired w _ _ _ _ _ _ _ _ =>
      apply h.forget w <;> cases ho : w.origin <;> simp [State.forget, data, funext_iff, ho]
  case stop hk =>
    rw [List.append_nil]
    cases hk
    case inl hs => exact hs ▸ h
    case inr hs => exact hs ▸ ⟨h.entries, h.dangling⟩
  case wait =>
    rw [List.append_nil]
    exact ⟨h.entries, h.dangling⟩

end Routed

structure Registered (s : State) (live : List ElemId) (cs : List (Option ConnId)) : Prop where
  size : cs.length = s.elems.size
  conn : ∀ e ∈ live, cs[e]? = some (s.connOf e)

namespace Registered

theorem of_connOf (h : Registered s l cs) (hz : s'.elems.size = s.elems.size) (hl : l' ⊆ l)
    (hc : ∀ e ∈ l', s'.connOf e = s.connOf e) : Registered s' l' cs where
  size      := h.size.trans hz.symm
  conn e he := (h.conn e (hl he)).trans (congrArg some (hc e he).symm)

theorem add (h : Registered s l cs) (hl : ∀ e ∈ l, e < s.elems.size) (ha : Added s c cnt s') :
    Registered s' (l ++ [s.elems.size]) (cs ++ [c]) where
  size := by simp [h.size, ha.size]
  conn := by
    intro e he
    cases List.mem_append.mp he
    case inl he =>
      have hlt := hl e he
      rw [ha.connOf (ne_of_lt hlt), List.getElem?_append_left (h.size ▸ hlt)]
      exact h.conn e he
    case inr he =>
      rw [List.mem_singleton.mp he, ← h.size, List.getElem?_concat_length]
      simp [connOf, ha.data, h.size, newElem]

theorem step (h : Registered s (live evs) cs) (hr : Refines s evs r) (hs : Stepped s op tr s') :
    Registered s' (live (evs ++ tr)) (cs ++ conns [(op, tr)]) := by
  cases hs
  case add cnt _ ha =>
    have h' : Registered { s with containers := s.containers.alloc cnt } (live evs) cs :=
      ⟨h.size, h.conn⟩
    rw [hr.live_add]
    exact h'.add (fun _ => hr.lt_size) ha
  all_goals simp only [conns, List.filterMap_cons, List.filterMap_nil, List.append_nil]
  case next hn =>
    have ⟨_, _, _, hs⟩ := next_inv hn
    subst hs
    rw [live_concat_next]
    exact ⟨h.size, h.conn⟩
  case get hg =>
    rw [Refines.live_nexts]
    cases hg
    case fast => exact ⟨h.size, h.conn⟩
    case slow =>
      apply h.of_connOf Heap.size_modify (fun _ => id)
      exact fun e _ => congrFun connOf_assigned e
  case delete hu hc ho =>
    rw [hr.live_delete]
    apply h.of_connOf (ho.size.trans <| (clear_size hc).trans hu.size) List.erase_subset
    exact fun e _ => congrFun (ho.connOf.trans (hu.sameFlows.trans (clear_sameFlows hc)).connOf) e
  case deleteAgain ce hu =>
    have hm := hr.not_mem_live_of_gone hu
    rw [live_concat_delete hr.live_nodup, List.erase_of_not_mem hm]
    apply h.of_connOf hu.size (fun _ => id)
    intro e he
    have hne : e ≠ ce := fun hc => hm (hc ▸ he)
    cases hu
    simp [connOf_apply, load_modifyElem, hne]
  case tick hk =>
    cases hk
    case idle    => exact h
    case expired => exact h.of_connOf (by simp) (fun _ => id) (by simp [connOf, data])
  case stop hk =>
    cases hk
    case inl hs => exact hs ▸ h
    case inr hs => exact hs ▸ ⟨h.size, h.conn⟩
  case wait => exact ⟨h.size, h.conn⟩

end Registered

-- No flow is routed to a removed element: the entries of `crc2conn` are connections of live
-- elements, and a `Get` that does not take an element from the pool does not return a connection
-- that a deleted element was added with.
structure RoutesToLive (s : State) (ls : List (Op × Trace)) : Prop where
  entries : ∀ crc conn, (s.crc2conn crc = some conn) →
            conn ≠ none ∧ ∃ e ∈ live (trace ls), s.connOf e = conn
  fast    : ∀ crc s' reply, (s.get crc = .ok (s', reply)) → (reply.elem = none) →
            (∃ e ∈ live (trace ls), s.connOf e = reply.conn) ∧
            (∀ d ∈ deleted (trace ls), (conns ls)[d]? ≠ some reply.conn)

theorem Routed.routesToLive (h : Routed s (live (trace ls)))
    (hr : Registered s (live (trace ls)) (conns ls)) (hn : none ∉ conns ls)
    (nd : (conns ls).Nodup) : RoutesToLive s ls where
  entries := by
    intro crc conn hx
    have ⟨e, hm, hc, _⟩ := h.entries crc conn hx
    refine ⟨fun hnil => hn ?_, e, hm, hc⟩
    exact hnil ▸ hc ▸ List.mem_of_getElem? (hr.conn e hm)
  fast := by
    intro crc s' reply hg hf
    cases get_inv hg
    case slow                => contradiction
    case fast conn _ _ hx _ _ _ =>
      have ⟨e, hm, hc, _⟩ := h.entries crc conn hx
      refine ⟨⟨e, hm, hc⟩, fun d hd hc' => ?_⟩
      -- An element that was added with the same connection is the same element.
      have he := hr.conn e hm
      have hlt := (List.getElem?_eq_some_iff.mp he).fst
      have hed : e = d := (List.getElem?_inj hlt nd).mp (he.trans (hc ▸ hc'.symm))
      exact (mem_live_iff.mp hm).right (hed ▸ hd)

-- In every run in which each element has its own connection and no `Delete` removes the only element
-- of the ring while it has flows, no flow is routed to a removed element.
theorem routed_to_live (h : Run (GuardedSteps KeepsFlows step) (.init age) ls s)
    (hn : none ∉ conns ls) (nd : (conns ls).Nodup) : RoutesToLive s ls := by
  obtain ⟨_, _, hr, hr'⟩ : ∃ r, Refines s (trace ls) r ∧ Routed s (live (trace ls)) ∧
      Registered s (live (trace ls)) (conns ls) := by
    refine run_invariant (P := fun ls s => Routed s (live (trace ls)) ∧
      Registered s (live (trace ls)) (conns ls)) h (·.right)
      ⟨.init, rfl, by simp [trace, live, added]⟩ ?_
    rintro ls s l s' r h₁ ⟨h₂, h₃⟩ ⟨hg, hs⟩
    have hs := step_inv hs
    rw [trace_concat, conns_concat]
    exact ⟨h₂.step h₁ hs hg, h₃.step h₁ hs⟩
  exact hr.routesToLive hr' hn nd

theorem routed_to_live_churn :
    ∃ ls s, Run (GuardedSteps KeepsFlows step) (.init 5) ls s ∧ live (trace ls) = [1] ∧
      s.crc2conn 7 = some (some 1) ∧ RoutesToLive s ls := by
  have ⟨s, ls, h, ht⟩ : ∃ s ls, Run (GuardedSteps KeepsFlows step) (.init 5) ls s ∧
      decide (conns ls = [some 0, some 1] ∧ live (trace ls) = [1] ∧
        s.crc2conn 7 = some (some 1)) = true :=
    Run.of_passes_restrict [.add (some 0) (some 0) 0 false 10, .add (some 1) (some 1) 1 false 10,
      .get 7, .delete 0, .get 7] (by decide)
  have ⟨hc, hl, hx⟩ := of_decide_eq_true ht
  exact ⟨ls, s, h, hl, hx, routed_to_live h (by simp [hc]) (by simp [hc])⟩

-- The only element is deleted while it has the flow 7. `Delete` picks the deleted element itself as
-- its replacement, and after the next `Add` the flow is still routed to its connection.
theorem routed_to_deleted :
    ∃ ls s, PoolRun 5 ls s ∧ (none ∉ conns ls) ∧ (conns ls).Nodup ∧ live (trace ls) = [1] ∧
      s.crc2conn 7 = some (some 0) ∧ s.connOf 1 = some 1 ∧
      (∃ s' reply, s.get 7 = .ok (s', reply) ∧ reply.elem = none ∧ reply.conn = some 0) ∧
      ¬ RoutesToLive s ls := by
  have ⟨s, ls, h, ht⟩ : ∃ s ls, PoolRun 5 ls s ∧
      decide (conns ls = [some 0, some 1] ∧ live (trace ls) = [1] ∧ s.crc2conn 7 = some (some 0) ∧
        s.connOf 1 = some 1 ∧ s.fastPath (s.lookup 7) = .ok true) = true :=
    Run.of_passes [.add (some 0) (some 0) 0 false 10, .get 7, .delete 0,
      .add (some 1) (some 1) 1 false 10] (by decide)
  have ⟨hc, hl, hx, h₁, hf⟩ := of_decide_eq_true ht
  have hg := get_of_fastPath hf
  rw [hx] at hg
  refine ⟨ls, s, h, by simp [hc], by simp [hc], hl, hx, h₁, ⟨_, _, hg, rfl, rfl⟩, fun hr => ?_⟩
  have ⟨_, e, he, hc'⟩ := hr.entries 7 (some 0) hx
  simp_all

end State
end Pool
