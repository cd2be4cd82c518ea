import GatewayModel.Pool.Theorems.Coherence

open Go Execution RoundRobin

-- That a call of `Delete` returns, and what a second call does.
namespace Pool.State

variable {s s' s₁ s₂ : State} {r : Rotation ElemId} {evs : Trace} {ce p q : ElemId} {crc : Crc}

section Operable

def Attached (s : State) (p : ElemId) : Prop :=
  ∃ e, s.data p = some e ∧ e.stopChan = false ∧ e.crc2ConnMap = some ()

structure Operable (s : State) (live : List ElemId) : Prop where
  attached : ∀ e ∈ live, s.Attached e
  ports    : ∀ e, (s.portsOf e).Nodup

theorem data_modifyElem_ne {f : ConnPoolElem → ConnPoolElem} (hq : q ≠ p) :
    (s.modifyElem p f).data q = s.data q := by
  simp [data, load_modifyElem, hq]

theorem attached_iff : s.Attached p ↔
    ∃ e, s.elems.load p = some e ∧ e.stopChan = false ∧ e.crc2ConnMap = some () := by
  simp only [Attached, data, Option.map_eq_some_iff]
  constructor
  case mp =>
    rintro ⟨_, ⟨e, he, rfl⟩, h⟩
    exact ⟨e, he, h⟩
  case mpr =>
    rintro ⟨e, he, h⟩
    exact ⟨_, ⟨e, he, rfl⟩, h⟩

theorem Attached.modifyElem {f : ConnPoolElem → ConnPoolElem} (h : s.Attached q)
    (hf : ∀ e, (f e).stopChan = e.stopChan ∧ (f e).crc2ConnMap = e.crc2ConnMap) :
    (s.modifyElem p f).Attached q := by
  have ⟨e, he, h₁, h₂⟩ := attached_iff.mp h
  rw [attached_iff, load_modifyElem, he]
  by_cases hq : q = p
  case pos => exact ⟨f e, if_pos hq, (hf e).left.trans h₁, (hf e).right.trans h₂⟩
  case neg => exact ⟨e, if_neg hq, h₁, h₂⟩

theorem nodup_portsOf_modifyElem {f : ConnPoolElem → ConnPoolElem} (h : ∀ e, (s.portsOf e).Nodup)
    (hf : ∀ e, (e.ports.Nodup) → (f e).ports.Nodup) (q : ElemId) :
    ((s.modifyElem p f).portsOf q).Nodup := by
  have hq := h q
  simp only [portsOf_apply, load_modifyElem] at hq ⊢
  split
  case isFalse => exact hq
  case isTrue =>
    cases hl : s.elems.load q
    case none   => simp
    case some e => exact hf e (by simpa [hl] using hq)

theorem nodup_foldl_insert {ps qs : List Crc} (h : ps.Nodup) :
    (qs.foldl (fun ps p => ps.insert p) ps).Nodup := by
  induction qs generalizing ps
  case nil          => exact h
  case cons q qs hi => exact hi h.insert

namespace Operable

theorem init {age : Int} : Operable (.init age) [] where
  attached := by simp
  ports    := by simp [portsOf_apply, State.init]

theorem congr (h : Operable s l) (hd : s'.data = s.data) (hl : l' ⊆ l) : Operable s' l' where
  attached e he := by
    have ⟨x, hx, hx'⟩ := h.attached e (hl he)
    exact ⟨x, by rw [hd, hx], hx'⟩
  ports         := by simpa [portsOf, hd] using h.ports

theorem add (h : Operable s l) (ha : Added s conn cnt s') :
    Operable s' (l ++ [s.elems.size]) where
  attached := by
    intro e he
    by_cases hz : e = s.elems.size
    case pos => exact ⟨_, by rw [ha.data, if_pos hz], rfl, rfl⟩
    case neg =>
      have hm : e ∈ l := by simpa [hz] using he
      have ⟨x, hx, hx'⟩ := h.attached e hm
      exact ⟨x, by rw [ha.data, if_neg hz, hx], hx'⟩
  ports := by
    intro e
    by_cases hz : e = s.elems.size
    case pos => simp [portsOf, ha.data, hz, newElem]
    case neg => exact ha.portsOf hz ▸ h.ports e

theorem modifyElem {f : ConnPoolElem → ConnPoolElem} (h : Operable s l)
    (hf : ∀ e, (f e).stopChan = e.stopChan ∧ (f e).crc2ConnMap = e.crc2ConnMap)
    (hp : ∀ e, (e.ports.Nodup) → (f e).ports.Nodup) : Operable (s.modifyElem p f) l where
  attached e he := (h.attached e he).modifyElem hf
  ports         := nodup_portsOf_modifyElem h.ports hp

theorem modifyElem_gone {f : ConnPoolElem → ConnPoolElem} (h : Operable s l) (hm : p ∉ l)
    (hp : ∀ e, (f e).ports = e.ports) : Operable (s.modifyElem p f) l where
  ports         := nodup_portsOf_modifyElem h.ports fun e he => hp e ▸ he
  attached e he := by
    have ⟨x, hx, hx'⟩ := h.attached e he
    have hne : e ≠ p := fun hc => hm (hc ▸ he)
    exact ⟨x, by rw [data_modifyElem_ne hne, hx], hx'⟩

theorem handOver (h : Operable s l) (ho : HandedOver s ce s' rCe) : Operable s' l := by
  cases ho
  case idle e _ _ _ _ _ _ =>
    have h₁ : Operable { s with sent := s.sent ++ e.conn.toList } l := h.congr rfl fun _ => id
    exact h₁.modifyElem (fun _ => ⟨rfl, rfl⟩) fun _ hp => hp
  case moved e rCe r i _ _ _ _ _ _ _ =>
    have h₁ : Operable (s.remapped ce rCe r i e.ports) l := h.congr rfl fun _ => id
    have h₂ : Operable ((s.remapped ce rCe r i e.ports).merge rCe e.ports) l :=
      h₁.modifyElem (fun _ => ⟨rfl, rfl⟩) fun _ => nodup_foldl_insert
    exact h₂.congr rfl fun _ => id

theorem delete (h : Operable s l) (nd : l.Nodup) (hu : Unlinked s ce s₁ true)
    (hc : s₁.clear ce = .ok s₂) (ho : HandedOver s₂ ce s' rCe) : Operable s' (l.erase ce) := by
  have h₁ : Operable s₁ (l.erase ce) := h.congr hu.data List.erase_subset
  have h₂ : Operable s₂ (l.erase ce) := by
    have ⟨_, _, _, hs⟩ := clear_inv hc
    exact hs ▸ h₁.modifyElem_gone nd.not_mem_erase fun _ => rfl
  exact h₂.handOver ho

theorem step (h : Operable s (live evs)) (hr : Refines s evs r) (hs : Stepped s op tr s') :
    Operable s' (live (evs ++ tr)) := by
  cases hs
  case add cnt _ ha =>
    have h' : Operable { s with containers := s.containers.alloc cnt } (live evs) :=
      h.congr rfl fun _ => id
    rw [hr.live_add]
    exact h'.add ha
  case next hn =>
    have ⟨_, _, _, hs⟩ := next_inv hn
    subst hs
    rw [live_concat_next]
    exact h.congr rfl fun _ => id
  case get hg =>
    rw [Refines.live_nexts]
    cases hg
    case fast => exact h.congr rfl fun _ => id
    case slow c cpe e i _ _ _ _ _ _ _ =>
      have h₁ : Operable (s.addCrc cpe c) (live evs) :=
        h.modifyElem (fun _ => ⟨rfl, rfl⟩) fun _ hp => hp.insert
      exact h₁.congr rfl fun _ => id
  case delete hu hc ho =>
    rw [hr.live_delete]
    exact h.delete hr.live_nodup hu hc ho
  case deleteAgain hu =>
    have hm := hr.not_mem_live_of_gone hu
    rw [live_concat_delete hr.live_nodup, List.erase_of_not_mem hm]
    cases hu
    exact h.modifyElem_gone hm fun _ => rfl
  all_goals rw [List.append_nil]
  case tick hk =>
    cases hk
    case idle    => exact h
    case expired => exact h.congr (by simp [data, funext_iff]) fun _ => id
  case stop hk =>
    cases hk
    case inl hs => exact hs ▸ h
    case inr hs => exact hs ▸ h.congr rfl fun _ => id
  case wait => exact h.congr rfl fun _ => id

end Operable

end Operable

section Returns

def addrOf (s : State) (p : ElemId) : Option UInt32 :=
  ((s.containerOf p).bind s.containers.load).bind (·.addr)

theorem Represents.exists_unlink (h : Represents s r limbo) (hm : ce ∈ r.order) :
    ∃ s₁, s.unlink ce = .ok (s₁, true) := by
  obtain ⟨e, he⟩ := Heap.exists_load (h.alloc ce hm)
  obtain ⟨n, _, hn⟩ := h.ring.next_mem hm
  obtain ⟨p, _, hp⟩ := h.ring.prev_mem hm
  have hn : e.next = some n := (nextOf_eq he).symm.trans hn.left
  have hp : e.prev = some p := (prevOf_eq he).symm.trans hp.right
  obtain ⟨e', he'⟩ : ∃ e', ((s.setNext p (some n)).setPrev n (some p)).elems.load ce = some e' :=
    Heap.exists_load (by simpa using h.alloc ce hm)
  by_cases hc : n = ce
  case pos =>
    refine ⟨{ s with headElem := none, tailElem := none }, ?_⟩
    simp [State.unlink, elem, he, hn, hc, bind, Except.bind, pure, Except.pure]
  case neg =>
    have hc : some n ≠ some ce := fun h => hc (Option.some.inj h)
    simp only [State.unlink, elem, he, he', hn, hp, deref_some, bind, Except.bind, if_neg hc]
    exact ⟨_, rfl⟩

theorem Attached.exists_clear (h : s.Attached ce) : ∃ s', s.clear ce = .ok s' := by
  have ⟨e, he, hc, _⟩ := attached_iff.mp h
  refine ⟨s.modifyElem ce ({ · with stopChan := true, next := none, prev := none }), ?_⟩
  simp [clear, elem, he, bind, Except.bind, hc, pure, Except.pure]

theorem exists_terminate (he : s.elems.load ce = some e) (hi : e.container = some i)
    (hc : s.containers.load i = some c) (ha : c.addr ≠ none) (hn : e.conn ≠ none) :
    ∃ s', s.terminate ce = .ok s' := by
  have ⟨a, ha⟩ := Option.ne_none_iff_exists'.mp ha
  have ⟨conn, hn⟩ := Option.ne_none_iff_exists'.mp hn
  refine ⟨{ s with sent := s.sent ++ [conn] }, ?_⟩
  simp [terminate, elem, he, container, hi, hc, ha, hn, bind, Except.bind, pure, Except.pure]

theorem exists_remap {x : ConnPoolElem} (ce : ElemId) (ports : List Crc)
    (hx : s.elems.load rCe = some x) (hi : x.container = some i) (hc : s.containers.load i = some c) :
    ∃ s', s.remap ce rCe ports = .ok s' := by
  induction ports generalizing s c
  case nil => exact ⟨s, rfl⟩
  case cons port ports hi' =>
    let t : State := { s with
      containers := s.containers.modify i .incFluxes
      crc2conn   := s.crc2conn.set port x.conn
      watchers   := s.watchers ++ [⟨port, rCe, .delete ce, deleteTimeout⟩] }
    have ht : s.remap ce rCe (port :: ports) = t.remap ce rCe ports := by
      simp [remap, elem, hx, bind, Except.bind, incFluxes, updateFluxes, container, hi, hc, pure,
        Except.pure, watch, deleteTimeout, t]
    have hl : t.containers.load i = some c.incFluxes := by simp [t, hc]
    rw [ht]
    exact hi' (s := t) hx hl

theorem exists_handOver {e x : ConnPoolElem} (he : s.elems.load ce = some e)
    (hm : e.crc2ConnMap = some ()) (hi : e.container = some i) (hc : s.containers.load i = some c)
    (ha : c.addr ≠ none) (hk : e.conn ≠ none) (hcur : s.currElem = some p)
    (hx : s.elems.load p = some x)
    (hj : x.container = some j) (hcj : s.containers.load j = some c') :
    ∃ s' rCe, s.handOver ce = .ok (s', rCe) := by
  have hn := next_of_load hcur hx
  simp only [handOver, elem, he, deref_some, bind, Except.bind]
  by_cases hports : e.ports = []
  case pos =>
    obtain ⟨s', ht⟩ := exists_terminate he hi hc ha hk
    simp only [hports, if_true, ht]
    exact ⟨_, _, rfl⟩
  case neg =>
    have hx₁ : { s with currElem := x.next }.elems.load p = some x := hx
    obtain ⟨s₂, hs₂⟩ := exists_remap ce e.ports hx₁ hj hcj
    simp only [hports, if_false, hn, hm, deref_some, hs₂]
    obtain ⟨x', j', c'', hx', hj', hcj', hs₂⟩ := remap_inv hs₂ hports
    cases hx₁.symm.trans hx'
    cases hj.symm.trans hj'
    -- The element is still there, and its container has kept its address.
    obtain ⟨e', he', hi', hk'⟩ : ∃ e', (s₂.merge p e.ports).elems.load ce = some e' ∧
        e'.container = some i ∧ e'.conn ≠ none := by
      have he₂ : s₂.elems.load ce = some e := hs₂ ▸ he
      rw [merge, load_modifyElem, he₂]
      by_cases hp : ce = p
      case pos => exact ⟨_, if_pos hp, hi, hk⟩
      case neg => exact ⟨_, if_neg hp, hi, hk⟩
    obtain ⟨c₂, hc₂, ha₂⟩ : ∃ c₂, (s₂.merge p e.ports).containers.load i = some c₂ ∧
        c₂.addr ≠ none := by
      have hl : s₂.containers = s.containers.modify j (Container.incFluxes^[e.ports.length]) := by
        rw [hs₂]; rfl
      have hl' : (s₂.merge p e.ports).containers = s₂.containers := rfl
      rw [hl', hl, Heap.load_modify, hc]
      by_cases hij : i = j
      case pos => exact ⟨_, if_pos hij, by rwa [Container.incFluxes_iterate]⟩
      case neg => exact ⟨_, if_neg hij, ha⟩
    obtain ⟨s₃, ht⟩ := exists_terminate he' hi' hc₂ ha₂ hk'
    simp only [ht]
    exact ⟨_, _, rfl⟩

theorem exists_load_of_containerOf (h : s.containerOf p = some i) :
    ∃ e, s.elems.load p = some e ∧ e.container = some i := by
  rw [containerOf_apply] at h
  exact Option.bind_eq_some_iff.mp h

theorem Refines.cursor_unlinked (h : Refines s evs r) (hu : Unlinked s ce s₁ true)
    (hc : s₁.clear ce = .ok s₂) :
    ∃ p ∈ live evs, s₂.currElem = some p ∧ (((live evs).erase ce ≠ []) → p ∈ (live evs).erase ce) := by
  by_cases hl : (live evs).erase ce = []
  case pos =>
    refine ⟨ce, h.mem_live_of_unlinked hu hc, (h.cursor_cleared hu hc hl).right, ?_⟩
    exact fun hn => absurd hl hn
  case neg =>
    have h₂ := (h.cleared hu hc).right
    rw [← live_concat_delete h.live_nodup] at hl
    obtain ⟨p, hm, hcur⟩ := (h₂.represents.wellLinked (h₂.history.order_eq ▸ hl)).cursor
    rw [h₂.history.order_eq, live_concat_delete h.live_nodup] at hm
    exact ⟨p, List.mem_of_mem_erase hm, hcur, fun _ => hm⟩

theorem exists_delete (hr : Refines s evs r) (hi : Intact s (live evs)) (ho : Operable s (live evs))
    (hm : ce ∈ live evs) (ha : s.addrOf ce ≠ none) (hk : s.connOf ce ≠ none) :
    ∃ s' rCe, s.delete ce = .ok (s', rCe) := by
  obtain ⟨s₁, hu⟩ := hr.represents.exists_unlink (hr.history.order_eq ▸ hm)
  have hu' := unlink_inv hu
  have ho₁ : Operable s₁ (live evs) := ho.congr hu'.data fun _ => id
  obtain ⟨s₂, hc⟩ := (ho₁.attached ce hm).exists_clear
  have hf := hu'.sameFlows.trans (clear_sameFlows hc)
  -- What the rest of `Delete` finds at an element on the ring.
  have hat : ∀ p ∈ live evs, ∃ e c, s₂.elems.load p = some e ∧ e.container = some p ∧
      s₂.containers.load p = some c ∧ s.containers.load p = some c := by
    intro p hp
    obtain ⟨e, he, hec⟩ := exists_load_of_containerOf ((congrFun hf.containerOf p).trans (hi.has p hp))
    obtain ⟨c, hcl⟩ := Heap.exists_load (hi.size.symm ▸ hr.lt_size hp)
    exact ⟨e, c, he, hec, hf.containers ▸ hcl, hcl⟩
  obtain ⟨e, c, he, hec, hcl, hcs⟩ := hat ce hm
  obtain ⟨p, hp, hcur, _⟩ := hr.cursor_unlinked hu' hc
  obtain ⟨x, c', hx, hxc, hcl', _⟩ := hat p hp
  have hmap : e.crc2ConnMap = some () := by
    obtain ⟨e₁, he₁, _, hmap⟩ := attached_iff.mp (ho₁.attached ce hm)
    obtain ⟨_, _, _, hs⟩ := clear_inv hc
    rw [hs, load_modifyElem, if_pos rfl, he₁] at he
    cases he
    exact hmap
  have hca : c.addr ≠ none := by simpa [addrOf, hi.has ce hm, hcs] using ha
  have hek : e.conn ≠ none := by rwa [← connOf_eq he, hf.connOf]
  obtain ⟨s', rCe, hh⟩ := exists_handOver he hmap hec hcl hca hek hcur hx hxc hcl'
  refine ⟨s', rCe, ?_⟩
  simp only [delete, hu, bind, Except.bind, if_true, hc, hh]

theorem terminate_signals (h : s.terminate ce = .ok s') :
    s.addrOf ce ≠ none ∧ s.connOf ce ≠ none := by
  obtain ⟨e, i, c, he, hi, hc, ha, hk, _⟩ := terminate_inv h
  rw [addrOf, containerOf_eq he, hi, Option.bind_some, hc, Option.bind_some, connOf_eq he]
  exact ⟨ha, hk⟩

theorem addrOf_remapped : (s.remapped ce rCe x i ports).addrOf p = s.addrOf p := by
  have hc : (s.remapped ce rCe x i ports).containerOf = s.containerOf := rfl
  rw [addrOf, hc, addrOf]
  cases s.containerOf p
  case none   => rfl
  case some j =>
    simp only [Option.bind_some, remapped, Heap.load_modify]
    split
    case isFalse => rfl
    case isTrue  =>
      cases s.containers.load j
      case none   => rfl
      case some c => rw [Option.map_some, Container.incFluxes_iterate]; rfl

theorem addrOf_merge : (s.merge rCe ports).addrOf p = s.addrOf p := by
  have hc : (s.merge rCe ports).containerOf = s.containerOf := containerOf_modifyElem fun _ => rfl
  rw [addrOf, hc]
  rfl

theorem connOf_merge : (s.merge rCe ports).connOf = s.connOf :=
  connOf_modifyElem fun _ => rfl

theorem handOver_signals (h : s.handOver ce = .ok (s', rCe)) :
    s.addrOf ce ≠ none ∧ s.connOf ce ≠ none := by
  simp only [handOver, bind_eq_ok, elem_eq_ok] at h
  obtain ⟨e, he, h⟩ := h
  split at h
  case isTrue =>
    simp only [bind_eq_ok] at h
    obtain ⟨_, ht, _⟩ := h
    exact terminate_signals ht
  case isFalse hp =>
    simp only [bind_eq_ok, Prod.exists] at h
    obtain ⟨_, q, hn, _, _, _, hm, _, ht, _⟩ := h
    obtain ⟨_, _, _, hs₁⟩ := next_inv hn
    obtain ⟨x, i, _, _, _, _, hs₂⟩ := remap_inv hm hp
    subst hs₁ hs₂
    have hsig := terminate_signals ht
    rw [addrOf_merge, addrOf_remapped, connOf_merge] at hsig
    exact hsig

theorem exists_delete_iff (hr : Refines s evs r) (hi : Intact s (live evs))
    (ho : Operable s (live evs)) (hm : ce ∈ live evs) :
    (∃ s' x, s.delete ce = .ok (s', x)) ↔ (s.addrOf ce ≠ none ∧ s.connOf ce ≠ none) := by
  constructor
  case mpr => exact fun h => exists_delete hr hi ho hm h.left h.right
  case mp  =>
    rintro ⟨s', x, hd⟩
    simp only [delete, bind_eq_ok, Prod.exists] at hd
    obtain ⟨s₁, b, hu, hd⟩ := hd
    cases b
    case false => exact absurd hm (hr.not_mem_live_of_gone (unlink_inv hu))
    case true  =>
      simp only [if_true, bind_eq_ok] at hd
      obtain ⟨s₂, hc, hh⟩ := hd
      have hf := (unlink_inv hu).sameFlows.trans (clear_sameFlows hc)
      have hsig := handOver_signals hh
      rw [addrOf, hf.containerOf, hf.containers, hf.connOf] at hsig
      exact hsig

end Returns

section Again

-- The ring, the flow table, the containers, the channels and what has been sent are the same.
structure SameTable (s s' : State) : Prop where
  headElem     : s'.headElem = s.headElem
  tailElem     : s'.tailElem = s.tailElem
  currElem     : s'.currElem = s.currElem
  nextOf       : s'.nextOf = s.nextOf
  prevOf       : s'.prevOf = s.prevOf
  crc2conn     : s'.crc2conn = s.crc2conn
  crcContainer : s'.crcContainer = s.crcContainer
  crc2lock     : s'.crc2lock = s.crc2lock
  containers   : s'.containers = s.containers
  stopChan     : ∀ e, (s'.elems.load e).map (·.stopChan) = (s.elems.load e).map (·.stopChan)
  sent         : s'.sent = s.sent

theorem deleted_of_label (h : PoolRun age ls s) (hd : (.delete ce, tr) ∈ ls) :
    ce ∈ deleted (trace ls) := by
  refine h.invariant_labels (P := fun ls _ => ((.delete ce, tr) ∈ ls) → ce ∈ deleted (trace ls))
    (by simp) ?_ hd
  intro ls s l s' hi hs hd
  rw [trace_concat, deleted_append, List.mem_append]
  cases List.mem_append.mp hd
  case inl hd => exact .inl (hi hd)
  case inr hd =>
    -- The trace of a `Delete` begins with the deletion.
    cases List.mem_singleton.mp hd
    refine .inr ?_
    cases step_inv hs <;> simp [deleted]

-- After every run in which `ce` has been deleted, `Delete` of `ce` returns early and leaves everything
-- but the pointers of `ce` itself as it is.
theorem delete_again (h : PoolRun age ls s) (hd : (.delete ce, tr) ∈ ls) :
    ∃ s', s.delete ce = .ok (s', none) ∧ SameTable s s' := by
  have ⟨r, hr⟩ := exists_refines h
  have hdel := deleted_of_label h hd
  have ⟨hn, hp⟩ := (ring_invariant h).deleted ce hdel
  have ⟨e, he⟩ := Heap.exists_load ((hr.elems ce).mp (hr.history.deleted_subset ce hdel))
  have hn : e.next = none := (nextOf_eq he).symm.trans hn
  have hp : e.prev = none := (prevOf_eq he).symm.trans hp
  refine ⟨s.modifyElem ce ({ · with conn := none, container := none, crc2ConnMap := none }), ?_, ?_⟩
  case refine_1 => simp [delete, unlink, elem, he, hn, hp, bind, Except.bind, pure, Except.pure]
  case refine_2 =>
    constructor
    case nextOf => exact nextOf_modifyElem _ _ fun _ => rfl
    case prevOf => exact prevOf_modifyElem _ _ fun _ => rfl
    case stopChan =>
      intro q
      rw [load_modifyElem]
      split <;> cases s.elems.load q <;> rfl
    all_goals rfl

theorem delete_again_refilled :
    ∃ ls s, PoolRun 5 ls s ∧ live (trace ls) = [1] ∧ s.crc2conn 7 = some (some 1) ∧
      ∃ s', s.delete 0 = .ok (s', none) ∧ SameTable s s' := by
  have ⟨s, ls, h, ht⟩ : ∃ s ls, PoolRun 5 ls s ∧
      decide (live (trace ls) = [1] ∧ s.crc2conn 7 = some (some 1) ∧
        (.delete 0, [.delete 0]) ∈ ls) = true :=
    Run.of_passes [.add (some 0) (some 0) 0 false 10, .delete 0, .add (some 1) (some 1) 1 false 10,
      .get 7, .next] (by decide)
  have ⟨hl, h₇, hd⟩ := of_decide_eq_true ht
  exact ⟨ls, s, h, hl, h₇, delete_again h hd⟩

end Again
end Pool.State
