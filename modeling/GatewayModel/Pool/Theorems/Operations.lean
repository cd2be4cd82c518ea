import Mathlib.Logic.Function.Iterate
import GatewayModel.Pool.Execution

open Go

-- One inversion theorem for each operation: all that the operation can do when it does not panic.
namespace Pool.State

variable {s s' : State} {crc : Crc} {ce : ElemId}

theorem next_inv (h : s.next = .ok (s', res)) :
    ∃ e, s.currElem = some res ∧ s.elems.load res = some e ∧ s' = { s with currElem := e.next } := by
  simp only [next, bind_eq_ok, deref_eq_ok, elem_eq_ok, pure_eq_ok, Prod.mk.injEq] at h
  have ⟨_, hc, e, he, hs, hr⟩ := h
  subst hr
  exact ⟨e, hc, he, hs.symm⟩

theorem updateFluxes_inv (h : s.updateFluxes p f = .ok s') :
    ∃ i c, p = some i ∧ s.containers.load i = some c ∧
      s' = { s with containers := s.containers.modify i f } := by
  simp only [updateFluxes, bind_eq_ok, container_eq_ok, pure_eq_ok] at h
  have ⟨c, ⟨i, hp, hc⟩, hs⟩ := h
  subst hp
  exact ⟨i, c, rfl, hc, hs.symm⟩

theorem watch_inv (h : s.watch w = .ok s') :
    0 < w.timeout ∧ s' = { s with watchers := s.watchers ++ [w] } := by
  simp only [watch] at h
  split at h
  case isTrue    => contradiction
  case isFalse t => exact ⟨Int.lt_of_not_ge t, (Except.ok.inj h).symm⟩

section Add

variable {conn : Option ConnId} {container : Option ContainerId}

def newElem (conn : Option ConnId) (container : Option ContainerId) : ConnPoolElem where
  conn        := conn
  prev        := none
  next        := none
  crc2ConnMap := some ()
  ports       := []
  container   := container
  stopChan    := false

def allocElem (s : State) (conn : Option ConnId) (container : Option ContainerId) : State :=
  { s with elems := s.elems.alloc (newElem conn container) }

inductive Added (s : State) (conn : Option ConnId) (container : Option ContainerId) : State → Prop
  | first :
    (s.headElem = none) →
    Added s conn container { ((s.allocElem conn container).setNext s.elems.size
      (some s.elems.size)).setPrev s.elems.size (some s.elems.size) with
      headElem := some s.elems.size, tailElem := some s.elems.size, currElem := some s.elems.size }
  | last :
    (s.headElem = some head) → (s.tailElem = some tail) →
    Added s conn container { ((((s.allocElem conn container).setNext tail
      (some s.elems.size)).setPrev s.elems.size (some tail)).setNext s.elems.size
      (some head)).setPrev head (some s.elems.size) with tailElem := some s.elems.size }

theorem add_inv (h : s.add conn container = .ok s') : Added s conn container s' := by
  simp only [add] at h
  split at h
  case h_1 hh =>
    cases h
    exact .first hh
  case h_2 head hh =>
    simp only [bind_eq_ok, deref_eq_ok, pure_eq_ok] at h
    obtain ⟨tail, ht, hs⟩ := h
    subst hs
    exact .last hh ht

end Add

section Get

-- `Get` does not find the flow, or finds it on a container over its limit.
def SlowPath (s : State) (crc : Crc) : Prop :=
  s.fastPath (s.lookup crc) = .ok false

def assigned (s : State) (crc : Crc) (cpe : ElemId) (e : ConnPoolElem) (i : ContainerId) : State :=
  { s with
    elems           := s.elems.modify cpe fun e => { e with ports := e.ports.insert crc }
    containers      := s.containers.modify i .incFluxes
    currElem        := e.next
    crc2conn        := s.crc2conn.set crc e.conn
    crc2lock        := s.crc2lock.set crc s.semaphores
    crcFluxUsageMap := s.crcFluxUsageMap.set crc s.clock
    crcContainer    := s.crcContainer.set crc (some i)
    semaphores      := s.semaphores + 1
    watchers        := s.watchers ++ [⟨crc, cpe, .get, s.fluxMaxAge⟩]
  }

inductive Got (s : State) (crc : Crc) : State → Reply → Prop
  | fast :
    (s.crc2conn crc = some conn) → (s.crcContainer crc = some (some i)) →
    (s.containers.load i = some c) → (c.fluxes ≤ c.maxFluxes) →
    Got s crc (s.touch crc) ⟨conn, s.crc2lock crc, none⟩
  | slow :
    (s.SlowPath crc) → (s.currElem = some cpe) → (s.elems.load cpe = some e) →
    (e.container = some i) → (s.containers.load i = some c) → (0 < s.fluxMaxAge) →
    Got s crc (s.assigned crc cpe e i) ⟨e.conn, some s.semaphores, some cpe⟩

theorem fastPath_inv {l : Lookup} (h : s.fastPath l = .ok true) :
    ∃ conn i c, l.conn = some conn ∧ l.container = some (some i) ∧
      s.containers.load i = some c ∧ c.fluxes ≤ c.maxFluxes := by
  simp only [fastPath] at h
  split at h
  case h_1 conn p hc hp =>
    simp only [bind_eq_ok, container_eq_ok, pure_eq_ok, decide_eq_true_eq] at h
    have ⟨c, ⟨i, hi, hl⟩, hf⟩ := h
    subst hi
    exact ⟨conn, i, c, hc, hp, hl, hf⟩
  case h_2 => simp [pure_eq_ok] at h

theorem get_of_fastPath (h : s.fastPath (s.lookup crc) = .ok true) :
    s.get crc = .ok (s.touch crc, ⟨(s.crc2conn crc).getD none, s.crc2lock crc, none⟩) := by
  have h' : (s.touch crc).fastPath (s.lookup crc) = .ok true := h
  simp only [get, h']
  rfl

theorem get_inv (h : s.get crc = .ok (s', reply)) : Got s crc s' reply := by
  simp only [get, bind_eq_ok] at h
  have ⟨b, hb, h⟩ := h
  split at h
  case isTrue hb' =>
    have ⟨conn, i, c, h₁, h₂, h₃, h₄⟩ := fastPath_inv (hb' ▸ hb)
    have hl : (s.lookup crc).conn = some conn := h₁
    simp only [pure_eq_ok, Prod.mk.injEq, hl, Option.getD_some] at h
    have ⟨hs, hr⟩ := h
    subst hs hr
    exact .fast h₁ h₂ h₃ h₄
  case isFalse hb' =>
    simp only [Bool.not_eq_true] at hb'
    simp only [bind_eq_ok, elem_eq_ok, pure_eq_ok, Prod.exists, Prod.mk.injEq] at h
    have ⟨s₁, cpe, hn, e', he', s₂, hi, s₃, hw, hs, hr⟩ := h
    have ⟨e, hc, he, hs₁⟩ := next_inv hn
    subst hs₁
    have hl : ({ s.touch crc with currElem := e.next }.addCrc cpe crc).elems.load cpe =
        some { e with ports := e.ports.insert crc } := by
      have : s.elems.load cpe = some e := he
      simp [addCrc, modifyElem, touch, this]
    cases hl.symm.trans he'
    have ⟨i, c, hp, hl', hs₂⟩ := updateFluxes_inv hi
    subst hs₂
    have ⟨ht, hs₃⟩ := watch_inv hw
    subst hs₃ hs hr
    subst hb'
    have hp' : e.container = some i := hp
    have hres : Got s crc _ _ := .slow hb hc he hp' hl' ht
    simpa [assigned, assign, addCrc, touch, modifyElem, hp'] using hres

end Get

section Watchers

@[simp]
theorem elems_forget (w : Watcher) : (s.forget w).elems = s.elems := by
  cases h : w.origin <;> simp [forget, h]

theorem containers_forget (w : Watcher) : (s.forget w).containers = s.containers := by
  cases h : w.origin <;> simp [forget, h]

theorem watchers_forget (w : Watcher) : (s.forget w).watchers = s.watchers := by
  cases h : w.origin <;> simp [forget, h]

inductive Ticked (s : State) (i : Nat) : State → Prop
  | idle : Ticked s i s
  | expired :
    (s.watchers[i]? = some w) → (s.expired w) → (s.elems.load w.elem = some e) →
    (e.container = some j) → (s.containers.load j = some c) →
    Ticked s i { s.forget w with
      containers := s.containers.modify j .decFluxes, watchers := s.watchers.eraseIdx i }

theorem tick_inv (h : s.tick i = .ok s') : Ticked s i s' := by
  simp only [tick] at h
  split at h
  case h_1 =>
    cases h
    exact .idle
  case h_2 w hw =>
    simp only [bind_eq_ok] at h
    have ⟨_, _, h⟩ := h
    split at h
    case isFalse =>
      cases h
      exact .idle
    case isTrue hx =>
      simp only [bind_eq_ok, elem_eq_ok, pure_eq_ok] at h
      have ⟨e, he, s₁, hd, hs⟩ := h
      have ⟨j, c, hj, hc, hs₁⟩ := updateFluxes_inv hd
      subst hs₁ hs
      have hres := Ticked.expired hw hx he hj hc
      cases ho : w.origin <;> simpa [forget, ho] using hres

theorem stop_inv (h : s.stop i = .ok s') :
    (s' = s) ∨ (s' = { s with watchers := s.watchers.eraseIdx i }) := by
  simp only [stop] at h
  split at h
  case h_1 => exact .inl (Except.ok.inj h).symm
  case h_2 =>
    simp only [bind_eq_ok] at h
    have ⟨e, _, h⟩ := h
    split at h
    case isTrue  => exact .inr (Except.ok.inj h).symm
    case isFalse => exact .inl (Except.ok.inj h).symm

end Watchers

section Delete

inductive Unlinked (s : State) (ce : ElemId) : State → Bool → Prop
  | only :
    (s.elems.load ce = some e) → (e.next = some ce) →
    Unlinked s ce { s with headElem := none, tailElem := none } true
  | inner :
    (s.elems.load ce = some e) → (e.next ≠ some ce) → (e.prev = some p) → (e.next = some n) →
    (((s.setNext p (some n)).setPrev n (some p)).elems.load ce = some e') →
    Unlinked s ce { (s.setNext p (some n)).setPrev n (some p) with
      currElem := if s.currElem = some ce then e'.next else s.currElem
      headElem := if s.headElem = some ce then e'.next else s.headElem
      tailElem := if s.tailElem = some ce then e'.prev else s.tailElem } true
  | gone :
    (s.elems.load ce = some e) → (e.next ≠ some ce) → (e.prev = none ∨ e.next = none) →
    Unlinked s ce
      (s.modifyElem ce ({ · with conn := none, container := none, crc2ConnMap := none })) false

theorem unlink_inv (h : s.unlink ce = .ok (s', b)) : Unlinked s ce s' b := by
  simp only [unlink, bind_eq_ok, elem_eq_ok] at h
  have ⟨e, he, h⟩ := h
  split at h
  case isTrue hn =>
    cases h
    exact .only he hn
  case isFalse hn =>
    split at h
    case h_1 prev next hp hn' =>
      simp only [bind_eq_ok, elem_eq_ok, pure_eq_ok] at h
      have ⟨e', he', h⟩ := h
      cases h
      exact .inner he hn hp hn' he'
    case h_2 hpn =>
      cases h
      refine .gone he hn ?_
      cases hp : e.prev <;> cases hn' : e.next <;> simp_all

theorem clear_inv (h : s.clear ce = .ok s') :
    ∃ e, s.elems.load ce = some e ∧ e.stopChan = false ∧
      s' = s.modifyElem ce ({ · with stopChan := true, next := none, prev := none }) := by
  simp only [clear, bind_eq_ok, elem_eq_ok] at h
  have ⟨e, he, h⟩ := h
  split at h
  case isTrue    => contradiction
  case isFalse hc => exact ⟨e, he, by simpa using hc, (Except.ok.inj h).symm⟩

theorem terminate_inv (h : s.terminate ce = .ok s') :
    ∃ e i c, s.elems.load ce = some e ∧ e.container = some i ∧ s.containers.load i = some c ∧
      c.addr ≠ none ∧ e.conn ≠ none ∧ s' = { s with sent := s.sent ++ e.conn.toList } := by
  simp only [terminate, bind_eq_ok, elem_eq_ok, container_eq_ok, deref_eq_ok, pure_eq_ok] at h
  obtain ⟨e, he, c, ⟨i, hi, hc⟩, _, ha, conn, hconn, hs⟩ := h
  exact ⟨e, i, c, he, hi, hc, by simp [ha], by simp [hconn], by simp [← hs, hconn]⟩

def remapped (s : State) (ce rCe : ElemId) (r : ConnPoolElem) (i : ContainerId) (ports : List Crc) :
    State :=
  { s with
    containers := s.containers.modify i (Container.incFluxes^[ports.length])
    crc2conn   := fun crc => if crc ∈ ports then some r.conn else s.crc2conn crc
    watchers   := s.watchers ++ ports.map fun port => ⟨port, rCe, .delete ce, deleteTimeout⟩
  }

theorem remap_inv (h : s.remap ce rCe ports = .ok s') (hp : ports ≠ []) :
    ∃ r i c, s.elems.load rCe = some r ∧ r.container = some i ∧ s.containers.load i = some c ∧
      s' = s.remapped ce rCe r i ports := by
  induction ports generalizing s
  case nil => contradiction
  case cons port ports hi =>
    simp only [remap, bind_eq_ok, elem_eq_ok] at h
    have ⟨r, hr, s₁, h₁, s₂, h₂, h⟩ := h
    have ⟨i, c, hri, hc, hs₁⟩ := updateFluxes_inv h₁
    subst hs₁
    have ⟨_, hs₂⟩ := watch_inv h₂
    subst hs₂
    refine ⟨r, i, c, hr, hri, hc, ?_⟩
    cases ports
    case nil =>
      cases h
      simp [remapped, Map.set, funext_iff, Function.update_apply]
    case cons =>
      have ⟨r', i', c', hr', hri', _, hs⟩ := hi h (by simp)
      cases hr.symm.trans hr'
      cases hri.symm.trans hri'
      subst hs
      simp only [remapped, State.mk.injEq, true_and, and_true, List.map_cons, List.append_assoc,
        List.cons_append, List.nil_append, List.length_cons]
      refine ⟨?_, ?_⟩
      case refine_1 => simp [Heap.modify, List.modify_modify_eq, Function.iterate_succ]
      case refine_2 =>
        funext crc
        simp only [List.mem_cons, Map.set_apply]
        by_cases hp : crc = port <;> simp [hp]

inductive HandedOver (s : State) (ce : ElemId) : State → Option ElemId → Prop
  | idle :
    (s.elems.load ce = some e) → (e.ports = []) → (e.container = some i) →
    (s.containers.load i = some c) →
    HandedOver s ce
      ({ s with sent := s.sent ++ e.conn.toList }.modifyElem ce ({ · with container := none })) none
  | moved :
    (s.elems.load ce = some e) → (e.ports ≠ []) → (s.currElem = some rCe) →
    (s.elems.load rCe = some r) → (r.container = some i) → (s.containers.load i = some c) →
    HandedOver s ce { (s.remapped ce rCe r i e.ports).merge rCe e.ports with
      currElem := r.next, sent := s.sent ++ e.conn.toList } (some rCe)

theorem handOver_inv (h : s.handOver ce = .ok (s', rCe)) : HandedOver s ce s' rCe := by
  simp only [handOver, bind_eq_ok, elem_eq_ok] at h
  have ⟨e, he, h⟩ := h
  split at h
  case isTrue hp =>
    simp only [bind_eq_ok, pure_eq_ok, Prod.mk.injEq] at h
    have ⟨s₁, ht, hs, hr⟩ := h
    have ⟨e', i, c, he', hi, hc, _, _, hs₁⟩ := terminate_inv ht
    cases he.symm.trans he'
    subst hs₁ hs hr
    exact .idle he hp hi hc
  case isFalse hp =>
    simp only [bind_eq_ok, pure_eq_ok, Prod.exists, Prod.mk.injEq] at h
    have ⟨s₁, p, hn, _, _, s₂, hm, s₃, ht, hs, hr⟩ := h
    have ⟨r', hc, hr', hs₁⟩ := next_inv hn
    subst hs₁
    have ⟨r, i, c, hr₂, hi, hl, hs₂⟩ := remap_inv hm hp
    cases hr'.symm.trans hr₂
    subst hs₂
    have ⟨e', _, _, he', _, _, _, _, hs₃⟩ := terminate_inv ht
    subst hs₃ hs hr
    have hconn : e'.conn = e.conn := by
      simp only [merge, load_modifyElem, remapped] at he'
      split at he'
      case isTrue e₁  => cases e₁; rw [he] at he'; cases he'; rfl
      case isFalse n => rw [he] at he'; cases he'; rfl
    have hres := HandedOver.moved he hp hc hr₂ hi hl
    simpa [hconn, remapped, merge, modifyElem] using hres

theorem delete_inv (h : s.delete ce = .ok (s', rCe)) :
    (∃ s₁ s₂, Unlinked s ce s₁ true ∧ s₁.clear ce = .ok s₂ ∧ HandedOver s₂ ce s' rCe) ∨
    (Unlinked s ce s' false ∧ rCe = none) := by
  simp only [delete, bind_eq_ok, Prod.exists] at h
  have ⟨s₁, b, hu, h⟩ := h
  have hu := unlink_inv hu
  split at h
  case isTrue hb =>
    simp only [bind_eq_ok] at h
    have ⟨s₂, hc, h⟩ := h
    exact .inl ⟨s₁, s₂, hb ▸ hu, hc, handOver_inv h⟩
  case isFalse hb =>
    cases h
    simp only [Bool.not_eq_true] at hb
    exact .inr ⟨hb ▸ hu, rfl⟩

end Delete

inductive Stepped (s : State) : Op → Trace → State → Prop
  | add {cnt : Container} {t : State} :
    (cnt = ⟨addr, 0, cntId, repl, maxFluxes⟩) →
    (Added { s with containers := s.containers.alloc cnt } conn (some s.containers.size) t) →
    Stepped s (.add conn addr cntId repl maxFluxes) [.add s.elems.size] t
  | next {t : State} :
    (s.next = .ok (t, res)) → Stepped s .next [.next res] t
  | get {c : Crc} {t : State} :
    (Got s c t reply) → Stepped s (.get c) (reply.elem.toList.map .next) t
  | delete {e : ElemId} {s₁ s₂ t : State} :
    (Unlinked s e s₁ true) → (s₁.clear e = .ok s₂) → (HandedOver s₂ e t rCe) →
    Stepped s (.delete e) (.delete e :: rCe.toList.map .next) t
  | deleteAgain {e : ElemId} {t : State} :
    (Unlinked s e t false) → Stepped s (.delete e) [.delete e] t
  | tick {t : State} :
    (Ticked s i t) → Stepped s (.tick i) [] t
  | stop {t : State} :
    (t = s ∨ t = { s with watchers := s.watchers.eraseIdx i }) → Stepped s (.stop i) [] t
  | wait :
    Stepped s (.wait d) [] { s with clock := s.clock + d }

theorem step_inv {op : Op} (h : s.step op = .ok (s', tr)) : Stepped s op tr s' := by
  cases op <;> simp only [step, bind_eq_ok, pure_eq_ok, Prod.exists, Prod.mk.injEq] at h
  case add =>
    have ⟨_, ha, hs, ht⟩ := h
    subst hs ht
    exact .add rfl (add_inv ha)
  case next =>
    have ⟨_, _, hn, hs, ht⟩ := h
    subst hs ht
    exact .next hn
  case get =>
    have ⟨_, _, hg, hs, ht⟩ := h
    subst hs ht
    exact .get (get_inv hg)
  case delete =>
    have ⟨_, _, hd, hs, ht⟩ := h
    subst hs ht
    cases delete_inv hd
    case inl hd =>
      have ⟨_, _, hu, hc, ho⟩ := hd
      exact .delete hu hc ho
    case inr hd =>
      have ⟨hu, hr⟩ := hd
      subst hr
      exact .deleteAgain hu
  case tick =>
    have ⟨_, hk, hs, ht⟩ := h
    subst hs ht
    exact .tick (tick_inv hk)
  case stop =>
    have ⟨_, hk, hs, ht⟩ := h
    subst hs ht
    exact .stop (stop_inv hk)
  case wait =>
    have ⟨hs, ht⟩ := h
    subst hs ht
    exact .wait

theorem Stepped.fluxMaxAge_eq (h : Stepped s op tr s') : s'.fluxMaxAge = s.fluxMaxAge := by
  cases h
  case add ha => cases ha <;> rfl
  case get hg => cases hg <;> rfl
  case wait   => rfl
  case next hn =>
    have ⟨_, _, _, hs⟩ := next_inv hn
    subst hs
    rfl
  case delete hu hc ho =>
    have ⟨_, _, _, hs⟩ := clear_inv hc
    subst hs
    cases hu <;> cases ho <;> rfl
  case deleteAgain hu =>
    cases hu
    rfl
  case tick hk =>
    cases hk
    case idle      => rfl
    case expired w _ _ _ _ _ _ _ _ => cases ho : w.origin <;> simp [forget, ho]
  case stop hk =>
    cases hk
    case inl hs => rw [hs]
    case inr hs => rw [hs]

end Pool.State
