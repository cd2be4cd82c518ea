import GatewayModel.Pool.Concurrent.Threads

open Go Execution

-- What the steps do to the containers, the watchers and the elements whose channel is open.
namespace Pool.Concurrent

def Pc.raised : Pc → Option ElemId
  | .watch cpe _ => some cpe
  | _            => none

def Pc.tends (e : ElemId) : Pc → Bool
  | .inc cpe _ | .watch cpe _ => cpe = e
  | _                         => false

def DeletePc.raises : DeletePc → Option ElemId
  | .remap rCe => some rCe
  | _          => none

def isOpen (s : State) (e : ElemId) : Bool :=
  (s.elems.load e).any (!·.stopChan)

theorem isOpen_iff {s : State} :
    (isOpen s e = true) ↔ ∃ x, s.elems.load e = some x ∧ x.stopChan = false := by
  simp [isOpen, Option.any_eq_true]

def Closed (s : State) (e : ElemId) : Prop :=
  ∃ x, s.elems.load e = some x ∧ x.stopChan = true

section Evolves

variable {s s' s₁ : State} {f : ConnPoolElem → ConnPoolElem} {p : ElemId}

-- What becomes of an element: its channel is not opened again, and it keeps its container and its
-- links until the channel is closed.
structure Ages (x x' : ConnPoolElem) : Prop where
  stopChan  : (x'.stopChan = false) → x.stopChan = false
  container : (x'.container = x.container) ∨ (x'.container = none ∧ x'.stopChan = true)
  conn      : (x'.conn = x.conn) ∨ (x'.conn = none)
  prev      : (x'.stopChan = false) → (x.prev ≠ none) → x'.prev ≠ none
  next      : (x'.stopChan = false) → (x.next ≠ none) → x'.next ≠ none

theorem Ages.refl (x : ConnPoolElem) : Ages x x where
  stopChan  := id
  container := .inl rfl
  conn      := .inl rfl
  prev      := fun _ => id
  next      := fun _ => id

theorem Ages.trans {x x₁ x₂ : ConnPoolElem} (h₁ : Ages x x₁) (h₂ : Ages x₁ x₂) : Ages x x₂ where
  stopChan h := h₁.stopChan (h₂.stopChan h)
  container := by
    rcases h₂.container with h | h
    case inr => exact .inr h
    case inl =>
      rcases h₁.container with h' | ⟨h', hc⟩
      case inl => exact .inl (h.trans h')
      case inr =>
        refine .inr ⟨h.trans h', ?_⟩
        by_contra ho
        simp [h₂.stopChan (by simpa using ho)] at hc
  conn := by
    rcases h₂.conn with h | h
    case inl => exact h ▸ h₁.conn
    case inr => exact .inr h
  prev h hp := h₂.prev h (h₁.prev (h₂.stopChan h) hp)
  next h hn := h₂.next h (h₁.next (h₂.stopChan h) hn)

theorem Ages.container_eq {x x' : ConnPoolElem} (h : Ages x x') (ho : x'.stopChan = false) :
    x'.container = x.container := by
  rcases h.container with hc | ⟨_, hc⟩
  case inl => exact hc
  case inr => simp [ho] at hc

structure Evolves (s s' : State) : Prop where
  size  : s'.elems.size = s.elems.size
  elems : ∀ e x', (s'.elems.load e = some x') → ∃ x, s.elems.load e = some x ∧ Ages x x'

namespace Evolves

theorem of_elems (h : s'.elems = s.elems) : Evolves s s' where
  size           := by rw [h]
  elems e x' hx' := ⟨x', h ▸ hx', .refl x'⟩

theorem trans (h₁ : Evolves s s₁) (h₂ : Evolves s₁ s') : Evolves s s' where
  size := h₂.size.trans h₁.size
  elems e x' hx' := by
    have ⟨x₁, hx₁, ha₁⟩ := h₂.elems e x' hx'
    have ⟨x, hx, ha⟩ := h₁.elems e x₁ hx₁
    exact ⟨x, hx, ha.trans ha₁⟩

theorem modifyElem (hf : ∀ x, (s.elems.load p = some x) → Ages x (f x)) :
    Evolves s (s.modifyElem p f) where
  size := State.size_modifyElem ..
  elems e x' hx' := by
    rw [State.load_modifyElem] at hx'
    split at hx'
    case isFalse => exact ⟨x', hx', .refl x'⟩
    case isTrue he =>
      subst he
      have ⟨x, hx, hfx⟩ := Option.map_eq_some_iff.mp hx'
      exact ⟨x, hx, hfx ▸ hf x hx⟩

theorem setNext (n : ElemId) : Evolves s (s.setNext p (some n)) :=
  modifyElem fun x _ => { Ages.refl x with next := fun _ _ => Option.some_ne_none n }

theorem setPrev (n : ElemId) : Evolves s (s.setPrev p (some n)) :=
  modifyElem fun x _ => { Ages.refl x with prev := fun _ _ => Option.some_ne_none n }

theorem isOpen (h : Evolves s s') (ho : isOpen s' e = true) : Concurrent.isOpen s e = true := by
  have ⟨x', hx', hs⟩ := isOpen_iff.mp ho
  have ⟨x, hx, ha⟩ := h.elems e x' hx'
  exact isOpen_iff.mpr ⟨x, hx, ha.stopChan hs⟩

theorem prevOf_setPrev {n : ElemId} (h : s.prevOf q ≠ none) : (s.setPrev p (some n)).prevOf q ≠ none := by
  simp only [State.prevOf, State.setPrev, State.load_modifyElem] at h ⊢
  split <;> cases hq : s.elems.load q <;> simp_all

theorem nextOf_setNext {n : ElemId} (h : s.nextOf q ≠ none) : (s.setNext p (some n)).nextOf q ≠ none := by
  simp only [State.nextOf, State.setNext, State.load_modifyElem] at h ⊢
  split <;> cases hq : s.elems.load q <;> simp_all

theorem of_added (h : State.Added s conn cnt s') : Evolves (s.allocElem conn cnt) s' ∧
    s'.prevOf s.elems.size ≠ none ∧ s'.nextOf s.elems.size ≠ none := by
  have hz : s.elems.size < (s.allocElem conn cnt).elems.size := by simp [State.allocElem]
  cases h
  case first =>
    refine ⟨((setNext _).trans (setPrev _)).trans (of_elems rfl), ?_, ?_⟩
    case refine_1 =>
      refine ne_of_eq_of_ne (State.prevOf_setPrev _ ?_) (by simp)
      rwa [State.size_setNext]
    case refine_2 =>
      refine ne_of_eq_of_ne (congrFun (State.nextOf_setPrev ..) _) ?_
      simp [State.nextOf_setNext _ hz]
  case last =>
    refine ⟨((((setNext _).trans (setPrev _)).trans (setNext _)).trans (setPrev _)).trans (of_elems rfl),
      ?_, ?_⟩
    case refine_1 =>
      refine prevOf_setPrev ?_
      rw [State.prevOf_setNext, State.prevOf_setPrev _ (by rwa [State.size_setNext])]
      simp
    case refine_2 =>
      refine ne_of_eq_of_ne (congrFun (State.nextOf_setPrev ..) _) ?_
      rw [State.nextOf_setNext _ (by rwa [State.size_setPrev, State.size_setNext])]
      simp

theorem closed (h : Evolves s s') (hc : Closed s e) : Closed s' e := by
  have ⟨x, hx, hs⟩ := hc
  have ⟨x', hx'⟩ := Heap.exists_load (h.size ▸ Heap.lt_size_of_load hx)
  have ⟨y, hy, ha⟩ := h.elems e x' hx'
  cases hx.symm.trans hy
  refine ⟨x', hx', ?_⟩
  by_contra ho
  simp [ha.stopChan (by simpa using ho)] at hs

end Evolves

-- What holds of the elements. Containers and elements are created in pairs, and connections are
-- numbered like their elements.
structure Sound (s : State) : Prop where
  size  : s.containers.size = s.elems.size
  own   : ∀ e i, (s.containerOf e = some i) → i = e
  conns : ∀ e conn, (s.connOf e = some conn) → conn = e
  intact : ∀ e x, (s.elems.load e = some x) → (x.stopChan = false) →
    x.container = some e ∧ x.prev ≠ none ∧ x.next ≠ none

namespace Sound

theorem init {age : Int} : Sound (.init age) where
  size   := rfl
  own    := by simp [State.containerOf_apply, State.init]
  conns  := by simp [State.connOf_apply, State.init]
  intact := by simp [State.init]

theorem evolves (h : Sound s) (he : Evolves s s') (hz : s'.containers.size = s.containers.size) :
    Sound s' where
  size := hz.trans (h.size.trans he.size.symm)
  own := by
    intro e i hi
    rw [State.containerOf_apply, Option.bind_eq_some_iff] at hi
    have ⟨x', hx', hi⟩ := hi
    have ⟨x, hx, ha⟩ := he.elems e x' hx'
    rcases ha.container with hc | ⟨hc, _⟩
    case inl => exact h.own e i ((State.containerOf_eq hx).trans (hc ▸ hi))
    case inr => simp [hc] at hi
  conns := by
    intro e conn hi
    rw [State.connOf_apply, Option.bind_eq_some_iff] at hi
    have ⟨x', hx', hi⟩ := hi
    have ⟨x, hx, ha⟩ := he.elems e x' hx'
    rcases ha.conn with hc | hc
    case inl => exact h.conns e conn ((State.connOf_eq hx).trans (hc ▸ hi))
    case inr => simp [hc] at hi
  intact := by
    intro e x' hx' hs
    have ⟨x, hx, ha⟩ := he.elems e x' hx'
    have ⟨h₁, h₂, h₃⟩ := h.intact e x hx (ha.stopChan hs)
    exact ⟨(ha.container_eq hs).trans h₁, ha.prev hs h₂, ha.next hs h₃⟩

theorem add (h : Sound s) {c : Container}
    (ha : State.Added { s with containers := s.containers.alloc c } conn (some s.containers.size) s')
    (hc : ∀ n, (conn = some n) → n = s.elems.size) : Sound s' where
  size := by
    have ht : s'.containers = s.containers.alloc c := by cases ha <;> rfl
    rw [ht, Heap.size_alloc, ha.size, h.size]
  own := ha.own h.size h.own
  conns := by
    intro e n hn
    by_cases he : e = s.elems.size
    case neg => exact h.conns e n (ha.connOf he ▸ hn)
    case pos =>
      subst he
      exact hc n (by simpa [State.connOf, ha.data, State.newElem] using hn)
  intact := by
    intro e x hx ho
    obtain ⟨hv, hp, hn⟩ := Evolves.of_added ha
    obtain ⟨y, hy, hage⟩ := hv.elems e x hx
    by_cases he : e = s.elems.size
    case pos =>
      subst he
      have hd := State.containerOf_eq hx
      rw [ha.containerOf_new h.size] at hd
      exact ⟨hd.symm, State.prevOf_eq hx ▸ hp, State.nextOf_eq hx ▸ hn⟩
    case neg =>
      have hy : s.elems.load e = some y := by
        simpa [State.allocElem, Heap.load_alloc, he] using hy
      obtain ⟨h₁, h₂, h₃⟩ := h.intact e y hy (hage.stopChan ho)
      exact ⟨(hage.container_eq ho).trans h₁, hage.prev ho h₂, hage.next ho h₃⟩

end Sound
end Evolves

section Blocks

structure Quiet (s s' : State) : Prop where
  evolves    : Evolves s s'
  containers : s'.containers = s.containers
  watchers   : s'.watchers = s.watchers
  crc2conn   : s'.crc2conn = s.crc2conn

inductive Ran (s : State) (crc : Crc) : Pc → State → Pc → Prop
  | assign : (s.elems.load cpe = some x) →
             Ran s crc (.assign cpe) (s.assign crc x) (.inc cpe s.semaphores)
  | inc    : (s.elems.load cpe = some x) → (x.container = some i) → (s.containers.load i = some c) →
             Ran s crc (.inc cpe sem) { s with containers := s.containers.modify i .incFluxes }
               (.watch cpe sem)
  | watch  : (s.elems.load cpe = some x) →
             Ran s crc (.watch cpe sem)
               { s with watchers := s.watchers ++ [⟨crc, cpe, .get, s.fluxMaxAge⟩] }
               (.done x.conn (some sem))
  | quiet  : (pc.raised = none) → (pc'.raised = none) → (∀ e, pc.tends e = false) → (Quiet s s') →
             Ran s crc pc s' pc'

inductive DeleteRan (s : State) (ce : ElemId) : DeletePc → State → DeletePc → Prop
  | clear : (Quiet s s') → (Closed s' ce) → DeleteRan s ce .clear s' .ports
  | remap : (s.elems.load ce = some x) → (s.remap ce rCe x.ports = .ok s') →
            DeleteRan s ce (.remap rCe) s' (.merge rCe)
  | quiet : (pc.raises = none) → (Quiet s s') → ((pc' = .ports ∨ pc' = .idle) → pc = .ports) →
            DeleteRan s ce pc s' pc'

variable {s s' : State} {crc : Crc} {ce : ElemId}

theorem Quiet.of_elems (he : s'.elems = s.elems) (hc : s'.containers = s.containers)
    (hw : s'.watchers = s.watchers) (hm : s'.crc2conn = s.crc2conn) : Quiet s s' :=
  ⟨.of_elems he, hc, hw, hm⟩

theorem block_ran {pc pc' : Pc} (h : block s crc pc = .ok (s', pc')) : Ran s crc pc s' pc' := by
  have hb := block_inv h
  cases pc
  case inc =>
    simp only [block, bind_eq_ok, State.elem_eq_ok, pure_eq_ok, Prod.mk.injEq] at h
    obtain ⟨_, hx, _, hi, hs, hpc⟩ := h
    obtain ⟨_, _, hc, hl, ht⟩ := State.updateFluxes_inv hi
    subst hs hpc ht
    exact .inc hx hc hl
  case watch =>
    simp only [block, bind_eq_ok, State.elem_eq_ok, pure_eq_ok, Prod.mk.injEq] at h
    obtain ⟨_, hx, _, hw, hs, hpc⟩ := h
    obtain ⟨_, ht⟩ := State.watch_inv hw
    subst hs hpc ht
    exact .watch hx
  case assign =>
    cases hb
    exact .assign ‹_›
  case addCrc =>
    cases hb
    refine .quiet rfl rfl (fun _ => rfl) ⟨?_, rfl, rfl, rfl⟩
    exact .modifyElem fun x _ => { Ages.refl x with }
  all_goals
    cases hb
    all_goals exact .quiet rfl rfl (fun _ => rfl) (.of_elems rfl rfl rfl rfl)

theorem Quiet.unlinked (h : Sound s) (hu : State.Unlinked s ce s' b) : Quiet s s' := by
  cases hu
  case only  => exact .of_elems rfl rfl rfl rfl
  case inner =>
    exact ⟨((Evolves.setNext _).trans (Evolves.setPrev _)).trans (.of_elems rfl), rfl, rfl, rfl⟩
  case gone x hx _ hn =>
    -- An element without links has been cleared.
    refine ⟨.modifyElem fun y hy => ?_, rfl, rfl, rfl⟩
    cases hx.symm.trans hy
    have hc : x.stopChan = true := by
      by_contra ho
      have ⟨_, hp', hn'⟩ := h.intact ce x hx (by simpa using ho)
      rcases hn with hn | hn
      case inl => exact hp' hn
      case inr => exact hn' hn
    exact { Ages.refl x with container := .inr ⟨rfl, hc⟩, conn := .inr rfl }

theorem deleteBlock_ran {pc pc' : DeletePc} (hs : Sound s)
    (hd : (pc = .idle) → Closed s ce) (h : DeleteBlocked s ce pc s' pc') :
    DeleteRan s ce pc s' pc' := by
  cases h
  case unlink hu => exact .quiet rfl (.unlinked hs hu) (by simp)
  case gone hu   => exact .quiet rfl (.unlinked hs hu) (by simp)
  case clear hc =>
    have ⟨x, hx, _, ht⟩ := State.clear_inv hc
    subst ht
    refine .clear ⟨.modifyElem fun x _ => ?_, rfl, rfl, rfl⟩ ?_
    case refine_1 => exact ⟨nofun, .inl rfl, .inl rfl, nofun, nofun⟩
    case refine_2 =>
      rw [Closed, State.load_modifyElem, if_pos rfl, hx]
      exact ⟨_, rfl, rfl⟩
  case next hn =>
    have ⟨_, _, _, ht⟩ := State.next_inv hn
    subst ht
    exact .quiet rfl (.of_elems rfl rfl rfl rfl) (by simp)
  case remap hx hm => exact .remap hx hm
  case merge =>
    refine .quiet rfl ⟨.modifyElem fun x _ => ?_, rfl, rfl, rfl⟩ (by simp)
    exact { Ages.refl x with }
  case idle sent =>
    have ⟨y, hy, hc⟩ := hd rfl
    refine .quiet rfl ⟨?_, rfl, rfl, rfl⟩ (by simp)
    have hv : Evolves s { s with sent := sent } := .of_elems rfl
    refine hv.trans (.modifyElem fun x hx => ?_)
    cases hy.symm.trans hx
    exact { Ages.refl y with container := .inr ⟨rfl, hc⟩ }
  all_goals exact .quiet rfl (.of_elems rfl rfl rfl rfl) (by simp)

theorem Ran.evolves {pc pc' : Pc} (h : Ran s crc pc s' pc') : Evolves s s' := by
  cases h
  case quiet => exact ‹Quiet s s'›.evolves
  all_goals exact .of_elems rfl

theorem Ran.size {pc pc' : Pc} (h : Ran s crc pc s' pc') :
    s'.containers.size = s.containers.size := by
  cases h
  case quiet => rw [‹Quiet s s'›.containers]
  case inc   => exact Heap.size_modify
  all_goals rfl

theorem Ran.mem_watchers {pc pc' : Pc} (h : Ran s crc pc s' pc') (hw : w ∈ s.watchers) :
    w ∈ s'.watchers := by
  cases h
  case quiet => exact ‹Quiet s s'›.watchers ▸ hw
  case watch => exact List.mem_append_left _ hw
  all_goals exact hw

namespace DeleteRan

variable {pc pc' : DeletePc} (h : DeleteRan s ce pc s' pc')
include h

theorem evolves : Evolves s s' := by
  cases h
  case clear hq _ => exact hq.evolves
  case quiet hq _ => exact hq.evolves
  case remap hm =>
    have ⟨_, hs⟩ := State.remap_eq hm
    exact .of_elems (hs ▸ rfl)

theorem size : s'.containers.size = s.containers.size := by
  cases h
  case clear hq _ => rw [hq.containers]
  case quiet hq _ => rw [hq.containers]
  case remap x _ _ hm =>
    by_cases hp : x.ports = []
    case pos =>
      rw [hp] at hm
      cases hm
      rfl
    case neg =>
      have ⟨_, _, _, _, _, _, hs⟩ := State.remap_inv hm hp
      rw [hs]
      exact Heap.size_modify

theorem closed (hc : (pc = .ports ∨ pc = .idle) → Closed s ce) (hpc : pc' = .ports ∨ pc' = .idle) :
    Closed s' ce := by
  have hv := h.evolves
  cases h
  case clear hc => exact hc
  case remap    => simp at hpc
  case quiet hp => exact hv.closed (hc (.inl (hp hpc)))

end DeleteRan
end Blocks

namespace Threads

inductive Acted (t : Threads) : Op → Threads → Prop
  | idle : Acted t op t
  | add {cnt : Container} :
    (conn = if dialed then some t.pool.elems.size else none) → (cnt.fluxes = 0) →
    (State.Added { t.pool with containers := t.pool.containers.alloc cnt } conn
      (some t.pool.containers.size) s) →
    Acted t (.add dialed addr cntId repl maxFluxes) { t with pool := s }
  | get : Acted t (.get crc) { t with gets := t.gets ++ [⟨crc, .lookup⟩] }
  | delete : Acted t (.delete ce) { t with deletes := t.deletes ++ [⟨ce, .unlink⟩] }
  | runGet :
    (t.gets[i]? = some c) → (Ran t.pool c.crc c.pc s pc) →
    Acted t (.runGet i) { t with pool := s, gets := t.gets.set i { c with pc := pc } }
  | runDelete :
    (t.deletes[i]? = some d) → (DeleteRan t.pool d.ce d.pc s pc) →
    Acted t (.runDelete i) { t with pool := s, deletes := t.deletes.set i { d with pc := pc } }
  | check :
    (t.pool.watchers[i]? = some w) →
    Acted t (.check i) { t with
      pool     := { t.pool with watchers := t.pool.watchers.eraseIdx i }
      expiring := t.expiring ++ [⟨w, false⟩] }
  | count :
    (t.expiring[i]? = some ⟨w, false⟩) → (t.pool.elems.load w.elem = some x) →
    (x.container = some j) → (t.pool.containers.load j = some cnt) →
    Acted t (.expire i) { t with
      pool     := { t.pool with containers := t.pool.containers.modify j .decFluxes }
      expiring := t.expiring.set i ⟨w, true⟩ }
  | remove :
    (t.expiring[i]? = some ⟨w, true⟩) →
    Acted t (.expire i) { t with pool := t.pool.forget w, expiring := t.expiring.eraseIdx i }
  | stop :
    (t.pool.watchers[i]? = some w) → (isOpen t.pool w.elem = false) →
    Acted t (.stop i) { t with pool := { t.pool with watchers := t.pool.watchers.eraseIdx i } }
  | wait : Acted t (.wait d) { t with pool := { t.pool with clock := t.pool.clock + d } }

structure Steady (t : Threads) : Prop where
  sound  : Sound t.pool
  closed : ∀ d ∈ t.deletes, (d.pc = .ports ∨ d.pc = .idle) → Closed t.pool d.ce

variable {t t' : Threads} {op : Op} {evs : List Event}

theorem expire_acted (h : t.expire i = .ok (t', evs)) : Acted t (.expire i) t' := by
  simp only [expire] at h
  split at h
  case h_1 =>
    cases h
    exact .idle
  case h_2 x hx =>
    simp only [bind_eq_ok, Prod.exists] at h
    obtain ⟨s, x', hb, h⟩ := h
    rcases x with ⟨w, _ | _⟩
    case false =>
      simp only [expiryBlock, Bool.false_eq_true, if_false, bind_eq_ok, State.elem_eq_ok, pure_eq_ok,
        Prod.mk.injEq] at hb
      obtain ⟨_, he, _, hd, hs, hx'⟩ := hb
      obtain ⟨_, _, hj, hc, hd⟩ := State.updateFluxes_inv hd
      subst hs hx' hd
      cases h
      exact .count hx he hj hc
    case true =>
      simp only [expiryBlock, if_true, bind_eq_ok, pure_eq_ok, Prod.mk.injEq] at hb
      obtain ⟨_, _, hs, hx'⟩ := hb
      subst hs hx'
      cases h
      exact .remove hx

theorem stop_acted (h : t.pool.stop i = .ok s) : Acted t (.stop i) { t with pool := s } := by
  simp only [State.stop] at h
  split at h
  case h_1 =>
    cases h
    exact .idle
  case h_2 w hw =>
    simp only [bind_eq_ok, State.elem_eq_ok] at h
    obtain ⟨x, hx, h⟩ := h
    split at h
    case isFalse =>
      cases h
      exact .idle
    case isTrue hc =>
      cases h
      exact .stop hw (by simp [isOpen, hx, hc])

theorem Steady.acted (h : Steady t) (hs : t.step op = .ok (t', evs)) : Acted t op t' := by
  cases op
  case add =>
    simp only [step, bind_eq_ok, pure_eq_ok, Prod.mk.injEq] at hs
    obtain ⟨_, ha, ht, _⟩ := hs
    subst ht
    exact .add rfl rfl (State.add_inv ha)
  case expire => exact expire_acted hs
  case stop =>
    simp only [step, bind_eq_ok, pure_eq_ok, Prod.mk.injEq] at hs
    obtain ⟨_, hk, ht, _⟩ := hs
    subst ht
    exact stop_acted hk
  all_goals cases step_inv hs
  case runGet hb hi => exact .runGet hi (block_ran hb)
  case check hi     => exact .check hi
  case runDelete hb hi =>
    have hd := h.closed _ (List.mem_of_getElem? hi)
    exact .runDelete hi (deleteBlock_ran h.sound (fun hpc => hd (.inr hpc)) hb)
  case get    => exact .get
  case delete => exact .delete
  case wait   => exact .wait
  all_goals exact .idle

namespace Steady

theorem init {age : Int} : Steady (.init age) where
  sound  := .init
  closed := by simp [Threads.init]

theorem evolves (h : Steady t) (he : Evolves t.pool t'.pool)
    (hz : t'.pool.containers.size = t.pool.containers.size) (hd : t'.deletes = t.deletes) :
    Steady t' where
  sound           := h.sound.evolves he hz
  closed d hm hpc := he.closed (h.closed d (hd ▸ hm) hpc)

theorem step (h : Steady t) (ha : Acted t op t') : Steady t' := by
  cases ha
  case idle => exact h
  case add hc _ ha =>
    constructor
    case sound => exact h.sound.add ha fun n hn => by split at hc <;> simp_all
    case closed =>
      intro d hm hpc
      have ⟨x, hx, hs⟩ := h.closed d hm hpc
      refine (Evolves.of_added ha).left.closed ⟨x, ?_, hs⟩
      exact (Heap.load_alloc_of_lt (Heap.lt_size_of_load hx)).trans hx
  case get => exact h.evolves (.of_elems rfl) rfl rfl
  case delete =>
    refine ⟨h.sound, fun d hm hpc => ?_⟩
    cases List.mem_append.mp hm
    case inl hm => exact h.closed d hm hpc
    case inr hm =>
      cases List.mem_singleton.mp hm
      simp at hpc
  case runGet hi hr => exact h.evolves hr.evolves hr.size rfl
  case runDelete d _ _ hi hr =>
    refine ⟨h.sound.evolves hr.evolves hr.size, fun d' hm hpc => ?_⟩
    cases List.mem_or_eq_of_mem_set hm
    case inl hm => exact hr.evolves.closed (h.closed d' hm hpc)
    case inr hd =>
      subst hd
      exact hr.closed (fun hpc => h.closed d (List.mem_of_getElem? hi) hpc) hpc
  case remove w hi =>
    exact h.evolves (.of_elems (State.elems_forget w)) (by rw [State.containers_forget]) rfl
  case count => exact h.evolves (.of_elems rfl) Heap.size_modify rfl
  all_goals exact h.evolves (.of_elems rfl) rfl rfl

end Steady

-- The calls of `Get` assign a flow to each element. Then element 0 is deleted, and the watcher of the
-- flow that was assigned to element 1 is about to call `DecFluxes`.
def exampleSchedule : List Op :=
  [.add true (some 0) 0 false 10, .add true (some 1) 1 false 10, .get 7] ++ exampleGet 0 ++
    [.get 8] ++ exampleGet 1 ++ [.delete 0] ++ List.replicate 7 (.runDelete 0) ++ [.wait 10, .check 1]

end Threads
end Pool.Concurrent
