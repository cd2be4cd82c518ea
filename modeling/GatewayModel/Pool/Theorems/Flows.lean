import GatewayModel.Pool.Theorems.Ring

open Go Execution RoundRobin

-- What the operations do to the data of the elements, and which elements they leave in the ring.
namespace Pool

section Fluxes

variable {c : Container}

theorem Container.toInt_incFluxes_bmod :
    c.incFluxes.fluxes.toInt = (c.fluxes.toInt + 1).bmod 256 :=
  Int8.toInt_add c.fluxes 1

theorem Container.toInt_incFluxes (h : c.fluxes < 127) :
    c.incFluxes.fluxes.toInt = c.fluxes.toInt + 1 := by
  have hl : c.fluxes.toInt < 127 := Int8.lt_iff_toInt_lt.mp h
  have hg := c.fluxes.le_toInt
  rw [toInt_incFluxes_bmod]
  exact Int.bmod_eq_of_le (by omega) (by omega)

theorem Container.toInt_incFluxes_iterate_bmod (n : Nat) :
    (incFluxes^[n] c).fluxes.toInt = (c.fluxes.toInt + n).bmod 256 := by
  induction n
  case zero =>
    have hl := c.fluxes.toInt_lt
    have hg := c.fluxes.le_toInt
    rw [Function.iterate_zero_apply, Int.natCast_zero, Int.add_zero]
    exact (Int.bmod_eq_of_le (by omega) (by omega)).symm
  case succ n hi =>
    rw [Function.iterate_succ_apply', toInt_incFluxes_bmod, hi, Int.bmod_add_bmod]
    congr 1
    omega

theorem Container.toInt_incFluxes_iterate {n : Nat} (h : c.fluxes.toInt + n ≤ 127) :
    (incFluxes^[n] c).fluxes.toInt = c.fluxes.toInt + n := by
  have hg := c.fluxes.le_toInt
  rw [toInt_incFluxes_iterate_bmod]
  exact Int.bmod_eq_of_le (by omega) (by omega)

theorem Container.toInt_incFluxes_iterate_eq_iff {n m : Nat} :
    ((incFluxes^[n] c).fluxes.toInt = c.fluxes.toInt + m) ↔
    (n % 256 = m % 256 ∧ c.fluxes.toInt + m ≤ 127) := by
  have hl := c.fluxes.toInt_lt
  have hg := c.fluxes.le_toInt
  rw [toInt_incFluxes_iterate_bmod, Int.bmod]
  split <;> omega

theorem Container.incFluxes_iterate (n : Nat) :
    incFluxes^[n] c = { c with fluxes := (incFluxes^[n] c).fluxes } := by
  induction n
  case zero      => rfl
  case succ n hi => rw [Function.iterate_succ_apply', incFluxes, hi]

theorem Container.toInt_decFluxes (h : 0 < c.fluxes.toInt) :
    c.decFluxes.fluxes.toInt = c.fluxes.toInt - 1 := by
  have hl := c.fluxes.toInt_lt
  have h₁ : (1 : Int8).toInt = 1 := rfl
  unfold decFluxes
  split
  case isTrue =>
    rw [Int8.toInt_sub, h₁]
    exact Int.bmod_eq_of_le (by omega) (by omega)
  case isFalse hn =>
    have : ¬ 1 < c.fluxes.toInt := fun hc => hn (Int8.lt_iff_toInt_lt.mpr (h₁ ▸ hc))
    have h₀ : (0 : Int8).toInt = 0 := rfl
    simp only [h₀]
    omega

end Fluxes

namespace State

variable {s s' s₁ s₂ : State} {r : Rotation ElemId} {evs : Trace} {ce p q : ElemId}

section Data

theorem connOf_apply : s.connOf q = (s.elems.load q).bind (·.conn) := by
  simp only [connOf, data]
  cases s.elems.load q <;> rfl

theorem containerOf_apply : s.containerOf q = (s.elems.load q).bind (·.container) := by
  simp only [containerOf, data]
  cases s.elems.load q <;> rfl

theorem portsOf_apply : s.portsOf q = (s.elems.load q).elim [] (·.ports) := by
  simp only [portsOf, data]
  cases s.elems.load q <;> rfl

variable {f : ConnPoolElem → ConnPoolElem}

theorem connOf_modifyElem (hf : ∀ e, (f e).conn = e.conn) : (s.modifyElem p f).connOf = s.connOf := by
  funext q
  simp only [connOf_apply, load_modifyElem]
  split <;> cases s.elems.load q <;> simp [hf]

theorem containerOf_modifyElem (hf : ∀ e, (f e).container = e.container) :
    (s.modifyElem p f).containerOf = s.containerOf := by
  funext q
  simp only [containerOf_apply, load_modifyElem]
  split <;> cases s.elems.load q <;> simp [hf]

theorem portsOf_modifyElem (hf : ∀ e, (f e).ports = e.ports) :
    (s.modifyElem p f).portsOf = s.portsOf := by
  funext q
  simp only [portsOf_apply, load_modifyElem]
  split <;> cases s.elems.load q <;> simp [hf]

theorem mem_portsOf_modifyElem {P : Crc → Prop} (he : s.elems.load p = some e)
    (hf : ∀ crc, (crc ∈ (f e).ports) ↔ (crc ∈ e.ports ∨ P crc)) :
    (crc ∈ (s.modifyElem p f).portsOf q) ↔ (crc ∈ s.portsOf q ∨ (q = p ∧ P crc)) := by
  simp only [portsOf_apply, load_modifyElem]
  by_cases hq : q = p
  case pos => simp [hq, he, hf]
  case neg => simp [hq]

theorem Added.data (h : Added s conn cnt s') :
    s'.data q = if q = s.elems.size then some (newElem conn cnt) else s.data q := by
  have ha : (s.allocElem conn cnt).data q =
      if q = s.elems.size then some (newElem conn cnt) else s.data q := by
    simp only [State.data, allocElem, Heap.load_alloc]
    split <;> rfl
  cases h
  case first => exact (congrFun (data_setPrev ..) q).trans <| (congrFun (data_setNext ..) q).trans ha
  case last  =>
    exact (congrFun (data_setPrev ..) q).trans <| (congrFun (data_setNext ..) q).trans <|
      (congrFun (data_setPrev ..) q).trans <| (congrFun (data_setNext ..) q).trans ha

theorem Added.connOf (h : Added s conn cnt s') (hq : q ≠ s.elems.size) :
    s'.connOf q = s.connOf q := by
  simp [State.connOf, h.data, hq]

theorem Added.portsOf (h : Added s conn cnt s') (hq : q ≠ s.elems.size) :
    s'.portsOf q = s.portsOf q := by
  simp [State.portsOf, h.data, hq]

theorem Added.containerOf (h : Added s conn cnt s') (hq : q ≠ s.elems.size) :
    s'.containerOf q = s.containerOf q := by
  simp [State.containerOf, h.data, hq]

-- If containers and elements are created in pairs, a new element has the address of its container.
section Pairs

variable {c : Container} (hz : s.containers.size = s.elems.size)
  (ha : Added { s with containers := s.containers.alloc c } conn (some s.containers.size) s')
include hz ha

theorem Added.containerOf_new : s'.containerOf s.elems.size = some s.elems.size := by
  simp [State.containerOf, ha.data, newElem, hz]

theorem Added.own (ho : ∀ e i, (s.containerOf e = some i) → i = e) (e : ElemId) (i : ContainerId)
    (hi : s'.containerOf e = some i) : i = e := by
  by_cases he : e = s.elems.size
  case pos => exact Option.some.inj ((he ▸ hi).symm.trans (he ▸ ha.containerOf_new hz))
  case neg => exact ho e i (ha.containerOf he ▸ hi)

theorem Added.has (hl : ∀ e ∈ l, e < s.elems.size) (hh : ∀ e ∈ l, s.containerOf e = some e)
    (e : ElemId) (he : e ∈ l ++ [s.elems.size]) : s'.containerOf e = some e := by
  cases List.mem_append.mp he
  case inl he => exact (ha.containerOf (ne_of_lt (hl e he))).trans (hh e he)
  case inr he => exact List.mem_singleton.mp he ▸ ha.containerOf_new hz

end Pairs

-- The parts of the state that a step can leave alone: everything but the links, the pool's pointers
-- and the channels.
structure SameFlows (s s' : State) : Prop where
  connOf       : s'.connOf = s.connOf
  portsOf      : s'.portsOf = s.portsOf
  containerOf  : s'.containerOf = s.containerOf
  containers   : s'.containers = s.containers
  crc2conn     : s'.crc2conn = s.crc2conn
  crcContainer : s'.crcContainer = s.crcContainer
  watchers     : s'.watchers = s.watchers

theorem SameFlows.trans (h₁ : SameFlows s s₁) (h₂ : SameFlows s₁ s₂) : SameFlows s s₂ where
  connOf       := h₂.connOf.trans h₁.connOf
  portsOf      := h₂.portsOf.trans h₁.portsOf
  containerOf  := h₂.containerOf.trans h₁.containerOf
  containers   := h₂.containers.trans h₁.containers
  crc2conn     := h₂.crc2conn.trans h₁.crc2conn
  crcContainer := h₂.crcContainer.trans h₁.crcContainer
  watchers     := h₂.watchers.trans h₁.watchers

theorem SameFlows.of_data (hd : s'.data = s.data) (hc : s'.containers = s.containers)
    (h₁ : s'.crc2conn = s.crc2conn) (h₂ : s'.crcContainer = s.crcContainer)
    (hw : s'.watchers = s.watchers) : SameFlows s s' where
  connOf       := by simp [State.connOf, hd, funext_iff]
  portsOf      := by simp [State.portsOf, hd, funext_iff]
  containerOf  := by simp [State.containerOf, hd, funext_iff]
  containers   := hc
  crc2conn     := h₁
  crcContainer := h₂
  watchers     := hw

theorem Unlinked.data (h : Unlinked s ce s' true) : s'.data = s.data := by
  cases h
  case only  => rfl
  case inner => exact (data_setPrev ..).trans (data_setNext ..)

theorem Unlinked.sameFlows (h : Unlinked s ce s' true) : SameFlows s s' := by
  have hd := h.data
  cases h <;> exact .of_data hd rfl rfl rfl rfl

theorem clear_sameFlows (h : s.clear ce = .ok s') : SameFlows s s' := by
  have ⟨_, _, _, hs⟩ := clear_inv h
  subst hs
  constructor
  case connOf      => exact connOf_modifyElem fun _ => rfl
  case portsOf     => exact portsOf_modifyElem fun _ => rfl
  case containerOf => exact containerOf_modifyElem fun _ => rfl
  all_goals rfl

theorem mem_portsOf_addCrc (he : s.elems.load p = some e) :
    (crc' ∈ (s.addCrc p crc).portsOf q) ↔ (crc' ∈ s.portsOf q ∨ (q = p ∧ crc' = crc)) :=
  mem_portsOf_modifyElem (P := (· = crc)) he fun c => by simp [or_comm]

theorem mem_portsOf_assigned (he : s.elems.load p = some e) :
    (crc' ∈ (s.assigned crc p e i).portsOf q) ↔ (crc' ∈ s.portsOf q ∨ (q = p ∧ crc' = crc)) :=
  mem_portsOf_addCrc he

theorem connOf_assigned : (s.assigned crc p e i).connOf = s.connOf :=
  connOf_modifyElem fun _ => rfl

theorem containerOf_assigned : (s.assigned crc p e i).containerOf = s.containerOf :=
  containerOf_modifyElem fun _ => rfl

theorem mem_foldl_insert {ps qs : List Crc} :
    (crc ∈ qs.foldl (fun ps p => ps.insert p) ps) ↔ (crc ∈ ps ∨ crc ∈ qs) := by
  induction qs generalizing ps
  case nil          => simp
  case cons q qs hi => simp [hi, or_assoc, or_left_comm]

theorem mem_portsOf_merge {ports : List Crc} (he : s.elems.load p = some e) :
    (crc ∈ (s.merge p ports).portsOf q) ↔ (crc ∈ s.portsOf q ∨ (q = p ∧ crc ∈ ports)) :=
  mem_portsOf_modifyElem he fun _ => mem_foldl_insert

theorem remap_eq (h : s.remap ce rCe ports = .ok s') :
    ∃ cs, s' = { s with
      containers := cs
      crc2conn   := fun crc => if crc ∈ ports then some (s.connOf rCe) else s.crc2conn crc
      watchers   := s.watchers ++ ports.map fun port => ⟨port, rCe, .delete ce, deleteTimeout⟩ } := by
  by_cases hp : ports = []
  case pos =>
    subst hp
    cases h
    exact ⟨s.containers, by simp⟩
  case neg =>
    have ⟨_, _, _, hr, _, _, hs⟩ := remap_inv h hp
    exact ⟨_, by rw [hs, remapped, connOf_eq hr]⟩

theorem HandedOver.connOf (h : HandedOver s ce s' rCe) : s'.connOf = s.connOf := by
  cases h <;> exact connOf_modifyElem fun _ => rfl

theorem HandedOver.mem_portsOf (h : HandedOver s ce s' rCe) (hp : crc ∈ s.portsOf q) :
    crc ∈ s'.portsOf q := by
  cases h
  case idle =>
    rw [portsOf_modifyElem]
    · exact hp
    · exact fun _ => rfl
  case moved hr _ _ => exact (mem_portsOf_merge hr).mpr (.inl hp)

end Data

section Live

def liveAfter (s : State) (l : List ElemId) : Op → List ElemId
  | .add ..    => l ++ [s.elems.size]
  | .delete ce => l.erase ce
  | _          => l

-- The element that `Next` returns to a `Delete` of `ce`.
def replacement (s : State) (ce : ElemId) : Option ElemId :=
  if s.currElem = some ce
  then s.nextOf ce
  else s.currElem

theorem Unlinked.currElem (h : Unlinked s ce s' true) : s'.currElem = s.replacement ce := by
  cases h
  case only e he hn =>
    simp only [replacement, nextOf_eq he, hn]
    split
    case isTrue hc => exact hc
    case isFalse   => rfl
  case inner e p n e' he _ _ hn he' =>
    -- The links of `ce` itself are only overwritten with its own successor.
    have hn' : e'.next = some n := by
      simp only [setPrev, setNext, load_modifyElem] at he'
      split at he' <;> split at he' <;> simp_all
      all_goals cases he'; rfl
    simp only [replacement, nextOf_eq he, hn, hn']

namespace Refines

theorem live_add (h : Refines s evs r) :
    live (evs ++ [.add s.elems.size]) = live evs ++ [s.elems.size] :=
  live_concat_add fun hd => lt_irrefl _ <| (h.elems _).mp (h.history.deleted_subset _ hd)

theorem live_nexts {es : List ElemId} : live (evs ++ es.map .next) = live evs := by
  induction es using List.reverseRecOn
  case nil                    => simp
  case append_singleton es e hi =>
    rw [List.map_append, ← List.append_assoc]
    exact live_concat_next.trans hi

theorem live_nodup (h : Refines s evs r) : (live evs).Nodup :=
  RoundRobin.live_nodup h.history.added_nodup

theorem live_delete (h : Refines s evs r) {es : List ElemId} :
    live (evs ++ .delete ce :: es.map .next) = (live evs).erase ce := by
  rw [List.append_cons, live_nexts]
  exact live_concat_delete h.live_nodup

theorem lt_size (h : Refines s evs r) (he : p ∈ live evs) : p < s.elems.size :=
  (h.elems p).mp (mem_live_iff.mp he).left

theorem live_step (h : Refines s evs r) (hs : Stepped s op tr s') :
    live (evs ++ tr) = s.liveAfter (live evs) op := by
  cases hs
  case add         => exact h.live_add
  case next        => exact live_concat_next
  case get         => exact live_nexts
  case delete      => exact h.live_delete
  case deleteAgain => exact live_concat_delete h.live_nodup
  all_goals exact congrArg live (List.append_nil evs)

theorem cursor_mem (h : Refines s evs r) (hl : live evs ≠ []) (hc : s.currElem = some p) :
    p ∈ live evs := by
  rw [← h.history.order_eq] at *
  have ⟨c, hm, hc'⟩ := (h.represents.wellLinked hl).cursor
  cases hc.symm.trans hc'
  exact hm

theorem mem_live_of_unlinked (h : Refines s evs r) (hu : Unlinked s ce s₁ true)
    (hc : s₁.clear ce = .ok s₂) : ce ∈ live evs :=
  h.history.order_eq ▸ (h.cleared hu hc).left

theorem not_mem_live_of_gone (h : Refines s evs r) (hu : Unlinked s ce s' false) : ce ∉ live evs := by
  rw [← h.history.order_eq]
  exact fun hm => Bool.noConfusion (h.represents.unlink hm hu).left

theorem isAlive_iff (h : Refines s evs r) : s.isAlive p ↔ p ∈ live evs := by
  rw [← h.history.order_eq, isAlive]
  constructor
  case mp =>
    intro ha
    by_contra hm
    simp [(h.represents.gone p hm (Set.notMem_empty p)).right] at ha
  case mpr =>
    intro hm
    have ⟨_, _, hp⟩ := h.represents.ring.prev_mem hm
    simp [hp.right]

theorem cursor_cleared (h : Refines s evs r) (hu : Unlinked s ce s₁ true)
    (hc : s₁.clear ce = .ok s₂) (hl : (live evs).erase ce = []) :
    s.nextOf ce = some ce ∧ s₂.currElem = some ce := by
  have hm := h.mem_live_of_unlinked hu hc
  have ho : r.order = [ce] := by
    rw [h.history.order_eq]
    exact (List.erase_eq_nil_iff.mp hl).resolve_left (List.ne_nil_of_mem hm)
  have hn : s.nextOf ce = some ce :=
    (h.represents.ring.next_eq_self_iff (by simp [ho])).mpr ho
  have hcur : s.currElem = some ce := by
    have ⟨c, hm, hc⟩ := (h.represents.wellLinked (by simp [ho])).cursor
    simp_all
  refine ⟨hn, ?_⟩
  have ⟨e₁, he₁, hs₁, hs⟩ := clear_inv hc
  subst hs
  cases hu
  case only               => exact hcur
  case inner he hne _ _ _ => exact absurd ((nextOf_eq he).symm.trans hn) hne

end Refines
end Live
end State
end Pool
