import GatewayModel.Pool.Concurrent.Ageing
import GatewayModel.Pool.Concurrent.Spared

open Go Execution RoundRobin

-- What keeps the concurrent calls from panicking.
namespace Pool.Concurrent.Threads

variable {t t' : Threads} {s : State} {r : Rotation ElemId} {op : Op} {evs : List Event} {c : Call}
  {d : Deletion} {e : ElemId}

section Known

def Ready (t : Threads) (c : Call) : Prop :=
  0 < t.pool.elems.size ∧ match c.pc with
    | .touch l | .check l       => ∀ p, (l.container = some p) → ∃ i < t.pool.elems.size, p = some i
    | .addCrc cpe               => cpe < t.pool.elems.size
    | .assign cpe               => cpe < t.pool.elems.size ∧ c.crc ∈ t.pool.portsOf cpe
    | .inc cpe _ | .watch cpe _ => c.crc ∈ t.pool.portsOf cpe
    | .lookup | .next | .done .. => True

structure Known (t : Threads) : Prop where
  entries : ∀ crc p, (t.pool.crcContainer crc = some p) → ∃ i < t.pool.elems.size, p = some i
  calls   : ∀ c ∈ t.gets, t.Ready c

theorem Ready.mono (h : t.Ready c) (hg : Grows t.pool t'.pool) : t'.Ready c := by
  refine ⟨lt_of_lt_of_le h.left hg.size, ?_⟩
  have hr := h.right
  have hlt : ∀ {p : Option ContainerId}, (∃ i < t.pool.elems.size, p = some i) →
      ∃ i < t'.pool.elems.size, p = some i :=
    fun ⟨i, hi, hp⟩ => ⟨i, lt_of_lt_of_le hi hg.size, hp⟩
  cases hpc : c.pc <;> simp only [hpc] at hr ⊢
  case touch | check => exact fun p hp => hlt (hr p hp)
  case addCrc        => exact lt_of_lt_of_le hr hg.size
  case assign        => exact ⟨lt_of_lt_of_le hr.left hg.size, hg.ports _ hr.right⟩
  case inc | watch   => exact hg.ports _ hr

namespace Known

theorem init {age : Int} : Known (.init age) where
  entries := by simp [Threads.init, State.init, Map.empty]
  calls   := by simp [Threads.init]

theorem mono (h : Known t) (hg : Grows t.pool t'.pool)
    (he : ∀ crc p, (t'.pool.crcContainer crc = some p) → t.pool.crcContainer crc = some p)
    (hc : ∀ c ∈ t'.gets, (c ∈ t.gets) ∨ t'.Ready c) : Known t' where
  entries crc p hp := by
    obtain ⟨i, hi, hp⟩ := h.entries crc p (he crc p hp)
    exact ⟨i, lt_of_lt_of_le hi hg.size, hp⟩
  calls c hm := (hc c hm).elim (fun hm => (h.calls c hm).mono hg) id

theorem runGet (h : Known t) (hs : Sound t.pool) (hf : t.Fitted) (hsp : Spared t)
    (hi : t.gets[i]? = some c) (hb : block t.pool c.crc c.pc = .ok (s, pc)) :
    Known { t with pool := s, gets := t.gets.set i { c with pc := pc } } := by
  have hm := List.mem_of_getElem? hi
  obtain ⟨h₀, hr⟩ := h.calls c hm
  have hb := block_inv hb
  have hg := Grows.of_block hb
  generalize hpc : c.pc = pc₀ at hb hr
  have hset : ∀ c' ∈ t.gets.set i { c with pc := pc }, (c' ∈ t.gets) ∨ c' = { c with pc := pc } :=
    fun c' hc' => List.mem_or_eq_of_mem_set hc'
  cases hb
  case assign cpe x hx =>
    have hh : t.Holds cpe := .inl ⟨c, hm, by simp [hpc, Pc.holds]⟩
    obtain ⟨_, _, hx', hc, _⟩ := exists_container hs hf hr.left fun hst => hsp.held cpe hst hh
    cases hx.symm.trans hx'
    constructor
    case entries =>
      intro crc p hp
      simp only [State.assign, Map.set_apply] at hp
      split at hp
      case isTrue  => exact ⟨cpe, hr.left, (Option.some.inj hp).symm.trans hc⟩
      case isFalse => exact h.entries crc p hp
    case calls =>
      intro c' hc'
      rcases hset c' hc' with hc' | rfl
      case inl => exact (h.calls c' hc').mono hg
      case inr => exact ⟨h₀, hr.right⟩
  all_goals
    refine h.mono hg (fun _ _ => id) fun c' hc' => (hset c' hc').imp_right ?_
    rintro rfl
  case lookup      => exact ⟨h₀, h.entries c.crc⟩
  case touch       => exact ⟨h₀, hr⟩
  case hit | miss | done | watch => exact ⟨h₀, trivial⟩
  case next hx     => exact ⟨h₀, Heap.lt_size_of_load hx⟩
  case addCrc cpe =>
    obtain ⟨x, hx⟩ := Heap.exists_load hr
    refine ⟨lt_of_lt_of_le h₀ hg.size, lt_of_lt_of_le hr hg.size, ?_⟩
    exact (State.mem_portsOf_addCrc hx).mpr (.inr ⟨rfl, rfl⟩)
  case inc         => exact ⟨h₀, hr⟩

theorem crcContainer_deleteBlock {pc pc' : DeletePc} {s s' : State}
    (h : DeleteBlocked s ce pc s' pc') : s'.crcContainer = s.crcContainer := by
  cases h
  case unlink hu => cases hu <;> rfl
  case gone hu =>
    cases hu
    rfl
  case clear hc =>
    obtain ⟨_, _, _, rfl⟩ := State.clear_inv hc
    rfl
  case next hn =>
    obtain ⟨_, _, _, rfl⟩ := State.next_inv hn
    rfl
  case remap hm =>
    obtain ⟨_, rfl⟩ := State.remap_eq hm
    rfl
  all_goals rfl

theorem step (h : Known t) (hs : Sound t.pool) (hf : t.Fitted) (hsp : Spared t)
    (hst : Stepped t op t' evs) (hg : t.Founded op) : Known t' := by
  have hgr := hst.grows
  cases hst
  case get crc =>
    refine h.mono hgr (fun _ _ => id) fun c hc => (List.mem_append.mp hc).imp_right fun hc => ?_
    cases List.mem_singleton.mp hc
    exact ⟨hg, trivial⟩
  case add ha =>
    refine h.mono hgr (fun crc p hp => ?_) fun _ => .inl
    cases ha <;> exact hp
  case runGet hi hb => exact h.runGet hs hf hsp hi hb
  case runDelete hb =>
    exact h.mono hgr (fun _ _ hp => crcContainer_deleteBlock hb ▸ hp) fun _ => .inl
  case remove x _ =>
    refine h.mono hgr (fun crc p hp => ?_) fun _ => .inl
    cases ho : x.watcher.origin <;> simp only [State.forget, ho] at hp
    case get      => exact (Map.delete_eq_some.mp hp).right
    case delete _ => exact hp
  all_goals exact h.mono hgr (fun _ _ => id) fun _ => .inl

end Known
end Known

section Served

-- The flow of a watcher is recorded at its element, and a watcher that `Delete` has started can reach
-- the flow table.
def Serves (t : Threads) (w : Watcher) : Prop :=
  t.Recorded w.crc w.elem ∧ ∀ ce, (w.origin = .delete ce) → ce < t.pool.elems.size

structure Served (t : Threads) : Prop where
  watchers : ∀ w ∈ t.pool.watchers, t.Serves w
  expiring : ∀ x ∈ t.expiring, t.Serves x.watcher

theorem Serves.step (h : t.Serves w) (hx : t.Existing) (hs : Stepped t op t' evs) : t'.Serves w :=
  ⟨h.left.step hx hs, fun ce hce => lt_of_lt_of_le (h.right ce hce) hs.grows.size⟩

namespace Served

theorem init {age : Int} : Served (.init age) where
  watchers := by simp [Threads.init, State.init]
  expiring := by simp [Threads.init]

theorem mono (h : Served t) (hx : t.Existing) (hs : Stepped t op t' evs)
    (hw : ∀ w ∈ t'.pool.watchers, (w ∈ t.pool.watchers) ∨ t'.Serves w)
    (he : ∀ x ∈ t'.expiring, ∃ y ∈ t.expiring, y.watcher = x.watcher) : Served t' where
  watchers w hm := (hw w hm).elim (fun hm => (h.watchers w hm).step hx hs) id
  expiring x hm := by
    obtain ⟨y, hy, hyx⟩ := he x hm
    exact hyx ▸ (h.expiring y hy).step hx hs

theorem runGet (h : Served t) (hx : t.Existing) (hk : Known t) (hi : t.gets[i]? = some c)
    (hb : block t.pool c.crc c.pc = .ok (s, pc)) :
    Served { t with pool := s, gets := t.gets.set i { c with pc := pc } } := by
  have hs : Stepped t (.runGet i) _ _ := .runGet hi hb
  refine h.mono hx hs (fun w hw => ?_) fun x hm => ⟨x, hm, rfl⟩
  have hr := (hk.calls c (List.mem_of_getElem? hi)).right
  generalize hpc : c.pc = pc₀ at hb hr
  cases block_ran hb
  case watch =>
    rcases List.mem_append.mp hw with hw | hw
    case inl => exact .inl hw
    case inr =>
      cases List.mem_singleton.mp hw
      exact .inr ⟨.inl hr, nofun⟩
  case quiet => exact .inl (‹Quiet t.pool s›.watchers ▸ hw)
  all_goals exact .inl hw

theorem runDelete (h : Served t) (hx : t.Existing) (hi : t.deletes[i]? = some d)
    (hb : DeleteBlocked t.pool d.ce d.pc s pc) :
    Served { t with pool := s, deletes := t.deletes.set i { d with pc := pc } } := by
  have hm := List.mem_of_getElem? hi
  have hs : Stepped t (.runDelete i) _ _ := .runDelete hi hb
  refine h.mono hx hs (fun w hw => ?_) fun x hm => ⟨x, hm, rfl⟩
  generalize hpc : d.pc = pc₀ at hb
  cases hb
  case unlink hu => exact .inl (hu.sameFlows.watchers ▸ hw)
  case gone hu =>
    cases hu
    exact .inl hw
  case clear hc => exact .inl ((State.clear_sameFlows hc).watchers ▸ hw)
  case next hn =>
    obtain ⟨_, _, _, rfl⟩ := State.next_inv hn
    exact .inl hw
  case remap x rCe he hr =>
    obtain ⟨_, rfl⟩ := State.remap_eq hr
    refine (List.mem_append.mp hw).imp_right fun hw => ?_
    obtain ⟨port, hp, rfl⟩ := List.mem_map.mp hw
    refine ⟨.inr ⟨_, List.mem_set (List.getElem?_eq_some_iff.mp hi).1 _, rfl, ?_⟩, fun ce hce => ?_⟩
    case refine_1 => exact (State.portsOf_eq he).symm ▸ hp
    case refine_2 =>
      cases hce
      exact (hx d hm).left
  all_goals exact .inl hw

theorem step (h : Served t) (hx : t.Existing) (hk : Known t) (hs : Stepped t op t' evs) :
    Served t' := by
  have hst := hs
  cases hs
  case add ha =>
    refine h.mono hx hst (fun w hw => .inl ?_) fun x hm => ⟨x, hm, rfl⟩
    cases ha <;> exact hw
  case runGet hi hb    => exact h.runGet hx hk hi hb
  case runDelete hi hb => exact h.runDelete hx hi hb
  case check i w hi _ =>
    constructor
    case watchers => exact fun v hv => (h.watchers v (List.mem_of_mem_eraseIdx hv)).step hx hst
    case expiring =>
      intro x hm
      rcases List.mem_append.mp hm with hm | hm
      case inl => exact (h.expiring x hm).step hx hst
      case inr =>
        cases List.mem_singleton.mp hm
        exact (h.watchers w (List.mem_of_getElem? hi)).step hx hst
  case count hi =>
    refine h.mono hx hst (fun _ => .inl) fun y hm => ?_
    rcases List.mem_or_eq_of_mem_set hm with hm | rfl
    case inl => exact ⟨y, hm, rfl⟩
    case inr => exact ⟨_, List.mem_of_getElem? hi, rfl⟩
  case remove =>
    refine h.mono hx hst (fun w hw => .inl ?_) fun y hm => ⟨y, List.mem_of_mem_eraseIdx hm, rfl⟩
    exact State.watchers_forget _ ▸ hw
  case stop =>
    exact h.mono hx hst (fun w hw => .inl (List.mem_of_mem_eraseIdx hw)) fun x hm => ⟨x, hm, rfl⟩
  all_goals exact h.mono hx hst (fun _ => .inl) fun x hm => ⟨x, hm, rfl⟩

end Served
end Served

section Addressed

def Addressed (cs : Heap Container) : Prop :=
  ∀ i c, (cs.load i = some c) → c.addr ≠ none

theorem Addressed.modify {cs : Heap Container} {f : Container → Container} (h : Addressed cs)
    (hf : ∀ c, (f c).addr = c.addr) : Addressed (cs.modify i f) := by
  intro j c hc
  rw [Heap.load_modify] at hc
  split at hc
  case isFalse => exact h j c hc
  case isTrue  =>
    obtain ⟨c', hc', rfl⟩ := Option.map_eq_some_iff.mp hc
    exact hf c' ▸ h j c' hc'

theorem addr_decFluxes {c : Container} : c.decFluxes.addr = c.addr := by
  unfold Container.decFluxes
  split <;> rfl

theorem Addressed.ran {pc pc' : Pc} {s s' : State} (h : Addressed s.containers)
    (hr : Ran s crc pc s' pc') : Addressed s'.containers := by
  cases hr
  case inc   => exact h.modify fun _ => rfl
  case quiet => exact ‹Quiet s s'›.containers ▸ h
  all_goals exact h

theorem Addressed.deleteRan {pc pc' : DeletePc} {s s' : State} (h : Addressed s.containers)
    (hr : DeleteRan s ce pc s' pc') : Addressed s'.containers := by
  cases hr
  case clear hq _ => exact hq.containers ▸ h
  case quiet hq _ => exact hq.containers ▸ h
  case remap x rCe hx hm =>
    by_cases hp : x.ports = []
    case pos =>
      rw [hp] at hm
      cases hm
      exact h
    case neg =>
      obtain ⟨_, _, _, _, _, _, rfl⟩ := State.remap_inv hm hp
      exact h.modify fun c => by rw [Container.incFluxes_iterate]

theorem Addressed.step (h : Addressed t.pool.containers) (hst : Steady t)
    (hs : t.step op = .ok (t', evs)) (hg : t.Founded op) : Addressed t'.pool.containers := by
  cases op
  case add dialed addr id repl maxFluxes =>
    simp only [Threads.step, bind_eq_ok, pure_eq_ok, Prod.mk.injEq] at hs
    obtain ⟨s, ha, rfl, _⟩ := hs
    have hc : s.containers = t.pool.containers.alloc ⟨addr, 0, id, repl, maxFluxes⟩ := by
      cases State.add_inv ha <;> rfl
    intro i c hl
    rw [hc, Heap.load_alloc] at hl
    split at hl
    case isTrue =>
      cases hl
      exact hg.right
    case isFalse => exact h i c hl
  all_goals cases hst.acted hs
  case runGet hr _    => exact h.ran hr
  case runDelete hr _ => exact h.deleteRan hr
  case count  => exact h.modify fun _ => addr_decFluxes
  case remove w _ =>
    rw [State.containers_forget]
    exact h
  all_goals exact h

theorem Stepped.fluxMaxAge (h : Stepped t op t' evs) : t'.pool.fluxMaxAge = t.pool.fluxMaxAge := by
  cases h
  case add ha => cases ha <;> rfl
  case runGet c s pc _ hb =>
    generalize c.pc = pc₀ at hb
    cases block_inv hb <;> rfl
  case remove x _ => cases ho : x.watcher.origin <;> simp only [State.forget, ho]
  case runDelete hb => exact hb.sameTimes.fluxMaxAge
  all_goals rfl

end Addressed

structure Secure (t : Threads) : Prop where
  linked     : ∃ r, Linked t r
  steady     : Steady t
  existing   : t.Existing
  fitted     : t.Fitted
  spared     : Spared t
  known      : Known t
  served     : Served t
  addressed  : Addressed t.pool.containers
  fluxMaxAge : 0 < t.pool.fluxMaxAge

namespace Secure

theorem init {age : Int} (h : 0 < age) : Secure (.init age) where
  linked     := ⟨_, .init⟩
  steady     := .init
  existing   := by simp [Existing, Threads.init]
  fitted     := by simp [Fitted, Threads.init, State.init]
  spared     := .init
  known      := .init
  served     := .init
  addressed  := by simp [Addressed, Threads.init, State.init]
  fluxMaxAge := h

theorem step (h : Secure t) (hs : t.step op = .ok (t', evs)) (hg : t.Cautious op) : Secure t' := by
  obtain ⟨r, hl⟩ := h.linked
  have hsep := hg.left
  have hf := hg.right.right
  have hst := step_inv hs
  constructor
  case linked     => exact hl.step hst hsep
  case steady     => exact h.steady.step (h.steady.acted hs)
  case existing   => exact h.existing.step hst hf
  case fitted     => exact h.fitted.step hl hst hsep hf
  case spared     => exact h.spared.step hl h.fitted hst hg
  case known      => exact h.known.step h.steady.sound h.fitted h.spared hst hf
  case served     => exact h.served.step h.existing h.known hst
  case addressed  => exact h.addressed.step h.steady hs hf
  case fluxMaxAge => exact hst.fluxMaxAge ▸ h.fluxMaxAge

section Gets

end Gets

section Deletes

end Deletes

section Watchers

end Watchers

end Secure

end Pool.Concurrent.Threads
