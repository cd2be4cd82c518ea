import GatewayModel.Cnt.Theorems.Requests
import GatewayModel.Pool.Theorems.Safety

open Go Execution RoundRobin Pool

namespace Pool.State

variable {s s' : State} {r : Rotation ElemId} {evs : Trace} {e : ElemId} {i : ContainerId}

def tagOf (s : State) (i : ContainerId) : Option (UInt16 × Bool) :=
  (s.containers.load i).map fun c => (c.id, c.repl)

theorem tagOf_modify {f : Container → Container} (hs : s'.containers = s.containers.modify j f)
    (hf : ∀ c, (f c).id = c.id ∧ (f c).repl = c.repl) : s'.tagOf i = s.tagOf i := by
  simp only [tagOf, hs, Heap.load_modify]
  split
  case isFalse => rfl
  case isTrue  => cases s.containers.load i <;> simp [hf]

theorem decFluxes_tag {c : Container} : c.decFluxes.id = c.id ∧ c.decFluxes.repl = c.repl := by
  unfold Container.decFluxes
  split <;> exact ⟨rfl, rfl⟩

theorem tagOf_step (hs : Stepped s op tr s') (ht : s.tagOf i = some t) : s'.tagOf i = some t := by
  cases hs
  case add c _ ha =>
    have hcs : s'.containers = s.containers.alloc c := by cases ha <;> rfl
    have ⟨_, hl, _⟩ := Option.map_eq_some_iff.mp ht
    rw [tagOf, hcs, Heap.load_alloc_of_lt (Heap.lt_size_of_load hl)]
    exact ht
  case next hn =>
    have ⟨_, _, _, hs⟩ := next_inv hn
    exact hs ▸ ht
  case get hg =>
    cases hg
    case fast => exact ht
    case slow =>
      have hf : ∀ c : Container, c.incFluxes.id = c.id ∧ c.incFluxes.repl = c.repl :=
        fun _ => ⟨rfl, rfl⟩
      exact (tagOf_modify rfl hf).trans ht
  case delete hu hc ho =>
    have hf := hu.sameFlows.trans (clear_sameFlows hc)
    rw [tagOf, ← hf.containers] at ht
    cases ho
    case idle  => exact ht
    case moved =>
      refine (tagOf_modify rfl fun c => ?_).trans ht
      rw [Container.incFluxes_iterate]
      exact ⟨rfl, rfl⟩
  case deleteAgain hu => cases hu; exact ht
  case tick hk =>
    cases hk
    case idle    => exact ht
    case expired => exact (tagOf_modify rfl fun _ => decFluxes_tag).trans ht
  case stop hk =>
    cases hk
    case inl hs => exact hs ▸ ht
    case inr hs => exact hs ▸ ht
  case wait => exact ht

theorem tagOf_add (hs : Stepped s (.add conn addr cntId repl m) tr s') :
    s'.tagOf s.containers.size = some (cntId, repl) := by
  cases hs
  case add c hc ha =>
    have hcs : s'.containers = s.containers.alloc c := by cases ha <;> rfl
    simp [tagOf, hcs, hc]

theorem alive_step (hr : Refines s evs r) (hi : Intact s (live evs)) (hs : Stepped s op tr s')
    (ha : s'.isAlive e) (ht : s'.tagOf e = some t) :
    (s.isAlive e ∧ s.tagOf e = some t ∧ op ≠ .delete e) ∨
    (e = s.elems.size ∧ ∃ conn addr cntId repl m, op = .add conn addr cntId repl m) := by
  have ⟨r', hr'⟩ := hr.step hs
  have hm := hr'.isAlive_iff.mp ha
  rw [hr.live_step hs] at hm
  have hold : (e ∈ live evs) → s.isAlive e ∧ s.tagOf e = some t := by
    intro hm
    have ⟨c, hc⟩ := Heap.exists_load (hi.size.symm ▸ hr.lt_size hm)
    have hc' : s.tagOf e = some (c.id, c.repl) := by simp [tagOf, hc]
    exact ⟨hr.isAlive_iff.mpr hm, hc'.trans ((tagOf_step hs hc').symm.trans ht)⟩
  cases op
  case add =>
    cases List.mem_append.mp hm
    case inl hm =>
      have ⟨h₁, h₂⟩ := hold hm
      exact .inl ⟨h₁, h₂, by simp⟩
    case inr hm => exact .inr ⟨List.mem_singleton.mp hm, _, _, _, _, _, rfl⟩
  case delete ce =>
    have ⟨hne, hm⟩ := hr.live_nodup.mem_erase_iff.mp hm
    have ⟨h₁, h₂⟩ := hold hm
    refine .inl ⟨h₁, h₂, fun hc => hne ?_⟩
    cases hc
    rfl
  all_goals
    have ⟨h₁, h₂⟩ := hold hm
    exact .inl ⟨h₁, h₂, by simp⟩

theorem isRepl_of_tag (hr : Refines s evs r) (hi : Intact s (live evs)) (ha : s.isAlive e)
    (ht : s.tagOf e = some (cntId, repl)) : s.isRepl e = .ok repl := by
  have hm := hr.isAlive_iff.mp ha
  have ⟨el, hl⟩ := Heap.exists_load (hr.lt_size hm)
  have hc : el.container = some e := (containerOf_eq hl).symm.trans (hi.has e hm)
  have ⟨c, hcl, hct⟩ := Option.map_eq_some_iff.mp ht
  cases hct
  simp [State.isRepl, elem, hl, container, hc, hcl, bind, Except.bind, pure, Except.pure]

end Pool.State

namespace Cnt

def Pc.deletes (pc : Pc) (e : ElemId) : Bool :=
  match pc with
  | .deleting connElem _ _ => connElem = e
  | _                      => false

theorem Pc.deletes_iff {pc : Pc} {e : ElemId} :
    (pc.deletes e = true) ↔ (∃ container cntLst, pc = .deleting e container cntLst) := by
  cases pc <;> simp [deletes]

namespace Sys

variable {p : Provisioner} {s s' : Sys} {e : ElemId} {cs : Calls} {r : Rotation ElemId}
variable {evs : Trace}

def isDeleting (s : Sys) (e : ElemId) : Bool :=
  s.instances.any (·.pc.deletes e)

-- The element belongs to a live container that is not a replica, and no goroutine is about to delete
-- it.
def inUse (s : Sys) (e : ElemId) : Bool :=
  s.registry.pool.isAlive e ∧ s.registry.pool.isRepl e = .ok false ∧ s.isDeleting e = false

def entered (s : Sys) : Op → Option UInt16
  | .addConnElem i => s.handlers[i]?.map (·.cntId)
  | _              => none

-- A container does not register with a random id under which an element that is in use is found.
def RegistersUnused (s : Sys) (op : Op) : Prop :=
  ((s.entered op).bind s.c2e.get).any s.inUse = false

-- The loop does not drop an id under which an element that is in use is found, as it does if
-- `AddInstance` has not been called yet.
def DropsUnused (s : Sys) (op : Op) : Prop :=
  ((s.dropped op).bind s.c2e.get).any s.inUse = false

def KeepsInUse (s : Sys) (op : Op) : Prop :=
  s.RegistersUnused op ∧ s.DropsUnused op

instance {s : Sys} {op : Op} : Decidable (s.KeepsInUse op) :=
  inferInstanceAs (Decidable (((s.entered op).bind s.c2e.get).any s.inUse = false ∧
    ((s.dropped op).bind s.c2e.get).any s.inUse = false))

structure Kept (s : Sys) : Prop where
  handlers : ∀ h ∈ s.handlers, ∃ repl, s.registry.pool.tagOf h.connElem = some (h.cntId, repl)
  entries  : ∀ e cntId, (s.registry.pool.isAlive e) →
             (s.registry.pool.tagOf e = some (cntId, false)) →
             (∃ h ∈ s.handlers, h.connElem = e) ∨ s.c2e.get cntId = some e ∨ s.isDeleting e

theorem Stepped.pool_inv (h : Stepped s op s' cs) :
    (s'.registry.pool = s.registry.pool ∧ ∀ pop tr, cs ≠ [(.pool pop, tr)]) ∨
    (∃ pop tr, cs = [(.pool pop, tr)] ∧ State.Stepped s.registry.pool pop tr s'.registry.pool) := by
  cases h
  case traffic hg | register hg | timerDelete hg | delete hg =>
    exact .inr ⟨_, _, rfl, Registry.step_pool_inv hg⟩
  case timerFire hg | removeContainer hg =>
    have ⟨_, _, hg, _⟩ := Registry.step_removeContainer_inv hg
    exact .inl ⟨hg ▸ rfl, by simp⟩
  all_goals exact .inl ⟨rfl, by simp⟩

theorem Stepped.delete_inv (h : Stepped s (.worker i .proceed) s' cs)
    (hl : s.instances.load i = some inst) (hpc : inst.pc = .deleting e container cntLst) :
    ∃ tr, cs = [(.pool (.delete e), tr)] := by
  have hat : ∀ {inst₁ pc}, (s.instances.load i = some inst₁) → (inst₁.pc = pc) →
      pc = .deleting e container cntLst := by
    intro inst₁ pc hl₁ hpc₁
    cases hl.symm.trans hl₁
    exact hpc₁.symm.trans hpc
  cases h
  case delete hpc₁ _ hl₁ =>
    cases hat hl₁ hpc₁
    exact ⟨_, rfl⟩
  case move hl₁ hm =>
    cases hm
    case created hpc₁ => cases hat hl₁ hpc₁
  case addInstance hpc₁ _ hl₁ | removeInstance hpc₁ _ hl₁ | getConnElem hpc₁ _ hl₁ |
      removeNil hpc₁ hl₁ | removeContainer hpc₁ _ hl₁ =>
    cases hat hl₁ hpc₁

theorem Stepped.isDeleting (h : Stepped s op s' cs) (hd : s.isDeleting e) :
    s'.isDeleting e ∨ ∃ tr, cs = [(.pool (.delete e), tr)] := by
  have ⟨j, inst, hl, hde⟩ := Heap.any_eq_true.mp hd
  have ⟨container, cntLst, hpc⟩ := Pc.deletes_iff.mp hde
  have ⟨inst', hl', ha⟩ := h.advances hl
  have hkeep : (inst'.pc = inst.pc) → s'.isDeleting e := fun hpc' =>
    Heap.any_eq_true.mpr ⟨j, inst', hl', hpc' ▸ hde⟩
  cases ha
  case none | requested => exact .inl (hkeep rfl)
  case deleted          => exact .inr (h.delete_inv hl hpc)
  case move hm =>
    cases hm
    case ignore => exact .inl (hkeep rfl)
    case create hpc' | created hpc' | tick hpc' | receive hpc' _ _ => simp [hpc] at hpc'
  case added hpc' | removed hpc' | found hpc' | unlisted hpc' => simp [hpc] at hpc'

namespace Kept

theorem init {age : Int} : Kept (.init p age) where
  handlers := by simp [Sys.init]
  entries  := by simp [Sys.init, Registry.init, State.init, State.isAlive, State.prevOf]

theorem tagOf (hs : Stepped s op s' cs) (ht : s.registry.pool.tagOf i = some t) :
    s'.registry.pool.tagOf i = some t := by
  cases hs.pool_inv
  case inl hp => exact hp.left ▸ ht
  case inr hp =>
    have ⟨_, _, _, hp⟩ := hp
    exact State.tagOf_step hp ht

theorem step_handlers (h : Kept s) (hi : State.Intact s.registry.pool l) (hs : Stepped s op s' cs) :
    ∀ h ∈ s'.handlers, ∃ repl, s'.registry.pool.tagOf h.connElem = some (h.cntId, repl) := by
  have hold : ∀ h ∈ s.handlers,
      ∃ repl, s'.registry.pool.tagOf h.connElem = some (h.cntId, repl) := by
    intro hd hm
    have ⟨repl, ht⟩ := h.handlers hd hm
    exact ⟨repl, tagOf hs ht⟩
  cases hs
  case addConnElem => exact fun hd hm => hold hd (List.mem_of_mem_eraseIdx hm)
  case register repl _ _ _ hg =>
    intro hd hm
    cases List.mem_append.mp hm
    case inl hm => exact hold hd hm
    case inr hm =>
      cases List.mem_singleton.mp hm
      exact ⟨repl, hi.size ▸ State.tagOf_add (Registry.step_pool_inv hg)⟩
  all_goals exact hold

theorem step_alive (hr : State.Refines s.registry.pool evs r)
    (hi : State.Intact s.registry.pool (live evs)) (hs : Stepped s op s' cs)
    (ha : s'.registry.pool.isAlive e) (ht : s'.registry.pool.tagOf e = some t) :
    (s.registry.pool.isAlive e ∧ s.registry.pool.tagOf e = some t ∧
      ∀ tr, cs ≠ [(.pool (.delete e), tr)]) ∨
    (∃ h ∈ s'.handlers, h.connElem = e) := by
  cases hs.pool_inv
  case inl hp =>
    have ⟨hp, hcs⟩ := hp
    rw [hp] at ha ht
    exact .inl ⟨ha, ht, fun tr => hcs _ tr⟩
  case inr hp =>
    have ⟨pop, tr, hcs, hp⟩ := hp
    cases State.alive_step hr hi hp ha ht
    case inl hold =>
      have ⟨h₁, h₂, hne⟩ := hold
      refine .inl ⟨h₁, h₂, fun tr' hcs' => hne ?_⟩
      cases hcs.symm.trans hcs'
      rfl
    case inr hnew =>
      have ⟨he, conn, addr, cntId, repl, m, hop⟩ := hnew
      subst hop
      cases hs
      case register => exact .inr ⟨_, List.mem_append_right _ (List.mem_singleton_self _), he.symm⟩
      case traffic  => simp [TrafficOp.toOp_ne_add] at hcs
      all_goals simp at hcs

theorem isDeleting_of_not_inUse (hr : State.Refines s.registry.pool evs r)
    (hi : State.Intact s.registry.pool (live evs)) (ha : s.registry.pool.isAlive e)
    (ht : s.registry.pool.tagOf e = some (cntId, false)) (hu : s.inUse e = false) :
    s.isDeleting e := by
  have hrepl := State.isRepl_of_tag hr hi ha ht
  by_contra hn
  simp [inUse, ha, hrepl, hn] at hu

theorem step_pending (h : Kept s) (hs : Stepped s op s' cs) (hm : hd ∈ s.handlers)
    (ht : s.registry.pool.tagOf hd.connElem = some (cntId, false)) :
    (∃ h ∈ s'.handlers, h.connElem = hd.connElem) ∨ s'.c2e.get cntId = some hd.connElem := by
  cases hs
  case register => exact .inl ⟨hd, List.mem_append_left _ hm, rfl⟩
  case addConnElem i hd' _ hi _ =>
    by_cases he : hd = hd'
    case pos =>
      subst he
      have ⟨_, ht'⟩ := h.handlers hd hm
      cases ht.symm.trans ht'
      exact .inr (by rw [Table.get_set, if_pos rfl])
    case neg =>
      have ⟨j, hj⟩ := List.mem_iff_getElem?.mp hm
      have hne : j ≠ i := by
        intro hji
        rw [hji, hi] at hj
        exact he (Option.some.inj hj).symm
      exact .inl ⟨hd, List.mem_eraseIdx_iff_getElem?.mpr ⟨j, hne, hj⟩, rfl⟩
  all_goals exact .inl ⟨hd, hm, rfl⟩

theorem step_listed (hr : State.Refines s.registry.pool evs r)
    (hi : State.Intact s.registry.pool (live evs)) (hs : Stepped s op s' cs) (hg : s.KeepsInUse op)
    (ha : s.registry.pool.isAlive e) (ht : s.registry.pool.tagOf e = some (cntId, false))
    (he : s.c2e.get cntId = some e) : s'.c2e.get cntId = some e ∨ s.isDeleting e := by
  cases hs
  case addConnElem hd _ hh _ =>
    by_cases hid : cntId = hd.cntId
    case neg => exact .inl (by rw [Table.get_set, if_neg hid, he])
    case pos =>
      subst hid
      refine .inr (isDeleting_of_not_inUse hr hi ha ht ?_)
      simpa [RegistersUnused, entered, hh, he] using hg.left
  case drop cntId' _ hd =>
    by_cases hid : cntId = cntId'
    case neg => exact .inl (by rw [Table.get_delete, if_neg hid, he])
    case pos =>
      subst hid
      refine .inr (isDeleting_of_not_inUse hr hi ha ht ?_)
      simpa [DropsUnused, hd.dropped, he] using hg.right
  all_goals exact .inl he

theorem step (h : Kept s) (hr : State.Refines s.registry.pool evs r)
    (hi : State.Intact s.registry.pool (live evs)) (hs : Stepped s op s' cs)
    (hg : s.KeepsInUse op) : Kept s' where
  handlers := h.step_handlers hi hs
  entries  := by
    intro e cntId ha ht
    cases step_alive hr hi hs ha ht
    case inr hnew => exact .inl hnew
    case inl hold =>
      have ⟨ha, ht, hcs⟩ := hold
      have hdel : s.isDeleting e → s'.isDeleting e := by
        intro hd
        refine (hs.isDeleting hd).resolve_right fun hc => ?_
        have ⟨tr, hc⟩ := hc
        exact hcs tr hc
      rcases h.entries e cntId ha ht with hh | he | hd
      case inr.inr => exact .inr (.inr (hdel hd))
      case inr.inl => exact .inr ((step_listed hr hi hs hg ha ht he).imp_right hdel)
      case inl =>
        have ⟨hd, hm, he⟩ := hh
        subst he
        exact (h.step_pending hs hm ht).imp_right .inl

end Kept

def PoolIntact (s : Sys) : Prop :=
  ∃ evs r, State.Refines s.registry.pool evs r ∧ State.Intact s.registry.pool (live evs)

theorem PoolIntact.step (h : PoolIntact s) (hs : Stepped s op s' cs) : PoolIntact s' := by
  have ⟨evs, r, hr, hi⟩ := h
  cases hs.pool_inv
  case inl hp =>
    rw [PoolIntact, hp.left]
    exact h
  case inr hp =>
    have ⟨_, tr, _, hp⟩ := hp
    have ⟨r', hr'⟩ := hr.step hp
    exact ⟨evs ++ tr, r', hr', hi.step hr hp⟩

-- In every run in which no step takes the entry of an element in use, a live element that is not a
-- replica is found under the id of its container as soon as its registration is finished, and until
-- a goroutine is about to delete it.
theorem live_listed (h : Run (GuardedSteps KeepsInUse (step p)) (.init p age) ls s)
    (ha : s.registry.pool.isAlive e) (hc : s.registry.pool.containerOf e = some i)
    (hl : s.registry.pool.containers.load i = some c) (hn : c.repl = false)
    (hh : ∀ h ∈ s.handlers, h.connElem ≠ e) : s.c2e.get c.id = some e ∨ s.isDeleting e := by
  have ⟨hk, evs, r, _, hi⟩ : Kept s ∧ PoolIntact s := by
    refine h.invariant (P := fun s => Kept s ∧ PoolIntact s) ⟨.init, _, _, .init, .init⟩ ?_
    intro s l s' ⟨hk, hp⟩ ⟨hg, hs⟩
    have hs := step_inv hs
    have ⟨evs, r, hr, hi⟩ := hp
    exact ⟨hk.step hr hi hs hg, hp.step hs⟩
  cases hi.own e i hc
  have ht : s.registry.pool.tagOf e = some (c.id, false) := by simp [State.tagOf, hl, hn]
  refine (hk.entries e c.id ha ht).resolve_left fun hp => ?_
  have ⟨hd, hm, he⟩ := hp
  exact hh hd hm he

theorem live_listed_removal :
    ∃ ls s c, Run (GuardedSteps KeepsInUse (step exampleProvisioner)) (.init exampleProvisioner 5) ls s ∧
      s.registry.pool.isAlive 2 ∧ s.registry.pool.containerOf 2 = some 2 ∧
      s.registry.pool.containers.load 2 = some c ∧ c.repl = false ∧ c.id = 2 ∧ s.handlers = [] ∧
      s.isDeleting 1 ∧ (s.c2e.get c.id = some 2 ∨ s.isDeleting 2) := by
  have ⟨s, ls, h, ht⟩ : ∃ s ls, Run (GuardedSteps KeepsInUse (step exampleProvisioner))
        (.init exampleProvisioner 5) ls s ∧
      (decide (s.registry.pool.isAlive 2 ∧ s.registry.pool.containerOf 2 = some 2 ∧
          s.handlers = [] ∧ s.isDeleting 1) &&
        (s.registry.pool.containers.load 2).any fun c => c.repl = false ∧ c.id = 2) = true :=
    Run.of_passes_restrict (exampleStart ++ [.handleScaling, .receive] ++ exampleSend 1 ++
      exampleHandle.take 3) (by decide +kernel)
  have ⟨hd, hany⟩ := Bool.and_eq_true_iff.mp ht
  have ⟨ha, hc, hh, hdel⟩ := of_decide_eq_true hd
  have ⟨c, hl, hi⟩ := (Option.any_eq_true ..).mp hany
  have ⟨hn, hid⟩ := of_decide_eq_true hi
  exact ⟨ls, s, c, h, ha, hc, hl, hn, hid, hh, hdel, live_listed h ha hc hl hn (by simp [hh])⟩

def Op.receives : Op → Bool
  | .worker _ .receive => true
  | _                  => false

-- No goroutine has received a request. The random id of a new container is the one of a container
-- that is still in use, whose entry the registration overwrites. Or a container is registered before
-- its instance is added, and the loop deletes its entry.
theorem live_unlisted :
    (∃ ls s, Run (Steps (step exampleProvisioner)) (.init exampleProvisioner 5) ls s ∧
      (∀ l ∈ ls, l.1.receives = false) ∧ s.handlers = [] ∧ s.registry.pool.isAlive 1 ∧
      s.registry.pool.containerOf 1 = some 1 ∧ s.registry.pool.tagOf 1 = some (1, false) ∧
      s.c2e.get 1 = some 3) ∧
    (∃ ls s, Run (Steps (step exampleProvisioner)) (.init exampleProvisioner 5) ls s ∧
      (∀ l ∈ ls, l.1.receives = false) ∧ s.handlers = [] ∧ s.registry.pool.isAlive 3 ∧
      s.registry.pool.containerOf 3 = some 3 ∧ s.registry.pool.tagOf 3 = some (3, false) ∧
      s.c2e.get 3 = none) := by
  constructor
  case left =>
    have ⟨s, ls, h, ht⟩ : ∃ s ls,
        Run (Steps (step exampleProvisioner)) (.init exampleProvisioner 5) ls s ∧
        decide ((∀ l ∈ ls, l.1.receives = false) ∧ s.handlers = [] ∧ s.registry.pool.isAlive 1 ∧
          s.registry.pool.containerOf 1 = some 1 ∧ s.registry.pool.tagOf 1 = some (1, false) ∧
          s.c2e.get 1 = some 3) = true :=
      Run.of_passes (exampleStart ++ [.worker 1 .tick, .worker 1 (.create 1), .worker 1 .proceed,
        .register (some 3) (some 0) 1 false 1, .addConnElem 0]) (by decide +kernel)
    exact ⟨ls, s, h, of_decide_eq_true ht⟩
  case right =>
    have ⟨s, ls, h, ht⟩ : ∃ s ls,
        Run (Steps (step exampleProvisioner)) (.init exampleProvisioner 5) ls s ∧
        decide ((∀ l ∈ ls, l.1.receives = false) ∧ s.handlers = [] ∧ s.registry.pool.isAlive 3 ∧
          s.registry.pool.containerOf 3 = some 3 ∧ s.registry.pool.tagOf 3 = some (3, false) ∧
          s.c2e.get 3 = none) = true :=
      Run.of_passes (exampleStart ++ [.worker 1 .tick, .worker 1 (.create 3),
        .register (some 3) (some 0) 3 false 1, .addConnElem 0, .handleScaling, .receive,
        .scan (.produce 0), .scan .proceed, .scan .proceed]) (by decide +kernel)
    exact ⟨ls, s, h, of_decide_eq_true ht⟩

end Sys
end Cnt
