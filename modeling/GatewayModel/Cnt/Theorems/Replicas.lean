import GatewayModel.Cnt.Theorems.Listing

open Go Execution RoundRobin Pool

-- The containers of the initial instance are registered as replicas. A scale-down does not take them,
-- unless the random id of another container is the same.
namespace Pool.State

variable {s s' : State} {e : ElemId}

def kindOf (s : State) (i : ContainerId) : Option Bool :=
  (s.tagOf i).map (·.2)

theorem kindOf_eq {i : ContainerId} :
    (s.kindOf i = some b) ↔ (∃ c, s.containers.load i = some c ∧ c.repl = b) := by
  simp [kindOf, tagOf]

theorem kindOf_step {i : ContainerId} (hs : Stepped s op tr s') (h : s.kindOf i = some b) :
    s'.kindOf i = some b := by
  obtain ⟨t, ht, hb⟩ := Option.map_eq_some_iff.mp h
  rw [kindOf, tagOf_step hs ht, Option.map_some, hb]

theorem Intact.kindOf_of_isRepl (hi : Intact s l) (h : s.isRepl e = .ok b) : s.kindOf e = some b := by
  simp only [isRepl, bind_eq_ok, pure_eq_ok] at h
  obtain ⟨el, he, c, hc, hb⟩ := h
  obtain ⟨i, hi', hl⟩ := container_eq_ok.mp hc
  have he := elem_eq_ok.mp he
  have hie : i = e := hi.own e i ((containerOf_eq he).trans hi')
  exact kindOf_eq.mpr ⟨c, hie ▸ hl, hb⟩

theorem Refines.isAlive_step (hr : Refines s evs r) (hs : Stepped s op tr s') (ha : s.isAlive e)
    (hne : op ≠ .delete e) : s'.isAlive e := by
  obtain ⟨r', hr'⟩ := hr.step hs
  have hm := hr.isAlive_iff.mp ha
  rw [hr'.isAlive_iff, hr.live_step hs]
  cases op
  case add      => exact List.mem_append_left _ hm
  case delete ce =>
    have hce : e ≠ ce := fun he => hne (he ▸ rfl)
    exact hr.live_nodup.mem_erase_iff.mpr ⟨hce, hm⟩
  all_goals exact hm

end Pool.State

namespace Cnt

def Pc.targets : Pc → List ElemId
  | .deleting connElem container _ => connElem :: container.toList
  | .unlisting container _         => container.toList
  | .absent | .creating .. | .adding .. | .select | .removing _ | .lookingUp _ | .returned => []

namespace Sys

variable {p : Provisioner} {s s' : Sys} {inst inst' : Instance} {i : InstId} {cntId : UInt16}
  {isReplica : UInt16 → Bool} {e : ElemId}

-- The ids of replicas and those of other containers are different.
def Registers (isReplica : UInt16 → Bool) (_ : Sys) : Op → Prop
  | .register _ _ id repl _ => repl = isReplica id
  | _                       => True

instance : (op : Op) → Decidable (Registers isReplica s op)
  | .register _ _ id repl _ => inferInstanceAs (Decidable (repl = isReplica id))
  | .traffic _ | .addConnElem _ | .timer .. | .creator _ | .worker .. | .handleScaling | .receive
  | .scan _ => .isTrue trivial

def ScansKinds (isReplica : UInt16 → Bool) (pool : State) : Scan → Prop
  | .isAlive _ _ cntId ce | .isRepl _ _ cntId ce | .isAliveAgain _ _ cntId ce =>
    pool.kindOf ce = some (isReplica cntId)
  | .send _ _ cntId _ => isReplica cntId = false
  | .idle | .next ..  => True

-- What is found under an id has the kind of the id, and requests are made for and lead to containers
-- that are not replicas.
structure Separate (isReplica : UInt16 → Bool) (s : Sys) : Prop where
  handlers : ∀ h ∈ s.handlers, s.registry.pool.kindOf h.connElem = some (isReplica h.cntId)
  entries  : ∀ cntId ce, (s.c2e.get cntId = some ce) →
             s.registry.pool.kindOf ce = some (isReplica cntId)
  scan     : ScansKinds isReplica s.registry.pool s.scan
  pending  : ∀ i inst, (s.instances.load i = some inst) → ∀ cntId ∈ inst.pending,
             isReplica cntId = false
  targets  : ∀ i inst, (s.instances.load i = some inst) → ∀ ce ∈ inst.pc.targets,
             s.registry.pool.kindOf ce = some false

theorem Stepped.kindOf (hs : Stepped s op s' cs) (h : s.registry.pool.kindOf e = some b) :
    s'.registry.pool.kindOf e = some b := by
  rcases hs.pool_inv with ⟨hp, _⟩ | ⟨_, _, _, hp⟩
  case inl => exact hp ▸ h
  case inr => exact State.kindOf_step hp h

theorem ScansKinds.mono {pool pool' : State} {sc : Scan} (h : ScansKinds isReplica pool sc)
    (hk : ∀ {e b}, (pool.kindOf e = some b) → pool'.kindOf e = some b) :
    ScansKinds isReplica pool' sc := by
  cases sc <;> first | exact hk h | exact h

theorem Moves.targets (h : Moves inst op inst') : inst'.pc.targets ⊆ inst.pc.targets := by
  cases h
  case tick =>
    dsimp only
    split <;> simp [Pc.targets]
  all_goals simp [Pc.targets]

namespace Separate

theorem init {age : Int} : Separate isReplica (.init p age) := by
  have hload {i inst} (hl : (Sys.init p age).instances.load i = some inst) :
      inst.pending = [] ∧ inst.pc.targets = [] := by
    simp only [Sys.init, Heap.load_alloc] at hl
    split at hl
    case isTrue  => cases hl; exact ⟨rfl, rfl⟩
    case isFalse => simp at hl
  constructor
  case handlers => simp [Sys.init]
  case entries  => simp [Sys.init]
  case scan     => trivial
  case pending  => exact fun i inst hl => by simp [hload hl]
  case targets  => exact fun i inst hl => by simp [hload hl]

theorem congr (h : Separate isReplica s) (hi : s'.instances = s.instances)
    (hk : ∀ {e b}, (s.registry.pool.kindOf e = some b) → s'.registry.pool.kindOf e = some b)
    (hh : ∀ h ∈ s'.handlers, s'.registry.pool.kindOf h.connElem = some (isReplica h.cntId))
    (hc : ∀ cntId ce, (s'.c2e.get cntId = some ce) →
      s'.registry.pool.kindOf ce = some (isReplica cntId))
    (hsc : ScansKinds isReplica s'.registry.pool s'.scan) : Separate isReplica s' where
  handlers := hh
  entries  := hc
  scan     := hsc
  pending  := hi ▸ h.pending
  targets i inst hl ce hm := hk (h.targets i inst (hi ▸ hl) ce hm)

theorem frame (h : Separate isReplica s) (hi : s'.instances = s.instances)
    (hk : ∀ {e b}, (s.registry.pool.kindOf e = some b) → s'.registry.pool.kindOf e = some b)
    (hh : s'.handlers = s.handlers) (hc : s'.c2e = s.c2e) (hsc : s'.scan = s.scan) :
    Separate isReplica s' := by
  refine h.congr hi hk (fun x hx => ?_) (fun cntId ce hg => ?_) (hsc ▸ h.scan.mono hk)
  case refine_1 => exact hk (h.handlers x (hh ▸ hx))
  case refine_2 => exact hk (h.entries cntId ce (hc ▸ hg))

theorem setInst (h : Separate isReplica s) (hl : s.instances.load i = some inst)
    (hp : ∀ cntId ∈ inst'.pending, isReplica cntId = false)
    (ht : ∀ ce ∈ inst'.pc.targets, s.registry.pool.kindOf ce = some false) :
    Separate isReplica (s.setInst i inst') := by
  have hload {j inst₁} (hj : (s.setInst i inst').instances.load j = some inst₁) :
      inst₁ = inst' ∨ s.instances.load j = some inst₁ := by
    rw [load_setInst] at hj
    split at hj
    case isTrue he => exact .inl (by simpa [he, hl] using hj.symm)
    case isFalse   => exact .inr hj
  constructor
  case handlers => exact h.handlers
  case entries  => exact h.entries
  case scan     => exact h.scan
  case pending =>
    intro j inst₁ hj
    rcases hload hj with rfl | hj
    case inl => exact hp
    case inr => exact h.pending j inst₁ hj
  case targets =>
    intro j inst₁ hj
    rcases hload hj with rfl | hj
    case inl => exact ht
    case inr => exact h.targets j inst₁ hj

theorem subset (h : Separate isReplica s) (hl : s.instances.load i = some inst)
    (hp : inst'.pending ⊆ inst.pending) (ht : inst'.pc.targets ⊆ inst.pc.targets) :
    Separate isReplica (s.setInst i inst') :=
  h.setInst hl (fun cntId hm => h.pending i inst hl cntId (hp hm))
    fun ce hm => h.targets i inst hl ce (ht hm)

theorem scanned (h : Separate isReplica s) (hi : State.Intact s.registry.pool l) (hs : Scans s op sc) :
    ScansKinds isReplica s.registry.pool sc := by
  have hsc := h.scan
  cases hs
  case skip | finish | keep => trivial
  case produce hc => exact h.entries _ _ hc
  case alive hs | notAlive hs | repl hs =>
    rw [hs] at hsc
    exact hsc
  case select hs hr _ =>
    rw [hs] at hsc
    exact Option.some.inj (hsc.symm.trans (hi.kindOf_of_isRepl hr))

theorem lookup (h : Separate isReplica s) (hi : State.Intact s.registry.pool l)
    (hs : s.step p (.worker i .proceed) = .ok (s', cs)) (hl : s.instances.load i = some inst)
    (hpc : inst.pc = .lookingUp cntId) : Separate isReplica s' := by
  simp only [Sys.step, worker, hl, hpc, bind_orPanic_eq_ok, deref_eq_ok, done_eq_ok] at hs
  obtain ⟨ce, hc, container, hg, rfl, _⟩ := hs
  have hn : isReplica cntId = false := h.pending i inst hl cntId (by simp [Instance.pending, hpc, Pc.request])
  have hk : s.registry.pool.kindOf ce = some false := hn ▸ h.entries cntId ce hc
  refine h.setInst hl (fun cntId' hm => ?_) fun ce' hm => ?_
  case refine_1 => exact h.pending i inst hl cntId' (by simp_all [Instance.pending, Pc.request])
  case refine_2 =>
    rcases List.mem_cons.mp hm with rfl | hm
    case inl => exact hk
    case inr =>
      simp only [State.getContainer, bind_eq_ok, pure_eq_ok, State.elem_eq_ok] at hg
      obtain ⟨el, he, rfl⟩ := hg
      have hce := hi.own ce ce' ((State.containerOf_eq he).trans (Option.mem_toList.mp hm))
      exact hce ▸ hk

theorem step (h : Separate isReplica s) (hi : State.Intact s.registry.pool l)
    (hs : s.step p op = .ok (s', cs)) (hg : Registers isReplica s op) : Separate isReplica s' := by
  have hst := step_inv hs
  have hk {e b} (hb : s.registry.pool.kindOf e = some b) : s'.registry.pool.kindOf e = some b :=
    hst.kindOf hb
  cases hst
  case register repl _ _ _ hr =>
    have hnew := State.tagOf_add (Registry.step_pool_inv hr)
    refine h.congr rfl hk (fun x hx => ?_) (fun cntId ce hc => hk (h.entries cntId ce hc)) (h.scan.mono hk)
    rcases List.mem_append.mp hx with hx | hx
    case inl => exact hk (h.handlers x hx)
    case inr =>
      cases List.mem_singleton.mp hx
      rw [State.kindOf, ← hi.size, hnew, ← hg, Option.map_some]
  case addConnElem hd _ hh _ =>
    refine h.congr rfl hk (fun x hx => h.handlers x (List.mem_of_mem_eraseIdx hx)) (fun cntId ce hc => ?_)
      h.scan
    rw [Table.get_set] at hc
    split at hc
    case isTrue he =>
      cases hc
      exact he ▸ h.handlers hd (List.mem_of_getElem? hh)
    case isFalse => exact h.entries cntId ce hc
  case scan hsc => exact h.congr rfl hk h.handlers h.entries (h.scanned hi hsc)
  case drop hd =>
    refine h.congr rfl hk h.handlers (fun cntId ce hc => ?_) (by cases hd <;> trivial)
    rw [Table.get_delete] at hc
    split at hc
    case isTrue  => contradiction
    case isFalse => exact h.entries cntId ce hc
  case scaleDown => exact h.congr rfl hk h.handlers h.entries trivial
  case scaleUp =>
    constructor
    case handlers => exact h.handlers
    case entries  => exact h.entries
    case scan     => exact h.scan
    case pending =>
      intro j inst hj
      rw [Heap.load_alloc] at hj
      split at hj
      case isTrue  => cases hj; simp [Instance.pending, Channel.make, Pc.request]
      case isFalse => exact h.pending j inst hj
    case targets =>
      intro j inst hj
      rw [Heap.load_alloc] at hj
      split at hj
      case isTrue  => cases hj; simp [Pc.targets]
      case isFalse => exact h.targets j inst hj
  case send delta rest cntId i inst _ hsc hl hq =>
    have hq := (Channel.send_eq_some hq).left
    have hn : isReplica cntId = false := by
      have := h.scan
      rwa [hsc] at this
    have hidle : ScansKinds isReplica s.registry.pool
        (if delta + 1 = 0 then Scan.idle else .next (delta + 1) rest) := by split <;> trivial
    refine setInst (h.congr rfl hk h.handlers h.entries hidle) hl (fun cntId' hm => ?_)
      (h.targets i inst hl)
    simp only [Instance.pending, hq, List.mem_append, List.mem_singleton] at hm
    rcases hm with (hm | hm) | hm
    case inl.inl => exact h.pending i inst hl cntId' (List.mem_append_left _ hm)
    case inl.inr => exact hm ▸ hn
    case inr     => exact h.pending i inst hl cntId' (List.mem_append_right _ hm)
  case getConnElem hl hpc _ => exact h.lookup hi hs hl hpc
  case move hl hm => exact h.subset hl hm.pending hm.targets
  case addInstance hl hpc _ =>
    refine subset (h.frame rfl hk rfl rfl rfl) hl ?_ ?_ <;> simp only [Instance.pending, hpc] <;>
      split <;> simp [Pc.request, Pc.targets]
  case removeInstance hl hpc _ | delete hl hpc _ | removeNil hl hpc | removeContainer hl hpc _ =>
    refine subset (h.frame rfl hk rfl rfl rfl) hl ?_ ?_ <;>
      simp [Instance.pending, hpc, Pc.request, Pc.targets]
  all_goals exact h.frame rfl hk rfl rfl rfl

end Separate

theorem Separate.delete_inv (h : Separate isReplica s) (hs : Stepped s op s' cs)
    (hd : cs = [(.pool (.delete e), tr)]) :
    (∃ i, op = .timer i .delete) ∨ s.registry.pool.kindOf e = some false := by
  cases hs
  case traffic op _ =>
    cases op <;> simp [TrafficOp.toOp] at hd
  case register    => simp at hd
  case timerDelete => exact .inl ⟨_, rfl⟩
  case delete i inst ce container _ _ _ hl hpc _ =>
    cases hd
    exact .inr (h.targets i inst hl e (by simp [hpc, Pc.targets]))
  all_goals simp at hd

theorem Separate.remove_inv (h : Separate isReplica s) (hs : Stepped s op s' cs)
    (hd : cs = [(.removeContainer e, tr)]) :
    (∃ i, op = .timer i .fire) ∨ s.registry.pool.kindOf e = some false := by
  cases hs
  case timerFire => exact .inl ⟨_, rfl⟩
  case removeContainer i inst cnt _ _ _ hl hpc _ =>
    cases hd
    exact .inr (h.targets i inst hl e (by simp [hpc, Pc.targets]))
  all_goals simp at hd

theorem Stepped.lst_inv (hs : Stepped s op s' cs) :
    s'.registry.lst = s.registry.lst ∨
    (s'.registry.lst = s.registry.lst.addContainer s.registry.pool.containers.size) ∨
    (∃ cnt tr, cs = [(.removeContainer cnt, tr)] ∧
      s.registry.lst.removeContainer cnt = .ok s'.registry.lst) := by
  cases hs
  case register hg =>
    simp only [Registry.step, bind_eq_ok, Prod.exists, pure_eq_ok, Prod.mk.injEq] at hg
    obtain ⟨_, _, _, rfl, _⟩ := hg
    exact .inr (.inl rfl)
  case traffic op hg =>
    simp only [Registry.step, bind_eq_ok, Prod.exists] at hg
    obtain ⟨_, _, _, hg⟩ := hg
    refine .inl ?_
    split at hg
    case h_1 hop => exact absurd hop op.toOp_ne_add
    case h_2     => cases hg; rfl
  case timerDelete hg | delete hg =>
    simp only [Registry.step, bind_eq_ok, Prod.exists, pure_eq_ok, Prod.mk.injEq] at hg
    obtain ⟨_, _, _, rfl, _⟩ := hg
    exact .inl rfl
  case timerFire hg | removeContainer hg =>
    obtain ⟨_, hr, rfl, _⟩ := Registry.step_removeContainer_inv hg
    exact .inr (.inr ⟨_, _, rfl, hr⟩)
  all_goals exact .inl rfl

theorem Stepped.kindOf_inv {e : Nat} (hs : Stepped s op s' cs) (h : s'.registry.pool.kindOf e = some b) :
    s.registry.pool.kindOf e = some b ∨
    (e = s.registry.pool.containers.size ∧
      s'.registry.lst = s.registry.lst.addContainer e ∧
      ∃ conn addr cntId repl maxFluxes tr, State.Stepped s.registry.pool
        (.add conn addr cntId repl maxFluxes) tr s'.registry.pool) := by
  rcases hs.pool_inv with ⟨hp, _⟩ | ⟨pop, tr, hcs, hp⟩
  case inl => exact .inl (hp ▸ h)
  case inr =>
    cases hk : s.registry.pool.kindOf e
    case some b' =>
      cases (hs.kindOf hk).symm.trans h
      exact .inl rfl
    case none =>
      have hlt : e < s'.registry.pool.containers.size := by
        obtain ⟨c, hc, _⟩ := State.kindOf_eq.mp h
        exact Heap.lt_size_of_load hc
      have hle : s.registry.pool.containers.size ≤ e := by
        by_contra hn
        obtain ⟨c, hc⟩ := Heap.exists_load (Nat.not_le.mp hn)
        simp [State.kindOf_eq.mpr ⟨c, hc, rfl⟩] at hk
      have hz := Registry.size_containers_step hp
      cases pop
      case add =>
        have he : e = s.registry.pool.containers.size := by
          simp only [if_true] at hz
          omega
        refine .inr ⟨he, ?_, _, _, _, _, _, _, hp⟩
        cases hs
        case register hg =>
          simp only [Registry.step, bind_eq_ok, Prod.exists, pure_eq_ok, Prod.mk.injEq] at hg
          obtain ⟨_, _, _, rfl, _⟩ := hg
          exact he ▸ rfl
        case traffic op _ =>
          cases op <;> simp [TrafficOp.toOp] at hcs
        all_goals simp at hcs
      all_goals
        simp only [Bool.false_eq_true, if_false] at hz
        omega

-- The container is in the pool and in the list, unless its own timer has removed it.
structure Outlives (ls : List (Op × Calls)) (e : ElemId) (s : Sys) : Prop where
  pool : s.registry.pool.isAlive e ∨ ∃ i tr, (.timer i .delete, [(.pool (.delete e), tr)]) ∈ ls
  lst  : e ∈ s.registry.lst.toList ∨ ∃ i tr, (.timer i .fire, [(.removeContainer e, tr)]) ∈ ls

theorem Outlives.step (h : Outlives ls e s) (hd : Separate isReplica s)
    (hr : State.Refines s.registry.pool evs r) (hn : s.registry.lst.toList.Nodup)
    (hs : Stepped s op s' cs) (hk : s.registry.pool.kindOf e = some true) :
    Outlives (ls ++ [(op, cs)]) e s' where
  pool := by
    rcases h.pool with ha | ⟨i, tr, hm⟩
    case inr => exact .inr ⟨i, tr, List.mem_append_left _ hm⟩
    case inl =>
      rcases hs.pool_inv with ⟨hp, _⟩ | ⟨pop, tr, hcs, hp⟩
      case inl => exact .inl (hp ▸ ha)
      case inr =>
        by_cases hde : pop = .delete e
        case neg => exact .inl (hr.isAlive_step hp ha hde)
        case pos =>
          subst hde
          rcases hd.delete_inv hs hcs with ⟨i, rfl⟩ | hk'
          case inl => exact .inr ⟨i, tr, by simp [hcs]⟩
          case inr => simp [hk] at hk'
  lst := by
    rcases h.lst with hm | ⟨i, tr, hm⟩
    case inr => exact .inr ⟨i, tr, List.mem_append_left _ hm⟩
    case inl =>
      rcases hs.lst_inv with hl | hl | ⟨cnt, tr, hcs, hrm⟩
      case inl => exact .inl (hl ▸ hm)
      case inr.inl =>
        refine .inl ?_
        rw [hl, ContainerList.addContainer, Slice.toList_push]
        exact List.mem_append_left _ hm
      case inr.inr =>
        by_cases hce : cnt = e
        case neg =>
          obtain ⟨_, hrm', hl⟩ := ContainerList.removeContainer_eq hn cnt
          cases hrm.symm.trans hrm'
          exact .inl (hl ▸ (List.mem_erase_of_ne (Ne.symm hce)).mpr hm)
        case pos =>
          subst hce
          rcases hd.remove_inv hs hcs with ⟨i, rfl⟩ | hk'
          case inl => exact .inr ⟨i, tr, by simp [hcs]⟩
          case inr => simp [hk] at hk'

-- In every run in which the ids of replicas are not those of other containers, a replica is in the pool
-- and in the list until its own timer removes it.
theorem replica_outlives_scaling
    (h : Run (GuardedSteps (Registers isReplica) (step p)) (.init p age) ls s)
    (hc : s.registry.pool.containers.load e = some c) (hr : c.repl = true) :
    (s.registry.pool.isAlive e ∨ ∃ i tr, (.timer i .delete, [(.pool (.delete e), tr)]) ∈ ls) ∧
    (e ∈ s.registry.lst.toList ∨ ∃ i tr, (.timer i .fire, [(.removeContainer e, tr)]) ∈ ls) := by
  obtain ⟨_, _, _, ho⟩ : Separate isReplica s ∧ PoolIntact s ∧ Registry.Sound s.registry ∧
      ∀ e, (s.registry.pool.kindOf e = some true) → Outlives ls e s := by
    refine h.invariant_labels (P := fun ls s => Separate isReplica s ∧ PoolIntact s ∧
      Registry.Sound s.registry ∧ ∀ e, (s.registry.pool.kindOf e = some true) → Outlives ls e s)
      ⟨.init, ⟨_, _, .init, .init⟩, .init, fun e hk => ?_⟩ ?_
    case refine_1 => simp [Sys.init, Registry.init, State.init, State.kindOf, State.tagOf] at hk
    case refine_2 =>
      rintro ls s ⟨op, cs⟩ s' ⟨hd, hp, hg, ho⟩ ⟨hop, hs⟩
      obtain ⟨evs, r, hr, hi⟩ := hp
      have hst : Stepped s op s' cs := step_inv hs
      refine ⟨hd.step hi hs hop, PoolIntact.step ⟨evs, r, hr, hi⟩ hst,
        hst.registry.invariant hg fun h hs => h.step hs, fun e hk => ?_⟩
      rcases hst.kindOf_inv hk with hk | ⟨rfl, hl, _, _, _, _, _, _, hadd⟩
      case inl => exact (ho e hk).step hd hr hg.nodup hst hk
      case inr =>
        obtain ⟨r', hr'⟩ := hr.step hadd
        refine ⟨.inl ?_, .inl ?_⟩
        case refine_1 =>
          rw [hr'.isAlive_iff, hr.live_step hadd, hi.size]
          exact List.mem_append_right _ (List.mem_singleton_self _)
        case refine_2 =>
          rw [hl, ContainerList.addContainer, Slice.toList_push]
          exact List.mem_append_right _ (List.mem_singleton_self _)
  have ho := ho e (State.kindOf_eq.mpr ⟨c, hc, hr⟩)
  exact ⟨ho.pool, ho.lst⟩

theorem replica_outlives_removal :
    ∃ ls s c, Run (GuardedSteps (Registers (· = 9)) (step exampleProvisioner))
        (.init exampleProvisioner 5) ls s ∧
      s.registry.pool.containers.load 0 = some c ∧ c.repl = true ∧
      s.registry.pool.isAlive 1 = false ∧
      (s.registry.pool.isAlive 0 ∨ ∃ i tr, (.timer i .delete, [(.pool (.delete 0), tr)]) ∈ ls) ∧
      (0 ∈ s.registry.lst.toList ∨ ∃ i tr, (.timer i .fire, [(.removeContainer 0, tr)]) ∈ ls) := by
  obtain ⟨s, ls, h, ht⟩ : ∃ s ls, Run (GuardedSteps (Registers (· = 9)) (step exampleProvisioner))
        (.init exampleProvisioner 5) ls s ∧
      decide (s.registry.pool.kindOf 0 = some true ∧ s.registry.pool.isAlive 1 = false) = true :=
    Run.of_passes_restrict (exampleStart ++ [.handleScaling, .receive] ++ exampleSend 1 ++
      exampleHandle) (by decide +kernel)
  obtain ⟨hk, ha⟩ := of_decide_eq_true ht
  obtain ⟨c, hc, hr⟩ := State.kindOf_eq.mp hk
  exact ⟨ls, s, c, h, hc, hr, ha, replica_outlives_scaling h hc hr⟩

def Op.isTimer : Op → Bool
  | .timer .. => true
  | _         => false

-- A replica is registered with the id 1 while a request for that id is queued. The goroutine finds the
-- replica under the id, and removes it.
example :
    ∃ ls s, Run (Steps (step exampleProvisioner)) (.init exampleProvisioner 5) ls s ∧
      s.registry.pool.kindOf 3 = some true ∧ s.registry.pool.isAlive 3 = false ∧
      s.registry.lst.toList = [0, 1, 2] ∧ ∀ l ∈ ls, ∀ i op, l.1 ≠ .timer i op := by
  obtain ⟨s, ls, h, ht⟩ : ∃ s ls, Run (Steps (step exampleProvisioner))
        (.init exampleProvisioner 5) ls s ∧
      decide (s.registry.pool.kindOf 3 = some true ∧ s.registry.pool.isAlive 3 = false ∧
        s.registry.lst.toList = [0, 1, 2] ∧ ∀ l ∈ ls, l.1.isTimer = false) = true :=
    Run.of_passes (exampleStart ++ [.handleScaling, .receive] ++ exampleSend 1 ++
      [.register (some 3) (some 0) 1 true 1, .addConnElem 0] ++ exampleHandle) (by decide +kernel)
  obtain ⟨hk, ha, hl, hn⟩ := of_decide_eq_true ht
  refine ⟨ls, s, h, hk, ha, hl, fun l hm i op he => ?_⟩
  simpa [he, Op.isTimer] using hn l hm

end Sys
end Cnt
