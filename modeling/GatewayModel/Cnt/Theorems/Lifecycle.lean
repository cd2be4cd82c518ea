import GatewayModel.Cnt.Lifecycle
import GatewayModel.Cnt.Theorems.Registry
import GatewayModel.Pool.Theorems.Safety

open Go Execution CircularList RoundRobin Pool

namespace Pool.State

variable {s : State} {r : Rotation ElemId} {evs : Trace}

theorem upToTail_eq (hc : l.IsChain (Linked s.nextOf s.prevOf)) (nd : l.Nodup)
    (ht : s.tailElem = l.getLast?) (hn : l.length ≤ n) : s.upToTail n l.head? = l := by
  induction l generalizing n
  case nil => cases n <;> rfl
  case cons a l hi =>
    cases n
    case zero   => simp at hn
    case succ n =>
      have ⟨ha, nd'⟩ := List.nodup_cons.mp nd
      rw [List.head?_cons, upToTail]
      cases l
      case nil => simp [ht]
      case cons b l =>
        have ⟨hab, hc'⟩ := List.isChain_cons_cons.mp hc
        rw [List.getLast?_cons_cons] at ht
        have hne : s.tailElem ≠ some a := fun h => ha (List.mem_of_mem_getLast? (ht.symm.trans h))
        rw [if_neg hne, hab.left]
        exact congrArg (a :: ·) (hi hc' nd' ht (Nat.le_of_succ_le_succ hn))

theorem Refines.headToTail (h : Refines s evs r) : s.headToTail = live evs := by
  have hlen : (live evs).length ≤ s.elems.size := by
    have hsub : live evs ⊆ List.range s.elems.size :=
      fun e he => List.mem_range.mpr (h.lt_size he)
    simpa using (h.live_nodup.subperm hsub).length_le
  rw [State.headToTail, h.represents.head]
  rw [← h.history.order_eq] at *
  exact upToTail_eq h.represents.ring.links h.represents.order_nodup h.represents.tail hlen

end Pool.State

namespace Cnt.Lifecycle

-- The list holds the containers of the live elements in the order of the ring. A container has the
-- same address as its element.
structure Listed (l : Lifecycle) (evs : Trace) (r : Rotation ElemId) : Prop where
  refines : State.Refines l.registry.pool evs r
  intact  : State.Intact l.registry.pool (live evs)
  list    : l.registry.lst.toList = live evs
  timers  : ∀ t ∈ l.timers, t.2 = t.1

namespace Listed

variable {l l' : Lifecycle} {g : Registry} {evs : Trace} {r : Rotation ElemId}

theorem init {age : Int} : Listed (.init age) [] .empty where
  refines := .init
  intact  := .init
  list    := rfl
  timers  := by simp [Lifecycle.init]

theorem pool_inv {g g' : Registry} {op : Pool.Op} (hop : ∀ c a i p m, op ≠ .add c a i p m)
    (hs : g.step (.pool op) = .ok (g', tr)) :
    State.Stepped g.pool op tr g'.pool ∧ g'.lst = g.lst := by
  simp only [Registry.step, bind_eq_ok, Prod.exists] at hs
  obtain ⟨s, _, hs, hg⟩ := hs
  cases hg
  exact ⟨State.step_inv hs, rfl⟩

theorem removeContainer_inv {g g' : Registry} (nd : g.lst.toList.Nodup)
    (hs : g.step (.removeContainer cnt) = .ok (g', tr)) :
    g'.pool = g.pool ∧ g'.lst.toList = g.lst.toList.erase cnt := by
  have ⟨cl, hr, hg, _⟩ := Registry.step_removeContainer_inv hs
  have ⟨_, hr', hl⟩ := ContainerList.removeContainer_eq nd cnt
  cases hr.symm.trans hr'
  exact ⟨hg ▸ rfl, hg ▸ hl⟩

theorem pool (h : Listed l evs r) (hs : State.Stepped l.registry.pool op tr g.pool)
    (hl : g.lst.toList = live (evs ++ tr)) (ht : ∀ t ∈ ts, t.2 = t.1) :
    ∃ r', Listed ⟨g, ts⟩ (evs ++ tr) r' := by
  have ⟨r', hr'⟩ := h.refines.step hs
  exact ⟨r', hr', h.intact.step h.refines hs, hl, ht⟩

theorem register (h : Listed l evs r) (hs : l.register conn addr cntId repl m = .ok (l', tr)) :
    ∃ r', Listed l' (evs ++ tr) r' := by
  simp only [Lifecycle.register, Registry.step, bind_eq_ok, pure_eq_ok, Prod.exists,
    Prod.mk.injEq] at hs
  obtain ⟨g, _, ⟨s, _, hp, hg, ht'⟩, hl, ht⟩ := hs
  subst ht' ht hl hg
  have hp := State.step_inv hp
  refine h.pool hp ?_ ?_
  · rw [h.refines.live_step hp, ContainerList.addContainer, Slice.toList_push, h.list, h.intact.size]
    rfl
  · intro t ht
    cases List.mem_append.mp ht
    case inl ht => exact h.timers t ht
    case inr ht =>
      cases List.mem_singleton.mp ht
      exact h.intact.size

theorem expire (h : Listed l evs r) (hs : l.expire i = .ok (l', tr)) :
    ∃ r', Listed l' (evs ++ tr) r' := by
  simp only [Lifecycle.expire] at hs
  split at hs
  case h_1 =>
    cases hs
    exact ⟨r, by simpa using h⟩
  case h_2 connElem cnt ht =>
    simp only [bind_eq_ok, pure_eq_ok, Prod.exists, Prod.mk.injEq] at hs
    have ⟨g₁, _, h₁, g₂, _, h₂, hl, htr⟩ := hs
    subst hl htr
    have ⟨hp, hlst⟩ := removeContainer_inv (h.list ▸ h.refines.live_nodup) h₁
    have ⟨hs, hlst'⟩ := pool_inv (by simp) h₂
    rw [hp] at hs
    have hcnt : cnt = connElem := h.timers _ (List.mem_of_getElem? ht)
    refine h.pool hs ?_ fun t ht => h.timers t (List.mem_of_mem_eraseIdx ht)
    rw [h.refines.live_step hs, hlst', hlst, h.list, hcnt]
    rfl

theorem scaleDown (h : Listed l evs r) (hs : l.scaleDown ce = .ok (l', tr)) :
    ∃ r', Listed l' (evs ++ tr) r' := by
  simp only [Lifecycle.scaleDown, State.getContainer, bind_eq_ok, State.elem_eq_ok, pure_eq_ok,
    Prod.exists] at hs
  have ⟨container, ⟨e, he, hc⟩, g₁, tr', h₁, hs⟩ := hs
  have ⟨hst, hlst⟩ := pool_inv (by simp) h₁
  have hlive : live (evs ++ tr') = (live evs).erase ce := h.refines.live_step hst
  have hco : l.registry.pool.containerOf ce = container := (State.containerOf_eq he).trans hc
  split at hs
  case h_1 =>
    -- The element has been deleted before, and there is nothing to remove.
    cases hs
    have hm : ce ∉ live evs := fun hm => by simpa [hco] using h.intact.has ce hm
    exact h.pool hst (by rw [hlst, h.list, hlive, List.erase_of_not_mem hm]) h.timers
  case h_2 cnt =>
    simp only [bind_eq_ok, pure_eq_ok, Prod.exists, Prod.mk.injEq] at hs
    have ⟨g₂, _, h₂, hl, htr⟩ := hs
    subst hl htr
    have nd : g₁.lst.toList.Nodup := by
      rw [hlst, h.list]
      exact h.refines.live_nodup
    have ⟨hp, hlst'⟩ := removeContainer_inv nd h₂
    rw [← hp] at hst
    refine h.pool hst ?_ h.timers
    rw [hlst', hlst, h.list, hlive, h.intact.own ce cnt hco]

theorem step (h : Listed l evs r) (hs : l.step op = .ok (l', tr)) :
    ∃ r', Listed l' (evs ++ tr) r' := by
  cases op
  case register  => exact h.register hs
  case expire    => exact h.expire hs
  case scaleDown => exact h.scaleDown hs
  case stop i =>
    simp only [Lifecycle.step, Lifecycle.stop] at hs
    split at hs
    case h_1 =>
      cases hs
      exact ⟨r, by simpa using h⟩
    case h_2 =>
      simp only [bind_eq_ok] at hs
      have ⟨_, _, hs⟩ := hs
      split at hs
      case isFalse =>
        cases hs
        exact ⟨r, by simpa using h⟩
      case isTrue =>
        cases hs
        refine ⟨r, ?_⟩
        rw [List.append_nil]
        exact ⟨h.refines, h.intact, h.list, fun t ht => h.timers t (List.mem_of_mem_eraseIdx ht)⟩
  case traffic op =>
    simp only [Lifecycle.step, bind_eq_ok, pure_eq_ok, Prod.exists, Prod.mk.injEq] at hs
    have ⟨g, _, hp, hl, htr⟩ := hs
    subst hl htr
    have ⟨hp, hlst⟩ := pool_inv (fun _ _ _ _ _ => op.toOp_ne_add) hp
    refine h.pool hp ?_ h.timers
    rw [h.refines.live_step hp, hlst, h.list]
    cases op <;> rfl

end Listed

-- In every run the list holds the containers of the elements on the ring from head to tail, each
-- once.
theorem list_eq_ring (h : Run (Steps step) (.init age) ls l) :
    l.registry.lst.toList.map some = l.registry.pool.headToTail.map l.registry.pool.containerOf ∧
    l.registry.lst.toList.Nodup := by
  have ⟨r, hr⟩ : ∃ r, Listed l (ls.flatMap (·.2)) r := by
    refine h.invariant_labels (P := fun ls l => ∃ r, Listed l (ls.flatMap (·.2)) r) ⟨_, .init⟩ ?_
    intro ls l lb l' ⟨r, hr⟩ hs
    have ⟨r', hr'⟩ := hr.step hs
    exact ⟨r', by simpa using hr'⟩
  rw [hr.refines.headToTail, hr.list]
  refine ⟨List.map_congr_left fun e he => ?_, hr.refines.live_nodup⟩
  exact (hr.intact.has e he).symm

def exampleChurn : List Op :=
  [.register (some 0) (some 0) 1 false 10, .register (some 1) (some 1) 2 false 10, .traffic (.get 7),
    .scaleDown 0, .expire 0, .register (some 2) (some 2) 3 true 10, .expire 0, .traffic (.get 8),
    .scaleDown 1]

def Churned (ops : List Op) (cnts : List ContainerId) : Prop :=
  ∃ ls l, Run (Steps step) (.init 5) ls l ∧ ls.map (·.1) = ops ∧
    l.registry.lst.toList = cnts ∧ l.registry.pool.headToTail = cnts ∧
    l.registry.lst.toList.map some = l.registry.pool.headToTail.map l.registry.pool.containerOf ∧
    l.registry.lst.toList.Nodup

theorem list_eq_ring_churn :
    Churned (exampleChurn.take 3) [0, 1] ∧ Churned (exampleChurn.take 4) [1] ∧
    Churned (exampleChurn.take 5) [1] ∧ Churned (exampleChurn.take 6) [1, 2] ∧
    Churned (exampleChurn.take 7) [2] ∧ Churned exampleChurn [2] := by
  have churned {ops cnts} (hp : passes step (.init 5) ops (fun l ls => decide (ls.map (·.1) = ops ∧
      l.registry.lst.toList = cnts ∧ l.registry.pool.headToTail = cnts)) = true) :
      Churned ops cnts := by
    obtain ⟨l, ls, h, ht⟩ := Run.of_passes ops hp
    obtain ⟨h₁, h₂, h₃⟩ := of_decide_eq_true ht
    exact ⟨ls, l, h, h₁, h₂, h₃, list_eq_ring h⟩
  exact ⟨churned (by decide), churned (by decide), churned (by decide), churned (by decide),
    churned (by decide), churned (by decide)⟩

end Cnt.Lifecycle
