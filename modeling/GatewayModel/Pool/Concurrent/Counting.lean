import GatewayModel.Pool.Concurrent.Watching

open Go Execution

-- What the `Fluxes` of a container counts.
namespace Pool.Concurrent

def Pc.raises : Pc → Option ElemId
  | .inc cpe _ => some cpe
  | _          => none

def Expiry.lowers (x : Expiry) : Option ElemId :=
  if x.counted
  then none
  else some x.watcher.elem

def running (s : State) (e : ElemId) : Nat :=
  (s.watchers.filterMap (some ·.elem)).count e

namespace Threads

-- The watchers that count for an element: those that run, those that are about to be started and
-- those that have found their flow expired but have not called `DecFluxes`.
def watching (t : Threads) (e : ElemId) : Nat :=
  (t.gets.filterMap (·.pc.raised)).count e + running t.pool e +
    (t.expiring.filterMap Expiry.lowers).count e

def FitsInt8 (t : Threads) : Op → Prop
  | .runGet i    => ∀ c ∈ t.gets[i]?, ∀ cpe ∈ c.pc.raises, ∀ x ∈ t.pool.containers.load cpe,
                      x.fluxes < 127
  | .runDelete i => ∀ d ∈ t.deletes[i]?, ∀ rCe ∈ d.pc.raises, ∀ x ∈ t.pool.containers.load rCe,
                      x.fluxes.toInt + (t.pool.portsOf d.ce).length ≤ 127
  | _            => True

instance {t : Threads} : (op : Op) → Decidable (t.FitsInt8 op)
  | .runGet i    => inferInstanceAs (Decidable (∀ c ∈ t.gets[i]?, ∀ cpe ∈ c.pc.raises,
                      ∀ x ∈ t.pool.containers.load cpe, x.fluxes < 127))
  | .runDelete i => inferInstanceAs (Decidable (∀ d ∈ t.deletes[i]?, ∀ rCe ∈ d.pc.raises,
                      ∀ x ∈ t.pool.containers.load rCe,
                        x.fluxes.toInt + (t.pool.portsOf d.ce).length ≤ 127))
  | .add .. | .get _ | .delete _ | .check _ | .expire _ | .stop _ | .wait _ => .isTrue trivial

variable {t t' : Threads} {op : Op}

structure Counted (t : Threads) : Prop where
  alloc  : ∀ e, (0 < t.watching e) → e < t.pool.elems.size
  fluxes : ∀ e, (isOpen t.pool e = true) → ∀ c, (t.pool.containers.load e = some c) →
    c.fluxes.toInt = t.watching e

theorem running_append (ws : List Watcher) (e : ElemId) :
    running { s with watchers := s.watchers ++ ws } e =
      running s e + (ws.map (·.elem)).count e := by
  simp [running]

theorem watching_runGet {c : Call} (hi : t.gets[i]? = some c) (s : State) (pc : Pc) (e : ElemId) :
    { t with pool := s, gets := t.gets.set i { c with pc := pc } }.watching e +
        c.pc.raised.toList.count e + running t.pool e =
      t.watching e + pc.raised.toList.count e + running s e := by
  have hn : _ + c.pc.raised.toList.count e = _ + pc.raised.toList.count e :=
    count_filterMap_set (f := fun c : Call => c.pc.raised) hi { c with pc := pc } e
  simp only [watching]
  omega

namespace Counted

theorem init {age : Int} : Counted (.init age) where
  alloc  := by simp [watching, running, Threads.init, State.init]
  fluxes := by simp [isOpen, Threads.init, State.init]

theorem congr (h : Counted t) (he : Evolves t.pool t'.pool)
    (hc : t'.pool.containers = t.pool.containers) (hle : ∀ e, t'.watching e ≤ t.watching e)
    (hw : ∀ e, (isOpen t.pool e = true) → t'.watching e = t.watching e) : Counted t' where
  alloc e hp := he.size ▸ h.alloc e (lt_of_lt_of_le hp (hle e))
  fluxes e ho c hl := by
    rw [hw e (he.isOpen ho)]
    exact h.fluxes e (he.isOpen ho) c (hc ▸ hl)

theorem quiet (h : Counted t) (he : Evolves t.pool t'.pool)
    (hc : t'.pool.containers = t.pool.containers) (hw : ∀ e, t'.watching e = t.watching e) :
    Counted t' :=
  h.congr he hc (fun e => le_of_eq (hw e)) fun e _ => hw e

theorem update (h : Counted t) (hs : Sound t.pool) {f : Container → Container} {q : ElemId}
    (he : t'.pool.elems = t.pool.elems) (hx : t.pool.elems.load q = some x)
    (hi : x.container = some i) (hc : t'.pool.containers = t.pool.containers.modify i f)
    (hne : ∀ e, (e ≠ q) → t'.watching e = t.watching e)
    (hf : ∀ c, (t.pool.containers.load q = some c) → (c.fluxes.toInt = t.watching q) →
      (f c).fluxes.toInt = t'.watching q) : Counted t' := by
  rw [hs.own q i ((State.containerOf_eq hx).trans hi)] at hc
  constructor
  case alloc =>
    intro e hp
    rw [he]
    by_cases heq : e = q
    case pos => exact heq ▸ Heap.lt_size_of_load hx
    case neg => exact h.alloc e (hne e heq ▸ hp)
  case fluxes =>
    intro e ho c hl
    have ho : isOpen t.pool e = true := by simpa only [isOpen, he] using ho
    rw [hc] at hl
    by_cases heq : e = q
    case pos =>
      subst heq
      rw [Heap.load_modify_self, Option.map_eq_some_iff] at hl
      obtain ⟨c', hl', hc'⟩ := hl
      exact hc' ▸ hf c' hl' (h.fluxes e ho c' hl')
    case neg =>
      rw [hne e heq]
      exact h.fluxes e ho c (Heap.load_modify_ne heq ▸ hl)

theorem runGet (h : Counted t) (hs : Sound t.pool) (hi : t.gets[i]? = some c)
    (hr : Ran t.pool c.crc c.pc s pc)
    (hg : ∀ cpe ∈ c.pc.raises, ∀ x ∈ t.pool.containers.load cpe, x.fluxes < 127) :
    Counted { t with pool := s, gets := t.gets.set i { c with pc := pc } } := by
  have hn := watching_runGet hi s pc
  generalize c.pc = pc₀ at hr hn hg
  cases hr
  case assign => exact h.quiet (.of_elems rfl) rfl fun e => Nat.add_right_cancel (hn e)
  case quiet =>
    have hq := ‹Quiet t.pool s›
    refine h.quiet hq.evolves hq.containers fun e => ?_
    have hn := hn e
    rw [‹pc₀.raised = none›, ‹pc.raised = none›, running, running, hq.watchers] at hn
    exact Nat.add_right_cancel (Nat.add_right_cancel hn)
  case watch cpe _ _ _ =>
    refine h.quiet (.of_elems rfl) rfl fun e => ?_
    have hn : _ + [cpe].count e + running t.pool e =
      t.watching e + 0 + running { t.pool with watchers := t.pool.watchers ++ _ } e := hn e
    simp only [running_append, List.map_cons, List.map_nil] at hn
    omega
  case inc cpe _ _ _ _ hx hj _ =>
    have hn (e : ElemId) := Nat.add_right_cancel (hn e)
    refine h.update hs rfl hx hj rfl (fun e he => ?_) (fun c hc hf => ?_)
    case refine_1 =>
      refine (hn e).trans ?_
      simp [Pc.raised, he.symm]
    case refine_2 =>
      rw [Container.toInt_incFluxes (hg cpe rfl c hc), hf]
      have hn : _ + 0 = t.watching cpe + [cpe].count cpe := hn cpe
      rw [List.count_singleton_self] at hn
      omega

theorem runDelete {d : Deletion} (h : Counted t) (hs : Sound t.pool) (hr : DeleteRan t.pool d.ce d.pc s pc)
    (hg : ∀ rCe ∈ d.pc.raises, ∀ x ∈ t.pool.containers.load rCe,
      x.fluxes.toInt + (t.pool.portsOf d.ce).length ≤ 127) :
    Counted { t with pool := s, deletes := t.deletes.set i { d with pc := pc } } := by
  have quiet {s} (hq : Quiet t.pool s) :
      Counted { t with pool := s, deletes := t.deletes.set i { d with pc := pc } } := by
    refine h.quiet hq.evolves hq.containers fun e => ?_
    simp only [watching, running, hq.watchers]
  generalize d.pc = pc₀ at hr hg
  cases hr
  case clear hq _ => exact quiet hq
  case quiet      => exact quiet ‹_›
  case remap x rCe hx hm =>
    by_cases hp : x.ports = []
    case pos =>
      rw [hp] at hm
      cases hm
      exact quiet (.of_elems rfl rfl rfl rfl)
    case neg =>
      have ⟨y, j, c, hy, hj, hl, ht⟩ := State.remap_inv hm hp
      subst ht
      have hr (e : ElemId) : running (t.pool.remapped d.ce rCe y j x.ports) e =
          running t.pool e + if rCe = e then x.ports.length else 0 := by
        simp [running, State.remapped, List.filterMap_map, List.count_replicate]
      refine h.update hs rfl hy hj rfl (fun e he => ?_) (fun c hc hf => ?_)
      case refine_1 => simp [watching, hr, he.symm]
      case refine_2 =>
        have hg := hg rCe rfl c hc
        rw [State.portsOf_eq hx] at hg
        rw [Container.toInt_incFluxes_iterate hg, hf]
        simp only [watching, hr, if_true]
        omega

theorem check (h : Counted t) (hi : t.pool.watchers[i]? = some w) :
    Counted { t with
      pool     := { t.pool with watchers := t.pool.watchers.eraseIdx i }
      expiring := t.expiring ++ [⟨w, false⟩] } := by
  refine h.quiet (.of_elems rfl) rfl fun e => ?_
  have hn : _ + [w.elem].count e = _ :=
    count_filterMap_eraseIdx (f := fun w : Watcher => some w.elem) hi e
  have hx : ([⟨w, false⟩] : List Expiry).filterMap Expiry.lowers = [w.elem] := rfl
  simp only [watching, running, List.filterMap_append, List.count_append, hx]
  omega

theorem count (h : Counted t) (hs : Sound t.pool) (hi : t.expiring[i]? = some ⟨w, false⟩)
    (hx : t.pool.elems.load w.elem = some x) (hj : x.container = some j) :
    Counted { t with
      pool     := { t.pool with containers := t.pool.containers.modify j .decFluxes }
      expiring := t.expiring.set i ⟨w, true⟩ } := by
  have hn (e : ElemId) : _ + [w.elem].count e = _ + 0 :=
    count_filterMap_set (f := Expiry.lowers) hi ⟨w, true⟩ e
  refine h.update hs rfl hx hj rfl (fun e he => ?_) (fun c hc hf => ?_)
  case refine_1 =>
    have hn := hn e
    rw [List.count_singleton, if_neg (by simpa using he.symm)] at hn
    simp only [watching, running]
    omega
  case refine_2 =>
    have hn := hn w.elem
    rw [List.count_singleton_self] at hn
    rw [Container.toInt_decFluxes (by simp only [watching] at hf; omega), hf]
    simp only [watching, running]
    omega

theorem remove (h : Counted t) (hi : t.expiring[i]? = some ⟨w, true⟩) :
    Counted { t with pool := t.pool.forget w, expiring := t.expiring.eraseIdx i } := by
  refine h.quiet (.of_elems (State.elems_forget w)) (State.containers_forget w) fun e => ?_
  have hn : _ + 0 = _ := count_filterMap_eraseIdx (f := Expiry.lowers) hi e
  have hw : running (t.pool.forget w) e = running t.pool e := by rw [running, State.watchers_forget]; rfl
  simp only [watching, hw]
  omega

theorem stop (h : Counted t) (hi : t.pool.watchers[i]? = some w) (ho : isOpen t.pool w.elem = false) :
    Counted { t with pool := { t.pool with watchers := t.pool.watchers.eraseIdx i } } := by
  have hn (e : ElemId) : _ + [w.elem].count e = _ :=
    count_filterMap_eraseIdx (f := fun w : Watcher => some w.elem) hi e
  refine h.congr (.of_elems rfl) rfl (fun e => ?_) (fun e he => ?_)
  case refine_1 =>
    have hn := hn e
    simp only [watching, running]
    omega
  case refine_2 =>
    have hne : w.elem ≠ e := fun hc => by simp [hc, he] at ho
    have hn := hn e
    rw [List.count_singleton, if_neg (by simpa using hne)] at hn
    simp only [watching, running]
    omega

theorem add {cnt : Container} (h : Counted t) (hs : Sound t.pool) (hc : cnt.fluxes = 0)
    (ha : State.Added { t.pool with containers := t.pool.containers.alloc cnt } conn
      (some t.pool.containers.size) s) : Counted { t with pool := s } := by
  have hw : ∀ e, { t with pool := s }.watching e = t.watching e := by
    intro e
    cases ha <;> rfl
  have ht : s.containers = t.pool.containers.alloc cnt := by cases ha <;> rfl
  constructor
  case alloc =>
    intro e hp
    exact ha.size ▸ Nat.lt_succ_of_lt (h.alloc e (hw e ▸ hp))
  case fluxes =>
    intro e ho c hl
    have hl : s.containers.load e = some c := hl
    rw [ht, Heap.load_alloc, hs.size] at hl
    rw [hw]
    by_cases he : e = t.pool.elems.size
    case pos =>
      rw [if_pos he] at hl
      cases hl
      -- Nothing counts for an element that did not exist.
      have hz : t.watching e = 0 := by
        by_contra hp
        exact absurd (h.alloc e (Nat.pos_of_ne_zero hp)) (he ▸ lt_irrefl _)
      simp [hc, hz]
    case neg =>
      rw [if_neg he] at hl
      refine h.fluxes e ?_ c hl
      have ho := (Evolves.of_added ha).left.isOpen ho
      simpa [isOpen, State.allocElem, Heap.load_alloc, he] using ho

theorem step (h : Counted t) (hs : Sound t.pool) (ha : Acted t op t') (hg : t.FitsInt8 op) :
    Counted t' := by
  cases ha
  case idle => exact h
  case add hc ha => exact h.add hs hc ha
  case get =>
    refine h.quiet (.of_elems rfl) rfl fun e => ?_
    simp [watching, Pc.raised]
  case runGet hi hr     => exact h.runGet hs hi hr (hg _ hi)
  case runDelete hi hr  => exact h.runDelete hs hr (hg _ hi)
  case check hi         => exact h.check hi
  case count hi hx hj _ => exact h.count hs hi hx hj
  case remove hi        => exact h.remove hi
  case stop hi ho       => exact h.stop hi ho
  all_goals exact h.quiet (.of_elems rfl) rfl fun _ => rfl

end Counted

-- The `Fluxes` of a container counts the watchers of its element, as long as no `Delete` has closed the
-- channel of the element, however the blocks of the calls and of the watchers are interleaved.
theorem fluxes_count_watchers (h : Run (GuardedSteps FitsInt8 step) (.init age) ls t)
    (ho : isOpen t.pool e = true) :
    ∃ c, t.pool.containerOf e = some e ∧ t.pool.containers.load e = some c ∧
      c.fluxes.toInt = t.watching e := by
  have ⟨hs, hc⟩ : Steady t ∧ Counted t := by
    refine h.invariant (P := fun t => Steady t ∧ Counted t) ⟨.init, .init⟩ fun hi hs => ?_
    have ⟨hg, hs⟩ := hs
    have ha := hi.left.acted hs
    exact ⟨hi.left.step ha, hi.right.step hi.left.sound ha hg⟩
  have ⟨x, hx, hx'⟩ := isOpen_iff.mp ho
  have ⟨hi, _, _⟩ := hs.sound.intact e x hx hx'
  have ⟨c, hl⟩ := Heap.exists_load (hs.sound.size ▸ Heap.lt_size_of_load hx)
  exact ⟨c, (State.containerOf_eq hx).trans hi, hl, hc.fluxes e ho c hl⟩

theorem fluxes_count_watchers_interleaved :
    ∃ ls t, Run (GuardedSteps FitsInt8 step) (.init 5) ls t ∧ isOpen t.pool 1 = true ∧
      t.watching 1 = 2 ∧
      ∃ c, t.pool.containerOf 1 = some 1 ∧ t.pool.containers.load 1 = some c ∧
        c.fluxes.toInt = t.watching 1 := by
  have ⟨t, ls, h, ht⟩ : ∃ t ls, Run (GuardedSteps FitsInt8 step) (.init 5) ls t ∧
      decide (isOpen t.pool 1 = true ∧ t.watching 1 = 2) = true :=
    Run.of_passes_restrict exampleSchedule (by decide +kernel)
  have ⟨ho, hw⟩ := of_decide_eq_true ht
  exact ⟨ls, t, h, ho, hw, fluxes_count_watchers h ho⟩

end Threads
end Pool.Concurrent
