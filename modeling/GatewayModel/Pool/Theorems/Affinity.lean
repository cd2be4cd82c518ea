import GatewayModel.Pool.Theorems.Accounting
import GatewayModel.Pool.Theorems.Safety

open Go Execution RoundRobin

-- A flow that is used often enough stays on its connection.
namespace Pool.State

variable {s s' s₁ s₂ s₃ : State} {crc : Crc} {conn : Option ConnId} {lock : Option SemId} {t₀ age : Int}
  {i : ContainerId}

section Bound

def WithinLimit (s : State) (crc : Crc) : Prop :=
  ∀ c ∈ (s.crcContainer crc).bind fun p => p.bind s.containers.load, c.fluxes ≤ c.maxFluxes

-- The steps that leave a flow where it is: `Get` finds its container within the limit, and `Delete` is
-- not called for an element that knows the flow.
def Leaves (crc : Crc) (s : State) : Op → Prop
  | .get c     => (c = crc) → s.WithinLimit crc
  | .delete ce => crc ∉ s.portsOf ce
  | _          => True

instance : Decidable (s.WithinLimit crc) :=
  inferInstanceAs (Decidable (∀ c ∈ (s.crcContainer crc).bind fun p => p.bind s.containers.load,
    c.fluxes ≤ c.maxFluxes))

instance : (op : Op) → Decidable (Leaves crc s op)
  | .get c     => inferInstanceAs (Decidable ((c = crc) → s.WithinLimit crc))
  | .delete ce => inferInstanceAs (Decidable (crc ∉ s.portsOf ce))
  | .add .. | .next | .tick _ | .stop _ | .wait _ => .isTrue trivial

structure Bound (crc : Crc) (conn : Option ConnId) (lock : Option SemId) (t₀ : Int) (s : State) :
    Prop where
  conn      : s.crc2conn crc = some conn
  container : ∃ i, s.crcContainer crc = some (some i)
  lock      : s.crc2lock crc = lock
  used      : ∃ t, s.crcFluxUsageMap crc = some t ∧ t₀ ≤ t

structure Timed (age : Int) (s : State) : Prop where
  maxAge   : s.fluxMaxAge = age
  timeouts : ∀ w ∈ s.watchers, w.timeout = age ∨ w.timeout = deleteTimeout

theorem Stepped.clock_le (h : Stepped s op tr s') : s.clock ≤ s'.clock := by
  cases h
  case add ha => cases ha <;> exact le_refl _
  case get hg => cases hg <;> exact le_refl _
  case wait   => simp
  case next hn =>
    obtain ⟨_, _, _, hs⟩ := next_inv hn
    subst hs
    exact le_refl _
  case delete hu hc ho =>
    obtain ⟨_, _, _, hs⟩ := clear_inv hc
    subst hs
    cases hu <;> cases ho <;> exact le_refl _
  case deleteAgain hu =>
    cases hu
    exact le_refl _
  case tick hk =>
    cases hk
    case idle => exact le_refl _
    case expired w _ _ _ _ _ _ _ _ => cases ho : w.origin <;> simp [forget, ho]
  case stop hk => rcases hk with hs | hs <;> simp [hs]

theorem Timed.step (h : Timed age s) (hs : Stepped s op tr s') : Timed age s' where
  maxAge   := hs.fluxMaxAge_eq.trans h.maxAge
  timeouts := by
    have mono {ws : List Watcher} (hw : ws ⊆ s.watchers) (w : Watcher) (hm : w ∈ ws) :=
      h.timeouts w (hw hm)
    cases hs
    case add ha => cases ha <;> exact h.timeouts
    case wait   => exact h.timeouts
    case next hn =>
      obtain ⟨_, _, _, hs⟩ := next_inv hn
      subst hs
      exact h.timeouts
    case get hg =>
      cases hg
      case fast => exact h.timeouts
      case slow =>
        intro w hw
        rcases List.mem_append.mp hw with hw | hw
        case inl => exact h.timeouts w hw
        case inr => exact .inl (List.mem_singleton.mp hw ▸ h.maxAge)
    case delete hu hc ho =>
      have hf := (hu.sameFlows.trans (clear_sameFlows hc)).watchers
      cases ho
      case idle => exact hf ▸ h.timeouts
      case moved =>
        intro w hw
        rcases List.mem_append.mp hw with hw | hw
        case inl => exact h.timeouts w (hf ▸ hw)
        case inr =>
          obtain ⟨_, _, he⟩ := List.mem_map.mp hw
          exact .inr (he ▸ rfl)
    case deleteAgain hu =>
      cases hu
      exact h.timeouts
    case tick hk =>
      cases hk
      case idle    => exact h.timeouts
      case expired => exact mono (List.eraseIdx_subset ..)
    case stop hk =>
      rcases hk with hs | hs
      case inl => exact hs ▸ h.timeouts
      case inr => exact hs ▸ mono (List.eraseIdx_subset ..)

theorem Timed.run (h : PoolRun age ls s) : Timed age s :=
  Run.invariant h ⟨rfl, by simp [State.init]⟩ fun hi hs => hi.step (step_inv hs)

theorem Got.bound (h : Got s crc s' reply) : Bound crc reply.conn reply.lock s.clock s' := by
  cases h
  case fast hc hi _ _ => exact ⟨hc, ⟨_, hi⟩, rfl, s.clock, Map.set_self, le_refl _⟩
  case slow => exact ⟨Map.set_self, ⟨_, Map.set_self⟩, Map.set_self, s.clock, Map.set_self, le_refl _⟩

theorem Bound.fastPath (h : Bound crc conn lock t₀ s) (hi : Intact s l) (hl : s.WithinLimit crc) :
    s.fastPath (s.lookup crc) = .ok true := by
  obtain ⟨i, hx⟩ := h.container
  obtain ⟨_, hlt, he⟩ := hi.entries crc _ hx
  cases he
  obtain ⟨c, hc⟩ := Heap.exists_load (hi.size ▸ hlt)
  have hle : c.fluxes ≤ c.maxFluxes := hl c (by simp [hx, hc])
  have hcont : s.container (some i) = .ok c := container_eq_ok.mpr ⟨i, rfl, hc⟩
  simp only [State.fastPath, lookup, h.conn, hx, hcont, ok_bind, hle, decide_true]
  rfl

def Unexpired (crc : Crc) (s : State) : Op → Prop
  | .tick i => ∀ w ∈ s.watchers[i]?, (s.expired w) → crc ≠ w.crc
  | _       => True

instance : (op : Op) → Decidable (Unexpired crc s op)
  | .tick i => inferInstanceAs (Decidable (∀ w ∈ s.watchers[i]?, (s.expired w) → crc ≠ w.crc))
  | .add .. | .next | .get _ | .delete _ | .stop _ | .wait _ => .isTrue trivial

theorem Bound.step (h : Bound crc conn lock t₀ s) (hi : Intact s l) (hs : Stepped s op tr s')
    (hl : s.Leaves crc op) (ht : t₀ ≤ s.clock) (hw : s.Unexpired crc op) :
    Bound crc conn lock t₀ s' := by
  have same (h₁ : s'.crc2conn crc = s.crc2conn crc) (h₂ : s'.crcContainer crc = s.crcContainer crc)
      (h₃ : s'.crc2lock crc = s.crc2lock crc)
      (h₄ : s'.crcFluxUsageMap crc = s.crcFluxUsageMap crc) : Bound crc conn lock t₀ s' :=
    ⟨h₁.trans h.conn, h₂ ▸ h.container, h₃.trans h.lock, h₄ ▸ h.used⟩
  cases hs
  case add ha => cases ha <;> exact same rfl rfl rfl rfl
  case wait   => exact same rfl rfl rfl rfl
  case next hn =>
    obtain ⟨_, _, _, hs⟩ := next_inv hn
    subst hs
    exact same rfl rfl rfl rfl
  case get c hg =>
    by_cases hc : c = crc
    case pos =>
      subst hc
      cases hg
      case fast => exact ⟨h.conn, h.container, h.lock, s.clock, Map.set_self, ht⟩
      case slow hsp _ _ _ _ _ =>
        have hf := h.fastPath hi (hl rfl)
        rw [hsp] at hf
        cases hf
    case neg =>
      have hne : crc ≠ c := fun he => hc he.symm
      cases hg
      case fast => exact same rfl rfl rfl (Map.set_ne hne)
      case slow => exact same (Map.set_ne hne) (Map.set_ne hne) (Map.set_ne hne) (Map.set_ne hne)
  case delete ce _ _ hu hc ho =>
    have hf := hu.sameFlows.trans (clear_sameFlows hc)
    obtain ⟨_, _, _, hs₂⟩ := clear_inv hc
    have hk : s'.crc2lock = s.crc2lock ∧ s'.crcFluxUsageMap = s.crcFluxUsageMap := by
      subst hs₂
      cases hu <;> cases ho <;> exact ⟨rfl, rfl⟩
    refine same ?_ ?_ (congrFun hk.left crc) (congrFun hk.right crc)
    case refine_1 =>
      refine .trans ?_ (congrFun hf.crc2conn crc)
      cases ho
      case idle => rfl
      case moved he _ _ _ _ _ =>
        have hp : crc ∉ s.portsOf ce := hl
        rw [← hf.portsOf, portsOf_eq he] at hp
        exact if_neg hp
    case refine_2 =>
      refine .trans ?_ (congrFun hf.crcContainer crc)
      cases ho <;> rfl
  case deleteAgain hu =>
    cases hu
    exact same rfl rfl rfl rfl
  case tick hk =>
    cases hk
    case idle => exact h
    case expired w _ _ _ hm hx _ _ _ =>
      have hne := hw w hm hx
      cases ho : w.origin
      case get =>
        refine same ?_ ?_ ?_ ?_
        all_goals simp [forget, ho, Map.delete_ne hne]
      case delete =>
        refine same ?_ ?_ ?_ ?_
        all_goals simp [forget, ho, Map.delete_ne hne]
  case stop hk =>
    rcases hk with hs | hs
    all_goals subst hs
    case inl => exact h
    case inr => exact same rfl rfl rfl rfl

end Bound

section Calm

-- The steps while no element is deleted, and each container can hold all flows.
def Calm (flows : List Crc) : Op → Prop
  | .add _ _ _ _ maxFluxes => flows.length ≤ maxFluxes.toInt
  | .get crc               => crc ∈ flows
  | .delete _              => False
  | _                      => True

instance {flows : List Crc} : (op : Op) → Decidable (Calm flows op)
  | .add _ _ _ _ maxFluxes => inferInstanceAs (Decidable (flows.length ≤ maxFluxes.toInt))
  | .get crc               => inferInstanceAs (Decidable (crc ∈ flows))
  | .delete _              => .isFalse id
  | .next | .tick _ | .stop _ | .wait _ => .isTrue trivial

-- Each flow that is open has one watcher, and the `Fluxes` of a container is the number of its watchers.
structure Uncrowded (flows : List Crc) (s : State) : Prop where
  watched : ∀ w ∈ s.watchers, w.crc ∈ flows ∧ w.origin = .get ∧ s.crcContainer w.crc = some (some w.elem)
  once    : (s.watchers.map (·.crc)).Nodup
  known   : ∀ crc, (s.crc2conn crc ≠ none) ↔ (∃ w ∈ s.watchers, w.crc = crc)
  fluxes  : ∀ i c, (s.containers.load i = some c) →
            c.fluxes.toInt = (s.watchers.map (·.elem)).count i ∧ flows.length ≤ c.maxFluxes.toInt
  elems   : ∀ w ∈ s.watchers, w.elem < s.elems.size
  opened  : ∀ e x, (s.data e = some x) → x.stopChan = false

variable {flows : List Crc}

namespace Uncrowded

theorem init : Uncrowded flows (.init age) where
  watched := by simp [State.init]
  once    := .nil
  known   := by simp [State.init, Map.empty]
  fluxes  := by simp [State.init]
  elems   := by simp [State.init]
  opened  := by simp [State.init, data]

theorem congr (h : Uncrowded flows s) (hc : s'.containers = s.containers)
    (h₁ : s'.crc2conn = s.crc2conn) (h₂ : s'.crcContainer = s.crcContainer)
    (hw : s'.watchers = s.watchers) (hz : s'.elems.size = s.elems.size) (hd : s'.data = s.data) :
    Uncrowded flows s' where
  watched := hw ▸ h₂ ▸ h.watched
  once    := hw ▸ h.once
  known   := hw ▸ h₁ ▸ h.known
  fluxes  := hw ▸ hc ▸ h.fluxes
  elems   := hw ▸ hz ▸ h.elems
  opened  := hd ▸ h.opened

theorem subset (h : Uncrowded flows s) : s.watchers.map (·.crc) ⊆ flows := by
  intro crc hm
  obtain ⟨w, hw, he⟩ := List.mem_map.mp hm
  exact he ▸ (h.watched w hw).left

theorem nodup_cons (h : Uncrowded flows s) (hn : ∀ w ∈ s.watchers, w.crc ≠ crc) :
    (crc :: s.watchers.map (·.crc)).Nodup := by
  refine List.nodup_cons.mpr ⟨fun hm => ?_, h.once⟩
  obtain ⟨w, hw, he⟩ := List.mem_map.mp hm
  exact hn w hw he

theorem fluxes_le (h : Uncrowded flows s) (hl : s.containers.load i = some c) :
    c.fluxes.toInt ≤ flows.length := by
  have hle := (h.once.subperm h.subset).length_le
  have hcount := List.count_le_length (a := i) (l := s.watchers.map (·.elem))
  rw [List.length_map] at hle hcount
  rw [(h.fluxes i c hl).left]
  omega

-- A flow that is not counted yet leaves room for itself in every container.
theorem fluxes_lt (h : Uncrowded flows s) (hl : s.containers.load i = some c) (hcrc : crc ∈ flows)
    (hn : ∀ w ∈ s.watchers, w.crc ≠ crc) : c.fluxes.toInt < flows.length := by
  have hle := ((h.nodup_cons hn).subperm (List.cons_subset.mpr ⟨hcrc, h.subset⟩)).length_le
  have hcount := List.count_le_length (a := i) (l := s.watchers.map (·.elem))
  rw [List.length_cons, List.length_map] at hle
  rw [List.length_map] at hcount
  rw [(h.fluxes i c hl).left]
  omega

theorem withinLimit (h : Uncrowded flows s) (crc : Crc) : s.WithinLimit crc := by
  intro c hc
  obtain ⟨p, _, hp⟩ := Option.bind_eq_some_iff.mp hc
  obtain ⟨i, _, hl⟩ := Option.bind_eq_some_iff.mp hp
  have hle := h.fluxes_le hl
  have hmax := (h.fluxes i c hl).right
  exact Int8.le_iff_toInt_le.mpr (hle.trans hmax)

theorem not_watched (h : Uncrowded flows s) (hi : Intact s l) (hsp : s.SlowPath crc) :
    ∀ w ∈ s.watchers, w.crc ≠ crc := by
  intro w hw he
  have hc : s.crc2conn crc ≠ none := (h.known crc).mpr ⟨w, hw, he⟩
  obtain ⟨conn, hc⟩ := Option.ne_none_iff_exists'.mp hc
  have hx := (h.watched w hw).right.right
  rw [he] at hx
  obtain ⟨_, hlt, he⟩ := hi.entries crc _ hx
  cases he
  obtain ⟨c, hl⟩ := Heap.exists_load (hi.size ▸ hlt)
  have hle : c.fluxes ≤ c.maxFluxes := h.withinLimit crc c (by simp [hx, hl])
  have hcont : s.container (some w.elem) = .ok c := container_eq_ok.mpr ⟨_, rfl, hl⟩
  simp only [SlowPath, State.fastPath, lookup, hc, hx, hcont, ok_bind, hle, decide_true] at hsp
  cases hsp

theorem add {c : Container} (h : Uncrowded flows s) (hi : Intact s l) (hf : c.fluxes = 0)
    (hm : flows.length ≤ c.maxFluxes.toInt)
    (ha : Added { s with containers := s.containers.alloc c } conn (some s.containers.size) s') :
    Uncrowded flows s' := by
  have hz : s'.elems.size = s.elems.size + 1 := ha.size
  obtain ⟨ht, hx, hc, hw⟩ : s'.containers = s.containers.alloc c ∧ s'.crcContainer = s.crcContainer ∧
      s'.crc2conn = s.crc2conn ∧ s'.watchers = s.watchers := by
    cases ha <;> exact ⟨rfl, rfl, rfl, rfl⟩
  constructor
  case watched => exact hw ▸ hx ▸ h.watched
  case once    => exact hw ▸ h.once
  case known   => exact hw ▸ hc ▸ h.known
  case elems   => exact fun w hm => hz ▸ Nat.lt_succ_of_lt (h.elems w (hw ▸ hm))
  case fluxes =>
    intro i c' hl
    rw [ht, Heap.load_alloc] at hl
    rw [hw]
    split at hl
    case isFalse => exact h.fluxes i c' hl
    case isTrue he =>
      cases hl
      -- No watcher belongs to an element that did not exist.
      have hnm : i ∉ s.watchers.map (·.elem) := by
        intro hmem
        obtain ⟨w, hw, hwe⟩ := List.mem_map.mp hmem
        exact Nat.ne_of_lt (h.elems w hw) (hwe.trans (he.trans hi.size))
      exact ⟨by simp [hf, List.count_eq_zero.mpr hnm], hm⟩
  case opened =>
    intro e x hx
    rw [ha.data] at hx
    split at hx
    case isTrue  => cases hx; rfl
    case isFalse => exact h.opened e x hx

theorem slow (h : Uncrowded flows s) (hi : Intact s l) (hcrc : crc ∈ flows) (hsp : s.SlowPath crc)
    (he : s.elems.load cpe = some e) (hcont : e.container = some i)
    (hl : s.containers.load i = some c) : Uncrowded flows (s.assigned crc cpe e i) := by
  have hic : i = cpe := hi.own cpe i ((containerOf_eq he).trans hcont)
  subst hic
  have hn := h.not_watched hi hsp
  constructor
  case watched =>
    intro w hw
    rcases List.mem_append.mp hw with hw | hw
    case inl =>
      obtain ⟨h₁, h₂, h₃⟩ := h.watched w hw
      exact ⟨h₁, h₂, (Map.set_ne (hn w hw)).trans h₃⟩
    case inr =>
      cases List.mem_singleton.mp hw
      exact ⟨hcrc, rfl, Map.set_self⟩
  case once =>
    simp only [State.assigned, List.map_append, List.map_singleton]
    exact (List.perm_append_singleton ..).nodup_iff.mpr (h.nodup_cons hn)
  case known =>
    intro crc'
    simp only [State.assigned, Map.set_apply, List.mem_append, List.mem_singleton]
    split
    case isTrue hc  => exact ⟨fun _ => ⟨_, .inr rfl, hc.symm⟩, fun _ => by simp⟩
    case isFalse hc =>
      rw [h.known]
      constructor
      case mp =>
        rintro ⟨w, hw, hwc⟩
        exact ⟨w, .inl hw, hwc⟩
      case mpr =>
        rintro ⟨w, hw | hw, hwc⟩
        case inl => exact ⟨w, hw, hwc⟩
        case inr => exact absurd (by rw [← hwc, hw]) hc
  case fluxes =>
    intro j c' hl'
    simp only [State.assigned, List.map_append, List.map_singleton, List.count_append,
      List.count_singleton, beq_iff_eq] at hl' ⊢
    by_cases hj : j = i
    case pos =>
      subst hj
      rw [Heap.load_modify_self, hl] at hl'
      cases hl'
      obtain ⟨hf, hm⟩ := h.fluxes j c hl
      have hlt : c.fluxes < 127 := by
        refine Int8.lt_iff_toInt_lt.mpr ((h.fluxes_lt hl hcrc hn).trans_le (hm.trans ?_))
        exact Int.le_of_lt_add_one c.maxFluxes.toInt_lt
      exact ⟨by rw [Container.toInt_incFluxes hlt, hf]; simp, hm⟩
    case neg =>
      rw [Heap.load_modify_ne hj] at hl'
      rw [if_neg (Ne.symm hj)]
      exact h.fluxes j c' hl'
  case elems =>
    have hz : (s.assigned crc i e i).elems.size = s.elems.size := Heap.size_modify
    intro w hw
    rw [hz]
    rcases List.mem_append.mp hw with hw | hw
    case inl => exact h.elems w hw
    case inr => exact List.mem_singleton.mp hw ▸ Heap.lt_size_of_load he
  case opened =>
    intro q x hx
    simp only [State.assigned, data, Heap.load_modify] at hx
    split at hx
    case isFalse => exact h.opened q x hx
    case isTrue hq =>
      obtain ⟨y, hy, hyx⟩ := Option.map_eq_some_iff.mp hx
      obtain ⟨z, hz, hzy⟩ := Option.map_eq_some_iff.mp hy
      have := h.opened q { z with prev := none, next := none } (by simp [data, hz])
      rw [← hyx, ← hzy]
      exact this

theorem expired (h : Uncrowded flows s) (hi : Intact s l) (hw : s.watchers[k]? = some w)
    (he : s.elems.load w.elem = some e) (hj : e.container = some j) :
    Uncrowded flows { s.forget w with
      containers := s.containers.modify j .decFluxes, watchers := s.watchers.eraseIdx k } := by
  have hjw : j = w.elem := hi.own w.elem j ((containerOf_eq he).trans hj)
  subst hjw
  have hm := List.mem_of_getElem? hw
  obtain ⟨_, ho, _⟩ := h.watched w hm
  have hsub : s.watchers.eraseIdx k ⊆ s.watchers := List.eraseIdx_subset ..
  -- The watchers that are left watch other flows.
  have hne : ∀ v ∈ s.watchers.eraseIdx k, v.crc ≠ w.crc := by
    intro v hv
    exact (rel_of_mem_eraseIdx Ne.symm (List.pairwise_map.mp h.once) hw hv).symm
  constructor
  case watched =>
    intro v hv
    obtain ⟨h₁, h₂, h₃⟩ := h.watched v (hsub hv)
    refine ⟨h₁, h₂, ?_⟩
    simp only [forget, ho]
    exact (Map.delete_ne (hne v hv)).trans h₃
  case once => exact h.once.sublist ((List.eraseIdx_sublist ..).map _)
  case known =>
    intro crc
    simp only [forget, ho, ne_eq, Map.delete_eq_none, not_or]
    have hk := h.known crc
    constructor
    case mp =>
      rintro ⟨hc, hx⟩
      obtain ⟨v, hv, hvc⟩ := hk.mp hx
      refine ⟨v, (mem_eraseIdx_or_of_mem k hv).resolve_right fun hvk => ?_, hvc⟩
      cases hvk.symm.trans hw
      exact hc hvc.symm
    case mpr =>
      rintro ⟨v, hv, hvc⟩
      exact ⟨fun hc => hne v hv (hvc.trans hc), hk.mpr ⟨v, hsub hv, hvc⟩⟩
  case fluxes =>
    intro i c hl
    have hcount : ((s.watchers.eraseIdx k).map (·.elem)).count i + (if w.elem = i then 1 else 0) =
        (s.watchers.map (·.elem)).count i := by
      simpa [List.filterMap_eq_map', List.count_singleton] using
        count_filterMap_eraseIdx (f := fun w => some w.elem) hw i
    change c.fluxes.toInt = ((s.watchers.eraseIdx k).map (·.elem)).count i ∧ _
    by_cases hie : i = w.elem
    case pos =>
      subst hie
      rw [Heap.load_modify_self, Option.map_eq_some_iff] at hl
      obtain ⟨c₀, hl, hc⟩ := hl
      obtain ⟨hf, hmx⟩ := h.fluxes _ c₀ hl
      rw [if_pos rfl] at hcount
      subst hc
      refine ⟨?_, by unfold Container.decFluxes; split <;> exact hmx⟩
      rw [Container.toInt_decFluxes (by omega), hf]
      omega
    case neg =>
      rw [Heap.load_modify_ne hie] at hl
      obtain ⟨hf, hmx⟩ := h.fluxes i c hl
      rw [if_neg (Ne.symm hie)] at hcount
      exact ⟨by omega, hmx⟩
  case elems => exact fun v hv => by simpa using h.elems v (hsub hv)
  case opened => simpa [data] using h.opened

theorem stop_eq (h : Uncrowded flows s) (hs : s.stop k = .ok s') : s' = s := by
  simp only [stop] at hs
  split at hs
  case h_1 => exact (Except.ok.inj hs).symm
  case h_2 w hw =>
    obtain ⟨e, he, hs⟩ := bind_eq_ok.mp hs
    have hl := elem_eq_ok.mp he
    have ho : e.stopChan = false := h.opened w.elem { e with prev := none, next := none } (by simp [data, hl])
    rw [ho] at hs
    exact (Except.ok.inj hs).symm

theorem step (h : Uncrowded flows s) (hi : Intact s l) (hs : s.step op = .ok (s', tr))
    (hc : Calm flows op) : Uncrowded flows s' := by
  cases op
  case stop k =>
    obtain ⟨t, ht, he⟩ := bind_eq_ok.mp hs
    cases he
    exact h.stop_eq ht ▸ h
  all_goals cases step_inv hs
  case add.add hcnt ha => exact h.add hi (by rw [hcnt]) (by rw [hcnt]; exact hc) ha
  case next.next hn =>
    obtain ⟨_, _, _, hs⟩ := next_inv hn
    subst hs
    exact h.congr rfl rfl rfl rfl rfl rfl
  case get.get hg =>
    cases hg
    case fast => exact h.congr rfl rfl rfl rfl rfl rfl
    case slow hsp _ he hcont hl _ => exact h.slow hi hc hsp he hcont hl
  case delete.delete      => exact hc.elim
  case delete.deleteAgain => exact hc.elim
  case tick.tick hk =>
    cases hk
    case idle => exact h
    case expired hw _ he hj _ => exact h.expired hi hw he hj
  case wait.wait => exact h.congr rfl rfl rfl rfl rfl rfl

theorem run (h : PoolRun age ls s) (hc : ∀ l ∈ ls, Calm flows l.1) : Uncrowded flows s := by
  have hinv : PoolRun age ls s ∧ ((∀ l ∈ ls, Calm flows l.1) → Uncrowded flows s) := by
    refine h.invariant_labels (P := fun ls s => PoolRun age ls s ∧ ((∀ l ∈ ls, Calm flows l.1) →
      Uncrowded flows s)) ⟨.refl, fun _ => .init⟩ ?_
    rintro ls s l s' ⟨hr, hu⟩ hs
    refine ⟨hr.tail hs, fun hc => ?_⟩
    obtain ⟨_, _, hi⟩ := exists_intact hr
    exact (hu fun l hl => hc l (List.mem_append_left _ hl)).step hi hs (hc l (by simp))
  exact hinv.right hc

end Uncrowded

theorem bound_calm (h : PoolRun age ls s) (hc : ∀ l ∈ ls, Calm flows l.1)
    (hb : Bound crc conn lock t₀ s) (ht : t₀ ≤ s.clock)
    (h' : Run (GuardedSteps (fun s op => Calm flows op ∧ s.Unexpired crc op) step) s ls' s') :
    Bound crc conn lock t₀ s' ∧ ∃ ls, PoolRun age ls s' ∧ ∀ l ∈ ls, Calm flows l.1 := by
  have hinv : t₀ ≤ s'.clock ∧ Bound crc conn lock t₀ s' ∧
      ∃ ls, PoolRun age ls s' ∧ ∀ l ∈ ls, Calm flows l.1 := by
    refine h'.invariant (P := fun s => t₀ ≤ s.clock ∧ Bound crc conn lock t₀ s ∧
      ∃ ls, PoolRun age ls s ∧ ∀ l ∈ ls, Calm flows l.1) ⟨ht, hb, ls, h, hc⟩ ?_
    rintro s l s' ⟨ht, hb, ls, hr, hcl⟩ ⟨⟨hl, hu⟩, hs⟩
    obtain ⟨_, _, hi⟩ := exists_intact hr
    have hleaves : s.Leaves crc l.1 := by
      cases hop : l.1
      case get    => exact fun _ => (Uncrowded.run hr hcl).withinLimit crc
      case delete => rw [hop] at hl; exact hl.elim
      all_goals trivial
    refine ⟨ht.trans (step_inv hs).clock_le, hb.step hi (step_inv hs) hleaves ht hu, _, hr.tail hs, ?_⟩
    intro l' hl'
    rcases List.mem_append.mp hl' with hl' | hl'
    case inl => exact hcl l' hl'
    case inr => exact List.mem_singleton.mp hl' ▸ hl
  exact hinv.right

-- While no element is deleted and there are no more flows than a container may have, no container is
-- over its limit, and a flow that is used again before its watcher expires is found on the same
-- connection, with the same semaphore.
theorem calm_flow_sticks (h : PoolRun age ls s) (hc : ∀ l ∈ ls, Calm flows l.1) :
    (∀ i c, (s.containers.load i = some c) → c.fluxes ≤ c.maxFluxes) ∧
    ∀ crc ∈ flows, ∀ s₁ reply ls' s', (s.get crc = .ok (s₁, reply)) →
      Run (GuardedSteps (fun s op => Calm flows op ∧ s.Unexpired crc op) step) s₁ ls' s' →
      s'.get crc = .ok (s'.touch crc, ⟨reply.conn, reply.lock, none⟩) := by
  have hu := Uncrowded.run h hc
  constructor
  case left =>
    intro i c hl
    exact Int8.le_iff_toInt_le.mpr ((hu.fluxes_le hl).trans (hu.fluxes i c hl).right)
  case right =>
    intro crc hcrc s₁ reply ls' s' hg h'
    have hstep : Step s (.get crc, reply.elem.toList.map .next) s₁ := by
      simp only [Step, Steps, step, hg, ok_bind]
      rfl
    have hc₁ : ∀ l ∈ ls ++ [(Op.get crc, reply.elem.toList.map .next)], Calm flows l.1 := by
      intro l hl
      rcases List.mem_append.mp hl with hl | hl
      case inl => exact hc l hl
      case inr => exact List.mem_singleton.mp hl ▸ hcrc
    obtain ⟨hb, ls₂, hr, hcl⟩ :=
      bound_calm (h.tail hstep) hc₁ (get_inv hg).bound (step_inv hstep).clock_le h'
    obtain ⟨_, _, hi⟩ := exists_intact hr
    have hf := hb.fastPath hi ((Uncrowded.run hr hcl).withinLimit crc)
    rw [get_of_fastPath hf, hb.conn, hb.lock]
    rfl

def exampleUses : List Op :=
  [.wait 3, .tick 0, .get 8, .wait 4, .get 9, .tick 0]

theorem calm_flow_sticks_busy :
    ∃ ls s s₁ reply ls' s', PoolRun 5 ls s ∧ s.get 8 = .ok (s₁, reply) ∧
      Run (GuardedSteps (fun s op => Calm [7, 8, 9] op ∧ s.Unexpired 8 op) step) s₁ ls' s' ∧
      s'.watchers.map (·.crc) = [8, 9] ∧ s'.clock - s.clock = 7 ∧ reply.conn = some 1 ∧
      (∀ i c, (s.containers.load i = some c) → c.fluxes ≤ c.maxFluxes) ∧
      s'.get 8 = .ok (s'.touch 8, ⟨some 1, reply.lock, none⟩) := by
  obtain ⟨s, ls, h, ht⟩ : ∃ s ls, Run Step (.init 5) ls s ∧
      (match s.get 8 with
      | .error _        => false
      | .ok (s₁, reply) => decide (reply.conn = some 1 ∧ (∀ l ∈ ls, Calm [7, 8, 9] l.1) ∧
          passes (restrict (fun s op => Calm [7, 8, 9] op ∧ s.Unexpired 8 op) step) s₁ exampleUses
            (fun s' _ => decide (s'.watchers.map (·.crc) = [8, 9] ∧ s'.clock - s.clock = 7)) = true)) =
        true :=
    Run.of_passes [.add (some 0) (some 0) 0 false 10, .add (some 1) (some 1) 1 false 10, .get 7, .wait 3]
      (by decide +kernel)
  split at ht
  case h_1 => contradiction
  case h_2 s₁ reply hg =>
    obtain ⟨hconn, hc, hp⟩ := of_decide_eq_true ht
    obtain ⟨s', ls', h', ht'⟩ := Run.of_passes_restrict exampleUses hp
    obtain ⟨hw, ht⟩ := of_decide_eq_true ht'
    obtain ⟨hle, hs⟩ := calm_flow_sticks h hc
    exact ⟨ls, s, s₁, reply, ls', s', h, hg, h', hw, ht, hconn, hle,
      hconn ▸ hs 8 (by simp) s₁ reply ls' s' hg h'⟩

end Calm

end Pool.State
