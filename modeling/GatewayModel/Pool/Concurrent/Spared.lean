import GatewayModel.Pool.Concurrent.Handover
import GatewayModel.Pool.Concurrent.Watching

open Go Execution RoundRobin

-- Which elements keep their containers.
namespace Pool.Concurrent

def DeletePc.cleared : DeletePc → Bool
  | .unlink | .clear => false
  | _                => true

section Elements

variable {s s' : State} {f : ConnPoolElem → ConnPoolElem} {p : ElemId}

structure Grows (s s' : State) : Prop where
  size  : s.elems.size ≤ s'.elems.size
  ports : ∀ e, s.portsOf e ⊆ s'.portsOf e

theorem Grows.of_elems (h : s'.elems = s.elems) : Grows s s' where
  size    := by rw [h]
  ports e := by simp [State.portsOf_apply, h]

theorem Grows.modifyElem (hf : ∀ x, x.ports ⊆ (f x).ports) : Grows s (s.modifyElem p f) where
  size  := le_of_eq (State.size_modifyElem ..).symm
  ports := by
    intro e crc hm
    simp only [State.portsOf_apply, State.load_modifyElem] at hm ⊢
    split
    case isFalse => exact hm
    case isTrue  => cases hx : s.elems.load e <;> simp_all [hf _ _]

theorem Grows.trans {s₁ : State} (h₁ : Grows s s₁) (h₂ : Grows s₁ s') : Grows s s' where
  size    := h₁.size.trans h₂.size
  ports e := List.Subset.trans (h₁.ports e) (h₂.ports e)

theorem Grows.of_added {cs : Heap Container}
    (h : State.Added { s with containers := cs } conn cnt s') : Grows s s' where
  size  := h.size ▸ Nat.le_succ _
  ports := by
    intro e crc hm
    by_cases he : e = s.elems.size
    case neg => exact (h.portsOf he).symm ▸ hm
    case pos =>
      have hn : s.elems.load e = none := Heap.load_eq_none.mpr (le_of_eq he.symm)
      simp [State.portsOf_apply, hn] at hm

theorem Grows.of_block {pc pc' : Pc} (h : Blocked s crc pc s' pc') : Grows s s' := by
  cases h
  case addCrc => exact .modifyElem fun _ _ => List.mem_insert_of_mem
  all_goals exact .of_elems rfl

theorem Grows.of_unlinked (h : State.Unlinked s p s' b) : Grows s s' := by
  cases b
  case true  => exact ⟨h.size.ge, fun e => by simp [State.portsOf, h.data]⟩
  case false =>
    cases h
    exact .modifyElem fun _ _ => id

theorem Grows.of_deleteBlock {pc pc' : DeletePc} (h : DeleteBlocked s p pc s' pc') : Grows s s' := by
  cases h
  case unlink hu => exact .of_unlinked hu
  case gone hu   => exact .of_unlinked hu
  case clear hc =>
    obtain ⟨_, _, _, rfl⟩ := State.clear_inv hc
    exact .modifyElem fun _ _ => id
  case next hn =>
    obtain ⟨_, _, _, rfl⟩ := State.next_inv hn
    exact .of_elems rfl
  case remap hm =>
    obtain ⟨_, rfl⟩ := State.remap_eq hm
    exact .of_elems rfl
  case merge => exact .modifyElem fun _ _ hm => State.mem_foldl_insert.mpr (.inl hm)
  case idle sent =>
    have hs : Grows s { s with sent := sent } := .of_elems rfl
    exact hs.trans (.modifyElem fun _ _ => id)
  all_goals exact .of_elems rfl

structure Kept (x x' : ConnPoolElem) : Prop where
  conn        : x'.conn = x.conn
  crc2ConnMap : x'.crc2ConnMap = x.crc2ConnMap
  stopChan    : x'.stopChan = x.stopChan
  container   : x'.container = x.container

def KeepsElems (s s' : State) : Prop :=
  ∀ e x', (s'.elems.load e = some x') → ∃ x, s.elems.load e = some x ∧ Kept x x'

theorem KeepsElems.of_elems (h : s'.elems = s.elems) : KeepsElems s s' :=
  fun _ x' hx' => ⟨x', h ▸ hx', rfl, rfl, rfl, rfl⟩

theorem KeepsElems.of_data (h : s'.data = s.data) : KeepsElems s s' := by
  intro e x' hx'
  have he := congrFun h e
  simp only [State.data, hx', Option.map_some] at he
  obtain ⟨x, hx, hxx'⟩ := Option.map_eq_some_iff.mp he.symm
  injection hxx' with h₀ _ _ h₁ _ h₂ h₃
  exact ⟨x, hx, h₀.symm, h₁.symm, h₃.symm, h₂.symm⟩

theorem KeepsElems.modifyElem (hf : ∀ x, Kept x (f x)) : KeepsElems s (s.modifyElem p f) := by
  intro e x' hx'
  rw [State.load_modifyElem] at hx'
  split at hx'
  case isFalse => exact ⟨x', hx', rfl, rfl, rfl, rfl⟩
  case isTrue  =>
    obtain ⟨x, hx, rfl⟩ := Option.map_eq_some_iff.mp hx'
    exact ⟨x, hx, hf x⟩

theorem KeepsElems.of_block {pc pc' : Pc} (h : Blocked s crc pc s' pc') : KeepsElems s s' := by
  cases h
  case addCrc => exact .modifyElem fun _ => ⟨rfl, rfl, rfl, rfl⟩
  all_goals exact .of_elems rfl

end Elements

namespace Threads

variable {t t' : Threads} {s : State} {r : Rotation ElemId} {op : Op} {evs : List Event} {c : Call}
  {d : Deletion} {e : ElemId}

section Guards

-- No call holds an element when `Delete` finds that it has no flows.
def Unheld (t : Threads) : Op → Prop
  | .runDelete i => ∀ d ∈ t.deletes[i]?, (d.pc = .ports) → (t.pool.portsOf d.ce = []) → ¬ t.Holds d.ce
  | _            => True

-- The calls are for elements that have been added. Every element has a connection, and every
-- container an address.
def Founded (t : Threads) : Op → Prop
  | .add dialed addr .. => dialed = true ∧ addr ≠ none
  | .get _              => 0 < t.pool.elems.size
  | .delete ce          => ce < t.pool.elems.size
  | _                   => True

instance : (op : Op) → Decidable (t.Unheld op)
  | .runDelete i => inferInstanceAs (Decidable (∀ d ∈ t.deletes[i]?, (d.pc = .ports) →
                      (t.pool.portsOf d.ce = []) → ¬ t.Holds d.ce))
  | .add .. | .get _ | .delete _ | .runGet _ | .check _ | .expire _ | .stop _ | .wait _ =>
    .isTrue trivial

instance : (op : Op) → Decidable (t.Founded op)
  | .add dialed addr .. => inferInstanceAs (Decidable (dialed = true ∧ addr ≠ none))
  | .get _              => inferInstanceAs (Decidable (0 < t.pool.elems.size))
  | .delete ce          => inferInstanceAs (Decidable (ce < t.pool.elems.size))
  | .runDelete _ | .runGet _ | .check _ | .expire _ | .stop _ | .wait _ => .isTrue trivial

def Cautious (t : Threads) (op : Op) : Prop :=
  t.Separate op ∧ t.Unheld op ∧ t.Founded op

instance : Decidable (t.Cautious op) :=
  inferInstanceAs (Decidable (_ ∧ _))

end Guards

section Progress

theorem Stepped.grows (h : Stepped t op t' evs) : Grows t.pool t'.pool := by
  cases h
  case add ha       => exact .of_added ha
  case runGet hb    => exact .of_block (block_inv hb)
  case runDelete hb => exact .of_deleteBlock hb
  case remove       => exact .of_elems (State.elems_forget _)
  all_goals exact .of_elems rfl

def Follows (t t' : Threads) : Prop :=
  ∀ d ∈ t.deletes, ∃ d' ∈ t'.deletes, d'.ce = d.ce ∧ (d.pc.cleared → d'.pc.cleared) ∧
    ((d.pc = .done) → d'.pc = .done)

theorem Follows.of_subset (h : t.deletes ⊆ t'.deletes) : Follows t t' :=
  fun d hd => ⟨d, h hd, rfl, id, id⟩

theorem Stepped.follows (h : Stepped t op t' evs) : Follows t t' := by
  cases h
  case delete => exact .of_subset fun _ => List.mem_append_left _
  case runDelete i d s pc hi hb =>
    intro d' hd'
    rcases mem_set_or_of_mem i { d with pc := pc } hd' with hm | hm
    case inl => exact ⟨d', hm, rfl, id, id⟩
    case inr =>
      cases hi.symm.trans hm
      refine ⟨_, List.mem_set (List.getElem?_eq_some_iff.mp hi).1 _, rfl, ?_⟩
      generalize d.pc = pc₀ at hb
      cases hb <;> simp [DeletePc.cleared]
  all_goals exact .of_subset fun _ => id

theorem Recorded.mono (h : t.Recorded crc e) (hg : Grows t.pool t'.pool)
    (hd : ∀ d ∈ t.deletes, (d.pc = .merge e) →
      d ∈ t'.deletes ∨ t.pool.portsOf d.ce ⊆ t'.pool.portsOf e) : t'.Recorded crc e := by
  rcases h with hp | ⟨d, hm, hpc, hp⟩
  case inl => exact .inl (hg.ports e hp)
  case inr =>
    rcases hd d hm hpc with hm' | hs
    case inl => exact .inr ⟨d, hm', hpc, hg.ports d.ce hp⟩
    case inr => exact .inl (hs hp)

def Existing (t : Threads) : Prop :=
  ∀ d ∈ t.deletes, (d.ce < t.pool.elems.size) ∧ ∀ e, d.pc.holds e → e < t.pool.elems.size

theorem Recorded.step (h : t.Recorded crc e) (hx : t.Existing) (hs : Stepped t op t' evs) :
    t'.Recorded crc e := by
  refine h.mono hs.grows fun d hd hpc => ?_
  cases hs
  case delete => exact .inl (List.mem_append_left _ hd)
  case runDelete i d' s pc hi hb =>
    refine (mem_set_or_of_mem i { d' with pc := pc } hd).imp_right fun hm => ?_
    cases hi.symm.trans hm
    rw [hpc] at hb
    cases hb
    case merge x he =>
      obtain ⟨y, hy⟩ := Heap.exists_load ((hx d hd).right e (by simp [hpc, DeletePc.holds]))
      intro crc' hm'
      exact (State.mem_portsOf_merge hy).mpr (.inr ⟨rfl, State.portsOf_eq he ▸ hm'⟩)
  all_goals exact .inl hd

theorem Existing.step (h : t.Existing) (hs : Stepped t op t' evs) (hf : t.Founded op) :
    t'.Existing := by
  have hz := hs.grows.size
  have hkeep : ∀ d ∈ t.deletes, (d.ce < t'.pool.elems.size) ∧
      ∀ e, d.pc.holds e → e < t'.pool.elems.size :=
    fun d hd => ⟨lt_of_lt_of_le (h d hd).left hz, fun e he => lt_of_lt_of_le ((h d hd).right e he) hz⟩
  cases hs
  case delete =>
    intro d hd
    rcases List.mem_append.mp hd with hd | hd
    case inl => exact hkeep d hd
    case inr =>
      cases List.mem_singleton.mp hd
      exact ⟨hf, nofun⟩
  case runDelete i d s pc hi hb =>
    intro d' hd'
    rcases List.mem_or_eq_of_mem_set hd' with hd' | hd'
    case inl => exact hkeep d' hd'
    case inr =>
      subst hd'
      have hm := hkeep d (List.mem_of_getElem? hi)
      refine ⟨hm.left, fun e he => ?_⟩
      generalize hpc : d.pc = pc₀ at hb
      cases hb
      case next rCe hn =>
        obtain ⟨_, _, hl, rfl⟩ := State.next_inv hn
        have hre : rCe = e := by simpa [DeletePc.holds] using he
        exact hre ▸ Heap.lt_size_of_load hl
      case remap => exact hm.right e (by simpa [hpc, DeletePc.holds] using he)
      all_goals simp [DeletePc.holds] at he
  all_goals exact hkeep

end Progress

section Fitted

structure Fits (t : Threads) (e : ElemId) (x : ConnPoolElem) : Prop where
  conn      : x.conn ≠ none
  table     : x.crc2ConnMap = some ()
  stopChan  : x.stopChan → ∃ d ∈ t.deletes, d.ce = e ∧ d.pc.cleared
  container : (x.container = none) → ∃ d ∈ t.deletes, d.ce = e ∧ d.pc = .done

def Fitted (t : Threads) : Prop :=
  ∀ e x, (t.pool.elems.load e = some x) → t.Fits e x

theorem Fits.mono {x x' : ConnPoolElem} (h : t.Fits e x) (hf : Follows t t') (hk : Kept x x') :
    t'.Fits e x' where
  conn        := hk.conn ▸ h.conn
  table       := hk.crc2ConnMap.trans h.table
  stopChan hc := by
    obtain ⟨d, hd, he, hpc⟩ := h.stopChan (hk.stopChan ▸ hc)
    obtain ⟨d', hd', he', hcl, _⟩ := hf d hd
    exact ⟨d', hd', he'.trans he, hcl hpc⟩
  container hc := by
    obtain ⟨d, hd, he, hpc⟩ := h.container (hk.container ▸ hc)
    obtain ⟨d', hd', he', _, hdn⟩ := hf d hd
    exact ⟨d', hd', he'.trans he, hdn hpc⟩

namespace Fitted

theorem mono (h : t.Fitted) (hf : Follows t t') (hk : KeepsElems t.pool t'.pool) : t'.Fitted := by
  intro e x' hx'
  obtain ⟨x, hx, hk⟩ := hk e x' hx'
  exact (h e x hx).mono hf hk

theorem add {cs : Heap Container} {i : ContainerId} (h : t.Fitted) (hk : conn ≠ none)
    (ha : State.Added { t.pool with containers := cs } conn (some i) s) :
    Fitted { t with pool := s } := by
  intro e x hx
  have hd : (s.data e) = some { x with prev := none, next := none } := by simp [State.data, hx]
  rw [ha.data] at hd
  split at hd
  case isTrue  =>
    injection hd with hd
    injection hd with h₀ _ _ h₁ _ h₂ h₃
    exact ⟨h₀ ▸ hk, h₁.symm, by simp [← h₃], by simp [← h₂]⟩
  case isFalse =>
    obtain ⟨y, hy, hyx⟩ := Option.map_eq_some_iff.mp hd
    injection hyx with h₀ _ _ h₁ _ h₂ h₃
    exact (h e y hy).mono (.of_subset fun _ => id) ⟨h₀.symm, h₁.symm, h₃.symm, h₂.symm⟩

theorem setDelete {f : ConnPoolElem → ConnPoolElem} (h : t.Fitted) (hs : Stepped t op t' evs)
    (he : t'.pool.elems = t.pool.elems.modify ce f)
    (hc : ∀ x, t'.Fits ce x → t'.Fits ce (f x)) : t'.Fitted := by
  have hold : ∀ e x, (t.pool.elems.load e = some x) → t'.Fits e x :=
    fun e x hx => (h e x hx).mono hs.follows ⟨rfl, rfl, rfl, rfl⟩
  intro e x' hx'
  rw [he, Heap.load_modify] at hx'
  split at hx'
  case isFalse => exact hold e x' hx'
  case isTrue hce =>
    obtain ⟨x, hx, rfl⟩ := Option.map_eq_some_iff.mp hx'
    subst hce
    exact hc x (hold e x hx)

theorem step (h : t.Fitted) (hl : Linked t r) (hs : Stepped t op t' evs) (hg : t.Separate op)
    (hf : t.Founded op) : t'.Fitted := by
  have hst := hs
  cases hs
  case add hc ha    => exact h.add (by simp [hc, hf.left]) ha
  case runGet hb    => exact h.mono hst.follows (.of_block (block_inv hb))
  case remove       => exact h.mono hst.follows (.of_elems (State.elems_forget _))
  case runDelete i d s pc hi hb =>
    have hmem : ({ d with pc := pc } : Deletion) ∈ t.deletes.set i { d with pc := pc } :=
      List.mem_set (List.getElem?_eq_some_iff.mp hi).1 _
    generalize hpc : d.pc = pc₀ at hb
    cases hb
    case unlink hu => exact h.mono hst.follows (.of_data hu.data)
    case gone hu   => exact absurd (hl.unlink hi hpc hu (hg d hi hpc)).left (by simp)
    case clear hc =>
      obtain ⟨_, _, _, rfl⟩ := State.clear_inv hc
      refine h.setDelete hst rfl fun x hx => { hx with stopChan := fun _ => ?_ }
      exact ⟨_, hmem, rfl, rfl⟩
    case idle =>
      refine h.setDelete hst rfl fun x hx => { hx with container := fun _ => ?_ }
      exact ⟨_, hmem, rfl, rfl⟩
    case merge => exact h.mono hst.follows (.modifyElem fun _ => ⟨rfl, rfl, rfl, rfl⟩)
    case next hn =>
      obtain ⟨_, _, _, rfl⟩ := State.next_inv hn
      exact h.mono hst.follows (.of_elems rfl)
    case remap hm =>
      obtain ⟨_, rfl⟩ := State.remap_eq hm
      exact h.mono hst.follows (.of_elems rfl)
    all_goals exact h.mono hst.follows (.of_elems rfl)
  all_goals exact h.mono hst.follows (.of_elems rfl)

end Fitted
end Fitted

section Spared

-- A `Delete` has found the element without flows, and takes its container away.
def Stripped (t : Threads) (e : ElemId) : Prop :=
  ∃ d ∈ t.deletes, d.ce = e ∧ (d.pc = .idle ∨ (d.pc = .done ∧ t.pool.containerOf e = none))

structure Spared (t : Threads) : Prop where
  ports : ∀ e, t.Stripped e → t.pool.portsOf e = []
  held  : ∀ e, t.Stripped e → ¬ t.Holds e

theorem Stripped.unlinked (h : t.Stripped e) (hl : Linked t r) :
    e ∉ r.order ∧ e < t.pool.elems.size := by
  obtain ⟨d, hd, rfl, hpc⟩ := h
  refine hl.unlinked d hd fun hu => ?_
  simp [hu] at hpc

theorem Stripped.of_containerOf (hf : t.Fitted) (he : e < t.pool.elems.size)
    (hc : t.pool.containerOf e = none) : t.Stripped e := by
  obtain ⟨x, hx⟩ := Heap.exists_load he
  obtain ⟨d, hd, hde, hpc⟩ := (hf e x hx).container ((State.containerOf_eq hx).symm.trans hc)
  exact ⟨d, hd, hde, .inr ⟨hpc, hc⟩⟩

namespace Spared

theorem init {age : Int} : Spared (.init age) where
  ports := by simp [Stripped, Threads.init]
  held  := by simp [Stripped, Threads.init]

theorem mono (h : Spared t) (hl : Linked t r) (hst : ∀ e, t'.Stripped e → t.Stripped e)
    (hh : ∀ e, t'.Holds e → t.Holds e ∨ e ∈ r.order)
    (hp : ∀ e, ¬ t.Holds e → t'.pool.portsOf e = t.pool.portsOf e) : Spared t' where
  ports e hs := (hp e (h.held e (hst e hs))).trans (h.ports e (hst e hs))
  held e hs hh' := by
    rcases hh e hh' with hh' | ho
    case inl => exact h.held e (hst e hs) hh'
    case inr => exact ((hst e hs).unlinked hl).left ho

theorem pool {xs : List Expiry} (h : Spared t) (hl : Linked t r) (he : s.elems = t.pool.elems) :
    Spared ⟨s, t.gets, t.deletes, xs⟩ := by
  have hc : s.containerOf = t.pool.containerOf := by
    funext q
    rw [State.containerOf_apply, State.containerOf_apply, he]
  refine h.mono hl (fun e hs => ?_) (fun _ => .inl) fun e _ => ?_
  case refine_1 =>
    obtain ⟨d, hd, hde, hpc⟩ := hs
    exact ⟨d, hd, hde, hc ▸ hpc⟩
  case refine_2 =>
    change s.portsOf e = _
    rw [State.portsOf_apply, State.portsOf_apply, he]

theorem add {cs : Heap Container} (h : Spared t) (hl : Linked t r)
    (ha : State.Added { t.pool with containers := cs } conn cnt s) : Spared { t with pool := s } := by
  refine h.mono hl (fun e hs => ?_) (fun _ => .inl) fun e _ => ?_
  case refine_1 =>
    obtain ⟨d, hd, hde, hpc⟩ := hs
    have hlt := (hl.unlinked d hd fun hu => by simp [hu] at hpc).right
    have hne : e ≠ t.pool.elems.size := hde ▸ ne_of_lt hlt
    exact ⟨d, hd, hde, hpc.imp_right (·.imp_right (ha.containerOf hne).symm.trans)⟩
  case refine_2 =>
    by_cases he : e = t.pool.elems.size
    case neg => exact ha.portsOf he
    case pos =>
      have hn : t.pool.data t.pool.elems.size = none := by
        simp [State.data, Heap.load_eq_none.mpr le_rfl]
      simp [State.portsOf, ha.data, he, hn, State.newElem]

theorem runGet (h : Spared t) (hl : Linked t r) (hi : t.gets[i]? = some c)
    (hb : block t.pool c.crc c.pc = .ok (s, pc)) :
    Spared { t with pool := s, gets := t.gets.set i { c with pc := pc } } := by
  have hm := List.mem_of_getElem? hi
  have hc : s.containerOf = t.pool.containerOf := by
    generalize c.pc = pc₀ at hb
    cases block_inv hb
    case addCrc => exact State.containerOf_modifyElem fun _ => rfl
    all_goals rfl
  have hholds : ∀ e, pc.holds e → t.Holds e ∨ e ∈ r.order := by
    intro e he
    rcases block_ring hb with ⟨cpe, _, rfl, hn⟩ | ⟨hne, _⟩
    case inl =>
      have hce : cpe = e := by simpa [Pc.holds] using he
      exact .inr (hce ▸ hl.mem_order_of_next hn)
    case inr =>
      refine .inl (.inl ⟨c, hm, ?_⟩)
      generalize c.pc = pc₀ at hb
      cases block_inv hb
      case next   => exact absurd rfl (hne _)
      case addCrc => simpa [Pc.holds] using he
      all_goals simp [Pc.holds] at he
  refine h.mono hl (fun e hs => ?_) (fun e hs => ?_) fun e he => ?_
  case refine_1 =>
    obtain ⟨d, hd, hde, hpc⟩ := hs
    exact ⟨d, hd, hde, hc ▸ hpc⟩
  case refine_2 =>
    rcases hs with ⟨c', hc', he⟩ | hd
    case inr => exact .inl (.inr hd)
    case inl =>
      rcases List.mem_or_eq_of_mem_set hc' with hc' | rfl
      case inl => exact .inl (.inl ⟨c', hc', he⟩)
      case inr => exact hholds e he
  case refine_3 =>
    generalize hpc : c.pc = pc₀ at hb
    cases block_inv hb
    case addCrc cpe =>
      have hne : e ≠ cpe := by
        rintro rfl
        exact he (.inl ⟨c, hm, by simp [hpc, Pc.holds]⟩)
      simp [State.portsOf_apply, State.addCrc, State.load_modifyElem, hne]
    all_goals rfl

section Deletes

variable {i : Nat} {pc : DeletePc} (h : Spared t) (hl : Linked t r) (hi : t.deletes[i]? = some d)
include h hl hi

theorem setDelete (hc : ∀ e ≠ d.ce, s.containerOf e = t.pool.containerOf e)
    (hst : (pc = .idle ∨ pc = .done ∧ s.containerOf d.ce = none) → t.Stripped d.ce)
    (hh : ∀ e, pc.holds e → d.pc.holds e ∨ e ∈ r.order)
    (hp : ∀ e, ¬ t.Holds e → s.portsOf e = t.pool.portsOf e) :
    Spared { t with pool := s, deletes := t.deletes.set i { d with pc := pc } } := by
  have hm := List.mem_of_getElem? hi
  refine h.mono hl (fun e hs => ?_) (fun e hs => ?_) hp
  case refine_1 =>
    obtain ⟨d', hd', rfl, hpc⟩ := hs
    rcases (hl.mem_set hi).mp hd' with rfl | ⟨hd', hne⟩
    case inl => exact hst hpc
    case inr => exact ⟨d', hd', rfl, hc d'.ce hne ▸ hpc⟩
  case refine_2 =>
    rcases hs with hg | ⟨d', hd', he⟩
    case inl => exact .inl (.inl hg)
    case inr =>
      rcases (hl.mem_set hi).mp hd' with rfl | ⟨hd', _⟩
      case inl => exact (hh e he).imp_left fun he => .inr ⟨d, hm, he⟩
      case inr => exact .inl (.inr ⟨d', hd', he⟩)

theorem runDelete (hf : t.Fitted) (hb : DeleteBlocked t.pool d.ce d.pc s pc)
    (hg : (d.pc = .unlink) → t.pool.nextOf d.ce ≠ some d.ce)
    (hn : (d.pc = .ports) → (t.pool.portsOf d.ce = []) → ¬ t.Holds d.ce) :
    Spared { t with pool := s, deletes := t.deletes.set i { d with pc := pc } } := by
  have hm := List.mem_of_getElem? hi
  generalize hpc : d.pc = pc₀ at hb
  cases hb
  case unlink hu =>
    have hf := hu.sameFlows
    exact h.setDelete hl hi (fun _ _ => by rw [hf.containerOf]) (by simp) (by simp [DeletePc.holds])
      fun _ _ => by rw [hf.portsOf]
  case gone hu => exact absurd (hl.unlink hi hpc hu (hg hpc)).left (by simp)
  case clear hc =>
    have hf := State.clear_sameFlows hc
    exact h.setDelete hl hi (fun _ _ => by rw [hf.containerOf]) (by simp) (by simp [DeletePc.holds])
      fun _ _ => by rw [hf.portsOf]
  case free x he hp =>
    have hports : t.pool.portsOf d.ce = [] := (State.portsOf_eq he).trans hp
    have hholds : ∀ e, Holds { t with deletes := t.deletes.set i { d with pc := .idle } } e →
        t.Holds e := by
      rintro e (hg | ⟨d', hd', he⟩)
      case inl => exact .inl hg
      case inr =>
        rcases (hl.mem_set hi).mp hd' with rfl | ⟨hd', _⟩
        case inl => simp [DeletePc.holds] at he
        case inr => exact .inr ⟨d', hd', he⟩
    have hst : ∀ e, Stripped { t with deletes := t.deletes.set i { d with pc := .idle } } e →
        e = d.ce ∨ t.Stripped e := by
      rintro e ⟨d', hd', rfl, hpc'⟩
      rcases (hl.mem_set hi).mp hd' with rfl | ⟨hd', _⟩
      case inl => exact .inl rfl
      case inr => exact .inr ⟨d', hd', rfl, hpc'⟩
    constructor
    case ports =>
      intro e hs
      rcases hst e hs with rfl | hs
      case inl => exact hports
      case inr => exact h.ports e hs
    case held =>
      intro e hs hh
      rcases hst e hs with rfl | hs
      case inl => exact hn hpc hports (hholds _ hh)
      case inr => exact h.held e hs (hholds e hh)
  case ports =>
    exact h.setDelete hl hi (fun _ _ => rfl) (by simp) (by simp [DeletePc.holds]) fun _ _ => rfl
  case next rCe hx =>
    have ho := hl.mem_order_of_next hx
    obtain ⟨_, _, _, rfl⟩ := State.next_inv hx
    refine h.setDelete hl hi (fun _ _ => rfl) (by simp) (fun e he => .inr ?_) fun _ _ => rfl
    have hre : rCe = e := by simpa [DeletePc.holds] using he
    exact hre ▸ ho
  case remap hs =>
    obtain ⟨_, rfl⟩ := State.remap_eq hs
    refine h.setDelete hl hi (fun _ _ => rfl) (by simp) (fun e he => .inl ?_) fun _ _ => rfl
    simpa [hpc, DeletePc.holds] using he
  case merge x rCe he =>
    have hc : (t.pool.merge rCe x.ports).containerOf = t.pool.containerOf :=
      State.containerOf_modifyElem fun _ => rfl
    refine h.setDelete hl hi (fun _ _ => by rw [hc]) (by simp) (by simp [DeletePc.holds])
      fun e hnh => ?_
    have hne : e ≠ rCe := by
      rintro rfl
      exact hnh (.inr ⟨d, hm, by simp [hpc, DeletePc.holds]⟩)
    simp [State.portsOf_apply, State.merge, State.load_modifyElem, hne]
  case terminate =>
    refine h.setDelete hl hi (fun _ _ => rfl) (fun hs => ?_) (by simp [DeletePc.holds]) fun _ _ => rfl
    rcases hs with hs | ⟨_, hc⟩
    case inl => contradiction
    case inr => exact .of_containerOf hf (hl.unlinked d hm (by simp [hpc])).right hc
  case idle sent =>
    have hp : ({ t.pool with sent := sent }.modifyElem d.ce ({ · with container := none })).portsOf =
        t.pool.portsOf := State.portsOf_modifyElem fun _ => rfl
    refine h.setDelete hl hi (fun e hne => ?_) (fun _ => ⟨d, hm, rfl, .inl hpc⟩)
      (by simp [DeletePc.holds]) fun _ _ => by rw [hp]
    simp [State.containerOf_apply, State.load_modifyElem, hne]
  case done =>
    exact h.setDelete hl hi (fun _ _ => rfl) (fun hs => ⟨d, hm, rfl, hpc ▸ hs⟩)
      (by simp [DeletePc.holds]) fun _ _ => rfl

end Deletes

theorem step (h : Spared t) (hl : Linked t r) (hf : t.Fitted) (hs : Stepped t op t' evs)
    (hg : t.Cautious op) : Spared t' := by
  cases hs
  case idle   => exact h
  case add ha => exact h.add hl ha
  case get crc =>
    refine h.mono hl (fun _ => id) (fun e hh => .inl ?_) fun _ _ => rfl
    refine hh.imp_left ?_
    rintro ⟨c, hc, he⟩
    rcases List.mem_append.mp hc with hc | hc
    case inl => exact ⟨c, hc, he⟩
    case inr =>
      cases List.mem_singleton.mp hc
      simp [Pc.holds] at he
  case delete ce =>
    refine h.mono hl (fun e hs => ?_) (fun e hh => .inl ?_) fun _ _ => rfl
    case refine_1 =>
      obtain ⟨d, hd, hde, hpc⟩ := hs
      rcases List.mem_append.mp hd with hd | hd
      case inl => exact ⟨d, hd, hde, hpc⟩
      case inr =>
        cases List.mem_singleton.mp hd
        simp at hpc
    case refine_2 =>
      refine hh.imp_right ?_
      rintro ⟨d, hd, he⟩
      rcases List.mem_append.mp hd with hd | hd
      case inl => exact ⟨d, hd, he⟩
      case inr =>
        cases List.mem_singleton.mp hd
        simp [DeletePc.holds] at he
  case runGet hi hb    => exact h.runGet hl hi hb
  case runDelete hi hb => exact h.runDelete hl hi hf hb (hg.left _ hi) (hg.right.left _ hi)
  case remove          => exact h.pool hl (State.elems_forget _)
  all_goals exact h.pool hl rfl

end Spared

theorem Recorded.lt_size (h : t.Recorded crc e) (hx : t.Existing) : e < t.pool.elems.size := by
  rcases h with hp | ⟨d, hd, hpc, _⟩
  case inl =>
    by_contra hge
    have hn : t.pool.elems.load e = none := Heap.load_eq_none.mpr (Nat.le_of_not_lt hge)
    simp [State.portsOf_apply, hn] at hp
  case inr => exact (hx d hd).right e (by simp [hpc, DeletePc.holds])

theorem exists_container (hs : Sound t.pool) (hf : t.Fitted) (hlt : e < t.pool.elems.size)
    (hst : ¬ t.Stripped e) : ∃ x c, t.pool.elems.load e = some x ∧ x.container = some e ∧
      t.pool.containers.load e = some c := by
  obtain ⟨x, hx⟩ := Heap.exists_load hlt
  obtain ⟨c, hc⟩ := Heap.exists_load (hs.size.symm ▸ hlt)
  refine ⟨x, c, hx, ?_, hc⟩
  cases hi : t.pool.containerOf e
  case some i =>
    rw [← State.containerOf_eq hx, hi, hs.own e i hi]
  case none => exact absurd (.of_containerOf hf hlt hi) hst

end Spared

end Threads
end Pool.Concurrent
