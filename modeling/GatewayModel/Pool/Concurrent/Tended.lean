import GatewayModel.Pool.Concurrent.Watching

open Go Execution

-- Which flows are watched.
namespace Pool.Concurrent.Threads

-- The flow is watched for the element: a watcher runs, is about to be started or is about to remove
-- the flow.
def Tended (t : Threads) (crc : Crc) (e : ElemId) : Prop :=
  (∃ c ∈ t.gets, c.crc = crc ∧ c.pc.tends e) ∨ (∃ w ∈ t.pool.watchers, w.crc = crc ∧ w.elem = e) ∨
    (∃ x ∈ t.expiring, x.watcher.crc = crc ∧ x.watcher.elem = e)

variable {t t' : Threads} {op : Op}

structure Watched (t : Threads) : Prop where
  known  : ∀ crc e, (t.pool.crc2conn crc = some (some e)) → e < t.pool.elems.size
  tended : ∀ crc e, (t.pool.crc2conn crc = some (some e)) → (isOpen t.pool e = true) → t.Tended crc e

namespace Watched

theorem init {age : Int} : Watched (.init age) where
  known  := by simp [Threads.init, State.init, Map.empty]
  tended := by simp [Threads.init, State.init, Map.empty]

theorem mono (h : Watched t) (he : Evolves t.pool t'.pool)
    (hm : ∀ crc e, (t'.pool.crc2conn crc = some (some e)) → t.pool.crc2conn crc = some (some e))
    (ht : ∀ crc e, (t'.pool.crc2conn crc = some (some e)) → (isOpen t.pool e = true) →
      (t.Tended crc e) → t'.Tended crc e) : Watched t' where
  known crc e hc     := he.size ▸ h.known crc e (hm crc e hc)
  tended crc e hc ho := ht crc e hc (he.isOpen ho) (h.tended crc e (hm crc e hc) (he.isOpen ho))

theorem map {P : Crc → Prop} {q : ElemId} (h : Watched t) (hs : Sound t.pool)
    (he : t'.pool.elems = t.pool.elems) (hx : t.pool.elems.load q = some x)
    (hm : ∀ crc conn, (t'.pool.crc2conn crc = some conn) →
      (P crc ∧ conn = x.conn) ∨ t.pool.crc2conn crc = some conn)
    (hp : ∀ crc, P crc → t'.Tended crc q) (ht : ∀ crc e, t.Tended crc e → t'.Tended crc e) :
    Watched t' := by
  have heq {e} (hc : some e = x.conn) : e = q :=
    hs.conns q e ((State.connOf_eq hx).trans hc.symm)
  constructor
  case known =>
    intro crc e hc
    rw [he]
    rcases hm crc _ hc with ⟨_, hq⟩ | hc
    case inl => exact heq hq ▸ Heap.lt_size_of_load hx
    case inr => exact h.known crc e hc
  case tended =>
    intro crc e hc ho
    rcases hm crc _ hc with ⟨hcrc, hq⟩ | hc
    case inl => exact heq hq ▸ hp crc hcrc
    case inr => exact ht crc e (h.tended crc e hc (by simpa only [isOpen, he] using ho))

theorem tended_runGet {c : Call} (hi : t.gets[i]? = some c) (hr : Ran t.pool c.crc c.pc s pc)
    (ht : t.Tended crc e) :
    { t with pool := s, gets := t.gets.set i { c with pc := pc } }.Tended crc e := by
  rcases ht with ⟨c', hm, hc, htn⟩ | ⟨w, hw, hcw⟩ | hx
  case inr.inr => exact .inr (.inr hx)
  case inr.inl => exact .inr (.inl ⟨w, hr.mem_watchers hw, hcw⟩)
  case inl =>
    rcases mem_set_or_of_mem i { c with pc := pc } hm with hm | hm
    case inl => exact .inl ⟨c', hm, hc, htn⟩
    case inr =>
      cases hi.symm.trans hm
      have hlt : i < t.gets.length := (List.getElem?_eq_some_iff.mp hi).fst
      generalize c.pc = pc₀ at hr htn
      cases hr
      case assign => simp [Pc.tends] at htn
      case quiet  => simp [‹∀ e, pc₀.tends e = false›] at htn
      case inc    => exact .inl ⟨_, List.mem_set hlt _, hc, htn⟩
      case watch cpe _ _ _ =>
        have hw : cpe = e := by simpa [Pc.tends] using htn
        exact .inr (.inl ⟨_, List.mem_append_right _ (List.mem_singleton_self _), hc, hw⟩)

theorem runGet {c : Call} (h : Watched t) (hs : Sound t.pool) (hi : t.gets[i]? = some c)
    (hr : Ran t.pool c.crc c.pc s pc) :
    Watched { t with pool := s, gets := t.gets.set i { c with pc := pc } } := by
  have ht {crc e} (ht : t.Tended crc e) := tended_runGet hi hr ht
  have hlt : i < t.gets.length := (List.getElem?_eq_some_iff.mp hi).fst
  generalize c.pc = pc₀ at hr
  cases hr
  case assign cpe x hx =>
    -- The call tends the flow that it maps.
    refine h.map (P := (· = c.crc)) hs rfl hx (fun crc conn hc => ?_) (fun crc hcrc => ?_) fun _ _ => ht
    case refine_1 =>
      simp only [State.assign, Map.set_apply] at hc
      split at hc
      case isTrue he => exact .inl ⟨he, (Option.some.inj hc).symm⟩
      case isFalse   => exact .inr hc
    case refine_2 => exact .inl ⟨_, List.mem_set hlt _, hcrc.symm, by simp [Pc.tends]⟩
  case quiet =>
    have hq := ‹Quiet t.pool s›
    exact h.mono hq.evolves (fun _ _ => hq.crc2conn ▸ id) fun _ _ _ _ => ht
  all_goals exact h.mono (.of_elems rfl) (fun _ _ => id) fun _ _ _ _ => ht

theorem runDelete {d : Deletion} (h : Watched t) (hs : Sound t.pool)
    (hr : DeleteRan t.pool d.ce d.pc s pc) :
    Watched { t with pool := s, deletes := t.deletes.set i { d with pc := pc } } := by
  have quiet {s} (hq : Quiet t.pool s) :
      Watched { t with pool := s, deletes := t.deletes.set i { d with pc := pc } } := by
    refine h.mono hq.evolves (fun _ _ => hq.crc2conn ▸ id) fun crc e _ _ ht => ?_
    simpa only [Tended, hq.watchers] using ht
  generalize d.pc = pc₀ at hr
  cases hr
  case clear hq _ => exact quiet hq
  case quiet      => exact quiet ‹_›
  case remap x rCe hx hm =>
    by_cases hp : x.ports = []
    case pos =>
      rw [hp] at hm
      cases hm
      exact quiet (.of_elems rfl rfl rfl rfl)
    case neg =>
      have ⟨y, _, _, hy, _, _, ht⟩ := State.remap_inv hm hp
      subst ht
      refine h.map (P := (· ∈ x.ports)) hs rfl hy (fun crc conn hc => ?_) (fun crc hcrc => ?_) ?_
      case refine_1 =>
        simp only [State.remapped] at hc
        split at hc
        case isTrue hm => exact .inl ⟨hm, (Option.some.inj hc).symm⟩
        case isFalse   => exact .inr hc
      case refine_2 =>
        have hw := List.mem_map_of_mem (f := fun port => Watcher.mk port rCe (.delete d.ce)
          State.deleteTimeout) hcrc
        exact .inr (.inl ⟨_, List.mem_append_right _ hw, rfl, rfl⟩)
      case refine_3 =>
        intro crc e ht
        rcases ht with hg | ⟨w, hw, hcw⟩ | hx
        case inl     => exact .inl hg
        case inr.inl => exact .inr (.inl ⟨w, List.mem_append_left _ hw, hcw⟩)
        case inr.inr => exact .inr (.inr hx)

theorem check (h : Watched t) (hi : t.pool.watchers[i]? = some w) :
    Watched { t with
      pool     := { t.pool with watchers := t.pool.watchers.eraseIdx i }
      expiring := t.expiring ++ [⟨w, false⟩] } := by
  refine h.mono (.of_elems rfl) (fun _ _ => id) fun crc e _ _ ht => ?_
  rcases ht with hg | ⟨v, hv, hcv⟩ | ⟨x, hx, hcx⟩
  case inl     => exact .inl hg
  case inr.inr => exact .inr (.inr ⟨x, List.mem_append_left _ hx, hcx⟩)
  case inr.inl =>
    rcases mem_eraseIdx_or_of_mem i hv with hv | hv
    case inl => exact .inr (.inl ⟨v, hv, hcv⟩)
    case inr =>
      cases hi.symm.trans hv
      exact .inr (.inr ⟨_, List.mem_append_right _ (List.mem_singleton_self _), hcv⟩)

theorem count (h : Watched t) (hi : t.expiring[i]? = some ⟨w, false⟩) {cs : Heap Container} :
    Watched { t with pool := { t.pool with containers := cs }, expiring := t.expiring.set i ⟨w, true⟩ } := by
  refine h.mono (.of_elems rfl) (fun _ _ => id) fun crc e _ _ ht => ?_
  rcases ht with hg | hw | ⟨x, hx, hcx⟩
  case inl     => exact .inl hg
  case inr.inl => exact .inr (.inl hw)
  case inr.inr =>
    rcases mem_set_or_of_mem i ⟨w, true⟩ hx with hx | hx
    case inl => exact .inr (.inr ⟨x, hx, hcx⟩)
    case inr =>
      cases hi.symm.trans hx
      have hlt : i < t.expiring.length := (List.getElem?_eq_some_iff.mp hi).fst
      exact .inr (.inr ⟨_, List.mem_set hlt _, hcx⟩)

theorem remove (h : Watched t) (hi : t.expiring[i]? = some ⟨w, true⟩) :
    Watched { t with pool := t.pool.forget w, expiring := t.expiring.eraseIdx i } := by
  have hm : ∀ crc conn, ((t.pool.forget w).crc2conn crc = some conn) →
      crc ≠ w.crc ∧ t.pool.crc2conn crc = some conn := by
    intro crc conn hc
    cases ho : w.origin <;> simp only [State.forget, ho] at hc <;> exact Map.delete_eq_some.mp hc
  refine h.mono (.of_elems (State.elems_forget w)) (fun crc e hc => (hm crc _ hc).right) ?_
  intro crc e hc _ ht
  rcases ht with hg | ⟨v, hv, hcv⟩ | ⟨x, hx, hcx⟩
  case inl     => exact .inl hg
  case inr.inl => exact .inr (.inl ⟨v, (State.watchers_forget w).symm ▸ hv, hcv⟩)
  case inr.inr =>
    rcases mem_eraseIdx_or_of_mem i hx with hx | hx
    case inl => exact .inr (.inr ⟨x, hx, hcx⟩)
    case inr =>
      cases hi.symm.trans hx
      exact absurd hcx.left.symm (hm crc _ hc).left

theorem stop (h : Watched t) (hi : t.pool.watchers[i]? = some w) (ho : isOpen t.pool w.elem = false) :
    Watched { t with pool := { t.pool with watchers := t.pool.watchers.eraseIdx i } } := by
  refine h.mono (.of_elems rfl) (fun _ _ => id) fun crc e _ he ht => ?_
  rcases ht with hg | ⟨v, hv, hcv⟩ | hx
  case inl     => exact .inl hg
  case inr.inr => exact .inr (.inr hx)
  case inr.inl =>
    rcases mem_eraseIdx_or_of_mem i hv with hv | hv
    case inl => exact .inr (.inl ⟨v, hv, hcv⟩)
    case inr =>
      cases hi.symm.trans hv
      simp [hcv.right, he] at ho

theorem add {cnt : Container} (h : Watched t)
    (ha : State.Added { t.pool with containers := t.pool.containers.alloc cnt } conn
      (some t.pool.containers.size) s) : Watched { t with pool := s } := by
  have hm : s.crc2conn = t.pool.crc2conn := by cases ha <;> rfl
  have hw : s.watchers = t.pool.watchers := by cases ha <;> rfl
  constructor
  case known => exact fun crc e hc => ha.size ▸ Nat.lt_succ_of_lt (h.known crc e (hm ▸ hc))
  case tended =>
    intro crc e hc ho
    have hc : t.pool.crc2conn crc = some (some e) := hm ▸ hc
    have ho := (Evolves.of_added ha).left.isOpen ho
    have hne : e ≠ t.pool.elems.size := ne_of_lt (h.known crc e hc)
    have ho : isOpen t.pool e = true := by
      simpa [isOpen, State.allocElem, Heap.load_alloc, hne] using ho
    simpa only [Tended, hw] using h.tended crc e hc ho

theorem step (h : Watched t) (hs : Sound t.pool) (ha : Acted t op t') : Watched t' := by
  cases ha
  case idle => exact h
  case add ha => exact h.add ha
  case get =>
    refine h.mono (.of_elems rfl) (fun _ _ => id) fun crc e _ _ ht => ?_
    rcases ht with ⟨c, hc, hcc⟩ | hw
    case inl => exact .inl ⟨c, List.mem_append_left _ hc, hcc⟩
    case inr => exact .inr hw
  case runGet hi hr     => exact h.runGet hs hi hr
  case runDelete hi hr  => exact h.runDelete hs hr
  case check hi         => exact h.check hi
  case count hi _ _ _   => exact h.count hi
  case remove hi        => exact h.remove hi
  case stop hi ho       => exact h.stop hi ho
  all_goals exact h.mono (.of_elems rfl) (fun _ _ => id) fun _ _ _ _ => id

end Watched

-- No flow is left behind: as long as no `Delete` has closed the channel of an element, every flow that is
-- mapped to its connection is watched for it, however the blocks are interleaved.
theorem flow_tended (h : Run (Steps step) (.init age) ls t)
    (hc : t.pool.crc2conn crc = some (some e)) (ho : isOpen t.pool e = true) : t.Tended crc e := by
  have ⟨_, hw⟩ : Steady t ∧ Watched t := by
    refine h.invariant (P := fun t => Steady t ∧ Watched t) ⟨.init, .init⟩ fun hi hs => ?_
    have ha := hi.left.acted hs
    exact ⟨hi.left.step ha, hi.right.step hi.left.sound ha⟩
  exact hw.tended crc e hc ho

theorem flow_tended_interleaved :
    ∃ ls t, Run (Steps step) (.init 5) ls t ∧ t.pool.crc2conn 7 = some (some 1) ∧
      t.pool.crc2conn 8 = some (some 1) ∧ isOpen t.pool 1 = true ∧ t.Tended 7 1 ∧ t.Tended 8 1 := by
  have ⟨t, ls, h, ht⟩ : ∃ t ls, Run (Steps step) (.init 5) ls t ∧
      decide (t.pool.crc2conn 7 = some (some 1) ∧ t.pool.crc2conn 8 = some (some 1) ∧
        isOpen t.pool 1 = true) = true :=
    Run.of_passes exampleSchedule (by decide +kernel)
  have ⟨h₇, h₈, ho⟩ := of_decide_eq_true ht
  exact ⟨ls, t, h, h₇, h₈, ho, flow_tended h h₇ ho, flow_tended h h₈ ho⟩

end Pool.Concurrent.Threads
