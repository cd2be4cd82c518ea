import GatewayModel.Pool.Concurrent.Linked

open Go Execution RoundRobin

namespace Pool.Concurrent

-- The block is one between a call's `Next` and its last write for the element that `Next` returned.
def Pc.holds (e : ElemId) : Pc → Bool
  | .addCrc cpe | .assign cpe => cpe = e
  | _                         => false

def DeletePc.holds (e : ElemId) : DeletePc → Bool
  | .remap rCe | .merge rCe => rCe = e
  | _                       => false

def DeletePc.moved : DeletePc → Bool
  | .merge _ | .terminate | .idle | .done => true
  | _                                     => false

def DeletePc.moves (ports : List Crc) : DeletePc → Bool
  | .ports   => ports = []
  | .remap _ => true
  | _        => false

namespace Threads

variable {t t' : Threads} {s : State} {r : Rotation ElemId} {c : Call} {d : Deletion}

def Holds (t : Threads) (e : ElemId) : Prop :=
  (∃ c ∈ t.gets, c.pc.holds e) ∨ (∃ d ∈ t.deletes, d.pc.holds e)

-- No call holds an element when `Delete` deals with the flows of this element.
def Released (t : Threads) : Op → Prop
  | .runDelete i => ∀ d ∈ t.deletes[i]?, d.pc.moves (t.pool.portsOf d.ce) → ¬ t.Holds d.ce
  | _            => True

instance : Decidable (t.Holds e) :=
  inferInstanceAs (Decidable (_ ∨ _))

instance : (op : Op) → Decidable (t.Released op)
  | .runDelete i => inferInstanceAs (Decidable (∀ d ∈ t.deletes[i]?,
                      d.pc.moves (t.pool.portsOf d.ce) → ¬ t.Holds d.ce))
  | .add .. | .get _ | .delete _ | .runGet _ | .check _ | .expire _ | .stop _ | .wait _ =>
    .isTrue trivial

section Settled

def Available (t : Threads) (e : ElemId) : Prop :=
  (e < t.pool.elems.size) ∧ ∀ d ∈ t.deletes, d.pc.moved → d.ce ≠ e

-- The flow is in the ports of the element, or a `Delete` is going to merge it into them.
def Recorded (t : Threads) (crc : Crc) (e : ElemId) : Prop :=
  crc ∈ t.pool.portsOf e ∨ ∃ d ∈ t.deletes, d.pc = .merge e ∧ crc ∈ t.pool.portsOf d.ce

def Used (t : Threads) (e : ElemId) : Prop :=
  t.Holds e ∨ ∃ crc, t.pool.crc2conn crc = some (some e)

structure Settled (t : Threads) : Prop where
  conns   : ∀ e conn, (t.pool.connOf e = some conn) → conn = e
  used    : ∀ e, t.Used e → t.Available e
  noted   : ∀ c ∈ t.gets, ∀ cpe, (c.pc = .assign cpe) → c.crc ∈ t.pool.portsOf cpe
  entries : ∀ crc e, (t.pool.crc2conn crc = some (some e)) → t.Recorded crc e

structure KeepsFlows (s s' : State) : Prop where
  conns   : ∀ e conn, (s'.connOf e = some conn) → conn = e ∨ s.connOf e = some conn
  size    : s.elems.size ≤ s'.elems.size
  ports   : ∀ crc e, (crc ∈ s.portsOf e) → crc ∈ s'.portsOf e
  entries : ∀ crc conn, (s'.crc2conn crc = some conn) → s.crc2conn crc = some conn

theorem Linked.available (h : Linked t r) (he : e ∈ r.order) : t.Available e := by
  refine ⟨h.represents.alloc e he, fun d hd hv hde => ?_⟩
  have hu : d.pc ≠ .unlink := fun hu => by simp [hu, DeletePc.moved] at hv
  exact (h.unlinked d hd hu).left (hde ▸ he)

namespace KeepsFlows

variable {s' : State} {ce : ElemId} {f : ConnPoolElem → ConnPoolElem}

theorem of_elems (he : s'.elems = s.elems)
    (hc : ∀ crc conn, (s'.crc2conn crc = some conn) → s.crc2conn crc = some conn) :
    KeepsFlows s s' where
  conns   := fun e conn h => .inr (by simpa [State.connOf, State.data, he] using h)
  size    := by rw [he]
  ports   := fun crc e h => by simpa [State.portsOf, State.data, he] using h
  entries := hc

theorem of_sameFlows (h : State.SameFlows s s') (hz : s'.elems.size = s.elems.size) :
    KeepsFlows s s' where
  conns   := fun _ _ hc => .inr (by rwa [h.connOf] at hc)
  size    := le_of_eq hz.symm
  ports   := by simp [h.portsOf]
  entries := by simp [h.crc2conn]

theorem modifyElem (hc : ∀ e, (f e).conn = e.conn) (hp : ∀ e, e.ports ⊆ (f e).ports) :
    KeepsFlows s (s.modifyElem ce f) where
  conns   := fun _ _ h => .inr (by rwa [State.connOf_modifyElem hc] at h)
  size    := le_of_eq (State.size_modifyElem ..).symm
  entries := fun _ _ h => h
  ports   := by
    intro crc q h
    simp only [State.portsOf_apply, State.load_modifyElem] at h ⊢
    split
    case isFalse => exact h
    case isTrue  => cases hl : s.elems.load q <;> simp_all [hp _ _]

theorem add {cs : Heap Container} {dialed : Bool}
    (ha : State.Added { s with containers := cs } conn cnt s')
    (hc : conn = if dialed then some s.elems.size else none) : KeepsFlows s s' where
  size    := ha.size ▸ Nat.le_succ _
  conns   := by
    intro e conn' h
    by_cases he : e = s.elems.size
    case neg => exact .inr (ha.connOf he ▸ h)
    case pos =>
      simp only [State.connOf, ha.data, he, if_true, State.newElem, Option.bind_some, hc] at h
      split at h
      case isTrue  => exact .inl ((Option.some.inj h).symm.trans he.symm)
      case isFalse => contradiction
  ports   := by
    intro crc e h
    by_cases he : e = s.elems.size
    case neg => exact (ha.portsOf he).symm ▸ h
    case pos =>
      have hn : s.elems.load e = none := Heap.load_eq_none.mpr (le_of_eq he.symm)
      simp [State.portsOf_apply, hn] at h
  entries := by
    have hs : s'.crc2conn = s.crc2conn := by cases ha <;> rfl
    simp [hs]

end KeepsFlows

namespace Settled

theorem init {age : Int} : Settled (.init age) where
  conns   := by simp [Threads.init, State.init, State.connOf, State.data]
  used    := by simp [Threads.init, State.init, Used, Holds, Map.empty]
  noted   := by simp [Threads.init]
  entries := by simp [Threads.init, State.init, Map.empty]

theorem pool {xs : List Expiry} (h : Settled t) (hk : KeepsFlows t.pool s) :
    Settled ⟨s, t.gets, t.deletes, xs⟩ where
  conns   := fun e conn hc => (hk.conns e conn hc).elim id (h.conns e conn)
  noted   := fun c hc cpe hpc => hk.ports _ _ (h.noted c hc cpe hpc)
  used    := by
    intro e hu
    have hu : t.Used e := hu.imp_right fun ⟨crc, hc⟩ => ⟨crc, hk.entries _ _ hc⟩
    exact ⟨lt_of_lt_of_le (h.used e hu).left hk.size, (h.used e hu).right⟩
  entries := by
    intro crc e hc
    refine (h.entries crc e (hk.entries _ _ hc)).imp (hk.ports _ _) ?_
    exact fun ⟨d, hd, hpc, hp⟩ => ⟨d, hd, hpc, hk.ports _ _ hp⟩

section Gets

theorem gets {gs : List Call} (h : Settled t)
    (hp : ∀ c ∈ gs, ∀ e, c.pc.holds e → t.Available e)
    (hn : ∀ c ∈ gs, ∀ cpe, (c.pc = .assign cpe) → c.crc ∈ t.pool.portsOf cpe) :
    Settled { t with gets := gs } where
  conns   := h.conns
  noted   := hn
  entries := h.entries
  used    := by
    intro e hu
    have ha : t.Available e := by
      rcases hu with (⟨c, hc, he⟩ | hd) | hc
      case inl.inl => exact hp c hc e he
      case inl.inr => exact h.used e (.inl (.inr hd))
      case inr     => exact h.used e (.inr hc)
    exact ha

theorem available_of_get (h : Settled t) (hc : c ∈ t.gets) (he : c.pc.holds e) : t.Available e :=
  h.used e (.inl (.inl ⟨c, hc, he⟩))

theorem get (h : Settled t) : Settled { t with gets := t.gets ++ [⟨crc, .lookup⟩] } := by
  apply h.gets
  case hp =>
    intro c hc e he
    cases List.mem_append.mp hc
    case inl hc => exact h.available_of_get hc he
    case inr hc =>
      cases List.mem_singleton.mp hc
      contradiction
  case hn =>
    intro c hc cpe hpc
    cases List.mem_append.mp hc
    case inl hc => exact h.noted c hc cpe hpc
    case inr hc =>
      cases List.mem_singleton.mp hc
      contradiction

theorem setGet {pc : Pc} (h : Settled t) (hk : KeepsFlows t.pool s)
    (hp : ∀ e, pc.holds e → t.Available e)
    (hn : ∀ cpe, (pc = .assign cpe) → c.crc ∈ s.portsOf cpe) :
    Settled { t with pool := s, gets := t.gets.set i { c with pc := pc } } := by
  have h' : Settled { t with pool := s } := h.pool hk
  apply h'.gets
  case hp =>
    intro c' hc e he
    cases List.mem_or_eq_of_mem_set hc
    case inl hc => exact h'.available_of_get hc he
    case inr hc =>
      subst hc
      exact ⟨lt_of_lt_of_le (hp e he).left hk.size, (hp e he).right⟩
  case hn =>
    intro c' hc cpe hpc
    cases List.mem_or_eq_of_mem_set hc
    case inl hc => exact h'.noted c' hc cpe hpc
    case inr hc =>
      subst hc
      exact hn cpe hpc

theorem assign (h : Settled t) (ha : t.Available cpe) (he : t.pool.elems.load cpe = some e)
    (hp : crc ∈ t.pool.portsOf cpe) : Settled { t with pool := t.pool.assign crc e } := by
  -- A new entry is for the connection of `cpe`.
  have hnew : ∀ crc' e', (t.pool.assign crc e).crc2conn crc' = some (some e') →
      (crc' = crc ∧ e' = cpe) ∨ t.pool.crc2conn crc' = some (some e') := by
    intro crc' e' hc
    simp only [State.assign, Map.set_apply] at hc
    split at hc
    case isTrue hcrc => exact .inl ⟨hcrc, h.conns cpe e' ((State.connOf_eq he).trans
      (Option.some.inj hc))⟩
    case isFalse => exact .inr hc
  constructor
  case conns => exact h.conns
  case noted => exact h.noted
  case used =>
    intro e' hu
    have ha' : t.Available e' := by
      cases hu
      case inl hh => exact h.used e' (.inl hh)
      case inr hc =>
        obtain ⟨crc', hc⟩ := hc
        cases hnew crc' e' hc
        case inl hc => exact hc.right ▸ ha
        case inr hc => exact h.used e' (.inr ⟨crc', hc⟩)
    exact ha'
  case entries =>
    intro crc' e' hc
    cases hnew crc' e' hc
    case inl hc =>
      obtain ⟨h₁, h₂⟩ := hc
      subst h₁ h₂
      exact .inl hp
    case inr hc => exact h.entries crc' e' hc

theorem runGet (h : Settled t) (hl : Linked t r) (hi : t.gets[i]? = some c)
    (hb : block t.pool c.crc c.pc = .ok (s, pc)) :
    Settled { t with pool := s, gets := t.gets.set i { c with pc := pc } } := by
  have hm := List.mem_of_getElem? hi
  cases block_ring hb
  case inl hn =>
    have ⟨cpe, _, hpc, hn⟩ := hn
    have ho := hl.mem_order_of_next hn
    have ⟨_, _, _, hs⟩ := State.next_inv hn
    subst hpc hs
    refine h.setGet (.of_elems rfl fun _ _ => id) (fun e he => ?_) (by simp)
    have hce : cpe = e := by simpa [Pc.holds] using he
    exact hce ▸ hl.available ho
  case inr hr =>
    generalize hpc : c.pc = pc₀ at hb
    cases block_inv hb
    case next => exact absurd rfl (hr.left _)
    case addCrc cpe =>
      have ha := h.available_of_get (e := cpe) hm (by simp [hpc, Pc.holds])
      have ⟨e, he⟩ := Heap.exists_load ha.left
      refine h.setGet ?_ (fun e' he' => ?_) fun cpe' hpc' => ?_
      case refine_1 => exact .modifyElem (fun _ => rfl) fun _ _ => List.mem_insert_of_mem
      case refine_2 =>
        have hce : cpe = e' := by simpa [Pc.holds] using he'
        exact hce ▸ ha
      case refine_3 =>
        cases hpc'
        exact (State.mem_portsOf_addCrc he).mpr (.inr ⟨rfl, rfl⟩)
    case assign cpe e he =>
      have ha := h.available_of_get (e := cpe) hm (by simp [hpc, Pc.holds])
      have h' := h.assign ha he (h.noted c hm cpe hpc)
      exact h'.setGet (.of_elems rfl fun _ _ => id) (by simp [Pc.holds]) (by simp)
    all_goals exact h.setGet (.of_elems rfl fun _ _ => id) (by simp [Pc.holds]) (by simp)

end Gets

section Deletes

theorem available_of_delete (h : Settled t) (hd : d ∈ t.deletes) (he : d.pc.holds e) :
    t.Available e :=
  h.used e (.inl (.inr ⟨d, hd, he⟩))

theorem mem_ports_of_not_holds (h : Settled t) (hn : ¬ t.Holds e)
    (hc : t.pool.crc2conn crc = some (some e)) : crc ∈ t.pool.portsOf e := by
  cases h.entries crc e hc
  case inl hp => exact hp
  case inr hd' =>
    have ⟨d', hd', hpc, _⟩ := hd'
    exact absurd (.inr ⟨d', hd', by simp [hpc, DeletePc.holds]⟩) hn

theorem delete (h : Settled t) : Settled { t with deletes := t.deletes ++ [⟨ce, .unlink⟩] } where
  conns   := h.conns
  noted   := h.noted
  entries := by
    intro crc e hc
    refine (h.entries crc e hc).imp_right ?_
    exact fun ⟨d, hd, hpc⟩ => ⟨d, List.mem_append_left _ hd, hpc⟩
  used    := by
    intro e hu
    have ha : t.Available e := by
      apply h.used
      rcases hu with (hg | ⟨d, hd, he⟩) | hc
      case inl.inl => exact .inl (.inl hg)
      case inr     => exact .inr hc
      case inl.inr =>
        cases List.mem_append.mp hd
        case inl hd => exact .inl (.inr ⟨d, hd, he⟩)
        case inr hd =>
          cases List.mem_singleton.mp hd
          contradiction
    refine ⟨ha.left, fun d hd hv => ?_⟩
    cases List.mem_append.mp hd
    case inl hd => exact ha.right d hd hv
    case inr hd =>
      cases List.mem_singleton.mp hd
      contradiction

variable {i : Nat} {pc : DeletePc} (h : Settled t) (hl : Linked t r) (hi : t.deletes[i]? = some d)

include h hl hi

theorem setDelete (hk : KeepsFlows t.pool s)
    (hp : ∀ e, pc.holds e → t.Available e ∧ pc.moved = false)
    (hc : ∀ e, (d.pc = .merge e) → ∀ crc ∈ t.pool.portsOf d.ce, crc ∈ s.portsOf e)
    (hm : pc.moved → ¬ t.Used d.ce) :
    Settled { t with pool := s, deletes := t.deletes.set i { d with pc := pc } } := by
  have h' : Settled { t with pool := s } := h.pool hk
  constructor
  case conns => exact h'.conns
  case noted => exact h'.noted
  case used =>
    intro e hu
    have hu : t.Used e ∨ (t.Available e ∧ pc.moved = false) := by
      rcases hu with (hg | ⟨d', hd', he⟩) | ⟨crc, hc⟩
      case inl.inl => exact .inl (.inl (.inl hg))
      case inr     => exact .inl (.inr ⟨crc, hk.entries _ _ hc⟩)
      case inl.inr =>
        cases (hl.mem_set hi).mp hd'
        case inl hd' =>
          subst hd'
          exact .inr (hp e he)
        case inr hd' => exact .inl (.inl (.inr ⟨d', hd'.left, he⟩))
    have ha : t.Available e := hu.elim (h.used e) (·.left)
    refine ⟨lt_of_lt_of_le ha.left hk.size, fun d' hd' hv => ?_⟩
    cases (hl.mem_set hi).mp hd'
    case inl hd' =>
      subst hd'
      cases hu
      case inl hu => exact fun hde => hm hv (hde ▸ hu)
      case inr hu => simp [hu.right] at hv
    case inr hd' => exact ha.right d' hd'.left hv
  case entries =>
    intro crc e he
    cases h.entries crc e (hk.entries _ _ he)
    case inl hp => exact .inl (hk.ports _ _ hp)
    case inr hd' =>
      have ⟨d', hd', hpc, hp⟩ := hd'
      by_cases hde : d'.ce = d.ce
      case pos =>
        have hdd := hl.unique hi hd' hde
        subst hdd
        exact .inl (hc e hpc crc hp)
      case neg => exact .inr ⟨d', (hl.mem_set hi).mpr (.inr ⟨hd', hde⟩), hpc, hk.ports _ _ hp⟩

theorem remap (hpc : d.pc = .remap rCe) (he : t.pool.elems.load d.ce = some e)
    (hs : t.pool.remap d.ce rCe e.ports = .ok s) (hn : ¬ t.Holds d.ce) :
    Settled { t with pool := s, deletes := t.deletes.set i { d with pc := .merge rCe } } := by
  have hd := List.mem_of_getElem? hi
  have hports : t.pool.portsOf d.ce = e.ports := State.portsOf_eq he
  have ⟨_, hs⟩ := State.remap_eq hs
  subst hs
  have hrCe : t.Holds rCe := .inr ⟨d, hd, by simp [hpc, DeletePc.holds]⟩
  have hne : d.ce ≠ rCe := fun hc => hn (hc ▸ hrCe)
  -- An entry is for the connection of `rCe`, or one of another element that was there before.
  have hold : ∀ crc e', ((if crc ∈ e.ports then some (t.pool.connOf rCe) else
      t.pool.crc2conn crc) = some (some e')) → (crc ∈ e.ports ∧ e' = rCe) ∨
      (d.ce ≠ e' ∧ t.pool.crc2conn crc = some (some e')) := by
    intro crc e' hc
    split at hc
    case isTrue hp => exact .inl ⟨hp, h.conns rCe e' (Option.some.inj hc)⟩
    case isFalse hp =>
      refine .inr ⟨fun hde => hp ?_, hc⟩
      subst hde
      exact hports ▸ h.mem_ports_of_not_holds hn hc
  constructor
  case conns => exact h.conns
  case noted => exact h.noted
  case used =>
    intro e' hu
    have ⟨hde, hu⟩ : d.ce ≠ e' ∧ t.Used e' := by
      rcases hu with (hg | ⟨d', hd', he'⟩) | ⟨crc, hc⟩
      case inl.inl => exact ⟨fun hde => hn (hde ▸ .inl hg), .inl (.inl hg)⟩
      case inl.inr =>
        cases (hl.mem_set hi).mp hd'
        case inl hd' =>
          have hre : rCe = e' := by simpa [hd', DeletePc.holds] using he'
          exact hre ▸ ⟨hne, .inl hrCe⟩
        case inr hd' =>
          have hh : t.Holds e' := .inr ⟨d', hd'.left, he'⟩
          exact ⟨fun hde => hn (hde ▸ hh), .inl hh⟩
      case inr =>
        cases hold crc e' hc
        case inl hc => exact hc.right ▸ ⟨hne, .inl hrCe⟩
        case inr hc => exact ⟨hc.left, .inr ⟨crc, hc.right⟩⟩
    have ha := h.used e' hu
    refine ⟨ha.left, fun d' hd' hv => ?_⟩
    cases (hl.mem_set hi).mp hd'
    case inl hd' =>
      subst hd'
      exact hde
    case inr hd' => exact ha.right d' hd'.left hv
  case entries =>
    intro crc e' hc
    cases hold crc e' hc
    case inl hc =>
      have ⟨hp, hre⟩ := hc
      subst hre
      exact .inr ⟨_, (hl.mem_set hi).mpr (.inl rfl), rfl, hports ▸ hp⟩
    case inr hc =>
      refine (h.entries crc e' hc.right).imp_right fun ⟨d', hd', hpc', hp⟩ => ?_
      have hde : d'.ce ≠ d.ce := by
        intro hde
        rw [hl.unique hi hd' hde, hpc] at hpc'
        contradiction
      exact ⟨d', (hl.mem_set hi).mpr (.inr ⟨hd', hde⟩), hpc', hp⟩

theorem runDelete (hb : DeleteBlocked t.pool d.ce d.pc s pc)
    (hg : (d.pc = .unlink) → t.pool.nextOf d.ce ≠ some d.ce)
    (hn : d.pc.moves (t.pool.portsOf d.ce) → ¬ t.Holds d.ce) :
    Settled { t with pool := s, deletes := t.deletes.set i { d with pc := pc } } := by
  have hd := List.mem_of_getElem? hi
  -- After the flows have been dealt with, the element stays out of use.
  have hv : d.pc.moved → ¬ t.Used d.ce := fun hv hu => (h.used d.ce hu).right d hd hv rfl
  generalize hpc : d.pc = pc₀ at hb
  cases hb
  case unlink hu =>
    exact h.setDelete hl hi (.of_sameFlows hu.sameFlows hu.size) (by simp [DeletePc.holds])
      (by simp [hpc]) (by simp [DeletePc.moved])
  case gone hu =>
    have hb := (hl.unlink hi hpc hu (hg hpc)).left
    contradiction
  case clear hc =>
    exact h.setDelete hl hi (.of_sameFlows (State.clear_sameFlows hc) (State.clear_size hc))
      (by simp [DeletePc.holds]) (by simp [hpc]) (by simp [DeletePc.moved])
  case free e he hp =>
    have hports : t.pool.portsOf d.ce = [] := (State.portsOf_eq he).trans hp
    have hn := hn (by simp [hpc, hports, DeletePc.moves])
    refine h.setDelete hl hi (.of_elems rfl fun _ _ => id) (by simp [DeletePc.holds])
      (by simp [hpc]) ?_
    intro _ hu
    cases hu
    case inl hh => exact hn hh
    case inr hc =>
      have ⟨crc, hc⟩ := hc
      have hm := h.mem_ports_of_not_holds hn hc
      simp [hports] at hm
  case ports =>
    exact h.setDelete hl hi (.of_elems rfl fun _ _ => id) (by simp [DeletePc.holds]) (by simp [hpc])
      (by simp [DeletePc.moved])
  case next rCe hx =>
    have ho := hl.mem_order_of_next hx
    have ⟨_, _, _, hs⟩ := State.next_inv hx
    subst hs
    refine h.setDelete hl hi (.of_elems rfl fun _ _ => id) (fun e he => ?_) (by simp [hpc])
      (by simp [DeletePc.moved])
    have hre : rCe = e := by simpa [DeletePc.holds] using he
    exact hre ▸ ⟨hl.available ho, rfl⟩
  case remap he hs => exact h.remap hl hi hpc he hs (hn (by simp [hpc, DeletePc.moves]))
  case merge e rCe he =>
    have ha := h.available_of_delete (e := rCe) hd (by simp [hpc, DeletePc.holds])
    have ⟨r', hr'⟩ := Heap.exists_load ha.left
    have hports : t.pool.portsOf d.ce = e.ports := State.portsOf_eq he
    refine h.setDelete hl hi ?_ (by simp [DeletePc.holds]) ?_ fun _ =>
      hv (by simp [hpc, DeletePc.moved])
    case refine_1 =>
      exact .modifyElem (fun _ => rfl) fun _ _ hm => State.mem_foldl_insert.mpr (.inl hm)
    case refine_2 =>
      intro e' he' crc hm
      rw [hpc] at he'
      cases he'
      exact (State.mem_portsOf_merge hr').mpr (.inr ⟨rfl, hports ▸ hm⟩)
  case idle sent =>
    have hk : KeepsFlows { t.pool with sent := sent }
        ({ t.pool with sent := sent }.modifyElem d.ce ({ · with container := none })) :=
      .modifyElem (fun _ => rfl) fun _ _ => id
    exact h.setDelete hl hi ⟨hk.conns, hk.size, hk.ports, hk.entries⟩ (by simp [DeletePc.holds])
      (by simp [hpc]) fun _ => hv (by simp [hpc, DeletePc.moved])
  all_goals
    exact h.setDelete hl hi (.of_elems rfl fun _ _ => id) (by simp [DeletePc.holds]) (by simp [hpc])
      fun _ => hv (by simp [hpc, DeletePc.moved])

end Deletes

theorem step (h : Settled t) (hl : Linked t r) (hs : Stepped t op t' evs) (hg : t.Separate op)
    (hr : t.Released op) : Settled t' := by
  cases hs
  case idle => exact h
  case add hc ha => exact h.pool (.add ha hc)
  case get => exact h.get
  case delete => exact h.delete
  case runGet hi hb => exact h.runGet hl hi hb
  case runDelete hi hb => exact h.runDelete hl hi hb (hg _ hi) (hr _ hi)
  case remove x _ =>
    refine h.pool (.of_elems (State.elems_forget _) fun crc conn hc => ?_)
    cases ho : x.watcher.origin <;> simp only [State.forget, ho] at hc <;>
      exact (Map.delete_eq_some.mp hc).right
  all_goals exact h.pool (.of_elems rfl fun _ _ => id)

end Settled
end Settled

-- In every run in which the calls of `Delete` are for distinct elements and do not empty the ring,
-- and in which no call holds an element when `Delete` deals with its flows, no flow is mapped to the
-- connection of an element after its `Delete`.
theorem handover_complete
    (h : Run (GuardedSteps (fun t op => t.Separate op ∧ t.Released op) step) (.init age) ls t)
    (hd : d ∈ t.deletes) (hpc : d.pc = .done) (hc : t.pool.connOf d.ce = some conn) (crc : Crc) :
    t.pool.crc2conn crc ≠ some (some conn) := by
  have ⟨⟨r, hl⟩, hs⟩ : (∃ r, Linked t r) ∧ Settled t := by
    refine h.invariant (P := fun t => (∃ r, Linked t r) ∧ Settled t) ⟨⟨_, .init⟩, .init⟩ ?_
    intro t l t' ⟨⟨r, hl⟩, hs⟩ ⟨⟨hg, hr⟩, hst⟩
    have hst := step_inv hst
    exact ⟨hl.step hst hg, hs.step hl hst hg hr⟩
  intro he
  rw [hs.conns _ _ hc] at he
  exact (hs.used d.ce (.inr ⟨crc, he⟩)).right d hd (by simp [hpc, DeletePc.moved]) rfl

theorem handover_complete_interleaved :
    ∃ ls t d, Run (GuardedSteps (fun t op => t.Separate op ∧ t.Released op) step) (.init 5) ls t ∧
      d ∈ t.deletes ∧ d.pc = .done ∧ t.pool.connOf d.ce = some 0 ∧
      t.pool.crc2conn 7 ≠ some (some 0) ∧ t.pool.crc2conn 7 = some (some 1) := by
  have ⟨t, ls, h, ht⟩ : ∃ t ls,
      Run (GuardedSteps (fun t op => t.Separate op ∧ t.Released op) step) (.init 5) ls t ∧
      decide (⟨0, .done⟩ ∈ t.deletes ∧ t.pool.connOf 0 = some 0 ∧
        t.pool.crc2conn 7 = some (some 1)) = true :=
    Run.of_passes_restrict ([.add true (some 0) 0 false 10, .add true (some 1) 1 false 10,
      .get 7] ++ exampleGet 0 ++ [.delete 0, .get 8, .runGet 1, .runGet 1, .runGet 1, .runDelete 0,
      .runGet 1, .runDelete 0, .runDelete 0, .runDelete 0, .runGet 1, .runDelete 0, .runGet 1,
      .runDelete 0, .runGet 1, .runDelete 0, .runGet 1]) (by decide)
  have ⟨hd, hc, hr⟩ := of_decide_eq_true ht
  exact ⟨ls, t, _, h, hd, rfl, hc, handover_complete h hd rfl hc 7, hr⟩

-- The `Delete` is executed between `Next` and `AddCrc` of the call that opens the flow.
theorem handover_misses :
    ∃ ls t, Run (GuardedSteps Separate step) (.init 5) ls t ∧
      (∀ c ∈ t.gets, ∃ conn lock, c.pc = .done conn lock) ∧ (∀ d ∈ t.deletes, d.pc = .done) ∧
      ⟨0, .done⟩ ∈ t.deletes ∧ t.pool.connOf 0 = some 0 ∧ t.pool.crc2conn 7 = some (some 0) := by
  have ⟨t, ls, h, ht⟩ : ∃ t ls, Run (GuardedSteps Separate step) (.init 5) ls t ∧
      decide (t.gets = [⟨5, .done (some 0) (some 0)⟩, ⟨6, .done (some 1) (some 1)⟩,
          ⟨7, .done (some 0) (some 2)⟩] ∧
        t.deletes = [⟨0, .done⟩] ∧ t.pool.connOf 0 = some 0 ∧
        t.pool.crc2conn 7 = some (some 0)) = true :=
    Run.of_passes_restrict ([.add true (some 0) 0 false 10, .add true (some 1) 1 false 10,
      .get 5] ++ exampleGet 0 ++ .get 6 :: exampleGet 1 ++ .get 7 :: List.replicate 4 (.runGet 2) ++
      .delete 0 :: List.replicate 7 (.runDelete 0) ++ List.replicate 4 (.runGet 2)) (by decide)
  have ⟨hg, hd, hc, hr⟩ := of_decide_eq_true ht
  refine ⟨ls, t, h, ?_, ?_, ?_, hc, hr⟩
  case refine_1 => simp [hg]
  case refine_2 => simp [hd]
  case refine_3 => simp [hd]

end Threads
end Pool.Concurrent
