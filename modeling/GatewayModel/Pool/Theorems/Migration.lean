import GatewayModel.Lib.Keys
import GatewayModel.Pool.Theorems.Deletion

open Go Execution RoundRobin

-- Which flows a call of `Delete` moves.
namespace Pool.State

variable {s s' s₁ s₂ : State} {r : Rotation ElemId} {evs : Trace} {ce p q : ElemId} {crc : Crc}

section Migration

-- Every entry of `crc2conn` is the connection that an element was added with which knows the flow.
-- Elements that have been deleted count as well, since their ports are kept.
def Ported (s : State) (cs : List (Option ConnId)) : Prop :=
  ∀ crc conn, (s.crc2conn crc = some conn) → ∃ e : ElemId, cs[e]? = some conn ∧ crc ∈ s.portsOf e

namespace Ported

theorem init {age : Int} : Ported (.init age) [] := by
  intro crc conn h
  simp [State.init, Map.empty] at h

theorem mono (h : Ported s cs)
    (hc : ∀ crc conn, (s'.crc2conn crc = some conn) → s.crc2conn crc = some conn)
    (hp : ∀ e crc, (crc ∈ s.portsOf e) → crc ∈ s'.portsOf e) : Ported s' (cs ++ cs') := by
  intro crc conn hx
  have ⟨e, he, hm⟩ := h crc conn (hc crc conn hx)
  have hlt := (List.getElem?_eq_some_iff.mp he).fst
  exact ⟨e, by rw [List.getElem?_append_left hlt, he], hp e crc hm⟩

theorem congr (h : Ported s cs) (hd : s'.data = s.data) (hc : s'.crc2conn = s.crc2conn) :
    Ported s' (cs ++ []) :=
  h.mono (fun _ _ => hc ▸ id) (by simp [portsOf, hd])

theorem get (h : Ported s cs) (hw : Wired s cs) (hg : Got s crc s' reply) : Ported s' (cs ++ []) := by
  cases hg
  case fast => exact h.congr rfl rfl
  case slow cpe e i _ _ _ he hi _ _ =>
    rw [List.append_nil]
    intro crc' conn hx
    simp only [assigned, Map.set_apply] at hx
    split at hx
    case isTrue hcrc =>
      refine ⟨cpe, ?_, (mem_portsOf_assigned he).mpr (.inr ⟨rfl, hcrc⟩)⟩
      rw [hw.conn cpe i ((containerOf_eq he).trans hi), connOf_eq he, Option.some.inj hx]
    case isFalse =>
      obtain ⟨e', he', hp⟩ := h crc' conn hx
      exact ⟨e', he', (mem_portsOf_assigned he).mpr (.inl hp)⟩

theorem handOver (h : Ported s cs) (hw : Wired s cs) (ho : HandedOver s ce s' rCe) :
    Ported s' (cs ++ []) := by
  have hsub : ∀ {crc q}, (crc ∈ s.portsOf q) → crc ∈ s'.portsOf q := ho.mem_portsOf
  cases ho
  case idle => exact h.mono (fun _ _ => id) fun _ _ => hsub
  case moved e rCe x i _ _ _ _ hx hi _ =>
    rw [List.append_nil]
    intro crc conn hc
    by_cases hp : crc ∈ e.ports
    case pos =>
      simp only [remapped, merge, State.modifyElem, hp, if_true, Option.some.injEq] at hc
      refine ⟨rCe, ?_, (mem_portsOf_merge hx).mpr (.inr ⟨rfl, hp⟩)⟩
      rw [hw.conn rCe i ((containerOf_eq hx).trans hi), connOf_eq hx, hc]
    case neg =>
      simp only [remapped, merge, State.modifyElem, hp, if_false] at hc
      obtain ⟨q, hq, hm⟩ := h crc conn hc
      exact ⟨q, hq, hsub hm⟩

theorem delete (h : Ported s cs) (hw : Wired s cs) (hu : Unlinked s ce s₁ true)
    (hc : s₁.clear ce = .ok s₂) (ho : HandedOver s₂ ce s' rCe) : Ported s' (cs ++ []) := by
  have hf := hu.sameFlows.trans (clear_sameFlows hc)
  have h₂ : Ported s₂ (cs ++ []) := h.mono (fun _ _ => hf.crc2conn ▸ id) fun _ _ => hf.portsOf ▸ id
  have hw₂ : Wired s₂ cs :=
    hw.mono ((clear_size hc).trans hu.size) (by simp [hf.containerOf, hf.connOf])
  rw [List.append_nil] at h₂
  exact h₂.handOver hw₂ ho

theorem step (h : Ported s cs) (hw : Wired s cs) (hs : Stepped s op tr s') :
    Ported s' (cs ++ conns [(op, tr)]) := by
  cases hs
  case add ha =>
    have hc : s'.crc2conn = s.crc2conn := by cases ha <;> rfl
    refine h.mono (fun _ _ => hc ▸ id) fun e crc hp => ?_
    have hne : e ≠ s.elems.size := by
      intro he
      simp [he, portsOf_apply, Heap.load_eq_none.mpr (le_refl s.elems.size)] at hp
    exact ha.portsOf hne ▸ hp
  case next hn =>
    have ⟨_, _, _, hs⟩ := next_inv hn
    subst hs
    exact h.congr rfl rfl
  case get hg => exact h.get hw hg
  case delete hu hc ho => exact h.delete hw hu hc ho
  case deleteAgain hu =>
    cases hu
    refine h.mono (fun _ _ => id) fun e crc hp => ?_
    rw [portsOf_modifyElem]
    · exact hp
    · exact fun _ => rfl
  case tick hk =>
    cases hk
    case idle => exact h.congr rfl rfl
    case expired w _ _ _ _ _ _ _ _ =>
      refine h.mono (fun crc conn hx => ?_) (by simp [portsOf_apply])
      cases ho : w.origin <;> simp only [forget, ho] at hx <;> exact (Map.delete_eq_some.mp hx).right
  case stop hk =>
    cases hk
    case inl hs => exact hs ▸ h.congr rfl rfl
    case inr hs => exact hs ▸ h.congr rfl rfl
  case wait => exact h.congr rfl rfl

end Ported

structure Moved (s s' : State) (ce rCe : ElemId) : Prop where
  crc2conn   : ∀ crc, s'.crc2conn crc =
               if crc ∈ s.portsOf ce then some (s.connOf rCe) else s.crc2conn crc
  containers : s'.containers =
               s.containers.modify rCe (Container.incFluxes^[(s.portsOf ce).length])
  connOf     : s'.connOf = s.connOf
  portsOf    : ∀ crc ∈ s.portsOf ce, crc ∈ s'.portsOf rCe
  crc2lock   : s'.crc2lock = s.crc2lock

theorem HandedOver.moved_of_cursor (ho : HandedOver s ce s' x)
    (hown : ∀ e i, (s.containerOf e = some i) → i = e) (hcur : s.currElem = some p) :
    Moved s s' ce p := by
  have hconn := ho.connOf
  have hsub : ∀ {crc q}, (crc ∈ s.portsOf q) → crc ∈ s'.portsOf q := ho.mem_portsOf
  cases ho
  case idle e i c he hp _ _ =>
    have hports := (portsOf_eq he).trans hp
    refine ⟨fun crc => ?_, ?_, hconn, by simp [hports], rfl⟩
    · simp [hports, modifyElem]
    · simp [hports, modifyElem, Heap.modify]
  case moved e rCe r i c he hp hc hr hi _ =>
    cases hcur.symm.trans hc
    cases hown p i ((containerOf_eq hr).trans hi)
    have hports := portsOf_eq he
    refine ⟨fun crc => ?_, ?_, hconn, fun crc hx => ?_, rfl⟩
    · simp [remapped, merge, modifyElem, hports, connOf_eq hr]
    · simp [remapped, merge, modifyElem, hports]
    · exact (mem_portsOf_merge hr).mpr (.inr ⟨rfl, hports ▸ hx⟩)

structure Managed (s : State) (live : List ElemId) (cs : List (Option ConnId)) : Prop where
  intact   : Intact s live
  operable : Operable s live
  wired    : Wired s cs
  ported   : Ported s cs

theorem exists_managed (h : PoolRun age ls s) :
    ∃ r, Refines s (trace ls) r ∧ Managed s (live (trace ls)) (conns ls) := by
  refine run_invariant (P := fun ls s => Managed s (live (trace ls)) (conns ls)) h id
    ⟨.init, .init, .init, .init⟩ ?_
  intro ls s l s' r hr hm hs
  have hs := step_inv hs
  rw [trace_concat, conns_concat]
  exact ⟨hm.intact.step hr hs, hm.operable.step hr hs, hm.wired.step hs, hm.ported.step hm.wired hs⟩

theorem Managed.moved (h : Managed s (live evs) cs) (hr : Refines s evs r) (hm : ce ∈ live evs)
    (hd : s.delete ce = .ok (s', x)) :
    ∃ rCe ∈ live evs, s.replacement ce = some rCe ∧ Moved s s' ce rCe ∧
      (((live evs).erase ce ≠ []) → rCe ∈ (live evs).erase ce) := by
  cases delete_inv hd
  case inr hd => exact absurd hm (hr.not_mem_live_of_gone hd.left)
  case inl hd =>
    obtain ⟨s₁, s₂, hu, hc, ho⟩ := hd
    obtain ⟨rCe, hm', hcur, hl⟩ := hr.cursor_unlinked hu hc
    have hf := hu.sameFlows.trans (clear_sameFlows hc)
    obtain ⟨_, _, _, hs₂⟩ := clear_inv hc
    have hk : s₂.crc2lock = s.crc2lock := by
      subst hs₂
      cases hu <;> rfl
    have hcur' : s.replacement ce = some rCe := by
      rw [← hu.currElem, ← hcur, hs₂]
      rfl
    have hmv := ho.moved_of_cursor (hf.containerOf ▸ h.intact.own) hcur
    refine ⟨rCe, hm', hcur', ⟨?_, ?_, ?_, ?_, ?_⟩, hl⟩
    · simpa [hf.crc2conn, hf.portsOf, hf.connOf] using hmv.crc2conn
    · simpa [hf.containers, hf.portsOf] using hmv.containers
    · exact hmv.connOf.trans hf.connOf
    · simpa [hf.portsOf] using hmv.portsOf
    · exact hmv.crc2lock.trans hk

namespace Managed

theorem mem_portsOf (h : Managed s l cs) (nd : cs.Nodup) (hm : ce ∈ l)
    (hc : s.crc2conn crc = some (s.connOf ce)) : crc ∈ s.portsOf ce := by
  obtain ⟨e, he, hp⟩ := h.ported crc _ hc
  have hce := h.wired.conn ce ce (h.intact.has ce hm)
  have hlt := (List.getElem?_eq_some_iff.mp hce).fst
  exact (List.getElem?_inj hlt nd).mp (hce.trans he.symm) ▸ hp

theorem connOf_ne (h : Managed s l cs) (nd : cs.Nodup) (hp : p ∈ l) (hq : q ∈ l) (hne : p ≠ q) :
    s.connOf p ≠ s.connOf q := by
  have hp := h.wired.conn p p (h.intact.has p hp)
  have hq := h.wired.conn q q (h.intact.has q hq)
  have hlt := (List.getElem?_eq_some_iff.mp hp).fst
  exact fun hc => hne ((List.getElem?_inj hlt nd).mp (hp.trans (hc ▸ hq.symm)))

theorem exists_unlinked (h : Managed s (live evs) cs) (hr : Refines s evs r) (hm : ce ∈ live evs) :
    ∃ s₁ s₂, s.unlink ce = .ok (s₁, true) ∧ s₁.clear ce = .ok s₂ := by
  obtain ⟨s₁, hu⟩ := hr.represents.exists_unlink (hr.history.order_eq ▸ hm)
  have ho₁ : Operable s₁ (live evs) := h.operable.congr (unlink_inv hu).data fun _ => id
  obtain ⟨s₂, hc⟩ := (ho₁.attached ce hm).exists_clear
  exact ⟨s₁, s₂, hu, hc⟩

end Managed

structure Migrated (s s' : State) (ce rCe : ElemId) : Prop where
  gone  : ∀ crc, s'.crc2conn crc ≠ some (s.connOf ce)
  moved : ∀ crc, (s.crc2conn crc = some (s.connOf ce)) →
          s'.crc2conn crc = some (s'.connOf rCe) ∧ crc ∈ s'.portsOf rCe
  locks : s'.crc2lock = s.crc2lock

theorem Managed.migrated (h : Managed s l cs) (nd : cs.Nodup) (hm : ce ∈ l) (hr : rCe ∈ l)
    (hne : rCe ≠ ce) (hmv : Moved s s' ce rCe) : Migrated s s' ce rCe where
  locks := hmv.crc2lock
  gone  := by
    intro crc hc
    rw [hmv.crc2conn] at hc
    split at hc
    case isTrue     => exact h.connOf_ne nd hr hm hne (Option.some.inj hc)
    case isFalse hp => exact hp (h.mem_portsOf nd hm hc)
  moved := by
    intro crc hc
    have hp := h.mem_portsOf nd hm hc
    rw [hmv.crc2conn, if_pos hp, hmv.connOf]
    exact ⟨rfl, hmv.portsOf crc hp⟩

-- In every run in which each element has its own connection, `Delete` of an element moves all its
-- flows to the one that the cursor is at once the element is unlinked. It returns if the element's
-- container has an address and the element a connection.
theorem delete_migrates (h : PoolRun age ls s) (nd : (conns ls).Nodup) (hm : ce ∈ live (trace ls))
    (ho : ∃ e ∈ live (trace ls), e ≠ ce) :
    ∃ rCe ∈ (live (trace ls)).erase ce,
      (∃ s₁, s.unlink ce = .ok (s₁, true) ∧ s₁.currElem = some rCe) ∧
      (∀ s' x, (s.delete ce = .ok (s', x)) → Migrated s s' ce rCe) ∧
      ((s.addrOf ce ≠ none) → (s.connOf ce ≠ none) → ∃ s' x, s.delete ce = .ok (s', x)) := by
  obtain ⟨r, hr, hmg⟩ := exists_managed h
  have hl : (live (trace ls)).erase ce ≠ [] := by
    obtain ⟨e, he, hne⟩ := ho
    exact List.ne_nil_of_mem (hr.live_nodup.mem_erase_iff.mpr ⟨hne, he⟩)
  obtain ⟨s₁, s₂, hu, hc⟩ := hmg.exists_unlinked hr hm
  obtain ⟨rCe, hrm, hcur, hre⟩ := hr.cursor_unlinked (unlink_inv hu) hc
  have hcur₁ : s₁.currElem = some rCe := by
    obtain ⟨_, _, _, hs₂⟩ := clear_inv hc
    rw [← hcur, hs₂]
    rfl
  refine ⟨rCe, hre hl, ⟨s₁, hu, hcur₁⟩, fun s' x hd => ?_, ?_⟩
  case refine_1 =>
    obtain ⟨q, _, hq, hmv, _⟩ := hmg.moved hr hm hd
    cases ((unlink_inv hu).currElem.symm.trans hcur₁).symm.trans hq
    exact hmg.migrated nd hm hrm (hr.live_nodup.mem_erase_iff.mp (hre hl)).left hmv
  case refine_2 => exact exists_delete hr hmg.intact hmg.operable hm

theorem delete_migrates_inherited :
    ∃ ls s, PoolRun 5 ls s ∧ live (trace ls) = [0, 2] ∧ s.crc2conn 8 = some (some 2) ∧
      ∃ s' x, s.delete 2 = .ok (s', x) ∧ Migrated s s' 2 0 := by
  have ⟨s, ls, h, ht⟩ : ∃ s ls, PoolRun 5 ls s ∧
      decide (conns ls = [some 0, some 1, some 2] ∧ live (trace ls) = [0, 2] ∧
        s.crc2conn 8 = some (some 2) ∧ s.addrOf 2 = some 2 ∧ s.connOf 2 = some 2) = true :=
    Run.of_passes [.add (some 0) (some 0) 0 false 10, .add (some 1) (some 1) 1 false 10,
      .add (some 2) (some 2) 2 false 10, .get 7, .get 8, .delete 1] (by decide)
  have ⟨hc, hl, h₈, ha, hk⟩ := of_decide_eq_true ht
  have hm : 2 ∈ live (trace ls) := by simp [hl]
  have ⟨rCe, hr, _, hmg, hd⟩ := delete_migrates h (by simp [hc]) hm ⟨0, by simp [hl], by decide⟩
  have ⟨s', x, hd⟩ := hd (by simp [ha]) (by simp [hk])
  have hr : rCe = 0 := by simpa [hl] using hr
  exact ⟨ls, s, h, hl, h₈, s', x, hd, hr ▸ hmg s' x hd⟩

end Migration

section Frame

-- All flows that the element lists are mapped to its connection, or to the one of the replacement
-- already. Their number is the one of the flows mapped to the element's connection, up to the range
-- of an `int8`, which the `Fluxes` of the replacement does not leave.
structure UpToDate (s : State) (ce : ElemId) : Prop where
  ports  : ∀ crc ∈ s.portsOf ce, s.crc2conn crc = some (s.connOf ce) ∨
           ∃ rCe, s.replacement ce = some rCe ∧ s.crc2conn crc = some (s.connOf rCe)
  count  : (s.portsOf ce).length % 256 = (s.crc2conn.keysOf (s.connOf ce)).ncard % 256
  fluxes : ∀ rCe c, (s.replacement ce = some rCe) →
           ((s.containerOf rCe).bind s.containers.load = some c) →
           c.fluxes.toInt + (s.crc2conn.keysOf (s.connOf ce)).ncard ≤ 127

-- `Delete` of `ce` leaves the flows of other elements alone, and counts those of `ce` for the
-- container of the replacement.
structure MovesOwn (s s' : State) (ce : ElemId) : Prop where
  others : ∀ crc, (s.crc2conn crc ≠ some (s.connOf ce)) → s'.crc2conn crc = s.crc2conn crc
  fluxes : ∃ rCe i c c', s.replacement ce = some rCe ∧ s.containerOf rCe = some i ∧
           s.containers.load i = some c ∧ s'.containers.load i = some c' ∧
           c'.fluxes.toInt = c.fluxes.toInt + (s.crc2conn.keysOf (s.connOf ce)).ncard

theorem ncard_keysOf {l : List Crc} (nd : l.Nodup)
    (hl : ∀ crc, (crc ∈ l) ↔ (s.crc2conn crc = some (s.connOf ce))) :
    (s.crc2conn.keysOf (s.connOf ce)).ncard = l.length := by
  have hk : s.crc2conn.keysOf (s.connOf ce) = (l.toFinset : Set Crc) := by
    ext crc
    simp [Map.keysOf, hl crc]
  rw [hk, Set.ncard_coe_finset, List.toFinset_card_of_nodup nd]

theorem Moved.others_iff (h : Moved s s' ce rCe) (hr : s.replacement ce = some rCe) :
    (∀ crc, (s.crc2conn crc ≠ some (s.connOf ce)) → s'.crc2conn crc = s.crc2conn crc) ↔
    (∀ crc ∈ s.portsOf ce, s.crc2conn crc = some (s.connOf ce) ∨
      ∃ rCe, s.replacement ce = some rCe ∧ s.crc2conn crc = some (s.connOf rCe)) := by
  simp only [hr, Option.some.injEq, exists_eq_left', h.crc2conn]
  constructor
  case mp =>
    intro ho crc hp
    by_cases hc : s.crc2conn crc = some (s.connOf ce)
    case pos => exact .inl hc
    case neg => exact .inr (by simpa [hp] using (ho crc hc).symm)
  case mpr =>
    intro ho crc hc
    split
    case isTrue hp => exact ((ho crc hp).resolve_left hc).symm
    case isFalse   => rfl

theorem Moved.fluxes_iff (h : Moved s s' ce rCe) (hr : s.replacement ce = some rCe)
    (hi : s.containerOf rCe = some rCe) (hl : s.containers.load rCe = some c) (n : Nat) :
    (∃ rCe i c c', s.replacement ce = some rCe ∧ s.containerOf rCe = some i ∧
      s.containers.load i = some c ∧ s'.containers.load i = some c' ∧
      c'.fluxes.toInt = c.fluxes.toInt + n) ↔
    ((s.portsOf ce).length % 256 = n % 256 ∧ c.fluxes.toInt + n ≤ 127) := by
  have hl' : s'.containers.load rCe = some (Container.incFluxes^[(s.portsOf ce).length] c) := by
    rw [h.containers, Heap.load_modify_self, hl, Option.map_some]
  rw [← Container.toInt_incFluxes_iterate_eq_iff]
  constructor
  case mpr => exact fun hf => ⟨rCe, rCe, c, _, hr, hi, hl, hl', hf⟩
  case mp  =>
    rintro ⟨_, _, _, _, hr₁, hi₁, hl₁, hl₁', hf⟩
    cases hr.symm.trans hr₁
    cases hi.symm.trans hi₁
    cases hl.symm.trans hl₁
    cases hl'.symm.trans hl₁'
    exact hf

-- After every run, `Delete` of an element on the ring returns if and only if its container has an
-- address and it has a connection. It then touches no flow of another element and counts the moved ones
-- if and only if what the element lists is up to date.
theorem delete_moves_own (h : PoolRun age ls s) (hm : ce ∈ live (trace ls)) :
    ((∃ s' x, s.delete ce = .ok (s', x)) ↔ (s.addrOf ce ≠ none ∧ s.connOf ce ≠ none)) ∧
    ∀ s' x, (s.delete ce = .ok (s', x)) → (MovesOwn s s' ce ↔ UpToDate s ce) := by
  obtain ⟨r, hr, hmg⟩ := exists_managed h
  refine ⟨exists_delete_iff hr hmg.intact hmg.operable hm, fun s' x hd => ?_⟩
  obtain ⟨rCe, hrm, hrep, hmv, _⟩ := hmg.moved hr hm hd
  have hi := hmg.intact.has rCe hrm
  obtain ⟨c, hcl⟩ := Heap.exists_load (hmg.intact.size.symm ▸ hr.lt_size hrm)
  have hf := hmv.fluxes_iff hrep hi hcl (s.crc2conn.keysOf (s.connOf ce)).ncard
  constructor
  case mp =>
    intro ho
    obtain ⟨hn, hle⟩ := hf.mp ho.fluxes
    refine ⟨(hmv.others_iff hrep).mp ho.others, hn, fun q c' hq hc' => ?_⟩
    cases hrep.symm.trans hq
    rw [hi, Option.bind_some, hcl] at hc'
    cases hc'
    exact hle
  case mpr =>
    intro hu
    have hle := hu.fluxes rCe c hrep (by rw [hi, Option.bind_some, hcl])
    exact ⟨(hmv.others_iff hrep).mpr hu.ports, hf.mpr ⟨hu.count, hle⟩⟩

theorem delete_moves_own_one :
    ∃ ls s, PoolRun 5 ls s ∧ s.crc2conn 7 = some (some 0) ∧ s.crc2conn 9 = some (some 1) ∧
      UpToDate s 0 ∧ ∃ s' x, s.delete 0 = .ok (s', x) ∧ MovesOwn s s' 0 := by
  obtain ⟨s, ls, h, hl, ha, hp, hc, hf, hx⟩ : ∃ s ls, exec step (.init 5)
      [.add (some 0) (some 0) 0 false 10, .add (some 1) (some 1) 1 false 10, .get 7, .get 9] =
        .ok (s, ls) ∧ live (trace ls) = [0, 1] ∧ s.addrOf 0 = some 0 ∧ s.portsOf 0 = [7] ∧
      s.connOf 0 = some 0 ∧
      ((s.replacement 0).bind s.containerOf).bind s.containers.load = some ⟨some 1, 1, 1, false, 10⟩ ∧
      s.crc2conn = (Map.set .empty 7 (some 0)).set 9 (some 1) :=
    ⟨_, _, rfl, by decide, by decide, by decide, by decide, by decide, rfl⟩
  have hports : ∀ crc, (crc ∈ s.portsOf 0) ↔ (s.crc2conn crc = some (s.connOf 0)) := by
    intro crc
    rw [hp, hc, hx]
    by_cases h₇ : crc = 7 <;> by_cases h₉ : crc = 9 <;> simp_all [Map.set_apply, Map.empty]
  have hn := ncard_keysOf (by simp [hp]) hports
  have hu : UpToDate s 0 := by
    refine ⟨fun crc hm => .inl ((hports crc).mp hm), by rw [hn], fun rCe c hr hc => ?_⟩
    rw [hr, Option.bind_some, hc] at hf
    cases hf
    rw [hn, hp]
    decide
  have hm : 0 ∈ live (trace ls) := by simp [hl]
  obtain ⟨hret, hmv⟩ := delete_moves_own (.of_exec h) hm
  obtain ⟨s', x, hd⟩ := hret.mpr ⟨by simp [ha], by simp [hc]⟩
  exact ⟨ls, s, .of_exec h, by simp [hx, Map.set_apply], by simp [hx], hu, s', x, hd,
    (hmv s' x hd).mpr hu⟩

-- The flow 7 has expired and is mapped to element 1 by `Delete` of element 0, which counts it. In the
-- second run the flow 0 is mapped to element 1 since element 0 was over its limit, and is taken from it.
theorem delete_moves_stale :
    (∃ ls s s' x, PoolRun 5 ls s ∧ live (trace ls) = [0, 1] ∧ (∀ crc, s.crc2conn crc = none) ∧
      s.delete 0 = .ok (s', x) ∧ s'.crc2conn 7 = some (some 1) ∧
      s.containers.load 1 = some ⟨some 1, 0, 1, false, 10⟩ ∧
      s'.containers.load 1 = some ⟨some 1, 1, 1, false, 10⟩) ∧
    (∃ ls s s' x, PoolRun 5 ls s ∧ live (trace ls) = [0, 1, 2] ∧ s.crc2conn 0 = some (some 1) ∧
      s.connOf 0 = some 0 ∧ s.delete 0 = .ok (s', x) ∧ s'.crc2conn 0 = some (some 2)) := by
  constructor
  case left =>
    obtain ⟨s, ls, s', x, h, hl, hn, hd, hc, h₁, h₂⟩ : ∃ s ls s' x, exec step (.init 5)
        [.add (some 0) (some 0) 0 false 10, .add (some 1) (some 1) 1 false 10, .get 7, .wait 10,
          .tick 0] = .ok (s, ls) ∧ live (trace ls) = [0, 1] ∧
        s.crc2conn = (Map.set .empty 7 (some 0)).delete 7 ∧ s.delete 0 = .ok (s', x) ∧
        s'.crc2conn 7 = some (some 1) ∧ s.containers.load 1 = some ⟨some 1, 0, 1, false, 10⟩ ∧
        s'.containers.load 1 = some ⟨some 1, 1, 1, false, 10⟩ :=
      ⟨_, _, _, _, rfl, by decide, rfl, rfl, by decide, by decide, by decide⟩
    refine ⟨ls, s, s', x, .of_exec h, hl, fun crc => ?_, hd, hc, h₁, h₂⟩
    rw [hn, Map.delete_apply]
    by_cases h₇ : crc = 7 <;> simp [h₇, Map.set_apply, Map.empty]
  case right =>
    obtain ⟨s, ls, h, ht⟩ : ∃ s ls, PoolRun 5 ls s ∧
        decide (live (trace ls) = [0, 1, 2] ∧ s.crc2conn 0 = some (some 1) ∧ s.connOf 0 = some 0 ∧
          (s.delete 0).toOption.map (·.1.crc2conn 0) = some (some (some 2))) = true :=
      Run.of_passes ([.add (some 0) (some 0) 0 false 10, .add (some 1) (some 1) 1 false 10,
        .add (some 2) (some 2) 2 false 10] ++ (List.range 34).map (.get ·.toUInt16) ++ [.get 0])
        (by decide +kernel)
    obtain ⟨hl, h₁, h₀, hd⟩ := of_decide_eq_true ht
    cases hr : s.delete 0
    case error => simp [hr, Except.toOption] at hd
    case ok r  =>
      rw [hr] at hd
      exact ⟨ls, s, r.1, r.2, h, hl, h₁, h₀, hr, Option.some.inj hd⟩

end Frame

end Pool.State
