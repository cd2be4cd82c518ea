import GatewayModel.Cnt.Theorems.Size

open Go Execution Pool

namespace Cnt

def Instance.ids (inst : Instance) : List UInt16 :=
  match inst.pc with
  | .removing cntId => cntId :: inst.cntIdMap
  | _               => inst.cntIdMap

def Scan.left : Scan → List UInt16
  | .idle => []
  | .next _ rest => rest
  | .isAlive _ rest cntId _ | .isRepl _ rest cntId _ | .isAliveAgain _ rest cntId _
  | .send _ rest cntId _ => cntId :: rest

namespace Sys

variable {p : Provisioner} {s s' : Sys} {inst inst' : Instance} {i j : InstId}

section Ids

variable {q : UInt16}

theorem mem_ids_of_mem (h : q ∈ inst.cntIdMap) : q ∈ inst.ids := by
  rw [Instance.ids]
  split <;> simp [h]

theorem mem_ids (h : q ∈ inst.ids) : q ∈ inst.cntIdMap ∨ inst.pc = .removing q := by
  rw [Instance.ids] at h
  split at h
  case h_1 hpc =>
    rcases List.mem_cons.mp h with he | hm
    case inl => exact .inr (he ▸ hpc)
    case inr => exact .inl hm
  case h_2 => exact .inl h

theorem Advances.mem_ids (h : Advances i inst op inst') (hq : q ∈ inst.ids)
    (hr : (op = .worker i .proceed) → inst.pc ≠ .removing q) : q ∈ inst'.ids := by
  cases h
  case none | requested => exact hq
  case move hm =>
    cases hm
    case ignore => exact hq
    case receive cntId _ hpc _ _ =>
      have hm := (Sys.mem_ids hq).resolve_right (by simp [hpc])
      by_cases he : q = cntId
      case pos => simp [Instance.ids, he]
      case neg => exact List.mem_cons_of_mem _ ((List.mem_erase_of_ne he).mpr hm)
    case create hpc | created hpc | tick hpc =>
      have hm := (Sys.mem_ids hq).resolve_right (by simp [hpc])
      exact mem_ids_of_mem (by simp [hm])
  case added | removed | found | deleted | unlisted =>
    exact mem_ids_of_mem ((Sys.mem_ids hq).resolve_right (hr rfl))

theorem Advances.cap_eq (h : Advances i inst op inst') : inst'.decChan.cap = inst.decChan.cap := by
  cases h
  case move hm =>
    cases hm
    case receive hq _ => exact (Channel.receive_eq_some hq).right
    case ignore hq    => exact (Channel.receive_eq_some hq).right
    all_goals rfl
  case requested hq => exact (Channel.send_eq_some hq).right
  all_goals rfl

end Ids

section Entries

theorem Stepped.c2p_inv {q : UInt16} (h : Stepped s op s' cs) (hq : s'.c2p q = some j) :
    (s.c2p q = some j ∧
      ∀ inst, (s.instances.load j = some inst) → (op = .worker j .proceed) → inst.pc ≠ .removing q) ∨
    j = 0 ∨ (∃ inst periodic n, s.instances.load j = some inst ∧ inst.pc = .adding periodic n q) := by
  cases h
  case creatorAdd cntId _ _ =>
    by_cases he : q = cntId
    case pos =>
      subst he
      exact .inr (.inl (Option.some.inj (Map.set_self.symm.trans hq)).symm)
    case neg => exact .inl ⟨(Map.set_ne he).symm.trans hq, by simp⟩
  case addInstance i inst periodic n cntId hl hpc _ =>
    by_cases he : q = cntId
    case pos =>
      subst he
      cases Option.some.inj (Map.set_self.symm.trans hq)
      exact .inr (.inr ⟨inst, periodic, n, hl, hpc⟩)
    case neg =>
      refine .inl ⟨(Map.set_ne he).symm.trans hq, fun inst' hl' hop => ?_⟩
      cases hop
      cases hl.symm.trans hl'
      simp [hpc]
  case removeInstance cntId hl hpc _ =>
    obtain ⟨hne, hq⟩ := Map.delete_eq_some.mp hq
    refine .inl ⟨hq, fun inst' hl' hop => ?_⟩
    cases hop
    cases hl.symm.trans hl'
    simp [hpc, hne.symm]
  case getConnElem hl hpc _ | delete hl hpc _ | removeNil hl hpc | removeContainer hl hpc _ =>
    refine .inl ⟨hq, fun inst' hl' hop => ?_⟩
    cases hop
    cases hl.symm.trans hl'
    simp [hpc]
  case move hl hm =>
    refine .inl ⟨hq, fun inst' hl' hop => ?_⟩
    cases hop
    cases hl.symm.trans hl'
    cases hm
    case created hpc => simp [hpc]
  all_goals exact .inl ⟨hq, by simp⟩

structure Entries (s : Sys) : Prop where
  initial : ∃ inst, s.instances.load 0 = some inst ∧ inst.pc = .absent
  sized   : AllSized s
  cap     : ∀ i inst, (s.instances.load i = some inst) → (inst.pc ≠ .absent) →
    inst.size + 1 ≤ inst.decChan.cap
  adding  : ∀ i inst periodic n q, (s.instances.load i = some inst) →
    (inst.pc = .adding periodic n q) → q ∈ inst.cntIdMap
  entry   : ∀ q i, (s.c2p q = some i) →
    ∃ inst, s.instances.load i = some inst ∧ ((inst.pc ≠ .absent) → q ∈ inst.ids)

namespace Entries

theorem init {age : Int} : Entries (.init p age) where
  initial := ⟨_, rfl, rfl⟩
  sized   := .init
  entry _ _ h := by cases h
  cap i inst hl hne := by
    simp only [Sys.init, Heap.load_alloc] at hl
    split at hl
    case isTrue  => cases hl; exact absurd rfl hne
    case isFalse => simp at hl
  adding i inst periodic n q hl hpc := by
    simp only [Sys.init, Heap.load_alloc] at hl
    split at hl
    case isTrue  => cases hl; contradiction
    case isFalse => simp at hl

theorem step (h : Entries s) (hs : s.step p op = .ok (s', cs)) (hg : s.CreatesWithinSize op) :
    Entries s' := by
  have hst := step_inv hs
  constructor
  case initial =>
    obtain ⟨inst, hl, hpc⟩ := h.initial
    obtain ⟨inst', hl', ha⟩ := hst.advances hl
    exact ⟨inst', hl', ha.absent_iff.mpr hpc⟩
  case sized => exact h.sized.step hs hg
  case cap =>
    intro i inst' hl' hne
    rcases hst.instance_inv hl' with ⟨inst, hl, ha⟩ | ⟨delta, hd, hi⟩
    case inl =>
      have hle := h.cap i inst hl (mt ha.absent_iff.mpr hne)
      have hsz := ha.size_le
      rw [ha.cap_eq]
      omega
    case inr =>
      subst hi
      simp only [Channel.make]
      omega
  case adding =>
    intro i inst' periodic n q hl' hpc'
    rcases hst.instance_inv hl' with ⟨inst, hl, ha⟩ | ⟨delta, hd, hi⟩
    case inr => subst hi; contradiction
    case inl =>
      cases ha
      case none      => exact h.adding i _ periodic n q hl hpc'
      case requested => exact h.adding i inst periodic n q hl hpc'
      case move hm =>
        cases hm
        case create   => cases hpc'; simp
        case tick     => split at hpc' <;> contradiction
        case ignore hpc _ => rw [hpc] at hpc'; contradiction
        all_goals contradiction
      case added => split at hpc' <;> contradiction
      all_goals contradiction
  case entry =>
    intro q i hq
    rcases hst.c2p_inv hq with ⟨hq, hr⟩ | hz | ⟨inst, periodic, n, hl, hpc⟩
    case inl =>
      obtain ⟨inst, hl, hm⟩ := h.entry q i hq
      obtain ⟨inst', hl', ha⟩ := hst.advances hl
      exact ⟨inst', hl', fun hne => ha.mem_ids (hm (mt ha.absent_iff.mpr hne)) (hr inst hl)⟩
    case inr.inl =>
      obtain ⟨inst, hl, hpc⟩ := h.initial
      obtain ⟨inst', hl', ha⟩ := hst.advances hl
      exact ⟨inst', hz ▸ hl', fun hne => absurd (ha.absent_iff.mpr hpc) hne⟩
    case inr.inr =>
      obtain ⟨inst', hl', ha⟩ := hst.advances hl
      have hm := mem_ids_of_mem (h.adding i inst periodic n q hl hpc)
      exact ⟨inst', hl', fun _ => ha.mem_ids hm (by simp [hpc])⟩

end Entries
end Entries

section Scanning

theorem AtRest.queue_eq (h : s.AtRest) (hl : s.instances.load i = some inst) :
    inst.decChan.queue = [] := by
  have hle : inst.requests ≤ s.requests := Heap.le_total hl
  rw [h.left, Instance.requests] at hle
  exact List.eq_nil_of_length_eq_zero (by omega)

theorem Moves.sublist (h : Moves inst op inst') :
    inst'.decChan.queue.Sublist inst.decChan.queue := by
  cases h
  case receive hq _ => exact (Channel.receive_eq_some hq).left ▸ List.sublist_cons_self ..
  case ignore hq    => exact (Channel.receive_eq_some hq).left ▸ List.sublist_cons_self ..
  all_goals exact .refl _

-- While the loop runs, every request that it has sent is for another id than those that it still has to
-- deal with, and for one that `c2p` maps to the instance.
structure Scanning (s : Sys) : Prop where
  left     : s.scan.left.Nodup
  nodup    : ∀ i inst, (s.instances.load i = some inst) → inst.decChan.queue.Nodup
  queued   : ∀ i inst, (s.instances.load i = some inst) → ∀ q ∈ inst.decChan.queue,
    s.c2p q = some i ∧ q ∉ s.scan.left
  selected : ∀ delta rest q i, (s.scan = .send delta rest q i) → s.c2p q = some i

namespace Scanning

theorem of_subset (h : Scanning s) (hc : s'.c2p = s.c2p) (hn : s'.scan.left.Nodup)
    (hsub : s'.scan.left ⊆ s.scan.left)
    (hi : ∀ i inst', (s'.instances.load i = some inst') →
      ∃ inst, s.instances.load i = some inst ∧ inst'.decChan.queue.Sublist inst.decChan.queue)
    (hsel : ∀ delta rest q i, (s'.scan = .send delta rest q i) → s'.c2p q = some i) : Scanning s' where
  left     := hn
  selected := hsel
  nodup i inst' hl' := by
    obtain ⟨inst, hl, hq⟩ := hi i inst' hl'
    exact (h.nodup i inst hl).sublist hq
  queued i inst' hl' q hm := by
    obtain ⟨inst, hl, hq⟩ := hi i inst' hl'
    obtain ⟨hp, hn⟩ := h.queued i inst hl q (hq.subset hm)
    exact ⟨hc ▸ hp, fun hm => hn (hsub hm)⟩

theorem of_scan_eq (h : Scanning s) (hc : s'.c2p = s.c2p) (hsc : s'.scan = s.scan)
    (hi : ∀ i inst', (s'.instances.load i = some inst') →
      ∃ inst, s.instances.load i = some inst ∧ inst'.decChan.queue.Sublist inst.decChan.queue) :
    Scanning s' := by
  refine h.of_subset hc (hsc ▸ h.left) (hsc ▸ List.Subset.refl _) hi ?_
  rw [hsc, hc]
  exact h.selected

theorem sublist_setInst (hj : (s'.setInst i inst').instances.load j = some inst₁)
    (hl : s.instances.load i = some inst) (hi : s'.instances = s.instances)
    (hq : inst'.decChan.queue.Sublist inst.decChan.queue) :
    ∃ inst, s.instances.load j = some inst ∧ inst₁.decChan.queue.Sublist inst.decChan.queue := by
  rw [load_setInst, hi] at hj
  split at hj
  case isTrue he =>
    subst he
    rw [hl] at hj
    cases hj
    exact ⟨inst, hl, hq⟩
  case isFalse => exact ⟨inst₁, hj, .refl _⟩

theorem start (hc : s.AtRest) : Scanning { s with decision := none, scan := .next delta s.c2e.keys } where
  left := s.c2e.nodup
  selected _ _ _ _ h := by cases h
  nodup i inst hl := by
    rw [hc.queue_eq hl]
    exact .nil
  queued i inst hl q hm := by
    rw [hc.queue_eq hl] at hm
    contradiction

theorem next {t : Table UInt16 ElemId} (h : Scanning s) (hsc : s.scan.left = q :: rest) :
    Scanning { s with c2e := t, scan := .next delta rest } := by
  have hl := h.left
  rw [hsc] at hl
  refine h.of_subset rfl (List.nodup_cons.mp hl).right ?_ (fun _ inst hl => ⟨inst, hl, .refl _⟩) (by simp)
  rw [hsc]
  exact List.subset_cons_self ..

theorem scan (h : Scanning s) (hs : Scans s op sc) (hne : sc ≠ .idle) :
    Scanning { s with scan := sc } := by
  have hi : ∀ i inst', (s.instances.load i = some inst') →
      ∃ inst, s.instances.load i = some inst ∧ inst'.decChan.queue.Sublist inst.decChan.queue :=
    fun _ inst hl => ⟨inst, hl, .refl _⟩
  have hl := h.left
  cases hs
  case finish => contradiction
  case skip hsc _ _ =>
    rw [hsc] at hl
    refine h.of_subset rfl (hl.sublist (List.eraseIdx_sublist ..)) ?_ hi (by simp)
    rw [hsc]
    exact (List.eraseIdx_sublist ..).subset
  case produce hsc hk _ =>
    rw [hsc] at hl
    obtain ⟨hlt, he⟩ := List.getElem?_eq_some_iff.mp hk
    have hp := List.getElem_cons_eraseIdx_perm hlt
    rw [he] at hp
    refine h.of_subset rfl (hp.nodup_iff.mpr hl) ?_ hi (by simp)
    rw [hsc]
    exact hp.subset
  case keep hsc => exact h.next (by rw [hsc]; rfl)
  case select hsc _ hp =>
    rw [hsc] at hl
    refine h.of_subset rfl hl ?_ hi fun _ _ _ _ he => ?_
    case refine_1 => rw [hsc]; exact List.Subset.refl _
    case refine_2 => cases he; exact hp
  case alive hsc | notAlive hsc | repl hsc =>
    rw [hsc] at hl
    refine h.of_subset rfl hl ?_ hi (by simp)
    rw [hsc]
    exact List.Subset.refl _

theorem nodup_cons (h : Scanning s) (hsc : s.scan = .send delta rest q i)
    (hl : s.instances.load i = some inst) : (q :: inst.decChan.queue).Nodup := by
  refine List.nodup_cons.mpr ⟨fun hm => ?_, h.nodup i inst hl⟩
  have hn := (h.queued i inst hl q hm).right
  rw [hsc] at hn
  exact hn (List.mem_cons_self ..)

theorem send (h : Scanning s) (hsc : s.scan = .send delta rest q i)
    (hl : s.instances.load i = some inst) (hq : inst.decChan.send q = some decChan) :
    Scanning ({ s with scan := .next (delta + 1) rest }.setInst i { inst with decChan := decChan }) := by
  obtain ⟨hnm, hn⟩ : q ∉ rest ∧ rest.Nodup := by
    have hn := h.left
    rw [hsc] at hn
    exact List.nodup_cons.mp hn
  have hleft {q' : UInt16} (hm : q' ∉ s.scan.left) : q' ∉ rest := by
    rw [hsc] at hm
    exact fun hr => hm (List.mem_cons_of_mem _ hr)
  have hd := (Channel.send_eq_some hq).left
  constructor
  case left     => exact hn
  case selected => intro _ _ _ _ h; cases h
  case nodup =>
    intro j inst₁ hj
    rw [load_setInst] at hj
    split at hj
    case isFalse => exact h.nodup j inst₁ hj
    case isTrue he =>
      subst he
      simp only [hl, Option.map_some, Option.some.injEq] at hj
      subst hj
      rw [hd]
      exact (List.perm_append_singleton ..).nodup_iff.mpr (h.nodup_cons hsc hl)
  case queued =>
    intro j inst₁ hj q' hm
    rw [load_setInst] at hj
    split at hj
    case isFalse =>
      obtain ⟨hp, hn⟩ := h.queued j inst₁ hj q' hm
      exact ⟨hp, hleft hn⟩
    case isTrue he =>
      subst he
      simp only [hl, Option.map_some, Option.some.injEq] at hj
      subst hj
      rw [hd, List.mem_append, List.mem_singleton] at hm
      rcases hm with hm | he
      case inl =>
        obtain ⟨hp, hn⟩ := h.queued j inst hl q' hm
        exact ⟨hp, hleft hn⟩
      case inr =>
        subst he
        exact ⟨h.selected _ _ _ _ hsc, hnm⟩

theorem step (h : (s.scan ≠ .idle) → Scanning s) (hd : (s.decision ≠ none) → s.AtRest)
    (hst : Stepped s op s' cs) (hne : s'.scan ≠ .idle) : Scanning s' := by
  cases hst
  case addConnElem hsc | creatorAdd hsc | addInstance hsc | removeInstance hsc | scaleUp hsc _ _ |
      noScaling hsc => exact absurd hsc hne
  case scaleDown hdec _ => exact .start (hd (by simp [hdec]))
  case move hl hm => exact (h hne).of_scan_eq rfl rfl fun _ _ hj => sublist_setInst hj hl rfl hm.sublist
  case getConnElem hl _ _ | delete hl _ _ | removeNil hl _ | removeContainer hl _ _ =>
    exact (h hne).of_scan_eq rfl rfl fun _ _ hj => sublist_setInst hj hl rfl (.refl _)
  case scan hs =>
    refine (h ?_).scan hs hne
    cases hs <;> simp [*]
  case drop hdr =>
    cases hdr
    all_goals
      have hsc := ‹s.scan = _›
      exact (h (by simp [hsc])).next (by rw [hsc]; rfl)
  case send delta rest q i inst decChan hsc hl hq =>
    have hz : ¬ delta + 1 = 0 := fun hz => hne (by simp [setInst, hz])
    simp only [if_neg hz]
    exact (h (by simp [hsc])).send hsc hl hq
  all_goals exact (h hne).of_scan_eq rfl rfl fun _ inst hl => ⟨inst, hl, .refl _⟩

end Scanning
end Scanning

section Runs

-- Decisions are taken at rest, and every loop runs to its end before the next one.
structure Orderly (s : Sys) : Prop where
  entries  : Entries s
  decided  : (s.decision ≠ none) → s.AtRest
  scanning : (s.scan ≠ .idle) → Scanning s

theorem Stepped.decided (hst : Stepped s op s' cs) (h : (s.decision ≠ none) → s.AtRest)
    (hg : s.DecidesAtRest op) (hd : s'.decision ≠ none) : s'.AtRest := by
  have hr := hst.requests_le
  cases hst
  case handleScaling => exact hg rfl
  case scaleUp | scaleDown | noScaling => contradiction
  case scan hs | drop hs =>
    obtain ⟨_, hidle⟩ := h hd
    cases hs <;> simp_all
  case send hsc _ _ =>
    obtain ⟨_, hidle⟩ := h hd
    simp [hsc] at hidle
  all_goals
    obtain ⟨hreq, hidle⟩ := h hd
    rw [hreq] at hr
    exact ⟨Nat.eq_zero_of_le_zero ((Nat.le_add_right ..).trans hr), hidle⟩

theorem Orderly.step (h : Orderly s) (hs : s.step p op = .ok (s', cs))
    (hg : s.DecidesAtRest op ∧ s.CreatesWithinSize op) : Orderly s' where
  entries  := h.entries.step hs hg.right
  decided  := (step_inv hs).decided h.decided hg.left
  scanning := Scanning.step h.scanning h.decided (step_inv hs)

end Runs

end Sys
end Cnt
