import GatewayModel.Pool.Concurrent.Threads

open Go Execution RoundRobin

namespace Pool.Concurrent

section Ring

structure SameRing (s s' : State) : Prop where
  nextOf   : s'.nextOf = s.nextOf
  prevOf   : s'.prevOf = s.prevOf
  headElem : s'.headElem = s.headElem
  tailElem : s'.tailElem = s.tailElem
  currElem : s'.currElem = s.currElem
  size     : s'.elems.size = s.elems.size

variable {s s' : State} {crc : Crc} {ce : ElemId} {f : ConnPoolElem → ConnPoolElem}

theorem SameRing.modifyElem (hn : ∀ e, (f e).next = e.next) (hp : ∀ e, (f e).prev = e.prev) :
    SameRing s (s.modifyElem ce f) where
  nextOf   := State.nextOf_modifyElem _ _ hn
  prevOf   := State.prevOf_modifyElem _ _ hp
  headElem := rfl
  tailElem := rfl
  currElem := rfl
  size     := State.size_modifyElem ..

theorem SameRing.represents (h : SameRing s s') (hr : State.Represents s r limbo) :
    State.Represents s' r limbo :=
  hr.congr h.nextOf h.prevOf h.headElem h.tailElem (fun _ => h.currElem) (le_of_eq h.size.symm)

theorem block_ring (h : block s crc pc = .ok (s', pc')) :
    (∃ cpe, pc = .next ∧ pc' = .addCrc cpe ∧ s.next = .ok (s', cpe)) ∨
    ((∀ cpe, pc' ≠ .addCrc cpe) ∧ SameRing s s') := by
  by_cases hpc : pc = .next
  case pos =>
    subst hpc
    simp only [block, bind_eq_ok, pure_eq_ok, Prod.exists, Prod.mk.injEq] at h
    obtain ⟨_, cpe, hn, hs, hpc⟩ := h
    subst hs
    exact .inl ⟨cpe, rfl, hpc.symm, hn⟩
  case neg =>
    refine .inr ?_
    cases block_inv h
    case next   => exact absurd rfl hpc
    case addCrc => exact ⟨by simp, .modifyElem (fun _ => rfl) fun _ => rfl⟩
    all_goals exact ⟨by simp, rfl, rfl, rfl, rfl, rfl, rfl⟩

end Ring

namespace Threads

variable {t t' : Threads} {s : State} {r : Rotation ElemId} {d : Deletion}

-- The calls of `Delete` are for distinct elements, and none of them empties the ring.
def Separate (t : Threads) : Op → Prop
  | .delete ce   => ∀ d ∈ t.deletes, d.ce ≠ ce
  | .runDelete i => ∀ d ∈ t.deletes[i]?, (d.pc = .unlink) → t.pool.nextOf d.ce ≠ some d.ce
  | _            => True

instance : (op : Op) → Decidable (t.Separate op)
  | .delete ce   => inferInstanceAs (Decidable (∀ d ∈ t.deletes, d.ce ≠ ce))
  | .runDelete i => inferInstanceAs (Decidable (∀ d ∈ t.deletes[i]?,
                      (d.pc = .unlink) → t.pool.nextOf d.ce ≠ some d.ce))
  | .add .. | .get _ | .runGet _ | .check _ | .expire _ | .stop _ | .wait _ => .isTrue trivial

def limbo (t : Threads) : Set ElemId :=
  { ce | ∃ d ∈ t.deletes, d.ce = ce ∧ d.pc = .clear }

-- The elements that no `Delete` has unlinked form the ring.
structure Linked (t : Threads) (r : Rotation ElemId) : Prop where
  represents : State.Represents t.pool r t.limbo
  nonempty   : (0 < t.pool.elems.size) → r.order ≠ []
  once       : (t.deletes.map (·.ce)).Nodup
  unlinked   : ∀ d ∈ t.deletes, (d.pc ≠ .unlink) → d.ce ∉ r.order ∧ d.ce < t.pool.elems.size
  linked     : ∀ e < t.pool.elems.size, (e ∉ r.order) → ∃ d ∈ t.deletes, d.ce = e ∧ d.pc ≠ .unlink

namespace Linked

theorem init {age : Int} : Linked (.init age) .empty where
  represents := by simpa [limbo, Threads.init] using State.Represents.init
  nonempty   := by simp [Threads.init, State.init]
  once       := .nil
  unlinked   := by simp [Threads.init]
  linked     := by simp [Threads.init, State.init]

theorem congr {gs : List Call} {xs : List Expiry} (h : Linked t r) (hr : SameRing t.pool s) :
    Linked ⟨s, gs, t.deletes, xs⟩ r where
  represents := hr.represents h.represents
  nonempty   := by rw [hr.size]; exact h.nonempty
  once       := h.once
  unlinked   := by rw [hr.size]; exact h.unlinked
  linked     := by rw [hr.size]; exact h.linked

theorem order_ne_nil_of_next (h : Linked t r) (hn : t.pool.next = .ok (s, res)) : r.order ≠ [] := by
  have ⟨_, _, he, _⟩ := State.next_inv hn
  exact h.nonempty (Nat.zero_lt_of_lt (Heap.lt_size_of_load he))

theorem mem_order_of_next (h : Linked t r) (hn : t.pool.next = .ok (s, res)) : res ∈ r.order := by
  have ⟨hf, _⟩ := h.represents.next hn (h.order_ne_nil_of_next hn)
  rw [← Rotation.mem_queue_iff]
  exact List.mem_of_head? (Rotation.head?_queue.trans hf)

theorem next {gs : List Call} {xs : List Expiry} (h : Linked t r)
    (hn : t.pool.next = .ok (s, res)) : Linked ⟨s, gs, t.deletes, xs⟩ r.advance := by
  have ⟨_, hr⟩ := h.represents.next hn (h.order_ne_nil_of_next hn)
  have hord : r.advance.order = r.order := Rotation.order_advance
  have ⟨_, _, _, hs⟩ := State.next_inv hn
  subst hs
  refine ⟨hr, ?_, h.once, ?_, ?_⟩
  case refine_1 => rw [hord]; exact h.nonempty
  case refine_2 => rw [hord]; exact h.unlinked
  case refine_3 => rw [hord]; exact h.linked

theorem add {cs : Heap Container} (h : Linked t r)
    (ha : State.Added { t.pool with containers := cs } conn cnt s) :
    Linked { t with pool := s } (r.add t.pool.elems.size) := by
  have hz : s.elems.size = t.pool.elems.size + 1 := ha.size
  have hr : State.Represents { t.pool with containers := cs } r t.limbo :=
    h.represents.congr rfl rfl rfl rfl (fun _ => rfl) (le_refl _)
  constructor
  case represents => exact hr.add ha
  case nonempty   => simp
  case once       => exact h.once
  case unlinked =>
    intro d hd hu
    have ⟨hm, hlt⟩ := h.unlinked d hd hu
    simp only [Rotation.order_add, List.mem_append, List.mem_singleton, hz]
    exact ⟨not_or.mpr ⟨hm, ne_of_lt hlt⟩, Nat.lt_succ_of_lt hlt⟩
  case linked =>
    intro e he hm
    simp only [Rotation.order_add, List.mem_append, List.mem_singleton, not_or] at hm
    have he : e < t.pool.elems.size + 1 := hz ▸ he
    exact h.linked e (lt_of_le_of_ne (Nat.le_of_lt_succ he) hm.right) hm.left

theorem delete (h : Linked t r) (hd : ∀ d ∈ t.deletes, d.ce ≠ ce) :
    Linked { t with deletes := t.deletes ++ [⟨ce, .unlink⟩] } r := by
  have hl : limbo { t with deletes := t.deletes ++ [⟨ce, .unlink⟩] } = t.limbo := by
    ext x
    simp [limbo]
  constructor
  case represents => rw [hl]; exact h.represents
  case nonempty   => exact h.nonempty
  case once =>
    simp only [List.map_append, List.map_cons, List.map_nil]
    refine h.once.append (List.nodup_singleton _) ?_
    simpa using hd
  case unlinked =>
    intro d hm hu
    cases List.mem_append.mp hm
    case inl hm => exact h.unlinked d hm hu
    case inr hm =>
      cases List.mem_singleton.mp hm
      exact absurd rfl hu
  case linked =>
    intro e he hm
    have ⟨d, hd, hu⟩ := h.linked e he hm
    exact ⟨d, List.mem_append_left _ hd, hu⟩

section Deletes

variable {i : Nat} {pc : DeletePc} (h : Linked t r) (hi : t.deletes[i]? = some d)

include h hi

theorem mem_set : (d' ∈ t.deletes.set i { d with pc := pc }) ↔
    (d' = { d with pc := pc } ∨ (d' ∈ t.deletes ∧ d'.ce ≠ d.ce)) :=
  mem_set_iff_of_nodup h.once hi

theorem once_set : ((t.deletes.set i { d with pc := pc }).map (·.ce)).Nodup := by
  have hm := map_set_of_eq (f := Deletion.ce) (b := { d with pc := pc }) hi rfl
  exact hm ▸ h.once

theorem unique (hd' : d' ∈ t.deletes) (he : d'.ce = d.ce) : d' = d :=
  List.inj_on_of_nodup_map h.once hd' (List.mem_of_getElem? hi) he

theorem mem_order (hu : d.pc = .unlink) (hlt : d.ce < t.pool.elems.size) : d.ce ∈ r.order := by
  by_contra hm
  have ⟨d', hd', he, hu'⟩ := h.linked d.ce hlt hm
  exact hu' (h.unique hi hd' he ▸ hu)

theorem unlink (hpc : d.pc = .unlink) (hu : State.Unlinked t.pool d.ce s b)
    (hg : t.pool.nextOf d.ce ≠ some d.ce) :
    b = true ∧ Linked { t with pool := s, deletes := t.deletes.set i { d with pc := .clear } }
      (r.delete d.ce) := by
  have hm := h.mem_order hi hpc hu.lt_size
  have ⟨hb, hr⟩ := h.represents.unlink hm hu
  have nd := h.represents.order_nodup
  have ho : (r.delete d.ce).order = r.order.erase d.ce := Rotation.order_delete nd
  have hl : limbo { t with pool := s, deletes := t.deletes.set i { d with pc := .clear } } =
      insert d.ce t.limbo := by
    ext x
    simp only [limbo, h.mem_set hi, Set.mem_ofPred_eq, Set.mem_insert_iff]
    constructor
    case mp =>
      rintro ⟨d', hd' | ⟨hd', _⟩, he, hc⟩
      · exact .inl (by rw [← he, hd'])
      · exact .inr ⟨d', hd', he, hc⟩
    case mpr =>
      rintro (he | ⟨d', hd', he, hc⟩)
      · exact ⟨_, .inl rfl, he.symm, rfl⟩
      · have hne : d'.ce ≠ d.ce := by
          intro he
          rw [h.unique hi hd' he, hpc] at hc
          contradiction
        exact ⟨d', .inr ⟨hd', hne⟩, he, hc⟩
  refine ⟨hb, ?_⟩
  constructor
  case represents => rw [hl]; exact hr
  case once       => exact h.once_set hi
  case nonempty =>
    intro _ hn
    rw [ho, List.erase_eq_nil_iff] at hn
    cases hn
    case inl hn => simp [hn] at hm
    case inr hn => exact hg ((h.represents.ring.next_eq_self_iff hm).mpr hn)
  case unlinked =>
    intro d' hd' hu'
    rw [ho, hu.size]
    cases (h.mem_set hi).mp hd'
    case inl hd' =>
      subst hd'
      exact ⟨nd.not_mem_erase, hu.lt_size⟩
    case inr hd' =>
      have ⟨hm', hlt⟩ := h.unlinked d' hd'.left hu'
      exact ⟨fun hc => hm' (List.mem_of_mem_erase hc), hlt⟩
  case linked =>
    intro e he hm'
    rw [ho] at hm'
    by_cases hed : e = d.ce
    case pos => exact ⟨_, (h.mem_set hi).mpr (.inl rfl), hed.symm, by simp⟩
    case neg =>
      have hm' : e ∉ r.order := fun hc => hm' ((List.mem_erase_of_ne hed).mpr hc)
      have ⟨d', hd', he', hu'⟩ := h.linked e (hu.size ▸ he) hm'
      exact ⟨d', (h.mem_set hi).mpr (.inr ⟨hd', he' ▸ hed⟩), he', hu'⟩

theorem set {lim : Set ElemId} (hr : State.Represents s r lim) (hz : s.elems.size = t.pool.elems.size)
    (hl : limbo { t with deletes := t.deletes.set i { d with pc := pc } } = lim)
    (hu : d.pc ≠ .unlink) (hu' : pc ≠ .unlink) :
    Linked { t with pool := s, deletes := t.deletes.set i { d with pc := pc } } r := by
  constructor
  case represents => exact hl ▸ hr
  case once       => exact h.once_set hi
  case nonempty   => rw [hz]; exact h.nonempty
  case unlinked =>
    intro d' hd' hn
    rw [hz]
    cases (h.mem_set hi).mp hd'
    case inl hd' =>
      subst hd'
      exact h.unlinked d (List.mem_of_getElem? hi) hu
    case inr hd' => exact h.unlinked d' hd'.left hn
  case linked =>
    intro e he hm
    have ⟨d', hd', hde, hn⟩ := h.linked e (hz ▸ he) hm
    by_cases hne : d'.ce = d.ce
    case pos => exact ⟨_, (h.mem_set hi).mpr (.inl rfl), hne.symm.trans hde, hu'⟩
    case neg => exact ⟨d', (h.mem_set hi).mpr (.inr ⟨hd', hne⟩), hde, hn⟩

theorem clear (hpc : d.pc = .clear) (hc : t.pool.clear d.ce = .ok s) :
    Linked { t with pool := s, deletes := t.deletes.set i { d with pc := .ports } } r := by
  have hm : d.ce ∈ t.limbo := ⟨d, List.mem_of_getElem? hi, rfl, hpc⟩
  refine h.set hi (h.represents.clear hm hc) (State.clear_size hc) ?_ (by simp [hpc]) (by simp)
  ext x
  simp only [limbo, h.mem_set hi, Set.mem_ofPred_eq, Set.mem_sdiff, Set.mem_singleton_iff]
  constructor
  case mp =>
    rintro ⟨d', hd' | ⟨hd', hne⟩, he, hc⟩
    · simp [hd'] at hc
    · exact ⟨⟨d', hd', he, hc⟩, he ▸ hne⟩
  case mpr =>
    rintro ⟨⟨d', hd', he, hc⟩, hne⟩
    exact ⟨d', .inr ⟨hd', he ▸ hne⟩, he, hc⟩

theorem keep (hr : SameRing t.pool s) (hu : d.pc ≠ .unlink) (hu' : pc ≠ .unlink)
    (hc : d.pc ≠ .clear) (hc' : pc ≠ .clear) :
    Linked { t with pool := s, deletes := t.deletes.set i { d with pc := pc } } r := by
  refine h.set hi (hr.represents h.represents) hr.size ?_ hu hu'
  ext x
  simp only [limbo, h.mem_set hi, Set.mem_ofPred_eq]
  constructor
  case mp =>
    rintro ⟨d', hd' | ⟨hd', _⟩, he, hpc⟩
    · simp [hd', hc'] at hpc
    · exact ⟨d', hd', he, hpc⟩
  case mpr =>
    rintro ⟨d', hd', he, hpc⟩
    have hne : d'.ce ≠ d.ce := fun he => hc (h.unique hi hd' he ▸ hpc)
    exact ⟨d', .inr ⟨hd', hne⟩, he, hpc⟩

theorem runDelete (hb : DeleteBlocked t.pool d.ce d.pc s pc)
    (hg : (d.pc = .unlink) → t.pool.nextOf d.ce ≠ some d.ce) :
    ∃ r', Linked { t with pool := s, deletes := t.deletes.set i { d with pc := pc } } r' := by
  generalize hpc : d.pc = pc₀ at hb
  cases hb
  case unlink hu => exact ⟨_, (h.unlink hi hpc hu (hg hpc)).right⟩
  case gone hu =>
    have hb := (h.unlink hi hpc hu (hg hpc)).left
    contradiction
  case clear hc => exact ⟨r, h.clear hi hpc hc⟩
  case next rCe hn =>
    have h' : Linked { t with pool := s } r.advance := h.next hn
    exact ⟨_, h'.keep hi ⟨rfl, rfl, rfl, rfl, rfl, rfl⟩ (by simp [hpc]) (by simp) (by simp [hpc])
      (by simp)⟩
  case remap hm =>
    have ⟨_, hs⟩ := State.remap_eq hm
    subst hs
    exact ⟨r, h.keep hi ⟨rfl, rfl, rfl, rfl, rfl, rfl⟩ (by simp [hpc]) (by simp) (by simp [hpc])
      (by simp)⟩
  case merge =>
    refine ⟨r, h.keep hi ?_ (by simp [hpc]) (by simp) (by simp [hpc]) (by simp)⟩
    exact .modifyElem (fun _ => rfl) fun _ => rfl
  case idle sent =>
    have hr : SameRing { t.pool with sent := sent }
        ({ t.pool with sent := sent }.modifyElem d.ce ({ · with container := none })) :=
      .modifyElem (fun _ => rfl) fun _ => rfl
    have hr := SameRing.mk (s := t.pool) hr.nextOf hr.prevOf rfl rfl rfl hr.size
    exact ⟨r, h.keep hi hr (by simp [hpc]) (by simp) (by simp [hpc]) (by simp)⟩
  all_goals
    exact ⟨r, h.keep hi ⟨rfl, rfl, rfl, rfl, rfl, rfl⟩ (by simp [hpc]) (by simp) (by simp [hpc])
      (by simp)⟩

end Deletes

theorem step (h : Linked t r) (hs : Stepped t op t' evs) (hg : t.Separate op) :
    ∃ r', Linked t' r' := by
  cases hs
  case idle => exact ⟨r, h⟩
  case add ha => exact ⟨_, h.add ha⟩
  case delete => exact ⟨r, h.delete hg⟩
  case runGet hb =>
    cases block_ring hb
    case inl hn =>
      have ⟨_, _, _, hn⟩ := hn
      exact ⟨_, h.next hn⟩
    case inr hr => exact ⟨r, h.congr hr.right⟩
  case runDelete hi hb => exact h.runDelete hi hb (hg _ hi)
  case remove x _ =>
    have hr : SameRing t.pool (t.pool.forget x.watcher) := by
      cases ho : x.watcher.origin <;> simp only [State.forget, ho] <;>
        exact ⟨rfl, rfl, rfl, rfl, rfl, rfl⟩
    exact ⟨r, h.congr hr⟩
  all_goals exact ⟨r, h.congr ⟨rfl, rfl, rfl, rfl, rfl, rfl⟩⟩

end Linked
end Threads
end Pool.Concurrent
