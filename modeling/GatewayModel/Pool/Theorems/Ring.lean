import GatewayModel.Pool.Theorems.Represents

open Go Execution CircularList RoundRobin

namespace Pool.State

variable {s s' : State} {r : Rotation ElemId} {ce : ElemId}

theorem Added.size (h : Added s conn cnt s') : s'.elems.size = s.elems.size + 1 := by
  have : (s.allocElem conn cnt).elems.size = s.elems.size + 1 := Heap.size_alloc
  cases h
  case first => exact (size_setPrev ..).trans <| (size_setNext ..).trans this
  case last  =>
    exact (size_setPrev ..).trans <| (size_setNext ..).trans <| (size_setPrev ..).trans <|
      (size_setNext ..).trans this

theorem Unlinked.size (h : Unlinked s ce s' b) : s'.elems.size = s.elems.size := by
  cases h
  case only  => rfl
  case inner => exact (size_setPrev ..).trans (size_setNext ..)
  case gone  => exact size_modifyElem ..

theorem Unlinked.lt_size (h : Unlinked s ce s' b) : ce < s.elems.size := by
  cases h <;> exact Heap.lt_size_of_load ‹_›

theorem HandedOver.size (h : HandedOver s ce s' rCe) : s'.elems.size = s.elems.size := by
  cases h <;> exact size_modifyElem ..

theorem clear_size (h : s.clear ce = .ok s') : s'.elems.size = s.elems.size := by
  have ⟨_, _, _, hs⟩ := clear_inv h
  simp [hs]

namespace Represents

theorem next_history (h : Represents s r limbo) (hh : History evs r)
    (hc : s.currElem = some res) (he : s.elems.load res = some e) :
    ∃ r', History (evs ++ [.next res]) r' ∧
      Represents { s with currElem := e.next } r' limbo := by
  have hn : s.next = .ok ({ s with currElem := e.next }, res) := by
    simp [State.next, hc, elem, he, bind, Except.bind, pure, Except.pure]
  by_cases ho : r.order = []
  case pos => exact ⟨r, hh.idle ho, h.next_of_empty hn ho⟩
  case neg =>
    obtain ⟨hf, hr⟩ := h.next hn ho
    exact ⟨r.advance, hh.next hf, hr⟩

theorem handOver_history (h : Represents s r limbo) (hh : History evs r)
    (ho : HandedOver s ce s' rCe) :
    ∃ r', History (evs ++ rCe.toList.map .next) r' ∧ Represents s' r' limbo := by
  cases ho
  case idle =>
    refine ⟨r, by simpa using hh, h.congr ?_ ?_ rfl rfl (fun _ => rfl) (by simp)⟩
    · exact nextOf_modifyElem _ _ fun _ => rfl
    · exact prevOf_modifyElem _ _ fun _ => rfl
  case moved hc hr _ _ =>
    obtain ⟨r', hh', hr'⟩ := h.next_history hh hc hr
    refine ⟨r', hh', hr'.congr ?_ ?_ rfl rfl (fun _ => rfl) ?_⟩
    · exact nextOf_modifyElem s _ fun _ => rfl
    · exact prevOf_modifyElem s _ fun _ => rfl
    · exact le_of_eq (size_modifyElem s _).symm

end Represents

-- The pool refines a round-robin choice between the elements that have been added to it.
structure Refines (s : State) (evs : Trace) (r : Rotation ElemId) : Prop where
  history    : History evs r
  represents : Represents s r ∅
  elems      : ∀ e, (e ∈ added evs) ↔ (e < s.elems.size)

namespace Refines

theorem init {age : Int} : Refines (.init age) [] .empty where
  history    := .nil
  represents := .init
  elems      := by simp [added, State.init]

theorem congr (h : Refines s evs r) (he : s'.elems = s.elems) (hh : s'.headElem = s.headElem)
    (ht : s'.tailElem = s.tailElem) (hc : s'.currElem = s.currElem) : Refines s' evs r where
  history    := h.history
  represents := by
    apply h.represents.congr _ _ hh ht (fun _ => hc) (by rw [he])
    · simp [nextOf, he, funext_iff]
    · simp [prevOf, he, funext_iff]
  elems := by simpa [he] using h.elems

theorem silent (h : Refines s evs r) (he : s'.elems = s.elems) (hh : s'.headElem = s.headElem)
    (ht : s'.tailElem = s.tailElem) (hc : s'.currElem = s.currElem) :
    ∃ r', Refines s' (evs ++ []) r' :=
  ⟨r, (List.append_nil evs).symm ▸ h.congr he hh ht hc⟩

theorem add (h : Refines s evs r) (ha : Added s conn cnt s') :
    Refines s' (evs ++ [.add s.elems.size]) (r.add s.elems.size) where
  -- The new element's address differs from all addresses before.
  history    := h.history.add fun hc => lt_irrefl _ ((h.elems _).mp hc)
  represents := h.represents.add ha
  elems e    := by
    rw [ha.size, added_append, List.mem_append, h.elems e, Nat.lt_succ_iff_lt_or_eq]
    simp [added]

theorem cleared (h : Refines s evs r) (hu : Unlinked s ce s₁ true) (hc : s₁.clear ce = .ok s') :
    ce ∈ r.order ∧ Refines s' (evs ++ [.delete ce]) (r.delete ce) := by
  have hm : ce ∈ r.order := by
    by_contra hm
    exact Bool.noConfusion (h.represents.unlink_of_gone hm (Set.notMem_empty ce) hu).left
  have hr := (h.represents.unlink hm hu).right.clear (Set.mem_insert ..) hc
  have hd : insert ce ∅ \ {ce} = (∅ : Set ElemId) := by ext; simp
  refine ⟨hm, h.history.delete ((h.elems ce).mpr hu.lt_size), hd ▸ hr, fun e => ?_⟩
  rw [clear_size hc, hu.size, ← h.elems e]
  simp [added]

theorem delete (h : Refines s evs r) (hu : Unlinked s ce s₁ true) (hc : s₁.clear ce = .ok s₂)
    (ho : HandedOver s₂ ce s' rCe) :
    ∃ r', Refines s' (evs ++ .delete ce :: rCe.toList.map .next) r' := by
  have h₂ := (h.cleared hu hc).right
  have ⟨r', hh, hr⟩ := h₂.represents.handOver_history h₂.history ho
  refine ⟨r', by simpa using hh, hr, fun e => ?_⟩
  rw [ho.size, ← h₂.elems e]
  cases rCe <;> simp [added]

theorem deleteAgain (h : Refines s evs r) (hu : Unlinked s ce s' false) :
    Refines s' (evs ++ [.delete ce]) r := by
  have hm : ce ∉ r.order := fun hm => Bool.noConfusion (h.represents.unlink hm hu).left
  have hh := h.history.delete ((h.elems ce).mpr hu.lt_size)
  rw [Rotation.delete_of_not_mem hm] at hh
  refine ⟨hh, (h.represents.unlink_of_gone hm (Set.notMem_empty ce) hu).right, fun e => ?_⟩
  rw [hu.size, ← h.elems e]
  simp [added]

theorem next (h : Refines s evs r) (hc : s.currElem = some res) (he : s.elems.load res = some e) :
    ∃ r', Refines { s with currElem := e.next } (evs ++ [.next res]) r' := by
  have ⟨r', hh, hr⟩ := h.represents.next_history h.history hc he
  exact ⟨r', hh, hr, by simpa [added] using h.elems⟩

theorem get (h : Refines s evs r) (hg : Got s crc s' reply) :
    ∃ r', Refines s' (evs ++ reply.elem.toList.map .next) r' := by
  cases hg
  case fast => exact h.silent rfl rfl rfl rfl
  case slow hc he _ _ _ =>
    have ⟨r', h'⟩ := h.next hc he
    refine ⟨r', h'.history, h'.represents.congr ?_ ?_ rfl rfl (fun _ => rfl) ?_, ?_⟩
    · exact nextOf_modifyElem s _ fun _ => rfl
    · exact prevOf_modifyElem s _ fun _ => rfl
    · exact le_of_eq (size_modifyElem s _).symm
    · exact fun e => (h'.elems e).trans (by rw [assigned, Heap.size_modify])

theorem step (h : Refines s evs r) (hs : Stepped s op tr s') : ∃ r', Refines s' (evs ++ tr) r' := by
  cases hs
  case add cnt _ ha =>
    have h' : Refines { s with containers := s.containers.alloc cnt } evs r :=
      h.congr rfl rfl rfl rfl
    exact ⟨_, h'.add ha⟩
  case get hg          => exact h.get hg
  case delete hu hc ho => exact h.delete hu hc ho
  case deleteAgain hu  => exact ⟨r, h.deleteAgain hu⟩
  case wait            => exact h.silent rfl rfl rfl rfl
  case next hn =>
    have ⟨_, hc, he, hs⟩ := next_inv hn
    subst hs
    exact h.next hc he
  case tick hk =>
    cases hk
    case idle => exact h.silent rfl rfl rfl rfl
    case expired w _ _ _ _ _ _ _ _ =>
      apply h.silent <;> cases ho : w.origin <;> simp [forget, ho]
  case stop hk =>
    cases hk
    case inl hs => exact h.silent (by rw [hs]) (by rw [hs]) (by rw [hs]) (by rw [hs])
    case inr hs => exact h.silent (by rw [hs]) (by rw [hs]) (by rw [hs]) (by rw [hs])

end Refines

theorem run_invariant {G : State → (Op × Trace) → State → Prop}
    {P : List (Op × Trace) → State → Prop} (h : Run G (.init age) ls s)
    (hG : ∀ {s l s'}, (G s l s') → Step s l s') (h₀ : P [] (.init age))
    (hP : ∀ {ls s l s' r}, (Refines s (trace ls) r) → (P ls s) → (G s l s') → P (ls ++ [l]) s') :
    ∃ r, Refines s (trace ls) r ∧ P ls s := by
  refine h.invariant_labels (P := fun ls s => ∃ r, Refines s (trace ls) r ∧ P ls s)
    ⟨_, .init, h₀⟩ ?_
  intro ls s l s' ⟨r, hr, hp⟩ hs
  have ⟨r', hr'⟩ := hr.step (step_inv (hG hs))
  exact ⟨r', trace_concat ▸ hr', hP hr hp hs⟩

theorem exists_refines (h : PoolRun age ls s) : ∃ r, Refines s (trace ls) r := by
  have ⟨r, hr, _⟩ := run_invariant (P := fun _ _ => True) h id trivial fun _ _ _ => trivial
  exact ⟨r, hr⟩

section Invariant

theorem sizeLoop_eq (hc : (a :: l).IsChain (Linked s.nextOf s.prevOf)) (nd : (a :: l).Nodup)
    (ht : s.tailElem = (a :: l).getLast?) (hf : l.length ≤ fuel) :
    s.sizeLoop fuel (some a) i = some (.ok (i + l.length)) := by
  induction l generalizing a fuel i
  case nil =>
    have ha : some a = s.tailElem := ht.symm
    rw [sizeLoop.eq_def, if_pos ha]
    rfl
  case cons b l hi =>
    have ⟨hab, hc'⟩ := List.isChain_cons_cons.mp hc
    have ⟨ha, nd'⟩ := List.nodup_cons.mp nd
    rw [List.getLast?_cons_cons] at ht
    have hne : some a ≠ s.tailElem := fun h => ha (List.mem_of_mem_getLast? (ht.symm.trans h.symm))
    cases fuel
    case zero      => simp at hf
    case succ fuel =>
      have := hi (i := i + 1) hc' nd' ht (Nat.le_of_succ_le_succ hf)
      rw [sizeLoop.eq_def, if_neg hne]
      simp only [hab.left, this, List.length_cons]
      congr 2
      omega

structure WellLinked (s : State) (l : List ElemId) : Prop where
  visits  : follow s.nextOf l.length s.headElem = l
  once    : l.Nodup
  ends    : s.tailElem = l.getLast?
  closes  : ∀ z ∈ s.tailElem, s.nextOf z = s.headElem
  inverse : ∀ a ∈ l, ∀ b ∈ l, (s.nextOf a = some b) ↔ (s.prevOf b = some a)
  linked  : ∀ a ∈ l, (∃ b ∈ l, s.nextOf a = some b) ∧ (∃ b ∈ l, s.prevOf a = some b)
  cursor  : ∃ c ∈ l, s.currElem = some c

theorem Represents.wellLinked (h : Represents s r limbo) (hr : r.order ≠ []) :
    WellLinked s r.order where
  visits  := h.head ▸ follow_chain h.ring.links
  once    := h.order_nodup
  ends    := h.tail
  closes  := by
    intro z hz
    have ⟨a, ha⟩ := Option.ne_none_iff_exists'.mp (mt List.head?_eq_none_iff.mp hr)
    rw [h.head, ha]
    exact (h.ring.closed z (h.tail ▸ hz) a ha).left
  inverse := by
    intro a ha b hb
    have ⟨n, _, hn⟩ := h.ring.next_mem ha
    have ⟨p, _, hp⟩ := h.ring.prev_mem hb
    constructor
    case mp =>
      intro hab
      cases hn.left.symm.trans hab
      exact hn.right
    case mpr =>
      intro hba
      cases hp.right.symm.trans hba
      exact hp.left
  linked  := by
    intro a ha
    have ⟨n, hnm, hn⟩ := h.ring.next_mem ha
    have ⟨p, hpm, hp⟩ := h.ring.prev_mem ha
    exact ⟨⟨n, hnm, hn.left⟩, ⟨p, hpm, hp.right⟩⟩
  cursor  := by
    have hq : r.queue ≠ [] := fun hc =>
      hr (List.eq_nil_iff_forall_not_mem.mpr fun x hx => by
        simpa [hc] using Rotation.mem_queue_iff.mpr hx)
    have ⟨c, hc⟩ := Option.ne_none_iff_exists'.mp (mt List.head?_eq_none_iff.mp hq)
    exact ⟨c, Rotation.mem_queue_iff.mp (List.mem_of_mem_head? hc), (h.curr hr).trans hc⟩

theorem Represents.sizeNoLock (h : Represents s r limbo) (hf : r.order.length ≤ fuel) :
    s.sizeNoLock fuel = some (.ok r.order.length) := by
  have hh := h.head
  have ht := h.tail
  have hc := h.ring.links
  have nd := h.order_nodup
  rw [State.sizeNoLock]
  generalize r.order = l at *
  cases l
  case nil => simp [hh]
  case cons a l =>
    rw [hh, List.head?_cons]
    have := sizeLoop_eq (i := 1) hc nd ht (Nat.le_of_succ_le hf)
    simp only [this, List.length_cons, Nat.add_comm]

-- The representation invariant of the pool after the events in `tr`: what `live` and `deleted`
-- elements look like, and what `SizeNoLock` returns given enough iterations.
structure RingInvariant (s : State) (tr : Trace) : Prop where
  ring    : (s.headElem = none ∧ s.tailElem = none ∧ live tr = []) ∨
            (live tr ≠ [] ∧ WellLinked s (live tr))
  deleted : ∀ e ∈ deleted tr, (s.nextOf e = none) ∧ (s.prevOf e = none)
  size    : ∀ fuel ≥ (live tr).length, s.sizeNoLock fuel = some (.ok (live tr).length)

theorem ring_invariant (h : PoolRun age ls s) : RingInvariant s (trace ls) := by
  have ⟨r, hr⟩ := exists_refines h
  have ho := hr.history.order_eq
  have hp := hr.represents
  constructor
  case ring =>
    rw [← ho]
    by_cases hn : r.order = []
    case pos => exact .inl ⟨by simp [hp.head, hn], by simp [hp.tail, hn], hn⟩
    case neg => exact .inr ⟨hn, hp.wellLinked hn⟩
  case deleted =>
    intro e he
    refine hp.gone e (fun hc => ?_) (Set.notMem_empty e)
    exact (mem_live_iff.mp (ho ▸ hc)).right he
  case size =>
    intro fuel hf
    rw [← ho] at *
    exact hp.sizeNoLock hf

theorem ring_invariant_churn :
    ∃ ls s, PoolRun 5 ls s ∧ live (trace ls) = [1, 2] ∧ deleted (trace ls) = [0, 0] ∧
      RingInvariant s (trace ls) := by
  have ⟨s, ls, h, ht⟩ : ∃ s ls, PoolRun 5 ls s ∧
      decide (live (trace ls) = [1, 2] ∧ deleted (trace ls) = [0, 0]) = true :=
    Run.of_passes [.add (some 0) (some 0) 0 false 10, .add (some 1) (some 1) 1 false 10,
      .get 7, .delete 0, .delete 0, .add (some 2) (some 2) 2 true 10] (by decide)
  have ⟨hl, hd⟩ := of_decide_eq_true ht
  exact ⟨ls, s, h, hl, hd, ring_invariant h⟩

end Invariant

section Fairness

-- Between two consecutive times that `Next` returns an element which is not deleted in between,
-- `Next` returns the elements that stay live exactly once, and those that come or go at most once.
theorem next_fair {pre mid post : Trace} (h : PoolRun age ls s)
    (ht : trace ls = pre ++ .next e :: (mid ++ .next e :: post))
    (hl : e ∈ live pre) (hn : .next e ∉ mid) (hd : .delete e ∉ mid) :
    (∀ x ≠ e, (x ∈ live pre) → (.delete x ∉ mid) → mid.count (.next x) = 1) ∧
    (∀ x, (.add x ∈ mid ∨ .delete x ∈ mid) → mid.count (.next x) ≤ 1) := by
  have ⟨r, hr⟩ := exists_refines h
  have hh := ht ▸ hr.history
  constructor
  case left =>
    intro x hx hm hd'
    exact (hh.fair hl hn hd hx).right hm hd'
  case right =>
    intro x _
    by_cases hx : x = e
    case pos => simp [hx, List.count_eq_zero.mpr hn]
    case neg => exact (hh.fair hl hn hd hx).left

-- After element 0 it is the turn of element 1, which is deleted, so the cursor visits element 2, the
-- new element 3, and element 0 again.
theorem next_fair_churn :
    ∃ ls s, PoolRun 5 ls s ∧
      (trace ls = [.add 0, .add 1, .add 2] ++ .next 0 ::
        ([.delete 1, .add 3, .next 2, .next 3] ++ .next 0 :: [])) ∧
      ([.delete 1, .add 3, .next 2, .next 3] : Trace).count (.next 2) = 1 ∧
      ([.delete 1, .add 3, .next 2, .next 3] : Trace).count (.next 3) ≤ 1 := by
  have ⟨s, ls, h, ht⟩ : ∃ s ls, PoolRun 5 ls s ∧
      decide (trace ls = [.add 0, .add 1, .add 2] ++ .next 0 ::
        ([.delete 1, .add 3, .next 2, .next 3] ++ .next 0 :: [])) = true :=
    Run.of_passes [.add (some 0) (some 0) 0 false 10, .add (some 1) (some 1) 1 false 10,
      .add (some 2) (some 2) 2 false 10, .next, .delete 1,
      .add (some 3) (some 3) 3 false 10, .next, .next, .next] (by decide)
  have ht := of_decide_eq_true ht
  have ⟨hs, hc⟩ := next_fair h ht (by decide) (by decide) (by decide)
  exact ⟨ls, s, h, ht, hs 2 (by decide) (by decide) (by decide), hc 3 (by decide)⟩

end Fairness

end Pool.State
