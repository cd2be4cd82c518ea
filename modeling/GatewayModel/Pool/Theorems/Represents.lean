import Mathlib.Data.Set.Insert
import GatewayModel.Lib.CircularList
import GatewayModel.Pool.Theorems.Operations

open Go CircularList RoundRobin

namespace Pool.State

variable {s s' : State} {r : Rotation ElemId} {limbo : Set ElemId} {ce : ElemId}

-- The linked elements of the pool form a ring in the order of the rotation `r`, and the pool's
-- cursor is the one of `r`. An element in `limbo` has been unlinked but still has its old links.
structure Represents (s : State) (r : Rotation ElemId) (limbo : Set ElemId) : Prop where
  ring  : IsRing s.nextOf s.prevOf r.order
  head  : s.headElem = r.order.head?
  tail  : s.tailElem = r.order.getLast?
  curr  : (r.order ≠ []) → s.currElem = r.queue.head?
  alloc : ∀ e ∈ r.order, e < s.elems.size
  apart : ∀ e ∈ limbo, (e ∉ r.order) ∧ (e < s.elems.size)
  gone  : ∀ e, (e ∉ r.order) → (e ∉ limbo) → (s.nextOf e = none) ∧ (s.prevOf e = none)

namespace Represents

theorem init {age : Int} : Represents (.init age) .empty ∅ where
  ring  := .nil
  head  := rfl
  tail  := rfl
  curr  := by simp
  alloc := by simp
  apart := by simp
  gone  := fun _ _ _ => ⟨rfl, rfl⟩

theorem congr (h : Represents s r limbo) (hn : s'.nextOf = s.nextOf) (hp : s'.prevOf = s.prevOf)
    (hh : s'.headElem = s.headElem) (ht : s'.tailElem = s.tailElem)
    (hc : (r.order ≠ []) → s'.currElem = s.currElem) (ha : s.elems.size ≤ s'.elems.size) :
    Represents s' r limbo where
  ring      := by rw [hn, hp]; exact h.ring
  head      := hh.trans h.head
  tail      := ht.trans h.tail
  curr he   := (hc he).trans (h.curr he)
  alloc e m := lt_of_lt_of_le (h.alloc e m) ha
  apart e m := ⟨(h.apart e m).left, lt_of_lt_of_le (h.apart e m).right ha⟩
  gone      := by rw [hn, hp]; exact h.gone

theorem order_nodup (h : Represents s r limbo) : r.order.Nodup :=
  h.ring.nodup

theorem size_not_mem (h : Represents s r limbo) : s.elems.size ∉ r.order :=
  fun hc => lt_irrefl _ (h.alloc _ hc)

theorem isRing_queue (h : Represents s r limbo) : IsRing s.nextOf s.prevOf r.queue :=
  h.ring.rotate

section Add

variable {conn : Option ConnId} {container : Option ContainerId}

private theorem nextOf_allocElem : (s.allocElem conn container).nextOf = s.nextOf := by
  ext1 p
  simp only [nextOf, allocElem, Heap.load_alloc]
  split
  case isTrue hp => simp [hp, newElem, Heap.load_eq_none.mpr (le_refl s.elems.size)]
  case isFalse   => rfl

private theorem prevOf_allocElem : (s.allocElem conn container).prevOf = s.prevOf := by
  ext1 p
  simp only [prevOf, allocElem, Heap.load_alloc]
  split
  case isTrue hp => simp [hp, newElem, Heap.load_eq_none.mpr (le_refl s.elems.size)]
  case isFalse   => rfl

private theorem size_allocElem : (s.allocElem conn container).elems.size = s.elems.size + 1 :=
  Heap.size_alloc

-- `headElem` and `tailElem` are nil together, so that `Add` does not dereference nil.
theorem exists_add (h : Represents s r limbo) (conn : Option ConnId)
    (container : Option ContainerId) : ∃ s', s.add conn container = .ok s' := by
  unfold State.add
  cases hh : s.headElem
  case none      => exact ⟨_, rfl⟩
  case some head =>
    have hne : r.order ≠ [] := by
      intro hc
      simp [h.head, hc] at hh
    have ht : s.tailElem = some (r.order.getLast hne) :=
      h.tail.trans (List.getLast?_eq_some_getLast hne)
    rw [ht]
    exact ⟨_, rfl⟩

theorem add (h : Represents s r limbo) (ha : Added s conn container s') :
    Represents s' (r.add s.elems.size) limbo := by
  have hsz : (s.allocElem conn container).elems.size = s.elems.size + 1 := size_allocElem
  have hx := h.size_not_mem
  generalize hs : s.elems.size = x at *
  have hxl : x < (s.allocElem conn container).elems.size := hsz ▸ Nat.lt_succ_self x
  have hlt : ∀ {y}, (y < x) → y < (s.allocElem conn container).elems.size := (lt_trans · hxl)
  cases ha
  case first hh =>
    have ho : r.order = [] := List.head?_eq_none_iff.mp (h.head.symm.trans hh)
    have hf := Rotation.order_eq_nil_iff.mp ho
    have ho' : (r.add x).order = [x] := by simp [ho]
    rw [hs]
    generalize ht : ((s.allocElem conn container).setNext x (some x)).setPrev x (some x) = t
    have hn : ∀ q, t.nextOf q = if q = x then some x else s.nextOf q := by
      intro q
      rw [← ht, nextOf_setPrev, nextOf_setNext _ hxl, nextOf_allocElem]
    have hp : ∀ q, t.prevOf q = if q = x then some x else s.prevOf q := by
      intro q
      rw [← ht, prevOf_setPrev _ (by simpa using hxl), prevOf_setNext, prevOf_allocElem]
    have hsz' : t.elems.size = (s.allocElem conn container).elems.size := by simp [← ht]
    constructor
    case ring =>
      rw [ho']
      exact IsRing.singleton_iff.mpr ⟨(hn x).trans (by simp), (hp x).trans (by simp)⟩
    case head  => simp [ho']
    case tail  => simp [ho']
    case curr  => intro _; simp [Rotation.head?_queue, Rotation.add, hf]
    case alloc => simpa [ho', hsz'] using hxl
    case apart =>
      intro e he
      have hex := (hs ▸ h.apart e he).right
      exact ⟨by simpa [ho'] using ne_of_lt hex, by simpa [hsz'] using hlt hex⟩
    case gone =>
      intro e he hl
      have hex : e ≠ x := by simpa [ho'] using he
      obtain ⟨h₁, h₂⟩ := h.gone e (by simp [ho]) hl
      exact ⟨(hn e).trans (by simp [hex, h₁]), (hp e).trans (by simp [hex, h₂])⟩
  case last a z hh ht =>
    have ha : r.order.head? = some a := h.head.symm.trans hh
    have hz : r.order.getLast? = some z := h.tail.symm.trans ht
    have ham := List.mem_of_mem_head? ha
    have hzm := List.mem_of_mem_getLast? hz
    have hal := hlt (hs ▸ h.alloc a ham)
    have hzl := hlt (hs ▸ h.alloc z hzm)
    have hax : a ≠ x := fun hc => hx (hc ▸ ham)
    have hzx : z ≠ x := fun hc => hx (hc ▸ hzm)
    rw [hs]
    generalize ht' : ((((s.allocElem conn container).setNext z (some x)).setPrev x
        (some z)).setNext x (some a)).setPrev a (some x) = t
    have hn : ∀ q, t.nextOf q = if q = x then some a else if q = z then some x else s.nextOf q := by
      intro q
      rw [← ht', nextOf_setPrev, nextOf_setNext _ (by simpa using hxl), nextOf_setPrev,
        nextOf_setNext _ hzl, nextOf_allocElem]
    have hp : ∀ q, t.prevOf q = if q = a then some x else if q = x then some z else s.prevOf q := by
      intro q
      rw [← ht', prevOf_setPrev _ (by simpa using hal), prevOf_setNext,
        prevOf_setPrev _ (by simpa using hxl), prevOf_setNext, prevOf_allocElem]
    have hsz' : t.elems.size = (s.allocElem conn container).elems.size := by simp [← ht']
    constructor
    case ring =>
      rw [Rotation.order_add]
      apply h.ring.concat hz ha hx
      · exact ⟨(hn z).trans (by simp [hzx]), (hp x).trans (by simp [hax.symm])⟩
      · exact ⟨(hn x).trans (by simp), (hp a).trans (by simp)⟩
      · intro y hy hyz
        have hyx : y ≠ x := fun hc => hx (hc ▸ hy)
        exact (hn y).trans (by simp [hyz, hyx])
      · intro y hy hya
        have hyx : y ≠ x := fun hc => hx (hc ▸ hy)
        exact (hp y).trans (by simp [hya, hyx])
    case head =>
      have : t.headElem = s.headElem := by rw [← ht']; rfl
      simp [this, hh, ha]
    case tail => simp
    case curr =>
      intro _
      have ho : r.order ≠ [] := fun hc => by simp [hc] at ha
      have hf : r.future ≠ [] := mt Rotation.order_eq_nil_iff.mpr ho
      have hc : t.currElem = s.currElem := by rw [← ht']; rfl
      obtain ⟨b, hb⟩ := Option.ne_none_iff_exists'.mp (mt List.head?_eq_none_iff.mp hf)
      simp [hc, h.curr ho, Rotation.head?_queue, Rotation.add, hb]
    case alloc =>
      intro e he
      rw [Rotation.order_add, List.mem_append, List.mem_singleton] at he
      cases he
      case inl he => simpa [hsz'] using hlt (hs ▸ h.alloc e he)
      case inr he => simpa [hsz', he] using hxl
    case apart =>
      intro e he
      obtain ⟨h₁, h₂⟩ := hs ▸ h.apart e he
      exact ⟨by simpa [h₁] using ne_of_lt h₂, by simpa [hsz'] using hlt h₂⟩
    case gone =>
      intro e he hl
      rw [Rotation.order_add, List.mem_append, List.mem_singleton, not_or] at he
      obtain ⟨h₁, h₂⟩ := h.gone e he.left hl
      have hea : e ≠ a := fun hc => he.left (hc ▸ ham)
      have hez : e ≠ z := fun hc => he.left (hc ▸ hzm)
      exact ⟨(hn e).trans (by simp [he.right, hez, h₁]), (hp e).trans (by simp [he.right, hea, h₂])⟩

end Add

theorem next (h : Represents s r limbo) (hn : s.next = .ok (s', res)) (ho : r.order ≠ []) :
    (r.future.head? = some res) ∧ Represents s' r.advance limbo := by
  have ⟨e, hc, he, hs⟩ := next_inv hn
  have hq : r.queue.head? = some res := (h.curr ho).symm.trans hc
  have hf : r.future.head? = some res := Rotation.head?_queue ▸ hq
  have ⟨q, hq₁, hq₂⟩ := Rotation.queue_advance hf
  have hr : IsRing s.nextOf s.prevOf (res :: q) := hq₁ ▸ h.isRing_queue
  subst hs
  refine ⟨hf, ?_⟩
  constructor
  case ring  => rw [Rotation.order_advance]; exact h.ring
  case head  => rw [Rotation.order_advance]; exact h.head
  case tail  => rw [Rotation.order_advance]; exact h.tail
  case curr  => intro _; rw [hq₂, ← hr.next_head, nextOf_eq he]
  case alloc => rw [Rotation.order_advance]; exact h.alloc
  case apart => rw [Rotation.order_advance]; exact h.apart
  case gone  => rw [Rotation.order_advance]; exact h.gone

theorem next_of_empty (h : Represents s r limbo) (hn : s.next = .ok (s', res)) (ho : r.order = []) :
    Represents s' r limbo := by
  have ⟨_, _, _, hs⟩ := next_inv hn
  subst hs
  exact h.congr rfl rfl rfl rfl (absurd ho) (le_refl _)

section Delete

theorem unlink (h : Represents s r limbo) (hm : ce ∈ r.order) (hu : Unlinked s ce s' b) :
    (b = true) ∧ Represents s' (r.delete ce) (insert ce limbo) := by
  have nd := h.order_nodup
  obtain ⟨p, hpm, hpl⟩ := h.ring.prev_mem hm
  obtain ⟨n, hnm, hnl⟩ := h.ring.next_mem hm
  have hor := Rotation.order_delete (a := ce) nd
  cases hu
  case only e he hn =>
    have ho : r.order = [ce] := (h.ring.next_eq_self_iff hm).mp ((nextOf_eq he).trans hn)
    have ho' : (r.delete ce).order = [] := by simp [hor, ho]
    refine ⟨rfl, ?_⟩
    constructor
    case ring  => rw [ho']; exact .nil
    case head  => simp [ho']
    case tail  => simp [ho']
    case curr  => simp [ho']
    case alloc => simp [ho']
    case apart =>
      intro e he
      cases Set.mem_insert_iff.mp he
      case inl hc => exact ⟨by simp [ho'], hc ▸ h.alloc ce hm⟩
      case inr hl => exact ⟨by simp [ho'], (h.apart e hl).right⟩
    case gone =>
      intro e _ hl
      rw [Set.mem_insert_iff, not_or] at hl
      exact h.gone e (by simp [ho, hl.left]) hl.right
  case gone e he _ hg =>
    rw [Linked, nextOf_eq he] at hnl
    rw [Linked, prevOf_eq he] at hpl
    simp [hnl.left, hpl.right] at hg
  case inner e p' n' e' he hn hp' hn' he' =>
    cases (prevOf_eq he).symm.trans hpl.right |>.symm.trans hp'
    cases (nextOf_eq he).symm.trans hnl.left |>.symm.trans hn'
    have hne : r.order ≠ [ce] := fun hc =>
      hn ((nextOf_eq he).symm.trans ((h.ring.next_eq_self_iff hm).mpr hc))
    have hpl' := h.alloc p hpm
    have hnl' := h.alloc n hnm
    -- A neighbour of `ce` is another element, since `ce` is not alone.
    have hcn : ce ≠ n := fun hc => hn (hn'.trans (hc ▸ rfl))
    have hcp : ce ≠ p := by
      intro hc
      have : s.nextOf ce = some ce := by rw [hc]; exact hc ▸ hpl.left
      exact hn ((nextOf_eq he).symm.trans this)
    have hle : s.elems.load ce = some e' := by
      simpa [setNext, setPrev, load_modifyElem, hcn, hcp] using he'
    cases he.symm.trans hle
    generalize ht : (s.setNext p (some n)).setPrev n (some p) = t
    have htn : ∀ q, t.nextOf q = if q = p then some n else s.nextOf q := by
      intro q
      rw [← ht, nextOf_setPrev, nextOf_setNext _ hpl']
    have htp : ∀ q, t.prevOf q = if q = n then some p else s.prevOf q := by
      intro q
      rw [← ht, prevOf_setPrev _ (by simpa using hnl'), prevOf_setNext]
    have hsz : t.elems.size = s.elems.size := by simp [← ht]
    have hq : r.queue ≠ [ce] := by
      intro hc
      have := Rotation.mem_queue_iff.mpr hnm
      simp [hc, hcn.symm] at this
    refine ⟨rfl, ?_⟩
    constructor
    case ring =>
      rw [hor]
      apply h.ring.erase hm hne hnl.left hpl.right ⟨(htn p).trans (by simp), (htp n).trans (by simp)⟩
      · intro y _ _ hyp
        exact (htn y).trans (by simp [hyp])
      · intro y _ _ hyn
        exact (htp y).trans (by simp [hyn])
    case head =>
      rw [hor, h.ring.head?_erase hne, ← h.head, hnl.left, ← hn']
    case tail =>
      rw [hor, h.ring.getLast?_erase hne, ← h.tail, hpl.right, ← hp']
    case curr =>
      intro _
      have ho : r.order ≠ [] := fun hc => by simp [hc] at hm
      rw [Rotation.queue_delete nd, h.isRing_queue.head?_erase hq, ← h.curr ho, hnl.left, ← hn']
    case alloc =>
      intro x hx
      have := h.alloc x (List.mem_of_mem_erase (hor ▸ hx))
      simpa [hsz] using this
    case apart =>
      intro x hx
      cases Set.mem_insert_iff.mp hx
      case inl hc =>
        subst hc
        exact ⟨by rw [hor]; exact nd.not_mem_erase, by simpa [hsz] using h.alloc x hm⟩
      case inr hl =>
        obtain ⟨h₁, h₂⟩ := h.apart x hl
        exact ⟨fun hc => h₁ (List.mem_of_mem_erase (hor ▸ hc)), by simpa [hsz] using h₂⟩
    case gone =>
      intro x hx hl
      rw [Set.mem_insert_iff, not_or] at hl
      have hx' : x ∉ r.order := fun hc => hx (hor ▸ (List.mem_erase_of_ne hl.left).mpr hc)
      obtain ⟨h₁, h₂⟩ := h.gone x hx' hl.right
      have hxp : x ≠ p := fun hc => hx' (hc ▸ hpm)
      have hxn : x ≠ n := fun hc => hx' (hc ▸ hnm)
      exact ⟨(htn x).trans (by simp [hxp, h₁]), (htp x).trans (by simp [hxn, h₂])⟩

theorem unlink_of_gone (h : Represents s r limbo) (hm : ce ∉ r.order) (hl : ce ∉ limbo)
    (hu : Unlinked s ce s' b) : (b = false) ∧ Represents s' r limbo := by
  have ⟨hn, hp⟩ := h.gone ce hm hl
  cases hu
  case only e he hn'        => simp [← nextOf_eq he, hn] at hn'
  case inner e _ _ _ he _ hp' _ _ => simp [← prevOf_eq he, hp] at hp'
  case gone e he _ _ =>
    refine ⟨rfl, h.congr ?_ ?_ rfl rfl (fun _ => rfl) ?_⟩
    · exact nextOf_modifyElem _ _ fun _ => rfl
    · exact prevOf_modifyElem _ _ fun _ => rfl
    · simp

theorem clear (h : Represents s r limbo) (hl : ce ∈ limbo) (hc : s.clear ce = .ok s') :
    Represents s' r (limbo \ {ce}) := by
  have ⟨e, he, _, hs⟩ := clear_inv hc
  have hm := (h.apart ce hl).left
  have hn : ∀ q, s'.nextOf q = if q = ce then none else s.nextOf q := by
    intro q
    simp only [hs, nextOf, load_modifyElem]
    split
    case isTrue hq => simp [hq, he]
    case isFalse   => rfl
  have hp : ∀ q, s'.prevOf q = if q = ce then none else s.prevOf q := by
    intro q
    simp only [hs, prevOf, load_modifyElem]
    split
    case isTrue hq => simp [hq, he]
    case isFalse   => rfl
  have hsz : s'.elems.size = s.elems.size := by simp [hs]
  constructor
  case ring =>
    apply h.ring.congr
    · intro a ha
      exact (hn a).trans (by simp [show a ≠ ce from fun e => hm (e ▸ ha)])
    · intro a ha
      exact (hp a).trans (by simp [show a ≠ ce from fun e => hm (e ▸ ha)])
  case head  => rw [hs]; exact h.head
  case tail  => rw [hs]; exact h.tail
  case curr  => rw [hs]; exact h.curr
  case alloc => rw [hsz]; exact h.alloc
  case apart => rw [hsz]; exact fun e he => h.apart e he.left
  case gone =>
    intro x hx hx'
    by_cases hxc : x = ce
    case pos => simp [hn, hp, hxc]
    case neg => simpa [hn, hp, hxc] using h.gone x hx fun hc => hx' ⟨hc, hxc⟩

end Delete
end Represents
end Pool.State
