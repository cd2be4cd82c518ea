import Mathlib.Data.List.Nodup
import Mathlib.Data.List.Count
import Mathlib.Data.List.Induction
import GatewayModel.Lib.Execution

open Execution

namespace RoundRobin

-- A sequence of members with a cursor. The members before the cursor are `past`, the cursor is the
-- first member of `future`, and there is a cursor unless there are no members.
@[ext]
structure Rotation (α : Type u) where
  past   : List α
  future : List α
  cursor : (future = []) → past = []

namespace Rotation

def empty : Rotation α where
  past     := []
  future   := []
  cursor _ := rfl

def order (r : Rotation α) : List α :=
  r.past ++ r.future

def queue (r : Rotation α) : List α :=
  r.future ++ r.past

def turn (past future : List α) : Rotation α :=
  if h : future = []
  then { past := [], future := past, cursor := fun _ => rfl }
  else { past := past, future := future, cursor := fun h' => absurd h' h }

def add (r : Rotation α) (a : α) : Rotation α where
  past   := r.past
  future := r.future ++ [a]
  cursor := by simp

def delete [DecidableEq α] (r : Rotation α) (a : α) : Rotation α :=
  turn (r.past.erase a) (r.future.erase a)

def advance (r : Rotation α) : Rotation α :=
  match r.future with
  | []          => r
  | a :: future => turn (r.past ++ [a]) future

variable {r : Rotation α} {a x : α} {past future : List α}

@[simp]
theorem order_empty : (empty : Rotation α).order = [] :=
  rfl

@[simp]
theorem order_turn : (turn past future).order = past ++ future := by
  unfold turn
  split <;> simp_all [order]

@[simp]
theorem queue_turn : (turn past future).queue = future ++ past := by
  unfold turn
  split <;> simp_all [queue]

@[simp]
theorem order_add : (r.add a).order = r.order ++ [a] := by
  simp [order, add]

theorem queue_add : (r.add a).queue = r.future ++ a :: r.past := by
  simp [queue, add]

theorem order_advance : r.advance.order = r.order := by
  unfold advance
  split
  case h_1 => rfl
  case h_2 hf =>
    rw [order_turn, order, hf]
    simp

theorem queue_advance (h : r.future.head? = some a) :
    ∃ q, r.queue = a :: q ∧ r.advance.queue = q ++ [a] := by
  unfold advance
  split
  case h_1 hf => simp [hf] at h
  case h_2 b future hf =>
    simp only [hf, List.head?_cons, Option.some.injEq] at h
    subst h
    exact ⟨future ++ r.past, by simp [queue, hf], by simp⟩

theorem order_eq_nil_iff : (r.order = []) ↔ (r.future = []) := by
  constructor
  case mp  => exact fun h => (List.append_eq_nil_iff.mp h).right
  case mpr => exact fun h => by simp [order, h, r.cursor h]

theorem head?_queue : r.queue.head? = r.future.head? := by
  cases hf : r.future
  case nil  => simp [queue, hf, r.cursor hf]
  case cons => simp [queue, hf]

theorem mem_queue_iff : (x ∈ r.queue) ↔ (x ∈ r.order) := by
  simp [queue, order, or_comm]

theorem nodup_queue_iff : r.queue.Nodup ↔ r.order.Nodup :=
  List.nodup_append_comm

section Delete

variable [DecidableEq α]

theorem queue_delete (h : r.order.Nodup) : (r.delete a).queue = r.queue.erase a := by
  rw [delete, queue_turn, queue, List.erase_append]
  split
  case isTrue hm =>
    have hp : a ∉ r.past := fun hc => List.disjoint_of_nodup_append h hc hm
    rw [List.erase_of_not_mem hp]
  case isFalse hm => rw [List.erase_of_not_mem hm]

theorem order_delete (h : r.order.Nodup) : (r.delete a).order = r.order.erase a := by
  rw [delete, order_turn, order, List.erase_append]
  split
  case isTrue hm =>
    have hf : a ∉ r.future := fun hc => List.disjoint_of_nodup_append h hm hc
    rw [List.erase_of_not_mem hf]
  case isFalse hm => rw [List.erase_of_not_mem hm]

theorem delete_of_not_mem (h : a ∉ r.order) : r.delete a = r := by
  simp only [order, List.mem_append, not_or] at h
  rw [delete, List.erase_of_not_mem h.left, List.erase_of_not_mem h.right]
  unfold turn
  split
  case isTrue hf  => ext1 <;> simp [hf, r.cursor hf]
  case isFalse hf => rfl

end Delete
end Rotation

open Rotation

inductive Event (α : Type u)
  | add    (a : α)
  | delete (a : α)
  | next   (a : α)
  deriving DecidableEq

-- The steps of a round-robin choice under churn. While there are no members, what `next` yields is
-- left open.
inductive Step [DecidableEq α] : Rotation α → Event α → Rotation α → Prop
  | add    : (a ∉ r.order)                 → Step r (.add a)    (r.add a)
  | delete :                                 Step r (.delete a) (r.delete a)
  | next   : (r.future.head? = some a) → Step r (.next a)   r.advance
  | idle   : (r.order = [])                → Step r (.next a)   r

def added (evs : List (Event α)) : List α :=
  evs.filterMap fun | .add a => some a | _ => none

def deleted (evs : List (Event α)) : List α :=
  evs.filterMap fun | .delete a => some a | _ => none

def live [DecidableEq α] (evs : List (Event α)) : List α :=
  (added evs).filter (· ∉ deleted evs)

inductive History [DecidableEq α] : List (Event α) → Rotation α → Prop
  | nil    : History [] .empty
  | add    : (History evs r) → (a ∉ added evs)                → History (evs ++ [.add a])    (r.add a)
  | delete : (History evs r) → (a ∈ added evs)                → History (evs ++ [.delete a]) (r.delete a)
  | next   : (History evs r) → (r.future.head? = some a) → History (evs ++ [.next a])   r.advance
  | idle   : (History evs r) → (r.order = [])                  → History (evs ++ [.next a])   r

theorem added_append : added (evs₁ ++ evs₂) = added evs₁ ++ added evs₂ :=
  List.filterMap_append

theorem deleted_append : deleted (evs₁ ++ evs₂) = deleted evs₁ ++ deleted evs₂ :=
  List.filterMap_append

variable [DecidableEq α] {r r₁ r₂ : Rotation α}

theorem Step.nodup (h : r₁.order.Nodup) : (Step r₁ ev r₂) → r₂.order.Nodup
  | .add ha  => by
    rw [order_add]
    exact List.nodup_append.mpr
      ⟨h, List.nodup_singleton _, fun x hx y hy hc => ha (List.mem_singleton.mp hy ▸ hc ▸ hx)⟩
  | .delete  => order_delete h ▸ h.erase _
  | .next _  => order_advance.symm ▸ h
  | .idle _  => h

structure Waiting (e : α) (r : Rotation α) (ahead : List α) : Prop where
  nodup : r.order.Nodup
  queue : ∃ behind, r.queue = ahead ++ e :: behind

structure Waiting.Moves (ev : Event α) (ahead ahead' : List α) : Prop where
  joins  : ∀ x ∈ ahead', (x ∈ ahead) ∨ (ev = .add x)
  visits : ∀ x, (ev = .next x) → (x ∈ ahead ∧ x ∉ ahead')
  leaves : ∀ x ∈ ahead, (x ∈ ahead') ∨ (ev = .next x) ∨ (ev = .delete x)

theorem Waiting.step {e : α} {ahead : List α} (w : Waiting e r₁ ahead) (h : Step r₁ ev r₂)
    (hn : ev ≠ .next e) (hd : ev ≠ .delete e) :
    ∃ ahead', Waiting e r₂ ahead' ∧ Waiting.Moves ev ahead ahead' := by
  have ⟨behind, hq⟩ := w.queue
  have hq' := nodup_queue_iff.mpr w.nodup
  have nd := h.nodup w.nodup
  cases h
  case add a ha =>
    -- The new member is linked in before the first member of the order, on one side of `e`.
    have hs : r₁.future ++ r₁.past = ahead ++ e :: behind := hq
    rcases List.append_eq_append_iff.mp hs with ⟨m, h₁, h₂⟩ | ⟨m, h₁, h₂⟩
    case inl =>
      refine ⟨r₁.future ++ a :: m, ⟨nd, behind, by simp [queue_add, h₂]⟩, ?_⟩
      exact ⟨by simp [h₁]; grind, by simp, by simp [h₁]; grind⟩
    case inr =>
      cases m
      case nil =>
        simp only [List.append_nil, List.nil_append] at h₁ h₂
        refine ⟨ahead ++ [a], ⟨nd, behind, by simp [queue_add, h₁, ← h₂]⟩, ?_⟩
        exact ⟨by simp; grind, by simp, by simp; grind⟩
      case cons b m =>
        simp only [List.cons_append, List.cons.injEq] at h₂
        refine ⟨ahead, ⟨nd, m ++ a :: r₁.past, by simp [queue_add, h₁, h₂.left]⟩, ?_⟩
        exact ⟨by grind, by simp, by grind⟩
  case delete a =>
    have hae : a ≠ e := fun hc => hd (hc ▸ rfl)
    have hq₂ := queue_delete (a := a) w.nodup
    rw [hq, List.erase_append] at hq₂
    split at hq₂
    case isTrue hm =>
      refine ⟨ahead.erase a, ⟨nd, behind, hq₂⟩, ?_⟩
      refine ⟨fun x hx => .inl (List.mem_of_mem_erase hx), by simp, fun x hx => ?_⟩
      by_cases hx' : x = a
      case pos => exact .inr (.inr (hx' ▸ rfl))
      case neg => exact .inl ((List.mem_erase_of_ne hx').mpr hx)
    case isFalse hm =>
      rw [List.erase_cons_tail (by simpa using hae.symm)] at hq₂
      exact ⟨ahead, ⟨nd, _, hq₂⟩, ⟨by grind, by simp, by grind⟩⟩
  case next a ha =>
    have hae : a ≠ e := fun hc => hn (hc ▸ rfl)
    have ⟨q, h₁, h₂⟩ := queue_advance ha
    cases ahead
    case nil =>
      rw [hq, List.nil_append, List.cons.injEq] at h₁
      exact absurd h₁.left.symm hae
    case cons b ahead =>
      simp only [hq, List.cons_append, List.cons.injEq, List.nodup_cons] at h₁ hq'
      refine ⟨ahead, ⟨nd, behind ++ [a], by simp [h₂, ← h₁.right]⟩, ?_⟩
      refine ⟨by grind, fun x hx => ?_, by grind⟩
      cases hx
      exact ⟨by simp [h₁.left], fun hc => hq'.left (by simp [h₁.left, hc])⟩
  case idle a hr =>
    have : e ∈ r₁.order := mem_queue_iff.mp (by simp [hq])
    simp [hr] at this

private def pending (x : α) (ahead : List α) : Nat :=
  if x ∈ ahead then 1 else 0

private theorem Waiting.run {e : α} {ahead : List α} (w : Waiting e r₁ ahead)
    (h : Run Step r₁ evs r₂) (hn : .next e ∉ evs) (hd : .delete e ∉ evs) :
    ∃ ahead', Waiting e r₂ ahead' ∧
      (∀ x, evs.count (.next x) + pending x ahead' ≤ pending x ahead + evs.count (.add x)) ∧
      (∀ x ∈ ahead, (.delete x ∉ evs) → (x ∈ ahead') ∨ (0 < evs.count (.next x))) := by
  induction h
  case refl => exact ⟨ahead, w, by simp, fun x hx _ => .inl hx⟩
  case tail evs _ ev _ _ hs hi =>
    simp only [List.mem_append, List.mem_singleton, not_or] at hn hd
    have ⟨ahead₁, w₁, hc₁, hl₁⟩ := hi hn.left hd.left
    have ⟨ahead₂, w₂, m⟩ := w₁.step hs (Ne.symm hn.right) (Ne.symm hd.right)
    refine ⟨ahead₂, w₂, fun x => ?_, fun x hx hx' => ?_⟩
    case refine_1 =>
      have hc := hc₁ x
      have hj := m.joins x
      have hv := m.visits x
      simp only [List.count_append, List.count_singleton, pending, beq_iff_eq] at *
      by_cases h₁ : ev = .next x
      case pos =>
        have ⟨hv₁, hv₂⟩ := hv h₁
        simp only [h₁, hv₁, hv₂, if_true, if_false, reduceCtorEq] at *
        omega
      case neg =>
        by_cases h₂ : ev = .add x
        case pos =>
          simp only [h₂, if_true, if_false, reduceCtorEq] at *
          split <;> omega
        case neg =>
          by_cases h₃ : x ∈ ahead₂
          case pos =>
            have h₄ := (hj h₃).resolve_right h₂
            simp only [h₁, h₂, h₃, h₄, if_true, if_false] at *
            omega
          case neg =>
            simp only [h₁, h₂, h₃, if_false] at *
            omega
    case refine_2 =>
      simp only [List.mem_append, List.mem_singleton, not_or] at hx'
      rw [List.count_append]
      rcases hl₁ x hx hx'.left with hx₁ | hx₁
      case inr => exact .inr (by omega)
      case inl =>
        rcases m.leaves x hx₁ with hx₂ | hx₂ | hx₂
        case inl     => exact .inl hx₂
        case inr.inl => exact .inr (by simp [hx₂])
        case inr.inr => exact absurd hx₂ (Ne.symm hx'.right)

-- Between two consecutive visits of a member that is not deleted in between, every other member
-- is visited at most once, and exactly once if it stays a member from the first visit to the
-- second. The hypothesis `hf` says that no member is added twice.
theorem fair {e : α} (h : r₁.order.Nodup) (h₁ : r₁.future.head? = some e)
    (hr : Run Step r₁.advance evs r₂) (h₂ : r₂.future.head? = some e)
    (hn : .next e ∉ evs) (hd : .delete e ∉ evs)
    (hf : ∀ x, (if x ∈ r₁.order then 1 else 0) + evs.count (.add x) ≤ 1) (hx : x ≠ e) :
    (evs.count (.next x) ≤ 1) ∧
    ((x ∈ r₁.order) → (.delete x ∉ evs) → evs.count (.next x) = 1) := by
  have ⟨ahead, hq, hq'⟩ := queue_advance h₁
  have w : Waiting e r₁.advance ahead := ⟨order_advance.symm ▸ h, [], hq'⟩
  have ⟨ahead', w', hc, hl⟩ := w.run hr hn hd
  -- The cursor is at `e` again, so nobody is left ahead of it.
  have hnil : ahead' = [] := by
    have ⟨behind, hb⟩ := w'.queue
    have ⟨q, hq₂, _⟩ := queue_advance h₂
    have nd := nodup_queue_iff.mpr w'.nodup
    cases ahead'
    case nil => rfl
    case cons b ahead' =>
      simp only [hb, List.cons_append, List.cons.injEq] at hq₂ nd
      exact absurd nd (by simp [hq₂.left])
  subst hnil
  have hm : (x ∈ ahead) ↔ (x ∈ r₁.order) := by
    rw [← mem_queue_iff, hq]
    simp [hx]
  have hc := hc x
  have hf := hf x
  simp only [pending, hm, List.not_mem_nil, if_false] at hc
  refine ⟨by omega, fun hm' hd' => ?_⟩
  have := (hl x (hm.mpr hm') hd').resolve_left (List.not_mem_nil)
  omega

theorem exists_level (h : r₁.order.Nodup) (ho : r₁.order ≠ []) (hr : Run Step r₁ evs r₂)
    (hn : ∀ ev ∈ evs, ∃ a, ev = .next a) :
    r₂.order = r₁.order ∧ ∃ n front back, r₂.queue = front ++ back ∧
      (∀ x ∈ front, evs.count (.next x) = n) ∧ (∀ x ∈ back, evs.count (.next x) = n + 1) := by
  induction hr
  case refl => exact ⟨rfl, 0, r₁.queue, [], by simp, by simp, by simp⟩
  case tail evs r ev r' _ hs hi =>
    have ⟨hord, hlevel⟩ := hi fun ev hev => hn ev (List.mem_append_left _ hev)
    have ⟨a, ha⟩ := hn ev (by simp)
    subst ha
    cases hs
    case idle he => exact absurd (hord.symm.trans he) ho
    case next hd =>
      have ⟨q, hq, hq'⟩ := queue_advance hd
      have nd : (a :: q).Nodup := hq ▸ nodup_queue_iff.mpr (hord ▸ h)
      have ⟨hna, _⟩ := List.nodup_cons.mp nd
      -- If nobody is left at the front, the next round begins.
      have ⟨n, front, back, hfb, hf, hb⟩ : ∃ n front back, q = front ++ back ∧
          (∀ x ∈ a :: front, evs.count (.next x) = n) ∧
          (∀ x ∈ back, evs.count (.next x) = n + 1) := by
        have ⟨n, front, back, hfb, hf, hb⟩ := hlevel
        rw [hq] at hfb
        cases front
        case nil => exact ⟨n + 1, q, [], by simp, by simpa [hfb] using hb, by simp⟩
        case cons b front =>
          have ⟨hab, hfb⟩ := List.cons.inj hfb
          exact ⟨n, front, back, hfb, hab ▸ hf, hb⟩
      have hne {x} (hx : x ∈ q) : (evs ++ [Event.next a]).count (.next x) = evs.count (.next x) := by
        have : a ≠ x := fun hc => hna (hc ▸ hx)
        simp [List.count_append, this]
      refine ⟨order_advance.trans hord, n, front, back ++ [a], by simp [hq', hfb], ?_, ?_⟩
      case refine_1 => exact fun x hx => (hne (by simp [hfb, hx])).trans (hf x (by simp [hx]))
      case refine_2 =>
        intro x hx
        cases List.mem_append.mp hx
        case inl hx => exact (hne (by simp [hfb, hx])).trans (hb x hx)
        case inr hx =>
          cases List.mem_singleton.mp hx
          simp [List.count_append, hf a (by simp)]

theorem balanced (h : r₁.order.Nodup) (hr : Run Step r₁ evs r₂) (hn : ∀ ev ∈ evs, ∃ a, ev = .next a)
    (hx : x ∈ r₁.order) (hy : y ∈ r₁.order) : evs.count (.next x) ≤ evs.count (.next y) + 1 := by
  have ⟨hord, n, front, back, hq, hf, hb⟩ := exists_level h (List.ne_nil_of_mem hx) hr hn
  have hv {z} (hz : z ∈ r₁.order) : n ≤ evs.count (.next z) ∧ evs.count (.next z) ≤ n + 1 := by
    have hz : z ∈ front ++ back := hq ▸ mem_queue_iff.mpr (hord ▸ hz)
    cases List.mem_append.mp hz
    case inl hz => rw [hf z hz]; omega
    case inr hz => rw [hb z hz]; omega
  have := hv hx
  have := hv hy
  omega

section Histories

variable {evs evs₁ evs₂ : List (Event α)}

theorem count_added : (added evs).count x = evs.count (.add x) := by
  induction evs
  case nil => rfl
  case cons ev evs hi => cases ev <;> simp_all [added, List.count_cons]

theorem mem_live_iff : (x ∈ live evs) ↔ (x ∈ added evs ∧ x ∉ deleted evs) := by
  simp [live]

theorem live_nodup (h : (added evs).Nodup) : (live evs).Nodup :=
  h.filter _

theorem live_concat_add (h : x ∉ deleted evs) : live (evs ++ [.add x]) = live evs ++ [x] := by
  have hd : deleted (evs ++ [.add x]) = deleted evs := by simp [deleted]
  have ha : added (evs ++ [.add x]) = added evs ++ [x] := by simp [added]
  simp [live, hd, ha, List.filter_append, h]

theorem live_concat_next : live (evs ++ [.next x]) = live evs := by
  simp [live, added, deleted]

theorem live_concat_delete (h : (live evs).Nodup) :
    live (evs ++ [.delete x]) = (live evs).erase x := by
  have hd : deleted (evs ++ [.delete x]) = deleted evs ++ [x] := by simp [deleted]
  have ha : added (evs ++ [.delete x]) = added evs := by simp [added]
  rw [h.erase_eq_filter]
  simp only [live, hd, ha, List.filter_filter]
  congr 1
  funext y
  by_cases hy : y = x <;> simp [hy]

namespace History

theorem added_nodup (h : History evs r) : (added evs).Nodup := by
  induction h
  case nil => exact .nil
  case add ha hi =>
    rw [added_append]
    exact List.nodup_append.mpr
      ⟨hi, by simp [added], fun y hy z hz hc => ha (by simp_all [added])⟩
  all_goals simpa [added_append, added]

theorem deleted_subset (h : History evs r) : ∀ y ∈ deleted evs, y ∈ added evs := by
  induction h
  case nil => simp [deleted]
  case delete ha hi =>
    intro y hy
    simp only [deleted_append, added_append, List.mem_append] at *
    cases hy
    case inl hy => exact .inl (hi y hy)
    case inr hy => exact .inl (by simp_all [deleted])
  all_goals
    intro y hy
    simp only [deleted_append, added_append, List.mem_append] at *
    exact .inl (‹∀ y ∈ _, _› y (by simpa [deleted] using hy))

theorem order_eq (h : History evs r) : r.order = live evs := by
  induction h
  case nil => rfl
  case add h ha hi =>
    rw [order_add, live_concat_add (fun hc => ha (h.deleted_subset _ hc)), hi]
  case delete h ha hi =>
    have nd := live_nodup h.added_nodup
    rw [order_delete (hi ▸ nd), live_concat_delete nd, hi]
  case next hi => rw [order_advance, live_concat_next, hi]
  case idle hi => rw [live_concat_next, hi]

theorem order_nodup (h : History evs r) : r.order.Nodup :=
  h.order_eq ▸ live_nodup h.added_nodup

theorem step (h : History (evs ++ [ev]) r₂) : ∃ r₁, History evs r₁ ∧ Step r₁ ev r₂ := by
  generalize he : evs ++ [ev] = evs' at h
  cases h <;> simp at he
  case add r a h ha =>
    have ⟨h₁, h₂⟩ := he
    subst h₁ h₂
    refine ⟨r, h, .add fun hc => ha ?_⟩
    exact (mem_live_iff.mp (h.order_eq ▸ hc)).left
  all_goals
    have ⟨h₁, h₂⟩ := he
    subst h₁ h₂
    have h := ‹History _ _›
  case delete => exact ⟨_, h, .delete⟩
  case next   => exact ⟨_, h, .next ‹_›⟩
  case idle   => exact ⟨_, h, .idle ‹_›⟩

theorem split (h : History (evs₁ ++ evs₂) r₂) : ∃ r₁, History evs₁ r₁ ∧ Run Step r₁ evs₂ r₂ := by
  induction evs₂ using List.reverseRecOn generalizing r₂
  case nil => exact ⟨r₂, by simpa using h, .refl⟩
  case append_singleton evs₂ ev hi =>
    have ⟨r, h, hs⟩ := step (List.append_assoc .. ▸ h)
    have ⟨r₁, h₁, hr⟩ := hi h
    exact ⟨r₁, h₁, hr.tail hs⟩

theorem fair {pre mid post : List (Event α)}
    (h : History (pre ++ .next e :: (mid ++ .next e :: post)) r)
    (hl : e ∈ live pre) (hn : .next e ∉ mid) (hd : .delete e ∉ mid) (hx : x ≠ e) :
    (mid.count (.next x) ≤ 1) ∧
    ((x ∈ live pre) → (.delete x ∉ mid) → mid.count (.next x) = 1) := by
  have nd := h.added_nodup
  have ⟨r₁, h₁, hr₁⟩ := h.split
  have ⟨_, hs₁, hr₂⟩ := hr₁.cons_inv
  have ⟨r₂, hr, hr₃⟩ := hr₂.split
  have ⟨_, hs₂, hr₄⟩ := hr₃.cons_inv
  clear hr₁ hr₂ hr₃ hr₄
  rw [← h₁.order_eq] at *
  -- The member `e` keeps the rotation from being empty at both visits.
  have he : e ∈ r₂.order := by
    cases hs₁
    case idle ho => simp [ho] at hl
    case next ha =>
      have ⟨q, _, hq⟩ := queue_advance ha
      have w : Waiting e r₁.advance q := ⟨order_advance.symm ▸ h₁.order_nodup, [], hq⟩
      have ⟨_, w', _⟩ := w.run hr hn hd
      have ⟨_, hb⟩ := w'.queue
      exact mem_queue_iff.mp (by simp [hb])
  cases hs₁
  case idle ho => simp [ho] at hl
  case next ha₁ =>
    cases hs₂
    case idle ho => simp [ho] at he
    case next ha₂ =>
      refine RoundRobin.fair h₁.order_nodup ha₁ hr ha₂ hn hd (fun y => ?_) hx
      have hc := List.nodup_iff_count_le_one.mp nd y
      simp only [added_append, List.count_append] at hc
      have hm : (added (.next e :: (mid ++ .next e :: post))).count y ≥ mid.count (.add y) := by
        rw [count_added, List.count_cons, List.count_append]
        omega
      split
      case isFalse   => omega
      case isTrue hy =>
        have hy' : y ∈ added pre := (mem_live_iff.mp (h₁.order_eq ▸ hy)).left
        have := List.count_pos_iff.mpr hy'
        omega

end History
end Histories
end RoundRobin
