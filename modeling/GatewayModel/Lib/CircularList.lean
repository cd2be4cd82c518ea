import Mathlib.Data.List.Chain
import Mathlib.Data.List.Nodup
import Mathlib.Data.List.Induction

namespace CircularList

variable {α : Type u} {nx pv nx' pv' : α → Option α}

def Linked (nx pv : α → Option α) (a b : α) : Prop :=
  nx a = some b ∧ pv b = some a

-- The nodes of a circular doubly linked list, in the order of the forward pointers `nx`. The
-- backward pointers `pv` are their inverse, and the last node points to the first.
structure IsRing (nx pv : α → Option α) (l : List α) : Prop where
  nodup  : l.Nodup
  links  : l.IsChain (Linked nx pv)
  closed : ∀ z ∈ l.getLast?, ∀ a ∈ l.head?, Linked nx pv z a

def follow (nx : α → Option α) : Nat → Option α → List α
  | 0, _          => []
  | _ + 1, none   => []
  | n + 1, some a => a :: follow nx n (nx a)

theorem follow_chain {l : List α} (h : l.IsChain (Linked nx pv)) :
    follow nx l.length l.head? = l := by
  induction h
  case nil            => rfl
  case singleton      => rfl
  case cons_cons r _ hi =>
    simp only [List.length_cons, List.head?_cons, follow, r.left, List.cons.injEq, true_and] at *
    exact hi

namespace IsRing

theorem nil : IsRing nx pv [] where
  nodup  := .nil
  links  := .nil
  closed := by simp

theorem singleton_iff {a : α} : (IsRing nx pv [a]) ↔ (nx a = some a ∧ pv a = some a) where
  mp h  := h.closed a rfl a rfl
  mpr h := ⟨List.nodup_singleton a, .singleton a, by simpa [Linked] using h⟩

theorem rotate {l₁ l₂ : List α} (h : IsRing nx pv (l₁ ++ l₂)) : IsRing nx pv (l₂ ++ l₁) := by
  rcases l₁.eq_nil_or_concat' with rfl | ⟨_, z₁, hz₁⟩
  case inl => simpa using h
  rcases l₂.eq_nil_or_concat' with rfl | ⟨_, z₂, hz₂⟩
  case inl => simpa using h
  have ⟨h₁, h₂, hl⟩ := List.isChain_append.mp h.links
  have hc := h.closed
  rw [List.getLast?_append, List.head?_append] at hc
  refine ⟨List.nodup_append_comm.mp h.nodup, List.isChain_append.mpr ⟨h₂, h₁, ?_⟩, ?_⟩
  case refine_1 =>
    intro z hz a ha
    exact hc z (by simp_all) a (by simp_all)
  case refine_2 =>
    rw [List.getLast?_append, List.head?_append]
    intro z hz a ha
    refine hl z (by simpa [hz₁] using hz) a ?_
    cases l₂
    case nil       => simp at hz₂
    case cons b l₂ => simpa using ha

theorem congr {l : List α} (h : IsRing nx pv l) (hn : ∀ a ∈ l, nx' a = nx a)
    (hp : ∀ a ∈ l, pv' a = pv a) : IsRing nx' pv' l where
  nodup  := h.nodup
  links  := h.links.imp_of_mem_imp fun a b ha hb r => ⟨hn a ha ▸ r.left, hp b hb ▸ r.right⟩
  closed := by
    intro z hz a ha
    have r := h.closed z hz a ha
    exact ⟨hn z (List.mem_of_mem_getLast? hz) ▸ r.left, hp a (List.mem_of_mem_head? ha) ▸ r.right⟩

theorem exists_rotation {l : List α} {x : α} (h : IsRing nx pv l) (hx : x ∈ l) :
    ∃ l₁ l₂, l = l₁ ++ x :: l₂ ∧ IsRing nx pv (x :: (l₂ ++ l₁)) := by
  have ⟨l₁, l₂, hl⟩ := List.append_of_mem hx
  subst hl
  exact ⟨l₁, l₂, rfl, h.rotate⟩

theorem next_mem {l : List α} {x : α} (h : IsRing nx pv l) (hx : x ∈ l) :
    ∃ y ∈ l, Linked nx pv x y := by
  have ⟨l₁, l₂, hl, hr⟩ := h.exists_rotation hx
  generalize hm : l₂ ++ l₁ = m at hr
  cases m
  case nil       => exact ⟨x, hx, singleton_iff.mp hr⟩
  case cons y m =>
    have hy : y ∈ l₂ ++ l₁ := by simp [hm]
    refine ⟨y, ?_, List.isChain_cons_cons.mp hr.links |>.left⟩
    rcases List.mem_append.mp hy with hy | hy <;> simp [hl, hy]

theorem prev_mem {l : List α} {x : α} (h : IsRing nx pv l) (hx : x ∈ l) :
    ∃ y ∈ l, Linked nx pv y x := by
  have ⟨l₁, l₂, hl, hr⟩ := h.exists_rotation hx
  rcases (l₂ ++ l₁).eq_nil_or_concat' with hm | ⟨m, y, hm⟩
  case inl =>
    rw [hm] at hr
    exact ⟨x, hx, singleton_iff.mp hr⟩
  case inr =>
    have hy : y ∈ l₂ ++ l₁ := by simp [hm]
    refine ⟨y, ?_, hr.closed y (by rw [hm, List.getLast?_cons]; simp) x rfl⟩
    rcases List.mem_append.mp hy with hy | hy <;> simp [hl, hy]

theorem next_eq_self_iff {l : List α} {x : α} (h : IsRing nx pv l) (hx : x ∈ l) :
    (nx x = some x) ↔ (l = [x]) := by
  constructor
  case mpr =>
    intro hl
    subst hl
    exact (singleton_iff.mp h).left
  case mp =>
    intro hn
    have ⟨l₁, l₂, hl, hr⟩ := h.exists_rotation hx
    generalize hm : l₂ ++ l₁ = m at hr
    cases m
    case nil =>
      have ⟨h₂, h₁⟩ := List.append_eq_nil_iff.mp hm
      simp [hl, h₁, h₂]
    case cons y m =>
      -- The successor of `x` is `y`, which differs from `x` in a list without repetitions.
      have r := List.isChain_cons_cons.mp hr.links |>.left
      have e : y = x := Option.some.inj (r.left.symm.trans hn)
      simp [e] at hr
      exact absurd hr.nodup (by simp)

theorem concat {l : List α} {z a e : α} (h : IsRing nx pv l) (hz : l.getLast? = some z)
    (ha : l.head? = some a) (he : e ∉ l)
    (hze : Linked nx' pv' z e) (hea : Linked nx' pv' e a)
    (hn : ∀ x ∈ l, x ≠ z → nx' x = nx x) (hp : ∀ x ∈ l, x ≠ a → pv' x = pv x) :
    IsRing nx' pv' (l ++ [e]) where
  nodup := by simpa [List.nodup_append, h.nodup] using fun x hx (hc : x = e) => he (hc ▸ hx)
  links := by
    have hza := h.closed z hz a ha
    cases l
    case nil => simp at ha
    case cons b l =>
      simp only [List.head?_cons, Option.some.injEq] at ha
      subst ha
      refine List.isChain_append.mpr ⟨?_, .singleton e, ?_⟩
      case refine_2 => simpa [hz] using hze
      case refine_1 =>
        refine h.links.imp_of_mem_tail_imp fun x y hx hy r => ?_
        -- Neither the pointer from `z` to `b` nor the one back is a link inside the list.
        have hyb : y ≠ b := fun hc => (List.nodup_cons.mp h.nodup).left (hc ▸ hy)
        have hxz : x ≠ z := fun hc => hyb (Option.some.inj (r.left.symm.trans (hc ▸ hza.left)))
        have hy' : y ∈ b :: l := List.mem_cons_of_mem b hy
        exact ⟨hn x hx hxz ▸ r.left, hp y hy' hyb ▸ r.right⟩
  closed := by
    intro y hy b hb
    rw [List.head?_append, ha] at hb
    simp at hy hb
    subst hy hb
    exact hea

private theorem tail_of_linked {l : List α} {x n p : α} (h : IsRing nx pv (x :: l)) (hl : l ≠ [])
    (hxn : nx x = some n) (hxp : pv x = some p) (hpn : Linked nx' pv' p n)
    (hn : ∀ y ∈ l, y ≠ p → nx' y = nx y) (hp : ∀ y ∈ l, y ≠ n → pv' y = pv y) :
    IsRing nx' pv' l := by
  have ⟨hx, hd⟩ := List.nodup_cons.mp h.nodup
  have ⟨hh, hc⟩ := List.isChain_cons.mp h.links
  have hpx : Linked nx pv p x := by
    have ⟨z, hz⟩ := Option.ne_none_iff_exists'.mp (mt List.getLast?_eq_none_iff.mp hl)
    have r := h.closed z (by rw [List.getLast?_cons, hz]; rfl) x rfl
    cases r.right.symm.trans hxp
    exact r
  refine ⟨hd, hc.imp_of_mem_imp fun y w hy hw r => ?_, fun z hz a ha => ?_⟩
  case refine_1 =>
    have hyp : y ≠ p := fun e => hx (Option.some.inj (hpx.left.symm.trans (e ▸ r.left)) ▸ hw)
    have hwn : w ≠ n := by
      intro e
      have ⟨b, hb⟩ := Option.ne_none_iff_exists'.mp (mt List.head?_eq_none_iff.mp hl)
      have rb := hh b hb
      cases rb.left.symm.trans hxn
      exact hx (Option.some.inj (rb.right.symm.trans (e ▸ r.right)) ▸ hy)
    exact ⟨hn y hy hyp ▸ r.left, hp w hw hwn ▸ r.right⟩
  case refine_2 =>
    have rz := h.closed z (by rw [List.getLast?_cons, hz]; rfl) x rfl
    cases rz.right.symm.trans hxp
    cases (hh a ha).left.symm.trans hxn
    exact hpn

theorem erase [DecidableEq α] {l : List α} {x n p : α} (h : IsRing nx pv l) (hx : x ∈ l)
    (hl : l ≠ [x]) (hxn : nx x = some n) (hxp : pv x = some p) (hpn : Linked nx' pv' p n)
    (hn : ∀ y ∈ l, y ≠ x → y ≠ p → nx' y = nx y) (hp : ∀ y ∈ l, y ≠ x → y ≠ n → pv' y = pv y) :
    IsRing nx' pv' (l.erase x) := by
  have ⟨l₁, l₂, e, hr⟩ := h.exists_rotation hx
  have hm : ∀ y ∈ l₂ ++ l₁, y ∈ l ∧ y ≠ x := by
    intro y hy
    refine ⟨?_, fun hc => (List.nodup_cons.mp hr.nodup).left (hc ▸ hy)⟩
    rcases List.mem_append.mp hy with hy | hy <;> simp [e, hy]
  have hne : l₂ ++ l₁ ≠ [] := by
    intro hc
    have ⟨h₂, h₁⟩ := List.append_eq_nil_iff.mp hc
    exact hl (by simp [e, h₁, h₂])
  have hx₁ : x ∉ l₁ := fun hc => (List.nodup_cons.mp hr.nodup).left (by simp [hc])
  have he : l.erase x = l₁ ++ l₂ := by rw [e, List.erase_append_right _ hx₁, List.erase_cons_head]
  rw [he]
  exact rotate <| tail_of_linked hr hne hxn hxp hpn
    (fun y hy hyp => hn y (hm y hy).left (hm y hy).right hyp)
    (fun y hy hyn => hp y (hm y hy).left (hm y hy).right hyn)

theorem next_head {l : List α} {x : α} (h : IsRing nx pv (x :: l)) : nx x = (l ++ [x]).head? := by
  cases l
  case nil      => exact (singleton_iff.mp h).left
  case cons y l => exact (List.isChain_cons_cons.mp h.links).left.left

theorem prev_last {l : List α} {x : α} (h : IsRing nx pv (l ++ [x])) :
    pv x = (x :: l).getLast? := by
  have hr : IsRing nx pv (x :: l) := h.rotate
  rw [List.getLast?_cons]
  exact (hr.closed _ (List.getLast?_cons ..) x rfl).right

theorem head?_erase [DecidableEq α] {l : List α} {x : α} (h : IsRing nx pv l) (hl : l ≠ [x]) :
    (l.erase x).head? = if l.head? = some x then nx x else l.head? := by
  cases l
  case nil => simp
  case cons a l =>
    by_cases e : a = x
    case pos =>
      subst e
      have hl' : l ≠ [] := fun hc => hl (by rw [hc])
      have ⟨b, hb⟩ := Option.ne_none_iff_exists'.mp (mt List.head?_eq_none_iff.mp hl')
      simp [h.next_head, hb]
    case neg =>
      rw [List.erase_cons_tail (by simpa using e)]
      simp [e]

theorem getLast?_erase [DecidableEq α] {l : List α} {x : α} (h : IsRing nx pv l) (hl : l ≠ [x]) :
    (l.erase x).getLast? = if l.getLast? = some x then pv x else l.getLast? := by
  induction l using List.reverseRecOn
  case nil => simp
  case append_singleton l z _ =>
    by_cases e : z = x
    case pos =>
      subst e
      have hz : z ∉ l := fun hc => (List.nodup_append.mp h.nodup).right.right z hc z (by simp) rfl
      have hl' : l ≠ [] := fun hc => hl (by simp [hc])
      have ⟨b, hb⟩ := Option.ne_none_iff_exists'.mp (mt List.getLast?_eq_none_iff.mp hl')
      rw [List.erase_append_right _ hz]
      simp [h.prev_last, List.getLast?_cons, hb]
    case neg =>
      have e' : ([z] : List α).erase x = [z] := List.erase_of_not_mem (by simpa using Ne.symm e)
      rw [List.erase_append]
      split <;> simp [e, e']

end IsRing
end CircularList
