import Mathlib.Data.List.Basic

-- Regular expressions with groups, over any alphabet. A repetition is one of single characters, and is
-- greedy.
inductive Regexp (α : Type u)
  | char (p : α → Bool)
  | star (p : α → Bool)
  | cat (r s : Regexp α)
  | group (r : Regexp α)

namespace Regexp

structure Match (α : Type u) where
  text   : List α
  groups : List (List α)
  rest   : List α

variable {p : α → Bool} {r s : Regexp α} {v w as : List α} {m : Match α}

def splits (p : α → Bool) : List α → List (List α × List α)
  | []      => [([], [])]
  | a :: as =>
    if p a
    then (splits p as).map (fun x => (a :: x.1, x.2)) ++ [([], a :: as)]
    else [([], a :: as)]

-- The matches at the beginning of a text, in the order in which backtracking finds them.
def run : Regexp α → List α → List (Match α)
  | .char _, []      => []
  | .char p, a :: as => if p a then [⟨[a], [], as⟩] else []
  | .star p, as      => (splits p as).map fun x => ⟨x.1, [], x.2⟩
  | .cat r s, as     => (r.run as).flatMap fun m => (s.run m.rest).map fun m' =>
      ⟨m.text ++ m'.text, m.groups ++ m'.groups, m'.rest⟩
  | .group r, as     => (r.run as).map fun m => { m with groups := m.text :: m.groups }

def find (r : Regexp α) : List α → Option (Match α)
  | []      => (r.run []).head?
  | a :: as => (r.run (a :: as)).head?.or (r.find as)

theorem find_of_run (h : (r.run as).head? = some m) : r.find as = some m := by
  cases as
  case nil  => exact h
  case cons => rw [find, h, Option.some_or]

theorem find_inv (h : r.find as = some m) : ∃ v w, as = v ++ w ∧ m ∈ r.run w := by
  induction as
  case nil => exact ⟨[], [], rfl, List.mem_of_mem_head? h⟩
  case cons a as hi =>
    rw [find, Option.or_eq_some_iff] at h
    rcases h with h | ⟨_, h⟩
    case inl => exact ⟨[], a :: as, rfl, List.mem_of_mem_head? h⟩
    case inr =>
      obtain ⟨v, w, rfl, hm⟩ := hi h
      exact ⟨a :: v, w, rfl, hm⟩

section Splits

theorem splits_eq (p : α → Bool) (as : List α) : ∃ longer,
    splits p as = longer ++ [([], as)] ∧
    ∀ x ∈ longer, x.1 ≠ [] ∧ as = x.1 ++ x.2 ∧ ∀ a ∈ x.1, p a := by
  induction as
  case nil => exact ⟨[], rfl, by simp⟩
  case cons a as hi =>
    obtain ⟨longer, he, hl⟩ := hi
    rw [splits]
    split
    case isFalse => exact ⟨[], rfl, by simp⟩
    case isTrue ha =>
      refine ⟨_, rfl, fun x hx => ?_⟩
      obtain ⟨y, hy, rfl⟩ := List.mem_map.mp hx
      refine ⟨by simp, ?_⟩
      rcases List.mem_append.mp (he ▸ hy) with hy | hy
      case inl =>
        obtain ⟨_, has, hp⟩ := hl y hy
        exact ⟨by rw [has]; rfl, by simpa [ha] using hp⟩
      case inr =>
        cases List.mem_singleton.mp hy
        exact ⟨rfl, by simpa using ha⟩

theorem mem_splits {x : List α × List α} (h : x ∈ splits p as) : as = x.1 ++ x.2 ∧ ∀ a ∈ x.1, p a := by
  obtain ⟨longer, he, hl⟩ := splits_eq p as
  rcases List.mem_append.mp (he ▸ h) with hx | hx
  case inl => exact (hl x hx).right
  case inr =>
    cases List.mem_singleton.mp hx
    exact ⟨rfl, by simp⟩

theorem splits_append (hw : ∀ a ∈ w, p a) (as : List α) : ∃ shorter,
    splits p (w ++ as) = (splits p as).map (fun x => (w ++ x.1, x.2)) ++ shorter := by
  induction w
  case nil => exact ⟨[], by simp⟩
  case cons a w hi =>
    obtain ⟨shorter, he⟩ := hi fun b hb => hw b (List.mem_cons_of_mem a hb)
    rw [List.cons_append, splits, if_pos (hw a List.mem_cons_self), he, List.map_append, List.map_map,
      List.append_assoc]
    exact ⟨_, rfl⟩

end Splits

section Groups

theorem run_group_star_cat (hw : ∀ a ∈ w, p a) (hs : (s.run as).head? = some m)
    (hl : ∀ u v, (as = u ++ v) → (u ≠ []) → (∀ a ∈ u, p a) → s.run v = []) :
    ((cat (group (star p)) s).run (w ++ as)).head? = some ⟨w ++ m.text, w :: m.groups, m.rest⟩ := by
  obtain ⟨longer, he, hlong⟩ := splits_eq p as
  obtain ⟨shorter, ha⟩ := splits_append hw as
  obtain ⟨ms, hms⟩ := List.head?_eq_some_iff.mp hs
  -- The choices that take more than `w` leave no match.
  have hnone : ∀ x ∈ longer, s.run x.2 = [] := by
    intro x hx
    obtain ⟨hne, has, hp⟩ := hlong x hx
    exact hl x.1 x.2 has hne hp
  have hnil : longer.flatMap (fun x => (s.run x.2).map fun m' =>
      (⟨w ++ x.1 ++ m'.text, (w ++ x.1) :: m'.groups, m'.rest⟩ : Match α)) = [] :=
    List.flatMap_eq_nil_iff.mpr fun x hx => by rw [hnone x hx, List.map_nil]
  simp only [run, ha, he, List.map_append, List.flatMap_append, List.map_map, List.flatMap_map,
    Function.comp_def, List.map_cons, List.map_nil, List.flatMap_cons, List.flatMap_nil, hms,
    List.append_nil, List.singleton_append] at hnil ⊢
  rw [hnil]
  rfl

theorem run_star (hw : ∀ a ∈ w, p a) (ha : ∀ a ∈ as.head?, p a = false) :
    ((star p).run (w ++ as)).head? = some ⟨w, [], as⟩ := by
  have hs : splits p as = [([], as)] := by
    cases as
    case nil       => rfl
    case cons a as => rw [splits, if_neg (by simpa using ha a rfl)]
  obtain ⟨shorter, he⟩ := splits_append hw as
  simp [run, he, hs]

theorem mem_run_group_star (h : m ∈ (group (star p)).run as) :
    as = m.text ++ m.rest ∧ m.groups = [m.text] ∧ ∀ a ∈ m.text, p a := by
  simp only [run, List.map_map, List.mem_map] at h
  obtain ⟨x, hx, rfl⟩ := h
  obtain ⟨has, hp⟩ := mem_splits hx
  exact ⟨has, rfl, hp⟩

theorem mem_run_cat (h : m ∈ (cat r s).run as) : ∃ m₁ ∈ r.run as, ∃ m₂ ∈ s.run m₁.rest,
    m = ⟨m₁.text ++ m₂.text, m₁.groups ++ m₂.groups, m₂.rest⟩ := by
  simp only [run, List.mem_flatMap, List.mem_map] at h
  obtain ⟨m₁, h₁, m₂, h₂, rfl⟩ := h
  exact ⟨m₁, h₁, m₂, h₂, rfl⟩

theorem run_char_cat_cons {a : α} : (cat (char p) s).run (a :: as) =
    if p a then (s.run as).map fun m => ⟨a :: m.text, m.groups, m.rest⟩ else [] := by
  rw [run, run]
  split <;> simp

end Groups
end Regexp
