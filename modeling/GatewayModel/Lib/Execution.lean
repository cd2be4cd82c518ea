import Mathlib.Data.List.Induction

namespace Execution

inductive Run (step : σ → ℓ → σ → Prop) (s : σ) : List ℓ → σ → Prop
  | refl : Run step s [] s
  | tail : (Run step s ls s₁) → (step s₁ l s₂) → Run step s (ls ++ [l]) s₂

namespace Run

variable {step : σ → ℓ → σ → Prop} {s s₁ s₂ : σ}

theorem single (h : step s l s₁) : Run step s [l] s₁ :=
  .tail .refl h

theorem trans (r₁ : Run step s ls₁ s₁) (r₂ : Run step s₁ ls₂ s₂) :
    Run step s (ls₁ ++ ls₂) s₂ := by
  induction r₂
  case refl          => simpa using r₁
  case tail _ h hi => exact List.append_assoc .. ▸ hi.tail h

theorem head (h : step s l s₁) (r : Run step s₁ ls s₂) : Run step s (l :: ls) s₂ :=
  (single h).trans r

theorem nil_inv (r : Run step s [] s₁) : s₁ = s := by
  generalize h : [] = ls at r
  cases r
  case refl => rfl
  case tail => simp at h

theorem concat_inv (r : Run step s (ls ++ [l]) s₂) : ∃ s₁, Run step s ls s₁ ∧ step s₁ l s₂ := by
  generalize h : ls ++ [l] = ls' at r
  cases r
  case refl => simp at h
  case tail s₁ _ r hl =>
    have ⟨h₁, h₂⟩ := List.append_inj' h rfl
    cases h₁
    cases h₂
    exact ⟨s₁, r, hl⟩

theorem split (r : Run step s (ls₁ ++ ls₂) s₂) :
    ∃ s₁, Run step s ls₁ s₁ ∧ Run step s₁ ls₂ s₂ := by
  induction ls₂ using List.reverseRecOn generalizing s₂
  case nil => exact ⟨s₂, by simpa using r, .refl⟩
  case append_singleton ls₂ l hi =>
    have ⟨s₃, r, hl⟩ := concat_inv (List.append_assoc .. ▸ r)
    have ⟨s₁, r₁, r₂⟩ := hi r
    exact ⟨s₁, r₁, r₂.tail hl⟩

theorem cons_inv (r : Run step s (l :: ls) s₂) : ∃ s₁, step s l s₁ ∧ Run step s₁ ls s₂ := by
  have ⟨s₁, r₁, r₂⟩ : ∃ s₁, Run step s [l] s₁ ∧ Run step s₁ ls s₂ := split r
  have ⟨_, r', hl⟩ : ∃ s', Run step s [] s' ∧ step s' l s₁ := concat_inv r₁
  cases r'.nil_inv
  exact ⟨s₁, hl, r₂⟩

theorem mono {step' : σ → ℓ → σ → Prop} (h : ∀ {s l s'}, step s l s' → step' s l s')
    (r : Run step s ls s₁) : Run step' s ls s₁ := by
  induction r
  case refl          => exact .refl
  case tail _ hl hi => exact hi.tail (h hl)

-- The invariant rule: what holds initially and is preserved by every step holds after every run.
theorem invariant {P : σ → Prop} (r : Run step s ls s₁) (h₀ : P s)
    (h : ∀ {s l s'}, P s → step s l s' → P s') : P s₁ := by
  induction r
  case refl         => exact h₀
  case tail _ hl hi => exact h hi hl

theorem invariant_labels {P : List ℓ → σ → Prop} (r : Run step s ls s₁) (h₀ : P [] s)
    (h : ∀ {ls s l s'}, P ls s → step s l s' → P (ls ++ [l]) s') : P ls s₁ := by
  induction r
  case refl         => exact h₀
  case tail _ hl hi => exact h hi hl

-- A forward simulation: `R` relates the states and `f` gives the labels of the simulating steps.
theorem simulate {step' : τ → κ → τ → Prop} {R : σ → τ → Prop} {f : ℓ → List κ} {t : τ}
    (r : Run step s ls s₁) (h₀ : R s t)
    (h : ∀ {s l s' t}, R s t → step s l s' → ∃ t', Run step' t (f l) t' ∧ R s' t') :
    ∃ t₁, Run step' t (ls.flatMap f) t₁ ∧ R s₁ t₁ := by
  induction r
  case refl => exact ⟨t, .refl, h₀⟩
  case tail _ hl hi =>
    have ⟨t₁, r₁, h₁⟩ := hi
    have ⟨t₂, r₂, h₂⟩ := h h₁ hl
    exact ⟨t₂, by simpa using r₁.trans r₂, h₂⟩

end Run

def Steps (f : σ → ι → Except ε (σ × ω)) (s : σ) (l : ι × ω) (s' : σ) : Prop :=
  f s l.1 = .ok (s', l.2)

def exec (f : σ → ι → Except ε (σ × ω)) (s : σ) : List ι → Except ε (σ × List (ι × ω))
  | [] => .ok (s, [])
  | i :: is =>
    match f s i with
    | .error e     => .error e
    | .ok (s₁, o) =>
      match exec f s₁ is with
      | .error e      => .error e
      | .ok (s₂, ls) => .ok (s₂, (i, o) :: ls)

theorem Run.of_exec {f : σ → ι → Except ε (σ × ω)} {is : List ι} :
    (exec f s is = .ok (s', ls)) → Run (Steps f) s ls s' := by
  induction is generalizing s ls <;> intro h <;> simp only [exec] at h
  case nil =>
    injection h with h
    injection h with h₁ h₂
    subst h₁ h₂
    exact .refl
  case cons i is hi =>
    split at h
    case h_1 => contradiction
    case h_2 s₁ o hf =>
      split at h
      case h_1 => contradiction
      case h_2 s₂ ls' he =>
        injection h with h
        injection h with h₁ h₂
        subst h₁ h₂
        exact .head hf (hi he)

def after (f : σ → ι → Except ε (σ × ω)) (s : σ) (is : List ι) : Except ε σ :=
  (exec f s is).map (·.1)

theorem after_cons {f : σ → ι → Except ε (σ × ω)} {is : List ι} :
    after f s (i :: is) = (f s i).bind fun r => after f r.1 is := by
  simp only [after, exec]
  cases f s i
  case error => rfl
  case ok r  => cases h : exec f r.1 is <;> simp [h, Except.bind, Except.map]

theorem after_append {f : σ → ι → Except ε (σ × ω)} {is js : List ι} :
    after f s (is ++ js) = (after f s is).bind fun s => after f s js := by
  induction is generalizing s
  case nil => rfl
  case cons i is hi =>
    rw [List.cons_append, after_cons, after_cons]
    cases f s i
    case error => rfl
    case ok r  => exact hi

def passes (f : σ → ι → Except ε (σ × ω)) (s : σ) (is : List ι)
    (test : σ → List (ι × ω) → Bool) : Bool :=
  match exec f s is with
  | .ok (s', ls) => test s' ls
  | .error _     => false

theorem Run.of_passes {f : σ → ι → Except ε (σ × ω)} {test : σ → List (ι × ω) → Bool}
    (is : List ι) (h : passes f s is test = true) : ∃ s' ls, Run (Steps f) s ls s' ∧ test s' ls = true := by
  simp only [passes] at h
  split at h
  case h_1 s' ls he => exact ⟨s', ls, .of_exec he, h⟩
  case h_2          => contradiction

def GuardedSteps (guard : σ → ι → Prop) (f : σ → ι → Except ε (σ × ω)) (s : σ) (l : ι × ω) (s' : σ) :
    Prop :=
  guard s l.1 ∧ Steps f s l s'

-- The program that stops, with the error `none`, on an input that `guard` does not allow.
def restrict (guard : σ → ι → Prop) [∀ s i, Decidable (guard s i)]
    (f : σ → ι → Except ε (σ × ω)) (s : σ) (i : ι) : Except (Option ε) (σ × ω) :=
  if guard s i
  then (f s i).mapError some
  else .error none

theorem Run.of_passes_restrict {guard : σ → ι → Prop} [∀ s i, Decidable (guard s i)]
    {f : σ → ι → Except ε (σ × ω)} {test : σ → List (ι × ω) → Bool}
    (is : List ι) (h : passes (restrict guard f) s is test = true) :
    ∃ s' ls, Run (GuardedSteps guard f) s ls s' ∧ test s' ls = true := by
  have ⟨s', ls, r, ht⟩ := Run.of_passes is h
  refine ⟨s', ls, r.mono fun {s l s'} hs => ?_, ht⟩
  simp only [Steps, restrict] at hs
  split at hs
  case isFalse   => contradiction
  case isTrue hg =>
    refine ⟨hg, ?_⟩
    rw [Steps]
    cases hf : f s l.1 <;> simp_all [Except.mapError]

theorem forall_split_concat {P : List α → α → Prop} {l : List α} {a : α}
    (h : ∀ pre b post, (l = pre ++ b :: post) → P pre b) (ha : P l a) (pre : List α) (b : α)
    (post : List α) (he : l ++ [a] = pre ++ b :: post) : P pre b := by
  cases post using List.reverseRecOn
  case nil =>
    have ⟨h₁, h₂⟩ := List.append_inj' he rfl
    cases h₁
    cases h₂
    exact ha
  case append_singleton post _ _ =>
    rw [← List.cons_append, ← List.append_assoc] at he
    exact h pre b post (List.append_inj' he rfl).left

section Threads

theorem mem_set_iff_of_nodup {f : α → β} {l : List α} (nd : (l.map f).Nodup)
    (hi : l[i]? = some a) : (c ∈ l.set i b) ↔ (c = b ∨ (c ∈ l ∧ f c ≠ f a)) := by
  induction l generalizing i
  case nil => simp at hi
  case cons x l hl =>
    have ⟨hx, nd⟩ := List.nodup_cons.mp nd
    cases i
    case zero =>
      cases hi
      have hne : (c ∈ l) → f c ≠ f a := fun hm he => hx (he ▸ List.mem_map_of_mem hm)
      by_cases hc : c ∈ l <;> simp_all
    case succ i =>
      have hi : l[i]? = some a := hi
      have hne : f x ≠ f a := fun he => hx (he ▸ List.mem_map_of_mem (List.mem_of_getElem? hi))
      simp only [List.set_cons_succ, List.mem_cons, hl nd hi]
      by_cases hc : c = x <;> simp_all

theorem map_set_of_eq {f : α → β} {l : List α} (hi : l[i]? = some a) (hb : f b = f a) :
    (l.set i b).map f = l.map f := by
  have ⟨hlt, ha⟩ := List.getElem?_eq_some_iff.mp hi
  have hlt : i < (l.map f).length := by simpa using hlt
  have hfa : f a = (l.map f)[i] := by rw [List.getElem_map, ha]
  rw [List.map_set, hb, hfa, List.set_getElem_self]

theorem mem_set_or_of_mem {l : List α} (i : Nat) (b : α) (ha : a ∈ l) :
    a ∈ l.set i b ∨ l[i]? = some a := by
  have ⟨j, hj⟩ := List.mem_iff_getElem?.mp ha
  by_cases hij : i = j
  case pos => exact .inr (hij ▸ hj)
  case neg => exact .inl (List.mem_of_getElem? (i := j) (by rw [List.getElem?_set_ne hij, hj]))

theorem mem_eraseIdx_or_of_mem {l : List α} (i : Nat) (ha : a ∈ l) :
    a ∈ l.eraseIdx i ∨ l[i]? = some a := by
  have ⟨j, hj⟩ := List.mem_iff_getElem?.mp ha
  by_cases hij : j = i
  case pos => exact .inr (hij ▸ hj)
  case neg => exact .inl (List.mem_eraseIdx_iff_getElem?.mpr ⟨j, hij, hj⟩)

theorem rel_of_mem_eraseIdx {R : α → α → Prop} {l : List α} {a b : α}
    (hs : ∀ {a b}, R a b → R b a) (h : l.Pairwise R) (ha : l[i]? = some a)
    (hb : b ∈ l.eraseIdx i) : R a b := by
  induction l generalizing i
  case nil => simp at ha
  case cons c l hi =>
    have ⟨hc, h⟩ := List.pairwise_cons.mp h
    cases i
    case zero =>
      cases ha
      exact hc b hb
    case succ i =>
      cases List.mem_cons.mp hb
      case inl hb => exact hb ▸ hs (hc a (List.mem_of_getElem? ha))
      case inr hb => exact hi h ha hb

theorem count_filterMap_set [BEq β] {f : α → Option β} {l : List α} (hi : l[i]? = some a) (a' : α)
    (b : β) : ((l.set i a').filterMap f).count b + (f a).toList.count b =
      (l.filterMap f).count b + (f a').toList.count b := by
  induction l generalizing i
  case nil => simp at hi
  case cons c l hl =>
    cases i
    case zero =>
      cases hi
      simp only [List.set_cons_zero, List.filterMap_cons]
      cases f a <;> cases f a' <;> simp [List.count_cons]
      omega
    case succ i =>
      have := hl hi
      simp only [List.set_cons_succ, List.filterMap_cons]
      cases f c <;> simp only [List.count_cons] <;> omega

theorem count_filterMap_eraseIdx [BEq β] {f : α → Option β} {l : List α} (hi : l[i]? = some a)
    (b : β) : ((l.eraseIdx i).filterMap f).count b + (f a).toList.count b = (l.filterMap f).count b := by
  induction l generalizing i
  case nil => simp at hi
  case cons c l hl =>
    cases i
    case zero =>
      cases hi
      simp only [List.eraseIdx_cons_zero, List.filterMap_cons]
      cases f a <;> simp [List.count_cons]
    case succ i =>
      have := hl hi
      simp only [List.eraseIdx_cons_succ, List.filterMap_cons]
      cases f c <;> simp only [List.count_cons] <;> omega

end Threads

end Execution
