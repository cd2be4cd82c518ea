import Mathlib.Data.Set.Finite.Lemmas
import Mathlib.Logic.Relation
import GatewayModel.Lib.Execution
import GatewayModel.Lib.Go

open Go Execution

-- Programs that share a state and protect it by readers-writer mutexes.
namespace Locks

inductive Mode
  | read
  | write
  deriving Repr, DecidableEq

-- A program on the shared state `σ` with the mutexes `μ` that returns an `α`. What it does between
-- two operations on mutexes is split into atomic accesses to the state.
inductive Prog (σ μ : Type) (α : Type) : Type 1
  | ret (a : α)
  | acquire (mode : Mode) (m : μ) (k : Prog σ μ α)
  | release (mode : Mode) (m : μ) (k : Prog σ μ α)
  | act {β : Type} (f : σ → Result (σ × β)) (k : β → Prog σ μ α)

namespace Prog

variable {σ μ α β : Type}

def bind (x : Prog σ μ α) (g : α → Prog σ μ β) : Prog σ μ β :=
  match x with
  | .ret a            => g a
  | .acquire mode m k => .acquire mode m (k.bind g)
  | .release mode m k => .release mode m (k.bind g)
  | .act f k          => .act f fun b => (k b).bind g

instance : Monad (Prog σ μ) where
  pure := .ret
  bind := .bind

def lock (mode : Mode) (m : μ) : Prog σ μ Unit :=
  .acquire mode m (.ret ())

def unlock (mode : Mode) (m : μ) : Prog σ μ Unit :=
  .release mode m (.ret ())

def perform (f : σ → Result (σ × α)) : Prog σ μ α :=
  .act f .ret

def inspect (f : σ → Result α) : Prog σ μ α :=
  perform fun s => do
    let a ← f s
    return (s, a)

def update (f : σ → σ) : Prog σ μ Unit :=
  perform fun s => return (f s, ())

def locked (mode : Mode) (m : μ) (x : Prog σ μ α) : Prog σ μ α := do
  lock mode m
  let a ← x
  unlock mode m
  return a

section Eval

def eval : Prog σ μ α → σ → Result (σ × α)
  | .ret a, s         => .ok (s, a)
  | .acquire _ _ k, s => k.eval s
  | .release _ _ k, s => k.eval s
  | .act f k, s       => do
    let (s, b) ← f s
    (k b).eval s

variable {s : σ} {mode : Mode} {m : μ}

@[simp]
theorem eval_pure {a : α} : (pure a : Prog σ μ α).eval s = .ok (s, a) :=
  rfl

@[simp]
theorem eval_bind {x : Prog σ μ α} {g : α → Prog σ μ β} :
    (x >>= g).eval s = x.eval s >>= fun r => (g r.2).eval r.1 := by
  change (x.bind g).eval s = _
  induction x generalizing s
  case ret               => rfl
  case acquire hi        => exact hi
  case release hi        => exact hi
  case act f k hi =>
    simp only [Prog.bind, eval]
    cases f s
    case error  => rfl
    case ok r   => exact hi r.2

@[simp]
theorem eval_perform {f : σ → Result (σ × α)} : (perform f : Prog σ μ α).eval s = f s := by
  simp only [perform, eval]
  cases f s <;> rfl

@[simp]
theorem eval_inspect {f : σ → Result α} :
    (inspect f : Prog σ μ α).eval s = f s >>= fun a => .ok (s, a) := by
  simp only [inspect, eval_perform]
  rfl

@[simp]
theorem eval_update {f : σ → σ} : (update f : Prog σ μ Unit).eval s = .ok (f s, ()) := by
  simp only [update, eval_perform]
  rfl

@[simp]
theorem eval_lock : (lock mode m : Prog σ μ Unit).eval s = .ok (s, ()) :=
  rfl

@[simp]
theorem eval_unlock : (unlock mode m : Prog σ μ Unit).eval s = .ok (s, ()) :=
  rfl

@[simp]
theorem eval_locked {x : Prog σ μ α} : (locked mode m x).eval s = x.eval s := by
  simp only [locked, eval_bind, eval_lock, eval_unlock, eval_pure, ok_bind]
  cases x.eval s <;> rfl

end Eval

section Ordered

variable [DecidableEq μ] (rank : μ → Nat)

-- The program takes mutexes in the order of their ranks only and releases what it has taken. It
-- starts with the mutexes in `held` and returns with those in `held'`.
def Ordered : Prog σ μ α → (held held' : List (Mode × μ)) → Prop
  | .ret _, held, held'            => held = held'
  | .acquire mode m k, held, held' =>
    (∀ h ∈ held, rank h.2 < rank m) ∧ k.Ordered ((mode, m) :: held) held'
  | .release mode m k, held, held' => (mode, m) ∈ held ∧ k.Ordered (held.erase (mode, m)) held'
  | .act _ k, held, held'          => ∀ b, (k b).Ordered held held'

variable {rank} {mode : Mode} {m : μ} {held held₁ held₂ : List (Mode × μ)}

namespace Ordered

theorem pure {a : α} : (pure a : Prog σ μ α).Ordered rank held held :=
  rfl

theorem bind {x : Prog σ μ α} {g : α → Prog σ μ β} (hx : x.Ordered rank held held₁)
    (hg : ∀ a, (g a).Ordered rank held₁ held₂) : (x >>= g).Ordered rank held held₂ := by
  change (x.bind g).Ordered rank held held₂
  induction x generalizing held
  case ret a              => exact hx ▸ hg a
  case acquire mode m k hi => exact ⟨hx.left, hi hx.right⟩
  case release mode m k hi => exact ⟨hx.left, hi hx.right⟩
  case act f k hi          => exact fun b => hi b (hx b)

theorem perform {f : σ → Result (σ × α)} : (perform f : Prog σ μ α).Ordered rank held held :=
  fun _ => rfl

theorem inspect {f : σ → Result α} : (inspect f : Prog σ μ α).Ordered rank held held :=
  perform

theorem update {f : σ → σ} : (update f : Prog σ μ Unit).Ordered rank held held :=
  perform

theorem lock (h : ∀ h ∈ held, rank h.2 < rank m) :
    (lock mode m : Prog σ μ Unit).Ordered rank held ((mode, m) :: held) :=
  ⟨h, rfl⟩

theorem unlock : (unlock mode m : Prog σ μ Unit).Ordered rank ((mode, m) :: held) held :=
  ⟨List.mem_cons_self, List.erase_cons_head ..⟩

theorem locked {x : Prog σ μ α} (h : ∀ h ∈ held, rank h.2 < rank m)
    (hx : x.Ordered rank ((mode, m) :: held) ((mode, m) :: held)) :
    (locked mode m x).Ordered rank held held :=
  bind (lock h) fun _ => bind hx fun _ => bind unlock fun _ => pure

end Ordered
end Ordered
end Prog

structure Thread (σ μ : Type) where
  held : List (Mode × μ)
  prog : Prog σ μ Unit

namespace Thread

variable {σ μ : Type} (t : Thread σ μ) (m : μ)

-- The mutex that the thread takes in its next step. It is taken to wait for it even if it is free.
def awaited : Option μ :=
  match t.prog with
  | .acquire _ m _ => some m
  | _              => none

def Waits : Prop :=
  t.awaited = some m

def Holds : Prop :=
  ∃ h ∈ t.held, h.2 = m

def returned : Bool :=
  match t.prog with
  | .ret _ => true
  | _      => false

variable {t m}

theorem waits_iff : (t.Waits m) ↔ (∃ mode k, t.prog = .acquire mode m k) := by
  simp only [Waits, awaited]
  split
  case h_1 mode m' k hp => simp [hp]
  case h_2 hn =>
    refine ⟨fun h => by contradiction, fun ⟨mode, k, hp⟩ => ?_⟩
    exact absurd hp (hn mode m k)

theorem returned_iff : (t.returned = true) ↔ (t.prog = .ret ()) := by
  simp only [returned]
  split
  case h_1 hp => simp [hp]
  case h_2 hn => simpa using hn ()

end Thread

structure World (σ μ : Type) where
  state   : σ
  threads : List (Thread σ μ)

inductive Halt
  | blocked
  | notHeld
  | panic (p : Panic)
  deriving Repr, DecidableEq

inductive Op (ι : Type)
  | start (i : ι)
  | run (n : Nat)
  deriving Repr, DecidableEq

namespace World

variable {σ μ ι : Type} [DecidableEq μ] (programs : ι → Prog σ μ Unit) (w : World σ μ)

def init (s : σ) : World σ μ where
  state   := s
  threads := []

-- Several threads may hold a mutex for reading. That a reader does not overtake a waiting writer is not
-- required.
def Grants (mode : Mode) (m : μ) : Prop :=
  ∀ t ∈ w.threads, ∀ h ∈ t.held, (h.2 = m) → (mode = .read ∧ h.1 = .read)

instance (mode : Mode) (m : μ) : Decidable (w.Grants mode m) :=
  inferInstanceAs (Decidable (∀ t ∈ w.threads, ∀ h ∈ t.held, (h.2 = m) → (mode = .read ∧ h.1 = .read)))

def run (n : Nat) : Except Halt (World σ μ) :=
  match w.threads[n]? with
  | none                => .error .blocked
  | some ⟨held, prog⟩ =>
    match prog with
    | .ret _            => .error .blocked
    | .acquire mode m k =>
      if w.Grants mode m
      then .ok { w with threads := w.threads.set n ⟨(mode, m) :: held, k⟩ }
      else .error .blocked
    | .release mode m k =>
      if (mode, m) ∈ held
      then .ok { w with threads := w.threads.set n ⟨held.erase (mode, m), k⟩ }
      else .error .notHeld
    | .act f k =>
      match f w.state with
      | .ok (s, b) => .ok { state := s, threads := w.threads.set n ⟨held, k b⟩ }
      | .error e   => .error (.panic e)

def step : Op ι → Except Halt (World σ μ × Unit)
  | .start i => .ok ({ w with threads := w.threads ++ [⟨[], programs i⟩] }, ())
  | .run n   => (w.run n).map (·, ())

variable {programs} {w} {w' : World σ μ}

inductive Ran (w : World σ μ) (n : Nat) : World σ μ → Prop
  | acquire :
    (w.threads[n]? = some ⟨held, .acquire mode m k⟩) → (w.Grants mode m) →
    Ran w n { w with threads := w.threads.set n ⟨(mode, m) :: held, k⟩ }
  | release :
    (w.threads[n]? = some ⟨held, .release mode m k⟩) → ((mode, m) ∈ held) →
    Ran w n { w with threads := w.threads.set n ⟨held.erase (mode, m), k⟩ }
  | act {β : Type} {b : β} {f : σ → Result (σ × β)} {k : β → Prog σ μ Unit} :
    (w.threads[n]? = some ⟨held, .act f k⟩) → (f w.state = .ok (s, b)) →
    Ran w n { state := s, threads := w.threads.set n ⟨held, k b⟩ }

theorem run_inv (h : w.run n = .ok w') : Ran w n w' := by
  simp only [run] at h
  split at h
  case h_1 => contradiction
  case h_2 held prog ht =>
    split at h
    case h_1 => contradiction
    case h_2 =>
      split at h
      case isFalse   => contradiction
      case isTrue hg => cases h; exact .acquire ht hg
    case h_3 =>
      split at h
      case isFalse   => contradiction
      case isTrue hm => cases h; exact .release ht hm
    case h_4 =>
      split at h
      case h_1 hf => cases h; exact .act ht hf
      case h_2    => contradiction

section Ordered

variable {rank : μ → Nat}

def Ordered (rank : μ → Nat) (w : World σ μ) : Prop :=
  ∀ t ∈ w.threads, t.prog.Ordered rank t.held []

namespace Ordered

theorem set (h : Ordered rank w) (ht : t.prog.Ordered rank t.held []) :
    Ordered rank { w with state := s, threads := w.threads.set n t } := by
  intro u hu
  cases List.mem_or_eq_of_mem_set hu
  case inl hu => exact h u hu
  case inr hu => exact hu ▸ ht

theorem run (h : Ordered rank w) (hr : Ran w n w') : Ordered rank w' := by
  cases hr
  case acquire ht _  => exact h.set (h _ (List.mem_of_getElem? ht)).right
  case release ht _  => exact h.set (h _ (List.mem_of_getElem? ht)).right
  case act b _ _ ht _ => exact h.set (h _ (List.mem_of_getElem? ht) b)

theorem start (h : Ordered rank w) (hp : (programs i).Ordered rank [] []) :
    Ordered rank { w with threads := w.threads ++ [⟨[], programs i⟩] } := by
  intro t ht
  cases List.mem_append.mp ht
  case inl ht => exact h t ht
  case inr ht => exact List.mem_singleton.mp ht ▸ hp

theorem of_run (hp : ∀ i, (programs i).Ordered rank [] [])
    (h : Run (Steps (step programs)) (.init s) ls w) : Ordered rank w := by
  refine h.invariant (P := Ordered rank) (by simp [Ordered, init]) fun {w l w'} h hs => ?_
  obtain ⟨op, out⟩ := l
  cases op
  case start i =>
    cases hs
    exact h.start (hp i)
  case run n =>
    simp only [Steps, step] at hs
    cases hr : w.run n
    case error => simp [hr, Except.map] at hs
    case ok    =>
      simp only [hr, Except.map, Except.ok.injEq, Prod.mk.injEq] at hs
      exact hs.left ▸ h.run (run_inv hr)

end Ordered

def WaitsFor (w : World σ μ) (i j : Nat) : Prop :=
  ∃ t u m, w.threads[i]? = some t ∧ w.threads[j]? = some u ∧ t.Waits m ∧ u.Holds m

section WaitsFor

variable {t u : Thread σ μ}

theorem Ordered.lt_of_waits (h : Ordered rank w) (ht : t ∈ w.threads) (hw : t.Waits m)
    (hh : t.Holds m') : rank m' < rank m := by
  have ⟨_, _, hp⟩ := Thread.waits_iff.mp hw
  have ⟨l, hl, he⟩ := hh
  have ho := h t ht
  rw [hp] at ho
  exact he ▸ ho.left l hl

theorem Ordered.chain (h : Ordered rank w) (hc : Relation.TransGen w.WaitsFor i j) :
    ∃ t u m m', w.threads[i]? = some t ∧ t.Waits m ∧ w.threads[j]? = some u ∧ u.Holds m' ∧
      rank m ≤ rank m' := by
  induction hc
  case single hij =>
    have ⟨t, u, m, ht, hu, hw, hh⟩ := hij
    exact ⟨t, u, m, m, ht, hw, hu, hh, le_refl _⟩
  case tail _ hjk hi =>
    have ⟨t, u, m, m', ht, hw, hu, hh, hle⟩ := hi
    have ⟨u', v, m'', hu', hv, hw', hh'⟩ := hjk
    cases hu.symm.trans hu'
    have hlt := h.lt_of_waits (List.mem_of_getElem? hu) hw' hh
    exact ⟨t, v, m, m'', ht, hw, hv, hh', by omega⟩

theorem Ordered.acyclic (h : Ordered rank w) (i : Nat) : ¬ Relation.TransGen w.WaitsFor i i := by
  intro hc
  have ⟨t, u, m, m', ht, hw, hu, hh, hle⟩ := h.chain hc
  cases ht.symm.trans hu
  have hlt := h.lt_of_waits (List.mem_of_getElem? ht) hw hh
  omega

theorem Ordered.held_of_returned (h : Ordered rank w) (ht : t ∈ w.threads) (hr : t.returned) :
    t.held = [] := by
  have ho := h t ht
  rw [Thread.returned_iff.mp hr] at ho
  exact ho

-- As long as a thread has not returned, there is one that does not wait for a mutex that is held.
theorem Ordered.progress (h : Ordered rank w) (ht : t ∈ w.threads) (hr : ¬ t.returned) :
    ∃ u ∈ w.threads, ¬ u.returned ∧ ∀ m, (u.Waits m) → ∀ v ∈ w.threads, ¬ v.Holds m := by
  by_contra hc
  -- Every thread waits for one that has not returned.
  have hheld : ∀ u ∈ w.threads, (¬ u.returned) →
      ∃ m, u.Waits m ∧ ∃ v ∈ w.threads, v.Holds m ∧ ¬ v.returned := by
    intro u hu hn
    by_contra hcu
    refine hc ⟨u, hu, hn, fun m hw v hv hh => hcu ⟨m, hw, v, hv, hh, fun hr => ?_⟩⟩
    have ⟨_, hm, _⟩ := hh
    simp [h.held_of_returned hv hr] at hm
  have hfin : { u | u ∈ w.threads ∧ ¬ u.returned }.Finite :=
    w.threads.finite_toSet.subset fun _ hu => hu.left
  -- What the holder of the highest awaited mutex waits for is of a higher rank.
  have ⟨u, ⟨hu, hn⟩, hmax⟩ := Set.exists_max_image _ (·.awaited.elim 0 rank) hfin ⟨t, ht, hr⟩
  have ⟨m, hw, v, hv, hh, hn'⟩ := hheld u hu hn
  have ⟨m', hw', _⟩ := hheld v hv hn'
  have hle : rank m' ≤ rank m := by
    have hle := hmax v ⟨hv, hn'⟩
    unfold Thread.Waits at hw hw'
    simpa [hw, hw'] using hle
  have hlt := h.lt_of_waits hv hw' hh
  omega

end WaitsFor

section Eval

def Alone (w : World σ μ) (n : Nat) : Prop :=
  ∀ j t, (j ≠ n) → (w.threads[j]? = some t) → t.held = []

omit [DecidableEq μ] in
theorem Alone.set (h : Alone w n) : Alone ⟨s, w.threads.set n t⟩ n := by
  intro j u hj hu
  rw [List.getElem?_set_ne hj.symm] at hu
  exact h j u hj hu

omit [DecidableEq μ] in
theorem Alone.grants (h : Alone w n) (ht : w.threads[n]? = some t) (hm : ¬ t.Holds m) :
    w.Grants mode m := by
  intro u hu l hl he
  have ⟨j, hj⟩ := List.mem_iff_getElem?.mp hu
  by_cases hjn : j = n
  case pos =>
    subst hjn
    cases ht.symm.trans hj
    exact absurd ⟨l, hl, he⟩ hm
  case neg => simp [h j u hjn hj] at hl

theorem exists_run_cons (s₁ : σ) (t : Thread σ μ) (hr : w.run n = .ok ⟨s₁, w.threads.set n t⟩)
    (h : ∃ ls, Run (Steps (step programs)) ⟨s₁, w.threads.set n t⟩ ls
      ⟨s, (w.threads.set n t).set n t'⟩) :
    ∃ ls, Run (Steps (step programs)) w ls ⟨s, w.threads.set n t'⟩ := by
  have ⟨ls, h⟩ := h
  rw [List.set_set] at h
  exact ⟨_, .head (l := (.run n, ())) (by simp [Steps, step, hr, Except.map]) h⟩

theorem exists_run_of_eval {x : Prog σ μ Unit} (ho : x.Ordered rank held [])
    (hx : x.eval w.state = .ok (s, ())) (ht : w.threads[n]? = some ⟨held, x⟩) (ha : Alone w n) :
    ∃ ls, Run (Steps (step programs)) w ls ⟨s, w.threads.set n ⟨[], .ret ()⟩⟩ := by
  have ⟨hlt, hget⟩ := List.getElem?_eq_some_iff.mp ht
  induction x generalizing w held
  case ret =>
    cases ho
    cases hx
    rw [← hget, List.set_getElem_self]
    exact ⟨[], .refl⟩
  case acquire mode m k hi =>
    have hg : w.Grants mode m := ha.grants ht fun ⟨l, hl, he⟩ => absurd (ho.left l hl) (by simp [he])
    apply exists_run_cons w.state ⟨(mode, m) :: held, k⟩ (by simp [run, ht, hg])
    exact hi ho.right hx (List.getElem?_set_self hlt) ha.set (by simpa using hlt) (by simp)
  case release mode m k hi =>
    apply exists_run_cons w.state ⟨held.erase (mode, m), k⟩ (by simp [run, ht, ho.left])
    exact hi ho.right hx (List.getElem?_set_self hlt) ha.set (by simpa using hlt) (by simp)
  case act f k hi =>
    simp only [Prog.eval, bind_eq_ok, Prod.exists] at hx
    have ⟨s₁, b, hf, hx⟩ := hx
    apply exists_run_cons s₁ ⟨held, k b⟩ (by simp [run, ht, hf])
    exact hi b (ho b) hx (List.getElem?_set_self hlt) ha.set (by simpa using hlt) (by simp)

end Eval
end Ordered
end World
end Locks
