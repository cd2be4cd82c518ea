import GatewayModel.Cnt.Theorems.Minimum

open Go Execution Pool

namespace Cnt.Sys

variable {p : Provisioner} {s s' s₀ : Sys} {inst inst' : Instance} {i : InstId}

-- A goroutine creates a function only if its `size` covers the ids in its `cntIdMap` with the new one.
def CreatesWithinSize (s : Sys) : Op → Prop
  | .worker i (.create cntId) =>
    ∀ inst ∈ s.instances.load i, (inst.cntIdMap.insert cntId).length ≤ inst.size
  | _ => True

instance {s : Sys} : (op : Op) → Decidable (s.CreatesWithinSize op)
  | .worker i (.create cntId) => inferInstanceAs (Decidable
      (∀ inst ∈ s.instances.load i, (inst.cntIdMap.insert cntId).length ≤ inst.size))
  | .worker _ .receive | .worker _ .tick | .worker _ .proceed | .traffic _ | .register ..
  | .addConnElem _ | .timer .. | .creator _ | .handleScaling | .receive | .scan _ => .isTrue trivial

-- The size of an instance covers its containers, and the one that its goroutine is removing.
def Sized (inst : Instance) : Prop :=
  (inst.pc ≠ .absent) → (inst.cntIdMap.length : Int) + inst.pc.isRemoving.toNat ≤ inst.size

theorem Advances.size_le (h : Advances i inst op inst') : inst'.size ≤ inst.size := by
  cases h
  case move hm  => cases hm <;> exact le_refl _
  case unlisted => exact Int.sub_le_self _ (by decide)
  all_goals exact le_refl _

theorem Advances.absent_iff (h : Advances i inst op inst') :
    (inst'.pc = .absent) ↔ (inst.pc = .absent) := by
  cases h
  case none | requested => exact Iff.rfl
  case move hm =>
    cases hm
    case tick hpc =>
      simp only [hpc]
      split <;> simp
    case create hpc | created hpc | receive hpc _ _ => simp [hpc]
    case ignore => exact Iff.rfl
  case added hpc =>
    simp only [hpc]
    split <;> simp
  case removed hpc | found hpc | deleted hpc | unlisted hpc => simp [hpc]

theorem Sized.advances (h : Sized inst) (ha : Advances i inst op inst')
    (hg : ∀ {cntId}, (op = .worker i (.create cntId)) →
      (inst.cntIdMap.insert cntId).length ≤ inst.size) : Sized inst' := by
  intro hne
  have h := h (mt ha.absent_iff.mpr hne)
  cases ha
  case none | requested => exact h
  case move hm =>
    cases hm
    case create   => simpa [Pc.isRemoving] using hg rfl
    case ignore   => exact h
    case created hpc =>
      simpa [hpc, Pc.isRemoving] using h
    case tick hpc =>
      simp only [hpc, Pc.isRemoving] at h
      split <;> simpa [Pc.isRemoving] using h
    case receive hpc _ hm =>
      -- The id that is removed from the map is the one that is being removed.
      have hlen := List.length_erase_of_mem hm
      have hpos := List.length_pos_of_mem hm
      simp only [hpc, Pc.isRemoving, Bool.toNat_false, Bool.toNat_true] at h ⊢
      omega
  case added hpc =>
    simp only [hpc, Pc.isRemoving] at h
    split <;> simpa [Pc.isRemoving] using h
  case removed hpc | found hpc | deleted hpc =>
    simp only [hpc, Pc.isRemoving] at h ⊢
    exact h
  case unlisted hpc =>
    simp only [hpc, Pc.isRemoving, Bool.toNat_true, Bool.toNat_false] at h ⊢
    omega

def AllSized (s : Sys) : Prop :=
  ∀ i inst, (s.instances.load i = some inst) → Sized inst

theorem AllSized.init {age : Int} : AllSized (.init p age) := by
  intro i inst hl
  simp only [Sys.init, Heap.load_alloc] at hl
  split at hl
  case isTrue  => cases hl; exact fun hne => absurd rfl hne
  case isFalse => simp at hl

theorem AllSized.step (h : AllSized s) (hs : s.step p op = .ok (s', cs))
    (hg : s.CreatesWithinSize op) : AllSized s' := by
  intro i inst' hl'
  rcases (step_inv hs).instance_inv hl' with ⟨inst, hl, ha⟩ | ⟨delta, hd, hi⟩
  case inl =>
    refine (h i inst hl).advances ha fun hop => ?_
    subst hop
    exact hg inst hl
  case inr =>
    subst hi
    exact fun _ => le_of_lt hd

-- In every run in which functions are only created within the `size` of their instance, the `size` of an
-- instance with a goroutine stays between zero and any value that it had before.
theorem size_bounded (h₀ : Run (GuardedSteps CreatesWithinSize (step p)) (.init p age) ls₀ s₀)
    (h : Run (GuardedSteps CreatesWithinSize (step p)) s₀ ls s)
    (hl : s₀.instances.load i = some inst) (hpc : inst.pc ≠ .absent) :
    ∃ inst', s.instances.load i = some inst' ∧ 0 ≤ inst'.size ∧ inst'.size ≤ inst.size := by
  have hs : AllSized s := (h₀.trans h).invariant .init fun hs ⟨hg, hst⟩ => hs.step hst hg
  have ⟨inst', hl', hpc', hle⟩ : ∃ inst', s.instances.load i = some inst' ∧ inst'.pc ≠ .absent ∧
      inst'.size ≤ inst.size := by
    refine h.invariant (P := fun s => ∃ inst', s.instances.load i = some inst' ∧
      inst'.pc ≠ .absent ∧ inst'.size ≤ inst.size) ⟨inst, hl, hpc, le_refl _⟩ ?_
    intro s l s' ⟨inst₁, hl₁, hpc₁, hle₁⟩ ⟨_, hst⟩
    have ⟨inst₂, hl₂, ha⟩ := (step_inv hst).advances hl₁
    exact ⟨inst₂, hl₂, mt ha.absent_iff.mp hpc₁, le_trans ha.size_le hle₁⟩
  have hz := hs i inst' hl' hpc'
  exact ⟨inst', hl', by omega, hle⟩

-- An instance of size two is started. One of its containers is removed, and a stale request for it is
-- ignored. After the next period the other one is created again.
theorem size_bounded_removal :
    ∃ ls₀ s₀ ls s inst, Run (GuardedSteps CreatesWithinSize (step exampleProvisioner))
        (.init exampleProvisioner 5) ls₀ s₀ ∧
      Run (GuardedSteps CreatesWithinSize (step exampleProvisioner)) s₀ ls s ∧
      s₀.instances.load 1 = some inst ∧ inst.pc ≠ .absent ∧ inst.size = 2 ∧
      ((s.instances.load 1).any fun inst' => inst'.size = 1 ∧ inst'.pc = .select) ∧
      ∃ inst', s.instances.load 1 = some inst' ∧ 0 ≤ inst'.size ∧ inst'.size ≤ inst.size := by
  have ⟨s₀, ls₀, h₀, ht⟩ : ∃ s₀ ls₀, Run (GuardedSteps CreatesWithinSize (step exampleProvisioner))
        (.init exampleProvisioner 5) ls₀ s₀ ∧
      (((s₀.instances.load 1).any fun inst => inst.pc ≠ .absent ∧ inst.size = 2) &&
        passes (restrict CreatesWithinSize (step exampleProvisioner)) s₀ (exampleStart.drop 5 ++
          [.handleScaling, .receive] ++ exampleSend 1 ++ [.handleScaling, .receive] ++ exampleSend 1 ++
          exampleHandle ++ [.worker 1 .receive, .worker 1 .tick, .worker 1 (.create 2),
            .worker 1 .proceed, .worker 1 .proceed]) fun s _ =>
            (s.instances.load 1).any fun inst' => inst'.size = 1 ∧ inst'.pc = .select) = true :=
    Run.of_passes_restrict (exampleStart.take 5) (by decide +kernel)
  have ⟨hany, hp⟩ := Bool.and_eq_true_iff.mp ht
  have ⟨inst, hl, hi⟩ := (Option.any_eq_true ..).mp hany
  have ⟨hpc, hz⟩ := of_decide_eq_true hi
  have ⟨s, ls, h, hs⟩ := Run.of_passes_restrict _ hp
  exact ⟨ls₀, s₀, ls, s, inst, h₀, h, hl, hpc, hz, hs, size_bounded h₀ h hl hpc⟩

-- The goroutine of an instance of size two creates two more containers after the first period. Three
-- of the four containers are removed.
theorem size_negative :
    ∃ ls s inst, Run (Steps (step exampleProvisioner)) (.init exampleProvisioner 5) ls s ∧
      s.instances.load 1 = some inst ∧ inst.size = -1 := by
  have ⟨s, ls, h, ht⟩ : ∃ s ls,
      Run (Steps (step exampleProvisioner)) (.init exampleProvisioner 5) ls s ∧
      ((s.instances.load 1).any fun inst => inst.size = -1) = true :=
    Run.of_passes (exampleStart ++ [.worker 1 .tick,
      .worker 1 (.create 3), .worker 1 .proceed, .worker 1 (.create 4), .worker 1 .proceed,
      .worker 1 .proceed, .register (some 3) (some 0) 3 false 1, .addConnElem 0,
      .register (some 4) (some 0) 4 false 1, .addConnElem 0] ++
      [0, 1, 2].flatMap fun i => [.handleScaling, .receive] ++ exampleSend i ++ exampleHandle)
      (by decide +kernel)
  have ⟨inst, hl, hz⟩ := (Option.any_eq_true ..).mp ht
  exact ⟨ls, s, inst, h, hl, of_decide_eq_true hz⟩

end Cnt.Sys
