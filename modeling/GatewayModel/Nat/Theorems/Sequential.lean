import GatewayModel.Nat.Theorems.Helpers

open Go Execution

-- The helpers of a call may run one after the other, in both orders. Then `AssignPorts` is what it is in
-- `CntPortMapping`.
namespace NatContext.Helpers.Sys

variable [Bits β] {s s' : Sys β κ} {k : κ} {n m idx i length : Nat} {offset : UInt16} {acc acc' : List UInt16}
  {h h' : Helper} {b b' : BitSet β} {c c' : Call κ}

omit [Bits β] in
theorem getElem?_update (hn : n < s.helpers.length) : (s.update n h b).helpers[n]? = some h := by
  simp [update, hn]

omit [Bits β] in
theorem update_update : (s.update n h b).update n h' b' = s.update n h' b' := by
  simp [update]

variable [DecidableEq κ]

theorem run_visit (hn : s.helpers[n]? = some ⟨offset, acc, .test idx length i⟩) (hlt : idx < length) :
    let sc := Scan.visit ⟨s.cp.bSet, acc, i⟩ idx
    ∃ ls, Run (Steps step) s ls (s.update n ⟨offset, sc.acc, .test (idx + 1) length sc.i⟩ sc.cnt) ∧
      ∀ l ∈ ls, l = (.helper n, none) := by
  intro sc
  have hlen := (List.getElem?_eq_some_iff.mp hn).fst
  cases ht : s.cp.bSet.test idx
  case true =>
    have hsc : sc = ⟨s.cp.bSet, acc, i⟩ := if_pos ht
    have h₁ : step s (.helper n) =
        .ok (s.update n ⟨offset, acc, .test (idx + 1) length i⟩ s.cp.bSet, none) :=
      step_helper hn (by simp [Helper.step, ht, hlt])
    rw [hsc]
    exact ⟨[(.helper n, none)], .single h₁, by simp⟩
  case false =>
    have hsc : sc = ⟨s.cp.bSet.set idx, acc.set i (UInt16.ofNat idx), i + 1⟩ := if_neg (by simp [ht])
    let s₁ := s.update n ⟨offset, acc, .set idx length i⟩ s.cp.bSet
    have h₁ : step s (.helper n) = .ok (s₁, none) :=
      step_helper hn (by simp [Helper.step, ht, hlt])
    have h₂ : step s₁ (.helper n) = .ok (s₁.update n ⟨offset, acc.set i (UInt16.ofNat idx),
        .test (idx + 1) length (i + 1)⟩ (s.cp.bSet.set idx), none) :=
      step_helper (getElem?_update hlen) rfl
    rw [update_update] at h₂
    rw [hsc]
    exact ⟨[(.helper n, none), (.helper n, none)], (Run.single h₁).tail h₂, by simp⟩

theorem run_loop (hn : s.helpers[n]? = some ⟨offset, acc, .test idx (idx + m) i⟩) :
    let sc := (List.range' idx m).foldl Scan.visit ⟨s.cp.bSet, acc, i⟩
    ∃ ls, Run (Steps step) s ls (s.update n ⟨offset, sc.acc, .send⟩ sc.cnt) ∧
      ∀ l ∈ ls, l = (.helper n, none) := by
  induction m generalizing s idx acc i
  case zero =>
    refine ⟨[(.helper n, none)], .single (step_helper hn ?_), by simp⟩
    simp [Helper.step]
  case succ m hi =>
    have hlen := (List.getElem?_eq_some_iff.mp hn).fst
    rw [show idx + (m + 1) = idx + 1 + m by omega] at hn
    obtain ⟨ls₁, r₁, h₁⟩ := run_visit hn (by omega)
    let sc := Scan.visit ⟨s.cp.bSet, acc, i⟩ idx
    let s₁ := s.update n ⟨offset, sc.acc, .test (idx + 1) (idx + 1 + m) sc.i⟩ sc.cnt
    have hn₁ : s₁.helpers[n]? = some ⟨offset, sc.acc, .test (idx + 1) (idx + 1 + m) sc.i⟩ :=
      getElem?_update hlen
    obtain ⟨ls₂, r₂, h₂⟩ := hi hn₁
    rw [update_update] at r₂
    rw [List.range'_succ, List.foldl_cons]
    refine ⟨ls₁ ++ ls₂, r₁.trans r₂, fun l hl => ?_⟩
    exact (List.mem_append.mp hl).elim (h₁ l) (h₂ l)

theorem run_scan (hn : s.helpers[n]? = some ⟨offset, acc, .nextClear⟩)
    (hf : s.cp.bSet.nextClear offset.toNat = some idx)
    (hs : setHelper offset acc s.cp.bSet = (acc', b')) :
    ∃ ls, Run (Steps step) s ls (s.update n ⟨offset, acc', .send⟩ b') ∧
      ∀ l ∈ ls, l = (.helper n, none) := by
  have hlen := (List.getElem?_eq_some_iff.mp hn).fst
  let s₁ := s.update n ⟨offset, acc, .test idx (idx + 100) 0⟩ s.cp.bSet
  have h₁ : step s (.helper n) = .ok (s₁, none) := step_helper hn (by simp [Helper.step, hf])
  have hn₁ : s₁.helpers[n]? = some ⟨offset, acc, .test idx (idx + 100) 0⟩ := getElem?_update hlen
  obtain ⟨ls, r, hls⟩ := run_loop hn₁
  simp only [setHelper, hf, Option.getD_some, Prod.mk.injEq] at hs
  have r : Run (Steps step) s₁ ls (s.update n ⟨offset, acc', .send⟩ b') := by
    simpa [s₁, update, hs] using r
  refine ⟨(.helper n, none) :: ls, .head h₁ r, fun l hl => ?_⟩
  exact (List.mem_cons.mp hl).elim id (hls l)

theorem run_setHelper (hn : s.helpers[n]? = some ⟨offset, acc, .nextClear⟩) (hc : s.call = some c)
    (hs : setHelper offset acc s.cp.bSet = (acc', b'))
    (hr : ∀ {s : Sys β κ} {h h' : Helper}, (s.call = some c) → (s.helpers[n]? = some h) →
      (h.received = some h') →
      s.step .proceed = .ok ({ s with helpers := s.helpers.set n h', call := some c' }, none)) :
    ∃ ls pc, Run (Steps step) s ls { s.update n ⟨offset, acc', pc⟩ b' with call := some c' } ∧
      ∀ l ∈ ls, l = (.helper n, none) ∨ l = (.proceed, none) := by
  have hlen := (List.getElem?_eq_some_iff.mp hn).fst
  cases hf : s.cp.bSet.nextClear offset.toNat
  case none =>
    let s₁ := s.update n ⟨offset, acc, .sendEarly⟩ s.cp.bSet
    have h₁ : step s (.helper n) = .ok (s₁, none) := step_helper hn (by simp [Helper.step, hf])
    have hn₁ : s₁.helpers[n]? = some ⟨offset, acc, .sendEarly⟩ := getElem?_update hlen
    let s₂ : Sys β κ := { s.update n ⟨offset, acc, .test 0 100 0⟩ s.cp.bSet with call := some c' }
    have h₂ : step s₁ .proceed = .ok (s₂, none) := by
      have h := hr (s := s₁) hc hn₁ rfl
      simpa [s₁, s₂, update] using h
    have hn₂ : s₂.helpers[n]? = some ⟨offset, acc, .test 0 (0 + 100) 0⟩ :=
      getElem?_update (b := s.cp.bSet) hlen
    obtain ⟨ls, r, hls⟩ := run_loop hn₂
    simp only [setHelper, hf, Option.getD_none, Prod.mk.injEq] at hs
    have r : Run (Steps step) s₂ ls
        { s.update n ⟨offset, acc', .send⟩ b' with call := some c' } := by
      simpa [s₂, update, hs] using r
    refine ⟨(.helper n, none) :: (.proceed, none) :: ls, .send, .head h₁ (.head h₂ r), ?_⟩
    grind
  case some idx =>
    obtain ⟨ls, r, hls⟩ := run_scan hn hf hs
    let s₁ := s.update n ⟨offset, acc', .send⟩ b'
    have h₁ : Steps step s₁ (.proceed, none)
        { s.update n ⟨offset, acc', .done⟩ b' with call := some c' } := by
      have h := hr (s := s₁) hc (getElem?_update hlen) rfl
      simpa [Steps, s₁, update] using h
    refine ⟨ls ++ [(.proceed, none)], .done, r.tail h₁, ?_⟩
    grind

def started (s : Sys β κ) (k : κ) : Sys β κ := { s with
  helpers := s.helpers ++ [newHelper 1, newHelper 1025]
  call    := some ⟨k, s.helpers.length, s.helpers.length + 1, .receiveLower⟩
}

def received (s : Sys β κ) (k : κ) (lower upper : Helper) (b : BitSet β) : Sys β κ where
  cp      := { s.cp with bSet := b }
  helpers := s.helpers ++ [lower, upper]
  call    := some ⟨k, s.helpers.length, s.helpers.length + 1, .append⟩

theorem run_return {hL hU : Helper} {ls : List (Op κ × Option (List UInt16))} (hc : s.call = none)
    (r : Run (Steps step) (s.started k) ls (s.received k hL hU b))
    (hls : ∀ l ∈ ls, l.1.OfCall s.helpers.length) :
    ∃ ls s', Run (Steps step) s ((.assignPorts k, none) :: ls) s' ∧
      (∀ l ∈ ls, l.1.OfCall s.helpers.length) ∧ s'.call = none ∧
      s'.cp = { bSet := b, am := s.cp.am.set k (hL.acc ++ hU.acc) } ∧
      (.proceed, some (hL.acc ++ hU.acc)) ∈ ls := by
  have h₁ : step s (.assignPorts k) = .ok (s.started k, none) := by
    simp only [step, assignPorts, hc]
    rfl
  have ha : (s.received k hL hU b).accOf s.helpers.length ++
      (s.received k hL hU b).accOf (s.helpers.length + 1) = hL.acc ++ hU.acc := by
    simp [received, accOf]
  have h₂ : Steps step (s.received k hL hU b) (.proceed, some (hL.acc ++ hU.acc))
      { s.received k hL hU b with
        cp   := { bSet := b, am := s.cp.am.set k (hL.acc ++ hU.acc) }
        call := none } := by
    have h := step_append (s := s.received k hL hU b) rfl
    rwa [ha] at h
  refine ⟨_, _, .head h₁ (r.tail h₂), fun l hl => ?_, rfl, rfl, by simp⟩
  rcases List.mem_append.mp hl with hl | hl
  case inl => exact hls l hl
  case inr => exact List.mem_singleton.mp hl ▸ .proceed

omit [DecidableEq κ] in
theorem ofCall_of_eq {l : Op κ × Option (List UInt16)}
    (h : l = (.helper n, none) ∨ l = (.helper (n + 1), none) ∨ l = (.proceed, none)) :
    l.1.OfCall n := by
  rcases h with he | he | he <;> rw [he]
  case inl     => exact .lower
  case inr.inl => exact .upper
  case inr.inr => exact .proceed

theorem run_assignPorts (hc : s.call = none) (half : Half) (k : κ) :
    ∃ ls s', Run (Steps step) s ((.assignPorts k, none) :: ls) s' ∧
      (∀ l ∈ ls, l.1.OfCall s.helpers.length) ∧ s'.call = none ∧
      s'.cp = (s.cp.assignPorts half k).1 ∧ (.proceed, some (s.cp.assignPorts half k).2) ∈ ls := by
  let n := s.helpers.length
  have hnL : (s.started k).helpers[n]? = some (newHelper 1) := by simp [started, n]
  have hnU : (s.started k).helpers[n + 1]? = some (newHelper 1025) := by simp [started, n]
  cases hf : half.first s.cp.bSet
  case lower =>
    rcases hL : setHelper 1 (List.replicate 100 0) s.cp.bSet with ⟨lower, b₁⟩
    obtain ⟨ls₁, pcL, r₁, hls₁⟩ := run_setHelper hnL rfl hL step_receive_lower
    let s₁ : Sys β κ := { (s.started k).update n ⟨1, lower, pcL⟩ b₁ with
      call := some ⟨k, n, n + 1, .receiveUpper⟩ }
    have hn₁ : s₁.helpers[n + 1]? = some (newHelper 1025) := by simp [s₁, started, n, update]
    rcases hU : setHelper 1025 (List.replicate 100 0) b₁ with ⟨upper, b₂⟩
    obtain ⟨ls₂, pcU, r₂, hls₂⟩ := run_setHelper hn₁ rfl hU step_receive_upper
    have he : { s₁.update (n + 1) ⟨1025, upper, pcU⟩ b₂ with call := some ⟨k, n, n + 1, .append⟩ } =
        s.received k ⟨1, lower, pcL⟩ ⟨1025, upper, pcU⟩ b₂ := by
      simp [s₁, started, received, n, update]
    rw [CntPortMapping.assignPorts_eq hf hL hU]
    refine run_return hc (r₁.trans (he ▸ r₂)) fun l hl => ofCall_of_eq ?_
    grind
  case upper =>
    obtain ⟨idx, hidx⟩ : ∃ idx, s.cp.bSet.nextClear (1025 : UInt16).toNat = some idx := by
      cases half
      case lower => simp [Half.first_lower] at hf
      case upper =>
        refine Option.isSome_iff_exists.mp ?_
        by_contra hn
        exact Half.noConfusion ((if_neg hn).symm.trans hf)
    rcases hU : setHelper 1025 (List.replicate 100 0) s.cp.bSet with ⟨upper, b₁⟩
    obtain ⟨ls₁, r₁, hls₁⟩ := run_scan hnU hidx hU
    let s₁ := (s.started k).update (n + 1) ⟨1025, upper, .send⟩ b₁
    have hn₁ : s₁.helpers[n]? = some (newHelper 1) := by simp [s₁, started, n, update]
    rcases hL : setHelper 1 (List.replicate 100 0) b₁ with ⟨lower, b₂⟩
    obtain ⟨ls₂, pcL, r₂, hls₂⟩ := run_setHelper hn₁ rfl hL step_receive_lower
    let s₂ : Sys β κ := { s₁.update n ⟨1, lower, pcL⟩ b₂ with
      call := some ⟨k, n, n + 1, .receiveUpper⟩ }
    have hn₂ : s₂.helpers[n + 1]? = some ⟨1025, upper, .send⟩ := by simp [s₂, s₁, started, n, update]
    have h₂ : Steps step s₂ (.proceed, none)
        (s.received k ⟨1, lower, pcL⟩ ⟨1025, upper, .done⟩ b₂) := by
      have h := step_receive_upper rfl hn₂ rfl
      simpa [Steps, s₂, s₁, started, received, n, update] using h
    rw [CntPortMapping.assignPorts_eq hf hU hL]
    refine run_return hc (r₁.trans (r₂.tail h₂)) fun l hl => ofCall_of_eq ?_
    grind

theorem exists_run (h : Run (Steps NatContext.step) (State.init : State β κ) ls t) :
    ∃ ls s, Run (Steps step) (init : Sys β κ) ls s ∧ s.call = none ∧ s.cp = t.cp := by
  refine h.invariant (P := fun t => ∃ ls s, Run (Steps step) init ls s ∧ s.call = none ∧ s.cp = t.cp)
    ⟨[], init, .refl, rfl, rfl⟩ ?_
  intro t l t' ⟨ls, s, r, hc, he⟩ hs
  rcases l with ⟨op, out⟩
  cases op <;> cases hs
  case assignPorts half k =>
    have ⟨ls', s', r', _, hc', he', _⟩ := run_assignPorts hc half k
    exact ⟨_, s', r.trans r', hc', he'.trans (congrArg (fun cp => (cp.assignPorts half k).1) he)⟩
  case releasePorts k im =>
    have hs : Steps step s (.releasePorts k im, none)
        { s with cp := s.cp.releasePorts k im } := by
      simp only [Steps, step, releasePorts, hc]
      rfl
    exact ⟨_, _, r.tail hs, hc, congrArg (·.releasePorts k im) he⟩

end NatContext.Helpers.Sys
