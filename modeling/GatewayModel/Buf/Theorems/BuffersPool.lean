import Mathlib.Data.List.Perm.Basic
import GatewayModel.Buf.BuffersPool

open Go Execution

namespace Buf

section Memset

variable {slice : Bytes} {val : UInt8}

theorem take_extend (hlt : i < slice.length) (h : slice.take i = List.replicate i val) :
    (extend slice i).take (i * 2) = List.replicate (min (i * 2) slice.length) val := by
  have hl : (slice.drop i).length = slice.length - i := List.length_drop
  rw [extend, copy, h, List.take_replicate, List.length_replicate, hl, ← List.append_assoc,
    List.replicate_append_replicate]
  by_cases hle : i * 2 ≤ slice.length
  case pos =>
    rw [List.take_append_of_le_length (by simp; omega), List.take_replicate]
    congr 1
    omega
  case neg =>
    rw [List.drop_of_length_le (by omega), List.append_nil, List.take_replicate]
    congr 1
    omega

theorem memsetLoop_eq {hi : 0 < i} (hlen : slice.length < 2 ^ 62)
    (h : slice.take i = List.replicate (min i slice.length) val) :
    memsetLoop slice i hi = .ok (List.replicate slice.length val) := by
  fun_induction memsetLoop slice i hi
  case case1 slice i hi hlt _ ih =>
    rw [ih (by rwa [length_extend]), length_extend]
    rw [length_extend]
    exact take_extend hlt (by rwa [Nat.min_eq_left (Nat.le_of_lt hlt)] at h)
  case case2 => omega
  case case3 slice i hi hge =>
    have hle : slice.length ≤ i := Nat.le_of_not_lt hge
    rw [List.take_of_length_le hle, Nat.min_eq_right hle] at h
    rw [← h]

theorem memset_eq (h : slice.length < 2 ^ 62) :
    memset slice val = .ok (List.replicate slice.length val) := by
  rw [memset]
  split
  case isTrue hz => rw [hz, List.eq_nil_of_length_eq_zero hz]; rfl
  case isFalse hz =>
    cases slice
    case nil        => contradiction
    case cons b bs =>
      have h₁ : ((b :: bs).set 0 val).take 1 = List.replicate (min 1 (val :: bs).length) val := by simp
      exact memsetLoop_eq (by simpa using h) h₁

-- Each byte becomes `val`, and there are as many as before.
theorem memset_fills (h : slice.length < 2 ^ 62) (val : UInt8) :
    ∃ slice', memset slice val = .ok slice' ∧ slice'.length = slice.length ∧
      ∀ b ∈ slice', b = val := by
  refine ⟨_, memset_eq h, List.length_replicate, fun b hb => ?_⟩
  exact List.eq_of_mem_replicate hb

theorem memset_fills_five :
    ([1, 2, 3, 4, 5] : Bytes).length < 2 ^ 62 ∧
    ∃ slice', memset [1, 2, 3, 4, 5] 9 = .ok slice' ∧ slice'.length = 5 ∧ ∀ b ∈ slice', b = 9 := by
  have h : ([1, 2, 3, 4, 5] : Bytes).length < 2 ^ 62 := by decide
  exact ⟨h, memset_fills h 9⟩

end Memset

inductive Effect (bp : BuffersPool) : Op → BuffersPool → Option BufId → Prop
  | next (hq : bp.pool.queue = b :: c.queue) (hc : c.cap = bp.pool.cap) :
    Effect bp .next { bp with pool := c, held := b :: bp.held } (some b)
  | write (hm : b ∈ bp.held) :
    Effect bp (.write b i val) { bp with buffers := bp.buffers.modify b fun buff => buff.set i val } none
  | release (hm : b ∈ bp.held) (hq : c.queue = bp.cleanChan.queue ++ [b])
    (hc : c.cap = bp.cleanChan.cap) :
    Effect bp (.release b) { bp with cleanChan := c, held := bp.held.erase b } none
  | receive (hi : bp.cleaners[i]? = some .receive) (hq : bp.cleanChan.queue = b :: c.queue)
    (hc : c.cap = bp.cleanChan.cap) :
    Effect bp (.cleaner i)
      { bp with cleanChan := c, cleaners := bp.cleaners.set i (.memset b) } none
  | memset (hi : bp.cleaners[i]? = some (.memset b)) (hl : bp.buffers.load b = some buff)
    (hs : Buf.memset buff 0 = .ok buff') :
    Effect bp (.cleaner i) { bp with
      buffers := bp.buffers.modify b fun _ => buff', cleaners := bp.cleaners.set i (.send b) } none
  | send (hi : bp.cleaners[i]? = some (.send b)) (hq : c.queue = bp.pool.queue ++ [b])
    (hc : c.cap = bp.pool.cap) :
    Effect bp (.cleaner i) { bp with pool := c, cleaners := bp.cleaners.set i .receive } none

variable {bp bp' : BuffersPool} {buffSize : UInt16} {poolSize : UInt8} {b : BufId} {out : Option BufId}

theorem cleanUpRoutine_inv (h : bp.cleanUpRoutine i = .ok bp') :
    Effect bp (.cleaner i) bp' none := by
  simp only [BuffersPool.cleanUpRoutine] at h
  split at h
  case h_1 => contradiction
  case h_2 hi =>
    split at h
    case h_1 => contradiction
    case h_2 hr =>
      cases h
      have ⟨hq, hc⟩ := Channel.receive_eq_some hr
      exact .receive hi hq hc
  case h_3 hi =>
    split at h
    case h_1 => contradiction
    case h_2 hm =>
      cases h
      have ⟨buff, hl, hs⟩ := bind_eq_ok.mp hm
      exact .memset hi (deref_eq_ok.mp hl) hs
  case h_4 hi =>
    split at h
    case h_1 => contradiction
    case h_2 hs =>
      cases h
      have ⟨hq, hc⟩ := Channel.send_eq_some hs
      exact .send hi hq hc

theorem step_inv (h : bp.step op = .ok (bp', out)) : Effect bp op bp' out := by
  cases op
  case next =>
    simp only [BuffersPool.step, BuffersPool.next] at h
    split at h
    case h_1 => contradiction
    case h_2 hr =>
      cases h
      have ⟨hq, hc⟩ := Channel.receive_eq_some hr
      exact .next hq hc
  case write =>
    simp only [BuffersPool.step] at h
    split at h
    case isTrue hm => cases h; exact .write hm
    case isFalse   => contradiction
  case release =>
    simp only [BuffersPool.step, BuffersPool.release] at h
    split at h
    case isFalse   => contradiction
    case isTrue hm =>
      split at h
      case h_1 => contradiction
      case h_2 hs =>
        cases h
        have ⟨hq, hc⟩ := Channel.send_eq_some hs
        exact .release hm hq hc
  case cleaner i =>
    simp only [BuffersPool.step] at h
    cases hr : bp.cleanUpRoutine i <;> rw [hr] at h <;> cases h
    exact cleanUpRoutine_inv hr

section Ownership

def BuffersPool.owned (bp : BuffersPool) : List BufId :=
  bp.pool.queue ++ bp.cleanChan.queue ++ bp.cleaners.filterMap Cleaner.buffer ++ bp.held

theorem Effect.owned_perm (h : Effect bp op bp' out) : bp'.owned.Perm bp.owned := by
  rw [List.perm_iff_count]
  intro x
  cases h <;> simp only [BuffersPool.owned, List.count_append]
  case next hq hc =>
    simp only [hq, List.count_cons]
    omega
  case release hm hq hc =>
    have hp := (List.perm_cons_erase hm).count_eq x
    simp only [hq, List.count_append, List.count_cons, List.count_nil] at hp ⊢
    omega
  case receive b _ hi hq hc =>
    have hs := count_filterMap_set (f := Cleaner.buffer) hi (.memset b) x
    simp only [Cleaner.buffer, Option.toList_none, Option.toList_some, List.count_nil,
      List.count_cons] at hs
    simp only [hq, List.count_cons]
    omega
  case memset b _ _ hi _ _ =>
    have hs := count_filterMap_set (f := Cleaner.buffer) hi (.send b) x
    simp only [Cleaner.buffer] at hs
    omega
  case send hi hq hc =>
    have hs := count_filterMap_set (f := Cleaner.buffer) hi .receive x
    simp only [Cleaner.buffer, Option.toList_none, Option.toList_some, List.count_nil,
      List.count_cons] at hs
    simp only [hq, List.count_append, List.count_cons, List.count_nil]
    omega

end Ownership

section Clean

-- What holds in all reachable states: every buffer has one owner, and those that are in the pool or on
-- their way to it are clean.
structure Sound (buffSize : UInt16) (poolSize : UInt8) (bp : BuffersPool) : Prop where
  owned     : bp.owned.Perm (List.range poolSize.toNat)
  pool      : bp.pool.cap = poolSize.toNat
  cleanChan : bp.cleanChan.cap = poolSize.toNat
  cleaners  : bp.cleaners.length = (poolSize / 10).toNat
  length    : ∀ b < poolSize.toNat, ∃ buff, bp.buffers.load b = some buff ∧ buff.length = buffSize.toNat
  clean     : ∀ b, (b ∈ bp.pool.queue ∨ .send b ∈ bp.cleaners) →
    bp.buffers.load b = some (List.replicate buffSize.toNat 0)

namespace Sound

variable (i : Sound buffSize poolSize bp)
include i

theorem nodup : bp.owned.Nodup :=
  i.owned.nodup_iff.mpr List.nodup_range

theorem lt_of_mem (h : b ∈ bp.owned) : b < poolSize.toNat :=
  List.mem_range.mp (i.owned.mem_iff.mp h)

omit i in
theorem mem_owned_of_cleaner {c : Cleaner} (hc : c ∈ bp.cleaners) (hb : c.buffer = some b) :
    b ∈ bp.cleaners.filterMap Cleaner.buffer :=
  List.mem_filterMap.mpr ⟨c, hc, hb⟩

theorem not_clean_of_held (h : b ∈ bp.held) : ¬ (b ∈ bp.pool.queue ∨ .send b ∈ bp.cleaners) := by
  intro hc
  have hd := (List.nodup_append.mp i.nodup).right.right
  refine hd b ?_ b h rfl
  cases hc
  case inl hc => simp [hc]
  case inr hc => exact List.mem_append_right _ (mem_owned_of_cleaner hc rfl)

theorem exists_memset (hm : .memset b ∈ bp.cleaners) :
    ∃ buff, bp.buffers.load b = some buff ∧
      memset buff 0 = .ok (List.replicate buffSize.toNat 0) := by
  have hb : b ∈ bp.owned :=
    List.mem_append_left _ (List.mem_append_right _ (mem_owned_of_cleaner hm rfl))
  have ⟨buff, hl, hn⟩ := i.length b (i.lt_of_mem hb)
  have hlt : buff.length < 2 ^ 62 := by
    have := buffSize.toNat_lt
    omega
  exact ⟨buff, hl, by rw [memset_eq hlt, hn]⟩

theorem memset_eq_zeros (hm : .memset b ∈ bp.cleaners) (hl : bp.buffers.load b = some buff)
    (hs : memset buff 0 = .ok buff') : buff' = List.replicate buffSize.toNat 0 := by
  have ⟨_, hl', hs'⟩ := i.exists_memset hm
  cases hl.symm.trans hl'
  exact Except.ok.inj (hs.symm.trans hs')

theorem effect_length (h : Effect bp op bp' out) (b : BufId) (hb : b < poolSize.toNat) :
    ∃ buff, bp'.buffers.load b = some buff ∧ buff.length = buffSize.toNat := by
  have ⟨buff, hl, hn⟩ := i.length b hb
  cases h
  case write b' j val hm =>
    by_cases he : b = b'
    case pos => exact ⟨buff.set j val, by simp [← he, hl], by simpa using hn⟩
    case neg => exact ⟨buff, by rwa [Heap.load_modify_ne he], hn⟩
  case memset j b' buff₁ buff₂ hi hl₁ hs =>
    have hz := i.memset_eq_zeros (List.mem_of_getElem? hi) hl₁ hs
    by_cases he : b = b'
    case pos => exact ⟨buff₂, by simp [← he, hl], by simp [hz]⟩
    case neg => exact ⟨buff, by rwa [Heap.load_modify_ne he], hn⟩
  all_goals exact ⟨buff, hl, hn⟩

theorem effect_clean (h : Effect bp op bp' out) (b : BufId)
    (hb : b ∈ bp'.pool.queue ∨ .send b ∈ bp'.cleaners) :
    bp'.buffers.load b = some (List.replicate buffSize.toNat 0) := by
  cases h
  case next hq hc    => exact i.clean b (hb.imp_left fun hb => by simp [hq, hb])
  case release       => exact i.clean b hb
  case receive hi hq hc =>
    refine i.clean b (hb.imp_right fun hb => ?_)
    exact (List.mem_or_eq_of_mem_set hb).resolve_right (by simp)
  case write b' _ _ hm =>
    have hne : b ≠ b' := fun he => i.not_clean_of_held (he ▸ hm) hb
    rw [Heap.load_modify_ne hne]
    exact i.clean b hb
  case memset b' buff buff' hi hl hs =>
    have hz := i.memset_eq_zeros (List.mem_of_getElem? hi) hl hs
    by_cases he : b = b'
    case pos => simp [he, hl, hz]
    case neg =>
      rw [Heap.load_modify_ne he]
      refine i.clean b (hb.imp_right fun hb => ?_)
      exact (List.mem_or_eq_of_mem_set hb).resolve_right (by simp [he])
  case send b' _ hi hq hc =>
    refine i.clean b ?_
    cases hb
    case inl hb =>
      rcases List.mem_append.mp (hq ▸ hb) with hb | hb
      case inl => exact .inl hb
      case inr => exact .inr (List.mem_singleton.mp hb ▸ List.mem_of_getElem? hi)
    case inr hb => exact .inr ((List.mem_or_eq_of_mem_set hb).resolve_right (by simp))

theorem effect (h : Effect bp op bp' out) : Sound buffSize poolSize bp' where
  owned     := h.owned_perm.trans i.owned
  pool      := by cases h <;> simp_all [i.pool]
  cleanChan := by cases h <;> simp_all [i.cleanChan]
  cleaners  := by cases h <;> simp [i.cleaners]
  length    := i.effect_length h
  clean     := i.effect_clean h

theorem length_owned : bp.pool.queue.length + bp.cleanChan.queue.length +
    (bp.cleaners.filterMap Cleaner.buffer).length + bp.held.length = poolSize.toNat := by
  simpa [BuffersPool.owned, Nat.add_assoc] using i.owned.length_eq

theorem cleanChan_not_full (h : b ∈ bp.held) : bp.cleanChan.queue.length < bp.cleanChan.cap := by
  have hl := i.length_owned
  have hp := List.length_pos_of_mem h
  rw [i.cleanChan]
  omega

theorem pool_not_full (h : .send b ∈ bp.cleaners) : bp.pool.queue.length < bp.pool.cap := by
  have hl := i.length_owned
  have hp := List.length_pos_of_mem (mem_owned_of_cleaner h rfl)
  rw [i.pool]
  omega

theorem release_enabled (h : b ∈ bp.held) : ∃ r, bp.step (.release b) = .ok r := by
  have ⟨c, hc⟩ := Channel.exists_send b (i.cleanChan_not_full h)
  simp only [BuffersPool.step, if_pos h, BuffersPool.release, hc]
  exact ⟨_, rfl⟩

theorem send_enabled (h : bp.cleaners[j]? = some (.send b)) : ∃ r, bp.step (.cleaner j) = .ok r := by
  have ⟨c, hc⟩ := Channel.exists_send b (i.pool_not_full (List.mem_of_getElem? h))
  simp only [BuffersPool.step, BuffersPool.cleanUpRoutine, h, hc]
  exact ⟨_, rfl⟩

theorem memset_enabled (h : bp.cleaners[j]? = some (.memset b)) :
    ∃ r, bp.step (.cleaner j) = .ok r := by
  have ⟨buff, hl, hs⟩ := i.exists_memset (List.mem_of_getElem? h)
  simp only [BuffersPool.step, BuffersPool.cleanUpRoutine, h, hl, deref_some, ok_bind, hs]
  exact ⟨_, rfl⟩

omit i in
theorem receive_enabled (h : bp.cleaners[j]? = some .receive) (hq : bp.cleanChan.queue ≠ []) :
    ∃ r, bp.step (.cleaner j) = .ok r := by
  have ⟨r, hr⟩ := Channel.exists_receive hq
  simp only [BuffersPool.step, BuffersPool.cleanUpRoutine, h, hr]
  exact ⟨_, rfl⟩

end Sound

structure Filled (buffSize : UInt16) (poolSize : UInt8) (k : Nat) (bp : BuffersPool) : Prop where
  queue     : bp.pool.queue = List.range k
  cap       : bp.pool.cap = poolSize.toNat
  size      : bp.buffers.size = k
  zeros     : ∀ b < k, bp.buffers.load b = some (List.replicate buffSize.toNat 0)
  cleanChan : bp.cleanChan = .make poolSize.toNat
  cleaners  : bp.cleaners = List.replicate (poolSize / 10).toNat .receive
  held      : bp.held = []

theorem Filled.fill_eq_ok (f : Filled buffSize poolSize k bp) (h : k + n = poolSize.toNat) :
    ∃ bp', bp.fill buffSize n = .ok bp' ∧ Filled buffSize poolSize poolSize.toNat bp' := by
  induction n generalizing k bp
  case zero =>
    rw [Nat.add_zero] at h
    exact ⟨bp, rfl, h ▸ f⟩
  case succ n hi =>
    have hlt : bp.pool.queue.length < bp.pool.cap := by
      rw [f.queue, f.cap, List.length_range]
      omega
    have ⟨c, hs⟩ := Channel.exists_send bp.buffers.size hlt
    have ⟨hq, hc⟩ := Channel.send_eq_some hs
    have f' : Filled buffSize poolSize (k + 1) { bp with
        buffers := bp.buffers.alloc (List.replicate buffSize.toNat 0), pool := c } := {
      queue     := by rw [hq, f.queue, f.size, List.range_succ]
      cap       := hc.trans f.cap
      size      := by simp [f.size]
      zeros     := fun b hb => by
        rw [Heap.load_alloc, f.size]
        split
        case isTrue  => rfl
        case isFalse => exact f.zeros b (by omega)
      cleanChan := f.cleanChan
      cleaners  := f.cleaners
      held      := f.held
    }
    simp only [BuffersPool.fill, hs]
    exact hi f' (by omega)

theorem Filled.start : Filled buffSize poolSize 0 (.start poolSize) where
  queue     := rfl
  cap       := rfl
  size      := rfl
  zeros b h := absurd h (Nat.not_lt_zero b)
  cleanChan := rfl
  cleaners  := rfl
  held      := rfl

theorem Filled.sound (f : Filled buffSize poolSize poolSize.toNat bp) : Sound buffSize poolSize bp where
  owned     := by
    have hc : (List.replicate (poolSize / 10).toNat .receive).filterMap Cleaner.buffer = [] := by
      simp only [List.filterMap_eq_nil_iff, List.mem_replicate]
      rintro c ⟨-, hc⟩
      rw [hc]
      rfl
    rw [BuffersPool.owned, f.queue, f.cleanChan, f.cleaners, f.held, hc]
    simp [Channel.make]
  pool      := f.cap
  cleanChan := by rw [f.cleanChan]; rfl
  cleaners  := by rw [f.cleaners, List.length_replicate]
  length b hb := ⟨_, f.zeros b hb, List.length_replicate⟩
  clean b hb := by
    cases hb
    case inl hb => exact f.zeros b (by simpa [f.queue] using hb)
    case inr hb => simp [f.cleaners] at hb

theorem newBuffersPool_sound (buffSize : UInt16) (poolSize : UInt8) :
    ∃ bp, BuffersPool.newBuffersPool buffSize poolSize = .ok bp ∧ Sound buffSize poolSize bp := by
  have f₀ : Filled buffSize poolSize 0 (.start poolSize) := .start
  have ⟨bp, h, f⟩ := f₀.fill_eq_ok (Nat.zero_add poolSize.toNat)
  exact ⟨bp, h, f.sound⟩

end Clean

section Runs

theorem Sound.run (i : Sound buffSize poolSize bp) (h : Run (Steps BuffersPool.step) bp ls bp') :
    Sound buffSize poolSize bp' :=
  h.invariant i fun i hs => i.effect (step_inv hs)

-- Every buffer has exactly one owner, no send blocks, and `Next` returns zeros.
theorem buffers_kept_clean (buffSize : UInt16) (poolSize : UInt8) :
    ∃ bp₀, BuffersPool.newBuffersPool buffSize poolSize = .ok bp₀ ∧
      ∀ ls bp, (Run (Steps BuffersPool.step) bp₀ ls bp) →
        bp.owned.Perm (List.range poolSize.toNat) ∧
        (bp.pool.queue.length ≤ poolSize.toNat ∧ bp.cleanChan.queue.length ≤ poolSize.toNat) ∧
        (∀ b ∈ bp.held, ∃ r, bp.step (.release b) = .ok r) ∧
        (∀ j b, (bp.cleaners[j]? = some (.send b)) → ∃ r, bp.step (.cleaner j) = .ok r) ∧
        ∀ bp' b, (bp.step .next = .ok (bp', some b)) →
          bp'.buffers.load b = some (List.replicate buffSize.toNat 0) := by
  have ⟨bp₀, h₀, i₀⟩ := newBuffersPool_sound buffSize poolSize
  refine ⟨bp₀, h₀, fun ls bp h => ?_⟩
  have i := i₀.run h
  refine ⟨i.owned, ⟨?_, ?_⟩, fun b => i.release_enabled, fun j b => i.send_enabled, fun bp' b hn => ?_⟩
  case refine_1 => exact i.pool ▸ bp.pool.le
  case refine_2 => exact i.cleanChan ▸ bp.cleanChan.le
  case refine_3 =>
    cases step_inv hn
    case next hq => exact i.clean b (.inl (by simp [hq]))

def passesNew (buffSize : UInt16) (poolSize : UInt8) (ops : List Op) (test : BuffersPool → Bool) :
    Bool :=
  match BuffersPool.newBuffersPool buffSize poolSize with
  | .ok bp₀  => passes BuffersPool.step bp₀ ops fun bp _ => test bp
  | .error _ => false

theorem exists_run_of_passesNew {bp₀ : BuffersPool}
    (h₀ : BuffersPool.newBuffersPool buffSize poolSize = .ok bp₀) (ops : List Op)
    (test : BuffersPool → Bool) (h : passesNew buffSize poolSize ops test = true) :
    ∃ bp ls, Run (Steps BuffersPool.step) bp₀ ls bp ∧ test bp = true := by
  simp only [passesNew, h₀] at h
  exact Run.of_passes ops h

theorem buffers_kept_clean_reuse : ∃ bp₀ ls bp,
    BuffersPool.newBuffersPool 3 10 = .ok bp₀ ∧ Run (Steps BuffersPool.step) bp₀ ls bp ∧
    bp.pool.queue = [0] ∧ bp.held.length = 9 ∧
    ∀ bp' b, (bp.step .next = .ok (bp', some b)) →
      bp'.buffers.load b = some (List.replicate 3 0) := by
  have ⟨bp₀, h₀, hs⟩ := buffers_kept_clean 3 10
  have ⟨bp, ls, h, ht⟩ := exists_run_of_passesNew h₀
    ([.next, .write 0 1 7, .release 0, .cleaner 0, .cleaner 0, .cleaner 0] ++ List.replicate 9 .next)
    (fun bp => bp.pool.queue = [0] ∧ bp.held.length = 9) (by decide +kernel)
  have ⟨hq, hl⟩ := of_decide_eq_true ht
  have ⟨_, _, _, _, hz⟩ := hs ls bp h
  exact ⟨bp₀, ls, bp, h₀, h, hq, hl, hz⟩

-- No client will ever get a buffer again.
def Stuck (bp : BuffersPool) : Prop :=
  bp.held = [] ∧ bp.pool.queue = [] ∧ ∀ j r, bp.step (.cleaner j) ≠ .ok r

theorem Sound.not_stuck (i : Sound buffSize poolSize bp) (h : 10 ≤ poolSize.toNat) : ¬ Stuck bp := by
  intro ⟨hh, hp, hc⟩
  have hno : ∀ {j}, ¬ ∃ r, bp.step (.cleaner j) = .ok r := fun ⟨r, hr⟩ => hc _ r hr
  have hall : ∀ c ∈ bp.cleaners, c = .receive := by
    intro c hm
    have ⟨j, hj⟩ := List.mem_iff_getElem?.mp hm
    cases c
    case receive => rfl
    case memset  => exact absurd (i.memset_enabled hj) hno
    case send    => exact absurd (i.send_enabled hj) hno
  have hnone : bp.cleaners.filterMap Cleaner.buffer = [] :=
    List.filterMap_eq_nil_iff.mpr fun c hm => by rw [hall c hm]; rfl
  have hq : bp.cleanChan.queue ≠ [] := by
    have hl := i.length_owned
    intro he
    simp [hh, hp, hnone, he] at hl
    omega
  have hlt : 0 < bp.cleaners.length := by
    rw [i.cleaners, UInt8.toNat_div]
    exact Nat.div_pos h (by decide)
  have hj : bp.cleaners[0]? = some .receive := by
    rw [List.getElem?_eq_getElem hlt, hall _ (List.getElem_mem hlt)]
  exact hno (receive_enabled hj hq)

-- A pool of at least ten buffers has a cleaner and never gets stuck.
theorem pool_never_stuck (h : 10 ≤ poolSize.toNat) :
    ∃ bp₀, BuffersPool.newBuffersPool buffSize poolSize = .ok bp₀ ∧
      ∀ ls bp, (Run (Steps BuffersPool.step) bp₀ ls bp) → ¬ Stuck bp := by
  have ⟨bp₀, h₀, i₀⟩ := newBuffersPool_sound buffSize poolSize
  exact ⟨bp₀, h₀, fun ls bp hr => (i₀.run hr).not_stuck h⟩

theorem pool_never_stuck_ten :
    10 ≤ (10 : UInt8).toNat ∧
    ∃ bp₀, BuffersPool.newBuffersPool 1500 10 = .ok bp₀ ∧
      ∀ ls bp, (Run (Steps BuffersPool.step) bp₀ ls bp) → ¬ Stuck bp := by
  have h : 10 ≤ (10 : UInt8).toNat := by decide
  exact ⟨h, pool_never_stuck h⟩

-- The pool of the TCP handler has no cleaner. It gets stuck when its five buffers have been used.
theorem pool_gets_stuck : ∃ bp₀ ls bp,
    BuffersPool.newBuffersPool 65535 5 = .ok bp₀ ∧ Run (Steps BuffersPool.step) bp₀ ls bp ∧
    Stuck bp := by
  have ⟨bp₀, h₀, _⟩ := newBuffersPool_sound 65535 5
  have ⟨bp, ls, h, ht⟩ := exists_run_of_passesNew h₀
    [.next, .release 0, .next, .release 1, .next, .release 2, .next, .release 3, .next, .release 4]
    (fun bp => bp.held = [] ∧ bp.pool.queue = [] ∧ bp.cleaners = []) (by decide +kernel)
  have ⟨hh, hp, hc⟩ := of_decide_eq_true ht
  refine ⟨bp₀, ls, bp, h₀, h, hh, hp, fun j r => ?_⟩
  simp [BuffersPool.step, BuffersPool.cleanUpRoutine, hc, bind, Except.bind]

end Runs
end Buf
