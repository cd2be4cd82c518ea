import GatewayModel.Pool.Concurrent.Threads

open Go Execution

-- The semaphores that concurrent calls of `Get` return.
namespace Pool.Concurrent

-- Every flow with a container has a semaphore. The converse does not hold, as an expired watcher
-- leaves the semaphore of its flow behind.
def Guarded (s : State) : Prop :=
  ∀ crc, (s.crcContainer crc ≠ none) → s.crc2lock crc ≠ none

def Pc.Guarded : Pc → Prop
  | .touch l | .check l => (l.container ≠ none) → l.lock ≠ none
  | .done _ lock        => lock ≠ none
  | .lookup | .next | .addCrc _ | .assign _ | .inc .. | .watch .. => True

namespace Guarded

variable {s s' : State} {crc : Crc} {ce : ElemId}

theorem init {age : Int} : Guarded (.init age) := by
  intro crc h
  simp [State.init, Map.empty] at h

theorem mono (h : Guarded s) (hk : s'.crc2lock = s.crc2lock)
    (hc : ∀ crc, (s'.crcContainer crc ≠ none) → s.crcContainer crc ≠ none) : Guarded s' :=
  fun crc hx => hk ▸ h crc (hc crc hx)

theorem congr (h : Guarded s) (hk : s'.crc2lock = s.crc2lock)
    (hc : s'.crcContainer = s.crcContainer) : Guarded s' :=
  h.mono hk fun _ => hc ▸ id

theorem assign (h : Guarded s) : Guarded (s.assign crc e) := by
  intro crc' hx
  simp only [State.assign, Map.set_apply] at hx ⊢
  split
  case isTrue     => simp
  case isFalse hn => exact h crc' (by simpa [hn] using hx)

theorem block {pc pc' : Pc} (h : Guarded s) (hb : Blocked s crc pc s' pc') : Guarded s' := by
  cases hb
  case assign => exact h.assign
  all_goals exact h.congr rfl rfl

theorem deleteBlock (h : Guarded s) (hb : DeleteBlocked s ce pc s' pc') : Guarded s' := by
  cases hb
  case unlink hu => cases hu <;> exact h.congr rfl rfl
  case gone hu =>
    cases hu
    exact h.congr rfl rfl
  case clear hc =>
    have ⟨_, _, _, hs⟩ := State.clear_inv hc
    exact h.congr (hs ▸ rfl) (hs ▸ rfl)
  case next hn =>
    have ⟨_, _, _, hs⟩ := State.next_inv hn
    exact h.congr (hs ▸ rfl) (hs ▸ rfl)
  case remap hm =>
    have ⟨_, hs⟩ := State.remap_eq hm
    exact h.congr (hs ▸ rfl) (hs ▸ rfl)
  all_goals exact h.congr rfl rfl

theorem forget (h : Guarded s) (w : Watcher) : Guarded (s.forget w) := by
  cases ho : w.origin <;> simp only [State.forget, ho]
  case delete => exact h.congr rfl rfl
  case get =>
    exact h.mono rfl fun crc hx => (not_or.mp (mt Map.delete_eq_none.mpr hx)).right

end Guarded

-- The lookup reads the container and the semaphore of a flow in one block, and the fast path is only
-- taken by a call that has found a container.
theorem Pc.Guarded.block {pc pc' : Pc} {s s' : State} {crc : Crc} (h : pc.Guarded)
    (hs : Concurrent.Guarded s) (hb : Blocked s crc pc s' pc') : pc'.Guarded := by
  cases hb
  case lookup => exact hs crc
  case touch  => exact h
  case done   => exact h
  case hit hf =>
    have ⟨_, _, _, _, hc, _⟩ := State.fastPath_inv hf
    exact h (by simp [hc])
  case watch => exact Option.some_ne_none _
  all_goals trivial

namespace Threads

structure AllGuarded (t : Threads) : Prop where
  pool : Guarded t.pool
  gets : ∀ c ∈ t.gets, c.pc.Guarded

namespace AllGuarded

variable {t t' : Threads} {s : State}

theorem init {age : Int} : AllGuarded (.init age) where
  pool := .init
  gets := by simp [Threads.init]

theorem step (h : AllGuarded t) (hs : Stepped t op t' evs) : AllGuarded t' := by
  cases hs
  case idle   => exact h
  case delete => exact ⟨h.pool, h.gets⟩
  case check  => exact ⟨h.pool.congr rfl rfl, h.gets⟩
  case count  => exact ⟨h.pool.congr rfl rfl, h.gets⟩
  case stop   => exact ⟨h.pool.congr rfl rfl, h.gets⟩
  case wait   => exact ⟨h.pool.congr rfl rfl, h.gets⟩
  case remove => exact ⟨h.pool.forget _, h.gets⟩
  case add ha =>
    refine ⟨h.pool.congr ?_ ?_, h.gets⟩ <;> cases ha <;> rfl
  case get =>
    refine ⟨h.pool, fun c hc => ?_⟩
    cases List.mem_append.mp hc
    case inl hc => exact h.gets c hc
    case inr hc =>
      cases List.mem_singleton.mp hc
      trivial
  case runGet hi hb =>
    have hb := block_inv hb
    refine ⟨h.pool.block hb, fun c hc => ?_⟩
    cases List.mem_or_eq_of_mem_set hc
    case inl hc => exact h.gets c hc
    case inr hc => exact hc ▸ (h.gets _ (List.mem_of_getElem? hi)).block h.pool hb
  case runDelete hb => exact ⟨h.pool.deleteBlock hb, h.gets⟩

end AllGuarded

-- Every completed call of `Get` returns a semaphore, however the blocks of the calls of `Get` and
-- `Delete` and of the watchers are interleaved.
theorem get_semaphore {age : Int} (h : Run (Steps step) (.init age) ls t)
    (hd : ⟨crc, .done conn lock⟩ ∈ t.gets) : lock ≠ none := by
  have ht : AllGuarded t := h.invariant .init fun ht hs => ht.step (step_inv hs)
  exact ht.gets _ hd

-- The first call takes the slow path. Then element 0 is deleted, the flow expires between the
-- lookup and the check of the second call, which takes the fast path, and the third call takes the
-- slow path again.
theorem get_semaphore_interleaved :
    ∃ ls t, Run (Steps step) (.init 5) ls t ∧
      t.gets.map (·.pc) = [.done (some 0) (some 0), .done (some 1) (some 0), .done (some 1) (some 1)] ∧
      (∀ crc conn lock, (⟨crc, .done conn lock⟩ ∈ t.gets) → lock ≠ none) := by
  have ⟨t, ls, h, ht⟩ : ∃ t ls, Run (Steps step) (.init 5) ls t ∧
      decide (t.gets.map (·.pc) = [.done (some 0) (some 0), .done (some 1) (some 0),
        .done (some 1) (some 1)]) = true :=
    Run.of_passes ([.add true (some 0) 0 false 10, .add true (some 1) 1 false 10, .get 7] ++
      exampleGet 0 ++ [.delete 0] ++ List.replicate 7 (.runDelete 0) ++
      [.wait 10, .check 0, .get 7, .runGet 1, .expire 0, .expire 0] ++ List.replicate 2 (.runGet 1) ++
      [.get 7] ++ exampleGet 2) (by decide +kernel)
  exact ⟨ls, t, h, of_decide_eq_true ht, fun crc conn lock hd => get_semaphore h hd⟩

end Threads
end Pool.Concurrent
