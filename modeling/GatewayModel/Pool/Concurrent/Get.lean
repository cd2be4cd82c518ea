import GatewayModel.Pool.Theorems.Flows

open Go Execution RoundRobin

-- Concurrent calls of `Get`, whose mutex-protected blocks are the atomic steps.
namespace Pool.Concurrent

-- The block that a call of `Get` is going to execute, with the variables that are still in use.
inductive Pc
  | lookup
  | touch  (l : State.Lookup)
  | check  (l : State.Lookup)
  | next
  | addCrc (cpe : ElemId)
  | assign (cpe : ElemId)
  | inc    (cpe : ElemId) (sem : SemId)
  | watch  (cpe : ElemId) (sem : SemId)
  | done   (conn : Option ConnId) (lock : Option SemId)
  deriving Repr, DecidableEq

def block (s : State) (crc : Crc) : Pc → Result (State × Pc)
  | .lookup  => return (s, .touch (s.lookup crc))
  | .touch l => return (s.touch crc, .check l)
  | .check l => do
    if ← s.fastPath l
    then return (s, .done (l.conn.getD none) l.lock)
    else return (s, .next)
  | .next => do
    let (s, cpe) ← s.next
    return (s, .addCrc cpe)
  | .addCrc cpe => return (s.addCrc cpe crc, .assign cpe)
  | .assign cpe => do
    let elem ← s.elem cpe
    return (s.assign crc elem, .inc cpe s.semaphores)
  | .inc cpe sem => do
    let elem ← s.elem cpe
    let s ← s.incFluxes elem.container
    return (s, .watch cpe sem)
  | .watch cpe sem => do
    let elem ← s.elem cpe
    let s ← s.watch { crc := crc, elem := cpe, origin := .get, timeout := s.fluxMaxAge }
    return (s, .done elem.conn (some sem))
  | .done conn lock => return (s, .done conn lock)

def blocks (s : State) (crc : Crc) (pc : Pc) : Nat → Result (State × Pc)
  | 0     => return (s, pc)
  | n + 1 => do
    let (s, pc) ← block s crc pc
    blocks s crc pc n

section Blocks

variable {s s' : State} {crc : Crc} {pc pc' : Pc}

theorem blocks_of_ok (h : block s crc pc = .ok (s', pc')) :
    blocks s crc pc (n + 1) = blocks s' crc pc' n := by
  rw [blocks, h]
  rfl

theorem blocks_of_error (h : block s crc pc = .error p) : blocks s crc pc (n + 1) = .error p := by
  rw [blocks, h]
  rfl

theorem blocks_done : blocks s crc (.done conn lock) n = .ok (s, .done conn lock) := by
  induction n
  case zero      => rfl
  case succ n hi => exact (blocks_of_ok rfl).trans hi

-- The blocks of a call that is not interrupted are the atomic `Get`.
theorem blocks_eq_get (s : State) (crc : Crc) :
    blocks s crc .lookup 8 = do
      let (s, reply) ← s.get crc
      return (s, .done reply.conn reply.lock) := by
  have hl : blocks s crc .lookup 8 = blocks (s.touch crc) crc (.check (s.lookup crc)) 6 := rfl
  rw [hl, State.get]
  generalize s.touch crc = t
  generalize s.lookup crc = l
  cases hf : t.fastPath l
  case error p =>
    have hb : block t crc (.check l) = .error p := by simp only [block, hf]; rfl
    exact blocks_of_error hb
  case ok b =>
    cases b
    case true =>
      have hb : block t crc (.check l) = .ok (t, .done (l.conn.getD none) l.lock) := by
        simp only [block, hf]; rfl
      exact (blocks_of_ok hb).trans blocks_done
    case false =>
      have hb : block t crc (.check l) = .ok (t, .next) := by simp only [block, hf]; rfl
      refine (blocks_of_ok hb).trans ?_
      cases hn : t.next
      case error p =>
        have hb : block t crc .next = .error p := by simp only [block, hn]; rfl
        refine (blocks_of_error hb).trans ?_
        simp [bind, Except.bind]
      case ok q =>
        obtain ⟨t₁, cpe⟩ := q
        have hb : block t crc .next = .ok (t₁, .addCrc cpe) := by simp only [block, hn]; rfl
        have ha : block t₁ crc (.addCrc cpe) = .ok (t₁.addCrc cpe crc, .assign cpe) := rfl
        refine ((blocks_of_ok hb).trans (blocks_of_ok ha)).trans ?_
        simp only [bind, Except.bind, Bool.false_eq_true, if_false]
        generalize t₁.addCrc cpe crc = t₂
        cases he : t₂.elem cpe
        case error p =>
          have hb : block t₂ crc (.assign cpe) = .error p := by simp only [block, he]; rfl
          exact blocks_of_error hb
        case ok e =>
          have hb : block t₂ crc (.assign cpe) = .ok (t₂.assign crc e, .inc cpe t₂.semaphores) := by
            simp only [block, he]; rfl
          refine (blocks_of_ok hb).trans ?_
          have he₃ : (t₂.assign crc e).elem cpe = .ok e := he
          simp only
          generalize t₂.assign crc e = t₃ at he₃ ⊢
          cases hi : t₃.incFluxes e.container
          case error p =>
            have hb : block t₃ crc (.inc cpe t₂.semaphores) = .error p := by
              simp only [block, he₃, bind, Except.bind, hi]
            simpa only [hi] using blocks_of_error hb
          case ok t₄ =>
            have hb : block t₃ crc (.inc cpe t₂.semaphores) = .ok (t₄, .watch cpe t₂.semaphores) := by
              simp only [block, he₃, bind, Except.bind, hi]; rfl
            refine (blocks_of_ok hb).trans ?_
            obtain ⟨_, _, _, _, hs⟩ := State.updateFluxes_inv hi
            have he₄ : t₄.elem cpe = .ok e := hs ▸ he₃
            simp only [blocks, block, he₄, bind, Except.bind]
            cases t₄.watch { crc, elem := cpe, origin := .get, timeout := t₄.fluxMaxAge } <;> rfl

inductive Blocked (s : State) (crc : Crc) : Pc → State → Pc → Prop
  | lookup : Blocked s crc .lookup s (.touch (s.lookup crc))
  | touch  : Blocked s crc (.touch l) (s.touch crc) (.check l)
  | hit    : (s.fastPath l = .ok true) → Blocked s crc (.check l) s (.done (l.conn.getD none) l.lock)
  | miss   : (s.fastPath l = .ok false) → Blocked s crc (.check l) s .next
  | next   : (s.elems.load cpe = some e) →
             Blocked s crc .next { s with currElem := e.next } (.addCrc cpe)
  | addCrc : Blocked s crc (.addCrc cpe) (s.addCrc cpe crc) (.assign cpe)
  | assign : (s.elems.load cpe = some e) →
             Blocked s crc (.assign cpe) (s.assign crc e) (.inc cpe s.semaphores)
  | inc    : Blocked s crc (.inc cpe sem) { s with containers := cs } (.watch cpe sem)
  | watch  : (s.elems.load cpe = some e) →
             Blocked s crc (.watch cpe sem) { s with watchers := ws } (.done e.conn (some sem))
  | done   : Blocked s crc (.done conn lock) s (.done conn lock)

theorem block_inv (h : block s crc pc = .ok (s', pc')) : Blocked s crc pc s' pc' := by
  cases pc <;>
    simp only [block, bind_eq_ok, State.elem_eq_ok, pure_eq_ok, Prod.exists, Prod.mk.injEq] at h
  case lookup => have ⟨h₁, h₂⟩ := h; subst h₁ h₂; exact .lookup
  case touch  => have ⟨h₁, h₂⟩ := h; subst h₁ h₂; exact .touch
  case addCrc => have ⟨h₁, h₂⟩ := h; subst h₁ h₂; exact .addCrc
  case done   => have ⟨h₁, h₂⟩ := h; subst h₁ h₂; exact .done
  case check =>
    have ⟨b, hb, h⟩ := h
    cases b
    case true  => cases h; exact .hit hb
    case false => cases h; exact .miss hb
  case next =>
    have ⟨_, _, hn, h₁, h₂⟩ := h
    have ⟨_, _, he, hs⟩ := State.next_inv hn
    subst h₁ h₂ hs
    exact .next he
  case assign =>
    have ⟨_, he, h₁, h₂⟩ := h
    subst h₁ h₂
    exact .assign he
  case inc =>
    have ⟨_, _, _, hi, h₁, h₂⟩ := h
    have ⟨_, _, _, _, hs⟩ := State.updateFluxes_inv hi
    subst h₁ h₂ hs
    exact .inc
  case watch =>
    have ⟨_, he, _, hw, h₁, h₂⟩ := h
    have ⟨_, hs⟩ := State.watch_inv hw
    subst h₁ h₂ hs
    exact .watch he

end Blocks

structure Call where
  crc : Crc
  pc  : Pc
  deriving Repr, DecidableEq

structure Calls where
  pool  : State
  calls : List Call

inductive Op
  | call (crc : Crc)
  | run (i : Nat)
  | add (conn : Option ConnId) (addr : Option UInt32) (id : UInt16) (repl : Bool) (maxFluxes : Int8)
  | wait (d : Nat)
  deriving Repr, DecidableEq

namespace Calls

def step (c : Calls) : Op → Result (Calls × Unit)
  | .call crc => return ({ c with calls := c.calls ++ [⟨crc, .lookup⟩] }, ())
  | .run i =>
    match c.calls[i]? with
    | none   => return (c, ())
    | some k => do
      let (s, pc) ← block c.pool k.crc k.pc
      return ({ pool := s, calls := c.calls.set i { k with pc := pc } }, ())
  | .add conn addr id repl maxFluxes => do
    let s ← c.pool.register conn addr id repl maxFluxes
    return ({ c with pool := s }, ())
  | .wait d => return ({ c with pool := { c.pool with clock := c.pool.clock + d } }, ())

end Calls

def hit (l : State.Lookup) : Bool :=
  l.conn.isSome && l.container.isSome

namespace Pc

def missed : Pc → Bool
  | .touch l | .check l                => !hit l
  | .next | .addCrc _ | .assign _      => true
  | .lookup | .inc .. | .watch .. | .done .. => false

def reply (s : State) : Pc → Option (Option ConnId × Option SemId)
  | .touch l | .check l                   => if hit l then some (l.conn.getD none, l.lock) else none
  | .inc cpe sem | .watch cpe sem         => some (s.connOf cpe, some sem)
  | .done conn lock                       => some (conn, lock)
  | .lookup | .next | .addCrc _ | .assign _ => none

def elem : Pc → Option ElemId
  | .addCrc cpe | .assign cpe | .inc cpe _ | .watch cpe _ => some cpe
  | _                                                    => none

def overLimit (s : State) : Pc → Bool
  | .check l => hit l && decide (s.fastPath l = .ok false)
  | _        => false

variable {s s' : State} {crc : Crc} {pc pc' : Pc}

theorem eq_lookup (hm : pc.missed = false) (hr : pc.reply s = none) : pc = .lookup := by
  cases pc <;> simp_all [missed, reply]

theorem missed_of_blocked (h : Blocked s crc pc s' pc') (ho : pc.overLimit s = false)
    (hm : pc'.missed) : pc = .lookup ∨ pc.missed := by
  cases h <;> simp_all [missed, overLimit]

theorem reply_of_blocked (h : Blocked s crc pc s' pc') (hl : pc ≠ .lookup) (ha : ∀ cpe, pc ≠ .assign cpe)
    (hr : pc'.reply s' = some a) : pc.reply s = some a := by
  cases h
  case hit hf =>
    have ⟨_, _, _, h₁, h₂, _⟩ := State.fastPath_inv hf
    simpa [reply, hit, h₁, h₂] using hr
  case watch he => simpa [reply, State.connOf_eq he] using hr
  all_goals simp_all [reply]
  case inc => exact hr

end Pc

namespace Calls

def WithinLimit (c : Calls) : Op → Prop
  | .run i => ∀ k ∈ c.calls[i]?, k.pc.overLimit c.pool = false
  | _      => True

-- No call looks its flow up between the lookup of another call that has missed and that call's
-- assignment of the flow.
def Exclusive (c : Calls) : Op → Prop
  | .run i => ∀ k ∈ c.calls[i]?, (k.pc = .lookup) → ∀ k' ∈ c.calls, (k'.crc = k.crc) → ¬ k'.pc.missed
  | _      => True

instance {c : Calls} : (op : Op) → Decidable (c.WithinLimit op)
  | .run i => inferInstanceAs (Decidable (∀ k ∈ c.calls[i]?, k.pc.overLimit c.pool = false))
  | .call _ | .add .. | .wait _ => .isTrue trivial

instance {c : Calls} : (op : Op) → Decidable (c.Exclusive op)
  | .run i => inferInstanceAs (Decidable (∀ k ∈ c.calls[i]?, (k.pc = .lookup) →
                ∀ k' ∈ c.calls, (k'.crc = k.crc) → ¬ k'.pc.missed))
  | .call _ | .add .. | .wait _ => .isTrue trivial

structure Entry (s : State) (crc : Crc) (a : Option ConnId × Option SemId) : Prop where
  conn      : s.crc2conn crc = some a.1
  lock      : s.crc2lock crc = a.2
  container : (s.crcContainer crc).isSome

-- What a call returns agrees with the maps, and a call whose lookup has missed is the only one for
-- its flow that has begun.
structure Consistent (c : Calls) : Prop where
  alloc : ∀ {i : Nat} {k : Call}, (c.calls[i]? = some k) → ∀ e ∈ k.pc.elem, e < c.pool.elems.size
  known : ∀ {i : Nat} {k : Call}, (c.calls[i]? = some k) →
          ∀ a, (k.pc.reply c.pool = some a) → Entry c.pool k.crc a
  alone : ∀ {i j : Nat} {k k' : Call}, (c.calls[i]? = some k) → (c.calls[j]? = some k') → (i ≠ j) →
          (k.crc = k'.crc) → k.pc.missed → k'.pc = .lookup

namespace Consistent

variable {c c' : Calls} {s : State} {i j : Nat} {k k' : Call} {pc : Pc}

theorem init : Consistent ⟨s, []⟩ where
  alloc := by simp
  known := by simp
  alone := by simp

theorem congr (h : Consistent c) (hz : c.pool.elems.size ≤ s.elems.size)
    (hc : ∀ e < c.pool.elems.size, s.connOf e = c.pool.connOf e)
    (h₁ : s.crc2conn = c.pool.crc2conn) (h₂ : s.crc2lock = c.pool.crc2lock)
    (h₃ : s.crcContainer = c.pool.crcContainer) : Consistent { c with pool := s } where
  alone         := h.alone
  alloc hk e he := lt_of_lt_of_le (h.alloc hk e he) hz
  known         := by
    intro i k hk a hr
    have hr' : k.pc.reply c.pool = some a := by
      have ha := h.alloc hk
      cases hpc : k.pc <;> simp_all [Pc.reply, Pc.elem]
    have ⟨h₁', h₂', h₃'⟩ := h.known hk a hr'
    exact ⟨h₁ ▸ h₁', h₂ ▸ h₂', h₃ ▸ h₃'⟩

theorem call (h : Consistent c) : Consistent { c with calls := c.calls ++ [⟨crc, .lookup⟩] } := by
  have hc : ∀ {i : Nat} {k : Call}, ((c.calls ++ [⟨crc, .lookup⟩])[i]? = some k) →
      (c.calls[i]? = some k) ∨ (k.pc = .lookup) := by
    intro i k hk
    rw [List.getElem?_append] at hk
    split at hk
    case isTrue  => exact .inl hk
    case isFalse => exact .inr (by have := List.mem_of_getElem? hk; simp_all)
  constructor
  case alloc =>
    intro i k hk
    cases hc hk
    case inl hk => exact h.alloc hk
    case inr hl => simp [hl, Pc.elem]
  case known =>
    intro i k hk a hr
    cases hc hk
    case inl hk => exact h.known hk a hr
    case inr hl => simp [hl, Pc.reply] at hr
  case alone =>
    intro i j k k' hk hk' hij hcrc hm
    cases hc hk'
    case inr hl => exact hl
    case inl hk' =>
      cases hc hk
      case inl hk => exact h.alone hk hk' hij hcrc hm
      case inr hl => simp [hl, Pc.missed] at hm

theorem entry_of_blocked (h : Consistent c) (hk : c.calls[i]? = some k)
    (hb : Blocked c.pool k.crc k.pc s pc) (hk' : c.calls[j]? = some k') (hij : i ≠ j)
    (hr : k'.pc.reply c.pool = some a) : Entry s k'.crc a := by
  have he := h.known hk' a hr
  generalize hpc : k.pc = pc' at hb
  cases hb
  case assign =>
    have hne : k'.crc ≠ k.crc := by
      intro hcrc
      have := h.alone hk hk' hij hcrc.symm (by simp [hpc, Pc.missed])
      simp [this, Pc.reply] at hr
    constructor
    case conn      => exact (Map.set_ne hne).trans he.conn
    case lock      => exact (Map.set_ne hne).trans he.lock
    case container => simpa [State.assign, Map.set_ne hne] using he.container
  all_goals exact ⟨he.conn, he.lock, he.container⟩

theorem known_of_blocked (h : Consistent c) (hk : c.calls[i]? = some k)
    (hb : Blocked c.pool k.crc k.pc s pc) (hr : pc.reply s = some a) : Entry s k.crc a := by
  have hold := h.known hk a
  generalize hpc : k.pc = pc' at hb hold
  have hrep := Pc.reply_of_blocked (a := a) hb
  cases hb
  case lookup =>
    simp only [Pc.reply, hit, State.lookup, Bool.and_eq_true] at hr
    split at hr
    case isFalse => contradiction
    case isTrue hh =>
      have ⟨conn, hc⟩ := Option.isSome_iff_exists.mp hh.left
      cases hr
      exact ⟨by simp [hc], rfl, hh.right⟩
  case assign e he =>
    have hconn : (c.pool.assign k.crc e).connOf = c.pool.connOf := rfl
    simp only [Pc.reply, hconn, State.connOf_eq he, Option.some.injEq] at hr
    subst hr
    exact ⟨Map.set_self, Map.set_self, by simp [State.assign]⟩
  all_goals
    have := hold (hrep (by simp) (by simp) hr)
    exact ⟨this.conn, this.lock, this.container⟩

theorem elem_of_blocked (h : Consistent c) (hk : c.calls[i]? = some k)
    (hb : Blocked c.pool k.crc k.pc s pc) : ∀ e ∈ pc.elem, e < c.pool.elems.size := by
  have ha := h.alloc hk
  generalize k.pc = pc' at hb ha
  cases hb
  case next he =>
    intro e hm
    cases hm
    exact Heap.lt_size_of_load he
  all_goals simp_all [Pc.elem]

theorem size_of_blocked (hb : Blocked c.pool crc pc s pc') : s.elems.size = c.pool.elems.size := by
  cases hb
  case addCrc => exact State.size_modifyElem ..
  all_goals rfl

theorem connOf_of_blocked (hb : Blocked c.pool crc pc s pc') : s.connOf = c.pool.connOf := by
  cases hb
  case addCrc => exact State.connOf_modifyElem fun _ => rfl
  all_goals rfl

theorem run (h : Consistent c) (hk : c.calls[i]? = some k) (hb : Blocked c.pool k.crc k.pc s pc)
    (hw : k.pc.overLimit c.pool = false)
    (he : (k.pc = .lookup) → ∀ k' ∈ c.calls, (k'.crc = k.crc) → ¬ k'.pc.missed) :
    Consistent { pool := s, calls := c.calls.set i { k with pc := pc } } := by
  have hlt := (List.getElem?_eq_some_iff.mp hk).fst
  have hz := size_of_blocked hb
  have hconn := connOf_of_blocked hb
  have hget : ∀ {j : Nat} {k' : Call}, ((c.calls.set i { k with pc := pc })[j]? = some k') →
      (j = i ∧ k' = { k with pc := pc }) ∨ (i ≠ j ∧ c.calls[j]? = some k') := by
    intro j k' hk'
    rw [List.getElem?_set] at hk'
    by_cases hij : i = j
    case pos =>
      rw [if_pos hij, if_pos (hij ▸ hlt)] at hk'
      exact .inl ⟨hij.symm, (Option.some.inj hk').symm⟩
    case neg => exact .inr ⟨hij, by rwa [if_neg hij] at hk'⟩
  have hrep : ∀ pc : Pc, pc.reply s = pc.reply c.pool := by
    intro pc
    cases pc <;> simp [Pc.reply, hconn]
  constructor
  case alloc =>
    intro j k' hk'
    rw [hz]
    cases hget hk'
    case inl hj => exact hj.right ▸ h.elem_of_blocked hk hb
    case inr hj => exact h.alloc hj.right
  case known =>
    intro j k' hk' a hr
    cases hget hk'
    case inl hj =>
      have ⟨_, hj⟩ := hj
      subst hj
      have hn : Entry s k.crc a := h.known_of_blocked hk hb hr
      exact hn
    case inr hj => exact h.entry_of_blocked hk hb hj.right hj.left (hrep _ ▸ hr)
  case alone =>
    intro j j' k₁ k₂ hk₁ hk₂ hne hcrc hm
    cases hget hk₁
    case inr hj =>
      cases hget hk₂
      case inr hj' => exact h.alone hj.right hj'.right hne hcrc hm
      case inl hj' =>
        -- A call for the same flow is waiting to assign it, so this block cannot be a lookup.
        have ⟨hi, hj'⟩ := hj'
        subst hj'
        have hl := h.alone hj.right hk (hi ▸ hne) hcrc hm
        exact absurd hm (he hl k₁ (List.mem_of_getElem? hj.right) hcrc)
    case inl hj =>
      have ⟨hi, hj⟩ := hj
      subst hj
      cases hget hk₂
      case inl hj' => exact absurd (hi.trans hj'.left.symm) hne
      case inr hj' =>
        cases Pc.missed_of_blocked hb hw hm
        case inr hm' => exact h.alone hk hj'.right hj'.left hcrc hm'
        case inl hl =>
          -- The lookup has missed, so no other call for the flow has got an entry.
          have hm₂ : k₂.pc.missed = false := by
            simpa using he hl k₂ (List.mem_of_getElem? hj'.right) hcrc.symm
          apply Pc.eq_lookup (s := c.pool) hm₂
          cases hr : k₂.pc.reply c.pool
          case none   => rfl
          case some a =>
            have hn := h.known hj'.right a hr
            rw [hl] at hb
            cases hb
            have hcrc : k.crc = k₂.crc := hcrc
            simp [Pc.missed, hit, State.lookup, hcrc, hn.conn, hn.container] at hm

theorem step (h : Consistent c) (hs : Calls.step c op = .ok (c', ()))
    (hw : c.WithinLimit op) (he : c.Exclusive op) : Consistent c' := by
  cases op <;> simp only [Calls.step, bind_eq_ok, pure_eq_ok, Prod.mk.injEq, and_true] at hs
  case call => exact hs ▸ h.call
  case wait => exact hs ▸ h.congr (le_refl _) (fun _ _ => rfl) rfl rfl rfl
  case add  =>
    have ⟨s, hr, hs⟩ := hs
    have ha := State.add_inv hr
    subst hs
    apply h.congr (s := s)
    case hz => exact ha.size ▸ Nat.le_succ _
    case hc => exact fun e he => ha.connOf (ne_of_lt he)
    all_goals cases ha <;> rfl
  case run i =>
    split at hs
    case h_1 =>
      cases hs
      exact h
    case h_2 k hk =>
      simp only [bind_eq_ok, pure_eq_ok, Prod.exists, Prod.mk.injEq, and_true] at hs
      have ⟨s, pc, hb, hs⟩ := hs
      subst hs
      exact h.run hk (block_inv hb) (hw k hk) (he k hk)

end Consistent

-- In every run from a pool without calls in which no call finds a container over its limit, and no
-- call looks its flow up while another one is about to assign it, all calls for the same flow return
-- the same connection and the same semaphore.
theorem affinity
    (h : Run (GuardedSteps (fun c op => c.WithinLimit op ∧ c.Exclusive op) step) ⟨s, []⟩ ls c)
    (h₁ : ⟨crc, .done conn₁ lock₁⟩ ∈ c.calls) (h₂ : ⟨crc, .done conn₂ lock₂⟩ ∈ c.calls) :
    conn₁ = conn₂ ∧ lock₁ = lock₂ := by
  have hc : Consistent c :=
    h.invariant .init fun hc ⟨⟨hw, he⟩, hs⟩ => hc.step hs hw he
  have ⟨_, h₁⟩ := List.mem_iff_getElem?.mp h₁
  have ⟨_, h₂⟩ := List.mem_iff_getElem?.mp h₂
  have e₁ := hc.known h₁ _ rfl
  have e₂ := hc.known h₂ _ rfl
  exact ⟨Option.some.inj (e₁.conn.symm.trans e₂.conn), e₁.lock.symm.trans e₂.lock⟩

theorem affinity_interleaved :
    ∃ s ls₀, PoolRun 5 ls₀ s ∧ live (trace ls₀) = [0, 1] ∧ ∃ ls c,
      Run (GuardedSteps (fun c op => c.WithinLimit op ∧ c.Exclusive op) step) ⟨s, []⟩ ls c ∧
      (⟨7, .done (some 0) (some 0)⟩ ∈ c.calls) ∧ (⟨8, .done (some 1) (some 1)⟩ ∈ c.calls) ∧
      (∀ conn lock, (⟨7, .done conn lock⟩ ∈ c.calls) → conn = some 0 ∧ lock = some 0) := by
  have ⟨s, ls₀, h₀, hl, h⟩ : ∃ s ls₀, exec State.step (.init 5) [.add (some 0) (some 0) 0 false 10,
      .add (some 1) (some 1) 1 false 10] = .ok (s, ls₀) ∧ live (trace ls₀) = [0, 1] ∧
      passes (restrict (fun c op => c.WithinLimit op ∧ c.Exclusive op) step) ⟨s, []⟩
        [.call 7, .call 8, .run 0, .run 1, .run 0, .run 0, .run 0, .run 0, .run 0, .call 7, .call 7,
          .run 2, .run 1, .run 3, .run 2, .run 3, .run 2, .run 3, .run 0, .run 0,
          .run 1, .run 1, .run 1, .run 1, .run 1, .run 1]
        (fun c _ => decide (c.calls = [⟨7, .done (some 0) (some 0)⟩, ⟨8, .done (some 1) (some 1)⟩,
          ⟨7, .done (some 0) (some 0)⟩, ⟨7, .done (some 0) (some 0)⟩])) = true :=
    ⟨_, _, rfl, by decide, by decide⟩
  have ⟨c, ls, hr, hc⟩ := Run.of_passes_restrict _ h
  have hc := of_decide_eq_true hc
  refine ⟨s, ls₀, .of_exec h₀, hl, ls, c, hr, by simp [hc], by simp [hc], fun conn lock hm => ?_⟩
  have h₀ : ⟨7, .done (some 0) (some 0)⟩ ∈ c.calls := by simp [hc]
  exact affinity hr hm h₀

-- Two first calls for the flow 7 both miss, and assign it to different elements.
theorem no_affinity :
    ∃ s ls₀, PoolRun 5 ls₀ s ∧ live (trace ls₀) = [0, 1] ∧ ∃ ls c,
      Run (GuardedSteps WithinLimit step) ⟨s, []⟩ ls c ∧
      c.calls = [⟨7, .done (some 0) (some 0)⟩, ⟨7, .done (some 1) (some 1)⟩] := by
  have ⟨s, ls₀, h₀, hl, h⟩ : ∃ s ls₀, exec State.step (.init 5) [.add (some 0) (some 0) 0 false 10,
      .add (some 1) (some 1) 1 false 10] = .ok (s, ls₀) ∧ live (trace ls₀) = [0, 1] ∧
      passes (restrict WithinLimit step) ⟨s, []⟩
        [.call 7, .call 7, .run 0, .run 1, .run 0, .run 0, .run 0, .run 0, .run 0, .run 0, .run 0,
          .run 1, .run 1, .run 1, .run 1, .run 1, .run 1, .run 1]
        (fun c _ => decide (c.calls = [⟨7, .done (some 0) (some 0)⟩,
          ⟨7, .done (some 1) (some 1)⟩])) = true :=
    ⟨_, _, rfl, by decide, by decide⟩
  have ⟨c, ls, hr, hc⟩ := Run.of_passes_restrict _ h
  exact ⟨s, ls₀, .of_exec h₀, hl, ls, c, hr, of_decide_eq_true hc⟩

end Calls
end Pool.Concurrent
