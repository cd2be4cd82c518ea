import GatewayModel.Cnt.Registration
import GatewayModel.Cnt.Theorems.Lifecycle

open Go Execution RoundRobin Pool

namespace Cnt

namespace Lifecycle

variable {l : Lifecycle} {evs : Trace} {r : Rotation ElemId}

structure Grown (l l' : Lifecycle) (c : Container) : Prop where
  ring      : l'.registry.pool.headToTail = l.registry.pool.headToTail ++ [l.registry.pool.elems.size]
  list      : l'.registry.lst.toList = l.registry.lst.toList ++ [l.registry.pool.elems.size]
  elem      : l'.registry.pool.containerOf l.registry.pool.elems.size = some l.registry.pool.elems.size
  container : l'.registry.pool.containers.load l.registry.pool.elems.size = some c

theorem Listed.exists_register (h : Listed l evs r) (conn : Option ConnId) (addr : Option UInt32)
    (cntId : UInt16) (repl : Bool) (m : Int8) :
    ∃ l' tr, l.register conn addr cntId repl m = .ok (l', tr) ∧
      Grown l l' ⟨addr, 0, cntId, repl, m⟩ := by
  have hr : State.Represents { l.registry.pool with
      containers := l.registry.pool.containers.alloc ⟨addr, 0, cntId, repl, m⟩ } r ∅ :=
    h.refines.represents.congr rfl rfl rfl rfl (fun _ => rfl) (le_refl _)
  obtain ⟨s, ha⟩ := hr.exists_add conn (some l.registry.pool.containers.size)
  have hreg : l.register conn addr cntId repl m = .ok (⟨⟨s, l.registry.lst.addContainer
      l.registry.pool.containers.size⟩, l.timers ++ [(l.registry.pool.elems.size,
      l.registry.pool.containers.size)]⟩, [.add l.registry.pool.elems.size]) := by
    simp [Lifecycle.register, Registry.step, State.step, State.register, ha, bind, Except.bind, pure,
      Except.pure]
  obtain ⟨r', h'⟩ := h.register hreg
  have hlive : live (evs ++ [.add l.registry.pool.elems.size]) =
      live evs ++ [l.registry.pool.elems.size] := h.refines.live_add
  refine ⟨_, _, hreg, ?_⟩
  constructor
  case ring => rw [h'.refines.headToTail, h.refines.headToTail, hlive]
  case list => rw [h'.list, h.list, hlive]
  case elem => exact h'.intact.has _ (by simp [hlive])
  case container =>
    have hc : s.containers = l.registry.pool.containers.alloc ⟨addr, 0, cntId, repl, m⟩ := by
      cases State.add_inv ha <;> rfl
    simp [hc, ← h.intact.size]

end Lifecycle

namespace Actions

variable {g g' : Actions} {name : Str} {info : ContainerInfo} {cep : ConnElemProvisioner}

structure Sound (g : Actions) : Prop where
  cil    : ∀ name, g.cil name ≠ none ↔ name = nat
  a2c    : ∀ name, g.a2c name ≠ none ↔ name = nat
  listed : ∀ name info, (g.cil name = some info) → ∃ evs r, info.lifecycle.Listed evs r

theorem set_ne_none_iff {m : Map Str ν} (h : m name = some v) :
    (m.set name v' k ≠ none) ↔ (m k ≠ none) := by
  rw [Map.set_apply]
  split
  case isTrue hk => simp [hk, h]
  case isFalse   => rfl

namespace Sound

theorem init : Sound initRuleMap where
  cil name := by by_cases h : name = nat <;> simp [initRuleMap, Map.set_apply, Map.empty, h]
  a2c name := by by_cases h : name = nat <;> simp [initRuleMap, Map.set_apply, Map.empty, h]
  listed name info h := by
    simp only [initRuleMap, Map.set_apply] at h
    split at h
    case isTrue  => cases h; exact ⟨[], _, .init⟩
    case isFalse => contradiction

theorem setInfo (h : Sound g) (hi : g.cil name = some info)
    (hl : ∃ evs r, info'.lifecycle.Listed evs r) : Sound { g with cil := g.cil.set name info' } where
  cil k := (set_ne_none_iff hi).trans (h.cil k)
  a2c   := h.a2c
  listed k i hk := by
    simp only [Map.set_apply] at hk
    split at hk
    case isTrue  => cases hk; exact hl
    case isFalse => exact h.listed k i hk

theorem setCep (h : Sound g) (hc : g.a2c name = some cep) :
    Sound { g with a2c := g.a2c.set name cep' } where
  cil    := h.cil
  a2c k  := (set_ne_none_iff hc).trans (h.a2c k)
  listed := h.listed

theorem addEntryToChan (h : Sound g) (hs : g.addEntryToChan tMsg conn = .ok g') : Sound g' := by
  simp only [Actions.addEntryToChan, bind_eq_ok, deref_eq_ok, pure_eq_ok, Prod.exists] at hs
  obtain ⟨info, hi, l, _, hr, cep, hc, hg⟩ := hs
  obtain ⟨_, _, hl⟩ := h.listed _ info hi
  subst hg
  exact (h.setInfo hi ⟨_, hl.register hr⟩).setCep hc

theorem action (h : Sound g) (hs : g.action name op = .ok g') : Sound g' := by
  simp only [Actions.action] at hs
  split at hs
  case h_1 => cases hs; exact h
  case h_2 info hi =>
    simp only [bind_eq_ok, pure_eq_ok, Prod.exists] at hs
    obtain ⟨l, _, hst, hg⟩ := hs
    obtain ⟨_, _, hl⟩ := h.listed _ info hi
    subst hg
    exact h.setInfo hi ⟨_, hl.step hst⟩

theorem forget (h : Sound g) : Sound (g.forget name cntId) := by
  simp only [Actions.forget]
  split
  case h_1    => exact h
  case h_2 hc => exact h.setCep hc

theorem step (h : Sound g) (hs : g.step op = .ok (g', out)) : Sound g' := by
  cases op <;> simp only [Actions.step, bind_eq_ok, pure_eq_ok, Prod.mk.injEq, and_true] at hs
  case addEntryToChan =>
    have ⟨_, ha, hg⟩ := hs
    exact hg ▸ h.addEntryToChan ha
  case action =>
    have ⟨_, ha, hg⟩ := hs
    exact hg ▸ h.action ha
  case forget => exact hs ▸ h.forget

theorem of_run (h : Run (Steps Actions.step) initRuleMap ls g) : Sound g :=
  h.invariant .init fun h hs => h.step hs

end Sound

-- The container of a message is on the ring and in the list of its action, and the provisioner knows
-- its element and its list under its id.
structure Registered (tMsg : Msg) (g g' : Actions) : Prop where
  keys  : ∀ name, g'.cil name ≠ none ↔ g.cil name ≠ none
  added : ∃ info info' cep ce cnt,
    g.cil (trimActionName tMsg.name) = some info ∧ g'.cil (trimActionName tMsg.name) = some info' ∧
    g'.a2c (trimActionName tMsg.name) = some cep ∧
    info'.lifecycle.registry.pool.headToTail = info.lifecycle.registry.pool.headToTail ++ [ce] ∧
    info'.lifecycle.registry.pool.containerOf ce = some cnt ∧
    info'.lifecycle.registry.pool.containers.load cnt =
      some ⟨some tMsg.addr, 0, tMsg.cntId, tMsg.repl, info.maxFluxes⟩ ∧
    info'.lifecycle.registry.lst.toList = info.lifecycle.registry.lst.toList ++ [cnt] ∧
    cep.c2e.get tMsg.cntId = some ce ∧ cep.c2l tMsg.cntId = some (trimActionName tMsg.name)

namespace Sound

theorem exists_addEntryToChan (h : Sound g) (hn : trimActionName tMsg.name = nat)
    (conn : Option ConnId) : ∃ g', g.addEntryToChan tMsg conn = .ok g' ∧ Registered tMsg g g' := by
  have ⟨info, hi⟩ := Option.ne_none_iff_exists'.mp ((h.cil _).mpr hn)
  have ⟨cep, hc⟩ := Option.ne_none_iff_exists'.mp ((h.a2c _).mpr hn)
  have ⟨_, _, hl⟩ := h.listed _ info hi
  have ⟨l, tr, hr, hg⟩ :=
    hl.exists_register conn (some tMsg.addr) tMsg.cntId tMsg.repl info.maxFluxes
  refine ⟨_, by simp [Actions.addEntryToChan, hi, hc, hr, bind, Except.bind]; rfl, ?_⟩
  constructor
  case keys  => exact fun _ => set_ne_none_iff hi
  case added =>
    refine ⟨info, _, _, _, _, hi, Map.set_self, Map.set_self, hg.ring, hg.elem, hg.container, hg.list,
      ?_, Map.set_self⟩
    simp [ConnElemProvisioner.addConnElem, Table.get_set]

theorem addEntryToChan_of_ne (h : Sound g) (hn : trimActionName tMsg.name ≠ nat) :
    g.addEntryToChan tMsg conn = .error .nilDereference := by
  have hi : g.cil (trimActionName tMsg.name) = none := not_not.mp (mt (h.cil _).mp hn)
  simp [Actions.addEntryToChan, hi, bind, Except.bind]

end Sound

-- In every run, the registration of a container of the action "nat" is complete, and for every other
-- name it panics.
theorem registration_complete (h : Run (Steps step) initRuleMap ls g) (tMsg : Msg)
    (conn : Option ConnId) :
    ((∃ g', g.addEntryToChan tMsg conn = .ok g' ∧ Registered tMsg g g') ↔
      trimActionName tMsg.name = nat) ∧
    (g.addEntryToChan tMsg conn = .error .nilDereference ↔ trimActionName tMsg.name ≠ nat) := by
  have h := Sound.of_run h
  constructor
  case left =>
    refine ⟨?_, fun hn => h.exists_addEntryToChan hn conn⟩
    rintro ⟨g', ha, _⟩
    by_contra hn
    cases ha.symm.trans (h.addEntryToChan_of_ne hn)
  case right =>
    refine ⟨fun he hn => ?_, h.addEntryToChan_of_ne⟩
    obtain ⟨g', ha, _⟩ := h.exists_addEntryToChan hn conn
    cases ha.symm.trans he

def exampleMsg (cntId : UInt16) (name : Str) : Msg where
  addr  := 0x0a000001
  port  := 9000
  cntId := cntId
  repl  := false
  name  := name ++ [0, 0, 120]

def ringOf (g : Actions) (name : Str) : Option (List ElemId) :=
  (g.cil name).map (·.lifecycle.registry.pool.headToTail)

theorem registration_complete_again :
    ∃ ls g g', Run (Steps step) initRuleMap ls g ∧ g.ringOf nat = some [] ∧
      g.addEntryToChan (exampleMsg 3 nat) none = .ok g' ∧ Registered (exampleMsg 3 nat) g g' := by
  have ⟨g, ls, h, ht⟩ : ∃ g ls, Run (Steps step) initRuleMap ls g ∧
      decide (g.ringOf nat = some []) = true :=
    Run.of_passes [.addEntryToChan (exampleMsg 3 nat) (some 0), .action nat (.traffic (.get 7)),
      .action nat (.expire 0), .forget nat 3] (by decide)
  have ⟨g', ha, hr⟩ := (registration_complete h (exampleMsg 3 nat) none).left.mpr (by decide)
  exact ⟨ls, g, g', h, of_decide_eq_true ht, ha, hr⟩

-- While there is a container on the ring, one of the action "dhcp" registers, for which there is no
-- entry in `cil`.
theorem registration_of_dhcp :
    ∃ ls g, Run (Steps step) initRuleMap ls g ∧ g.ringOf nat = some [0] ∧
      g.addEntryToChan (exampleMsg 4 [0x64, 0x68, 0x63, 0x70]) (some 1) = .error .nilDereference := by
  have ⟨g, ls, h, ht⟩ : ∃ g ls, Run (Steps step) initRuleMap ls g ∧
      decide (g.ringOf nat = some [0]) = true :=
    Run.of_passes [.addEntryToChan (exampleMsg 3 nat) (some 0)] (by decide)
  exact ⟨ls, g, h, of_decide_eq_true ht, (Sound.of_run h).addEntryToChan_of_ne (by decide)⟩

end Actions
end Cnt
