import GatewayModel.Nat.PortMapping

open Go Execution

namespace NatContext.PortCntMapping

variable {pc pc' : PortCntMapping} {port : UInt16} {addr oldAddr newAddr : UInt32} {c : CellId}

structure Valid (pc : PortCntMapping) : Prop where
  im : ∀ port c, (pc.im port = some c) → c < pc.cells.size
  rm : ∀ addr c, (pc.rm addr = some c) → c < pc.cells.size

theorem lt_of_set [DecidableEq κ] {m : Map κ CellId} {k k' : κ} {v n n' : CellId}
    (h : ∀ k c, (m k = some c) → c < n) (hn : n ≤ n') (hv : v < n') (hc : m.set k v k' = some c) :
    c < n' := by
  rw [Map.set_apply] at hc
  split at hc
  case isTrue  => exact Option.some.inj hc ▸ hv
  case isFalse => exact Nat.lt_of_lt_of_le (h k' c hc) hn

namespace Valid

theorem new {timeout : Int} : Valid (newPortCntMapping timeout) where
  im := by simp [newPortCntMapping, Map.empty]
  rm := by simp [newPortCntMapping, Map.empty]

theorem set (h : Valid pc) : Valid (pc.set port addr now) := by
  simp only [PortCntMapping.set]
  split
  case h_1 =>
    have hs : (pc.cells.alloc addr).size = pc.cells.size + 1 := Heap.size_alloc
    constructor
    case im => exact fun _ _ => lt_of_set h.im (hs ▸ Nat.le_succ _) (hs ▸ Nat.lt_succ_self _)
    case rm => exact fun _ _ => lt_of_set h.rm (hs ▸ Nat.le_succ _) (hs ▸ Nat.lt_succ_self _)
  case h_2 val hv => exact ⟨fun _ _ => lt_of_set h.im (Nat.le_refl _) (h.rm addr val hv), h.rm⟩

theorem replace (h : Valid pc) : Valid (pc.replace oldAddr newAddr) := by
  simp only [PortCntMapping.replace]
  split
  case h_1 => exact h
  case h_2 => exact ⟨by simpa using h.im, by simpa using h.rm⟩

theorem delete (h : Valid pc) : Valid (pc.delete port) where
  im port c hc := h.im port c (Map.delete_eq_some.mp hc).right
  rm           := h.rm

end Valid

-- The steps that keep to the plain map:
-- * `Set` is called with an address that the reverse map does not know, or whose cell contains it, and
-- * `Replace` is called with an address that the cell of a port contains exactly if it is the cell that
--   the reverse map has for the address.
def Tracks (pc : PortCntMapping) : Op → Prop
  | .set _ addr _      => ∀ c ∈ pc.rm addr, pc.cells.load c = some addr
  | .replace oldAddr _ => ∀ port, ∀ c ∈ pc.im port,
                          (pc.rm oldAddr = some c) ↔ (pc.cells.load c = some oldAddr)
  | .get _ | .delete _ => True

section Lookup

theorem lookup_apply : pc.lookup port = (pc.im port).bind pc.cells.load :=
  rfl

theorem lookup_set (h : Valid pc) (hg : ∀ c ∈ pc.rm addr, pc.cells.load c = some addr) :
    (pc.set port addr now).lookup = pc.lookup.set port addr := by
  funext port'
  rw [lookup_apply, Map.set_apply, lookup_apply]
  simp only [set]
  split
  case h_1 =>
    simp only [Map.set_apply]
    split
    case isTrue  => exact Heap.load_alloc_self
    case isFalse =>
      cases hc : pc.im port'
      case none   => rfl
      case some c => exact Heap.load_alloc_of_lt (h.im port' c hc)
  case h_2 val hv =>
    simp only [Map.set_apply]
    split
    case isTrue  => exact hg val hv
    case isFalse => rfl

theorem lookup_replace (hg : ∀ port, ∀ c ∈ pc.im port,
    (pc.rm oldAddr = some c) ↔ (pc.cells.load c = some oldAddr)) :
    (pc.replace oldAddr newAddr).lookup = PlainMap.replace pc.lookup oldAddr newAddr := by
  have him : (pc.replace oldAddr newAddr).im = pc.im := by
    simp only [replace]
    split <;> rfl
  funext port
  rw [PlainMap.replace, lookup_apply, lookup_apply, him]
  cases hc : pc.im port
  case none   => rfl
  case some c =>
    have hg := hg port c hc
    simp only [Option.bind_some, replace, ← hg]
    split
    case h_1 hr     => simp [hr]
    case h_2 val hr =>
      by_cases hv : c = val
      case pos => simp [hv, hr, hv ▸ hg.mp (hv ▸ hr)]
      case neg => simp [Heap.load_modify_ne hv, hr, Ne.symm hv]

theorem lookup_delete : (pc.delete port).lookup = pc.lookup.delete port := by
  funext port'
  simp only [lookup, delete, Map.delete_apply]
  split <;> rfl

theorem get_eq (h : Valid pc) : pc.get port = .ok ((pc.lookup port).getD 0) := by
  simp only [get, lookup]
  cases hc : pc.im port
  case none   => rfl
  case some c =>
    have ⟨a, ha⟩ := Heap.exists_load (h.im port c hc)
    simp [ha]

end Lookup

theorem step_plain (h : Valid pc) (hg : Tracks pc op) (hs : pc.step op = .ok (pc', out)) :
    Valid pc' ∧ PlainMap.step pc.lookup op = .ok (pc'.lookup, out) := by
  cases op <;> simp only [step, bind_eq_ok, pure_eq_ok, Prod.mk.injEq] at hs
  case set =>
    have ⟨hp, ho⟩ := hs
    subst hp ho
    exact ⟨h.set, by rw [lookup_set h hg]; rfl⟩
  case replace =>
    have ⟨hp, ho⟩ := hs
    subst hp ho
    exact ⟨h.replace, by rw [lookup_replace hg]; rfl⟩
  case delete =>
    have ⟨hp, ho⟩ := hs
    subst hp ho
    exact ⟨h.delete, by rw [lookup_delete]; rfl⟩
  case get =>
    have ⟨a, ha, hp, ho⟩ := hs
    rw [get_eq h] at ha
    cases ha
    subst hp ho
    exact ⟨h, rfl⟩

theorem exists_step (h : Valid pc) (op : Op) : ∃ pc' out, pc.step op = .ok (pc', out) := by
  cases op
  case get port => exact ⟨pc, some _, by simp only [step, get_eq h]; rfl⟩
  all_goals exact ⟨_, _, rfl⟩

-- Every run whose steps keep to the plain map is a run of the plain map with the same results, and no
-- call panics after it.
theorem refines_map (h : Run (GuardedSteps Tracks step) (newPortCntMapping timeout) ls pc) :
    Run (Steps PlainMap.step) .empty ls pc.lookup ∧ ∀ op, ∃ pc' out, pc.step op = .ok (pc', out) := by
  have ⟨m, r, hv, hm⟩ : ∃ m, Run (Steps PlainMap.step) .empty (ls.flatMap fun l => [l]) m ∧
      Valid pc ∧ m = pc.lookup := by
    refine h.simulate (R := fun pc m => Valid pc ∧ m = pc.lookup) ⟨.new, rfl⟩ ?_
    intro pc l pc' m ⟨hv, hm⟩ ⟨hg, hs⟩
    have ⟨hv', hp⟩ := step_plain hv hg hs
    exact ⟨pc'.lookup, .single (hm ▸ hp), hv', rfl⟩
  subst hm
  exact ⟨by simpa using r, exists_step hv⟩

-- The reverse map is exact for an address: its cell contains the address, and no other cell does.
def Exact (pc : PortCntMapping) (addr : UInt32) : Prop :=
  (∀ c ∈ pc.rm addr, pc.cells.load c = some addr) ∧
  (∀ c < pc.cells.size, (pc.cells.load c = some addr) → pc.rm addr = some c)

instance : Decidable (Exact pc addr) :=
  inferInstanceAs (Decidable (_ ∧ _))

def KeepsExact (pc : PortCntMapping) : Op → Prop
  | .set _ addr _      => pc.Exact addr
  | .replace oldAddr _ => pc.Exact oldAddr
  | .get _ | .delete _ => True

instance : (op : Op) → Decidable (KeepsExact pc op)
  | .set _ addr _      => inferInstanceAs (Decidable (pc.Exact addr))
  | .replace oldAddr _ => inferInstanceAs (Decidable (pc.Exact oldAddr))
  | .get _ | .delete _ => .isTrue trivial

theorem KeepsExact.tracks (h : KeepsExact pc op) : Tracks pc op := by
  cases op
  case set => exact h.left
  case replace =>
    intro port c _
    exact ⟨h.left c, fun hc => h.right c (Heap.lt_size_of_load hc) hc⟩
  all_goals trivial

theorem refines_map_shared :
    ∃ ls pc, Run (GuardedSteps Tracks step) (newPortCntMapping 5) ls pc ∧
      (.get 82, some 3) ∈ ls ∧ (.get 80, some 0) ∈ ls ∧
      Run (Steps PlainMap.step) .empty ls pc.lookup := by
  have ⟨pc, ls, h, ht⟩ : ∃ pc ls, Run (GuardedSteps KeepsExact step) (newPortCntMapping 5) ls pc ∧
      decide ((.get 82, some 3) ∈ ls ∧ (.get 80, some 0) ∈ ls) = true :=
    Run.of_passes_restrict [.set 80 1 0, .set 81 2 0, .set 82 1 0, .replace 1 3, .get 82, .get 81,
      .delete 80, .get 80] (by decide)
  have h : Run (GuardedSteps Tracks step) (newPortCntMapping 5) ls pc :=
    h.mono fun hs => ⟨hs.left.tracks, hs.right⟩
  have ⟨h₁, h₂⟩ := of_decide_eq_true ht
  exact ⟨ls, pc, h, h₁, h₂, (refines_map h).left⟩

-- After the address 1 has been replaced by 2, the reverse map still has the cell under 1. A port that
-- is set to 1 gets the address 2, and a replacement of 2 does not reach the cell.
theorem replaced_address :
    ∃ ls pc, Run (Steps step) (newPortCntMapping 5) ls pc ∧ pc.lookup 80 = some 2 ∧
      (∃ pc', pc.step (.set 81 1 0) = .ok (pc', none) ∧ pc'.lookup 81 = some 2) ∧
      (∃ pc', pc.step (.replace 2 3) = .ok (pc', none) ∧ pc'.lookup 80 = some 2) := by
  have ⟨pc, ls, h, h₀, h₁, h₂⟩ : ∃ pc ls, exec step (newPortCntMapping 5)
      [.set 80 1 0, .replace 1 2] = .ok (pc, ls) ∧ pc.lookup 80 = some 2 ∧
      (pc.set 81 1 0).lookup 81 = some 2 ∧ (pc.replace 2 3).lookup 80 = some 2 :=
    ⟨_, _, rfl, by decide, by decide, by decide⟩
  exact ⟨ls, pc, .of_exec h, h₀, ⟨_, rfl, h₁⟩, ⟨_, rfl, h₂⟩⟩

end NatContext.PortCntMapping
