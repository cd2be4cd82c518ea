import Mathlib.Data.Set.Card
import GatewayModel.Lib.Go

namespace Go.Map

variable {κ : Type u} {ν : Type v} {m : Map κ ν} {k : κ} {v w : ν}

def keysOf (m : Map κ ν) (v : ν) : Set κ :=
  { k | m k = some v }

theorem keysOf_eq_empty (h : ∀ k, m k ≠ some v) : m.keysOf v = ∅ :=
  Set.eq_empty_of_forall_notMem h

variable [DecidableEq κ]

theorem keysOf_set_ne (h : m k ≠ some w) (hv : v ≠ w) : (m.set k v).keysOf w = m.keysOf w := by
  ext k'
  by_cases hk : k' = k
  case pos => simp [keysOf, hk, h, hv]
  case neg => simp [keysOf, Map.set_ne hk]

theorem keysOf_delete_ne (h : m k ≠ some w) : (m.delete k).keysOf w = m.keysOf w := by
  ext k'
  by_cases hk : k' = k
  case pos => simp [keysOf, hk, h]
  case neg => simp [keysOf, Map.delete_ne hk]

variable [Finite κ]

theorem ncard_keysOf_set (h : m k ≠ some v) :
    ((m.set k v).keysOf v).ncard = (m.keysOf v).ncard + 1 := by
  have hs : (m.set k v).keysOf v = insert k (m.keysOf v) := by
    ext k'
    by_cases hk : k' = k
    case pos => simp [keysOf, hk]
    case neg => simp [keysOf, Map.set_ne hk, hk]
  have hk : k ∉ m.keysOf v := h
  rw [hs, Set.ncard_insert_of_notMem hk (Set.toFinite _)]

theorem ncard_keysOf_delete (h : m k = some v) :
    ((m.delete k).keysOf v).ncard + 1 = (m.keysOf v).ncard := by
  have hs : (m.delete k).keysOf v = m.keysOf v \ {k} := by
    ext k'
    by_cases hk : k' = k
    case pos => simp [keysOf, hk]
    case neg => simp [keysOf, Map.delete_ne hk, hk]
  have hk : k ∈ m.keysOf v := h
  rw [hs, Set.ncard_sdiff_singleton_add_one hk (Set.toFinite _)]

end Go.Map
