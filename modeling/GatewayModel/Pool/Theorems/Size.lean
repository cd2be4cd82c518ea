import GatewayModel.Pool.Theorems.Ring

open Go Execution RoundRobin CircularList

-- `ConnPool.Size`, which is not called, and does not count as `SizeNoLock` does.
namespace Pool.State

variable {s : State}

theorem cappedSizeLoop_eq (hc : (a :: l).IsChain (Linked s.nextOf s.prevOf)) (nd : (a :: l).Nodup)
    (ht : s.tailElem = (a :: l).getLast?) (hi : i ≤ 6) :
    s.cappedSizeLoop (some a) i = .ok (min (i + l.length) 6) := by
  induction l generalizing a i
  case nil =>
    have ha : some a = s.tailElem := ht.symm
    rw [cappedSizeLoop, if_pos ha, List.length_nil, Nat.add_zero, Nat.min_eq_left hi]
  case cons b l hl =>
    obtain ⟨hab, hc'⟩ := List.isChain_cons_cons.mp hc
    obtain ⟨ha, nd'⟩ := List.nodup_cons.mp nd
    rw [List.getLast?_cons_cons] at ht
    have hne : some a ≠ s.tailElem := fun h => ha (List.mem_of_mem_getLast? (ht.symm.trans h.symm))
    rw [cappedSizeLoop, if_neg hne]
    split
    case isTrue hgt =>
      have : i = 6 := by omega
      simp [this]
    case isFalse hle =>
      rw [hab.left, hl hc' nd' ht (by omega), List.length_cons]
      congr 2
      omega

-- `Size` does not count the tail, nor any element after the sixth.
theorem size_undercounts (h : PoolRun age ls s) :
    s.size = .ok (min ((live (trace ls)).length - 1) 6) := by
  obtain ⟨r, hr⟩ := exists_refines h
  have hh := hr.represents.head
  have ht := hr.represents.tail
  have hc := hr.represents.ring.links
  have nd := hr.represents.order_nodup
  rw [size, ← hr.history.order_eq]
  generalize r.order = l at *
  cases l
  case nil      => rw [cappedSizeLoop.eq_def, if_pos (hh.trans ht.symm)]; rfl
  case cons a l =>
    rw [hh, List.head?_cons, cappedSizeLoop_eq hc nd ht (Nat.zero_le 6), Nat.zero_add, List.length_cons,
      Nat.add_sub_cancel]

theorem size_undercounts_three :
    ∃ ls s, PoolRun 5 ls s ∧ s.sizeNoLock 3 = some (.ok 3) ∧ s.size = .ok 2 := by
  obtain ⟨s, ls, h, ht⟩ : ∃ s ls, PoolRun 5 ls s ∧
      decide (live (trace ls) = [0, 1, 2]) = true :=
    Run.of_passes [.add (some 0) (some 0) 0 false 10, .add (some 1) (some 1) 1 false 10,
      .add (some 2) (some 2) 2 true 10] (by decide)
  have hl := of_decide_eq_true ht
  obtain ⟨r, hr⟩ := exists_refines h
  have ho : r.order.length = 3 := by rw [hr.history.order_eq, hl]; rfl
  have hs := size_undercounts h
  rw [hl] at hs
  have hn : s.sizeNoLock 3 = some (.ok r.order.length) := hr.represents.sizeNoLock ho.le
  exact ⟨ls, s, h, ho ▸ hn, hs⟩

end Pool.State
