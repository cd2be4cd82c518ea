import GatewayModel.Lib.Go

namespace Go

inductive Halt
  | blocked
  | panic (p : Panic)
  deriving Repr, DecidableEq

-- A buffered channel. Its elements are listed oldest first.
structure Channel (α : Type u) where
  cap   : Nat
  queue : List α
  le    : queue.length ≤ cap
  deriving Repr, DecidableEq

namespace Channel

variable {c c' : Channel α} {a : α}

def make (cap : Nat) : Channel α where
  cap   := cap
  queue := []
  le    := Nat.zero_le _

def send (c : Channel α) (a : α) : Option (Channel α) :=
  if h : c.queue.length < c.cap
  then some { cap := c.cap, queue := c.queue ++ [a], le := by rwa [List.length_append] }
  else none

def receive (c : Channel α) : Option (α × Channel α) :=
  match c with
  | ⟨_, [], _⟩           => none
  | ⟨cap, a :: queue, le⟩ => some (a, { cap := cap, queue := queue, le := Nat.le_of_succ_le le })

theorem send_eq_some (h : c.send a = some c') : c'.queue = c.queue ++ [a] ∧ c'.cap = c.cap := by
  simp only [send] at h
  split at h
  case isTrue  => cases h; exact ⟨rfl, rfl⟩
  case isFalse => contradiction

theorem exists_send (a : α) (h : c.queue.length < c.cap) : ∃ c', c.send a = some c' :=
  ⟨_, dif_pos h⟩

theorem receive_eq_some (h : c.receive = some (a, c')) : c.queue = a :: c'.queue ∧ c'.cap = c.cap := by
  rcases c with ⟨cap, _ | ⟨b, queue⟩, le⟩
  case nil  => contradiction
  case cons => cases h; exact ⟨rfl, rfl⟩

theorem exists_receive (h : c.queue ≠ []) : ∃ r, c.receive = some r := by
  rcases c with ⟨cap, _ | ⟨b, queue⟩, le⟩
  case nil  => contradiction
  case cons => exact ⟨_, rfl⟩

end Channel
end Go
