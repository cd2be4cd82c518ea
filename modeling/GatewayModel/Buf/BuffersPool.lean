import Mathlib.Algebra.Group.Nat.Defs
import GatewayModel.Lib.Channel
import GatewayModel.Lib.Execution

open Go Execution

-- The pool of byte buffers in `utils/bytes_utils.go`.
namespace Buf

abbrev Bytes := List UInt8

section Memset

variable {α : Type u} {dst src : List α} {slice : Bytes}

def copy (dst src : List α) : List α :=
  src.take dst.length ++ dst.drop src.length

theorem length_copy : (copy dst src).length = dst.length := by
  rw [copy, List.length_append, List.length_take, List.length_drop]
  omega

-- `copy(slice[i:], slice[:i])`.
def extend (slice : Bytes) (i : Nat) : Bytes :=
  slice.take i ++ copy (slice.drop i) (slice.take i)

@[simp]
theorem length_extend : (extend slice i).length = slice.length := by
  rw [extend, List.length_append, length_copy, ← List.length_append, List.take_append_drop]

-- The loop of `Memset`. An `int` that is doubled beyond its range becomes negative, which passes the
-- test of the loop and is out of range in `slice[i:]`.
def memsetLoop (slice : Bytes) (i : Nat) (h : 0 < i) : Result Bytes :=
  if i < slice.length then
    if i * 2 < 2 ^ 63
    then memsetLoop (extend slice i) (i * 2) (by omega)
    else .error .sliceOutOfRange
  else
    .ok slice
termination_by slice.length - i
decreasing_by
  rw [length_extend]
  omega

def memset (slice : Bytes) (val : UInt8) : Result Bytes :=
  if slice.length = 0
  then .ok slice
  else memsetLoop (slice.set 0 val) 1 Nat.one_pos

end Memset

-- A buffer is identified by a pointer. Buffers are allocated by the pool only.
abbrev BufId := Nat

inductive Cleaner
  | receive
  | memset (b : BufId)
  | send (b : BufId)
  deriving Repr, DecidableEq

def Cleaner.buffer : Cleaner → Option BufId
  | .receive  => none
  | .memset b => some b
  | .send b   => some b

structure BuffersPool where
  pool      : Channel BufId
  cleanChan : Channel BufId
  buffers   : Heap Bytes
  cleaners  : List Cleaner
  held      : List BufId

-- A client writes a byte to a buffer that it holds, or releases it. It does neither after that.
inductive Op
  | next
  | write (b : BufId) (i : Nat) (val : UInt8)
  | release (b : BufId)
  | cleaner (i : Nat)
  deriving Repr, DecidableEq

namespace BuffersPool

variable (bp : BuffersPool)

-- The state of `NewBuffersPool` before its second loop. The first one starts the cleaners.
def start (poolSize : UInt8) : BuffersPool where
  pool      := .make poolSize.toNat
  cleanChan := .make poolSize.toNat
  buffers   := .empty
  cleaners  := List.replicate (poolSize / 10).toNat .receive
  held      := []

def fill (buffSize : UInt16) (bp : BuffersPool) : Nat → Except Halt BuffersPool
  | 0     => .ok bp
  | n + 1 =>
    match bp.pool.send bp.buffers.size with
    | none      => .error .blocked
    | some pool => fill buffSize { bp with
        buffers := bp.buffers.alloc (List.replicate buffSize.toNat 0)
        pool    := pool
      } n

def newBuffersPool (buffSize : UInt16) (poolSize : UInt8) : Except Halt BuffersPool :=
  fill buffSize (start poolSize) poolSize.toNat

def next : Except Halt (BuffersPool × BufId) :=
  match bp.pool.receive with
  | none           => .error .blocked
  | some (b, pool) => .ok ({ bp with pool := pool, held := b :: bp.held }, b)

def release (b : BufId) : Except Halt BuffersPool :=
  match bp.cleanChan.send b with
  | none           => .error .blocked
  | some cleanChan => .ok { bp with cleanChan := cleanChan, held := bp.held.erase b }

def cleanUpRoutine (i : Nat) : Except Halt BuffersPool :=
  match bp.cleaners[i]? with
  | none          => .error .blocked
  | some .receive =>
    match bp.cleanChan.receive with
    | none                => .error .blocked
    | some (b, cleanChan) => .ok { bp with
        cleanChan := cleanChan
        cleaners  := bp.cleaners.set i (.memset b)
      }
  | some (.memset b) =>
    match deref (bp.buffers.load b) >>= (Buf.memset · 0) with
    | .error e => .error (.panic e)
    | .ok buff => .ok { bp with
        buffers  := bp.buffers.modify b fun _ => buff
        cleaners := bp.cleaners.set i (.send b)
      }
  | some (.send b) =>
    match bp.pool.send b with
    | none      => .error .blocked
    | some pool => .ok { bp with pool := pool, cleaners := bp.cleaners.set i .receive }

def step : Op → Except Halt (BuffersPool × Option BufId)
  | .next => do
    let (bp, b) ← bp.next
    return (bp, some b)
  | .write b i val =>
    if b ∈ bp.held
    then return ({ bp with buffers := bp.buffers.modify b fun buff => buff.set i val }, none)
    else .error .blocked
  | .release b =>
    if b ∈ bp.held then do
      let bp ← bp.release b
      return (bp, none)
    else
      .error .blocked
  | .cleaner i => do
    let bp ← bp.cleanUpRoutine i
    return (bp, none)

end BuffersPool
end Buf
