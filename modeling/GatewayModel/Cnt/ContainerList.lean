import Mathlib.Algebra.Order.Field.Rat
import GatewayModel.Lib.Slice
import GatewayModel.Pool.State

open Go Pool

-- `cnt/containerlist.go`. A container list is its slice `lst`, since `duration` is not used.
namespace Cnt

abbrev ContainerList := Slice ContainerId

namespace ContainerList

def addContainer (cl : ContainerList) (cnt : ContainerId) : ContainerList :=
  cl.push cnt

-- The loop of `RemoveContainer` from index `idx` on, with `n` iterations to go. It ranges over the
-- array in which the removal moves the elements.
def removeLoop (cnt : ContainerId) (cl : ContainerList) (idx : Nat) : Nat → Result ContainerList
  | 0     => .ok cl
  | n + 1 =>
    if cl.array[idx]? = some cnt then do
      let cl ← if idx + 1 ≠ cl.len then cl.cut idx else cl.upTo idx
      removeLoop cnt cl (idx + 1) n
    else
      removeLoop cnt cl (idx + 1) n

def removeContainer (cl : ContainerList) (cnt : ContainerId) : Result ContainerList :=
  removeLoop cnt cl 0 cl.len

def min (a b : Int8) : Int8 :=
  if a < b
  then a
  else b

def isEmpty (cl : ContainerList) : Bool :=
  cl.len = 0

-- The inner loop of `GetContainer`, with the index `i`. It returns from within the loop if a container
-- has fewer flows than the one before it, and it returns the one before it.
def getLoop (s : State) (cl : ContainerList) : Nat → Result (Option ContainerId)
  | 0     => .ok none
  | i + 1 => do
    let cnt  ← index cl.toList (i + 1)
    let prev ← index cl.toList i
    let c ← s.container (some cnt)
    let p ← s.container (some prev)
    let fMin := min c.fluxes p.fluxes
    if fMin ≠ p.fluxes
    then return some prev
    else getLoop s cl i

-- `GetContainer`, with `n` rounds of its outer loop to go. It does not return as long as the list is
-- empty, for which the inner loop would start with index -1.
def getContainer (s : State) (cl : ContainerList) : Nat → Result (Option ContainerId)
  | 0     => .ok none
  | n + 1 =>
    if cl.isEmpty then
      getContainer s cl n
    else
      match cl.len with
      | 0     => getContainer s cl n
      | i + 1 => do
        match ← getLoop s cl i with
        | some cnt => return some cnt
        | none     => return some (← index cl.toList 0)

def loadTerm (c : Container) : Result UInt32 :=
  if c.maxFluxes = 0
  then .error .divideByZero
  else .ok (min 1 (c.fluxes / c.maxFluxes)).toInt32.toUInt32

def loadSum (s : State) (sum : UInt32) : List ContainerId → Result UInt32
  | [] => .ok sum
  | cnt :: cnts => do
    let c    ← s.container (some cnt)
    let term ← loadTerm c
    loadSum s (sum + term) cnts

-- `GetLoadPercentage`. The load of an empty list is not a number.
def getLoadPercentage (s : State) (cl : ContainerList) : Result (Nat × Option ℚ) := do
  let sum ← loadSum s 0 cl.toList
  if cl.len = 0
  then return (cl.len, none)
  else return (cl.len, some (sum.toNat / cl.len))

end ContainerList
end Cnt
