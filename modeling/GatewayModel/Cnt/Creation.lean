import GatewayModel.Nat.Context
import GatewayModel.Cnt.Provisioner

open Go NatContext

-- The creation of functions by `openwhisk/openwhisk.go`, and the loops that call it.
namespace Cnt

-- The global variables that `CreateFunction` uses. `addrs` are the variables `addrPtr` of all calls so
-- far, whose addresses are the keys of `CPMap.am`.
structure OpenWhisk (β : Type) where
  counter : UInt32
  addrs   : Heap UInt32
  cpMap   : CntPortMapping β Nat
  fresh   : ∀ addr, addrs.size ≤ addr → cpMap.am addr = none

structure Request where
  endpoint      : String
  authorization : String
  contentType   : String
  body          : String
  deriving Repr, DecidableEq

inductive Answer
  | invalid
  | failed
  | response (statusCode : Nat) (text : Option String)
  deriving Repr, DecidableEq

-- The server, and the function of `nflib` that prints ports.
structure Service where
  getStringFromPortSlice : List UInt16 → String
  post                   : Request → Answer

structure Target where
  hostname  : String
  auth      : String
  action    : String
  redisIp   : String
  redisPort : Int

def makeEndpointString (hostname actionName : String) : String :=
  "http://" ++ hostname ++ "/api/v1/namespaces/_/actions/" ++ actionName ++ "?blocking=false"

def paramStr (t : Target) (leasedPortsString : Option String) (cntId : UInt16) (repl : String) :
    String :=
  "\x7b\"address\":\"172.17.0.1\", \"port\":\"9082\", " ++
    (leasedPortsString.elim "" fun ports => "\"leasedPorts\":\"" ++ ports ++ "\", ") ++
    "\"redisIp\":\"" ++ t.redisIp ++ "\"," ++ "\"redisPort\":" ++ toString t.redisPort ++
    ", \"cntId\":\"" ++ toString cntId.toNat ++ "\", \"repl\":\"" ++ repl ++ "\"\x7d"

def request (t : Target) (reqBody : String) : Request where
  endpoint      := makeEndpointString t.hostname t.action
  authorization := "Basic " ++ t.auth
  contentType   := "application/json"
  body          := reqBody

namespace OpenWhisk

variable [Bits β]

def init : OpenWhisk β where
  counter := 0
  addrs   := .empty
  cpMap   := .newCntPortMapping
  fresh   := fun _ _ => rfl

def count (ow : OpenWhisk β) : OpenWhisk β := { ow with
  counter := ow.counter + 1
  addrs   := ow.addrs.alloc (ow.counter + 1)
  fresh   := fun addr h => ow.fresh addr (Nat.le_of_succ_le (Heap.size_alloc.symm.trans_le h))
}

def assignPorts (ow : OpenWhisk β) (half : Half) (addrPtr : Nat) (h : addrPtr < ow.addrs.size) :
    OpenWhisk β × List UInt16 :=
  ({ ow with
    cpMap := (ow.cpMap.assignPorts half addrPtr).1
    fresh := fun addr hle => (Map.set_ne (h.trans_le hle).ne').trans (ow.fresh addr hle)
  }, (ow.cpMap.assignPorts half addrPtr).2)

-- The part of `CreateFunction` before the request, which yields the parameters.
def prepare (ow : OpenWhisk β) (sv : Service) (t : Target) (half : Half) (cntId : UInt16)
    (repl : String) : OpenWhisk β × String :=
  let addrPtr := ow.addrs.size
  let ow := ow.count
  if t.action = "nat" then
    let (ow, leasedPorts) := ow.assignPorts half addrPtr (by simp [ow, addrPtr, count])
    let leasedPortsString := sv.getStringFromPortSlice leasedPorts
    (ow, paramStr t (some leasedPortsString) cntId repl)
  else
    (ow, paramStr t none cntId repl)

-- `CreateFunction`. The result is the text of the error that it returns, if any, and the outcome is an
-- error if it ends the program, with the text that is logged.
def createFunction (ow : OpenWhisk β) (sv : Service) (t : Target) (half : Half) (cntId : UInt16)
    (repl : String) : Except String (OpenWhisk β × Option String) :=
  let endpoint := makeEndpointString t.hostname t.action
  let (ow, reqBody) := ow.prepare sv t half cntId repl
  match sv.post (request t reqBody) with
  | .invalid => .error "Error creating new POST request!\nExit from application"
  | .failed  => .ok (ow, some ("Error sending POST request to " ++ endpoint ++ "\n"))
  | .response _ none => .error "Error reading response to POST request\nExit from application"
  | .response statusCode (some _) =>
    if statusCode ≠ 200 ∧ statusCode ≠ 202
    then .ok (ow, some ("Error StatusCode different by 200: " ++ toString statusCode ++ "\n"))
    else .ok (ow, none)

end OpenWhisk

inductive Abort
  | exit (text : String)
  | halt (h : Halt)
  deriving Repr, DecidableEq

variable [Bits β]

-- One iteration of a creating loop. The error that `CreateFunction` returns is only logged, after
-- `enter` and `add` have recorded the new id.
def iteration (sv : Service) (t : Target) (half : Half) (cntId : UInt16) (repl : String)
    (enter add : Sys → Outcome) (ow : OpenWhisk β) (s : Sys) :
    Except Abort (OpenWhisk β × Sys × Option String) := do
  let (ow, err) ← (ow.createFunction sv t half cntId repl).mapError .exit
  let (s, _) ← (enter s).mapError .halt
  let (s, _) ← (add s).mapError .halt
  return (ow, s, err)

-- The loops of `startDropFunction` for the instance at address `i`, which insert the id into `cntIdMap`
-- and call `AddInstance`.
def startDropIteration (sv : Service) (t : Target) (half : Half) (i : InstId) (cntId : UInt16) :
    OpenWhisk β → Sys → Except Abort (OpenWhisk β × Sys × Option String) :=
  iteration sv t half cntId "0" (·.worker i (.create cntId)) (·.worker i .proceed)

def instantiateIteration (sv : Service) (t : Target) (half : Half) (p : Provisioner) (cntId : UInt16) :
    OpenWhisk β → Sys → Except Abort (OpenWhisk β × Sys × Option String) :=
  iteration sv t half cntId "1" (·.create p (.create cntId)) (·.create p .proceed)

end Cnt
