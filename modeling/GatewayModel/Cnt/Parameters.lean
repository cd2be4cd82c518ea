import GatewayModel.Cnt.Creation
import GatewayModel.Lib.Json
import GatewayModel.Lib.Regexp

-- How the address of the database gets from the arguments of the program to the functions.
namespace Cnt

-- The expression `(.*):(\d+)`.
def rex : Regexp Char :=
  .cat (.group (.star (· ≠ '\n')))
    (.cat (.char (· = ':')) (.group (.cat (.char (·.isDigit)) (.star (·.isDigit)))))

-- `strconv.Atoi` for a text of digits. It fails if the number is too large for an `int`.
def atoi (s : List Char) : Option Int :=
  let n := Nat.ofDigitChars 10 s 0
  if n < 2 ^ 63
  then some n
  else none

-- The program ends if there is no result.
def parseRedisAddressParam (redisAddress : String) : Option (String × Int) :=
  match (rex.find redisAddress.toList).map (·.groups) with
  | some (redisIp :: redisPort :: _) => (atoi redisPort).map fun port => (String.ofList redisIp, port)
  | _                                => none

-- What `main` passes on from its arguments to the provisioner of the NAT. There is at least one network
-- interface among them.
def mainTarget (args : List String) : Option Target :=
  match args with
  | hostname :: auth :: redisAddress :: _ :: _ =>
    (parseRedisAddressParam redisAddress).map fun (redisIp, redisPort) => {
      hostname  := hostname
      auth      := auth
      action    := "nat"
      redisIp   := redisIp
      redisPort := redisPort
    }
  | _ => none

end Cnt
