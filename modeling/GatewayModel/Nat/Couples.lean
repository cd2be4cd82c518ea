import GatewayModel.Lib.Go
import GatewayModel.Lib.Execution

open Go Execution

namespace NatContext

-- The field `im` of a `CntPortMapping`. A couple is identified by a pointer of type `ν`, and `none` is
-- the nil pointer.
abbrev Couples (ν : Type u) := Map UInt32 (List (Option ν))

namespace Couples

variable {ν : Type u}

def get (im : Couples ν) (cntAddr : UInt32) : Option (List (Option ν)) :=
  im cntAddr

-- `Set`. The list that is made for an address that has one already starts with a nil pointer.
def set (im : Couples ν) (cntAddr : UInt32) (nc : Option ν) : Couples ν :=
  match im cntAddr with
  | none   => Map.set im cntAddr [nc]
  | some _ => Map.set im cntAddr ([none] ++ [nc])

def delete (im : Couples ν) (cntAddr : UInt32) : Couples ν :=
  Map.delete im cntAddr

inductive Op (ν : Type u)
  | set (cntAddr : UInt32) (nc : ν)
  | delete (cntAddr : UInt32)
  deriving Repr, DecidableEq

def Op.cntAddr : Op ν → UInt32
  | .set cntAddr _ | .delete cntAddr => cntAddr

def step (im : Couples ν) : Op ν → Result (Couples ν × Unit)
  | .set cntAddr nc => return (im.set cntAddr (some nc), ())
  | .delete cntAddr => return (im.delete cntAddr, ())

end Couples
end NatContext
