import GatewayModel.Cnt.ContainerList
import GatewayModel.Pool.Execution

open Go Execution Pool

namespace Cnt

structure Registry where
  pool : State
  lst  : ContainerList

namespace Registry

inductive Op
  | pool (op : Pool.Op)
  | removeContainer (cnt : ContainerId)
  deriving Repr, DecidableEq

def init (fluxMaxAge : Int) : Registry where
  pool := .init fluxMaxAge
  lst  := .empty

-- The handler of a registration passes the new container to `Add` and to `AddContainer`. The
-- lifetime timer of a container and a scale-down both call `RemoveContainer` and `Delete`.
def step (g : Registry) : Op → Result (Registry × Trace)
  | .pool op => do
    let (s, tr) ← g.pool.step op
    match op with
    | .add .. => return ({ pool := s, lst := g.lst.addContainer g.pool.containers.size }, tr)
    | _       => return ({ g with pool := s }, tr)
  | .removeContainer cnt => do
    let lst ← g.lst.removeContainer cnt
    return ({ g with lst := lst }, [])

end Registry
end Cnt
