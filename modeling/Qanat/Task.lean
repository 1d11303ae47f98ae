import Qanat.Cidr

namespace Qanat

inductive Stage
  | tcp | tls | rtt | banner
  deriving DecidableEq

structure Job where
  addr : Addr
  port : Nat
  stage : Stage
  token : Nat
  deriving DecidableEq

inductive TaskNext (ι : Type)
  | job (out : ι)
  | exhausted
  | stopCondition
  | cancelled
  | fatal
  deriving DecidableEq

end Qanat
