/-!
The programmable stages of a pass.
-/
namespace ShaderPass

inductive Stage where
  | vertex
  | fragment
  | compute
  deriving Repr, DecidableEq

namespace Stage

def name : Stage → String
  | vertex => "vert"
  | fragment => "frag"
  | compute => "compute"

def flag : Stage → Nat
  | vertex => 1
  | fragment => 16
  | compute => 32

end Stage
end ShaderPass
