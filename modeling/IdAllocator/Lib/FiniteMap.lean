/-
A finite map whose `put` refuses a key that is present, as a machine with
results.
-/
import Mathlib.Logic.Function.Basic

namespace FiniteMap

universe u v

/-- The operations on a map. -/
inductive Op (K : Type u) (V : Type v) where
  | put (key : K) (value : V)
  | get (key : K)
  | del (key : K)
deriving Repr, DecidableEq

variable {K : Type u} {V : Type v}

def Op.key : Op K V → K
  | .put key _ => key
  | .get key => key
  | .del key => key

/-- What they answer. -/
inductive Result (V : Type v) where
  | put (stored : Bool)
  | get (value : Option V)
  | del (found : Bool)
deriving Repr, DecidableEq

/-- One operation. -/
def Op.run [DecidableEq K] (m : K → Option V) : Op K V → (K → Option V) × Result V
  | .put key value =>
      if (m key).isSome then (m, .put false)
      else (Function.update m key (some value), .put true)
  | .get key => (m, .get (m key))
  | .del key => (Function.update m key none, .del (m key).isSome)

end FiniteMap
