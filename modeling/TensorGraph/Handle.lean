/-!
Handles: numbers by which operations, values and regions of a program are named. They are types of
their own, so one kind is never taken for another.
-/

namespace TensorGraph

/-- Names an operation. The number of an erased operation is given out again. -/
structure OpId where
  index : Nat
  deriving DecidableEq, Repr, Inhabited

/-- Names a value. Numbers of values are never given out twice. -/
structure ValueId where
  index : Nat
  deriving DecidableEq, Repr, Inhabited

/-- Names a region. Numbers of regions are never given out twice. -/
structure RegionId where
  index : Nat
  deriving DecidableEq, Repr, Inhabited

def OpId.render (o : OpId) : String :=
  s!"NodeIndex({o.index})"

def ValueId.render (v : ValueId) : String :=
  s!"ValueId({v.index})"

def RegionId.render (r : RegionId) : String :=
  s!"RegionId({r.index})"

end TensorGraph
