/-!
Single-precision floating-point words. Nothing is computed with them: they are stored, shown and
compared. The comparison is the one of the floating-point standard, which is not identity.
-/

namespace TensorGraph

/-- A 32-bit floating-point word, given by its bits. -/
structure Binary32 where
  bits : UInt32
  deriving DecidableEq, Repr, Inhabited

namespace Binary32

def isNaN (x : Binary32) : Bool :=
  (x.bits &&& 0x7FFFFFFF) > 0x7F800000

def isZero (x : Binary32) : Bool :=
  (x.bits &&& 0x7FFFFFFF) == 0

def equal (x y : Binary32) : Bool :=
  !x.isNaN && !y.isNaN && (x.bits == y.bits || (x.isZero && y.isZero))

instance : BEq Binary32 := ⟨equal⟩

end Binary32

end TensorGraph
