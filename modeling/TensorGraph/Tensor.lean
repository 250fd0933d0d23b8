import TensorGraph.Binary32
import TensorGraph.TensorType

/-!
Constant tensors: a list of elements of one type with the sizes of the dimensions. `Tensor.create`
accepts a list if its length is the product of the sizes, and all products of a first part of the
sizes are sizes too.
-/

namespace TensorGraph

/-- The elements of a constant tensor, in row-major order. -/
inductive TensorData where
  | i64 (elements : List Int64)
  | i32 (elements : List Int32)
  | f32 (elements : List Binary32)
  | bool (elements : List Bool)
  | u8 (elements : List UInt8)
  deriving DecidableEq, Repr, Inhabited

namespace TensorData

def length : TensorData → Nat
  | .i64 xs => xs.length
  | .i32 xs => xs.length
  | .f32 xs => xs.length
  | .bool xs => xs.length
  | .u8 xs => xs.length

def elementType : TensorData → ElementType
  | .i64 _ => .i64
  | .i32 _ => .i32
  | .f32 _ => .f32
  | .bool _ => .bool
  | .u8 _ => .u8

def integers? : TensorData → Option (List Int64)
  | .i64 xs => some xs
  | .i32 xs => some (xs.map Int32.toInt64)
  | .u8 xs => some (xs.map fun x ↦ x.toUInt64.toInt64)
  | .f32 _ => none
  | .bool _ => none

/-- Equality of the elements as numbers; floating-point elements compare as such. -/
def equal : TensorData → TensorData → Bool
  | .i64 xs, .i64 ys => xs == ys
  | .i32 xs, .i32 ys => xs == ys
  | .f32 xs, .f32 ys => List.beq xs ys
  | .bool xs, .bool ys => xs == ys
  | .u8 xs, .u8 ys => xs == ys
  | _, _ => false

instance : BEq TensorData := ⟨equal⟩

end TensorData

/-- A constant tensor. -/
structure Tensor where
  data : TensorData
  sizes : List UInt64
  deriving DecidableEq, Repr, Inhabited

/-- Why data and sizes make no tensor. -/
inductive TensorFault where
  | tooLarge (sizes : List UInt64)
  | lengthMismatch (length : Nat) (sizes : List UInt64) (expected : UInt64)
  deriving DecidableEq, Repr

def renderSizes (sizes : List UInt64) : String :=
  "[" ++ String.intercalate ", " (sizes.map fun n ↦ toString n.toNat) ++ "]"

def TensorFault.message : TensorFault → String
  | .tooLarge sizes => s!"Shape {renderSizes sizes} is too large"
  | .lengthMismatch length sizes expected =>
    s!"Data length {length} doesn't match shape {renderSizes sizes} (product = {expected.toNat})"

namespace Tensor

def create (data : TensorData) (sizes : List UInt64) : Except TensorFault Tensor :=
  match checkedProduct sizes with
  | none => .error (.tooLarge sizes)
  | some expected =>
    if data.length = expected.toNat then .ok { data, sizes }
    else .error (.lengthMismatch data.length sizes expected)

def scalar (data : TensorData) : Except TensorFault Tensor :=
  create data []

def vector (data : TensorData) : Tensor where
  data := data
  sizes := [UInt64.ofNat data.length]

def elementType (t : Tensor) : ElementType :=
  t.data.elementType

def elementCount (t : Tensor) : Nat :=
  t.data.length

def type (t : Tensor) : TensorType :=
  .fixed t.elementType t.sizes

def equal (a b : Tensor) : Bool :=
  a.data == b.data && a.sizes == b.sizes

instance : BEq Tensor := ⟨equal⟩

end Tensor

end TensorGraph
