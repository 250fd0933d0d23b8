import TensorGraph.Inference.Context
import TensorGraph.Shape.Broadcast

/-!
The shape rules: how the result type of an operation follows from its operands and attributes, for
elementwise operations, constants, inputs, conversions, shapes, reshaping and matrix products.
-/

namespace TensorGraph.ShapeRule

def unary : ShapeRule := fun c ↦ do
  return [← c.operandType 0]

/-- The broadcast of the first two operands, which agree on the element type if both know it. -/
def binary : ShapeRule := fun c ↦ do
  if c.operandCount < 2 then throw (.inference (.twoOperands c.op.kind))
  let a ← c.operandType 0
  let b ← c.operandType 1
  match TensorType.meetElement a.element b.element, a.element, b.element with
  | none, some x, some y => throw (.inference (.elementMismatch c.op.kind x y))
  | element, _, _ =>
    match a.shape.broadcast b.shape with
    | .ok shape => return [{ element := element.getD none, shape }]
    | .error cause => throw (.inference cause)

def const : ShapeRule := fun c ↦
  match c.op.attrs.getTensor "value" with
  | .ok value => .ok [value.type]
  | .error cause => .error (.badAttribute cause)

/-- Graphs written for an earlier version give an input of unknown shape as a scalar. -/
def firstVersionWithScalars : Nat := 21

def placeholder : ShapeRule := fun c ↦
  let shape := ((c.op.attrs.getShape "shape").toOption).getD .unranked
  let isOld := c.version ≠ 0 && c.version < firstVersionWithScalars
  .ok [{
    element := (c.op.attrs.getType "dtype").toOption
    shape := if isOld && shape.rank? == some 0 then .unranked else shape }]

def cast : ShapeRule := fun c ↦ do
  return [{ element := (c.op.attrs.getType "DstT").toOption, shape := ← c.operandShape 0 }]

def shapeOf : ShapeRule := fun c ↦ do
  let shape ← c.operandShape 0
  let length :=
    match shape.rank? with
    | some rank => Dim.known (UInt64.ofNat rank)
    | none => .unknown
  return [{
    element := some (((c.op.attrs.getType "out_type").toOption).getD .i64)
    shape := .ranked [length] }]

/-- The dimensions that a target of a reshape asks for; minus one leaves a dimension open. -/
def targetDims (target : List Int64) : Except Error (List Dim) :=
  target.mapM fun d ↦
    if d = -1 then .ok .unknown
    else if 0 ≤ d then .ok (.known d.toUInt64)
    else .error (.inference (.targetInvalid d))

/-- The size of the open dimension of a target, when the number of elements is known. -/
def openSize (total : UInt64) (target : List Int64) : Except Error UInt64 :=
  match checkedProduct ((target.filter (0 ≤ ·)).map Int64.toUInt64) with
  | none => .error (.inference (.targetOverflow target))
  | some given =>
    if given = 0 ∨ total % given ≠ 0 then .error (.inference (.targetMismatch total target))
    else .ok (total / given)

def targetShape (operand : Shape) (target : List Int64) : Except Error Shape := do
  if target.count (-1) > 1 then throw (.inference (.targetAmbiguous target))
  let dims ← targetDims target
  match target.idxOf? (-1), operand.elementCount? with
  | some index, some total => return .ranked (dims.set index (.known (← openSize total target)))
  | _, _ => return .ranked dims

/-- A list of this many dimensions is beyond what can be stored. -/
def rankLimit : Nat := 1 <<< 59

/-- As many unknown dimensions as the target is known to have entries. -/
def unknownTarget (target : Shape) : Except Error Shape :=
  match target.sizes? with
  | some [rank] =>
    if rank.toNat < rankLimit then .ok (.ranked (List.replicate rank.toNat .unknown))
    else .error (.aborted (.rankTooLarge rank))
  | _ => .ok .unranked

/-- The shape asked for by the second operand, as far as its value is known. -/
def reshape : ShapeRule := fun c ↦ do
  let element ← c.operandElement 0
  match c.operandValue? 1 with
  | none => return [{ element, shape := ← unknownTarget (← c.operandShape 1) }]
  | some target =>
    match target.data.integers? with
    | none => throw (.inference .targetNotIntegers)
    | some sizes => return [{ element, shape := ← targetShape (← c.operandShape 0) sizes }]

def matrixDims (kind : String) : Shape → Except Error (Dim × Dim)
  | .unranked => .ok (.unknown, .unknown)
  | .ranked [rows, columns] => .ok (rows, columns)
  | .ranked dims => .error (.inference (.notRankTwo kind dims.length))

/-- The rows of the first matrix by the columns of the second, either of which may be transposed. -/
def matmul : ShapeRule := fun c ↦ do
  if c.operandCount < 2 then throw (.inference (.twoOperands c.op.kind))
  let a ← c.operandType 0
  let b ← c.operandType 1
  let (aRows, aColumns) ← matrixDims c.op.kind a.shape
  let (bRows, bColumns) ← matrixDims c.op.kind b.shape
  let rows := if c.op.attrs.boolOr "transpose_a" false then aColumns else aRows
  let columns := if c.op.attrs.boolOr "transpose_b" false then bRows else bColumns
  return [{ element := a.element.or b.element, shape := .ranked [rows, columns] }]

end TensorGraph.ShapeRule
