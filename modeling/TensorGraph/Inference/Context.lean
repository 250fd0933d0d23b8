import TensorGraph.Program.Basic

/-!
What a shape rule may look at: one operation, the types and known values of its operands, its
attributes, and the version of the graph it was written for.
-/

namespace TensorGraph

/-- An operation in its program; version zero stands for an unknown one. -/
structure InferenceContext where
  program : Program
  op : Operation
  version : Nat := 0

/-- Computes the result types of an operation. -/
abbrev ShapeRule := InferenceContext → Except Error (List TensorType)

def sizesAsI32 (sizes : List UInt64) : Option TensorData :=
  (sizes.mapM fun n ↦ if n.toNat < Int32.size / 2 then some (Int32.ofNat n.toNat) else none).map
    .i32

def sizesAsI64 (sizes : List UInt64) : Option TensorData :=
  (sizes.mapM fun n ↦ if n.toNat < Int64.size / 2 then some (Int64.ofNat n.toNat) else none).map
    .i64

namespace InferenceContext

section

variable (c : InferenceContext)

def operandCount : Nat :=
  c.op.operands.length

def resultCount : Nat :=
  c.op.results.length

def operandType (index : Nat) : Except Error TensorType :=
  match c.op.operands[index]? with
  | some v => c.program.valueType v
  | none => .error (.inference (.operandNotFound c.op.kind index))

def operandShape (index : Nat) : Except Error Shape :=
  (c.operandType index).map (·.shape)

def operandElement (index : Nat) : Except Error (Option ElementType) :=
  (c.operandType index).map (·.element)

def resultType (index : Nat) : Except Error TensorType :=
  match c.op.results[index]? with
  | some v => c.program.valueType v
  | none => .error (.inference (.resultNotFound c.op.kind index))

end

/-- The value that an operation is known to have: that of a constant, or the sizes of an operand
whose shape is asked for. Sizes beyond the integers asked for leave it unknown. -/
def knownValue (p : Program) (producer : Operation) : Option Tensor :=
  if producer.kind = "Const" then (producer.attrs.getTensor "value").toOption
  else if producer.kind = "Shape" then do
    let input ← producer.operands.head?
    let type ← (p.valueType input).toOption
    let sizes ← type.shape.sizes?
    let data ←
      match producer.attrs.getType "out_type" with
      | .ok .i32 => sizesAsI32 sizes
      | _ => sizesAsI64 sizes
    return .vector data
  else none

def operandValue? (c : InferenceContext) (index : Nat) : Option Tensor := do
  let v ← c.op.operands[index]?
  let value ← c.program.value? v
  let producer ← value.definingOp?
  let node ← c.program.op? producer
  knownValue c.program node

end InferenceContext

end TensorGraph
