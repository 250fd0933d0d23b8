import TensorGraph.Inference.Rules
import TensorGraph.Registry.Basic

/-!
The standard registry: elementwise kinds, constants and inputs, reshaping, contractions, calls and
control flow.
-/

namespace TensorGraph.Registry

def unaryKinds : List String :=
  ["Identity", "Relu", "Relu6", "Elu", "Sigmoid", "Tanh", "Neg", "Softplus", "Exp", "_MklSwish",
   "_MklFusedMish"]

def binaryKinds : List String :=
  ["Add", "AddV2", "Sub", "Mul", "Div", "Maximum", "BiasAdd"]

private def statelessKind (rule : ShapeRule) : Descriptor where
  stateless := true
  shapeRule := some rule

def standardKinds : List (String × Descriptor) :=
  unaryKinds.map (·, statelessKind ShapeRule.unary)
    ++ binaryKinds.map (·, statelessKind ShapeRule.binary)
    ++ [("Const", statelessKind ShapeRule.const),
      ("Cast", statelessKind ShapeRule.cast),
      ("Shape", statelessKind ShapeRule.shapeOf),
      ("Reshape", statelessKind ShapeRule.reshape),
      ("MatMul", statelessKind ShapeRule.matmul),
      ("_FusedMatMul", statelessKind ShapeRule.matmul),
      ("Conv2D", { stateless := true }),
      ("_FusedConv2D", { stateless := true }),
      ("Placeholder", {
        shapeRule := some ShapeRule.placeholder
        shapeAttr := some "shape"
        elementAttr := some "dtype" }),
      ("NoOp", { stateless := true }),
      ("PartitionedCall", { stateless := true, call := true }),
      ("StatefulPartitionedCall", { call := true })]
    ++ ["StatelessIf", "StatelessCase", "StatelessWhile"].map (·, { stateless := true })
    ++ ["If", "Case", "While", "IfRegion", "CaseRegion", "WhileRegion", returnKind, yieldKind].map
      (·, { stateless := false })

def standard : Registry :=
  NameMap.ofList standardKinds

end TensorGraph.Registry
