import TensorGraph.Options
import TensorGraph.Pass.Basic
import TensorGraph.Program.Edit.Operation
import TensorGraph.Program.Edit.Value

/-!
Replaces chains of operations by one fused operation. A rule looks for a chain that ends in a given
operation, its root.
-/

namespace TensorGraph.Fusion

/-- A chain that was found, with its replacement. -/
structure Match where
  root : OpId
  /-- The operations of the chain before the root. -/
  interior : List OpId
  /-- The fused operation; its result types and control dependencies come from the chain. -/
  replacement : NewOp

/-- A rule that finds chains by their last operation. -/
structure Rule where
  name : String
  /-- The fused kind is one of the vendor's. -/
  requiresMkl : Bool := false
  find? : Program → OpId → Option Match

/-- The operation that produces a value, if it may go into a chain in front of `consumer`. -/
def producer? (p : Program) (v : ValueId) (consumer : OpId) (kinds : List String) :
    Option OpId := do
  let value ← p.value? v
  let producer ← value.definingOp?
  let node ← p.op? producer
  let consumerNode ← p.op? consumer
  if kinds.contains node.kind && node.isPlain && node.parent == consumerNode.parent
      && node.results.length == 1 && value.users == [consumer]
      && (p.controlDependents producer).isEmpty then
    some producer
  else none

def activations : List String := ["Relu", "Relu6", "Elu"]

/-- The addition of a bias that a chain ending in `root` goes through, which may be the root
itself. -/
def biasAdd? (p : Program) (root : OpId) (node : Operation) : Option OpId :=
  if activations.contains node.kind then do
    let input ← node.operands.head?
    producer? p input root ["BiasAdd"]
  else if node.kind = "BiasAdd" then some root
  else none

/-- A contraction, the addition of a bias, and an activation or none. -/
def contractionBiasActivation : Rule where
  name := "contraction-bias-activation"
  find? p root := do
    let node ← p.op? root
    let biasAdd ← biasAdd? p root node
    let biasNode ← p.op? biasAdd
    match biasNode.operands with
    | [input, bias] =>
      let contraction ← producer? p input biasAdd ["MatMul", "Conv2D"]
      let contractionNode ← p.op? contraction
      let isActivated := activations.contains node.kind
      let fusedOps := "BiasAdd" :: (if isActivated then [node.kind] else [])
      return {
        root
        interior := contraction :: (if isActivated then [biasAdd] else [])
        replacement := {
          kind := if contractionNode.kind = "MatMul" then "_FusedMatMul" else "_FusedConv2D"
          name := node.name
          operands := contractionNode.operands ++ [bias]
          attrs := (contractionNode.attrs.insert "fused_ops" (.strings fusedOps)).insert
            "num_args" (.int 1) } }
    | _ => none

/-- The replacement of a product of `x` with a function of itself. -/
def selfGated (kind : String) (root : OpId) (node : Operation) (x : ValueId)
    (interior : List OpId) : Match where
  root := root
  interior := interior
  replacement := {
    kind
    name := node.name
    operands := [x]
    attrs := match node.attrs.get? "T" with
      | some type => NameMap.empty.insert "T" type
      | none => .empty }

/-- The product of `x` with its sigmoid, with the factors in one order. -/
def swishOrder? (p : Program) (root : OpId) (node : Operation) (x gate : ValueId) :
    Option Match := do
  let sigmoid ← producer? p gate root ["Sigmoid"]
  let sigmoidNode ← p.op? sigmoid
  if sigmoidNode.operands = [x] then some (selfGated "_MklSwish" root node x [sigmoid]) else none

def swish : Rule where
  name := "swish"
  requiresMkl := true
  find? p root := do
    let node ← p.op? root
    match node.kind, node.operands with
    | "Mul", [a, b] => (swishOrder? p root node a b).or (swishOrder? p root node b a)
    | _, _ => none

/-- What comes of looking for a chain with the factors in one order. -/
inductive Attempt where
  | found (chain : Match)
  | notFound
  /-- The other order is not tried. -/
  | abandoned

/-- The product of `x` with the tangent of its softplus, with the factors in one order. A tangent
without operand ends the search. -/
def mishOrder (p : Program) (root : OpId) (node : Operation) (x gate : ValueId) : Attempt :=
  match producer? p gate root ["Tanh"] with
  | none => .notFound
  | some tanh =>
    match (p.op? tanh).bind (·.operands.head?) with
    | none => .abandoned
    | some input =>
      match producer? p input tanh ["Softplus"] with
      | none => .notFound
      | some softplus =>
        if (p.op? softplus).map (·.operands) = some [x] then
          .found (selfGated "_MklFusedMish" root node x [softplus, tanh])
        else .notFound

/-- The product of a value with the hyperbolic tangent of its softplus. -/
def mish : Rule where
  name := "mish"
  requiresMkl := true
  find? p root := do
    let node ← p.op? root
    match node.kind, node.operands with
    | "Mul", [a, b] =>
      match mishOrder p root node a b with
      | .found chain => some chain
      | .abandoned => none
      | .notFound =>
        match mishOrder p root node b a with
        | .found chain => some chain
        | _ => none
    | _, _ => none

def builtinRules : List Rule :=
  [contractionBiasActivation, swish, mish]

def chainControl (p : Program) (chain : List OpId) : List OpId :=
  ((chain.flatMap fun o ↦ ((p.op? o).map (·.control)).getD []).filter
    (!chain.contains ·)).eraseDups

def fuse (chain : Match) : Edit Unit := do
  let ops := chain.interior ++ [chain.root]
  Edit.checkOps ops
  let node ← Edit.read (·.op chain.root)
  let resultTypes ← node.results.mapM fun v ↦ Edit.read (·.valueType v)
  let control := chainControl (← get) ops
  let fused ← Edit.insertOpBefore chain.root { chain.replacement with resultTypes, control }
  node.results.zipIdx.forM fun (old, index) ↦ do
    let new ← Edit.read (·.result fused index)
    Edit.replaceUses old new
  Edit.replaceControl chain.root fused
  Edit.eraseOp chain.root
  chain.interior.reverse.forM Edit.eraseOp

/-- Replaces the chain that ends in an operation, by the first rule that finds one. -/
def fuseAt (rules : List Rule) (root : OpId) : Edit Bool := do
  let p ← get
  if !p.isLive root then return false
  match rules.findSome? (·.find? p root) with
  | none => return false
  | some chain =>
    fuse chain
    return true

structure Settings where
  enableMkl : Bool := false
  deriving DecidableEq, Repr

def passName : String := "remapper"

def Settings.ofOptions (options : Options) : Except Error Settings := do
  options.expectOnly passName ["enable-mkl-patterns"]
  return { enableMkl := (← options.getBool "enable-mkl-patterns").getD false }

/-- Tries all operations, the last first, so that the longest chain wins. -/
def run (settings : Settings) (rules : List Rule) : Edit Bool := do
  let enabled := rules.filter fun rule ↦ settings.enableMkl || !rule.requiresMkl
  Edit.anyChange (← get).allOps.reverse (fuseAt enabled)

def pass (settings : Settings) (more : List Rule := []) : Pass where
  name := passName
  run _ := run settings (builtinRules ++ more)

end TensorGraph.Fusion
