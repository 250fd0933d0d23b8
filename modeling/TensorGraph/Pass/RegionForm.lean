import TensorGraph.Pass.Basic
import TensorGraph.Program.Edit.Copy
import TensorGraph.Program.Edit.Value

/-!
Gives conditionals and loops regions of their own in place of the functions they name. The body of
each function named is copied into a new region.
-/

namespace TensorGraph.RegionForm

/-- Each sweep handles one more level of nesting that copied bodies bring in. -/
def maxSweeps : Nat := 16

/-- What a converted operation becomes. -/
inductive Flavor where
  /-- The first operand selects a branch, the others are captured. -/
  | branch
  /-- All operands are carried around the loop. -/
  | loop
  deriving DecidableEq, Repr

/-- How operations of a kind are converted. -/
structure Scheme where
  regionKind : String
  flavor : Flavor
  roles : List String
  deriving DecidableEq, Repr

def schemeOf (kind : String) : Option Scheme :=
  if kind = "If" ∨ kind = "StatelessIf" then
    some ⟨"IfRegion", .branch, ["then_branch", "else_branch"]⟩
  else if kind = "Case" ∨ kind = "StatelessCase" then
    some ⟨"CaseRegion", .branch, ["branches"]⟩
  else if kind = "While" ∨ kind = "StatelessWhile" then
    some ⟨"WhileRegion", .loop, ["cond", "body"]⟩
  else none

/-- An operation to be converted, with the functions whose bodies become its regions. -/
structure Conversion where
  op : OpId
  regionKind : String
  flavor : Flavor
  callees : List String
  deriving DecidableEq, Repr

private def refuse {α : Type} (node : Operation) (fault : ConversionFault) : Except Error α :=
  .error (.unsupportedForm (.conversion node.kind node.label fault))

/-- How many arguments a function named by the operation has to take. -/
def expectedArgs (node : Operation) : Flavor → Except Error Nat
  | .branch =>
    if node.operands.isEmpty then refuse node .noSelector else .ok (node.operands.length - 1)
  | .loop =>
    if node.results.length = node.operands.length then .ok node.operands.length
    else refuse node (.loopArity node.results.length node.operands.length)

def expectedResults (node : Operation) (flavor : Flavor) (role : String) : Nat :=
  match flavor with
  | .branch => node.results.length
  | .loop => if role = "cond" then 1 else node.operands.length

def checkCallee (p : Program) (node : Operation) (args results : Nat) (name : String) :
    Except Error Unit :=
  match p.func? name with
  | none => .error (.structural (.unknownCallee node.kind node.label name))
  | some func =>
    if p.isWithin node.parent func.body then refuse node (.recursive name)
    else if (p.terminator? func.body).isNone then
      .error (.structural (.noFunctionTerminator name))
    else do
      let body ← p.region func.body
      if body.args.length ≠ args then refuse node (.argumentCount name body.args.length args)
      else if func.resultTypes.length ≠ results then
        refuse node (.resultCount name func.resultTypes.length results)

/-- The functions that take a role of the operation, at least one. -/
def calleesIn (p : Program) (node : Operation) (flavor : Flavor) (args : Nat) (role : String) :
    Except Error (List String) := do
  let names := (node.funcRefs.filter (·.role == role)).map (·.func)
  if names.isEmpty then throw (.structural (.noCallee node.kind node.label role))
  names.forM (checkCallee p node args (expectedResults node flavor role))
  return names

/-- The conversion of an operation; none if it is not one to be converted. -/
def conversionOf (p : Program) (o : OpId) : Except Error (Option Conversion) := do
  let node ← p.op o
  match node.form, schemeOf node.kind with
  | .functional _, some scheme =>
    let args ← expectedArgs node scheme.flavor
    let callees ← scheme.roles.mapM (calleesIn p node scheme.flavor args)
    return some ⟨o, scheme.regionKind, scheme.flavor, callees.flatten⟩
  | _, _ => return none

def plan (p : Program) : Except Error (List Conversion) := do
  let conversions ← p.allOps.mapM (conversionOf p)
  return conversions.filterMap id

/-- Adds arguments of the types of the given values to a region. -/
def carryValues (r : RegionId) (values : List ValueId) : Edit (List ValueId) :=
  values.mapM fun v ↦ do
    let type ← Edit.read (·.valueType v)
    Edit.addArg r type

section

variable (conversion : Conversion)

/-- Adds a region to the operation and gives the values that stand for the arguments of the
function. -/
def openRegion (operands : List ValueId) : Edit (RegionId × List ValueId) := do
  match conversion.flavor with
  | .branch => return (← Edit.addRegion conversion.op .once, operands.drop 1)
  | .loop =>
    let r ← Edit.addRegion conversion.op .repeated
    return (r, ← carryValues r operands)

/-- Copies the body of a function into a new region of the operation. -/
def inlineCallee (operands : List ValueId) (callee : String) :
    Edit Unit := do
  match (← get).func? callee with
  | none => throw (.structural (.lostCallee callee))
  | some func =>
    let body ← Edit.read (·.region func.body)
    let (r, inputs) ← openRegion conversion operands
    let _ ← Edit.copyRegion func.body r (body.args.zip inputs)
    match (← get).terminator? r with
    | none => throw (.structural (.lostTerminator callee))
    | some last => Edit.setKind last yieldKind

def convert : Edit Unit := do
  let node ← Edit.read (·.op conversion.op)
  Edit.setForm conversion.op .plain
  Edit.setKind conversion.op conversion.regionKind
  conversion.callees.forM (inlineCallee conversion node.operands)
  match conversion.flavor with
  | .branch => Edit.setOperands conversion.op (node.operands.take 1)
  | .loop => return

end

/-- Converts in at most the given number of sweeps; tells whether anything was converted. -/
def sweep : Nat → Edit Bool
  | 0 => return false
  | sweeps + 1 => do
    let conversions ← Edit.read plan
    if conversions.isEmpty then return false
    conversions.forM convert
    let _ ← sweep sweeps
    return true

def pass : Pass where
  name := "functional-to-region"
  run _ := sweep maxSweeps

end TensorGraph.RegionForm
