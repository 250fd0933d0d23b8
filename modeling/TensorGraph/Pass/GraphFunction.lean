import TensorGraph.Options
import TensorGraph.Pass.Basic
import TensorGraph.Program.Edit.Operation
import TensorGraph.Program.Edit.Region
import TensorGraph.Program.Edit.Value

/-!
Turns the graph into a function. Values named as feeds become arguments of the function, values
named as fetches its results, and operations named as control results are waited for by its end.
-/

namespace TensorGraph.GraphFunction

structure Settings where
  feeds : List String := []
  fetches : List String := []
  controlResults : List String := []
  funcName : String := "main"
  deriving DecidableEq, Repr

def passName : String := "graph-to-func"

def Settings.ofOptions (options : Options) : Except Error Settings := do
  options.expectOnly passName ["feeds", "fetches", "control-rets", "func-name"]
  return {
    feeds := options.getList "feeds"
    fetches := options.getList "fetches"
    controlResults := options.getList "control-rets"
    funcName := (options.get? "func-name").getD "main" }

/-- The name of an operation and the index of a result that an entry refers to. -/
def parseRef (entry : String) : Except Error (String × Nat) :=
  match Text.cutAtLast ':' entry.toList with
  | none => .ok (entry, 0)
  | some (name, index) =>
    match Text.readNumeral UInt64.size index with
    | .ok index => .ok (String.ofList name, index)
    | .error cause => .error (.invalidOption entry (.badResultIndex cause))

def resolveOp (p : Program) (name : String) : Except Error OpId :=
  match p.findOp? p.graph name with
  | some o => .ok o
  | none => .error (.structural (.noOpNamed name))

def resolveValue (p : Program) (entry : String) : Except Error ValueId := do
  let (name, index) ← parseRef entry
  let o ← resolveOp p name
  match p.result o index with
  | .ok v => return v
  | .error _ => throw (.structural (.noResultNamed name index))

/-- What the names of the settings stand for. -/
structure Plan where
  feeds : List ValueId
  fetches : List ValueId
  controlResults : List OpId
  deriving DecidableEq, Repr

def plan (settings : Settings) (p : Program) : Except Error Plan := do
  if (p.func? settings.funcName).isSome then
    throw (.structural (.functionExists settings.funcName))
  let feeds ← settings.feeds.mapM (resolveValue p)
  let fetches ← settings.fetches.mapM (resolveValue p)
  let controlResults ← settings.controlResults.mapM (resolveOp p)
  return { feeds, fetches, controlResults }

/-- Puts a new argument of the graph in the place of a feed, unless it has one already. -/
def feedArgument (graph : RegionId) (replaced : List (ValueId × ValueId)) (feed : ValueId) :
    Edit (List (ValueId × ValueId)) := do
  if (replaced.lookup feed).isSome then return replaced
  let type ← Edit.read (·.valueType feed)
  let arg ← Edit.addArg graph type
  Edit.replaceUses feed arg
  return replaced ++ [(feed, arg)]

/-- Puts a new argument of the graph in the place of each feed. -/
def feedArguments (graph : RegionId) (feeds : List ValueId) : Edit (List (ValueId × ValueId)) :=
  feeds.foldlM (feedArgument graph) []

/-- Whether nothing uses an operation, waits for it or is waited for by it. -/
def isIsolated (p : Program) (controlResults : List OpId) (o : OpId) (node : Operation) : Bool :=
  (node.results.all fun v ↦ (p.value? v).any (!·.hasUses))
    && node.control.isEmpty && (p.controlDependents o).isEmpty && !controlResults.contains o

/-- Erases the operation of a feed if nothing else has to do with it. -/
def eraseFed (controlResults : List OpId) (feed : ValueId) : Edit Unit := do
  let value ← Edit.read (·.value feed)
  match value.definingOp? with
  | none => return
  | some o =>
    let p ← get
    match p.op? o with
    | none => return
    | some node => if isIsolated p controlResults o node then Edit.eraseOp o

def run (settings : Settings) : Edit Bool := do
  let plan ← Edit.read (plan settings)
  let graph := (← get).graph
  let replaced ← feedArguments graph plan.feeds
  plan.feeds.forM (eraseFed plan.controlResults)
  let results := plan.fetches.map fun v ↦ (replaced.lookup v).getD v
  let resultTypes ← results.mapM fun v ↦ Edit.read (·.valueType v)
  let body ← Edit.graphIntoFunction settings.funcName resultTypes
  let _ ← Edit.appendOp body
    { kind := returnKind, operands := results, control := plan.controlResults }
  return true

def pass (settings : Settings) : Pass where
  name := passName
  run _ := run settings

end TensorGraph.GraphFunction
