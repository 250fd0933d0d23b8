import TensorGraph.Program.Edit.Basic

/-!
Edits of regions, of their arguments and of functions.
-/

namespace TensorGraph.Edit

def addArg (r : RegionId) (type : TensorType) : Edit ValueId := do
  let region ← read (·.region r)
  let v := (← get).nextValue
  modify fun p ↦ (p.pushValue type (.argument r region.args.length)).modifyRegion r
    fun region ↦ { region with args := region.args ++ [v] }
  return v

/-- Gives the values from `index` on their places as arguments of `r` again. -/
def renumberArgs (r : RegionId) (args : List ValueId) (index : Nat) (p : Program) : Program :=
  ((args.zipIdx).drop index).foldl (fun p entry ↦ p.setOrigin entry.1 (.argument r entry.2)) p

def removeArg (r : RegionId) (index : Nat) : Edit Unit := do
  let region ← read (·.region r)
  match region.args[index]? with
  | none => throw (.invalidGraph (.noArgument r index))
  | some arg =>
    if (← read (·.value arg)).hasUses then throw (.structural (.argumentInUse index r))
    let args := region.args.eraseIdx index
    modify fun p ↦ renumberArgs r args index (p.modifyRegion r fun region ↦ { region with args })

def addRegion (o : OpId) (execution : Execution) : Edit RegionId := do
  let node ← read (·.op o)
  match node.form with
  | .functional _ => throw (.unsupportedForm (.functionalForm node.label))
  | _ =>
    let r := (← get).nextRegion
    modify fun p ↦ (p.pushRegion (.op o) execution).modifyOp o
      fun node ↦ { node with form := .nested (node.regions ++ [r]) }
    return r

def checkFunctionName (name : String) : Edit Unit := do
  if ((← get).func? name).isSome then throw (.structural (.functionExists name))

/-- Lists a function whose body is there already, with empty attributes. -/
def pushFunc (name : String) (body : RegionId) (resultTypes : List TensorType) : Edit Unit := do
  let region ← read (·.region body)
  modify fun p ↦ { p with
    funcs := p.funcs ++ [{
      name
      body
      resultTypes
      argAttrs := List.replicate region.args.length .empty
      resultAttrs := List.replicate resultTypes.length .empty
      attrs := .empty }] }

def addFunction (name : String) (argTypes resultTypes : List TensorType) : Edit RegionId := do
  checkFunctionName name
  let body := (← get).nextRegion
  modify (·.pushRegion .function .once)
  argTypes.forM fun type ↦ do
    let _ ← addArg body type
  pushFunc name body resultTypes
  return body

/-- Makes the graph the body of a new function and starts an empty graph. -/
def graphIntoFunction (name : String) (resultTypes : List TensorType) : Edit RegionId := do
  checkFunctionName name
  let body := (← get).graph
  let _ ← read (·.region body)
  let graph := (← get).nextRegion
  modify fun p ↦
    { (p.modifyRegion body fun region ↦ { region with owner := .function }).pushRegion
        .graph .once with graph }
  pushFunc name body resultTypes
  return body

end TensorGraph.Edit
