import TensorGraph.Options
import TensorGraph.Pass.Basic
import TensorGraph.Program.Edit.Operation

/-!
Drops the attribute that lists the shapes of the results, except from operations of kinds to be
skipped.
-/

namespace TensorGraph.OutputShapes

def passName : String := "drop-output-shapes-attr"

def skippedKinds (options : Options) : Except Error (List String) := do
  options.expectOnly passName ["skip"]
  return options.getList "skip"

def dropFrom (skipped : List String) (o : OpId) : Edit Bool := do
  let node ← Edit.read (·.op o)
  if skipped.contains node.kind then return false
  return (← Edit.removeAttr o outputShapesName).isSome

def run (skipped : List String) : Edit Bool := do
  Edit.anyChange (← get).allOps (dropFrom skipped)

def pass (skipped : List String) : Pass where
  name := passName
  run _ := run skipped

end TensorGraph.OutputShapes
