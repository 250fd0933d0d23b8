import TensorGraph.Pass.BranchSinking
import TensorGraph.Pass.ConstantMerging
import TensorGraph.Pass.Fusion
import TensorGraph.Pass.GraphFunction
import TensorGraph.Pass.LoopSlots
import TensorGraph.Pass.OutputShapes
import TensorGraph.Pass.RegionForm
import TensorGraph.Pass.Sharding
import TensorGraph.Pass.TopologicalOrder
import TensorGraph.Pass.TypeAttributes
import TensorGraph.Pass.TypePropagation

/-!
The catalog of passes: each can be made by its name from options, and a list of names with options
makes a pipeline.
-/

namespace TensorGraph.Catalog

def plain (pass : Pass) (options : Options) : Except Error Pass := do
  options.expectOnly pass.name []
  return pass

def makers : List (String × (Options → Except Error Pass)) :=
  [("topo-sort", plain TopologicalOrder.pass),
   ("dedupe-and-hoist-constant", fun options ↦
      (ConstantMerging.Settings.ofOptions options).map ConstantMerging.pass),
   ("drop-output-shapes-attr", fun options ↦
      (OutputShapes.skippedKinds options).map OutputShapes.pass),
   ("graph-to-func", fun options ↦
      (GraphFunction.Settings.ofOptions options).map GraphFunction.pass),
   ("functional-to-region", plain RegionForm.pass),
   ("control-flow-sink", plain BranchSinking.pass),
   ("remapper", fun options ↦
      (Fusion.Settings.ofOptions options).map fun settings ↦ Fusion.pass settings),
   ("consolidate-attributes", plain TypeAttributes.consolidatePass),
   ("prepare-attributes-for-export", plain TypeAttributes.exportPass),
   ("eliminate-passthrough-iter-args", plain LoopSlots.pass),
   ("shape-inference", fun options ↦
      (TypePropagation.Settings.ofOptions options).map TypePropagation.pass),
   ("auto-sharding", plain Sharding.pass)]

def names : List String :=
  makers.map (·.1)

def make (name : String) (options : Options) : Except Error Pass :=
  match makers.lookup name with
  | some maker => maker options
  | none => .error (.unknownPass name)

/-- The passes with the given names and options, as a pipeline. -/
def pipeline (entries : List (String × Options)) : Except Error Pipeline := do
  let passes ← entries.mapM fun entry ↦ make entry.1 entry.2
  return { passes }

end TensorGraph.Catalog
