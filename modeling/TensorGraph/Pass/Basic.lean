import TensorGraph.Program.Edit.Basic
import TensorGraph.Program.Verify
import TensorGraph.Registry.Basic

/-!
Passes: named transformations of a program that tell whether they changed it. A pipeline runs passes
in order and stops at the first that fails, or that leaves a program which is not well formed.
-/

namespace TensorGraph

/-- A transformation of programs; it tells whether it changed anything. -/
structure Pass where
  name : String
  run : Registry → Edit Bool

/-- Passes to be run in order. -/
structure Pipeline where
  passes : List Pass
  /-- The program is verified after each pass. -/
  verifyEach : Bool := true

namespace Edit

/-- Takes every step in order and tells whether one of them changed anything. -/
def anyChange {α : Type} (steps : List α) (step : α → Edit Bool) : Edit Bool :=
  steps.foldlM
    (fun changed x ↦ do
      let here ← step x
      return changed || here)
    false

/-- Runs an edit on behalf of a pass, which then is the one that failed. -/
def onBehalfOf {α : Type} (pass : String) (edit : Edit α) : Edit α :=
  tryCatch edit fun e ↦ throw (e.inPass pass)

end Edit

namespace Pipeline

def names (pipeline : Pipeline) : List String :=
  pipeline.passes.map (·.name)

/-- Runs the passes in order; tells whether one of them changed anything. -/
def run (pipeline : Pipeline) (registry : Registry) : Edit Bool :=
  Edit.anyChange pipeline.passes fun pass ↦
    Edit.onBehalfOf pass.name do
      let changed ← pass.run registry
      if pipeline.verifyEach then Edit.read Program.verify
      return changed

end Pipeline

end TensorGraph
