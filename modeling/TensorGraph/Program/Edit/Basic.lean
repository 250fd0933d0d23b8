import TensorGraph.Program.Table

/-!
Edits of a program.
-/

namespace TensorGraph

/-- A computation that may change the program and may fail, keeping the changes made so far. -/
abbrev Edit (α : Type) := ExceptT Error (StateM Program) α

namespace Edit

def read {α : Type} (query : Program → Except Error α) : Edit α := do
  let p ← get
  match query p with
  | .ok a => return a
  | .error e => throw e

def checkValues (values : List ValueId) : Edit Unit :=
  values.forM fun v ↦ do
    let _ ← read (·.value v)

def checkOps (ops : List OpId) : Edit Unit :=
  ops.forM fun o ↦ do
    let _ ← read (·.op o)

end Edit

end TensorGraph
