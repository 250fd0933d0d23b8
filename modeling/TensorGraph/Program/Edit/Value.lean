import TensorGraph.Program.Edit.Basic

/-!
Edits of values and of the places where they are used: types, uses, operands and results.
-/

namespace TensorGraph.Edit

def setType (v : ValueId) (type : TensorType) : Edit Unit := do
  let _ ← read (·.value v)
  modify (·.setType v type)

/-- Puts `new` into every operand slot of `o` that holds `old`. -/
def redirectOperands (old new : ValueId) (p : Program) (o : OpId) : Program :=
  p.modifyOp o fun node ↦
    { node with operands := node.operands.map fun v ↦ if v = old then new else v }

def replaceUses (old new : ValueId) : Edit Unit := do
  let _ ← read (·.value new)
  if old = new then return
  match (← get).value? old with
  | none => throw (.aborted (.unknownValue old))
  | some value =>
    modify fun p ↦
      (value.users.eraseDups.foldl (redirectOperands old new)
        (p.modifyValue old fun value ↦ { value with users := [] })).modifyValue new
          fun target ↦ { target with users := target.users ++ value.users }

def setOperand (o : OpId) (index : Nat) (v : ValueId) : Edit Unit := do
  let _ ← read (·.value v)
  let node ← read (·.op o)
  match node.operands[index]? with
  | none => throw (.invalidGraph (.noOperand o index))
  | some old =>
    modify fun p ↦
      ((p.modifyOp o fun node ↦ { node with operands := node.operands.set index v }).dropUse
        o old).addUse o v

def setOperands (o : OpId) (operands : List ValueId) : Edit Unit := do
  checkValues operands
  let node ← read (·.op o)
  modify fun p ↦
    operands.foldl (fun p v ↦ p.addUse o v)
      (node.operands.foldl (fun p v ↦ p.dropUse o v)
        (p.modifyOp o fun node ↦ { node with operands }))

def removeOperand (o : OpId) (index : Nat) : Edit Unit := do
  let node ← read (·.op o)
  match node.operands[index]? with
  | none => throw (.invalidGraph (.noOperand o index))
  | some old =>
    modify fun p ↦
      (p.modifyOp o fun node ↦ { node with operands := node.operands.eraseIdx index }).dropUse
        o old

/-- Gives the values from `index` on their places as results of `o` again. -/
def renumberResults (o : OpId) (results : List ValueId) (index : Nat) (p : Program) : Program :=
  ((results.zipIdx).drop index).foldl (fun p entry ↦ p.setOrigin entry.1 (.result o entry.2)) p

def removeResult (o : OpId) (index : Nat) : Edit Unit := do
  let v ← read (·.result o index)
  let node ← read (·.op o)
  if (← read (·.value v)).hasUses then throw (.structural (.resultInUse index node.label))
  let results := node.results.eraseIdx index
  modify fun p ↦ renumberResults o results index (p.modifyOp o fun node ↦ { node with results })

end TensorGraph.Edit
