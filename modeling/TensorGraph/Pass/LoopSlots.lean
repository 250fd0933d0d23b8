import TensorGraph.Pass.Basic
import TensorGraph.Program.Edit.Region
import TensorGraph.Program.Edit.Value

/-!
Removes the values that a loop carries around unchanged. A slot of a loop consists of an operand, a
result, an argument of the condition, an argument of the body and an operand of the body's end.
-/

namespace TensorGraph.LoopSlots

/-- The parts of a loop with all its slots complete. -/
structure Loop where
  cond : RegionId
  body : RegionId
  condArgs : List ValueId
  bodyArgs : List ValueId
  yielded : List ValueId

def loopOf? (p : Program) (node : Operation) : Option Loop :=
  match node.regions with
  | [cond, body] => do
    let condRegion ← p.region? cond
    let bodyRegion ← p.region? body
    let last ← p.terminator? body
    let lastNode ← p.op? last
    let slots := node.operands.length
    if condRegion.args.length = slots ∧ bodyRegion.args.length = slots
        ∧ lastNode.operands.length = slots ∧ node.results.length = slots then
      some ⟨cond, body, condRegion.args, bodyRegion.args, lastNode.operands⟩
    else none
  | _ => none

/-- The slots whose value the body hands on, the highest first. -/
def passthroughSlots (p : Program) (node : Operation) : List Nat :=
  match loopOf? p node with
  | none => []
  | some loop =>
    (List.range node.operands.length).reverse.filter fun i ↦
      loop.yielded[i]? == loop.bodyArgs[i]?

def removeSlot (o : OpId) (slot : Nat) : Edit Unit := do
  let node ← Edit.read (·.op o)
  match loopOf? (← get) node, node.operands[slot]?, node.results[slot]? with
  | some loop, some init, some result =>
    match loop.condArgs[slot]?, loop.bodyArgs[slot]? with
    | some condArg, some bodyArg =>
      Edit.replaceUses bodyArg init
      Edit.replaceUses condArg init
      Edit.replaceUses result init
      match (← get).terminator? loop.body with
      | some last => Edit.removeOperand last slot
      | none => pure ()
      Edit.removeArg loop.cond slot
      Edit.removeArg loop.body slot
      Edit.removeOperand o slot
      Edit.removeResult o slot
    | _, _ => return
  | _, _, _ => return

def simplifyLoop (o : OpId) : Edit Bool := do
  let node ← Edit.read (·.op o)
  if node.kind ≠ "WhileRegion" then return false
  let slots := passthroughSlots (← get) node
  slots.forM (removeSlot o)
  return !slots.isEmpty

def run : Edit Bool := do
  Edit.anyChange (← get).allOps simplifyLoop

def pass : Pass where
  name := "eliminate-passthrough-iter-args"
  run _ := run

end TensorGraph.LoopSlots
