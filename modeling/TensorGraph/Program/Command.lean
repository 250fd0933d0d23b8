import TensorGraph.Program.Edit.Copy
import TensorGraph.Program.Edit.Value

/-!
Commands: the edits of a program as data. A program is built by running commands from the empty one,
and `Reachable` holds of the programs that can be built so, whether or not the commands on the way
succeeded.
-/

namespace TensorGraph

/-- One of the attribute sets of a function. -/
inductive FuncSlot where
  | self
  | arg (index : Nat)
  | result (index : Nat)
  deriving DecidableEq, Repr

def Func.modifyAttrs (func : Func) (slot : FuncSlot) (f : AttributeSet → AttributeSet) : Func :=
  match slot with
  | .self => { func with attrs := f func.attrs }
  | .arg index => { func with argAttrs := func.argAttrs.modify index f }
  | .result index => { func with resultAttrs := func.resultAttrs.modify index f }

def Func.attrsAt? (func : Func) : FuncSlot → Option AttributeSet
  | .self => some func.attrs
  | .arg index => func.argAttrs[index]?
  | .result index => func.resultAttrs[index]?

namespace Edit

def readFunc (name : String) : Edit Func := do
  match (← get).func? name with
  | some func => return func
  | none => throw (.invalidGraph (.functionNotFound name))

/-- Sets an attribute of a function, an argument or a result; gives the one it replaces. -/
def setFuncAttr (func : String) (slot : FuncSlot) (name : String) (value : Attribute) :
    Edit (Option Attribute) := do
  let old ← readFunc func
  modify (·.modifyFunc func fun func ↦ func.modifyAttrs slot (·.insert name value))
  return (old.attrsAt? slot).bind (·.get? name)

/-- Declares other result types of a function. The attributes of the results stay as they are. -/
def setFuncResults (func : String) (resultTypes : List TensorType) : Edit Unit := do
  let _ ← readFunc func
  modify (·.modifyFunc func fun func ↦ { func with resultTypes })

end Edit

/-- An edit with its arguments. -/
inductive Command where
  | append (region : RegionId) (new : NewOp)
  | insert (region : RegionId) (index : Nat) (new : NewOp)
  | insertBefore (anchor : OpId) (new : NewOp)
  | addFunction (name : String) (argTypes resultTypes : List TensorType)
  | graphIntoFunction (name : String) (resultTypes : List TensorType)
  | addRegion (op : OpId) (execution : Execution)
  | addArg (region : RegionId) (type : TensorType)
  | removeArg (region : RegionId) (index : Nat)
  | setType (value : ValueId) (type : TensorType)
  | replaceUses (old new : ValueId)
  | addControl (op dep : OpId)
  | setControl (op : OpId) (deps : List OpId)
  | replaceControl (old new : OpId)
  | setOperand (op : OpId) (index : Nat) (value : ValueId)
  | setOperands (op : OpId) (operands : List ValueId)
  | removeOperand (op : OpId) (index : Nat)
  | removeResult (op : OpId) (index : Nat)
  | setForm (op : OpId) (form : Form)
  | erase (op : OpId)
  | move (op : OpId) (region : RegionId) (index : Nat)
  | moveBefore (op anchor : OpId)
  | reorder (region : RegionId) (order : List OpId)
  | copyRegion (source target : RegionId) (seed : List (ValueId × ValueId))
  | setAttr (op : OpId) (name : String) (value : Attribute)
  | removeAttr (op : OpId) (name : String)
  | setName (op : OpId) (name : String)
  | setKind (op : OpId) (kind : String)
  | setFuncAttr (func : String) (slot : FuncSlot) (name : String) (value : Attribute)
  | setFuncResults (func : String) (resultTypes : List TensorType)

/-- What a command that succeeds gives. -/
inductive Outcome where
  | done
  | op (id : OpId)
  | value (id : ValueId)
  | region (id : RegionId)
  | flag (holds : Bool)
  | previous (value : Option Attribute)
  | table (entries : List (ValueId × ValueId))

namespace Command

def run : Command → Edit Outcome
  | .append region new => return .op (← Edit.appendOp region new)
  | .insert region index new => return .op (← Edit.insertOp region index new)
  | .insertBefore anchor new => return .op (← Edit.insertOpBefore anchor new)
  | .addFunction name argTypes resultTypes =>
    return .region (← Edit.addFunction name argTypes resultTypes)
  | .graphIntoFunction name resultTypes =>
    return .region (← Edit.graphIntoFunction name resultTypes)
  | .addRegion op execution => return .region (← Edit.addRegion op execution)
  | .addArg region type => return .value (← Edit.addArg region type)
  | .removeArg region index => do Edit.removeArg region index; return .done
  | .setType value type => do Edit.setType value type; return .done
  | .replaceUses old new => do Edit.replaceUses old new; return .done
  | .addControl op dep => return .flag (← Edit.addControl op dep)
  | .setControl op deps => do Edit.setControl op deps; return .done
  | .replaceControl old new => do Edit.replaceControl old new; return .done
  | .setOperand op index value => do Edit.setOperand op index value; return .done
  | .setOperands op operands => do Edit.setOperands op operands; return .done
  | .removeOperand op index => do Edit.removeOperand op index; return .done
  | .removeResult op index => do Edit.removeResult op index; return .done
  | .setForm op form => do Edit.setForm op form; return .done
  | .erase op => do Edit.eraseOp op; return .done
  | .move op region index => do Edit.moveOp op region index; return .done
  | .moveBefore op anchor => do Edit.moveOpBefore op anchor; return .done
  | .reorder region order => do Edit.reorder region order; return .done
  | .copyRegion source target seed => return .table (← Edit.copyRegion source target seed)
  | .setAttr op name value => return .previous (← Edit.setAttr op name value)
  | .removeAttr op name => return .previous (← Edit.removeAttr op name)
  | .setName op name => do Edit.setName op name; return .done
  | .setKind op kind => do Edit.setKind op kind; return .done
  | .setFuncAttr func slot name value =>
    return .previous (← Edit.setFuncAttr func slot name value)
  | .setFuncResults func resultTypes => do Edit.setFuncResults func resultTypes; return .done

/-- The program after a command, whether it succeeded or not. -/
def apply (command : Command) (p : Program) : Program :=
  (command.run.run p).2

end Command

/-- The programs that commands build from the empty one. -/
inductive Reachable : Program → Prop where
  | empty : Reachable .empty
  | step (command : Command) {p : Program} (h : Reachable p) : Reachable (command.apply p)

end TensorGraph
