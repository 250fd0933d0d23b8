import TensorGraph.Attribute
import TensorGraph.NameMap

/-!
Attribute sets: attributes by name, with access by the sort of value expected. A name that starts
with an underscore is unregistered: it carries advice that may be dropped.
-/

namespace TensorGraph

/-- The attributes of an operation, function, argument or result. -/
abbrev AttributeSet := NameMap Attribute

/-- Why an attribute cannot be read as asked. -/
inductive AttributeError where
  | missing (name : String)
  | wrongKind (name : String) (expected found : AttributeKind)
  | unknownElement (text name : String)
  | badTensor (fault : TensorFault)
  deriving DecidableEq, Repr

def AttributeError.message : AttributeError → String
  | .missing name => s!"Missing attribute: {name}"
  | .wrongKind name expected found =>
    s!"Attribute {name} is not a {expected.describe} (found {found.describe})"
  | .unknownElement text name => s!"Unknown dtype '{text}' in {name}"
  | .badTensor fault => fault.message

def outputShapesName : String := "_output_shapes"

def inputShapesName : String := "_input_shapes"

def shardingName : String := "_XlaSharding"

def isUnregistered (name : String) : Bool :=
  name.toList.head? == some '_'

namespace AttributeSet

/-- Equality as values: the same names with equal attributes. -/
def equal (a b : AttributeSet) : Bool :=
  a.names == b.names && Attribute.equalLists (a.entries.map (·.2)) (b.entries.map (·.2))

instance : BEq AttributeSet := ⟨equal⟩

def retainRegistered (s : AttributeSet) : AttributeSet :=
  s.filterNames fun name ↦ !isUnregistered name

variable (s : AttributeSet) (name : String)

def require : Except AttributeError Attribute :=
  match s.get? name with
  | some value => .ok value
  | none => .error (.missing name)

def getBool : Except AttributeError Bool := do
  match ← s.require name with
  | .bool value => return value
  | other => throw (.wrongKind name .bool other.kind)

/-- A flag that counts as `fallback` when it is absent or no flag. -/
def boolOr (fallback : Bool) : Bool :=
  match s.getBool name with
  | .ok value => value
  | .error _ => fallback

def getInt : Except AttributeError Int64 := do
  match ← s.require name with
  | .int value => return value
  | other => throw (.wrongKind name .int other.kind)

def getString : Except AttributeError String := do
  match ← s.require name with
  | .string value => return value
  | other => throw (.wrongKind name .string other.kind)

def getType : Except AttributeError ElementType := do
  match ← s.require name with
  | .type value => return value
  | .string text =>
    match ElementType.ofName? text with
    | some value => return value
    | none => throw (.unknownElement text name)
  | other => throw (.wrongKind name .type other.kind)

def getShape : Except AttributeError Shape := do
  match ← s.require name with
  | .shape value => return value
  | other => throw (.wrongKind name .shape other.kind)

def getShapes : Except AttributeError (List Shape) := do
  match ← s.require name with
  | .shapes values => return values
  | other => throw (.wrongKind name .shapes other.kind)

def getTensor : Except AttributeError Tensor := do
  match ← s.require name with
  | .tensor value => return value
  | other => throw (.wrongKind name .tensor other.kind)

def getInts : Except AttributeError (List Int64) := do
  match ← s.require name with
  | .ints values => return values
  | other => throw (.wrongKind name .ints other.kind)

def getStrings : Except AttributeError (List String) := do
  match ← s.require name with
  | .strings values => return values
  | other => throw (.wrongKind name .strings other.kind)

end AttributeSet

end TensorGraph
