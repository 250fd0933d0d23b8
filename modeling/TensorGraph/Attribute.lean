import TensorGraph.Tensor

/-!
Attributes: the typed values that operations, functions, arguments and results carry under names.
Two attributes are compared as values, so one that holds a floating-point "not a number" differs
from itself.
-/

namespace TensorGraph

/-- What sort of value an attribute holds. -/
inductive AttributeKind where
  | bool
  | int
  | float
  | string
  | type
  | shape
  | shapes
  | tensor
  | ints
  | strings
  | list
  deriving DecidableEq, Repr

def AttributeKind.describe : AttributeKind → String
  | .bool => "bool"
  | .int => "int"
  | .float => "float"
  | .string => "string"
  | .type => "type"
  | .shape => "shape"
  | .shapes => "shape list"
  | .tensor => "tensor"
  | .ints => "int list"
  | .strings => "string list"
  | .list => "list"

/-- A typed value carried under a name. -/
inductive Attribute where
  | bool (value : Bool)
  | int (value : Int64)
  | float (value : Binary32)
  | string (value : String)
  | type (value : ElementType)
  | shape (value : Shape)
  | shapes (values : List Shape)
  | tensor (value : Tensor)
  | ints (values : List Int64)
  | strings (values : List String)
  | list (values : List Attribute)
  deriving Inhabited

namespace Attribute

def kind : Attribute → AttributeKind
  | .bool _ => .bool
  | .int _ => .int
  | .float _ => .float
  | .string _ => .string
  | .type _ => .type
  | .shape _ => .shape
  | .shapes _ => .shapes
  | .tensor _ => .tensor
  | .ints _ => .ints
  | .strings _ => .strings
  | .list _ => .list

mutual

def equal : Attribute → Attribute → Bool
  | .bool a, .bool b => a == b
  | .int a, .int b => a == b
  | .float a, .float b => Binary32.equal a b
  | .string a, .string b => a == b
  | .type a, .type b => a == b
  | .shape a, .shape b => a == b
  | .shapes a, .shapes b => a == b
  | .tensor a, .tensor b => Tensor.equal a b
  | .ints a, .ints b => a == b
  | .strings a, .strings b => a == b
  | .list a, .list b => equalLists a b
  | _, _ => false

def equalLists : List Attribute → List Attribute → Bool
  | [], [] => true
  | a :: as, b :: bs => equal a b && equalLists as bs
  | _, _ => false

end

instance : BEq Attribute := ⟨equal⟩

end Attribute

end TensorGraph
