/-!
Element types of tensors, with the names under which imported graphs refer to them.
-/

namespace TensorGraph

/-- The type of the elements of a tensor. -/
inductive ElementType where
  | f16
  | f32
  | f64
  | i8
  | i32
  | i64
  | u8
  | bool
  | string
  | resource
  | variant
  deriving DecidableEq, Repr, Inhabited

namespace ElementType

def render : ElementType → String
  | .f16 => "F16"
  | .f32 => "F32"
  | .f64 => "F64"
  | .i8 => "I8"
  | .i32 => "I32"
  | .i64 => "I64"
  | .u8 => "U8"
  | .bool => "Bool"
  | .string => "String"
  | .resource => "Resource"
  | .variant => "Variant"

/-- Every name an element type may be given by, with the type. -/
def aliases : List (String × ElementType) :=
  [("DT_HALF", .f16), ("f16", .f16), ("float16", .f16),
   ("DT_FLOAT", .f32), ("f32", .f32), ("float32", .f32),
   ("DT_DOUBLE", .f64), ("f64", .f64), ("float64", .f64),
   ("DT_INT8", .i8), ("i8", .i8), ("int8", .i8),
   ("DT_INT32", .i32), ("i32", .i32), ("int32", .i32),
   ("DT_INT64", .i64), ("i64", .i64), ("int64", .i64),
   ("DT_UINT8", .u8), ("u8", .u8), ("uint8", .u8),
   ("DT_BOOL", .bool), ("bool", .bool),
   ("DT_STRING", .string), ("string", .string),
   ("DT_RESOURCE", .resource), ("resource", .resource),
   ("DT_VARIANT", .variant), ("variant", .variant)]

def ofName? (name : String) : Option ElementType :=
  aliases.lookup name

end ElementType

end TensorGraph
