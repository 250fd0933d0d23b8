import TensorGraph.Inference.Context
import TensorGraph.Text.Quoted

/-!
Registries: what is known of the kinds of operation. A kind that is not registered is taken to have
side effects, to call nothing and to have no shape rule.
-/

namespace TensorGraph

/-- What is known of a kind of operation. -/
structure Descriptor where
  /-- Operations of the kind have no side effects. -/
  stateless : Bool := false
  /-- Operations of the kind run a function. -/
  call : Bool := false
  shapeRule : Option ShapeRule := none
  /-- The attribute that declares the shape of the single result. -/
  shapeAttr : Option String := none
  /-- The attribute that declares the element type of the single result. -/
  elementAttr : Option String := none
  deriving Inhabited

private def renderFlag (flag : Bool) : String :=
  if flag then "true" else "false"

private def renderName : Option String → String
  | some name => "Some(" ++ Text.quoted name ++ ")"
  | none => "None"

def Descriptor.render (d : Descriptor) : String :=
  "OpDescriptor \x7b stateless: " ++ renderFlag d.stateless ++ ", call: " ++ renderFlag d.call
    ++ ", shape_fn: " ++ renderFlag d.shapeRule.isSome ++ ", shape_attr: "
    ++ renderName d.shapeAttr ++ ", dtype_attr: " ++ renderName d.elementAttr ++ " \x7d"

/-- Descriptors by kind. -/
abbrev Registry := NameMap Descriptor

namespace Registry

section

variable (registry : Registry) (kind : String)

def isStateless : Bool :=
  (registry.get? kind).any (·.stateless)

def isCall : Bool :=
  (registry.get? kind).any (·.call)

def shapeRule? : Option ShapeRule :=
  (registry.get? kind).bind (·.shapeRule)

end

end Registry

end TensorGraph
