import TensorGraph.ElementType
import TensorGraph.Shape

/-!
Tensor types: an element type and a shape, each of which may be unknown. They are ordered by how
much they say, the unknown type saying nothing, with the meet and the join taken part by part.
-/

namespace TensorGraph

/-- The type of a value, as far as it is known. -/
structure TensorType where
  element : Option ElementType
  shape : Shape
  deriving DecidableEq, Repr, Inhabited

namespace TensorType

def unknown : TensorType where
  element := none
  shape := .unranked

def fixed (element : ElementType) (sizes : List UInt64) : TensorType where
  element := some element
  shape := .fixed sizes

def ofShape (shape : Shape) : TensorType where
  element := none
  shape := shape

def isRefined (t : TensorType) : Bool :=
  t.element.isSome || t.shape.isRanked

def meetElement : Option ElementType → Option ElementType → Option (Option ElementType)
  | some a, some b => if a = b then some (some a) else none
  | none, b => some b
  | a, none => some a

/-- What two types say together; none when they contradict each other. -/
def meet (a b : TensorType) : Option TensorType := do
  let element ← meetElement a.element b.element
  let shape ← a.shape.meet b.shape
  return { element, shape }

def join (a b : TensorType) : TensorType where
  element := if a.element = b.element then a.element else none
  shape := a.shape.join b.shape

def refines (a b : TensorType) : Bool :=
  a.meet b = some a

def render (t : TensorType) : String :=
  "tensor<" ++ t.shape.render ++ (t.element.map ElementType.render).getD "?" ++ ">"

end TensorType

end TensorGraph
