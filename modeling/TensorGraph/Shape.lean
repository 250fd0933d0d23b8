/-!
Shapes: what is known of the dimensions of a tensor. A shape is unranked, or a list of dimensions
each of which may be unknown.
-/

namespace TensorGraph

/-- One dimension of a ranked shape. -/
inductive Dim where
  | known (size : UInt64)
  | unknown
  deriving DecidableEq, Repr, Inhabited

namespace Dim

def size? : Dim → Option UInt64
  | .known n => some n
  | .unknown => none

def meet : Dim → Dim → Option Dim
  | .unknown, d => some d
  | d, .unknown => some d
  | .known a, .known b => if a = b then some (.known a) else none

def join (a b : Dim) : Dim :=
  if a = b then a else .unknown

def render : Dim → String
  | .known n => toString n.toNat
  | .unknown => "?"

end Dim

/-- The dimensions of a tensor, as far as they are known. -/
inductive Shape where
  | unranked
  | ranked (dims : List Dim)
  deriving DecidableEq, Repr, Inhabited

def checkedMul (a b : UInt64) : Option UInt64 :=
  if a.toNat * b.toNat < UInt64.size then some (a * b) else none

/-- The product of a list of sizes, if every product of a first part of the list is a size. -/
def checkedProduct (sizes : List UInt64) : Option UInt64 :=
  sizes.foldlM checkedMul 1

/-- Pairs up two lists of equal length and combines each pair; fails when a pair does. -/
def meetDims : List Dim → List Dim → Option (List Dim)
  | [], [] => some []
  | a :: as, b :: bs => do
    let d ← a.meet b
    let rest ← meetDims as bs
    return d :: rest
  | _, _ => none

namespace Shape

def fixed (sizes : List UInt64) : Shape :=
  .ranked (sizes.map .known)

def scalar : Shape :=
  .ranked []

def isRanked : Shape → Bool
  | .ranked _ => true
  | .unranked => false

def dims? : Shape → Option (List Dim)
  | .ranked dims => some dims
  | .unranked => none

def rank? (s : Shape) : Option Nat :=
  s.dims?.map List.length

def sizes? (s : Shape) : Option (List UInt64) :=
  s.dims?.bind fun dims ↦ dims.mapM Dim.size?

/-- The number of elements, if every dimension is known and every product of first dimensions is a
size. -/
def elementCount? (s : Shape) : Option UInt64 :=
  s.sizes?.bind checkedProduct

/-- What two shapes say together; none when they contradict each other. -/
def meet : Shape → Shape → Option Shape
  | .unranked, s => some s
  | s, .unranked => some s
  | .ranked a, .ranked b => (meetDims a b).map .ranked

def join : Shape → Shape → Shape
  | .ranked a, .ranked b =>
    if a.length = b.length then .ranked (List.zipWith Dim.join a b) else .unranked
  | _, _ => .unranked

def refines (s t : Shape) : Bool :=
  s.meet t = some s

def render : Shape → String
  | .unranked => "*"
  | .ranked dims => "[" ++ String.intercalate "x" (dims.map Dim.render) ++ "]"

end Shape

end TensorGraph
