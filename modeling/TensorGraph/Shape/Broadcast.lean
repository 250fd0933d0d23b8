import TensorGraph.Error

/-!
Broadcasting of shapes. Two lists of dimensions are aligned at their right ends, a missing dimension
counts as one, and at each place the sizes have to agree or one of them has to be one.
-/

namespace TensorGraph

def Dim.broadcast : Dim → Dim → Option Dim
  | .known a, .known b =>
    if a = b then some (.known a)
    else if a = 1 then some (.known b)
    else if b = 1 then some (.known a)
    else none
  | .known a, .unknown => some (if a = 1 then .unknown else .known a)
  | .unknown, .known b => some (if b = 1 then .unknown else .known b)
  | .unknown, .unknown => some .unknown

/-- The dimensions with ones put in front up to the given rank. -/
def padDims (rank : Nat) (dims : List Dim) : List Dim :=
  List.replicate (rank - dims.length) (.known 1) ++ dims

/-- Broadcasts two lists of one length; on failure, the first place that does not broadcast. -/
def broadcastDims : Nat → List Dim → List Dim → Except Nat (List Dim)
  | position, a :: as, b :: bs =>
    match a.broadcast b with
    | none => .error position
    | some d => (broadcastDims (position + 1) as bs).map (d :: ·)
  | _, _, _ => .ok []

/-- The shape of what comes of broadcasting two tensors of the given shapes. -/
def Shape.broadcast (a b : Shape) : Except InferenceError Shape :=
  match a, b with
  | .ranked as, .ranked bs =>
    let rank := max as.length bs.length
    match broadcastDims 0 (padDims rank as) (padDims rank bs) with
    | .ok dims => .ok (.ranked dims)
    | .error position => .error (.cannotBroadcast a b position)
  | _, _ => .ok .unranked

end TensorGraph
