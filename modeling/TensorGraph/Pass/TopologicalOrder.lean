import TensorGraph.Digraph
import TensorGraph.Pass.Basic
import TensorGraph.Program.Edit.Operation

/-!
Sorts the operations of every region so that producers and control sources come before what depends
on them. A use nested in an operation counts as a use by that operation, and a terminator stays
last.
-/

namespace TensorGraph.TopologicalOrder

variable (p : Program)

def bodyOps (r : RegionId) : List OpId :=
  (p.opsIn r).filter fun o ↦ p.terminator? r != some o

def family (o : OpId) : List OpId :=
  o :: (p.regionsOf o).flatMap p.walk

section

variable (r : RegionId) (body : List OpId)

/-- The place in `body` of the operation that is `o` or has `o` nested in it. -/
def placeOf (o : OpId) : Option Nat :=
  (p.ancestorIn? r o).bind body.idxOf?

/-- The places that a member of the family of `o` takes operands from. What is produced and used
inside the same operation does not count. -/
def dataSources (place : Nat) (o user : OpId) :
    List Nat :=
  (((p.op? user).map (·.operands)).getD []).filterMap fun v ↦ do
    let value ← p.value? v
    let producer ← value.definingOp?
    let source ← placeOf p r body producer
    if source = place ∧ user ≠ o then none else some source

/-- The places that a member of the family of an operation waits for. -/
def controlSources (place : Nat) (user : OpId) :
    List Nat :=
  (((p.op? user).map (·.control)).getD []).filterMap fun dep ↦ do
    let source ← placeOf p r body dep
    if source = place then none else some source

/-- The edges between places of `body` along which data flows. -/
def dataEdges : Edges :=
  body.zipIdx.flatMap fun (o, place) ↦
    (family p o).flatMap fun user ↦ (dataSources p r body place o user).map (·, place)

/-- The edges between places of `body` that control dependencies make. -/
def controlEdges : Edges :=
  body.zipIdx.flatMap fun (o, place) ↦
    (family p o).flatMap fun user ↦ (controlSources p r body place user).map (·, place)

end

def sortPlaces (data control : Edges) (count : Nat) : List Nat :=
  let all := data ++ control
  (all.orderComponents (all.components count)).flatMap data.orderNodes

/-- The new order of a region; none if it has to stay as it is. -/
def newOrder (r : RegionId) : Except Error (Option (List OpId)) :=
  let body := bodyOps p r
  if body.length < 2 then .ok none
  else
    let data := dataEdges p r body
    if data.hasCycle then .error (.structural (.dataCycle r))
    else
      let places := sortPlaces data (controlEdges p r body) body.length
      let order := places.filterMap (body[·]?) ++ (p.terminator? r).toList
      .ok (if order = p.opsIn r then none else some order)

def plan : Except Error (List (RegionId × List OpId)) :=
  p.allRegions.foldlM
    (fun done r ↦ do
      match ← newOrder p r with
      | some order => return done ++ [(r, order)]
      | none => return done)
    []

def run : Edit Bool := do
  let orders ← Edit.read plan
  orders.forM fun (r, order) ↦ Edit.reorder r order
  return !orders.isEmpty

def pass : Pass where
  name := "topo-sort"
  run _ := run

end TensorGraph.TopologicalOrder
