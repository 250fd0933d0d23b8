import TensorGraph.Program.Basic

/-!
Walks over the nesting of regions: down from a region to all operations and regions inside it, and
up from an operation or a region to what encloses it.
-/

namespace TensorGraph.Program

variable (p : Program)

def opsIn (r : RegionId) : List OpId :=
  ((p.region? r).map (·.ops)).getD []

def regionsOf (o : OpId) : List RegionId :=
  ((p.op? o).map (·.regions)).getD []

/-- The operations of a region down to the given depth, each before what is nested in it. -/
def opsToDepth : Nat → RegionId → List OpId
  | 0, _ => []
  | depth + 1, r =>
    (p.opsIn r).flatMap fun o ↦ o :: (p.regionsOf o).flatMap (opsToDepth depth)

/-- A region and the regions nested in it down to the given depth, each before what is nested in
it. -/
def regionsToDepth : Nat → RegionId → List RegionId
  | 0, _ => []
  | depth + 1, r =>
    r :: (p.opsIn r).flatMap fun o ↦ (p.regionsOf o).flatMap (regionsToDepth depth)

/-- All operations in a region and in the regions nested in it, each before what is nested in it. -/
def walk (r : RegionId) : List OpId :=
  p.opsToDepth p.regions.length r

/-- The regions that belong to no operation: the graph, then the function bodies. -/
def roots : List RegionId :=
  p.graph :: p.funcs.map (·.body)

def allOps : List OpId :=
  p.roots.flatMap p.walk

/-- All attached regions, each before the regions nested in it. -/
def allRegions : List RegionId :=
  p.roots.flatMap (p.regionsToDepth p.regions.length)

/-- Climbs at most `steps` levels from an operation to one that lies directly in `r`. The outer
`none` tells that the steps have run out, the inner one that the climb has ended without finding
one. -/
def ancestorWithin (r : RegionId) : Nat → OpId → Option (Option OpId)
  | 0, _ => none
  | steps + 1, o =>
    match p.op? o with
    | none => some none
    | some node =>
      if node.parent = r then some (some o)
      else
        match p.parentOp? node.parent with
        | none => some none
        | some owner => ancestorWithin r steps owner

/-- Climbs on from a region, without looking for anything. Where an operation has been moved into
itself the nesting turns in a circle, and this does not end. -/
def climbForever {α : Type} (p : Program) (r : RegionId) : Option α :=
  match (p.parentOp? r).bind p.op? with
  | none => none
  | some node => p |>.climbForever node.parent
partial_fixpoint

/-- The operation directly in `r` that is `o` or has `o` nested in it. A climb that takes more steps
than there are regions turns in a circle: it never ends, and proofs see it as one that finds
nothing. -/
def ancestorIn? (r : RegionId) (o : OpId) : Option OpId :=
  match p.ancestorWithin r p.regions.length o with
  | some found => found
  | none => (p.op? o).bind fun node ↦ p.climbForever node.parent

/-- Climbs at most `steps` levels from a region to `outer`; `none` if the steps have run out. -/
def climbsTo (outer : RegionId) : Nat → RegionId → Option Bool
  | 0, _ => none
  | steps + 1, current =>
    if current = outer then some true
    else
      match (p.parentOp? current).bind p.op? with
      | none => some false
      | some node => climbsTo outer steps node.parent

/-- Whether `inner` is `outer` or nested in it. As for `ancestorIn?`, a climb that turns in a circle
never ends, and proofs see it as one that does not come to `outer`. -/
def isWithin (inner outer : RegionId) : Bool :=
  match p.climbsTo outer p.regions.length inner with
  | some found => found
  | none => (p.climbForever inner).getD false

end TensorGraph.Program
