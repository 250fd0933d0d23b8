import TensorGraph.Pass.Basic
import TensorGraph.Program.Edit.Operation

/-!
Moves operations without side effects into the only branch that uses them.
-/

namespace TensorGraph.BranchSinking

variable (p : Program)

def isMovable (registry : Registry) (o : OpId) : Bool :=
  match p.op? o with
  | none => false
  | some node =>
    registry.isStateless node.kind && !node.isTerminator && node.isPlain && node.control.isEmpty
      && !node.results.isEmpty && (p.controlDependents o).isEmpty

def usersOf (o : OpId) : List OpId :=
  (((p.op? o).map (·.results)).getD []).flatMap fun v ↦ ((p.value? v).map (·.users)).getD []

def branchOf (branches : List RegionId) (user : OpId) : Option RegionId :=
  (p.op? user).bind fun node ↦ branches.find? (p.isWithin node.parent)

def commonBranch (branches : List RegionId) : List OpId → Option RegionId
  | [] => none
  | user :: rest =>
    match branchOf p branches user with
    | none => none
    | some branch =>
      if rest.all fun other ↦ branchOf p branches other == some branch then some branch else none

/-- The operation in front of which `o` may be put, in a branch of `holder`. -/
def anchor? (o holder : OpId) : Option OpId :=
  let branches := p.regionsOf holder
  if branches.all fun r ↦ (p.region? r).any (·.isOnce) then
    let users := usersOf p o
    (commonBranch p branches users).bind fun branch ↦
      (p.opsIn branch).find? fun candidate ↦
        users.any fun user ↦ p.ancestorIn? branch user == some candidate
  else none

/-- The operation of region `r` that holds the first use of the first result of `o`, if that
operation has regions. -/
def holder? (r : RegionId) (holders : List OpId) (o : OpId) : Option OpId := do
  let node ← p.op? o
  let v ← node.results.head?
  let value ← p.value? v
  let user ← value.users.head?
  let holder ← p.ancestorIn? r user
  if holders.contains holder then some holder else none

def destination? (registry : Registry) (r : RegionId) (holders : List OpId)
    (o : OpId) : Option OpId :=
  if isMovable p registry o then (holder? p r holders o).bind (anchor? p o) else none

/-- Moves the operations of one region that can be moved, the last first, so that a producer can
follow the operations that use it. -/
def sinkRegion (registry : Registry) (r : RegionId) : Edit Bool := do
  let p ← get
  let ops := p.opsIn r
  let holders := ops.filter fun o ↦ !(p.regionsOf o).isEmpty
  if holders.isEmpty then return false
  Edit.anyChange ops.reverse fun o ↦ do
    match destination? (← get) registry r holders o with
    | none => return false
    | some anchor =>
      Edit.moveOpBefore o anchor
      return true

def round (registry : Registry) : Edit Bool := do
  Edit.anyChange (← get).allRegions (sinkRegion registry)

def rounds (registry : Registry) : Nat → Edit Bool
  | 0 => return false
  | count + 1 => do
    if ← round registry then
      let _ ← rounds registry count
      return true
    else return false

/-- A round that moves something puts an operation deeper, and no operation lies deeper than there
are regions, which bounds the rounds. -/
def run (registry : Registry) : Edit Bool := do
  let p ← get
  rounds registry (p.slots.length * p.regions.length + 1)

def pass : Pass where
  name := "control-flow-sink"
  run := run

end TensorGraph.BranchSinking
