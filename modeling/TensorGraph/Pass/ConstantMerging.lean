import TensorGraph.Options
import TensorGraph.Pass.Basic
import TensorGraph.Program.Edit.Operation
import TensorGraph.Program.Edit.Value

/-!
Merges small constants that are equal and lie in one region, and moves those that stay to the front
of the region in the order they had. Merging a constant could change when a call that is not strict
sees it.
-/

namespace TensorGraph.ConstantMerging

structure Settings where
  /-- Constants with more elements are left alone. -/
  maxSize : Nat := 10
  /-- Every call waits for all its operands. -/
  strictCalls : Bool := false
  deriving DecidableEq, Repr

def passName : String := "dedupe-and-hoist-constant"

def Settings.ofOptions (options : Options) : Except Error Settings := do
  options.expectOnly passName ["max-size", "assume-strict-calls"]
  let maxSize ← options.getSize "max-size"
  let strictCalls ← options.getBool "assume-strict-calls"
  return { maxSize := maxSize.getD 10, strictCalls := strictCalls.getD false }

/-- A constant that may be merged and moved: it depends on nothing and is small. -/
def isCandidate (settings : Settings) (p : Program) (o : OpId) : Bool :=
  match p.op? o with
  | none => false
  | some node =>
    node.kind == "Const" && node.operands.isEmpty && node.control.isEmpty
      && node.results.length == 1 && node.isPlain
      && match node.attrs.getTensor "value" with
        | .ok value => value.elementCount ≤ settings.maxSize
        | .error _ => false

variable (p : Program)

/-- An operation that runs a function: of a kind registered so, named like a function, or naming
one. -/
def isCall (registry : Registry) (o : OpId) : Bool :=
  match p.op? o with
  | none => false
  | some node =>
    registry.isCall node.kind || (p.func? node.kind).isSome || !node.funcRefs.isEmpty

def calleesOf (registry : Registry) (o : OpId) : List String :=
  match p.op? o with
  | none => []
  | some node =>
    if isCall p registry o then
      node.funcRefs.map (·.func)
        ++ (if (p.func? node.kind).isSome then [node.kind] else [])
    else []

def calleeBodies (registry : Registry) : List RegionId :=
  let callees := p.allOps.flatMap (calleesOf p registry)
  (p.funcs.filter fun func ↦ callees.contains func.name).map (·.body)

/-- The operations that the results of an operation flow into. What a terminator is given flows into
the results of the operation that owns its region. -/
def flowTargets (o : OpId) : List OpId :=
  match p.op? o with
  | none => []
  | some node =>
    let outer :=
      if node.isTerminator then
        (((p.parentOp? node.parent).bind p.op?).map (·.results)).getD []
      else []
    (node.results ++ outer).flatMap fun v ↦ ((p.value? v).map (·.users)).getD []

/-- Searches along the flow of values, from a stack of operations, for a call other than `start`. -/
def callOnFlow (registry : Registry) (start : OpId) : Nat → List OpId → List OpId → Bool
  | 0, _, _ => false
  | _ + 1, [], _ => false
  | steps + 1, o :: stack, seen =>
    if seen.contains o then callOnFlow registry start steps stack seen
    else if o ≠ start ∧ isCall p registry o then true
    else callOnFlow registry start steps (flowTargets p o ++ stack) (o :: seen)

/-- Whether a value of the operation flows into a call. An operation is left once, for at most all
uses of all values, which bounds the search. -/
def feedsCall (registry : Registry) (o : OpId) : Bool :=
  let uses := (p.values.flatMap (·.users)).length
  callOnFlow p registry o (p.slots.length * (2 * uses) + 1) [o] []

def candidates (settings : Settings) (registry : Registry) (gated : Bool) (p : Program)
    (r : RegionId) : List OpId :=
  (p.opsIn r).filter fun o ↦ isCandidate settings p o && !(gated && feedsCall p registry o)

/-- Equal in kind, attributes and result types; the name does not count. -/
def identical (a b : OpId) : Bool :=
  match p.op? a, p.op? b with
  | some x, some y =>
    x.kind == y.kind && AttributeSet.equal x.attrs y.attrs
      && (x.results.zip y.results).all fun (u, v) ↦
        (p.value? u).map (·.type) == (p.value? v).map (·.type)
  | _, _ => false

/-- The constants that stay, and the others each with the one it is merged into. -/
structure Merge where
  kept : List OpId := []
  merged : List (OpId × OpId) := []

/-- Sorts constants into those that stay and those equal to an earlier one. -/
def mergeOf (constants : List OpId) : Merge :=
  constants.foldl
    (fun merge o ↦
      match merge.kept.find? (identical p · o) with
      | some kept => { merge with merged := merge.merged ++ [(o, kept)] }
      | none => { merge with kept := merge.kept ++ [o] })
    {}

def mergeInto (duplicate kept : OpId) : Edit Unit := do
  let old ← Edit.read (·.result duplicate 0)
  let new ← Edit.read (·.result kept 0)
  Edit.replaceUses old new
  Edit.replaceControl duplicate kept
  Edit.eraseOp duplicate

/-- Moves an operation to a place of its region; tells whether it was elsewhere. -/
def hoist (r : RegionId) (o : OpId) (place : Nat) : Edit Bool := do
  if (← Edit.read (·.position o)) = place then return false
  Edit.moveOp o r place
  return true

def mergeRegion (settings : Settings) (registry : Registry) (gated : Bool) (r : RegionId) :
    Edit Bool := do
  let p ← get
  let merge := mergeOf p (candidates settings registry gated p r)
  merge.merged.forM fun (duplicate, kept) ↦ mergeInto duplicate kept
  let moved ← Edit.anyChange merge.kept.zipIdx fun (o, place) ↦ hoist r o place
  return !merge.merged.isEmpty || moved

def run (settings : Settings) (registry : Registry) : Edit Bool := do
  let p ← get
  let gated := p.allOps.any (isCall p registry) && !settings.strictCalls
  let skipped := if gated then calleeBodies p registry else []
  Edit.anyChange p.allRegions fun r ↦ do
    let now ← get
    if skipped.any (now.isWithin r) then return false
    mergeRegion settings registry gated r

def pass (settings : Settings) : Pass where
  name := passName
  run := run settings

end TensorGraph.ConstantMerging
