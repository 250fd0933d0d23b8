import TensorGraph.Options
import TensorGraph.Pass.Basic
import TensorGraph.Program.Edit.Value

/-!
Propagates types through a program.
-/

namespace TensorGraph.TypePropagation

structure Settings where
  /-- The version the graph was written for, zero if unknown. -/
  graphVersion : Nat := 0
  /-- How often an operation is looked at. -/
  maxIterations : Nat := 32
  deriving DecidableEq, Repr

def passName : String := "shape-inference"

def Settings.ofOptions (options : Options) : Except Error Settings := do
  options.expectOnly passName ["graph-version", "max-iterations"]
  let graphVersion ← options.getWord "graph-version"
  let maxIterations ← options.getSize "max-iterations"
  return { graphVersion := graphVersion.getD 0, maxIterations := maxIterations.getD 32 }

/-! ### What can be said of the results of one operation -/

section

variable (p : Program)

def typesOf (values : List ValueId) : Except Error (List TensorType) :=
  values.mapM p.valueType

/-- The types that the end of a region is given, if there are as many as expected. -/
def yieldedTypes (r : RegionId) (expected : Nat) : Except Error (Option (List TensorType)) :=
  match p.terminator? r with
  | none => .ok none
  | some last => do
    let node ← p.op last
    if node.operands.length = expected then return some (← typesOf p node.operands)
    else return none

/-- What all branches say of the results; none if a branch gives another number of values. -/
def branchTypes (expected : Nat) : List RegionId → Except Error (Option (List TensorType))
  | [] => .ok none
  | r :: rest => do
    match ← yieldedTypes p r expected with
    | none => return none
    | some types =>
      rest.foldlM
        (fun joined r ↦ do
          match joined with
          | none => return none
          | some joined =>
            match ← yieldedTypes p r expected with
            | none => return none
            | some types => return some (List.zipWith TensorType.join joined types))
        (some types)

/-- What the operands of a loop and the values handed on by its body both say, slot by slot. -/
def loopTypes (node : Operation) : Except Error (Option (List TensorType)) :=
  match node.regions with
  | [_, body] => do
    match ← yieldedTypes p body node.operands.length with
    | none => return none
    | some yielded =>
      let initial ← typesOf p node.operands
      return some (List.zipWith TensorType.join initial yielded)
  | _ => .ok none

/-- The result types of the function that an operation calls. -/
def callTypes (node : Operation) : Option (List TensorType) :=
  match node.funcRefs with
  | [] => (p.func? node.kind).map (·.resultTypes)
  | [ref] => (p.func? ref.func).map (·.resultTypes)
  | _ => none

end

section

variable (registry : Registry) (version : Nat) (p : Program)

/-- What the shape rule of the kind says; a rule that fails says nothing. -/
def ruleTypes (node : Operation) : Except Error (Option (List TensorType)) :=
  match registry.shapeRule? node.kind with
  | none => .ok none
  | some rule =>
    match rule { program := p, op := node, version } with
    | .ok types => .ok (some types)
    | .error e => if e.isAbort then .error e else .ok none

/-- What can be said of the results of an operation, by its kind. -/
def inferTypes (node : Operation) : Except Error (Option (List TensorType)) :=
  if node.kind = "IfRegion" ∨ node.kind = "CaseRegion" then
    branchTypes p node.results.length node.regions
  else if node.kind = "WhileRegion" then loopTypes p node
  else if !node.funcRefs.isEmpty || (p.func? node.kind).isSome then .ok (callTypes p node)
  else ruleTypes registry version p node

/-- The types of all results of an operation, as far as something can be said of them. -/
def resultTypes (node : Operation) : Except Error (List TensorType) := do
  if node.results.isEmpty then return []
  match ← inferTypes registry version p node with
  | some types => return if types.length = node.results.length then types else []
  | none => return []

end

/-! ### The queue -/

/-- The operations waiting, and those taken from the queue so far, the last first. -/
structure Agenda where
  queue : List OpId
  visited : List OpId := []

def Agenda.push (agenda : Agenda) (o : OpId) : Agenda :=
  if agenda.queue.contains o then agenda else { agenda with queue := agenda.queue ++ [o] }

/-- The operation to be looked at again when `user` is given a value of another type: `user` itself,
or the owner of the region that it ends. -/
def affectedBy (p : Program) (user : OpId) : Option OpId :=
  match p.op? user with
  | none => none
  | some node => if node.isTerminator then p.parentOp? node.parent else some user

/-- Queues the operations that depend on the type of a value. -/
def Agenda.pushUsers (agenda : Agenda) (p : Program) (v : ValueId) : Agenda :=
  ((((p.value? v).map (·.users)).getD []).filterMap (affectedBy p)).foldl Agenda.push agenda

/-- Refines the type of a value; tells whether that changed it. -/
def refine (v : ValueId) (type : TensorType) : Edit Bool := do
  let current ← Edit.read (·.valueType v)
  match current.meet type with
  | none => return false
  | some refined =>
    if refined = current then return false
    Edit.setType v refined
    return true

/-- Refines the arguments of both regions of a loop; gives those that changed. -/
def refineLoopArgs (node : Operation) : Edit (List ValueId) := do
  match ← Edit.read (loopTypes · node) with
  | none => return []
  | some types =>
    node.regions.foldlM
      (fun changed r ↦ do
        let region ← Edit.read (·.region r)
        if region.args.length ≠ types.length then return changed
        (region.args.zip types).foldlM
          (fun changed (arg, type) ↦ do
            if ← refine arg type then return changed ++ [arg] else return changed)
          changed)
      []

/-- Refines values in turn and queues what depends on those that change. -/
def refineAll (slots : List (ValueId × TensorType)) (agenda : Agenda) : Edit (Agenda × Bool) :=
  slots.foldlM
    (fun (agenda, changed) (v, type) ↦ do
      if ← refine v type then return (agenda.pushUsers (← get) v, true)
      else return (agenda, changed))
    (agenda, false)

def lookAt (registry : Registry) (version : Nat) (o : OpId) (agenda : Agenda) :
    Edit (Agenda × Bool) := do
  let node ← Edit.read (·.op o)
  let args ← if node.kind = "WhileRegion" then refineLoopArgs node else pure []
  let p ← get
  let agenda := args.foldl (fun agenda arg ↦ agenda.pushUsers p arg) agenda
  let types ← Edit.read (resultTypes registry version · node)
  let (agenda, changed) ← refineAll (node.results.zip types) agenda
  return (agenda, changed || !args.isEmpty)

/-- Looks at the waiting operations in turn, in at most the given number of steps. The agenda at the
end holds every operation that was taken from the queue, also those that the limit kept from being
looked at. -/
def propagate (registry : Registry) (settings : Settings) : Nat → Agenda → Edit (Agenda × Bool)
  | 0, agenda => return (agenda, false)
  | steps + 1, agenda => do
    match agenda.queue with
    | [] => return (agenda, false)
    | o :: queue =>
      if !(← get).isLive o then propagate registry settings steps { agenda with queue }
      else
        let visited := o :: agenda.visited
        if visited.count o > settings.maxIterations then
          propagate registry settings steps { queue, visited }
        else
          let (agenda, changed) ← lookAt registry settings.graphVersion o { queue, visited }
          let (agenda, later) ← propagate registry settings steps agenda
          return (agenda, changed || later)

/-- Propagates from all operations. At most `maxIterations` looks at each operation, each of which
can queue every operation, bound the number of steps. -/
def explore (settings : Settings) (registry : Registry) : Edit (Agenda × Bool) := do
  let p ← get
  let agenda := p.allOps.foldl Agenda.push (Agenda.mk [] [])
  let count := p.slots.length
  propagate registry settings (agenda.queue.length + count * settings.maxIterations * count + 1)
    agenda

def run (settings : Settings) (registry : Registry) : Edit Bool := do
  return (← explore settings registry).2

def pass (settings : Settings) : Pass where
  name := passName
  run := run settings

end TensorGraph.TypePropagation
