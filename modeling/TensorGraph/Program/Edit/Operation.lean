import TensorGraph.Program.Edit.Basic

/-!
Edits of operations: making and erasing them, what they wait for, their form, their place, and their
names, kinds and attributes.
-/

namespace TensorGraph.Edit

/-! ### Making -/

def pushResults (o : OpId) (types : List TensorType) (p : Program) : Program :=
  types.zipIdx.foldl (fun p entry ↦ p.pushValue entry.1 (.result o entry.2)) p

def insertOp (r : RegionId) (index : Nat) (new : NewOp) : Edit OpId := do
  let region ← read (·.region r)
  if index > region.ops.length then throw (.invalidGraph (.badInsertion index r))
  checkValues new.operands
  checkOps new.control
  let p ← get
  let o := p.nextOp
  let results := (List.range new.resultTypes.length).map fun i ↦ ValueId.mk (p.values.length + i)
  let node : Operation := {
    name := new.name
    kind := new.kind
    attrs := new.attrs
    operands := new.operands
    results := results
    control := new.control.eraseDups
    form := if new.funcRefs.isEmpty then .plain else .functional new.funcRefs
    parent := r }
  modify fun p ↦
    (new.operands.foldl (fun p v ↦ p.addUse o v)
      (pushResults o new.resultTypes (p.pushOp node))).modifyRegion r
        fun region ↦ { region with ops := region.ops.insertIdx index o }
  return o

def appendOp (r : RegionId) (new : NewOp) : Edit OpId := do
  let region ← read (·.region r)
  insertOp r region.ops.length new

def insertOpBefore (anchor : OpId) (new : NewOp) : Edit OpId := do
  let node ← read (·.op anchor)
  let index ← read (·.position anchor)
  insertOp node.parent index new

/-! ### Control dependencies -/

def addControl (o dep : OpId) : Edit Bool := do
  let _ ← read (·.op dep)
  let node ← read (·.op o)
  if node.control.contains dep then return false
  modify (·.modifyOp o fun node ↦ { node with control := node.control ++ [dep] })
  return true

def setControl (o : OpId) (deps : List OpId) : Edit Unit := do
  checkOps deps
  let _ ← read (·.op o)
  modify (·.modifyOp o fun node ↦ { node with control := deps.eraseDups })

/-- Makes the control dependents of `old` depend on `new` instead; `new` does not come to depend on
itself by this. -/
def replaceControl (old new : OpId) : Edit Unit := do
  let _ ← read (·.op new)
  ((← get).controlDependents old).forM fun dependent ↦ do
    let node ← read (·.op dependent)
    let deps := node.control.map fun d ↦ if d = old then new else d
    setControl dependent (if dependent = new then deps.filter (· ≠ new) else deps)

/-! ### Form, erasure and place -/

/-- Makes an operation plain or functional and drops the regions it had. -/
def setForm (o : OpId) (form : Form) : Edit Unit := do
  if form matches .nested _ then throw (.unsupportedForm .regionFormGiven)
  let node ← read (·.op o)
  modify fun p ↦ node.regions.foldl Program.dropRegion
    (p.modifyOp o fun node ↦ { node with form })

def detach (o : OpId) : Edit Unit := do
  let index ← read (·.position o)
  let node ← read (·.op o)
  modify (·.modifyRegion node.parent fun region ↦ { region with ops := region.ops.eraseIdx index })

def firstUsed (p : Program) (node : Operation) : Option Nat :=
  node.results.findIdx? fun v ↦ (p.value? v).any (·.hasUses)

/-- Erases an operation without used results. Operations that waited for it come to wait for what it
waited for. -/
def eraseOp (o : OpId) : Edit Unit := do
  let node ← read (·.op o)
  match firstUsed (← get) node with
  | some index => throw (.structural (.eraseInUse node.label node.kind index))
  | none =>
    ((← get).controlDependents o).forM fun dependent ↦ do
      let waiting ← read (·.op dependent)
      setControl dependent
        (waiting.control.filter (· ≠ o) ++ node.control.filter (· ≠ dependent))
    detach o
    modify (·.destroy o)

def attach (o : OpId) (r : RegionId) (index : Nat) (p : Program) : Program :=
  (p.modifyRegion r fun region ↦ { region with ops := region.ops.insertIdx index o }).modifyOp o
    fun node ↦ { node with parent := r }

/-- Moves an operation to a place of a region, or to its end if the place is beyond it. The place
counts after the operation has been taken out. -/
def moveOp (o : OpId) (r : RegionId) (index : Nat) : Edit Unit := do
  let _ ← read (·.region r)
  detach o
  let region ← read (·.region r)
  modify (attach o r (min index region.ops.length))

def moveOpBefore (o anchor : OpId) : Edit Unit := do
  if o = anchor then return
  let node ← read (·.op anchor)
  detach o
  let index ← read (·.position anchor)
  modify (attach o node.parent index)

def reorder (r : RegionId) (order : List OpId) : Edit Unit := do
  let region ← read (·.region r)
  let distinctCount := region.ops.eraseDups.length
  if region.ops.all order.contains && order.all region.ops.contains
      && order.length == distinctCount then
    modify (·.setOps r order)
  else throw (.invalidGraph (.notPermutation r))

/-! ### Names, kinds and attributes -/

def updateOp (o : OpId) (f : Operation → Operation) : Edit Unit := do
  let _ ← read (·.op o)
  modify (·.modifyOp o f)

def setName (o : OpId) (name : String) : Edit Unit :=
  updateOp o fun node ↦ { node with name }

def setKind (o : OpId) (kind : String) : Edit Unit :=
  updateOp o fun node ↦ { node with kind }

def setAttr (o : OpId) (name : String) (value : Attribute) : Edit (Option Attribute) := do
  let node ← read (·.op o)
  modify (·.modifyOp o fun node ↦ { node with attrs := node.attrs.insert name value })
  return node.attrs.get? name

def removeAttr (o : OpId) (name : String) : Edit (Option Attribute) := do
  let node ← read (·.op o)
  modify (·.modifyOp o fun node ↦ { node with attrs := node.attrs.erase name })
  return node.attrs.get? name

end TensorGraph.Edit
