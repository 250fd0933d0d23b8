import TensorGraph.Error

/-!
Programs: one graph and named functions, made of regions of operations. Operations, values and
regions are held in tables and named by handles.
-/

namespace TensorGraph

/-- Where a value comes from. -/
inductive Origin where
  | result (op : OpId) (index : Nat)
  | argument (region : RegionId) (index : Nat)
  deriving DecidableEq, Repr, Inhabited

def Origin.op? : Origin → Option OpId
  | .result op _ => some op
  | .argument _ _ => none

/-- A typed value, with one entry in `users` for each operand slot that holds it. -/
structure Value where
  type : TensorType
  origin : Origin
  users : List OpId
  deriving DecidableEq, Repr, Inhabited

def Value.definingOp? (v : Value) : Option OpId :=
  v.origin.op?

def Value.hasUses (v : Value) : Bool :=
  !v.users.isEmpty

/-- How often a region runs when its owner runs. -/
inductive Execution where
  /-- At most once: graphs, function bodies, branches. -/
  | once
  /-- Any number of times: conditions and bodies of loops. -/
  | repeated
  deriving DecidableEq, Repr, Inhabited

/-- What a region belongs to. -/
inductive Owner where
  | graph
  | function
  | op (id : OpId)
  | detached
  deriving DecidableEq, Repr, Inhabited

/-- A list of operations with arguments. -/
structure Region where
  ops : List OpId
  args : List ValueId
  owner : Owner
  execution : Execution
  deriving DecidableEq, Repr, Inhabited

def Region.isOnce (r : Region) : Bool :=
  r.execution == .once

/-- A function named by an operation, with the part it plays there. -/
structure FuncRef where
  role : String
  func : String
  deriving DecidableEq, Repr, Inhabited

/-- How an operation holds the computation it runs. -/
inductive Form where
  | plain
  | functional (refs : List FuncRef)
  | nested (regions : List RegionId)
  deriving DecidableEq, Repr, Inhabited

def returnKind : String := "return"

/-- The kind of the operation that ends a region of an operation. -/
def yieldKind : String := "yield"

/-- An operation. -/
structure Operation where
  name : String
  kind : String
  attrs : AttributeSet
  operands : List ValueId
  results : List ValueId
  control : List OpId
  form : Form
  parent : RegionId
  deriving Inhabited

namespace Operation

def regions (o : Operation) : List RegionId :=
  match o.form with
  | .nested regions => regions
  | _ => []

def funcRefs (o : Operation) : List FuncRef :=
  match o.form with
  | .functional refs => refs
  | _ => []

def isPlain (o : Operation) : Bool :=
  o.form == .plain

def isTerminator (o : Operation) : Bool :=
  o.kind == returnKind || o.kind == yieldKind

def label (o : Operation) : String :=
  if o.name.isEmpty then "<unnamed>" else o.name

end Operation

/-- A named function. Its arguments are those of its body. -/
structure Func where
  name : String
  body : RegionId
  resultTypes : List TensorType
  argAttrs : List AttributeSet
  resultAttrs : List AttributeSet
  attrs : AttributeSet
  deriving Inhabited

/-- The description of an operation to be made. -/
structure NewOp where
  kind : String
  name : String := ""
  operands : List ValueId := []
  resultTypes : List TensorType := []
  control : List OpId := []
  attrs : AttributeSet := .empty
  funcRefs : List FuncRef := []
  deriving Inhabited

/-- Functions and one graph, with the tables of all operations, values and regions. -/
structure Program where
  slots : List (Option Operation)
  free : List OpId
  values : List Value
  regions : List Region
  funcs : List Func
  graph : RegionId
  deriving Inhabited

namespace Program

def empty : Program where
  slots := []
  free := []
  values := []
  regions := [{ ops := [], args := [], owner := .graph, execution := .once }]
  funcs := []
  graph := ⟨0⟩

variable (p : Program)

def op? (o : OpId) : Option Operation :=
  p.slots[o.index]?.join

def value? (v : ValueId) : Option Value :=
  p.values[v.index]?

def region? (r : RegionId) : Option Region :=
  p.regions[r.index]?

def op (o : OpId) : Except Error Operation :=
  match p.op? o with
  | some node => .ok node
  | none => .error (.invalidGraph (.opNotFound o))

def value (v : ValueId) : Except Error Value :=
  match p.value? v with
  | some value => .ok value
  | none => .error (.invalidGraph (.valueNotFound v))

def region (r : RegionId) : Except Error Region :=
  match p.region? r with
  | some region => .ok region
  | none => .error (.invalidGraph (.regionNotFound r))

def valueType (v : ValueId) : Except Error TensorType :=
  (p.value v).map (·.type)

def isLive (o : OpId) : Bool :=
  (p.op? o).isSome

def opIds : List OpId :=
  (List.range p.slots.length).map OpId.mk

def liveOps : List OpId :=
  p.opIds.filter p.isLive

def opCount : Nat :=
  p.liveOps.length

def valueCount : Nat :=
  p.values.length

def result (o : OpId) (index : Nat) : Except Error ValueId := do
  let node ← p.op o
  match node.results[index]? with
  | some v => return v
  | none => throw (.invalidGraph (.noResult node.label index))

/-- The function with the given name, the first if there were several. -/
def func? (name : String) : Option Func :=
  p.funcs.find? (·.name == name)

def funcByBody? (body : RegionId) : Option Func :=
  p.funcs.find? (·.body == body)

def funcArgs (name : String) : Except Error (List ValueId) :=
  match p.func? name with
  | none => .error (.invalidGraph (.functionNotFound name))
  | some func => (p.region func.body).map (·.args)

def parentOp? (r : RegionId) : Option OpId :=
  match p.region? r with
  | some { owner := .op o, .. } => some o
  | _ => none

def terminator? (r : RegionId) : Option OpId := do
  let region ← p.region? r
  let last ← region.ops.getLast?
  let node ← p.op? last
  if node.isTerminator then some last else none

/-- The first operation directly in a region that has the given name. -/
def findOp? (r : RegionId) (name : String) : Option OpId := do
  let region ← p.region? r
  region.ops.find? fun o ↦ (p.op? o).any (·.name == name)

def position (o : OpId) : Except Error Nat := do
  let node ← p.op o
  let region ← p.region node.parent
  match region.ops.idxOf? o with
  | some index => return index
  | none => throw (.invalidGraph (.unlisted o))

/-- The live operations that have `o` among their control dependencies, ascending. -/
def controlDependents (o : OpId) : List OpId :=
  p.opIds.filter fun other ↦ (p.op? other).any (·.control.contains o)

end Program

end TensorGraph
