import TensorGraph.Pass.Basic
import TensorGraph.Program.Edit.Operation
import TensorGraph.Program.Edit.Value

/-!
Moves what is known of types between attributes and the types themselves.
-/

namespace TensorGraph.TypeAttributes

/-! ### From attributes to types -/

/-- The shapes that an attribute carries: a list of shapes, or a single one. -/
def shapesOf (carrier : Carrier) (place : String) : Attribute → Except Error (List Shape)
  | .shapes shapes => .ok shapes
  | .shape shape => .ok [shape]
  | _ => .error (.structural (.notShapes carrier place))

/-- The types found so far, of values and of function results. -/
structure Refinements where
  values : List (ValueId × TensorType) := []
  results : List ((Nat × Nat) × TensorType) := []

def refineType (carrier : Carrier) (current carried : TensorType) :
    Except Error TensorType :=
  match current.meet carried with
  | some refined => .ok refined
  | none => .error (.structural (.typeConflict carrier carried current))

namespace Refinements

def currentType (p : Program) (found : Refinements) (v : ValueId) : Except Error TensorType :=
  match found.values.lookup v with
  | some type => .ok type
  | none => p.valueType v

def addValue (p : Program) (carrier : Carrier) (found : Refinements) (v : ValueId)
    (carried : TensorType) : Except Error Refinements := do
  let refined ← refineType carrier (← found.currentType p v) carried
  return { found with values := (v, refined) :: found.values.filter (·.1 ≠ v) }

/-- Takes in what is carried for a function result, given by the places of the function and the
result. -/
def addResult (carrier : Carrier) (found : Refinements) (declared : TensorType) (key : Nat × Nat)
    (carried : TensorType) : Except Error Refinements := do
  let refined ← refineType carrier ((found.results.lookup key).getD declared) carried
  return { found with results := (key, refined) :: found.results.filter (·.1 ≠ key) }

end Refinements

def shapeUnder (carrier : Carrier) (attrs : AttributeSet) : Option String → Except Error Shape
  | none => .ok .unranked
  | some name =>
    match attrs.get? name with
    | none => .ok .unranked
    | some (.shape shape) => .ok shape
    | some _ => .error (.structural (.notAShape carrier name))

def elementUnder (carrier : Carrier) (attrs : AttributeSet) :
    Option String → Except Error (Option ElementType)
  | none => .ok none
  | some name =>
    if attrs.contains name then
      match attrs.getType name with
      | .ok element => .ok (some element)
      | .error cause => .error (.structural (.badElement carrier cause))
    else .ok none

/-- The type that the attributes named by a descriptor declare. -/
def declaredType (carrier : Carrier) (descriptor : Descriptor) (attrs : AttributeSet) :
    Except Error TensorType := do
  let shape ← shapeUnder carrier attrs descriptor.shapeAttr
  let element ← elementUnder carrier attrs descriptor.elementAttr
  return { element, shape }

section

variable (p : Program)

/-- Takes in the shapes listed under a name, one for each value. -/
def collectListed (carrier : Carrier) (name : String)
    (fault : Nat → Nat → StructureError) (attrs : AttributeSet) (values : List ValueId)
    (found : Refinements) : Except Error Refinements :=
  match attrs.get? name with
  | none => .ok found
  | some value => do
    let shapes ← shapesOf carrier name value
    if shapes.length ≠ values.length then
      throw (.structural (fault shapes.length values.length))
    (values.zip shapes).foldlM
      (fun found (v, shape) ↦ found.addValue p carrier v (.ofShape shape)) found

/-- Takes in the shapes listed for the results of an operation. -/
def collectOutputShapes (carrier : Carrier) (node : Operation) :
    Refinements → Except Error Refinements :=
  collectListed p carrier outputShapesName (.outputShapeCount carrier) node.attrs node.results

def collectOp (registry : Registry) (found : Refinements) (o : OpId) :
    Except Error Refinements := do
  let node ← p.op o
  let carrier := Carrier.op node.label node.kind
  let found ← collectOutputShapes p carrier node found
  match registry.get? node.kind, node.results with
  | some descriptor, [v] =>
    found.addValue p carrier v (← declaredType carrier descriptor node.attrs)
  | _, _ => return found

/-- Takes in the shapes listed for the arguments of a function. -/
def collectInputShapes (carrier : Carrier) (func : Func) (args : List ValueId) :
    Refinements → Except Error Refinements :=
  collectListed p carrier inputShapesName (.inputShapeCount carrier) func.attrs args

def collectArg (carrier : Carrier) (found : Refinements)
    (arg : ValueId × AttributeSet) : Except Error Refinements :=
  match arg.2.get? outputShapesName with
  | none => .ok found
  | some value => do
    let shapes ← shapesOf carrier "argument" value
    shapes.foldlM (fun found shape ↦ found.addValue p carrier arg.1 (.ofShape shape)) found

end

def collectResult (carrier : Carrier) (place : Nat) (found : Refinements)
    (result : (TensorType × AttributeSet) × Nat) : Except Error Refinements :=
  match result.1.2.get? outputShapesName with
  | none => .ok found
  | some value => do
    let shapes ← shapesOf carrier "result" value
    shapes.foldlM
      (fun found shape ↦
        found.addResult carrier result.1.1 (place, result.2) (.ofShape shape))
      found

/-- Takes in what a function, its arguments and its results carry. -/
def collectFunc (p : Program) (found : Refinements) (func : Func × Nat) :
    Except Error Refinements := do
  let body ← p.region func.1.body
  let carrier := Carrier.function func.1.name
  let found ← collectInputShapes p carrier func.1 body.args found
  let found ← (body.args.zip func.1.argAttrs).foldlM (collectArg p carrier) found
  (func.1.resultTypes.zip func.1.resultAttrs).zipIdx.foldlM (collectResult carrier func.2) found

def collect (registry : Registry) (p : Program) : Except Error Refinements := do
  let found ← p.allOps.foldlM (collectOp p registry) {}
  p.funcs.zipIdx.foldlM (collectFunc p) found

def refineValue (v : ValueId) (type : TensorType) : Edit Bool := do
  if (← Edit.read (·.valueType v)) = type then return false
  Edit.setType v type
  return true

/-- The attributes of an operation that its type makes superfluous. -/
def consumedNames (registry : Registry) (node : Operation) : List String :=
  match registry.get? node.kind, node.results with
  | some descriptor, [_] =>
    outputShapesName :: descriptor.shapeAttr.toList ++ descriptor.elementAttr.toList
  | _, _ => [outputShapesName]

def eraseAll (attrs : AttributeSet) (names : List String) : AttributeSet :=
  names.foldl (fun attrs name ↦ attrs.erase name) attrs

def stripOp (registry : Registry) (o : OpId) : Edit Bool := do
  let node ← Edit.read (·.op o)
  let names := consumedNames registry node
  Edit.updateOp o fun node ↦ { node with attrs := eraseAll node.attrs names }
  return names.any node.attrs.contains

section

variable (found : Refinements) (func : Func) (place : Nat)

/-- A function with the result types found for it and without the superfluous attributes. -/
def stripFunc : Func :=
  { func with
    resultTypes := func.resultTypes.zipIdx.map fun (type, index) ↦
      (found.results.lookup (place, index)).getD type
    argAttrs := func.argAttrs.map (·.erase outputShapesName)
    resultAttrs := func.resultAttrs.map (·.erase outputShapesName)
    attrs := func.attrs.erase inputShapesName }

/-- Whether a function has another result type found for it, or a superfluous attribute. -/
def isStripped : Bool :=
  (stripFunc found func place).resultTypes != func.resultTypes
    || func.attrs.contains inputShapesName
    || (func.argAttrs ++ func.resultAttrs).any (·.contains outputShapesName)

end

def consolidate (registry : Registry) : Edit Bool := do
  let found ← Edit.read (collect registry)
  let refined ← Edit.anyChange found.values fun (v, type) ↦ refineValue v type
  let stripped ← Edit.anyChange (← get).allOps (stripOp registry)
  let funcs := (← get).funcs.zipIdx
  modify fun p ↦ { p with funcs := funcs.map fun (func, place) ↦ stripFunc found func place }
  return refined || stripped || funcs.any fun (func, place) ↦ isStripped found func place

def consolidatePass : Pass where
  name := "consolidate-attributes"
  run := consolidate

/-! ### From types to attributes -/

/-- Writes an attribute; tells whether it was not there before. -/
def write (attrs : AttributeSet) (name : String) (value : Attribute) : AttributeSet × Bool :=
  match attrs.get? name with
  | some old => if old == value then (attrs, false) else (attrs.insert name value, true)
  | none => (attrs.insert name value, true)

/-- Writes attributes in order; tells whether one of them was not there before. -/
def writeAll (attrs : AttributeSet) : List (String × Attribute) → AttributeSet × Bool
  | [] => (attrs, false)
  | (name, value) :: rest =>
    let (attrs, here) := write attrs name value
    let (attrs, there) := writeAll attrs rest
    (attrs, here || there)

/-- The shapes of a list of types, to be written under a name if one of them is ranked. -/
def listedShapes (name : String) (types : List TensorType) : List (String × Attribute) :=
  if types.any (·.shape.isRanked) then [(name, .shapes (types.map (·.shape)))] else []

def declaredShape (descriptor : Descriptor) (type : TensorType) : List (String × Attribute) :=
  if type.shape.isRanked then descriptor.shapeAttr.toList.map (·, .shape type.shape) else []

def declaredElement (descriptor : Descriptor) (type : TensorType) : List (String × Attribute) :=
  match descriptor.elementAttr, type.element with
  | some name, some element => [(name, .type element)]
  | _, _ => []

/-- The attributes to be written for an operation with results of the given types. -/
def opWrites (descriptor : Option Descriptor) (types : List TensorType) :
    List (String × Attribute) :=
  listedShapes outputShapesName types ++
    match descriptor, types with
    | some descriptor, [type] => declaredShape descriptor type ++ declaredElement descriptor type
    | _, _ => []

/-- The attributes to be written for an argument or a result of a function. -/
def slotWrites (type : TensorType) : List (String × Attribute) :=
  listedShapes outputShapesName [type]

/-- The attributes to be written for a function with arguments of the given types. -/
def funcWrites (types : List TensorType) : List (String × Attribute) :=
  listedShapes inputShapesName types

/-- Writes the attributes of arguments or results; those without a type stay as they are. -/
def writeSlots : List TensorType → List AttributeSet → List AttributeSet × Bool
  | type :: types, attrs :: rest =>
    let (attrs, here) := writeAll attrs (slotWrites type)
    let (rest, there) := writeSlots types rest
    (attrs :: rest, here || there)
  | _, rest => (rest, false)

def exportOp (registry : Registry) (o : OpId) : Edit Bool := do
  let node ← Edit.read (·.op o)
  let types ← node.results.mapM fun v ↦ Edit.read (·.valueType v)
  let (attrs, changed) := writeAll node.attrs (opWrites (registry.get? node.kind) types)
  Edit.updateOp o fun node ↦ { node with attrs }
  return changed

/-- A function with its attributes written, and whether one of them was not there before. -/
def exportFunc (argTypes : List TensorType) (func : Func) : Func × Bool :=
  let (attrs, changed) := writeAll func.attrs (funcWrites argTypes)
  let (argAttrs, argsChanged) := writeSlots argTypes func.argAttrs
  let (resultAttrs, resultsChanged) := writeSlots func.resultTypes func.resultAttrs
  ({ func with attrs, argAttrs, resultAttrs }, changed || argsChanged || resultsChanged)

/-- Writes the attributes of a function, its arguments and its results. -/
def exportNamed (name : String) : Edit Bool := do
  let args ← Edit.read (·.funcArgs name)
  let types ← args.mapM fun v ↦ Edit.read (·.valueType v)
  match (← get).func? name with
  | none => return false
  | some func =>
    let (written, changed) := exportFunc types func
    modify (·.modifyFunc name fun _ ↦ written)
    return changed

def exportAttributes (registry : Registry) : Edit Bool := do
  let ops ← Edit.anyChange (← get).allOps (exportOp registry)
  let funcs ← Edit.anyChange ((← get).funcs.map (·.name)) exportNamed
  return ops || funcs

def exportPass : Pass where
  name := "prepare-attributes-for-export"
  run := exportAttributes

end TensorGraph.TypeAttributes
