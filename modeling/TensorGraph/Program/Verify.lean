import TensorGraph.Program.Walk

/-!
Verification: the checks a program passes when it is well formed. Functions come first, then the
attached regions, each before those nested in it. The first fault found is reported.
-/

namespace TensorGraph.Program

def demand (holds : Bool) (cause : StructureError) : Except Error Unit :=
  if holds then .ok () else .error (.structural cause)

variable (p : Program)

/-- The signature of a function fits its body, which ends by returning as many values as
declared. -/
def verifyFunc (func : Func) : Except Error Unit := do
  let body ← p.region func.body
  demand (func.argAttrs.length == body.args.length
      && func.resultAttrs.length == func.resultTypes.length) (.signatureMismatch func.name)
  match p.terminator? func.body with
  | none => throw (.structural (.noFunctionTerminator func.name))
  | some last =>
    let node ← p.op last
    demand (node.operands.length == func.resultTypes.length)
      (.returnCount func.name node.operands.length func.resultTypes.length)

/-- Checks the functions of a list; `seen` holds the names of those before it. -/
def verifyFuncs : List String → List Func → Except Error Unit
  | _, [] => .ok ()
  | seen, func :: rest => do
    demand (!seen.contains func.name) (.duplicateFunction func.name)
    p.verifyFunc func
    verifyFuncs (func.name :: seen) rest

def isProduced : Origin → Except Error Bool
  | .result o _ => .ok (p.isLive o)
  | .argument r _ => (p.region r).map (·.owner != .detached)

/-- The regions of an operation belong to it and end in a terminator. -/
def verifyNested (o : OpId) (node : Operation) (r : RegionId) :
    Except Error Unit := do
  let region ← p.region r
  demand (region.owner == .op o) (.foreignRegion r node.label)
  demand (p.terminator? r).isSome (.noRegionTerminator r node.label)

/-- Checks one operation of region `r`; `isLast` tells whether it is the last one there. -/
def verifyOp (r : RegionId) (o : OpId) (isLast : Bool) : Except Error Unit := do
  let node ← p.op o
  demand (node.parent == r) (.staleParent node.label)
  demand (!node.isTerminator || isLast) (.misplacedTerminator node.kind)
  node.operands.forM fun v ↦ do
    let value ← p.value v
    demand (← p.isProduced value.origin) (.erasedProducer node.label node.kind)
  node.control.forM fun dep ↦ demand (p.isLive dep) (.erasedControl node.label)
  node.regions.forM (p.verifyNested o node)

def verifyRegion (r : RegionId) : Except Error Unit := do
  let region ← p.region r
  region.args.zipIdx.forM fun (arg, index) ↦ do
    let value ← p.value arg
    demand (value.origin == .argument r index) (.staleArgument index r)
  region.ops.zipIdx.forM fun (o, index) ↦ p.verifyOp r o (index + 1 == region.ops.length)

/-- Whether the program is well formed, with the first fault otherwise. -/
def verify : Except Error Unit := do
  p.verifyFuncs [] p.funcs
  p.allRegions.forM p.verifyRegion

end TensorGraph.Program
