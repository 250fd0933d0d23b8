import TensorGraph.Program.Edit.Operation
import TensorGraph.Program.Edit.Region

/-!
Deep copies of regions. The operations of one region are copied in order to the end of another, with
all that is nested in them.
-/

namespace TensorGraph

/-- What stands for what in a copy; the first entry of a key counts. -/
structure CopyMap where
  values : List (ValueId × ValueId) := []
  ops : List (OpId × OpId) := []
  deriving Inhabited

namespace CopyMap

/-- The table with the given values; the last entry of a key counts. -/
def ofValues (entries : List (ValueId × ValueId)) : CopyMap where
  values := entries.foldl (fun done entry ↦ entry :: done.filter (·.1 ≠ entry.1)) []

section

variable (m : CopyMap)

def value (v : ValueId) : ValueId :=
  (m.values.lookup v).getD v

def op (o : OpId) : OpId :=
  (m.ops.lookup o).getD o

def insertValue (old new : ValueId) : CopyMap :=
  { m with values := (old, new) :: m.values.filter (·.1 ≠ old) }

def insertValues (old new : List ValueId) : CopyMap :=
  (old.zip new).foldl (fun m entry ↦ m.insertValue entry.1 entry.2) m

def insertOp (old new : OpId) : CopyMap :=
  { m with ops := (old, new) :: m.ops.filter (·.1 ≠ old) }

end

end CopyMap

namespace Edit

/-- The description of a copy of an operation with the given result types, without its regions. -/
def copyOf (m : CopyMap) (node : Operation) (resultTypes : List TensorType) : NewOp where
  kind := node.kind
  name := node.name
  operands := node.operands.map m.value
  resultTypes := resultTypes
  control := node.control.map m.op
  attrs := node.attrs
  funcRefs := node.funcRefs

def copyArgs (source target : RegionId) (m : CopyMap) : Edit CopyMap := do
  let region ← read (·.region source)
  region.args.foldlM
    (fun m arg ↦ do
      let type ← read (·.valueType arg)
      return m.insertValue arg (← addArg target type))
    m

/-- Copies the operations of `source` to the end of `target`, with what is nested in them down to
the given depth. -/
def copyToDepth : Nat → RegionId → RegionId → CopyMap → Edit CopyMap
  | 0, _, _, m => return m
  | depth + 1, source, target, m => do
    let region ← read (·.region source)
    region.ops.foldlM
      (fun m old ↦ do
        let node ← read (·.op old)
        let types ← node.results.mapM fun v ↦ read (·.valueType v)
        let new ← appendOp target (copyOf m node types)
        let copy ← read (·.op new)
        node.regions.foldlM
          (fun m nested ↦ do
            let inner ← read (·.region nested)
            let r ← addRegion new inner.execution
            let m ← copyArgs nested r m
            copyToDepth depth nested r m)
          ((m.insertOp old new).insertValues node.results copy.results))
      m

/-- Copies the operations of `source` to the end of `target` with all that is nested in them, and
gives the table of what stands for what. -/
def copyRegion (source target : RegionId) (seed : List (ValueId × ValueId)) :
    Edit (List (ValueId × ValueId)) := do
  let m ← copyToDepth (← get).regions.length source target (CopyMap.ofValues seed)
  return m.values

end Edit

end TensorGraph
