import TensorGraph.Program.Basic

/-!
The tables of a program: changes to one entry, new entries, and the freeing of operations. Nothing
here checks its arguments, and a change to an entry that is not there does nothing.
-/

namespace TensorGraph.Program

variable (p : Program)

/-! ### Changes to one entry of a table -/

def modifyOp (o : OpId) (f : Operation → Operation) : Program :=
  { p with slots := p.slots.modify o.index (Option.map f) }

def modifyValue (v : ValueId) (f : Value → Value) : Program :=
  { p with values := p.values.modify v.index f }

def modifyRegion (r : RegionId) (f : Region → Region) : Program :=
  { p with regions := p.regions.modify r.index f }

def modifyFunc (name : String) (f : Func → Func) : Program :=
  { p with funcs := p.funcs.modify (p.funcs.findIdx (·.name == name)) f }

def setOps (r : RegionId) (ops : List OpId) : Program :=
  p.modifyRegion r fun region ↦ { region with ops }

def setOrigin (v : ValueId) (origin : Origin) : Program :=
  p.modifyValue v fun value ↦ { value with origin }

def setType (v : ValueId) (type : TensorType) : Program :=
  p.modifyValue v fun value ↦ { value with type }

def addUse (o : OpId) (v : ValueId) : Program :=
  p.modifyValue v fun value ↦ { value with users := value.users ++ [o] }

def dropUse (o : OpId) (v : ValueId) : Program :=
  p.modifyValue v fun value ↦ { value with users := value.users.erase o }

/-! ### New entries -/

def nextOp : OpId :=
  p.free.head?.getD ⟨p.slots.length⟩

def pushOp (node : Operation) : Program :=
  match p.free with
  | [] => { p with slots := p.slots ++ [some node] }
  | o :: free => { p with slots := p.slots.set o.index (some node), free }

def nextValue : ValueId :=
  ⟨p.values.length⟩

def pushValue (type : TensorType) (origin : Origin) : Program :=
  { p with values := p.values ++ [{ type, origin, users := [] }] }

def nextRegion : RegionId :=
  ⟨p.regions.length⟩

def pushRegion (owner : Owner) (execution : Execution) : Program :=
  { p with regions := p.regions ++ [{ ops := [], args := [], owner, execution }] }

/-! ### Destruction -/

def release (o : OpId) : Program :=
  { p with slots := p.slots.set o.index none, free := o :: p.free }

/-- Frees an operation with its uses of operands and all that is nested in it. The operation goes
before what is nested in it, and the operations of a region go last to first. Each level frees an
operation, so no more levels than operations are needed. -/
def destroyToDepth : Nat → Program → OpId → Program
  | 0, p, _ => p
  | depth + 1, p, o =>
    match p.op? o with
    | none => p
    | some node =>
      node.regions.foldl
        (fun p r ↦
          let inside := ((p.region? r).map (·.ops)).getD []
          (inside.reverse.foldl (destroyToDepth depth) (p.setOps r [])).modifyRegion r
            fun region ↦ { region with owner := .detached })
        (node.operands.foldl (fun p v ↦ p.dropUse o v) (p.release o))

def destroy (o : OpId) : Program :=
  destroyToDepth p.slots.length p o

/-- Frees the operations of a region and cuts the region off. -/
def dropRegion (r : RegionId) : Program :=
  let inside := ((p.region? r).map (·.ops)).getD []
  (inside.reverse.foldl destroy (p.setOps r [])).modifyRegion r
    fun region ↦ { region with owner := .detached }

end TensorGraph.Program
