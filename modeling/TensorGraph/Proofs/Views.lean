import Mathlib.Data.List.Nodup
import TensorGraph.Program.Command
import TensorGraph.Program.Walk

/-!
What can be read off a program under a handle, and how each change to a table shows in it. A handle
that names nothing reads as the empty list, so that statements about all handles need no case for
it.
-/

attribute [ext] TensorGraph.OpId TensorGraph.ValueId TensorGraph.RegionId

namespace TensorGraph.Program

open List Option

variable {p q : Program} {o : OpId} {β α : Type} {f : Operation → Operation} {r : RegionId}
  {v : ValueId} {value : Value}

/-! ### The views -/

section Views

variable (p : Program)

def operandsOf (o : OpId) : List ValueId :=
  ((p.op? o).map (·.operands)).getD []

def resultsOf (o : OpId) : List ValueId :=
  ((p.op? o).map (·.results)).getD []

def controlOf (o : OpId) : List OpId :=
  ((p.op? o).map (·.control)).getD []

/-- The region an operation lies in. -/
def parentOf? (o : OpId) : Option RegionId :=
  (p.op? o).map (·.parent)

def argsOf (r : RegionId) : List ValueId :=
  ((p.region? r).map (·.args)).getD []

def ownerOf? (r : RegionId) : Option Owner :=
  (p.region? r).map (·.owner)

def originOf? (v : ValueId) : Option Origin :=
  (p.value? v).map (·.origin)

def typeOf? (v : ValueId) : Option TensorType :=
  (p.value? v).map (·.type)

/-- The operations that a value has on record as using it. -/
def usersOf (v : ValueId) : List OpId :=
  ((p.value? v).map (·.users)).getD []

end Views

lemma parentOp?_eq_some : p.parentOp? r = some o ↔ p.ownerOf? r = some (.op o) := by
  unfold parentOp? ownerOf?
  rcases p.region? r with _ | ⟨ops, args, owner, execution⟩
  · simp
  · cases owner <;> simp

lemma definingOp?_eq_some : value.definingOp? = some o ↔
    ∃ index, value.origin = .result o index := by
  unfold Value.definingOp?
  rcases value.origin with ⟨op, index⟩ | ⟨region, index⟩
  · simp [Origin.op?]
  · simp [Origin.op?]

section Opened

variable {node : Operation} {region : Region} {value : Value}

section

variable (h : p.op? o = some node)

include h

lemma operandsOf_eq : p.operandsOf o = node.operands := by
  simp [operandsOf, h]

lemma resultsOf_eq : p.resultsOf o = node.results := by
  simp [resultsOf, h]

lemma controlOf_eq : p.controlOf o = node.control := by
  simp [controlOf, h]

lemma parentOf?_eq : p.parentOf? o = some node.parent := by
  simp [parentOf?, h]

lemma regionsOf_eq : p.regionsOf o = node.regions := by
  simp [regionsOf, h]

end

lemma opsIn_eq (h : p.region? r = some region) : p.opsIn r = region.ops := by
  simp [opsIn, h]

lemma argsOf_eq (h : p.region? r = some region) : p.argsOf r = region.args := by
  simp [argsOf, h]

lemma originOf?_eq (h : p.value? v = some value) : p.originOf? v = some value.origin := by
  simp [originOf?, h]

lemma isSome_value?_of_originOf? {origin : Origin} (h : p.originOf? v = some origin) :
    (p.value? v).isSome := by
  rw [originOf?, map_eq_some_iff] at h
  obtain ⟨value, hvalue, -⟩ := h
  exact isSome_of_eq_some hvalue

lemma usersOf_eq (h : p.value? v = some value) : p.usersOf v = value.users := by
  simp [usersOf, h]

lemma index_lt_of_isSome (h : (p.op? o).isSome) : o.index < p.slots.length := by
  by_contra hge
  rw [op?, getElem?_eq_none (Nat.le_of_not_lt hge)] at h
  cases h

lemma exists_op_of_parentOf? (h : p.parentOf? o = some r) : ∃ node, p.op? o = some node ∧
    node.parent = r :=
  map_eq_some_iff.mp h

lemma exists_op_of_mem_regionsOf (h : r ∈ p.regionsOf o) : ∃ node, p.op? o = some node ∧
    r ∈ node.regions := by
  unfold regionsOf at h
  cases hop : p.op? o with
  | none => simp [hop] at h
  | some node => exact ⟨node, rfl, by simpa [hop] using h⟩

lemma isSome_of_parentOf? (h : p.parentOf? o = some r) : (p.op? o).isSome := by
  obtain ⟨node, hnode, -⟩ := exists_op_of_parentOf? h
  exact isSome_of_eq_some hnode

lemma isSome_of_mem_regionsOf (h : r ∈ p.regionsOf o) : (p.op? o).isSome := by
  obtain ⟨node, hnode, -⟩ := exists_op_of_mem_regionsOf h
  exact isSome_of_eq_some hnode

lemma exists_op_of_mem_resultsOf (h : v ∈ p.resultsOf o) : ∃ node, p.op? o = some node ∧
    v ∈ node.results := by
  unfold resultsOf at h
  cases hop : p.op? o with
  | none => simp [hop] at h
  | some node => exact ⟨node, rfl, by simpa [hop] using h⟩

end Opened

lemma slots_eq_of_op?_eq (hlength : q.slots.length = p.slots.length)
    (hops : ∀ o, q.op? o = p.op? o) : q.slots = p.slots := by
  refine ext_getElem hlength fun i hi hi' ↦ ?_
  have hop := hops ⟨i⟩
  unfold op? at hop
  rwa [getElem?_eq_getElem hi, getElem?_eq_getElem hi', join_some, join_some] at hop

/-! ### Changes to one entry -/

section

variable (p)

lemma op?_modifyOp (o : OpId) (f : Operation → Operation) (x : OpId) :
    (p.modifyOp o f).op? x = if x = o then (p.op? x).map f else p.op? x := by
  unfold modifyOp op?
  rw [getElem?_modify]
  by_cases hx : x = o
  · subst hx
    rcases p.slots[x.index]? with _ | _ | node <;> simp
  · have hindex : ¬ o.index = x.index := fun h ↦ hx (OpId.ext h.symm)
    simp [hx, hindex]

lemma value?_modifyValue (v : ValueId) (f : Value → Value) (x : ValueId) :
    (p.modifyValue v f).value? x = if x = v then (p.value? x).map f else p.value? x := by
  unfold modifyValue value?
  rw [getElem?_modify]
  by_cases hx : x = v
  · subst hx
    simp
  · have hindex : ¬ v.index = x.index := fun h ↦ hx (ValueId.ext h.symm)
    simp [hx, hindex]

lemma region?_modifyRegion (r : RegionId) (f : Region → Region) (x : RegionId) :
    (p.modifyRegion r f).region? x = if x = r then (p.region? x).map f else p.region? x := by
  unfold modifyRegion region?
  rw [getElem?_modify]
  by_cases hx : x = r
  · subst hx
    simp
  · have hindex : ¬ r.index = x.index := fun h ↦ hx (RegionId.ext h.symm)
    simp [hx, hindex]

lemma map_ite_map {f : α → α} {g : α → β} (h : ∀ a, g (f a) = g a)
    {c : Prop} [Decidable c] (a : Option α) : (if c then a.map f else a).map g = a.map g := by
  split_ifs
  · rw [Option.map_map]
    exact congrArg (Option.map · a) (funext h)
  · rfl

section

variable (o : OpId)

lemma map_op?_modifyOp (g : Operation → β) (h : ∀ node, g (f node) = g node)
    (x : OpId) : ((p.modifyOp o f).op? x).map g = (p.op? x).map g := by
  rw [op?_modifyOp, map_ite_map h]

lemma operandsOf_modifyOp (h : ∀ node, (f node).operands = node.operands)
    (x : OpId) : (p.modifyOp o f).operandsOf x = p.operandsOf x :=
  congrArg (·.getD []) (map_op?_modifyOp p o (·.operands) h x)

lemma resultsOf_modifyOp (h : ∀ node, (f node).results = node.results) (x : OpId) :
    (p.modifyOp o f).resultsOf x = p.resultsOf x :=
  congrArg (·.getD []) (map_op?_modifyOp p o (·.results) h x)

lemma controlOf_modifyOp (h : ∀ node, (f node).control = node.control) (x : OpId) :
    (p.modifyOp o f).controlOf x = p.controlOf x :=
  congrArg (·.getD []) (map_op?_modifyOp p o (·.control) h x)

lemma parentOf?_modifyOp (h : ∀ node, (f node).parent = node.parent) (x : OpId) :
    (p.modifyOp o f).parentOf? x = p.parentOf? x :=
  map_op?_modifyOp p o (·.parent) h x

lemma regionsOf_modifyOp (h : ∀ node, (f node).regions = node.regions) (x : OpId) :
    (p.modifyOp o f).regionsOf x = p.regionsOf x :=
  congrArg (·.getD []) (map_op?_modifyOp p o (·.regions) h x)

end

end

/-- The update changes neither what the operation reads and defines nor where it stands. -/
structure KeepsLinks (f : Operation → Operation) : Prop where
  operands : ∀ node, (f node).operands = node.operands := by exact fun _ ↦ rfl
  parent : ∀ node, (f node).parent = node.parent := by exact fun _ ↦ rfl
  results : ∀ node, (f node).results = node.results := by exact fun _ ↦ rfl
  regions : ∀ node, (f node).regions = node.regions := by exact fun _ ↦ rfl

section

variable (p)

lemma map_value?_modifyValue (v : ValueId) {f : Value → Value} (g : Value → β)
    (h : ∀ value, g (f value) = g value) (x : ValueId) :
    ((p.modifyValue v f).value? x).map g = (p.value? x).map g := by
  rw [value?_modifyValue, map_ite_map h]

section

variable (r : RegionId) {f : Region → Region}

lemma map_region?_modifyRegion (g : Region → β)
    (h : ∀ region, g (f region) = g region) (x : RegionId) :
    ((p.modifyRegion r f).region? x).map g = (p.region? x).map g := by
  rw [region?_modifyRegion, map_ite_map h]

lemma opsIn_modifyRegion (h : ∀ region, (f region).ops = region.ops) (x : RegionId)
    : (p.modifyRegion r f).opsIn x = p.opsIn x :=
  congrArg (·.getD []) (map_region?_modifyRegion p r (·.ops) h x)

lemma argsOf_modifyRegion (h : ∀ region, (f region).args = region.args) (x : RegionId)
    : (p.modifyRegion r f).argsOf x = p.argsOf x :=
  congrArg (·.getD []) (map_region?_modifyRegion p r (·.args) h x)

lemma ownerOf?_modifyRegion (h : ∀ region, (f region).owner = region.owner) (x : RegionId) :
    (p.modifyRegion r f).ownerOf? x = p.ownerOf? x :=
  map_region?_modifyRegion p r (·.owner) h x

end

lemma opsIn_setOps (r : RegionId) (ops : List OpId) (hr : (p.region? r).isSome ∨ ops = [])
    (x : RegionId) : (p.setOps r ops).opsIn x = if x = r then ops else p.opsIn x := by
  unfold setOps opsIn
  rw [region?_modifyRegion]
  by_cases hx : x = r
  · subst hx
    rcases hregion : p.region? x with _ | region
    · simp_all
    · simp
  · simp [hx]

lemma usersOf_addUse (o : OpId) (hv : (p.value? v).isSome) (x : ValueId) :
    (p.addUse o v).usersOf x = if x = v then p.usersOf x ++ [o] else p.usersOf x := by
  unfold addUse usersOf
  rw [value?_modifyValue]
  by_cases hx : x = v
  · subst hx
    obtain ⟨value, hvalue⟩ := isSome_iff_exists.mp hv
    simp [hvalue]
  · simp [hx]

lemma usersOf_dropUse (o : OpId) (v x : ValueId) :
    (p.dropUse o v).usersOf x = if x = v then (p.usersOf x).erase o else p.usersOf x := by
  unfold dropUse usersOf
  rw [value?_modifyValue]
  by_cases hx : x = v
  · subst hx
    rcases p.value? x with _ | value <;> simp
  · simp [hx]

end

lemma foldl_keeps {I : Program → Prop} {f : Program → α → Program} (hf : ∀ q a, I q → I (f q a))
    (l : List α) (hp : I p) : I (l.foldl f p) := by
  induction l generalizing p with
  | nil => exact hp
  | cons a rest ih => exact ih (hf p a hp)

/-- The programs differ at most in the users that values have on record. -/
structure SameButUsers (p q : Program) : Prop where
  slots : q.slots = p.slots
  free : q.free = p.free
  regions : q.regions = p.regions
  funcs : q.funcs = p.funcs
  graph : q.graph = p.graph
  origins : ∀ v, q.originOf? v = p.originOf? v

namespace SameButUsers

lemma refl (p : Program) : SameButUsers p p :=
  ⟨rfl, rfl, rfl, rfl, rfl, fun _ ↦ rfl⟩

lemma trans {m : Program} (h : SameButUsers p m) (h' : SameButUsers m q) :
    SameButUsers p q :=
  ⟨h'.slots.trans h.slots, h'.free.trans h.free, h'.regions.trans h.regions,
    h'.funcs.trans h.funcs, h'.graph.trans h.graph, fun v ↦ (h'.origins v).trans (h.origins v)⟩

lemma modifyValue (p : Program) (v : ValueId) {f : Value → Value}
    (hf : ∀ value, (f value).origin = value.origin) : SameButUsers p (p.modifyValue v f) :=
  ⟨rfl, rfl, rfl, rfl, rfl, map_value?_modifyValue p v (·.origin) hf⟩

lemma foldl {f : Program → α → Program} (hf : ∀ q a, SameButUsers q (f q a)) (l : List α)
    (p : Program) : SameButUsers p (l.foldl f p) :=
  foldl_keeps (fun q a hq ↦ hq.trans (hf q a)) l (refl p)

lemma addUse (p : Program) (o : OpId) (v : ValueId) : SameButUsers p (p.addUse o v) :=
  modifyValue p v fun _ ↦ rfl

lemma dropUse (p : Program) (o : OpId) (v : ValueId) : SameButUsers p (p.dropUse o v) :=
  modifyValue p v fun _ ↦ rfl

lemma addUses (o : OpId) (l : List ValueId) (p : Program) :
    SameButUsers p (l.foldl (fun q v ↦ q.addUse o v) p) :=
  foldl (fun q v ↦ addUse q o v) l p

lemma dropUses (o : OpId) (l : List ValueId) (p : Program) :
    SameButUsers p (l.foldl (fun q v ↦ q.dropUse o v) p) :=
  foldl (fun q v ↦ dropUse q o v) l p

variable (h : SameButUsers p q)

include h

lemma op? (o : OpId) : q.op? o = p.op? o := by
  unfold Program.op?
  rw [h.slots]

lemma region? (r : RegionId) : q.region? r = p.region? r := by
  unfold Program.region?
  rw [h.regions]

lemma isSome_value? (v : ValueId) : (q.value? v).isSome = (p.value? v).isSome := by
  have horigin := congrArg Option.isSome (h.origins v)
  simpa [originOf?] using horigin

end SameButUsers

/-! ### New entries -/

private lemma getElem?_append_singleton (l : List α) (a : α) (i : Nat) :
    (l ++ [a])[i]? = if i = l.length then some a else l[i]? := by
  by_cases hi : i = l.length
  · simp [hi]
  · rw [if_neg hi, getElem?_append]
    split_ifs with hlt
    · rfl
    · have hlate : 1 ≤ i - l.length := by omega
      rw [getElem?_eq_none (by simpa using hlate), getElem?_eq_none (by omega)]

section

variable (p)

lemma value?_pushValue (type : TensorType) (origin : Origin) (x : ValueId) :
    (p.pushValue type origin).value? x =
      if x = p.nextValue then some { type, origin, users := [] } else p.value? x := by
  unfold pushValue value? nextValue
  rw [getElem?_append_singleton]
  exact if_congr ValueId.ext_iff.symm rfl rfl

lemma region?_pushRegion (owner : Owner) (execution : Execution) (x : RegionId) :
    (p.pushRegion owner execution).region? x =
      if x = p.nextRegion then some { ops := [], args := [], owner, execution }
      else p.region? x := by
  unfold pushRegion region? nextRegion
  rw [getElem?_append_singleton]
  exact if_congr RegionId.ext_iff.symm rfl rfl

lemma value?_nextValue : p.value? p.nextValue = none := by
  simp [value?, nextValue]

lemma region?_nextRegion : p.region? p.nextRegion = none := by
  simp [region?, nextRegion]

lemma value?_pushOp (node : Operation) (v : ValueId) : (p.pushOp node).value? v = p.value? v := by
  unfold pushOp
  split <;> rfl

lemma region?_pushOp (node : Operation) (r : RegionId) :
    (p.pushOp node).region? r = p.region? r := by
  unfold pushOp
  split <;> rfl

lemma op?_release (o x : OpId) : (p.release o).op? x = if x = o then none else p.op? x := by
  unfold release op?
  rw [getElem?_set]
  by_cases hx : x = o
  · subst hx
    by_cases hlt : x.index < p.slots.length <;> simp [hlt]
  · have hindex : ¬ o.index = x.index := fun h ↦ hx (OpId.ext h.symm)
    simp [hx, hindex]

end

/-! ### Free handles -/

structure FreeHandles (p : Program) : Prop where
  dead : ∀ o ∈ p.free, p.op? o = none
  inTable : ∀ o ∈ p.free, o.index < p.slots.length
  distinct : p.free.Nodup

section

variable (h : FreeHandles p)

include h

lemma FreeHandles.op?_nextOp : p.op? p.nextOp = none := by
  unfold nextOp
  rcases hfree : p.free with _ | ⟨o, free⟩
  · simp [op?]
  · exact h.dead o (by simp [hfree])

lemma FreeHandles.op?_pushOp (node : Operation) (x : OpId) :
    (p.pushOp node).op? x = if x = p.nextOp then some node else p.op? x := by
  rcases hfree : p.free with _ | ⟨o, free⟩
  · have hnext : p.nextOp = ⟨p.slots.length⟩ := by simp [nextOp, hfree]
    have hslots : (p.pushOp node).slots = p.slots ++ [some node] := by simp [pushOp, hfree]
    rw [hnext, op?, op?, hslots, getElem?_append_singleton, apply_ite Option.join]
    exact if_congr OpId.ext_iff.symm rfl rfl
  · have hnext : p.nextOp = o := by simp [nextOp, hfree]
    have hslots : (p.pushOp node).slots = p.slots.set o.index (some node) := by
      simp [pushOp, hfree]
    have hlt := h.inTable o (by simp [hfree])
    rw [hnext, op?, op?, hslots, getElem?_set, if_pos hlt, apply_ite Option.join]
    exact if_congr (by rw [OpId.ext_iff, eq_comm]) rfl rfl

lemma FreeHandles.pushOp (node : Operation) : FreeHandles (p.pushOp node) := by
  have hpush := h.op?_pushOp node
  rcases hfree : p.free with _ | ⟨o, free⟩
  · have hnone : (p.pushOp node).free = [] := by simp [Program.pushOp, hfree]
    exact ⟨by simp [hnone], by simp [hnone], by simp [hnone]⟩
  · have hrest : (p.pushOp node).free = free := by simp [Program.pushOp, hfree]
    have hnext : p.nextOp = o := by simp [nextOp, hfree]
    have hdistinct := h.distinct
    rw [hfree, nodup_cons] at hdistinct
    refine ⟨fun x hx ↦ ?_, fun x hx ↦ ?_, hrest ▸ hdistinct.2⟩
    · rw [hrest] at hx
      have hne : x ≠ o := fun heq ↦ hdistinct.1 (heq ▸ hx)
      rw [hpush, hnext, if_neg hne]
      exact h.dead x (by simp [hfree, hx])
    · rw [hrest] at hx
      have := h.inTable x (by simp [hfree, hx])
      simpa [Program.pushOp, hfree] using this

lemma FreeHandles.release (hlive : (p.op? o).isSome) : FreeHandles (p.release o) := by
  have hfresh : o ∉ p.free := fun hmem ↦ by simp [h.dead o hmem] at hlive
  have hindex := index_lt_of_isSome hlive
  refine ⟨fun x hx ↦ ?_, fun x hx ↦ ?_, nodup_cons.mpr ⟨hfresh, h.distinct⟩⟩
  · rw [op?_release]
    split_ifs with heq
    · rfl
    · exact h.dead x ((mem_cons.mp hx).resolve_left heq)
  · have hlength : (p.release o).slots.length = p.slots.length := by simp [Program.release]
    rw [hlength]
    rcases mem_cons.mp hx with rfl | hx
    · exact hindex
    · exact h.inTable x hx

lemma FreeHandles.of_same (hfree : q.free = p.free) (hlength : q.slots.length = p.slots.length)
    (hlive : ∀ o, p.op? o = none → q.op? o = none) : FreeHandles q :=
  ⟨fun o ho ↦ hlive o (h.dead o (hfree ▸ ho)), fun o ho ↦
    hlength ▸ h.inTable o (hfree ▸ ho), hfree ▸ h.distinct⟩

end

lemma isSome_region?_of_ownerOf? {owner : Owner} (h : p.ownerOf? r = some owner) :
    (p.region? r).isSome := by
  obtain ⟨region, hregion, -⟩ := map_eq_some_iff.mp h
  exact isSome_of_eq_some hregion

lemma isSome_region?_of_mem_opsIn (ho : o ∈ p.opsIn r) : (p.region? r).isSome := by
  by_contra hnone
  rw [opsIn, not_isSome_iff_eq_none.mp hnone] at ho
  cases ho

lemma isSome_value?_iff : (p.value? v).isSome ↔ v.index < p.values.length := by
  simp [value?]

lemma op_eq_ok {node : Operation} : p.op o = .ok node ↔ p.op? o = some node := by
  unfold op
  cases p.op? o <;> simp

lemma value_eq_ok : p.value v = .ok value ↔ p.value? v = some value := by
  unfold Program.value
  cases p.value? v <;> simp

lemma region_eq_ok {region : Region} : p.region r = .ok region ↔ p.region? r = some region := by
  unfold Program.region
  cases p.region? r <;> simp

end TensorGraph.Program
