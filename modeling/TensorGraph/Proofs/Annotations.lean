import TensorGraph.Proofs.Growth
import TensorGraph.Proofs.Walks

/-!
Changes to what is known of a program, not to the program: attributes of operations, types of
values, and the attributes and result types of functions. `Annotated p q` says that `q` differs from
`p` in nothing else.
-/

namespace TensorGraph

open List Option

variable {p : Program} {func : Func} {f : Operation → Operation} {v : ValueId} {type : TensorType}

def Operation.bare (node : Operation) : Operation :=
  { node with attrs := .empty }

namespace Program

/-- The programs differ at most in attributes and types. -/
structure Annotated (p q : Program) : Prop where
  length : q.slots.length = p.slots.length
  ops : ∀ o, (q.op? o).map Operation.bare = (p.op? o).map Operation.bare
  free : q.free = p.free
  values : ∀ v, (q.value? v).map (fun value ↦ (value.origin, value.users)) =
    (p.value? v).map fun value ↦ (value.origin, value.users)
  regions : q.regions = p.regions
  funcs : q.funcs.map (fun func ↦ (func.name, func.body)) =
    p.funcs.map fun func ↦ (func.name, func.body)
  graph : q.graph = p.graph

namespace Annotated

lemma refl (p : Program) : Annotated p p :=
  ⟨rfl, fun _ ↦ rfl, rfl, fun _ ↦ rfl, rfl, rfl, rfl⟩

lemma trans {m q : Program} (h : Annotated p m) (h' : Annotated m q) : Annotated p q :=
  ⟨h'.length.trans h.length, fun o ↦ (h'.ops o).trans (h.ops o), h'.free.trans h.free,
    fun v ↦ (h'.values v).trans (h.values v), h'.regions.trans h.regions, h'.funcs.trans h.funcs,
    h'.graph.trans h.graph⟩

lemma modifyOp (p : Program) (o : OpId) (hf : ∀ node, (f node).bare = node.bare) :
    Annotated p (p.modifyOp o f) :=
  ⟨length_modify _ _ _, map_op?_modifyOp p o Operation.bare hf, rfl, fun _ ↦ rfl, rfl, rfl, rfl⟩

lemma setType (p : Program) (v : ValueId) (type : TensorType) : Annotated p (p.setType v type) :=
  ⟨rfl, fun _ ↦ rfl, rfl, map_value?_modifyValue p v _ fun _ ↦ rfl, rfl, rfl, rfl⟩

lemma withFuncs (p : Program) {funcs : List Func}
    (hfuncs : funcs.map (fun func ↦ (func.name, func.body)) = p.funcs.map fun func ↦
    (func.name, func.body)) : Annotated p { p with funcs } :=
  ⟨rfl, fun _ ↦ rfl, rfl, fun _ ↦ rfl, rfl, hfuncs, rfl⟩

lemma foldl {α : Type} {f : Program → α → Program} (hf : ∀ q a, Annotated q (f q a)) (l : List α)
    (p : Program) : Annotated p (l.foldl f p) :=
  foldl_keeps (fun q a hq ↦ hq.trans (hf q a)) l (.refl p)

variable {q : Program} (h : Annotated p q)

include h

lemma map_op? {β : Type} (g : Operation → β) (hg : ∀ node : Operation, g node.bare = g node)
    (o : OpId) : (q.op? o).map g = (p.op? o).map g := by
  have ho := congrArg (Option.map g) (h.ops o)
  simpa only [Option.map_map, Function.comp_def, hg] using ho

lemma isSome_op? (o : OpId) : (q.op? o).isSome = (p.op? o).isSome := by
  rw [← isSome_map (f := Operation.bare), h.ops, isSome_map]

lemma regionsOf (o : OpId) : q.regionsOf o = p.regionsOf o :=
  congrArg (Option.getD · []) (h.map_op? Operation.regions (fun _ ↦ rfl) o)

lemma resultsOf (o : OpId) : q.resultsOf o = p.resultsOf o :=
  congrArg (Option.getD · []) (h.map_op? Operation.results (fun _ ↦ rfl) o)

lemma originOf? (v : ValueId) : q.originOf? v = p.originOf? v := by
  have hv := congrArg (Option.map Prod.fst) (h.values v)
  rwa [Option.map_map, Option.map_map] at hv

lemma region? (r : RegionId) : q.region? r = p.region? r := by
  unfold Program.region?
  rw [h.regions]

lemma opsIn (r : RegionId) : q.opsIn r = p.opsIn r := by
  unfold Program.opsIn
  rw [h.region?]

lemma argsOf (r : RegionId) : q.argsOf r = p.argsOf r := by
  unfold Program.argsOf
  rw [h.region?]

lemma ownerOf? (r : RegionId) : q.ownerOf? r = p.ownerOf? r := by
  unfold Program.ownerOf?
  rw [h.region?]

lemma map_name : q.funcs.map (·.name) = p.funcs.map (·.name) := by
  simpa only [List.map_map, Function.comp_def] using congrArg (List.map Prod.fst) h.funcs

lemma map_body : q.funcs.map (·.body) = p.funcs.map (·.body) := by
  simpa only [List.map_map, Function.comp_def] using congrArg (List.map Prod.snd) h.funcs

lemma roots : q.roots = p.roots := by
  unfold Program.roots
  rw [h.graph, h.map_body]

lemma opsToDepth (depth : Nat) (r : RegionId) : q.opsToDepth depth r = p.opsToDepth depth r := by
  induction depth generalizing r with
  | zero => rfl
  | succ depth ih =>
    unfold Program.opsToDepth
    rw [h.opsIn]
    refine flatMap_congr fun o _ ↦ ?_
    rw [h.regionsOf, flatMap_congr fun inner _ ↦ ih inner]

lemma allOps : q.allOps = p.allOps := by
  unfold Program.allOps Program.walk
  rw [h.roots, h.regions]
  exact flatMap_congr fun r _ ↦ h.opsToDepth _ r

lemma consistent (hp : p.Consistent) : q.Consistent where
  uses := by
    refine hp.uses.of_same h.free h.length (fun o ho ↦ ?_) (fun o ↦ ?_) fun v ↦ ?_
    · have hsome := h.isSome_op? o
      rw [ho] at hsome
      exact not_isSome_iff_eq_none.mp (by simp [hsome])
    · exact congrArg (Option.getD · []) (h.map_op? Operation.operands (fun _ ↦ rfl) o)
    · have hv := congrArg (Option.map Prod.snd) (h.values v)
      rw [Option.map_map, Option.map_map] at hv
      exact congrArg (Option.getD · []) hv
  placed := by
    have hparent (o : OpId) : q.parentOf? o = p.parentOf? o :=
      h.map_op? Operation.parent (fun _ ↦ rfl) o
    refine ⟨fun r o ↦ ?_, fun r ↦ ?_, fun o i v hv ↦ ?_, fun r i v hv ↦ ?_, fun r o ↦ ?_, fun o ↦
      ?_, ?_, ?_, fun func hfunc ↦ ?_, fun r hr ↦ ?_⟩
    · rw [h.opsIn, hparent]
      exact hp.placed.listed r o
    · rw [h.opsIn]
      exact hp.placed.once r
    · rw [h.originOf?]
      exact hp.placed.results o i v (h.resultsOf o ▸ hv)
    · rw [h.originOf?]
      exact hp.placed.args r i v (h.argsOf r ▸ hv)
    · rw [h.regionsOf, h.ownerOf?]
      exact hp.placed.owned r o
    · rw [h.regionsOf]
      exact hp.placed.ownedOnce o
    · rw [h.map_name]
      exact hp.placed.names
    · rw [h.graph, h.ownerOf?]
      exact hp.placed.graph
    · have hbody : func.body ∈ p.funcs.map (·.body) := h.map_body ▸ mem_map_of_mem hfunc
      obtain ⟨old, hold, heq⟩ := mem_map.mp hbody
      rw [h.ownerOf?, ← heq]
      exact hp.placed.bodies old hold
    · cases hr

end Annotated

/-! ### The same change to many operations -/

def mapOps (p : Program) (l : List OpId) (f : Operation → Operation) : Program :=
  l.foldl (fun q o ↦ q.modifyOp o f) p

lemma op?_mapOps (p : Program) {l : List OpId} (hl : l.Nodup) (f : Operation → Operation)
    (x : OpId) : (p.mapOps l f).op? x = if x ∈ l then (p.op? x).map f else p.op? x := by
  induction l generalizing p with
  | nil => exact (if_neg not_mem_nil).symm
  | cons o rest ih =>
    obtain ⟨ho, hrest⟩ := nodup_cons.mp hl
    change ((p.modifyOp o f).mapOps rest f).op? x = _
    rw [ih _ hrest, op?_modifyOp]
    by_cases hx : x = o
    · rw [if_pos hx, if_neg (hx ▸ ho), if_pos (hx ▸ mem_cons_self)]
    · rw [if_neg hx]
      by_cases hmem : x ∈ rest
      · rw [if_pos hmem, if_pos (mem_cons_of_mem _ hmem)]
      · rw [if_neg hmem, if_neg fun h ↦ (mem_cons.mp h).elim hx hmem]

lemma mapOps_rest (p : Program) (l : List OpId) (f : Operation → Operation) :
    p.mapOps l f = { p with slots := (p.mapOps l f).slots } ∧
      (p.mapOps l f).slots.length = p.slots.length := by
  induction l generalizing p with
  | nil => exact ⟨rfl, rfl⟩
  | cons o rest ih =>
    obtain ⟨hrest, hlength⟩ := ih (p.modifyOp o f)
    exact ⟨hrest, hlength.trans (length_modify _ _ _)⟩

lemma Annotated.mapOps (p : Program) (l : List OpId) (hf : ∀ node, (f node).bare = node.bare) :
    Annotated p (p.mapOps l f) :=
  .foldl (f := fun q o ↦ q.modifyOp o f) (fun q o ↦ .modifyOp q o hf) l p

/-! ### Changes that come to the same -/

lemma modifyOp_congr {o : OpId} {node : Operation} (ho : p.op? o = some node)
    {g : Operation → Operation} (h : f node = g node) : p.modifyOp o f = p.modifyOp o g := by
  have hslots : (p.modifyOp o f).slots = (p.modifyOp o g).slots := by
    refine slots_eq_of_op?_eq (by simp [modifyOp]) fun x ↦ ?_
    rw [op?_modifyOp, op?_modifyOp]
    by_cases hx : x = o
    · rw [if_pos hx, if_pos hx, hx, ho, map_some, map_some, h]
    · rw [if_neg hx, if_neg hx]
  exact congrArg (fun slots ↦ { p with slots }) hslots

lemma modifyFunc_congr {name : String} (hfunc : p.func? name = some func)
    {f g : Func → Func} (h : f func = g func) : p.modifyFunc name f = p.modifyFunc name g := by
  have hat : p.funcs[p.funcs.findIdx (·.name == name)]? = some func := by
    rwa [← find?_eq_getElem?_findIdx]
  have hfuncs : (p.modifyFunc name f).funcs = (p.modifyFunc name g).funcs := by
    refine ext_getElem? fun i ↦ ?_
    simp only [modifyFunc, getElem?_modify]
    by_cases hi : p.funcs.findIdx (·.name == name) = i
    · subst hi
      simp [hat, h]
    · simp [hi]
  exact congrArg (fun funcs ↦ { p with funcs }) hfuncs

lemma setType_eq_self (h : p.typeOf? v = some type) : p.setType v type = p := by
  have hvalues : (p.setType v type).values = p.values := by
    refine ext_getElem? fun i ↦ ?_
    refine (value?_modifyValue p v (fun value ↦ { value with type }) ⟨i⟩).trans ?_
    by_cases hv : ValueId.mk i = v
    · subst hv
      obtain ⟨value, hvalue, rfl⟩ := map_eq_some_iff.mp h
      rw [if_pos rfl, hvalue]
      exact hvalue.symm
    · rw [if_neg hv]
      rfl
  exact congrArg (fun values ↦ { p with values }) hvalues

lemma typeOf?_setType (p : Program) (v : ValueId) (type : TensorType) (x : ValueId) :
    (p.setType v type).typeOf? x = if x = v then (p.typeOf? x).map fun _ ↦
    type else p.typeOf? x := by
  rw [typeOf?, setType, value?_modifyValue]
  split_ifs
  · rw [typeOf?, Option.map_map, Option.map_map]
    rfl
  · rfl

/-! ### Types as they are read -/

/-- The type of a value, with nothing known of one that is not there. -/
def typeAt (p : Program) (v : ValueId) : TensorType :=
  (p.typeOf? v).getD .unknown

section Types

variable (hv : v.index < p.values.length)

include hv

lemma typeOf?_eq_typeAt : p.typeOf? v = some (p.typeAt v) := by
  simp [typeAt, typeOf?, value?, hv]

lemma valueType_eq_ok : p.valueType v = .ok (p.typeAt v) := by
  simp [valueType, value, typeAt, typeOf?, value?, hv, Except.map]

end Types

lemma toOption_valueType (p : Program) (v : ValueId) : (p.valueType v).toOption = p.typeOf? v := by
  unfold valueType value typeOf?
  cases p.value? v with
  | none => rfl
  | some value => rfl

lemma lt_of_valueType (h : p.valueType v = .ok type) : v.index < p.values.length := by
  by_contra hge
  have hnone : p.value? v = none := getElem?_eq_none (Nat.le_of_not_lt hge)
  simp [valueType, value, hnone, Except.map] at h

/-! ### The same change to all functions -/

lemma Consistent.isSome_body (h : p.Consistent) (hfunc : func ∈ p.funcs) :
    (p.region? func.body).isSome := by
  rw [← isSome_map (f := Region.owner)]
  exact isSome_iff_exists.mpr ⟨_, h.placed.bodies func hfunc⟩

lemma modify_findIdx_name {front back : List Func}
    (hfront : ∀ other ∈ front, other.name ≠ func.name) (f : Func → Func) :
    (front ++ func :: back).modify ((front ++ func :: back).findIdx (·.name == func.name)) f =
    front ++ f func :: back := by
  induction front with
  | nil => simp [findIdx_cons]
  | cons other rest ih =>
    have hother : (other.name == func.name) = false := by
      simpa using hfront other mem_cons_self
    rw [cons_append, findIdx_cons, hother, cond_false, modify_succ_cons,
      ih fun x hx ↦ hfront x (mem_cons_of_mem _ hx), cons_append]

lemma foldl_modifyFunc (p : Program) {f : Func → Func} (hf : ∀ func, (f func).name = func.name)
    (front back : List Func) (hnodup : ((front ++ back).map (·.name)).Nodup) :
    (back.map (·.name)).foldl (fun q name ↦ q.modifyFunc name f) { p with funcs := front ++ back } =
      { p with funcs := front ++ back.map f } := by
  induction back generalizing front with
  | nil => rfl
  | cons func rest ih =>
    have hfront : ∀ other ∈ front, other.name ≠ func.name := by
      intro other hother heq
      rw [map_append, map_cons] at hnodup
      exact (nodup_append'.mp hnodup).2.2 (mem_map_of_mem hother) (heq ▸ mem_cons_self)
    have hstep : ({ p with funcs := front ++ func :: rest } : Program).modifyFunc func.name f =
        { p with funcs := (front ++ [f func]) ++ rest } := by
      unfold modifyFunc
      rw [modify_findIdx_name hfront, append_assoc, singleton_append]
    rw [map_cons, foldl_cons, hstep, ih]
    · rw [append_assoc, singleton_append, map_cons]
    · simpa [hf] using hnodup

lemma Consistent.foldl_modifyFunc (h : p.Consistent)
    {f : Func → Func} (hf : ∀ func, (f func).name = func.name) :
    (p.funcs.map (·.name)).foldl (fun q name ↦ q.modifyFunc name f) p =
      { p with funcs := p.funcs.map f } :=
  Program.foldl_modifyFunc p hf [] p.funcs h.placed.names

end Program

end TensorGraph
