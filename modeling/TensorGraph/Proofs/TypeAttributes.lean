import TensorGraph.Proofs.AttributeWrites
import TensorGraph.Proofs.CarriedTypes
import TensorGraph.Proofs.Rewriting

/-!
Attributes and types exchanged. What has been exported is collected without anything being learnt,
so consolidating it restores the program.
-/

namespace TensorGraph.TypeAttributes

open Program Edit List

variable {p : Program} {o : OpId} {v : ValueId} {attrs : AttributeSet} {func : Func}
  {vs : List ValueId} {place index : Nat} {registry : Registry} {name : String}
  {carried type : TensorType} {slots : List AttributeSet} {α : Type} {found found' : Refinements}
  {carrier : Carrier} {arg : ValueId × AttributeSet} {result : (TensorType × AttributeSet) × Nat}
  {node : Operation} {types : List (ValueId × TensorType)}

/-! ### Slots of functions -/

lemma map_erase_writeSlots (types : List TensorType)
    (habsent : ∀ attrs ∈ slots, attrs.get? outputShapesName = none) :
    (writeSlots types slots).1.map (·.erase outputShapesName) = slots := by
  induction types generalizing slots with
  | nil =>
    have hkeep : slots.map (·.erase outputShapesName) = slots.map id :=
      map_congr_left fun attrs hattrs ↦ NameMap.erase_of_get?_eq_none (habsent attrs hattrs)
    rw [writeSlots]
    · exact hkeep.trans (map_id _)
    · rintro _ _ _ _ ⟨⟩
  | cons type types ih =>
    cases slots with
    | nil => rfl
    | cons attrs rest =>
      change ((writeAll attrs (slotWrites type)).1 :: (writeSlots types rest).1).map _ = _
      rw [map_cons, slotWrites, erase_writeAll_listedShapes (habsent attrs mem_cons_self),
        ih fun other hother ↦ habsent other (mem_cons_of_mem _ hother)]

lemma get?_of_mem_zip_writeSlots (type : α → TensorType) {xs : List α}
    (habsent : ∀ attrs ∈ slots, attrs.get? outputShapesName = none) {x : α}
    (h : (x, attrs) ∈ xs.zip (writeSlots (xs.map type) slots).1) :
    attrs.get? outputShapesName = listing [type x] := by
  induction xs generalizing slots with
  | nil => cases h
  | cons y ys ih =>
    cases slots with
    | nil => cases h
    | cons old rest =>
      change (x, attrs) ∈ (y, (writeAll old (slotWrites (type y))).1) ::
        ys.zip (writeSlots (ys.map type) rest).1 at h
      rcases mem_cons.mp h with heq | hmem
      · cases heq
        exact get?_writeAll_listedShapes (habsent old mem_cons_self) [type x]
      · exact ih (fun other hother ↦ habsent other (mem_cons_of_mem _ hother)) hmem

/-! ### Collecting what is known already -/

structure Current (p : Program) (found : Refinements) : Prop where
  values : ∀ entry ∈ found.values, slotType? p (.value entry.1) = some entry.2
  results : ∀ entry ∈ found.results, slotType? p (.result entry.1.1 entry.1.2) = some entry.2

def Repeats (p : Program) (note : Note) : Prop :=
  ∃ type, slotType? p note.1 = some type ∧ type.meet note.2 = some type

lemma Current.take (h : Current p found) {note : Note} (hnote : Repeats p note) :
    ∃ found', found.take p note = some found' ∧ Current p found' := by
  obtain ⟨slot, carried⟩ := note
  obtain ⟨type, htype, hmeet⟩ := hnote
  have hcurrent : found.typeAt? p slot = some type := by
    cases slot with
    | value v =>
      rw [Refinements.typeAt?]
      cases hlookup : found.values.lookup v with
      | none => exact htype
      | some other => exact (h.values (v, other) (mem_of_lookup_eq_some hlookup)).symm.trans htype
    | result place index =>
      rw [Refinements.typeAt?]
      cases hlookup : found.results.lookup (place, index) with
      | none => exact htype
      | some other =>
        exact (h.results ((place, index), other) (mem_of_lookup_eq_some hlookup)).symm.trans htype
  refine ⟨_, take_eq_some_iff.mpr ⟨type, type, hcurrent, hmeet, rfl⟩, ?_⟩
  cases slot with
  | value v =>
    exact ⟨forall_mem_cons.mpr ⟨htype, fun entry hentry ↦ h.values entry (mem_filter.mp hentry).1⟩,
    h.results⟩
  | result place index =>
    exact ⟨h.values, forall_mem_cons.mpr
      ⟨htype, fun entry hentry ↦ h.results entry (mem_filter.mp hentry).1⟩⟩

lemma exists_collect_of_repeats (h : Yields (notes registry p) (Repeats p)) :
    ∃ found, collect registry p = .ok found ∧ Current p found := by
  obtain ⟨l, hl, hnotes⟩ := h
  have hall : ∀ start, Current p start →
      ∃ found, l.foldlM (Refinements.take p) start = some found ∧ Current p found := by
    clear hl
    induction l with
    | nil => exact fun start hstart ↦ ⟨start, rfl, hstart⟩
    | cons note rest ih =>
      intro start hstart
      obtain ⟨next, hnext, hcurrent⟩ := hstart.take (hnotes note mem_cons_self)
      rw [foldlM_cons, hnext]
      exact ih (fun other hother ↦ hnotes other (mem_cons_of_mem _ hother)) next hcurrent
  obtain ⟨found, hfound, hcurrent⟩ := hall {} ⟨fun _ hentry ↦ absurd hentry not_mem_nil,
    fun _ hentry ↦ absurd hentry not_mem_nil⟩
  exact ⟨found, collect_eq_ok_iff.mpr ⟨l, hl, hfound⟩, hcurrent⟩

lemma listedNotes_repeat (hvs : ∀ v ∈ vs, v.index < p.values.length)
    (hread : attrs.get? name = listing (vs.map p.typeAt)) : Yields (listedNotes name attrs vs)
    (Repeats p) := by
  unfold listedNotes
  rw [hread, listing]
  by_cases hranked : (vs.map p.typeAt).any (·.shape.isRanked)
  · rw [if_pos hranked]
    refine ⟨_, if_pos (by simp), fun note hnote ↦ ?_⟩
    rw [map_map, ← map_prod_left_eq_zip, map_map] at hnote
    obtain ⟨v, hv, rfl⟩ := mem_map.mp hnote
    exact ⟨_, typeOf?_eq_typeAt (hvs v hv), TensorType.meet_ofShape_shape _⟩
  · rw [if_neg hranked]
    exact ⟨[], rfl, fun _ hnote ↦ absurd hnote not_mem_nil⟩

lemma attachedNotes_repeat {slot : Slot} (htype : slotType? p slot = some type)
    (hread : attrs.get? outputShapesName = listing [type]) : Yields (attachedNotes attrs slot)
    (Repeats p) := by
  unfold attachedNotes
  rw [hread, listing]
  by_cases hranked : [type].any (·.shape.isRanked)
  · rw [if_pos hranked]
    refine ⟨_, rfl, fun note hnote ↦ ?_⟩
    obtain rfl := mem_singleton.mp hnote
    exact ⟨type, htype, TensorType.meet_ofShape_shape _⟩
  · rw [if_neg hranked]
    exact ⟨[], rfl, fun _ hnote ↦ absurd hnote not_mem_nil⟩

/-- The attributes tell what the types say, as far as they can: shapes are listed where one of them
is ranked, and the attributes that a descriptor names for the shape and the element type of a single
result are there if these are known, and else are not. -/
structure Tells (registry : Registry) (p : Program) : Prop where
  listed : ∀ o ∈ p.allOps, ∀ node, p.op? o = some node →
    node.attrs.get? outputShapesName = listing (node.results.map p.typeAt)
  declared : ∀ o ∈ p.allOps, ∀ node, p.op? o = some node → ∀ descriptor v,
    registry.get? node.kind = some descriptor → node.results = [v] →
      (∀ name, descriptor.shapeAttr = some name → node.attrs.get? name =
        if (p.typeAt v).shape.isRanked then some (.shape (p.typeAt v).shape) else none) ∧
      ∀ name, descriptor.elementAttr = some name →
        node.attrs.get? name = (p.typeAt v).element.map Attribute.type
  inputs : ∀ func ∈ p.funcs,
    func.attrs.get? inputShapesName = listing ((p.argsOf func.body).map p.typeAt)
  args : ∀ func ∈ p.funcs, ∀ v attrs, (v, attrs) ∈ (p.argsOf func.body).zip func.argAttrs →
    attrs.get? outputShapesName = listing [p.typeAt v]
  results : ∀ func ∈ p.funcs, ∀ type attrs, (type, attrs) ∈ func.resultTypes.zip func.resultAttrs →
    attrs.get? outputShapesName = listing [type]

lemma Tells.collect (h : Tells registry p) (hp : p.Consistent) :
    ∃ found, collect registry p = .ok found ∧ Current p found := by
  refine exists_collect_of_repeats (.both (.ofAll fun o ho ↦ ?_) (.ofAll fun func hfunc ↦ ?_))
  · obtain ⟨node, hnode⟩ := Option.isSome_iff_exists.mp (hp.isSome_of_mem_allOps ho)
    have hresults : ∀ v ∈ node.results, v.index < p.values.length := fun v hv ↦
      hp.lt_of_mem_results hnode hv
    rw [opNotes, hnode]
    refine (listedNotes_repeat hresults (h.listed o ho node hnode)).both ?_
    unfold declaredNotes
    split
    case h_1 descriptor v hkind hv =>
      obtain ⟨hshape, helement⟩ := h.declared o ho node hnode descriptor v hkind hv
      obtain ⟨declared, hdeclared, hmeet⟩ :=
        exists_declaredType hshape helement (.op node.label node.kind)
      rw [← toOption_declaredType (.op node.label node.kind), hdeclared]
      refine ⟨_, rfl, forall_mem_singleton.mpr
        ⟨_, typeOf?_eq_typeAt (hresults v (hv ▸ mem_cons_self)), hmeet⟩⟩
    case h_2 => exact ⟨[], rfl, fun _ hnote ↦ absurd hnote not_mem_nil⟩
  · have hat := mem_zipIdx_iff_getElem?.mp hfunc
    have hmem := mem_of_getElem? hat
    obtain ⟨body, hbody⟩ := Option.isSome_iff_exists.mp (hp.isSome_body hmem)
    have hargs : p.argsOf func.1.body = body.args := argsOf_eq hbody
    have hvalues : ∀ v ∈ body.args, v.index < p.values.length :=
      fun v hv ↦ hp.lt_of_mem_argsOf (hargs ▸ hv)
    rw [funcNotes, hbody]
    refine (listedNotes_repeat hvalues (hargs ▸ h.inputs func.1 hmem)).both
      (.both (.ofAll fun arg harg ↦ ?_) (.ofAll fun result hresult ↦ ?_))
    · exact attachedNotes_repeat (typeOf?_eq_typeAt (hvalues arg.1 (of_mem_zip harg).1))
        (h.args func.1 hmem arg.1 arg.2 (hargs ▸ harg))
    · have hresult' := mem_zipIdx_iff_getElem?.mp hresult
      refine attachedNotes_repeat ?_ (h.results func.1 hmem _ _ (mem_of_getElem? hresult'))
      rw [slotType?, hat]
      exact (getElem?_zip_eq_some.mp hresult').1

/-! ### Consolidating -/

def typed (p : Program) (types : List (ValueId × TensorType)) : Program :=
  types.foldl (fun q entry ↦ q.setType entry.1 entry.2) p

def strippedOp (registry : Registry) (node : Operation) : Operation :=
  { node with attrs := eraseAll node.attrs (consumedNames registry node) }

def consolidated (registry : Registry) (found : Refinements) (p : Program) : Program :=
  { (typed p found.values).mapOps p.allOps (strippedOp registry) with
    funcs := p.funcs.zipIdx.map fun entry ↦ stripFunc found entry.1 entry.2 }

lemma refineValue_exec (hv : v.index < p.values.length) (type : TensorType) :
    (refineValue v type).exec p = (.ok (decide (p.typeAt v ≠ type)), p.setType v type) := by
  have hread : (read (·.valueType v)).exec p = (.ok (p.typeAt v), p) := by
    rw [exec_read, valueType_eq_ok hv]
  unfold refineValue
  rw [exec_bind_of_ok hread]
  by_cases htype : p.typeAt v = type
  · rw [if_pos htype, setType_eq_self (htype ▸ typeOf?_eq_typeAt hv), decide_eq_false fun h ↦
      h htype]
    rfl
  · obtain ⟨value, hvalue⟩ : ∃ value, p.value? v = some value := ⟨_, getElem?_eq_getElem hv⟩
    have hset : (setType v type).exec p = (.ok ⟨⟩, p.setType v type) := bind_readValue hvalue _
    rw [if_neg htype, exec_bind_of_ok hset, decide_eq_true htype]
    rfl

lemma stripOp_exec (registry : Registry) (ho : p.op? o = some node) : (stripOp registry o).exec p =
    (.ok ((consumedNames registry node).any node.attrs.contains), p.modifyOp o
    (strippedOp registry)) := by
  have hupdate : (updateOp o fun node' ↦
      { node' with attrs := eraseAll node'.attrs (consumedNames registry node) }).exec p =
        (.ok ⟨⟩, p.modifyOp o (strippedOp registry)) :=
    (updateOp_exec (Option.isSome_of_eq_some ho) _).trans
      (congrArg (Prod.mk _) (modifyOp_congr ho rfl))
  unfold stripOp
  rw [bind_readOp ho, exec_bind_of_ok hupdate]
  rfl

section

variable (p : Program) (types : List (ValueId × TensorType))

lemma annotated_typed : Annotated p (typed p types) :=
  .foldl (f := fun q (entry : ValueId × TensorType) ↦ q.setType entry.1 entry.2)
    (fun q entry ↦ .setType q entry.1 entry.2) types p

lemma typed_rest : typed p types = { p with values := (typed p types).values } := by
  induction types generalizing p with
  | nil => rfl
  | cons entry rest ih => exact ih (p.setType entry.1 entry.2)

end

lemma consolidate_exec (hp : p.Consistent) (hfound : collect registry p = .ok found)
    (hvalues : ∀ entry ∈ found.values, entry.1.index < p.values.length) :
    ∃ changed, (consolidate registry).exec p = (.ok changed, consolidated registry found p) := by
  have hread : (read (collect registry)).exec p = (.ok found, p) := by rw [exec_read, hfound]
  obtain ⟨refined, hrefined⟩ := exec_anyChange (fun q ↦ q.values.length = p.values.length)
    (fun q (entry : ValueId × TensorType) ↦ q.setType entry.1 entry.2) (fun entry hentry q hq ↦
    ⟨(length_modify _ _ _).trans hq, _, refineValue_exec (hq ▸ hvalues entry hentry) entry.2⟩)
    rfl
  have htyped := annotated_typed p found.values
  obtain ⟨stripped, hstripped⟩ := exec_anyChange (Annotated p)
    (fun q o ↦ q.modifyOp o (strippedOp registry)) (l := p.allOps) (fun o ho q hq ↦ by
      have hlive := hp.isSome_of_mem_allOps ho
      rw [← hq.isSome_op?] at hlive
      obtain ⟨node, hnode⟩ := Option.isSome_iff_exists.mp hlive
      exact ⟨hq.trans (.modifyOp q o fun _ ↦ rfl), _, stripOp_exec registry hnode⟩) htyped
  have hdone : consolidated registry found p =
      { (typed p found.values).mapOps p.allOps (strippedOp registry) with
        funcs := ((typed p found.values).mapOps p.allOps (strippedOp registry)).funcs.zipIdx.map
          fun entry ↦ stripFunc found entry.1 entry.2 } := by
    rw [consolidated, (mapOps_rest _ _ _).1, typed_rest]
  unfold consolidate
  rw [exec_bind_of_ok hread, exec_bind_of_ok hrefined, exec_get_bind]
  change ∃ changed, (anyChange (typed p found.values).allOps _ >>= _).exec
    (typed p found.values) = _
  rw [htyped.allOps, exec_bind_of_ok hstripped, exec_get_bind]
  rw [hdone]
  exact ⟨_, rfl⟩

/-! ### Exporting -/

def exportedOp (registry : Registry) (type : ValueId → TensorType) (node : Operation) : Operation :=
  { node with attrs := writtenAttrs registry node type }

def exportedFunc (p : Program) (func : Func) : Func :=
  (exportFunc ((p.argsOf func.body).map p.typeAt) func).1

def exported (registry : Registry) (p : Program) : Program :=
  { p.mapOps p.allOps (exportedOp registry p.typeAt) with funcs := p.funcs.map (exportedFunc p) }

structure SameTypes (p q : Program) : Prop where
  annotated : Annotated p q
  values : q.values = p.values

namespace SameTypes

variable {q : Program} (h : SameTypes p q)

include h

lemma typeAt : q.typeAt = p.typeAt := by
  funext v
  unfold Program.typeAt Program.typeOf? Program.value?
  rw [h.values]

lemma modifyOp (registry : Registry) (type : ValueId → TensorType) (o : OpId) :
    SameTypes p (q.modifyOp o (exportedOp registry type)) :=
  ⟨h.annotated.trans (.modifyOp q o fun _ ↦ rfl), h.values⟩

lemma modifyFunc (name : String) (m : Program) : SameTypes p (q.modifyFunc name (exportedFunc m)) :=
  ⟨h.annotated.trans (.withFuncs q (map_funcs_modifyFunc q name _ fun _ ↦ rfl)), h.values⟩

lemma exportOp_exec (hp : p.Consistent) (registry : Registry) (ho : q.op? o = some node) :
    (exportOp registry o).exec q =
    (.ok (writeAll node.attrs (opWrites (registry.get? node.kind) (node.results.map p.typeAt))).2,
    q.modifyOp o (exportedOp registry p.typeAt)) := by
  have hq := h.annotated.consistent hp
  have htypes : (node.results.mapM fun v ↦ read (·.valueType v)).exec q =
      (.ok (node.results.map q.typeAt), q) :=
    exec_mapM_read fun v hv ↦ valueType_eq_ok (hq.lt_of_mem_results ho hv)
  have hupdate :
      (updateOp o fun node' ↦ { node' with attrs := writtenAttrs registry node p.typeAt }).exec q =
      (.ok ⟨⟩, q.modifyOp o (exportedOp registry p.typeAt)) :=
    (updateOp_exec (Option.isSome_of_eq_some ho) _).trans
      (congrArg (Prod.mk _) (modifyOp_congr ho rfl))
  unfold exportOp
  rw [bind_readOp ho, exec_bind_of_ok htypes, h.typeAt]
  exact exec_bind_of_ok hupdate _

lemma exportNamed_exec (hp : p.Consistent) (hfunc : q.func? name = some func) :
    (exportNamed name).exec q =
    (.ok (exportFunc ((p.argsOf func.body).map p.typeAt) func).2, q.modifyFunc name
    (exportedFunc p)) := by
  have hq := h.annotated.consistent hp
  obtain ⟨body, hbody⟩ := Option.isSome_iff_exists.mp (hq.isSome_body (mem_of_find?_eq_some hfunc))
  have hbodyArgs : body.args = p.argsOf func.body := by
    rw [← h.annotated.argsOf, argsOf_eq hbody]
  have hargs : (read (·.funcArgs name)).exec q = (.ok (p.argsOf func.body), q) := by
    rw [exec_read, funcArgs, hfunc, ← hbodyArgs]
    simp [region, hbody, Except.map]
  have htypes : ((p.argsOf func.body).mapM fun v ↦ read (·.valueType v)).exec q =
    (.ok ((p.argsOf func.body).map q.typeAt), q) := exec_mapM_read fun v hv ↦ valueType_eq_ok
    (hq.lt_of_mem_argsOf (h.annotated.argsOf func.body ▸ hv))
  unfold exportNamed
  rw [exec_bind_of_ok hargs, exec_bind_of_ok htypes, exec_get_bind, hfunc, h.typeAt]
  exact congrArg (Prod.mk _) (modifyFunc_congr hfunc rfl)

end SameTypes

lemma exportAttributes_exec (registry : Registry) (hp : p.Consistent) :
    ∃ changed, (exportAttributes registry).exec p = (.ok changed, exported registry p) := by
  obtain ⟨ops, hops⟩ := exec_anyChange (SameTypes p)
    (fun q o ↦ q.modifyOp o (exportedOp registry p.typeAt)) (l := p.allOps) (fun o ho q hq ↦ by
      have hlive := hp.isSome_of_mem_allOps ho
      rw [← hq.annotated.isSome_op?] at hlive
      obtain ⟨node, hnode⟩ := Option.isSome_iff_exists.mp hlive
      exact ⟨hq.modifyOp registry p.typeAt o, _, hq.exportOp_exec hp registry hnode⟩) ⟨.refl p, rfl⟩
  have hwritten : SameTypes p (p.mapOps p.allOps (exportedOp registry p.typeAt)) :=
    foldl_keeps (fun q o hq ↦ hq.modifyOp registry p.typeAt o) p.allOps ⟨.refl p, rfl⟩
  obtain ⟨funcs, hfuncs⟩ := exec_anyChange (SameTypes p)
    (fun q name ↦ q.modifyFunc name (exportedFunc p)) (l := p.funcs.map (·.name))
    (fun name hname q hq ↦ by
      rw [← hq.annotated.map_name] at hname
      obtain ⟨func, hfunc, hfuncName⟩ := mem_map.mp hname
      have hsome : (q.func? name).isSome := find?_isSome.mpr ⟨func, hfunc, beq_iff_eq.mpr hfuncName⟩
      obtain ⟨first, hfirst⟩ := Option.isSome_iff_exists.mp hsome
      exact ⟨hq.modifyFunc name p, _, hq.exportNamed_exec hp hfirst⟩) hwritten
  have hsame : (p.mapOps p.allOps (exportedOp registry p.typeAt)).funcs = p.funcs := by
    rw [(mapOps_rest _ _ _).1]
  have hall := (hwritten.annotated.consistent hp).foldl_modifyFunc (f := exportedFunc p) fun _ ↦ rfl
  rw [hsame] at hall
  unfold exportAttributes
  rw [exec_get_bind, exec_bind_of_ok hops, exec_get_bind]
  change ∃ changed,
    (anyChange ((p.mapOps p.allOps (exportedOp registry p.typeAt)).funcs.map _) _ >>= _).exec
    (p.mapOps p.allOps (exportedOp registry p.typeAt)) = _
  rw [hsame, exec_bind_of_ok hfuncs, hall]
  exact ⟨_, rfl⟩

/-! ### There and back -/

/-- No attribute is left that a type makes superfluous. -/
structure Stripped (registry : Registry) (p : Program) : Prop where
  ops : ∀ o ∈ p.allOps, ∀ node, p.op? o = some node →
    ∀ name ∈ consumedNames registry node, node.attrs.get? name = none
  funcs : ∀ func ∈ p.funcs, func.attrs.get? inputShapesName = none
  slots : ∀ func ∈ p.funcs, ∀ attrs ∈ func.argAttrs ++ func.resultAttrs,
    attrs.get? outputShapesName = none

section

variable (registry : Registry)

lemma annotated_consolidated (found : Refinements) (p : Program) :
    Annotated p (consolidated registry found p) := by
  have hops := Annotated.mapOps (typed p found.values) p.allOps (f := strippedOp registry)
    fun _ ↦ rfl
  refine ((annotated_typed p found.values).trans hops).trans (.withFuncs _ ?_)
  rw [(mapOps_rest _ _ _).1, typed_rest, map_map]
  change (p.funcs.zipIdx.map ((fun func : Func ↦ (func.name, func.body)) ∘ Prod.fst)) = _
  rw [← map_map, zipIdx_map_fst]

lemma stripped_consolidated (found : Refinements)
    (hnodup : p.allOps.Nodup) : Stripped registry (consolidated registry found p) := by
  refine ⟨fun o ho node hnode name hname ↦ ?_, fun func hfunc ↦ ?_,
    fun func hfunc attrs hattrs ↦ ?_⟩
  · rw [(annotated_consolidated registry found p).allOps] at ho
    change ((typed p found.values).mapOps p.allOps (strippedOp registry)).op? o = some node at hnode
    rw [op?_mapOps _ hnodup, if_pos ho] at hnode
    obtain ⟨old, -, rfl⟩ := Option.map_eq_some_iff.mp hnode
    exact (get?_eraseAll old.attrs _ name).trans (if_pos hname)
  · obtain ⟨entry, -, rfl⟩ := mem_map.mp hfunc
    exact (NameMap.get?_erase _ _ _).trans (if_pos rfl)
  · obtain ⟨entry, -, rfl⟩ := mem_map.mp hfunc
    change attrs ∈ entry.1.argAttrs.map (·.erase outputShapesName) ++
      entry.1.resultAttrs.map (·.erase outputShapesName) at hattrs
    rw [← map_append] at hattrs
    obtain ⟨old, -, rfl⟩ := mem_map.mp hattrs
    exact (NameMap.get?_erase _ _ _).trans (if_pos rfl)

lemma sameTypes_exported (p : Program) : SameTypes p (exported registry p) := by
  have hops := Annotated.mapOps p p.allOps (f := exportedOp registry p.typeAt) fun _ ↦ rfl
  refine ⟨hops.trans (.withFuncs _ ?_), ?_⟩
  · rw [(mapOps_rest _ _ _).1, map_map]
    rfl
  · change (p.mapOps p.allOps (exportedOp registry p.typeAt)).values = p.values
    rw [(mapOps_rest _ _ _).1]

lemma op?_exported (hnodup : p.allOps.Nodup) (ho : o ∈ p.allOps) :
    (exported registry p).op? o = (p.op? o).map (exportedOp registry p.typeAt) :=
  (op?_mapOps p hnodup _ o).trans (if_pos ho)

end

lemma typed_eq_self (h : ∀ entry ∈ types, p.typeOf? entry.1 = some entry.2) :
    typed p types = p := by
  induction types with
  | nil => rfl
  | cons entry rest ih =>
    change typed (p.setType entry.1 entry.2) rest = p
    rw [setType_eq_self (h entry mem_cons_self)]
    exact ih fun other hother ↦ h other (mem_cons_of_mem _ hother)

namespace Stripped

variable (h : Stripped registry p) (hnodup : p.allOps.Nodup)

include h hnodup

lemma tells_exported (hapart : Apart registry) : Tells registry (exported registry p) := by
  have hsame := sameTypes_exported registry p
  have hold {o : OpId} (ho : o ∈ (exported registry p).allOps) {node : Operation}
      (hnode : (exported registry p).op? o = some node) :
      ∃ old, node = exportedOp registry p.typeAt old ∧
      ∀ name ∈ consumedNames registry old, old.attrs.get? name = none := by
    rw [hsame.annotated.allOps] at ho
    rw [op?_exported registry hnodup ho] at hnode
    obtain ⟨old, hop, rfl⟩ := Option.map_eq_some_iff.mp hnode
    exact ⟨old, rfl, h.ops o ho old hop⟩
  refine ⟨fun o ho node hnode ↦ ?_, fun o ho node hnode descriptor v hkind hresults ↦ ?_,
    fun func hfunc ↦ ?_, fun func hfunc v attrs hattrs ↦ ?_, fun func hfunc type attrs hattrs ↦ ?_⟩
  · obtain ⟨old, rfl, habsent⟩ := hold ho hnode
    rw [hsame.typeAt]
    exact get?_outputShapes hapart habsent p.typeAt
  · obtain ⟨old, rfl, habsent⟩ := hold ho hnode
    rw [hsame.typeAt]
    exact get?_declared hapart habsent p.typeAt hkind hresults
  · obtain ⟨old, hmem, rfl⟩ := mem_map.mp hfunc
    rw [hsame.typeAt, hsame.annotated.argsOf]
    exact get?_writeAll_listedShapes (h.funcs old hmem) _
  · obtain ⟨old, hmem, rfl⟩ := mem_map.mp hfunc
    rw [hsame.typeAt]
    rw [hsame.annotated.argsOf] at hattrs
    exact get?_of_mem_zip_writeSlots p.typeAt
      (fun slot hslot ↦ h.slots old hmem slot (mem_append_left _ hslot)) hattrs
  · obtain ⟨old, hmem, rfl⟩ := mem_map.mp hfunc
    have hslots : (type, attrs) ∈ old.resultTypes.zip
        (writeSlots (old.resultTypes.map fun type ↦ type) old.resultAttrs).1 := by
      rw [map_id']
      exact hattrs
    exact get?_of_mem_zip_writeSlots (fun type ↦ type)
      (fun slot hslot ↦ h.slots old hmem slot (mem_append_right _ hslot)) hslots

omit hnodup in
lemma stripFunc_exportedFunc (hfound : Current (exported registry p) found)
    (hfunc : p.funcs[place]? = some func) : stripFunc found (exportedFunc p func) place = func := by
  have hmem : func ∈ p.funcs := mem_of_getElem? hfunc
  have hplace : (exported registry p).funcs[place]? = some (exportedFunc p func) := by
    change (p.funcs.map (exportedFunc p))[place]? = _
    rw [getElem?_map, hfunc, Option.map_some]
  have htypes : (func.resultTypes.zipIdx.map fun entry ↦
      (found.results.lookup (place, entry.2)).getD entry.1) = func.resultTypes := by
    refine ext_getElem? fun i ↦ ?_
    rw [getElem?_map, getElem?_zipIdx, Option.map_map, Nat.zero_add]
    cases htype : func.resultTypes[i]? with
    | none => rfl
    | some type =>
      change some ((found.results.lookup (place, i)).getD type) = some type
      cases hlookup : found.results.lookup (place, i) with
      | none => rfl
      | some other =>
        have hother := hfound.results _ (mem_of_lookup_eq_some hlookup)
        rw [slotType?, hplace] at hother
        exact hother.symm.trans htype
  have hattrs : (exportedFunc p func).attrs.erase inputShapesName = func.attrs :=
    erase_writeAll_listedShapes (h.funcs func hmem) _
  have hargs : (exportedFunc p func).argAttrs.map (·.erase outputShapesName) = func.argAttrs :=
    map_erase_writeSlots _ fun slot hslot ↦ h.slots func hmem slot (mem_append_left _ hslot)
  have hresults :
      (exportedFunc p func).resultAttrs.map (·.erase outputShapesName) = func.resultAttrs :=
    map_erase_writeSlots _ fun slot hslot ↦ h.slots func hmem slot (mem_append_right _ hslot)
  change ({ func with
    resultTypes := func.resultTypes.zipIdx.map fun entry ↦
      (found.results.lookup (place, entry.2)).getD entry.1
    argAttrs := (exportedFunc p func).argAttrs.map (·.erase outputShapesName)
    resultAttrs := (exportedFunc p func).resultAttrs.map (·.erase outputShapesName)
    attrs := (exportedFunc p func).attrs.erase inputShapesName } : Func) = func
  rw [htypes, hattrs, hargs, hresults]

lemma consolidated_exported (hfound : Current (exported registry p) found) :
    consolidated registry found (exported registry p) = p := by
  have hsame := sameTypes_exported registry p
  have hops :
      ((exported registry p).mapOps (exported registry p).allOps (strippedOp registry)).slots =
      p.slots := by
    refine slots_eq_of_op?_eq ((mapOps_rest _ _ _).2.trans hsame.annotated.length) fun o ↦ ?_
    rw [hsame.annotated.allOps, op?_mapOps _ hnodup]
    by_cases ho : o ∈ p.allOps
    · rw [if_pos ho, op?_exported registry hnodup ho, Option.map_map]
      cases hop : p.op? o with
      | none => rfl
      | some node =>
        change some { node with
          attrs := eraseAll (writtenAttrs registry node p.typeAt) (consumedNames registry node) } =
            some node
        rw [eraseAll_writtenAttrs (h.ops o ho node hop)]
    · rw [if_neg ho]
      exact (op?_mapOps p hnodup _ o).trans (if_neg ho)
  have hfuncs :
      ((exported registry p).funcs.zipIdx.map fun entry ↦ stripFunc found entry.1 entry.2) =
      p.funcs := by
    refine ext_getElem? fun i ↦ ?_
    change ((p.funcs.map (exportedFunc p)).zipIdx.map _)[i]? = _
    rw [getElem?_map, getElem?_zipIdx, getElem?_map, Option.map_map, Option.map_map, Nat.zero_add]
    cases hfunc : p.funcs[i]? with
    | none => rfl
    | some func => exact congrArg some (h.stripFunc_exportedFunc hfound hfunc)
  unfold consolidated
  rw [typed_eq_self hfound.values, hfuncs, (mapOps_rest _ _ _).1, hops, hsame.values,
    hsame.annotated.free, hsame.annotated.regions, hsame.annotated.graph]

end Stripped

/-- Exporting the types of a consolidated program and consolidating again leads back to it. In
between the attributes tell what the types say, as far as they can, and before and after none of
them is there. -/
theorem consolidate_exported_ok {registry : Registry} (hapart : Apart registry) {p m : Program}
    (h : Reachable p) {changed : Bool} (hok : (consolidate registry).exec p = (.ok changed, m)) :
    Stripped registry m ∧ ∃ written q, (exportAttributes registry).exec m = (.ok written, q) ∧
      Tells registry q ∧ ∃ read, (consolidate registry).exec q = (.ok read, m) := by
  have hnodup := nodup_allOps h.consistent h.nodup_roots
  obtain ⟨found, hfound, -⟩ := bind_read_ok.mp hok
  obtain ⟨changed', hconsolidated⟩ := consolidate_exec h.consistent hfound
    (values_of_collect hfound).1
  obtain rfl : consolidated registry found p = m := (Prod.mk.inj (hconsolidated.symm.trans hok)).2
  have hsame := annotated_consolidated registry found p
  have hstripped := stripped_consolidated registry found hnodup
  rw [← hsame.allOps] at hnodup
  have hm := hsame.consistent h.consistent
  obtain ⟨written, hwritten⟩ := exportAttributes_exec registry hm
  have hexported :=
    (sameTypes_exported registry (consolidated registry found p)).annotated.consistent hm
  have htells := hstripped.tells_exported hnodup hapart
  obtain ⟨again, hagain, hcurrent⟩ := htells.collect hexported
  obtain ⟨read, hread⟩ := consolidate_exec hexported hagain (values_of_collect hagain).1
  rw [hstripped.consolidated_exported hnodup hcurrent] at hread
  exact ⟨hstripped, written, _, hwritten, htells, read, hread⟩

/-- The type of a placeholder and of the argument of a function are taken from attributes, written
to them and taken from them again. -/
theorem consolidate_exported_ok_placeholder :
    let p := built [
      .append ⟨0⟩ { kind := "Placeholder", resultTypes := [.unknown], attrs := .ofList [
        ("shape", .shape (.ranked [.known 2, .unknown])), ("dtype", .type .f32)] },
      .addFunction "f" [.unknown] [.unknown],
      .setFuncAttr "f" .self inputShapesName (.shapes [.ranked [.unknown]]),
      .setFuncAttr "f" (.result 0) outputShapesName (.shape .scalar)]
    let m := ((consolidate .standard).exec p).2
    Reachable p ∧ (consolidate .standard).exec p = (.ok true, m) ∧ m.typeOf? ⟨0⟩ = some ⟨some .f32,
        .ranked [.known 2, .unknown]⟩ ∧ m.typeOf? ⟨1⟩ = some (.ofShape (.ranked [.unknown])) ∧
      ∃ written q, (exportAttributes .standard).exec m = (.ok written, q) ∧
      ∃ read, (consolidate .standard).exec q = (.ok read, m) := by
  intro p m
  have hreach : Reachable p := reachable_built _
  have hok : (consolidate .standard).exec p = (.ok true, m) := exec_eq_ok (by decide +kernel)
  obtain ⟨-, written, q, hwritten, -, hread⟩ := consolidate_exported_ok apart_standard hreach hok
  exact ⟨hreach, hok, by decide +kernel, by decide +kernel, written, q, hwritten, hread⟩

end TensorGraph.TypeAttributes
