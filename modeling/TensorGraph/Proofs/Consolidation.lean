import TensorGraph.Proofs.TypeAttributes

/-!
What consolidating does to a verified program. It fails exactly if an attribute is malformed or a
slot has no type that refines its type and all its notes, and then changes nothing.
-/

namespace TensorGraph.TypeAttributes

open Program Edit List Option

variable {p : Program} {found : Refinements} {registry : Registry} {l : List Note} {slot : Slot}
  {type refined : TensorType}

/-! ### Success -/

lemma typeAt?_empty (p : Program) (slot : Slot) :
    Refinements.typeAt? p {} slot = slotType? p slot := by
  cases slot <;> rfl

lemma isSome_slotType? (hfound : l.foldlM (Refinements.take p) {} = some found)
    (h : (found.typeAt? p slot).isSome) : (slotType? p slot).isSome := by
  refine take_induction (I := fun found ↦ ∀ slot, (found.typeAt? p slot).isSome →
    (slotType? p slot).isSome) (fun found note found' hfound htake x hx ↦ ?_) hfound
    (fun slot h ↦ typeAt?_empty p slot ▸ h) slot h
  obtain ⟨current, refined, hcurrent, -, rfl⟩ := take_eq_some_iff.mp htake
  rw [typeAt?_put] at hx
  split_ifs at hx with hslot
  · exact hslot ▸ hfound note.1 (isSome_of_eq_some hcurrent)
  · exact hfound x hx

def Agreeable (p : Program) (l : List Note) : Prop :=
  ∀ slot type, slotType? p slot = some type → Reconcilable l slot type

/-- The type says what the type of the slot and its notes say, and nothing more. -/
def Greatest (l : List Note) (slot : Slot) (type refined : TensorType) : Prop :=
  ∀ c : TensorType, c.refines refined = true ↔
    c.refines type = true ∧ ∀ note ∈ l, note.1 = slot → c.refines note.2 = true

lemma Greatest.of_perm {l' : List Note} (h : Greatest l' slot type refined) (hperm : l'.Perm l) :
    Greatest l slot type refined := by
  simpa only [Greatest, hperm.mem_iff] using h

lemma Greatest.unique {refined' : TensorType} (h : Greatest l slot type refined)
    (h' : Greatest l slot type refined') : refined = refined' :=
  TensorType.partialLattice.antisymm
    (TensorType.refines_iff.mp ((h' _).mpr ((h _).mp (TensorType.refines_refl _))))
    (TensorType.refines_iff.mp ((h _).mpr ((h' _).mp (TensorType.refines_refl _))))

lemma foldlM_take_iff (hslots : ∀ note ∈ l, (slotType? p note.1).isSome) :
    (∃ found, l.foldlM (Refinements.take p) {} = some found) ↔ Agreeable p l := by
  refine ⟨fun ⟨found, hfound⟩ slot type htype ↦ ?_, fun h ↦ isSome_iff_exists.mp
    (isSome_foldlM_take hslots fun slot type htype ↦
    h slot type ((typeAt?_empty p slot).symm.trans htype))⟩
  obtain ⟨refined, -, hgreatest⟩ := typeAt?_of_foldlM hfound ((typeAt?_empty p slot).trans htype)
  exact ⟨refined, (hgreatest refined).mp (TensorType.refines_refl refined)⟩

lemma exists_collect_iff (hp : p.Consistent) (registry : Registry) :
    (∃ found, collect registry p = .ok found) ↔ ∃ l, notes registry p = some l ∧ Agreeable p l := by
  simp only [collect_eq_ok_iff]
  rw [exists_comm]
  refine exists_congr fun l ↦ ?_
  rw [exists_and_left]
  exact and_congr_right fun hl ↦ foldlM_take_iff (only_notes hp registry l hl)

/-! ### The program that is left -/

lemma value?_typed {types : List (ValueId × TensorType)} (hnodup : (types.map (·.1)).Nodup)
    (p : Program) (v : ValueId) : (typed p types).value? v =
      (p.value? v).map fun value ↦ { value with type := (types.lookup v).getD value.type } := by
  induction types generalizing p with
  | nil => simp [typed]
  | cons entry rest ih =>
    obtain ⟨hentry, hrest⟩ := nodup_cons.mp hnodup
    change (typed (p.setType entry.1 entry.2) rest).value? v = _
    rw [ih hrest, Program.setType, value?_modifyValue, lookup_cons_eq_ite entry.1 entry.2]
    split_ifs with hv
    · subst hv
      rw [lookup_eq_none_of_not_mem hentry, Option.map_map]
      rfl
    · rfl

lemma value?_consolidated (hok : collect registry p = .ok found) (v : ValueId) :
    (consolidated registry found p).value? v = (p.value? v).map fun value ↦
      { value with type := (found.values.lookup v).getD value.type } := by
  rw [← value?_typed (values_of_collect hok).2]
  change ((typed p found.values).mapOps p.allOps (strippedOp registry)).value? v = _
  rw [(mapOps_rest _ _ _).1]
  rfl

lemma getElem?_funcs_consolidated (registry : Registry) (found : Refinements) (p : Program)
    (place : Nat) : (consolidated registry found p).funcs[place]? = p.funcs[place]?.map
    (stripFunc found · place) := by
  simp only [consolidated, getElem?_map, getElem?_zipIdx, Option.map_map, Nat.zero_add]
  rfl

lemma slotType?_consolidated (hok : collect registry p = .ok found) (slot : Slot) :
    slotType? (consolidated registry found p) slot = found.typeAt? p slot := by
  obtain ⟨l, -, hfound⟩ := collect_eq_ok_iff.mp hok
  have hsome : (found.typeAt? p slot).isSome → (slotType? p slot).isSome := isSome_slotType? hfound
  cases slot with
  | value v =>
    rw [slotType?, typeOf?, value?_consolidated hok]
    revert hsome
    simp only [Refinements.typeAt?, slotType?, typeOf?]
    cases found.values.lookup v <;> cases p.value? v <;> simp
  | result place index =>
    rw [slotType?, getElem?_funcs_consolidated]
    revert hsome
    simp only [Refinements.typeAt?, slotType?]
    cases p.funcs[place]? with
    | none => cases found.results.lookup (place, index) <;> simp
    | some func =>
      cases hlookup : found.results.lookup (place, index) <;> cases htype :
        func.resultTypes[index]? <;>
        simp [stripFunc, htype, hlookup]

/-- The attribute tells the types of the results of the operation. -/
def Consumed (registry : Registry) (node : Operation) (name : String) : Prop :=
  name = outputShapesName ∨ ∃ descriptor v, registry.get? node.kind = some descriptor ∧
    node.results = [v] ∧ (descriptor.shapeAttr = some name ∨ descriptor.elementAttr = some name)

lemma mem_consumedNames {node : Operation} {name : String} :
    name ∈ consumedNames registry node ↔ Consumed registry node name := by
  unfold consumedNames Consumed
  split
  case h_1 descriptor v hkind hresults => simp [hkind, hresults]
  case h_2 hother =>
    rw [mem_singleton]
    refine ⟨.inl, fun h ↦ h.resolve_right ?_⟩
    rintro ⟨descriptor, v, hkind, hresults, -⟩
    exact hother descriptor v hkind hresults

/-- The attributes are the old ones without those that are gone. -/
def Lacks (gone : String → Prop) (attrs attrs' : AttributeSet) : Prop :=
  (∀ name, gone name → attrs'.get? name = none) ∧ ∀ name, ¬ gone name →
    attrs'.get? name = attrs.get? name

lemma lacks_erase (name : String) (attrs : AttributeSet) :
    Lacks (· = name) attrs (attrs.erase name) :=
  ⟨fun _ h ↦ (NameMap.get?_erase _ _ _).trans (if_pos h), fun _ h ↦
    (NameMap.get?_erase _ _ _).trans (if_neg h)⟩

/-- The types of the slots become the greatest ones, in whatever order the notes are taken in, and
the attributes that the notes were read from are gone. Nothing else changes. -/
structure Consolidates (registry : Registry) (l : List Note) (p q : Program) : Prop where
  types : ∀ slot type, slotType? p slot = some type →
    ∃ refined, slotType? q slot = some refined ∧ Greatest l slot type refined
  order : ∀ l' : List Note, l'.Perm l → ∃ found, l'.foldlM (Refinements.take p) {} = some found ∧
    ∀ slot, found.typeAt? p slot = slotType? q slot
  ops : ∀ o ∈ p.allOps, ∀ node, p.op? o = some node →
    ∃ attrs, q.op? o = some { node with attrs } ∧ Lacks (Consumed registry node) node.attrs attrs
  otherOps : ∀ o, o ∉ p.allOps → q.op? o = p.op? o
  values : ∀ v, (q.value? v).map ({ · with type := .unknown }) =
    (p.value? v).map ({ · with type := .unknown })
  funcs : ∀ (place : Nat) (func : Func), p.funcs[place]? = some func →
      ∃ (resultTypes : List TensorType) (argAttrs resultAttrs : List AttributeSet)
    (attrs : AttributeSet), q.funcs[place]? = some
      { func with resultTypes, argAttrs, resultAttrs, attrs } ∧
      resultTypes.length = func.resultTypes.length ∧
      Forall₂ (Lacks (· = outputShapesName)) func.argAttrs argAttrs ∧
      Forall₂ (Lacks (· = outputShapesName)) func.resultAttrs resultAttrs ∧
      Lacks (· = inputShapesName) func.attrs attrs
  /-- Attributes of a function that are gone belonged to an argument or a result, so they were
  read. -/
  read : ∀ func ∈ p.funcs, func.argAttrs.length = (p.argsOf func.body).length ∧
    func.resultAttrs.length = func.resultTypes.length
  rest : q = { p with slots := q.slots, values := q.values, funcs := q.funcs } ∧
    q.funcs.length = p.funcs.length

lemma consolidates_consolidated (h : Reachable p) (hverify : p.verify = .ok ())
    (hl : notes registry p = some l) (hfound : l.foldlM (Refinements.take p) {} = some found) :
    Consolidates registry l p (consolidated registry found p) := by
  have hok : collect registry p = .ok found := collect_eq_ok_iff.mpr ⟨l, hl, hfound⟩
  have hslots := only_notes h.consistent registry l hl
  have htypes : ∀ {l' : List Note} {found' : Refinements}, l'.foldlM (Refinements.take p)
      {} = some found' → ∀ slot type, slotType? p slot = some type →
      ∃ refined, found'.typeAt? p slot = some refined ∧
      Greatest l' slot type refined :=
    fun hfound' slot type htype ↦ typeAt?_of_foldlM hfound' ((typeAt?_empty p slot).trans htype)
  have hops := fun o ↦ op?_mapOps (typed p found.values) (nodup_allOps h.consistent h.nodup_roots)
    (strippedOp registry) o
  have htyped : (typed p found.values).op? = p.op? := by
    rw [typed_rest]
    rfl
  refine ⟨fun slot type htype ↦ ?_, fun l' hperm ↦ ?_, fun o ho node hnode ↦ ?_, fun o ho ↦ ?_,
    fun v ↦ ?_, fun place func hfunc ↦ ?_,
    (terminated_of_verify h.consistent hverify).signature, ?_⟩
  · rw [slotType?_consolidated hok]
    exact htypes hfound slot type htype
  · have hagree : Agreeable p l' := fun slot type htype ↦ by
      obtain ⟨c, hc, hnotes⟩ := (foldlM_take_iff hslots).mp ⟨found, hfound⟩ slot type htype
      exact ⟨c, hc, fun note hnote ↦ hnotes note (hperm.mem_iff.mp hnote)⟩
    obtain ⟨found', hfound'⟩ :=
      (foldlM_take_iff fun note hnote ↦ hslots note (hperm.mem_iff.mp hnote)).mpr hagree
    refine ⟨found', hfound', fun slot ↦ ?_⟩
    rw [slotType?_consolidated hok]
    cases htype : slotType? p slot with
    | none =>
      have hnone : ¬ (slotType? p slot).isSome := by simp [htype]
      rw [not_isSome_iff_eq_none.mp fun h ↦ hnone (isSome_slotType? hfound h),
        not_isSome_iff_eq_none.mp fun h ↦ hnone (isSome_slotType? hfound' h)]
    | some type =>
      obtain ⟨refined, hrefined, hgreatest⟩ := htypes hfound slot type htype
      obtain ⟨refined', hrefined', hgreatest'⟩ := htypes hfound' slot type htype
      rw [hrefined, hrefined', (hgreatest'.of_perm hperm).unique hgreatest]
  · refine ⟨eraseAll node.attrs (consumedNames registry node), (hops o).trans ?_, ?_⟩
    · rw [if_pos ho, htyped, hnode]
      rfl
    · refine ⟨fun name hname ↦ (get?_eraseAll _ _ _).trans (if_pos (mem_consumedNames.mpr hname)),
        fun name hname ↦
        (get?_eraseAll _ _ _).trans (if_neg fun hmem ↦ hname (mem_consumedNames.mp hmem))⟩
  · exact (hops o).trans ((if_neg ho).trans (congrFun htyped o))
  · rw [value?_consolidated hok, Option.map_map]
    rfl
  · rw [getElem?_funcs_consolidated, hfunc]
    refine ⟨_, _, _, _, rfl, by simp, ?_, ?_, lacks_erase _ _⟩
    · exact forall₂_map_right_iff.mpr (forall₂_same.mpr fun attrs _ ↦ lacks_erase _ _)
    · exact forall₂_map_right_iff.mpr (forall₂_same.mpr fun attrs _ ↦ lacks_erase _ _)
  · refine ⟨?_, by simp [consolidated]⟩
    rw [consolidated, (mapOps_rest _ _ _).1, typed_rest]

/-- Consolidating a verified program fails exactly if an attribute is malformed or the notes of a
slot contradict each other or its type, and a failure changes nothing. -/
theorem consolidate_greatest {p : Program} (h : Reachable p) (hverify : p.verify = .ok ())
    (registry : Registry) :
    ((∃ err, ((consolidate registry).exec p).1 = .error err) ↔ notes registry p = none ∨
      ∃ l slot type, notes registry p = some l ∧ slotType? p slot = some type ∧
      ¬ Reconcilable l slot type) ∧
    (∀ err q, (consolidate registry).exec p = (.error err, q) → q = p) ∧
    ∀ changed q, (consolidate registry).exec p = (.ok changed, q) →
      ∃ l, notes registry p = some l ∧ Consolidates registry l p q := by
  have hiff := exists_collect_iff h.consistent registry
  cases hcollect : collect registry p with
  | error err =>
    have hexec : (consolidate registry).exec p = (.error err, p) :=
      exec_bind_of_error ((exec_read _ p).trans (by rw [hcollect])) _
    rw [hexec]
    refine ⟨iff_of_true ⟨err, rfl⟩ ?_, fun _ q heq ↦ (Prod.mk.inj heq).2.symm, fun _ _ heq ↦ ?_⟩
    · simp only [hcollect, reduceCtorEq, exists_false, false_iff, Agreeable] at hiff
      cases hnotes : notes registry p with
      | none => exact .inl rfl
      | some l => exact .inr ⟨l, by simpa [hnotes] using hiff⟩
    · cases (Prod.mk.inj heq).1
  | ok found =>
    obtain ⟨l, hl, hfound⟩ := collect_eq_ok_iff.mp hcollect
    obtain ⟨changed, hexec⟩ := consolidate_exec h.consistent hcollect (values_of_collect hcollect).1
    obtain ⟨m, hm, hagree⟩ := hiff.mp ⟨found, hcollect⟩
    rw [hexec]
    refine ⟨iff_of_false ?_ ?_, fun _ _ heq ↦ ?_, fun _ q heq ↦ ⟨l, hl, ?_⟩⟩
    · rintro ⟨err, herr⟩
      cases herr
    · rintro (hnone | ⟨l, slot, type, hl, htype, hcontradicted⟩)
      · cases hnone.symm.trans hm
      · obtain rfl : m = l := some.inj (hm.symm.trans hl)
        exact hcontradicted (hagree slot type htype)
    · cases (Prod.mk.inj heq).1
    · obtain rfl := (Prod.mk.inj heq).2
      exact consolidates_consolidated h hverify hl hfound

/-- The shapes listed for the result of a placeholder and the ones declared for it make up one
type. -/
theorem consolidate_greatest_placeholder :
    let p := built [.append ⟨0⟩
      { kind := "Placeholder", resultTypes := [.unknown], attrs := .ofList [
      (outputShapesName, .shapes [.ranked [.known 2, .unknown]]), ("dtype", .string "f32"),
      ("shape", .shape (.ranked [.unknown, .known 3]))] }]
    let q := ((consolidate .standard).exec p).2
    Reachable p ∧ p.verify = .ok () ∧ q.typeOf? ⟨0⟩ = some ⟨some .f32, .ranked [.known 2, .known 3]⟩
      ∧ ∃ l, notes .standard p = some l ∧ Consolidates .standard l p q := by
  intro p q
  have hreach : Reachable p := reachable_built _
  have hverify : p.verify = .ok () := by decide +kernel
  have hok : (consolidate .standard).exec p = (.ok true, q) := exec_eq_ok (by decide +kernel)
  exact ⟨hreach, hverify, by decide +kernel,
    (consolidate_greatest hreach hverify .standard).2.2 true q hok⟩

end TensorGraph.TypeAttributes
