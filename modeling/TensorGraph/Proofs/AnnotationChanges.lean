import Mathlib.Order.Basic
import TensorGraph.Pass.OutputShapes
import TensorGraph.Pass.Sharding
import TensorGraph.Pass.TypePropagation
import TensorGraph.Proofs.Changes
import TensorGraph.Proofs.TypeAttributes

/-!
What the passes that only annotate report. An attribute, a type or a function is visited once by
each of them and left alone afterwards, except that types are propagated in any order.
-/

namespace TensorGraph

open List

variable {p q m : Program} {v : ValueId} {changed : Bool} {registry : Registry} {type : TensorType}
    {o : OpId} {f : Func → Func} {name : String} {func : Func} {skipped : List String}
    {types : List TensorType} {entry : String × Attribute} {ops : List OpId}

lemma map_eq_self_iff {α : Type} {f : α → α} {l : List α} : l.map f = l ↔ ∀ a ∈ l, f a = a := by
  conv_lhs => rhs; rw [← map_id l]
  exact map_inj_left

namespace Edit

open Program

/-! ### Single entries -/

section Entries

lemma reports_modifyOp {node : Operation} (ho : p.op? o = some node) {f : Operation → Operation}
    (hchanged : changed = false ↔ f node = node) : Reports (Marks op? [o]) p changed
    (p.modifyOp o f) := by
  cases changed with
  | false =>
    have hsame : f node = id node := hchanged.mp rfl
    show p.modifyOp o f = p
    rw [modifyOp_congr ho hsame, modifyOp, Option.map_id_fun, modify_id]
  | true =>
    refine ⟨⟨o, mem_singleton_self o, ?_⟩, fun x hx ↦ ?_⟩
    · rw [op?_modifyOp, if_pos rfl, ho]
      exact fun heq ↦ Bool.noConfusion (hchanged.mpr (Option.some.inj heq))
    · rw [op?_modifyOp, if_neg (by simpa using hx)]

lemma reports_setType (hv : v.index < p.values.length)
    (hchanged : changed = false ↔ p.typeAt v = type) : Reports (Marks typeOf? [v]) p changed
    (p.setType v type) := by
  have htype := typeOf?_eq_typeAt hv
  cases changed with
  | false =>
    exact setType_eq_self (htype.trans (congrArg some (hchanged.mp rfl)))
  | true =>
    refine ⟨⟨v, mem_singleton_self v, ?_⟩, fun x hx ↦ ?_⟩
    · rw [typeOf?_setType, if_pos rfl, htype]
      exact fun heq ↦ Bool.noConfusion (hchanged.mpr (Option.some.inj heq).symm)
    · rw [typeOf?_setType, if_neg (by simpa using hx)]

lemma find?_modify_findIdx (l : List Func) (name : String) (hf : ∀ func, (f func).name = func.name)
    (x : String) : (l.modify (l.findIdx (·.name == name)) f).find? (·.name == x) =
      if x = name then (l.find? (·.name == x)).map f else l.find? (·.name == x) := by
  induction l with
  | nil => simp
  | cons func rest ih =>
    by_cases hfunc : func.name = name
    · subst hfunc
      by_cases hx : x = func.name
      · simp [findIdx_cons, hx, hf]
      · simp [findIdx_cons, hx, hf, Ne.symm hx]
    · have hbeq : (func.name == name) = false := beq_false_of_ne hfunc
      rw [findIdx_cons, hbeq, cond_false, modify_succ_cons]
      by_cases hx : func.name = x
      · have hne : x ≠ name := hx ▸ hfunc
        simp [hx, hne]
      · rw [find?_cons_of_neg (by simp [hx]), find?_cons_of_neg (by simp [hx]), ih]

lemma reports_modifyFunc (hfunc : p.func? name = some func) (hf : ∀ func, (f func).name = func.name)
    (hchanged : changed = false ↔ f func = func) : Reports (Marks func? [name]) p changed
    (p.modifyFunc name f) := by
  have hfuncs : ∀ x, (p.modifyFunc name f).func? x =
      if x = name then (p.func? x).map f else p.func? x := find?_modify_findIdx p.funcs name hf
  cases changed with
  | false =>
    have hsame : f func = id func := hchanged.mp rfl
    show p.modifyFunc name f = p
    rw [modifyFunc_congr hfunc hsame, modifyFunc, modify_id]
  | true =>
    refine ⟨⟨name, mem_singleton_self name, ?_⟩, fun x hx ↦ ?_⟩
    · rw [hfuncs, if_pos rfl, hfunc]
      exact fun heq ↦ Bool.noConfusion (hchanged.mpr (Option.some.inj heq))
    · rw [hfuncs, if_neg (by simpa using hx)]

lemma reports_withFuncs {funcs : List Func} (hchanged : changed = false ↔ funcs = p.funcs) :
    Reports Differs p changed { p with funcs } := by
  cases changed with
  | false => exact congrArg (fun funcs ↦ { p with funcs }) (hchanged.mp rfl)
  | true => exact fun hsame ↦ Bool.noConfusion (hchanged.mpr hsame.funcs)

end Entries

end Edit

/-! ### Dropping listed shapes -/

namespace OutputShapes

open Program Edit

lemma reports_dropFrom (hok : (dropFrom skipped o).exec p = (.ok changed, q)) :
    Reports (Marks op? [o]) p changed q := by
  unfold dropFrom at hok
  obtain ⟨node, hnode, hok⟩ := bind_read_ok.mp hok
  rw [op_eq_ok] at hnode
  split_ifs at hok
  · cases hok
    exact .unchanged
  · unfold removeAttr at hok
    rw [bind_assoc, bind_readOp hnode] at hok
    cases hok
    refine reports_modifyOp hnode ?_
    refine NameMap.erase_eq_self_iff.symm.trans ⟨fun heq ↦ ?_, congrArg Operation.attrs⟩
    rw [heq]

lemma reports_run (hnodup : p.allOps.Nodup) (hok : (run skipped).exec p = (.ok changed, q)) :
    Reports Differs p changed q := by
  unfold run at hok
  rw [exec_get_bind] at hok
  have hmarks := anyChange_marks op? id (I := fun _ _ ↦ True)
    (fun o _ m n here _ hrun ↦ ⟨trivial, reports_dropFrom hrun⟩) (by simpa using hnodup) trivial hok
  exact hmarks.2.imp fun h ↦ h.differs fun o hsame ↦ hsame.op? o

end OutputShapes

/-! ### Replicating -/

namespace Sharding

open Program Edit

lemma annotate_eq_self_iff {attrs : AttributeSet} : annotate attrs = attrs ↔
    attrs.contains shardingName = true := by
  unfold annotate
  by_cases hattrs : attrs.contains shardingName = true
  · rw [if_pos hattrs]
    exact iff_of_true rfl hattrs
  · rw [if_neg hattrs]
    refine iff_of_false (fun heq ↦ hattrs ?_) hattrs
    rw [← heq, NameMap.contains, NameMap.get?_insert, if_pos rfl]
    rfl

lemma annotateFunc_eq_self_iff : annotateFunc func = func ↔ lacksAnnotation func = false := by
  have hlacks : lacksAnnotation func = false ↔ func.argAttrs.map annotate = func.argAttrs ∧
      func.resultAttrs.map annotate = func.resultAttrs := by
    rw [map_eq_self_iff, map_eq_self_iff, ← forall_mem_append, lacksAnnotation, any_eq_false]
    refine forall₂_congr fun attrs _ ↦ ?_
    rw [annotate_eq_self_iff]
    simp
  rw [hlacks]
  constructor
  · intro heq
    exact ⟨congrArg Func.argAttrs heq, congrArg Func.resultAttrs heq⟩
  · rintro ⟨hargs, hresults⟩
    rw [annotateFunc, hargs, hresults]

lemma reports_solve (hok : replicate.solve.exec p = (.ok changed, q)) :
    Reports Differs p changed q := by
  cases hok
  apply reports_withFuncs
  rw [map_eq_self_iff, any_eq_false]
  refine forall₂_congr fun func _ ↦ ?_
  rw [annotateFunc_eq_self_iff, Bool.not_eq_true]

end Sharding

/-! ### Types and attributes -/

namespace TypeAttributes

open Program Edit

section Flags

variable {attrs : AttributeSet} {writes : List (String × Attribute)} {names : List String}

lemma any_contains_eq_false_iff : names.any attrs.contains = false ↔
    eraseAll attrs names = attrs := by
  rw [any_eq_false]
  constructor
  · intro habsent
    refine eraseAll_of_absent fun name hname ↦ ?_
    simpa [NameMap.contains] using habsent name hname
  · intro heq name hname
    rw [← heq, NameMap.contains, get?_eraseAll, if_pos hname]
    simp

lemma write_cases (attrs : AttributeSet) (name : String)
    {value : Attribute} (hself : (value == value) = true) : write attrs name value =
    (attrs, false) ∨ write attrs name value = (attrs.insert name value, true) ∧
    attrs.get? name ≠ some value := by
  unfold write
  split
  case h_1 old hold =>
    by_cases hequal : (old == value) = true
    · exact .inl (if_pos hequal)
    · refine .inr ⟨if_neg hequal, ?_⟩
      rw [hold]
      rintro ⟨⟩
      exact hequal hself
  case h_2 hnone =>
    refine .inr ⟨rfl, ?_⟩
    rw [hnone]
    rintro ⟨⟩

lemma writeAll_eq_false_iff (hnodup : (writes.map (·.1)).Nodup)
    (hself : ∀ entry ∈ writes, (entry.2 == entry.2) = true) :
    (writeAll attrs writes).2 = false ↔ (writeAll attrs writes).1 = attrs := by
  induction writes generalizing attrs with
  | nil => exact iff_of_true rfl rfl
  | cons entry rest ih =>
    obtain ⟨name, value⟩ := entry
    obtain ⟨hname, hrest⟩ := nodup_cons.mp hnodup
    rw [writeAll]
    rcases write_cases attrs name (hself _ mem_cons_self) with hsame | ⟨hnew, hne⟩
    · rw [hsame]
      exact ih hrest fun entry hentry ↦ hself entry (mem_cons_of_mem _ hentry)
    · rw [hnew]
      refine iff_of_false Bool.noConfusion fun heq ↦ hne ?_
      -- The later writes go under other names.
      have hread : (writeAll (attrs.insert name value) rest).1.get? name =
          (attrs.insert name value).get? name :=
        get?_writeAll_of_not_mem hname
      rw [NameMap.get?_insert, if_pos rfl] at hread
      rw [← hread]
      exact congrArg (·.get? name) heq.symm

lemma self_beq_of_mem_listedShapes (h : entry ∈ listedShapes name types) :
    (entry.2 == entry.2) = true := by
  unfold listedShapes at h
  split_ifs at h
  · obtain rfl := mem_singleton.mp h
    exact beq_self_eq_true (types.map (·.shape))
  · cases h

lemma self_beq_of_mem_opWrites {descriptor : Option Descriptor}
    (h : entry ∈ opWrites descriptor types) : (entry.2 == entry.2) = true := by
  rcases mem_append.mp h with hlisted | hdeclared
  · exact self_beq_of_mem_listedShapes hlisted
  · split at hdeclared
    case h_1 descriptor type =>
      rcases mem_append.mp hdeclared with hshape | helement
      · unfold declaredShape at hshape
        split_ifs at hshape
        · obtain ⟨name, -, rfl⟩ := mem_map.mp hshape
          exact beq_self_eq_true type.shape
        · cases hshape
      · unfold declaredElement at helement
        split at helement
        case h_1 name element _ _ =>
          obtain rfl := mem_singleton.mp helement
          exact beq_self_eq_true element
        case h_2 => cases helement
    case h_2 => cases hdeclared

lemma writeAll_listedShapes_eq_false_iff (attrs : AttributeSet) (name : String)
    (types : List TensorType) : (writeAll attrs (listedShapes name types)).2 = false ↔
    (writeAll attrs (listedShapes name types)).1 = attrs :=
  writeAll_eq_false_iff ((map_listedShapes_sublist name types).nodup (nodup_singleton name))
    fun _ ↦ self_beq_of_mem_listedShapes

lemma writeSlots_eq_false_iff (types : List TensorType) (slots : List AttributeSet) :
    (writeSlots types slots).2 = false ↔ (writeSlots types slots).1 = slots := by
  induction types generalizing slots with
  | nil => exact iff_of_true rfl rfl
  | cons type types ih =>
    cases slots with
    | nil => exact iff_of_true rfl rfl
    | cons attrs rest =>
      rw [writeSlots]
      simp only [Bool.or_eq_false_iff, List.cons.injEq]
      exact and_congr (writeAll_listedShapes_eq_false_iff _ _ _) (ih rest)

lemma exportFunc_eq_false_iff (types : List TensorType) (func : Func) :
    (exportFunc types func).2 = false ↔ (exportFunc types func).1 = func := by
  have hattrs := writeAll_listedShapes_eq_false_iff func.attrs inputShapesName types
  have hargs := writeSlots_eq_false_iff types func.argAttrs
  have hresults := writeSlots_eq_false_iff func.resultTypes func.resultAttrs
  simp only [exportFunc, Bool.or_eq_false_iff, funcWrites]
  rw [hattrs, hargs, hresults]
  constructor
  · rintro ⟨⟨hattrs, hargs⟩, hresults⟩
    rw [hattrs, hargs, hresults]
  · intro heq
    exact ⟨⟨congrArg Func.attrs heq, congrArg Func.argAttrs heq⟩, congrArg Func.resultAttrs heq⟩

lemma isStripped_eq_false_iff (found : Refinements) (func : Func) (place : Nat) :
    isStripped found func place = false ↔ stripFunc found func place = func := by
  have hslots : (func.argAttrs ++ func.resultAttrs).any (·.contains outputShapesName) = false ↔
      func.argAttrs.map (·.erase outputShapesName) = func.argAttrs ∧
      func.resultAttrs.map (·.erase outputShapesName) = func.resultAttrs := by
    rw [map_eq_self_iff, map_eq_self_iff, ← forall_mem_append, any_eq_false]
    refine forall₂_congr fun attrs _ ↦ ?_
    rw [NameMap.erase_eq_self_iff, Bool.not_eq_true]
  rw [isStripped, Bool.or_eq_false_iff, Bool.or_eq_false_iff, bne_eq_false_iff_eq, hslots,
    ← NameMap.erase_eq_self_iff]
  constructor
  · rintro ⟨⟨hresultTypes, hattrs⟩, hargs, hresults⟩
    change { func with resultTypes := (stripFunc found func place).resultTypes, argAttrs := _,
                       resultAttrs := _, attrs := _ } = func
    rw [hresultTypes, hattrs, hargs, hresults]
  · intro heq
    exact ⟨⟨congrArg Func.resultTypes heq, congrArg Func.attrs heq⟩,
      congrArg Func.argAttrs heq, congrArg Func.resultAttrs heq⟩

end Flags

lemma reports_refineValues {types : List (ValueId × TensorType)} (hnodup : (types.map (·.1)).Nodup)
    (hlt : ∀ entry ∈ types, entry.1.index < p.values.length)
    (hok : (anyChange types fun entry ↦ refineValue entry.1 entry.2).exec p = (.ok changed, q)) :
    q = { p with values := q.values } ∧ Annotated p q ∧
      Reports (Marks typeOf? (types.map (·.1))) p changed q := by
  obtain ⟨⟨-, hrest, hannotated⟩, hmarks⟩ := anyChange_marks typeOf? (·.1)
    (I := fun rest m ↦ (∀ entry ∈ rest, entry.1.index < m.values.length) ∧
      m = { p with values := m.values } ∧ Annotated p m) (fun entry rest m n here hm hrun ↦ by
      obtain ⟨hlt, hrest, hannotated⟩ := hm
      have hv := hlt entry mem_cons_self
      rw [refineValue_exec hv] at hrun
      cases hrun
      refine ⟨⟨fun other hother ↦ ?_, ?_, hannotated.trans (.setType m entry.1 entry.2)⟩,
        reports_setType hv (by simp)⟩
      · rw [Program.setType, modifyValue, length_modify]
        exact hlt other (mem_cons_of_mem _ hother)
      · rw [hrest]
        rfl)
    hnodup ⟨hlt, rfl, .refl p⟩ hok
  exact ⟨hrest, hannotated, hmarks⟩

lemma reports_stripOps (hnodup : ops.Nodup)
    (hok : (anyChange ops (stripOp registry)).exec p = (.ok changed, q)) :
    q = { p with slots := q.slots } ∧ Reports (Marks op? ops) p changed q := by
  obtain ⟨hrest, hmarks⟩ := anyChange_marks op? id (I := fun _ m ↦ m = { p with slots := m.slots })
    (fun o rest m n here hm hrun ↦ by
      obtain ⟨node, hnode, -⟩ := bind_read_ok.mp hrun
      rw [stripOp_exec registry (op_eq_ok.mp hnode)] at hrun
      cases hrun
      refine ⟨?_, reports_modifyOp (op_eq_ok.mp hnode) ?_⟩
      · rw [hm]
        rfl
      · rw [any_contains_eq_false_iff]
        refine ⟨fun heq ↦ ?_, congrArg Operation.attrs⟩
        rw [strippedOp, heq])
    (by simpa using hnodup) rfl hok
  exact ⟨hrest, by simpa using hmarks⟩

lemma reports_stripFuncs (found : Refinements) (p : Program) :
    Reports Differs p (p.funcs.zipIdx.any fun entry ↦ isStripped found entry.1 entry.2)
      { p with funcs := p.funcs.zipIdx.map fun entry ↦ stripFunc found entry.1 entry.2 } := by
  apply reports_withFuncs
  conv_rhs => rhs; rw [← zipIdx_map_fst 0 p.funcs]
  rw [map_inj_left, any_eq_false]
  refine forall₂_congr fun entry _ ↦ ?_
  rw [Bool.not_eq_true, isStripped_eq_false_iff]

lemma reports_consolidate (hnodup : p.allOps.Nodup)
    (hok : (consolidate registry).exec p = (.ok changed, q)) :
    Reports Differs p changed q := by
  unfold consolidate at hok
  obtain ⟨found, hfound, hok⟩ := bind_read_ok.mp hok
  obtain ⟨refined, m, hrefined, hok⟩ := exec_bind_ok.mp hok
  rw [exec_get_bind] at hok
  obtain ⟨stripped, n, hstripped, hok⟩ := exec_bind_ok.mp hok
  rw [exec_get_bind] at hok
  cases hok
  obtain ⟨hm, hannotated, htypes⟩ :=
    reports_refineValues (values_of_collect hfound).2 (values_of_collect hfound).1 hrefined
  rw [hannotated.allOps] at hstripped
  obtain ⟨hn, hops⟩ := reports_stripOps hnodup hstripped
  cases refined with
  | true =>
    intro hsame
    obtain ⟨⟨v, -, hne⟩, -⟩ := htypes
    have hvalues : m.values = p.values := (congrArg values hn).symm.trans hsame.values
    exact hne (congrArg (fun values ↦ (values[v.index]?).map Value.type) hvalues)
  | false =>
    obtain rfl : m = p := htypes
    cases stripped with
    | true =>
      intro hsame
      obtain ⟨⟨o, -, hne⟩, -⟩ := hops
      exact hne (hsame.op? o)
    | false =>
      obtain rfl : n = m := hops
      exact reports_stripFuncs found n

lemma reports_exportOps (hapart : Apart registry) (hp : p.Consistent) (hnodup : ops.Nodup)
    (hok : (anyChange ops (exportOp registry)).exec p = (.ok changed, q)) :
    q = { p with slots := q.slots } ∧ SameTypes p q ∧ Reports (Marks op? ops) p changed q := by
  obtain ⟨⟨hrest, hsame⟩, hmarks⟩ := anyChange_marks op? id
    (I := fun _ m ↦ m = { p with slots := m.slots } ∧ SameTypes p m)
    (fun o rest m n here hm hrun ↦ by
      obtain ⟨hrest, hsame⟩ := hm
      obtain ⟨node, hnode, -⟩ := bind_read_ok.mp hrun
      have ho := op_eq_ok.mp hnode
      rw [hsame.exportOp_exec hp registry ho] at hrun
      cases hrun
      refine ⟨⟨?_, hsame.modifyOp registry p.typeAt o⟩, reports_modifyOp ho ?_⟩
      · rw [hrest]
        rfl
      · rw [writeAll_eq_false_iff ((map_opWrites_sublist registry node p.typeAt).nodup
          (nodup_consumedNames hapart node)) fun _ ↦ self_beq_of_mem_opWrites]
        refine ⟨fun heq ↦ ?_, congrArg Operation.attrs⟩
        rw [exportedOp, writtenAttrs, heq])
    (by simpa using hnodup) ⟨rfl, .refl p, rfl⟩ hok
  exact ⟨hrest, hsame, by simpa using hmarks⟩

lemma reports_exportFuncs (hp : p.Consistent) (hm : SameTypes p m) {names : List String}
    (hnodup : names.Nodup) (hok : (anyChange names exportNamed).exec m = (.ok changed, q)) :
    q = { m with funcs := q.funcs } ∧ Reports (Marks func? names) m changed q := by
  obtain ⟨⟨hrest, -⟩, hmarks⟩ := anyChange_marks func? id
    (I := fun _ n ↦ n = { m with funcs := n.funcs } ∧ SameTypes p n)
    (fun name rest n n' here hn hrun ↦ by
      obtain ⟨hrest, hsame⟩ := hn
      obtain ⟨args, hargs, -⟩ := bind_read_ok.mp hrun
      obtain ⟨func, hfunc⟩ : ∃ func, n.func? name = some func := by
        unfold funcArgs at hargs
        split at hargs
        case h_1 => cases hargs
        case h_2 func hfunc => exact ⟨func, hfunc⟩
      rw [hsame.exportNamed_exec hp hfunc] at hrun
      cases hrun
      refine ⟨⟨?_, hsame.modifyFunc name p⟩, reports_modifyFunc hfunc (fun _ ↦ rfl) ?_⟩
      · rw [hrest]
        rfl
      · exact exportFunc_eq_false_iff _ func)
    (by simpa using hnodup) ⟨rfl, hm⟩ hok
  exact ⟨hrest, by simpa using hmarks⟩

lemma reports_exportAttributes (hapart : Apart registry) (hp : p.Consistent)
    (hnodup : p.allOps.Nodup) (hok : (exportAttributes registry).exec p = (.ok changed, q)) :
    Reports Differs p changed q := by
  unfold exportAttributes at hok
  rw [exec_get_bind] at hok
  obtain ⟨ops, m, hops, hok⟩ := exec_bind_ok.mp hok
  rw [exec_get_bind] at hok
  obtain ⟨funcs, n, hfuncs, hok⟩ := exec_bind_ok.mp hok
  cases hok
  obtain ⟨hm, hsame, hopMarks⟩ := reports_exportOps hapart hp hnodup hops
  have hnames : (m.funcs.map (·.name)).Nodup := by
    rw [hsame.annotated.map_name]
    exact hp.placed.names
  obtain ⟨hn, hfuncMarks⟩ := reports_exportFuncs hp hsame hnames hfuncs
  cases ops with
  | true =>
    intro hcontents
    obtain ⟨⟨o, -, hne⟩, -⟩ := hopMarks
    refine hne ?_
    rw [← hcontents.op? o, hn]
    rfl
  | false =>
    obtain rfl : m = p := hopMarks
    exact hfuncMarks.imp fun h ↦ h.differs fun name hcontents ↦ by
      rw [func?, func?, hcontents.funcs]

end TypeAttributes

/-! ### Propagating types -/

namespace TypePropagation

open Program Edit

def Learns (p q : Program) : Prop :=
  (fun v ↦ (p.typeAt v).knowledge) < fun v ↦ (q.typeAt v).knowledge

lemma Learns.differs (h : Learns p q) : Differs p q := by
  intro hsame
  have htypes : q.typeAt = p.typeAt := by
    funext v
    rw [typeAt, typeAt, typeOf?, typeOf?, value?, value?, hsame.values]
  rw [Learns, htypes] at h
  exact lt_irrefl _ h

lemma Learns.trans (h : Learns p m) (h' : Learns m q) : Learns p q :=
  lt_trans h h'

lemma learns_setType (hv : v.index < p.values.length)
    (hmore : (p.typeAt v).knowledge < type.knowledge) : Learns p (p.setType v type) := by
  have htypes : ∀ x, (p.setType v type).typeAt x = if x = v then type else p.typeAt x := by
    intro x
    rw [typeAt, typeOf?_setType]
    split_ifs with hx
    · rw [hx, typeOf?_eq_typeAt hv]
      rfl
    · rfl
  refine Pi.lt_def.mpr ⟨fun x ↦ ?_, v, ?_⟩
  · show (p.typeAt x).knowledge ≤ ((p.setType v type).typeAt x).knowledge
    rw [htypes]
    split_ifs with hx
    · rw [hx]
      exact hmore.le
    · exact le_rfl
  · show (p.typeAt v).knowledge < ((p.setType v type).typeAt v).knowledge
    rwa [htypes, if_pos rfl]

lemma reports_refine (hok : (refine v type).exec p = (.ok changed, q)) :
    Reports Learns p changed q := by
  unfold refine at hok
  obtain ⟨current, hcurrent, hok⟩ := bind_read_ok.mp hok
  have hv := lt_of_valueType hcurrent
  cases (valueType_eq_ok hv).symm.trans hcurrent
  split at hok
  case h_1 =>
    cases hok
    exact .unchanged
  case h_2 refined hrefined =>
    split_ifs at hok with hsame
    · cases hok
      exact .unchanged
    · obtain ⟨_, m, hset, hdone⟩ := exec_bind_ok.mp hok
      cases hdone
      have hmore := (TensorType.meet_eq_some hrefined).resolve_left hsame
      obtain ⟨-, rfl⟩ := does_setType.of_ok hset
      exact .of_rel (learns_setType hv hmore)

lemma leads_refine {before : Bool} (h : Reports Learns p before q) (v : ValueId)
    (type : TensorType) : Leads (refine v type) q (fun here m ↦ Reports Learns p (before || here) m)
    fun _ ↦ True := by
  unfold Leads
  split
  case h_1 here m hrun => exact h.trans .trans (reports_refine hrun)
  case h_2 => trivial

lemma leads_refineLoopArgs (node : Operation) (p : Program) :
    Leads (refineLoopArgs node) p (fun args q ↦ Reports Learns p (!args.isEmpty) q)
    fun _ ↦ True := by
  unfold refineLoopArgs
  refine .read_bind trivial fun types _ ↦ ?_
  cases types with
  | none => exact .pure .unchanged
  | some types =>
    refine .foldlM (R := fun (args : List ValueId) q ↦ Reports Learns p (!args.isEmpty) q)
      (fun args r _ q hq ↦ .read_bind trivial fun region _ ↦ ?_) .unchanged
    split_ifs
    · exact .pure hq
    · refine .foldlM (R := fun (args : List ValueId) q ↦ Reports Learns p (!args.isEmpty) q)
        (fun args entry _ q hq ↦ .bind (leads_refine hq entry.1 entry.2) fun here n hn ↦ ?_) hq
      cases here with
      | true =>
        rw [Bool.or_true] at hn
        refine .pure ?_
        rwa [isEmpty_eq_false_iff.mpr (append_ne_nil_of_right_ne_nil _ (cons_ne_nil _ _))]
      | false => exact .pure (by simpa using hn)

lemma leads_refineAll (slots : List (ValueId × TensorType)) (agenda : Agenda) (p : Program) :
    Leads (refineAll slots agenda) p (fun answer q ↦ Reports Learns p answer.2 q) fun _ ↦ True := by
  unfold refineAll
  refine .foldlM (R := fun (answer : Agenda × Bool) q ↦ Reports Learns p answer.2 q)
    (fun answer entry _ q hq ↦ .bind (leads_refine hq entry.1 entry.2) fun here m hm ↦ ?_)
    .unchanged
  cases here with
  | true => exact .get_bind (.pure (by simpa using hm))
  | false => exact .pure (by simpa using hm)

lemma leads_lookAt (registry : Registry) (version : Nat) (o : OpId) (agenda : Agenda)
    (p : Program) : Leads (lookAt registry version o agenda) p
    (fun answer q ↦ Reports Learns p answer.2 q) fun _ ↦ True := by
  unfold lookAt
  refine .read_bind trivial fun node _ ↦ ?_
  have hrest : ∀ (args : List ValueId) (q : Program), Reports Learns p (!args.isEmpty) q → Leads (do
        let now ← get
        let types ← read (resultTypes registry version · node)
        let answer ← refineAll (node.results.zip types)
            (args.foldl (fun agenda arg ↦ agenda.pushUsers now arg) agenda)
        return (answer.1, answer.2 || !args.isEmpty)) q
        (fun answer m ↦ Reports Learns p answer.2 m) fun _ ↦ True := by
    intro args q hq
    refine .get_bind (.read_bind trivial fun types _ ↦ ?_)
    refine .bind (leads_refineAll _ _ q) fun answer m hm ↦ .pure ?_
    rw [Bool.or_comm]
    exact hq.trans .trans hm
  split_ifs
  · exact .bind (leads_refineLoopArgs node p) hrest
  · exact .bind (.pure .unchanged) hrest

lemma leads_propagate (registry : Registry) (settings : Settings) (steps : Nat) (agenda : Agenda)
    (p : Program) : Leads (propagate registry settings steps agenda) p
    (fun answer q ↦ Reports Learns p answer.2 q) fun _ ↦ True := by
  induction steps generalizing agenda p with
  | zero => exact .pure .unchanged
  | succ steps ih =>
    rw [propagate]
    split
    case h_1 => exact .pure .unchanged
    case h_2 =>
      refine .get_bind ?_
      dsimp only
      split_ifs
      · exact ih _ p
      · exact ih _ p
      · refine .bind (leads_lookAt _ _ _ _ p) fun answer q hq ↦ ?_
        exact .bind (ih answer.1 q) fun later m hm ↦ .pure (hq.trans .trans hm)

lemma reports_run {settings : Settings}
    (hok : (run settings registry).exec p = (.ok changed, q)) : Reports Differs p changed q := by
  have hlearns : Leads (run settings registry) p (fun changed q ↦ Reports Learns p changed q)
    fun _ ↦ True := .bind (.get_bind (leads_propagate registry settings _ _ p))
    fun answer m hm ↦ .pure hm
  rw [Leads, hok] at hlearns
  exact hlearns.imp Learns.differs

end TypePropagation

end TensorGraph
