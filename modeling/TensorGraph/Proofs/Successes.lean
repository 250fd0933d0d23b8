import TensorGraph.Pass.RegionForm
import TensorGraph.Proofs.Annotations
import TensorGraph.Proofs.Rewriting

/-!
Edits that succeed. `Succeeds e p Q` says that the edit has an answer on the program, and what is
true then of the answer and of the program it leaves.
-/

namespace TensorGraph.Edit

open Program List Option

variable {o : OpId} {r : RegionId} {node : Operation} {q : Program} {values : List ValueId}

variable {α β : Type} {a : α} {f : α → Edit β} {R : β → Program → Prop} {l : List α}

/-- The edit succeeds on the program, and its answer and the program it leaves have `Q`. -/
def Succeeds (e : Edit α) (p : Program) (Q : α → Program → Prop) : Prop :=
  ∃ a q, e.exec p = (.ok a, q) ∧ Q a q

namespace Succeeds

variable {e : Edit α} {p : Program} {Q : α → Program → Prop}

lemma of_ok (hok : e.exec p = (.ok a, q)) (h : Q a q) : Succeeds e p Q :=
  ⟨a, q, hok, h⟩

lemma of_leads {E : Program → Prop} (h : Leads e p Q E) (herror : ∀ q, ¬ E q) : Succeeds e p Q := by
  unfold Leads at h
  rcases hrun : e.exec p with ⟨err | a, q⟩ <;> rw [hrun] at h
  · exact absurd h (herror q)
  · exact ⟨a, q, hrun, h⟩

lemma imp {R : α → Program → Prop} (h : Succeeds e p Q) (himp : ∀ a q, Q a q → R a q) :
    Succeeds e p R := by
  obtain ⟨a, q, hok, hq⟩ := h
  exact ⟨a, q, hok, himp a q hq⟩

lemma and {R : α → Program → Prop} (h : Succeeds e p Q)
    (hR : ∀ a q, e.exec p = (.ok a, q) → R a q) : Succeeds e p fun a q ↦ Q a q ∧ R a q := by
  obtain ⟨a, q, hok, hq⟩ := h
  exact ⟨a, q, hok, hq, hR a q hok⟩

lemma bind (he : Succeeds e p Q)
    (hf : ∀ a q, Q a q → Succeeds (f a) q R) : Succeeds (e >>= f) p R := by
  obtain ⟨a, m, hok, hm⟩ := he
  obtain ⟨b, q, hok', hq⟩ := hf a m hm
  exact ⟨b, q, exec_bind_ok.mpr ⟨a, m, hok, hok'⟩, hq⟩

lemma bind_of_ok (hok : e.exec p = (.ok a, q)) (hf : Succeeds (f a) q R) : Succeeds (e >>= f) p R :=
  bind (Q := fun b m ↦ b = a ∧ m = q) (of_ok hok ⟨rfl, rfl⟩) fun _ _ ⟨hb, hm⟩ ↦ hb ▸ hm ▸ hf

lemma read_bind {query : Program → Except Error α}
    (hquery : query p = .ok a) (hf : Succeeds (f a) p R) : Succeeds (read query >>= f) p R :=
  bind_of_ok (by rw [exec_read, hquery]) hf

lemma get_bind {f : Program → Edit β} (hf : Succeeds (f p) p R) : Succeeds (get >>= f) p R := hf

lemma foldlM {R : List α → β → Program → Prop} {f : β → α → Edit β}
    (hstep : ∀ done, ∀ a ∈ l, ∀ b q, R done b q → Succeeds (f b a) q (R (done ++ [a]))) {b : β}
    (hstart : R [] b p) : Succeeds (l.foldlM f b) p (R l) := by
  suffices hrest : ∀ rest done b p, rest ⊆ l → R done b p →
    Succeeds (rest.foldlM f b) p (R (done ++ rest)) from hrest l [] b p (Subset.refl l) hstart
  intro rest
  induction rest with
  | nil =>
    intro done b p _ h
    exact of_ok rfl (by rwa [append_nil])
  | cons a rest ih =>
    intro done b p hsub h
    rw [foldlM_cons]
    refine bind (hstep done a (hsub mem_cons_self) b p h) fun b' q hq ↦ ?_
    have hdone := ih (done ++ [a]) b' q (fun x hx ↦ hsub (mem_cons_of_mem _ hx)) hq
    rwa [append_assoc, singleton_append] at hdone

lemma forM {R : List α → Program → Prop} {f : α → Edit PUnit}
    (hstep : ∀ a rest q, R (a :: rest) q → Succeeds (f a) q fun _ ↦ R rest) (hstart : R l p) :
    Succeeds (l.forM f) p fun _ ↦ R [] := by
  induction l generalizing p with
  | nil => exact of_ok rfl hstart
  | cons a rest ih => exact bind (hstep a rest p hstart) fun _ q hq ↦ ih hq

lemma anyChange {R : List α → Program → Prop} {step : α → Edit Bool}
    (hstep : ∀ a rest q, R (a :: rest) q → Succeeds (step a) q fun _ ↦ R rest) (hstart : R l p) :
    Succeeds (anyChange l step) p fun _ ↦ R [] := by
  unfold Edit.anyChange
  generalize false = changed
  induction l generalizing p changed with
  | nil => exact of_ok rfl hstart
  | cons a rest ih =>
    rw [foldlM_cons]
    have hhead : Succeeds (do return changed || (← step a)) p fun _ ↦ R rest :=
      bind (hstep a rest p hstart) fun _ _ hq ↦ of_ok rfl hq
    exact bind hhead fun changed q hq ↦ ih hq changed

end Succeeds

/-! ### Edits that succeed -/

section Exec

variable {p : Program}

lemma checkOps_exec {ops : List OpId} (h : ∀ o ∈ ops, (p.op? o).isSome) :
    (checkOps ops).exec p = (.ok ⟨⟩, p) :=
  does_checkOps.exec ⟨h, rfl⟩ fun _ _ h ↦ ⟨rfl, h.2⟩

lemma appendOp_exec (new : NewOp) (hr : (p.region? r).isSome) (hoperands : ∀ v ∈ new.operands,
    v.index < p.values.length) (hcontrol : ∀ d ∈ new.control, (p.op? d).isSome) :
    (appendOp r new).exec p = (.ok p.nextOp, p.withOp r (p.opsIn r).length new) :=
  does_appendOp.exec ⟨hr, fun v hv ↦ isSome_value?_iff.mpr (hoperands v hv), hcontrol, rfl, rfl⟩
    fun _ _ h ↦ h.2.2.2

lemma insertOpBefore_exec (hp : p.Consistent) {anchor : OpId} (hanchor : p.op? anchor = some node)
    {new : NewOp} (hoperands : ∀ v ∈ new.operands, v.index < p.values.length)
    (hcontrol : ∀ d ∈ new.control, (p.op? d).isSome) : (insertOpBefore anchor new).exec p =
    (.ok p.nextOp, p.withOp node.parent ((p.opsIn node.parent).idxOf anchor) new) := by
  have hparent := parentOf?_eq hanchor
  refine does_insertOpBefore.exec ⟨node.parent, hparent, hp.mem_opsIn.mpr hparent,
    fun v hv ↦ isSome_value?_iff.mpr (hoperands v hv), hcontrol, rfl, rfl⟩ ?_
  rintro _ _ ⟨r, hr, -, -, -, hnew⟩
  cases hparent.symm.trans hr
  exact hnew

lemma addArg_exec (hr : (p.region? r).isSome) (type : TensorType) :
    (addArg r type).exec p = (.ok p.nextValue, p.withArg r type) :=
  does_addArg.exec ⟨hr, rfl, rfl⟩ fun _ _ h ↦ h.2

lemma addRegion_exec (ho : p.op? o = some node) (hrefs : ∀ refs, node.form ≠ .functional refs)
    (execution : Execution) :
    (addRegion o execution).exec p = (.ok p.nextRegion, p.withRegion o execution) :=
  does_addRegion.exec ⟨⟨node, ho, hrefs⟩, rfl, rfl⟩ fun _ _ h ↦ h.2

lemma pushFunc_exec {body : RegionId} (hbody : (p.region? body).isSome) (name : String)
    (resultTypes : List TensorType) :
    (pushFunc name body resultTypes).exec p = (.ok ⟨⟩, p.withFunc name body resultTypes) :=
  does_pushFunc.exec ⟨hbody, rfl⟩ fun _ _ h ↦ ⟨rfl, h.2⟩

lemma setOperands_exec {operands : List ValueId} (ho : (p.op? o).isSome)
    (hoperands : ∀ v ∈ operands, v.index < p.values.length) :
    (setOperands o operands).exec p = (.ok ⟨⟩, p.withOperands o operands) :=
  does_setOperands.exec ⟨fun v hv ↦ isSome_value?_iff.mpr (hoperands v hv), ho, rfl⟩ fun _ _ h ↦
    ⟨rfl, h.2.2⟩

lemma op?_withOperands (p : Program) (o : OpId) (operands : List ValueId) (x : OpId) :
    (p.withOperands o operands).op? x = (p.modifyOp o fun node ↦ { node with operands }).op? x :=
  ((SameButUsers.dropUses o (p.operandsOf o) _).trans (.addUses o operands _)).op? x

lemma setForm_setKind_exec (ho : p.op? o = some node) (hregions : node.regions = [])
    (kind : String) : (setForm o .plain >>= fun _ ↦ setKind o kind).exec p = (.ok ⟨⟩,
      (p.modifyOp o fun node ↦ { node with form := .plain }).modifyOp o fun node ↦
      { node with kind }) := by
  have hplain : (setForm o .plain).exec p =
      (.ok ⟨⟩, p.modifyOp o fun node ↦ { node with form := .plain }) := by
    have hnone : p.regionsOf o = [] := (regionsOf_eq ho).trans hregions
    refine does_setForm.exec ⟨by simp, isSome_of_eq_some ho, by rw [hnone]; rfl⟩ fun _ _ h ↦
      ⟨rfl, ?_⟩
    rw [h.2.2, hnone]
    rfl
  rw [exec_bind_of_ok hplain, setKind]
  exact updateOp_exec (by rw [op?_modifyOp, if_pos rfl, ho]; rfl) _

lemma typeOf?_withArg (p : Program) (r : RegionId) (type : TensorType) (v : ValueId) :
    (p.withArg r type).typeOf? v =
    if v.index < p.values.length then p.typeOf? v else if v =
      p.nextValue then some type else none := by
  change ((p.values ++ [_])[v.index]?).map Value.type = _
  rw [getElem?_append]
  split_ifs with hlt hnew
  · rfl
  · subst hnew
    simp [nextValue]
  · have hne : v.index ≠ p.values.length := fun heq ↦ hnew (ValueId.ext heq)
    rw [getElem?_eq_none (by simp; omega)]
    rfl

lemma succeeds_carryValues (hr : (p.region? r).isSome)
    (hvalues : ∀ v ∈ values, v.index < p.values.length) : Succeeds (RegionForm.carryValues r values)
      p fun new q ↦ (∀ v, v.index < p.values.length → q.typeOf? v = p.typeOf? v) ∧
      new.map q.typeOf? = values.map p.typeOf? := by
  unfold RegionForm.carryValues
  induction values generalizing p with
  | nil => exact .of_ok rfl ⟨fun _ _ ↦ rfl, rfl⟩
  | cons v rest ih =>
    obtain ⟨hv, hrest⟩ := forall_mem_cons.mp hvalues
    rw [mapM_cons]
    have hadd : (read (·.valueType v) >>= addArg r).exec p =
        (.ok p.nextValue, p.withArg r (p.typeAt v)) := by
      rw [exec_bind_of_ok (by rw [exec_read, valueType_eq_ok hv])]
      exact addArg_exec hr _
    refine .bind_of_ok hadd ?_
    have hregion : ((p.withArg r (p.typeAt v)).region? r).isSome := by
      rw [withArg, region?_modifyRegion, if_pos rfl, isSome_map]
      exact hr
    have hlt := fun (u : ValueId) (hu : u.index < p.values.length) ↦
      Nat.lt_of_lt_of_le hu (Grows.withArg p r (p.typeAt v)).values
    have hold : ∀ u, u.index < p.values.length →
        (p.withArg r (p.typeAt v)).typeOf? u = p.typeOf? u := fun u hu ↦ by
      rw [typeOf?_withArg, if_pos hu]
    refine .bind (ih hregion fun u hu ↦ hlt u (hrest u hu)) ?_
    rintro new q ⟨hkept, htypes⟩
    refine .of_ok rfl ⟨fun u hu ↦ (hkept u (hlt u hu)).trans (hold u hu), ?_⟩
    have hfirst : q.typeOf? p.nextValue = p.typeOf? v := by
      have hnew : ¬ p.nextValue.index < p.values.length := Nat.lt_irrefl _
      rw [hkept _ (by simp [nextValue, withArg, pushValue, modifyRegion]), typeOf?_withArg,
        if_neg hnew, if_pos rfl, typeOf?_eq_typeAt hv]
    rw [map_cons, map_cons, hfirst, htypes, map_congr_left fun u hu ↦ hold u (hrest u hu)]

lemma replaceUses_exec {old new : ValueId} (hold : (p.value? old).isSome)
    (hnew : (p.value? new).isSome) (hne : old ≠ new) :
    (replaceUses old new).exec p = (.ok ⟨⟩, p.redirected old new) := by
  refine does_replaceUses.exec ⟨hnew, .inr ⟨hold, hne, rfl⟩⟩ ?_
  rintro _ _ ⟨-, ⟨hsame, -⟩ | ⟨-, -, hq⟩⟩
  · exact absurd hsame hne
  · exact ⟨rfl, hq⟩

lemma succeeds_detach (hp : p.Consistent) (ho : (p.op? o).isSome) :
    Succeeds (detach o) p fun _ _ ↦ True := by
  obtain ⟨node, hnode⟩ := isSome_iff_exists.mp ho
  have hparent := parentOf?_eq hnode
  rcases does_detach with ⟨err, -, hnone⟩ | ⟨_, _, hok, -⟩
  · exact absurd ⟨node.parent, hparent, hp.mem_opsIn.mpr hparent, rfl⟩ (hnone ⟨⟩ _)
  · exact .of_ok hok trivial

lemma succeeds_eraseOp (hp : p.Consistent) (ho : p.op? o = some node)
    (hunused : ∀ v ∈ p.resultsOf o, ∀ x, v ∉ p.operandsOf x) (hfree : ∀ x, o ∉ p.controlOf x) :
    Succeeds (eraseOp o) p fun _ _ ↦ True := by
  have hused : firstUsed p node = none := by
    refine findIdx?_eq_none_iff.mpr fun v hv ↦ ?_
    rw [← resultsOf_eq ho] at hv
    have husers := hp.uses.usersOf_eq_nil (hunused v hv)
    cases hvalue : p.value? v with
    | none => rfl
    | some value =>
      rw [usersOf_eq hvalue] at husers
      simp [Value.hasUses, husers]
  have hdependents : p.controlDependents o = [] :=
    eq_nil_iff_forall_not_mem.mpr fun x hx ↦ hfree x (mem_controlDependents.mp hx)
  unfold eraseOp
  refine .read_bind (by rw [op, ho]) (.get_bind ?_)
  rw [hused]
  refine .get_bind ?_
  rw [hdependents]
  exact .bind_of_ok rfl
    (.bind (succeeds_detach hp (by rw [ho]; rfl)) fun _ m _ ↦ .of_ok (exec_modify _ m) trivial)

end Exec

end TensorGraph.Edit
