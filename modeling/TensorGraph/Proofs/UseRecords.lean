import Mathlib.Data.List.Perm.Basic
import TensorGraph.Proofs.Effects

/-!
Every value has on record, once for each operand slot that holds it, the operation the slot belongs
to.
-/

namespace TensorGraph.Program

open List

variable {p : Program} {o : OpId} {new old v : ValueId} {f : Operation → Operation}
    {node : Operation} {index : Nat} {I : Program → Prop}

/-- The users of a value are the operations whose operand slots hold it, with multiplicity. -/
structure UsesRecorded (p : Program) : Prop where
  free : FreeHandles p
  counts : ∀ v o, (p.usersOf v).count o = (p.operandsOf o).count v

namespace UsesRecorded

variable {q : Program}

lemma empty : UsesRecorded .empty :=
  ⟨⟨by simp [Program.empty], by simp [Program.empty], by simp [Program.empty]⟩,
    fun v o ↦ by simp [usersOf, operandsOf, value?, op?, Program.empty]⟩

section Users

variable (h : UsesRecorded p) {x : OpId}

include h

lemma mem_usersOf : x ∈ p.usersOf v ↔ v ∈ p.operandsOf x := by
  rw [← count_pos_iff, h.counts, count_pos_iff]

lemma not_mem_operandsOf (hv : p.usersOf v = []) (x : OpId) : v ∉ p.operandsOf x := by
  rw [← h.mem_usersOf, hv]
  exact not_mem_nil

lemma usersOf_eq_nil (hv : ∀ x, v ∉ p.operandsOf x) : p.usersOf v = [] :=
  eq_nil_iff_forall_not_mem.mpr fun x hx ↦ hv x (h.mem_usersOf.mp hx)

lemma isSome_value? (hv : v ∈ p.operandsOf x) : (p.value? v).isSome := by
  rw [← h.mem_usersOf, usersOf] at hv
  cases hvalue : p.value? v with
  | none => simp [hvalue] at hv
  | some value => rfl

end Users

section

variable (h : UsesRecorded p)

include h

lemma of_same (hfree : q.free = p.free)
    (hlength : q.slots.length = p.slots.length) (hlive : ∀ o, p.op? o = none → q.op? o = none)
    (hoperands : ∀ o, q.operandsOf o = p.operandsOf o) (husers : ∀ v, q.usersOf v = p.usersOf v) :
    UsesRecorded q :=
  ⟨h.free.of_same hfree hlength hlive, fun v o ↦ by rw [hoperands, husers, h.counts]⟩

lemma modifyOp (o : OpId) (hf : ∀ node, (f node).operands = node.operands) :
    UsesRecorded (p.modifyOp o f) := by
  refine h.of_same rfl (length_modify ..) (fun x hx ↦ ?_) (operandsOf_modifyOp p o hf) fun _ ↦ rfl
  rw [op?_modifyOp, hx]
  exact ite_self _

lemma modifyValue (v : ValueId) {f : Value → Value}
    (hf : ∀ value, (f value).users = value.users) : UsesRecorded (p.modifyValue v f) :=
  h.of_same rfl rfl (fun _ hx ↦ hx) (fun _ ↦ rfl)
    fun x ↦ congrArg (·.getD []) (map_value?_modifyValue p v (·.users) hf x)

lemma modifyRegion (r : RegionId) (f : Region → Region) : UsesRecorded (p.modifyRegion r f) :=
  h.of_same rfl rfl (fun _ hx ↦ hx) (fun _ ↦ rfl) fun _ ↦ rfl

end

lemma usersOf_pushValue (p : Program) (type : TensorType) (origin : Origin) (v : ValueId) :
    (p.pushValue type origin).usersOf v = p.usersOf v := by
  unfold usersOf
  rw [value?_pushValue]
  split_ifs with hv
  · subst hv
    rw [value?_nextValue]
    rfl
  · rfl

lemma pushValue (h : UsesRecorded p) (type : TensorType) (origin : Origin) :
    UsesRecorded (p.pushValue type origin) :=
  h.of_same rfl rfl (fun _ hx ↦ hx) (fun _ ↦ rfl) (usersOf_pushValue p type origin)

lemma pushRegion (h : UsesRecorded p) (owner : Owner) (execution : Execution) :
    UsesRecorded (p.pushRegion owner execution) :=
  h.of_same rfl rfl (fun _ hx ↦ hx) (fun _ ↦ rfl) fun _ ↦ rfl

end UsesRecorded

/-! ### Counting users -/

lemma count_usersOf_addUses (o : OpId) (l : List ValueId) (p : Program)
    (hl : ∀ v ∈ l, (p.value? v).isSome) (v : ValueId) (x : OpId) :
    ((l.foldl (fun q v ↦ q.addUse o v) p).usersOf v).count x =
    (p.usersOf v).count x + if x = o then l.count v else 0 := by
  induction l generalizing p with
  | nil => simp
  | cons a rest ih =>
    have hrest : ∀ w ∈ rest, ((p.addUse o a).value? w).isSome := fun w hw ↦ by
      rw [(SameButUsers.addUse p o a).isSome_value?]
      exact hl w (mem_cons_of_mem a hw)
    rw [foldl_cons, ih _ hrest, usersOf_addUse p o (hl a mem_cons_self)]
    by_cases hv : v = a
    · subst hv
      by_cases hx : x = o
      · simp [hx]
        omega
      · have hne : ¬ o = x := fun h ↦ hx h.symm
        simp [hx, hne]
    · have hne : ¬ a = v := fun h ↦ hv h.symm
      simp [hv, hne]

lemma count_usersOf_dropUses (o : OpId) (l : List ValueId) (p : Program) (v : ValueId) (x : OpId) :
    ((l.foldl (fun q v ↦ q.dropUse o v) p).usersOf v).count x =
      (p.usersOf v).count x - if x = o then l.count v else 0 := by
  induction l generalizing p with
  | nil => simp
  | cons a rest ih =>
    rw [foldl_cons, ih, usersOf_dropUse]
    by_cases hv : v = a
    · subst hv
      by_cases hx : x = o
      · simp [hx, count_erase_self]
        omega
      · simp [hx, count_erase_of_ne hx]
    · have hne : ¬ a = v := fun h ↦ hv h.symm
      simp [hv, hne]

/-! ### New operations -/

section

variable (o : OpId) (types : List TensorType)

lemma pushResults_eq (p : Program) : Edit.pushResults o types p = { p with
      values := p.values ++ types.zipIdx.map fun entry ↦
        { type := entry.1, origin := .result o entry.2, users := [] } } := by
  unfold Edit.pushResults
  generalize types.zipIdx = entries
  induction entries generalizing p with
  | nil => simp
  | cons entry rest ih =>
    rw [foldl_cons, ih]
    simp [pushValue]

lemma value?_pushResults (p : Program) (v : ValueId) : (Edit.pushResults o types p).value? v =
      if v.index < p.values.length then p.value? v
      else types[v.index - p.values.length]?.map fun type ↦
        { type, origin := .result o (v.index - p.values.length), users := [] } := by
  rw [pushResults_eq]
  unfold value?
  rw [getElem?_append]
  split_ifs with hlt
  · rfl
  · simp [getElem?_zipIdx, Function.comp_def]

lemma usersOf_pushResults (p : Program) (v : ValueId) :
    (Edit.pushResults o types p).usersOf v = p.usersOf v := by
  unfold usersOf
  rw [value?_pushResults]
  split_ifs with hlt
  · rfl
  · have hnone : p.value? v = none := getElem?_eq_none (by omega)
    rw [hnone]
    rcases types[v.index - p.values.length]? with _ | type <;> rfl

lemma isSome_value?_pushResults (hv : (p.value? v).isSome) :
    ((Edit.pushResults o types p).value? v).isSome := by
  have hlt : v.index < p.values.length := by
    by_contra hge
    simp [value?, getElem?_eq_none (Nat.le_of_not_lt hge)] at hv
  rw [value?_pushResults, if_pos hlt]
  exact hv

end

lemma sameButUsers_recordUses (p : Program) (r : RegionId) (new : NewOp) :
    SameButUsers (p.pushNode r new)
      (new.operands.foldl (fun q v ↦ q.addUse p.nextOp v) (p.pushNode r new)) :=
  .addUses p.nextOp new.operands _

lemma FreeHandles.op?_withOp (h : FreeHandles p) (r : RegionId) (index : Nat) (new : NewOp)
    (x : OpId) :
    (p.withOp r index new).op? x = if x = p.nextOp then some (p.nodeOf r new) else p.op? x := by
  have hadd := (p.sameButUsers_recordUses r new).op? x
  have hpush : (p.pushNode r new).op? x = (p.pushOp (p.nodeOf r new)).op? x := by
    rw [pushNode, pushResults_eq]
    rfl
  exact hadd.trans (hpush.trans (h.op?_pushOp _ x))

lemma UsesRecorded.withOp (h : UsesRecorded p) (r : RegionId) (index : Nat) {new : NewOp}
    (hnew : ∀ v ∈ new.operands, (p.value? v).isSome) : UsesRecorded (p.withOp r index new) := by
  have hop := h.free.op?_withOp r index new
  have hsame := p.sameButUsers_recordUses r new
  have hfree : (p.withOp r index new).free = (p.pushOp (p.nodeOf r new)).free := by
    refine hsame.free.trans ?_
    rw [pushNode, pushResults_eq]
  have hslots : (p.withOp r index new).slots = (p.pushOp (p.nodeOf r new)).slots := by
    refine hsame.slots.trans ?_
    rw [pushNode, pushResults_eq]
  refine ⟨(h.free.pushOp (p.nodeOf r new)).of_same hfree (by rw [hslots])
    fun x hx ↦ ?_, fun v x ↦ ?_⟩
  · rwa [op?, hslots]
  · have husers : ((p.withOp r index new).usersOf v).count x =
        (p.usersOf v).count x + if x = p.nextOp then new.operands.count v else 0 := by
      have hadd := count_usersOf_addUses p.nextOp new.operands (p.pushNode r new)
        (fun v hv ↦ isSome_value?_pushResults _ _ (by rw [value?_pushOp]; exact hnew v hv)) v x
      have hpush : (p.pushOp (p.nodeOf r new)).usersOf v = p.usersOf v := by
        rw [usersOf, value?_pushOp, usersOf]
      rw [pushNode, usersOf_pushResults, hpush] at hadd
      exact hadd
    rw [husers, h.counts, operandsOf, operandsOf, hop]
    split_ifs with hx
    · subst hx
      rw [h.free.op?_nextOp]
      simp [nodeOf]
    · rfl

/-! ### Redirected uses -/

/-- Where a use of a value goes when `old` is replaced by `new`. -/
def redirect (old new v : ValueId) : ValueId :=
  if v = old then new else v

lemma redirect_redirect (hne : old ≠ new) (v : ValueId) :
    redirect old new (redirect old new v) = redirect old new v := by
  unfold redirect
  split_ifs with hv hnew <;> simp_all

lemma count_map_redirect (hne : old ≠ new) (l : List ValueId) (v : ValueId) :
    (l.map (redirect old new)).count v =
      if v = new then l.count new + l.count old else if v = old then 0 else l.count v := by
  induction l with
  | nil => simp
  | cons a rest ih =>
    rw [map_cons, count_cons, ih]
    unfold redirect
    grind

private lemma op?_foldl_redirectOperands (hne : old ≠ new) (l : List OpId) (p : Program)
    (x : OpId) : (l.foldl (Edit.redirectOperands old new) p).op? x =
      if x ∈ l then (p.op? x).map fun node ↦
        { node with operands := node.operands.map (redirect old new) }
      else p.op? x := by
  induction l generalizing p with
  | nil => simp
  | cons a rest ih =>
    have hstep : Edit.redirectOperands old new p a = p.modifyOp a fun node ↦
        { node with operands := node.operands.map (redirect old new) } := rfl
    rw [foldl_cons, ih, hstep, op?_modifyOp]
    by_cases hx : x = a
    · subst hx
      rcases p.op? x with _ | node
      · simp
      · have hmap : (node.operands.map (redirect old new)).map (redirect old new) =
            node.operands.map (redirect old new) := by
          rw [map_map]
          exact map_congr_left fun v _ ↦ redirect_redirect hne v
        by_cases hmem : x ∈ rest
        · simp only [hmem, if_true, Option.map_some, hmap, mem_cons_self]
        · simp [hmem]
    · simp [hx]

private lemma foldl_redirectOperands_rest (old new : ValueId) (l : List OpId) (p : Program) :
    l.foldl (Edit.redirectOperands old new) p =
      { p with slots := (l.foldl (Edit.redirectOperands old new) p).slots } ∧
    (l.foldl (Edit.redirectOperands old new) p).slots.length = p.slots.length := by
  induction l generalizing p with
  | nil => exact ⟨rfl, rfl⟩
  | cons a rest ih =>
    obtain ⟨heq, hlength⟩ := ih (Edit.redirectOperands old new p a)
    refine ⟨?_, hlength.trans (length_modify ..)⟩
    rw [foldl_cons, heq]
    rfl

section Redirected

lemma map_redirect_of_not_used (h : UsesRecorded p) (new : ValueId)
    {x : OpId} (hx : x ∉ p.usersOf old) :
    (p.operandsOf x).map (redirect old new) = p.operandsOf x := by
  have hcount : (p.operandsOf x).count old = 0 := by
    rw [← h.counts]
    exact count_eq_zero.mpr hx
  have habsent := count_eq_zero.mp hcount
  conv_rhs => rw [← map_id (p.operandsOf x)]
  refine map_congr_left fun v hv ↦ ?_
  have hv' : v ≠ old := fun heq ↦ habsent (heq ▸ hv)
  exact if_neg hv'

lemma op?_redirected (h : UsesRecorded p) (hne : old ≠ new) (x : OpId) :
    (p.redirected old new).op? x = (p.op? x).map fun node ↦
      { node with operands := node.operands.map (redirect old new) } := by
  have hfold := op?_foldl_redirectOperands hne (p.usersOf old).eraseDups
    (p.modifyValue old fun value ↦ { value with users := [] }) x
  refine hfold.trans ?_
  split_ifs with hx
  · rfl
  · rw [mem_eraseDups] at hx
    change p.op? x = _
    rcases hop : p.op? x with _ | node
    · rfl
    · have hsame := map_redirect_of_not_used h new hx
      rw [operandsOf_eq hop] at hsame
      simp [hsame]

lemma operandsOf_redirected (h : UsesRecorded p) (hne : old ≠ new) (x : OpId) :
    (p.redirected old new).operandsOf x = (p.operandsOf x).map (redirect old new) := by
  unfold operandsOf
  rw [op?_redirected h hne]
  rcases p.op? x with _ | node <;> simp

lemma redirected_rest (p : Program) (old new : ValueId) :
    p.redirected old new = { (p.modifyValue old fun value ↦ { value with users := [] }).modifyValue
      new fun target ↦ { target with users := target.users ++ p.usersOf old } with
        slots := (p.redirected old new).slots } := by
  obtain ⟨hrest, -⟩ := foldl_redirectOperands_rest old new (p.usersOf old).eraseDups
    (p.modifyValue old fun value ↦ { value with users := [] })
  unfold redirected
  rw [hrest]
  rfl

lemma usersOf_redirected (hnew : (p.value? new).isSome) (hne : old ≠ new) (v : ValueId) :
    (p.redirected old new).usersOf v =
      if v = new then p.usersOf new ++ p.usersOf old else if v = old then [] else p.usersOf v := by
  have hvalue : (p.redirected old new).value? v = ((p.modifyValue old fun value ↦
      { value with users := [] }).modifyValue new fun target ↦
        { target with users := target.users ++ p.usersOf old }).value? v := by
    rw [redirected_rest]
    rfl
  rw [usersOf, hvalue, value?_modifyValue, value?_modifyValue]
  by_cases hv : v = new
  · subst hv
    obtain ⟨target, htarget⟩ := Option.isSome_iff_exists.mp hnew
    have hold : ¬ v = old := fun heq ↦ hne heq.symm
    simp [hold, htarget, usersOf]
  · by_cases hold : v = old
    · subst hold
      rcases p.value? v with _ | value <;> simp [hv]
    · simp [hv, hold, usersOf]

lemma UsesRecorded.redirected (h : UsesRecorded p) (hnew : (p.value? new).isSome)
    (hne : old ≠ new) : UsesRecorded (p.redirected old new) := by
  obtain ⟨-, hlength⟩ := foldl_redirectOperands_rest old new (p.usersOf old).eraseDups
    (p.modifyValue old fun value ↦ { value with users := [] })
  refine ⟨h.free.of_same ?_ hlength fun x hx ↦ ?_, fun v x ↦ ?_⟩
  · rw [redirected_rest]
    rfl
  · rw [op?_redirected h hne, hx]
    rfl
  · rw [operandsOf_redirected h hne, usersOf_redirected hnew hne, count_map_redirect hne]
    split_ifs with hv hold
    · rw [count_append, h.counts, h.counts]
    · rfl
    · exact h.counts v x

end Redirected

/-! ### Other operands -/

section

variable (h : UsesRecorded p)

include h

lemma UsesRecorded.exchange (ho : p.op? o = some node) (gone come : List ValueId)
    (hcome : ∀ v ∈ come, (p.value? v).isSome)
    (hcount : ∀ v, (f node).operands.count v = node.operands.count v - gone.count v + come.count v)
    : UsesRecorded (come.foldl (fun q v ↦ q.addUse o v)
    (gone.foldl (fun q v ↦ q.dropUse o v) (p.modifyOp o f))) := by
  have hdrop := SameButUsers.dropUses o gone (p.modifyOp o f)
  have hall := hdrop.trans (SameButUsers.addUses o come _)
  refine ⟨h.free.of_same hall.free ?_ fun x hx ↦ ?_, fun v x ↦ ?_⟩
  · rw [hall.slots]
    exact length_modify ..
  · rw [hall.op?, op?_modifyOp, hx]
    exact ite_self _
  · have hexist : ∀ v ∈ come,
      ((gone.foldl (fun q v ↦ q.dropUse o v) (p.modifyOp o f)).value? v).isSome := fun v hv ↦ by
      rw [hdrop.isSome_value?]
      exact hcome v hv
    rw [count_usersOf_addUses o come _ hexist, count_usersOf_dropUses, operandsOf,
      hall.op?, op?_modifyOp]
    have hp := h.counts v x
    change (p.usersOf v).count x - _ + _ = _
    by_cases hx : x = o
    · subst hx
      rw [operandsOf_eq ho] at hp
      simp only [if_true, ho, Option.map_some, Option.getD_some, hcount, hp]
    · rw [if_neg hx, if_neg hx, if_neg hx, hp]
      rfl

lemma UsesRecorded.withOperands (ho : (p.op? o).isSome) {operands : List ValueId}
    (hoperands : ∀ v ∈ operands, (p.value? v).isSome) :
    UsesRecorded (p.withOperands o operands) := by
  obtain ⟨node, hnode⟩ := Option.isSome_iff_exists.mp ho
  unfold Program.withOperands
  rw [operandsOf_eq hnode]
  exact h.exchange hnode node.operands operands hoperands fun v ↦ by
    rw [Nat.sub_self, Nat.zero_add]

lemma UsesRecorded.setOperand (hv : (p.value? v).isSome)
    (hold : (p.operandsOf o)[index]? = some old) : UsesRecorded (((p.modifyOp o fun node ↦
      { node with operands := node.operands.set index v }).dropUse o old).addUse o v) := by
  rcases ho : p.op? o with _ | node
  · simp [operandsOf, ho] at hold
  · rw [operandsOf_eq ho] at hold
    obtain ⟨hlt, hget⟩ := List.getElem?_eq_some_iff.mp hold
    refine h.exchange ho [old] [v] (by simpa using hv) fun w ↦ ?_
    rw [count_set hlt, hget, count_singleton, count_singleton]

lemma UsesRecorded.removeOperand (hold : (p.operandsOf o)[index]? = some old) :
    UsesRecorded (p.withoutOperand o index old) := by
  rcases ho : p.op? o with _ | node
  · simp [operandsOf, ho] at hold
  · rw [operandsOf_eq ho] at hold
    obtain ⟨hlt, hget⟩ := List.getElem?_eq_some_iff.mp hold
    refine h.exchange ho [old] [] (by simp) fun w ↦ ?_
    have hperm := (getElem_cons_eraseIdx_perm hlt).count_eq w
    rw [count_cons, hget] at hperm
    rw [← hperm, count_singleton, count_nil, Nat.add_sub_cancel, Nat.add_zero]

end

/-! ### Destruction -/

lemma UsesRecorded.release (h : UsesRecorded p) (ho : p.op? o = some node) :
    UsesRecorded (node.operands.foldl (fun q v ↦ q.dropUse o v) (p.release o)) := by
  have hsame := SameButUsers.dropUses o node.operands (p.release o)
  refine ⟨(h.free.release (by rw [ho]; rfl)).of_same hsame.free (by rw [hsame.slots])
    fun x hx ↦ ?_, fun v x ↦ ?_⟩
  · rw [hsame.op?, hx]
  · rw [count_usersOf_dropUses, operandsOf, hsame.op?, op?_release]
    have hp := h.counts v x
    change (p.usersOf v).count x - _ = _
    by_cases hx : x = o
    · subst hx
      rw [operandsOf_eq ho] at hp
      simp [hp]
    · rw [if_neg hx, if_neg hx, hp]
      rfl

/-- What freeing an operation and changing a region keep, destruction keeps. -/
theorem destroyToDepth_keeps (hrelease : ∀ q o node, q.op? o = some node → I q →
    I (node.operands.foldl (fun q v ↦ q.dropUse o v) (q.release o)))
    (hregion : ∀ q r f, I q → I (q.modifyRegion r f)) (depth : Nat) (hp : I p) (o : OpId) :
    I (destroyToDepth depth p o) := by
  induction depth generalizing p o with
  | zero => exact hp
  | succ depth ih =>
    unfold destroyToDepth
    rcases ho : p.op? o with _ | node
    · exact hp
    · refine foldl_keeps (fun q r hq ↦ ?_) _ (hrelease p o node ho hp)
      exact hregion _ _ _ (foldl_keeps (I := I) (fun _ x hm ↦ ih hm x) _ (hregion q r _ hq))

lemma dropRegion_keeps (hdestroy : ∀ depth q o, I q → I (destroyToDepth depth q o))
    (hregion : ∀ q r f, I q → I (q.modifyRegion r f)) (hp : I p) (r : RegionId) :
    I (p.dropRegion r) :=
  hregion _ _ _ (foldl_keeps (I := I) (fun q x hq ↦ hdestroy _ q x hq) _ (hregion p r _ hp))

lemma UsesRecorded.destroyToDepth (depth : Nat) (h : UsesRecorded p) (o : OpId) :
    UsesRecorded (destroyToDepth depth p o) :=
  destroyToDepth_keeps (fun _ _ _ ho hq ↦ hq.release ho)
    (fun _ r f hq ↦ hq.modifyRegion r f) depth h o

lemma UsesRecorded.dropRegion (h : UsesRecorded p) (r : RegionId) : UsesRecorded (p.dropRegion r) :=
  dropRegion_keeps (fun depth _ o hq ↦ hq.destroyToDepth depth o)
    (fun _ r f hq ↦ hq.modifyRegion r f) h r

end TensorGraph.Program
