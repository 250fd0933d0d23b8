import Mathlib.Algebra.Order.BigOperators.Group.Finset
import TensorGraph.Pass.ConstantMerging
import TensorGraph.Proofs.Digraph
import TensorGraph.Proofs.Growth

/-!
The flow of values into calls. A value flows from the operands of an operation to its results, from
the end of a region to the results of the operation that owns it, and around in a loop.
-/

namespace TensorGraph

open List

variable {p : Program} {o : OpId} {seen stack : List OpId} {steps : Nat} {v w : ValueId}

namespace Program

/-- A value flows into another: through an operation, out of a region, into the regions of a loop,
or around from the end of its body. -/
inductive Flow (p : Program) : ValueId → ValueId → Prop where
  | through {o : OpId} {node : Operation} {v w : ValueId} (ho : p.op? o = some node)
      (hv : v ∈ node.operands) (hw : w ∈ node.results) : Flow p v w
  | yielded {o last : OpId} {node : Operation} {r : RegionId} {i : Nat} {v w : ValueId}
      (ho : p.op? o = some node) (hr : r ∈ node.regions) (hlast : p.terminator? r = some last)
      (hv : (p.operandsOf last)[i]? = some v) (hw : node.results[i]? = some w) : Flow p v w
  | entered {o : OpId} {node : Operation} {r : RegionId} {i : Nat} {v w : ValueId}
      (ho : p.op? o = some node) (hkind : node.kind = "WhileRegion") (hr : r ∈ node.regions)
      (hv : node.operands[i]? = some v) (hw : (p.argsOf r)[i]? = some w) : Flow p v w
  | carried {o last : OpId} {node : Operation} {cond body r : RegionId} {i : Nat} {v w : ValueId}
      (ho : p.op? o = some node) (hkind : node.kind = "WhileRegion")
      (hregions : node.regions = [cond, body]) (hlast : p.terminator? body = some last)
      (hv : (p.operandsOf last)[i]? = some v) (hr : r ∈ node.regions)
      (hw : (p.argsOf r)[i]? = some w) : Flow p v w

lemma Flow.of_mem (hv : v ∈ p.operandsOf o) (hw : w ∈ p.resultsOf o) :
    Flow p v w := by
  cases hnode : p.op? o with
  | none =>
    rw [operandsOf, hnode] at hv
    cases hv
  | some node => exact .through hnode (operandsOf_eq hnode ▸ hv) (resultsOf_eq hnode ▸ hw)

/-- The value is an argument of a region. -/
def IsArgument (p : Program) (v : ValueId) : Prop :=
  ∃ r, v ∈ p.argsOf r

end Program

namespace ConstantMerging

open Program

/-- The value flows into an operand of a call, and on the way there is no argument of a region. -/
def FlowsIntoCall (p : Program) (registry : Registry) (v : ValueId) : Prop :=
  ∃ w x, Relation.ReflTransGen (fun a b ↦ Flow p a b ∧ ¬ IsArgument p b) v w ∧ w ∈ p.operandsOf x ∧
    isCall p registry x = true

/-! ### One step of the search -/

def outflow (p : Program) (o : OpId) : List ValueId :=
  p.resultsOf o ++ if p.isEnd o then
    (((p.parentOf? o).bind p.parentOp?).map p.resultsOf).getD [] else []

lemma flowTargets_eq (p : Program) (o : OpId) : flowTargets p o =
    (outflow p o).flatMap p.usersOf := by
  unfold flowTargets outflow
  cases hnode : p.op? o with
  | none => simp [resultsOf, isEnd, hnode]
  | some node =>
    have houter : ((((p.parentOf? o).bind p.parentOp?).map p.resultsOf).getD [] : List ValueId) =
        (((p.parentOp? node.parent).bind p.op?).map (·.results)).getD [] := by
      rw [parentOf?_eq hnode, Option.bind_some]
      cases p.parentOp? node.parent with
      | none => rfl
      | some owner => rfl
    rw [houter, resultsOf_eq hnode, isEnd, hnode]
    rfl

/-- The search goes from one operation on to the other. -/
def Leads (p : Program) (a b : OpId) : Prop :=
  b ∈ flowTargets p a

lemma leads_iff (hp : p.Consistent) {a b : OpId} : Leads p a b ↔
    ∃ v ∈ outflow p a, v ∈ p.operandsOf b := by
  simp only [Leads, flowTargets_eq, mem_flatMap, hp.uses.mem_usersOf]

lemma nodup_outer (hp : p.Consistent) (owner : Option OpId) :
    ((owner.map p.resultsOf).getD []).Nodup := by
  cases owner with
  | none => exact nodup_nil
  | some owner => exact hp.nodup_resultsOf owner

lemma length_users_le {values : List ValueId} (hnodup : values.Nodup)
    (hlt : ∀ v ∈ values, v.index < p.values.length) :
    (values.flatMap p.usersOf).length ≤ (p.values.flatMap (·.users)).length := by
  have hinjective : Function.Injective ValueId.index := by
    rintro ⟨i⟩ ⟨j⟩ (rfl : i = j)
    rfl
  have hsub : values.map ValueId.index ⊆ List.range p.values.length := by
    intro i hi
    obtain ⟨v, hv, rfl⟩ := mem_map.mp hi
    exact mem_range.mpr (hlt v hv)
  obtain ⟨indices, hperm, hsublist⟩ := subperm_of_subset (hnodup.map hinjective) hsub
  have hall : (List.range p.values.length).map (fun i ↦ (p.usersOf ⟨i⟩).length) = p.values.map
      (·.users.length) := by
    refine ext_getElem (by simp) fun i hi hi' ↦ ?_
    simp only [length_map] at hi'
    simp [usersOf, value?, getElem?_eq_getElem hi']
  rw [length_flatMap, length_flatMap]
  calc (values.map fun v ↦ (p.usersOf v).length).sum
      = ((values.map ValueId.index).map fun i ↦ (p.usersOf ⟨i⟩).length).sum := by rw [map_map]; rfl
    _ = (indices.map fun i ↦ (p.usersOf ⟨i⟩).length).sum := ((hperm.map _).sum_eq).symm
    _ ≤ ((List.range p.values.length).map fun i ↦ (p.usersOf ⟨i⟩).length).sum :=
      (hsublist.map _).sum_le_sum fun _ _ ↦ Nat.zero_le _
    _ = (p.values.map (·.users.length)).sum := congrArg List.sum hall

lemma length_flowTargets_le (hp : p.Consistent) (o : OpId) :
    (flowTargets p o).length ≤ 2 * (p.values.flatMap (·.users)).length := by
  have hresults := length_users_le (hp.nodup_resultsOf o) fun v hv ↦ hp.lt_of_mem_resultsOf hv
  have houter : ∀ owner : Option OpId,
      (((owner.map p.resultsOf).getD []).flatMap p.usersOf).length ≤
      (p.values.flatMap (·.users)).length := fun owner ↦ by
    refine length_users_le (nodup_outer hp owner) fun v hv ↦ ?_
    cases owner with
    | none => cases hv
    | some owner => exact hp.lt_of_mem_resultsOf hv
  rw [flowTargets_eq, outflow, flatMap_append, length_append]
  split_ifs
  · have := houter ((p.parentOf? o).bind p.parentOp?)
    omega
  · rw [flatMap_nil, length_nil]
    omega

/-! ### The whole search -/

def unseen (p : Program) (seen : List OpId) : Nat :=
  ((Finset.range p.slots.length).filter fun i ↦ (p.op? ⟨i⟩).isSome ∧ ⟨i⟩ ∉ seen).card

lemma unseen_le (p : Program) (seen : List OpId) : unseen p seen ≤ p.slots.length :=
  (Finset.card_filter_le _ _).trans_eq (Finset.card_range _)

lemma unseen_cons_subset (p : Program) (o : OpId) (seen : List OpId) :
    ((Finset.range p.slots.length).filter fun i ↦ (p.op? ⟨i⟩).isSome ∧ ⟨i⟩ ∉ o :: seen) ⊆
    (Finset.range p.slots.length).filter fun i ↦ (p.op? ⟨i⟩).isSome ∧ ⟨i⟩ ∉ seen := by
  intro i hi
  rw [Finset.mem_filter] at hi ⊢
  exact ⟨hi.1, hi.2.1, fun hmem ↦ hi.2.2 (mem_cons_of_mem o hmem)⟩

lemma unseen_cons_lt (hlive : (p.op? o).isSome) (ho : o ∉ seen) :
    unseen p (o :: seen) < unseen p seen := by
  have hlt := index_lt_of_isSome hlive
  refine Finset.card_lt_card ((Finset.ssubset_iff_of_subset (unseen_cons_subset p o seen)).mpr
    ⟨o.index, Finset.mem_filter.mpr ⟨Finset.mem_range.mpr hlt, hlive, ho⟩, fun hmem ↦ ?_⟩)
  exact (Finset.mem_filter.mp hmem).2.2 mem_cons_self

section Search

variable (hp : p.Consistent) {registry : Registry} {start : OpId}

include hp

lemma length_flowTargets_add_le (ho : o ∉ seen) :
    (flowTargets p o).length + 2 * (p.values.flatMap (·.users)).length * unseen p (o :: seen) ≤ 2 *
    (p.values.flatMap (·.users)).length * unseen p seen := by
  cases hnode : p.op? o with
  | none =>
    have hnone : flowTargets p o = [] := by rw [flowTargets, hnode]
    rw [hnone, length_nil, Nat.zero_add]
    exact Nat.mul_le_mul_left _ (Finset.card_le_card (unseen_cons_subset p o seen))
  | some node =>
    have hless := unseen_cons_lt (p := p) (Option.isSome_of_eq_some hnode) ho
    have hmul := Nat.mul_le_mul_left (2 * (p.values.flatMap (·.users)).length) hless
    have hlength := length_flowTargets_le hp o
    rw [Nat.succ_eq_add_one, Nat.mul_add, Nat.mul_one] at hmul
    omega

lemma exists_closed_of_callOnFlow
    (hsteps : stack.length + 2 * (p.values.flatMap (·.users)).length * unseen p seen ≤ steps)
    (hclosed : Covers (Leads p) seen stack)
    (hcalls : ∀ a ∈ seen, a ≠ start → isCall p registry a = false)
    (hnone : callOnFlow p registry start steps stack seen = false) : ∃ final :
    List OpId, seen ⊆ final ∧ stack ⊆ final ∧ ∀ a ∈ final, (∀ b, Leads p a b → b ∈ final) ∧
    (a ≠ start → isCall p registry a = false) := by
  induction steps generalizing stack seen with
  | zero =>
    obtain rfl : stack = [] := length_eq_zero_iff.mp (by omega)
    exact ⟨seen, Subset.refl _, nil_subset _, fun a ha ↦ ⟨hclosed.closed a ha, hcalls a ha⟩⟩
  | succ steps ih =>
    cases stack with
    | nil =>
      exact ⟨seen, Subset.refl _, nil_subset _, fun a ha ↦ ⟨hclosed.closed a ha, hcalls a ha⟩⟩
    | cons o stack =>
      rw [length_cons] at hsteps
      rw [callOnFlow] at hnone
      split_ifs at hnone with hseen hcall
      · have hmem : o ∈ seen := contains_iff_mem.mp hseen
        obtain ⟨final, hfinal, hstack, hrest⟩ := ih (by omega) (hclosed.drop hmem) hcalls hnone
        exact ⟨final, hfinal, cons_subset.mpr ⟨hfinal hmem, hstack⟩, hrest⟩
      · have hfresh : o ∉ seen := fun hmem ↦ hseen (contains_iff_mem.mpr hmem)
        have hpaid := length_flowTargets_add_le hp hfresh
        have hcalls' : ∀ a ∈ o :: seen, a ≠ start → isCall p registry a = false := by
          intro a ha hne
          rcases mem_cons.mp ha with rfl | ha
          · exact Bool.eq_false_iff.mpr fun h ↦ hcall ⟨hne, h⟩
          · exact hcalls a ha hne
        obtain ⟨final, hfinal, hstack, hrest⟩ := ih (by rw [length_append]; omega)
          (hclosed.push fun _ hb ↦ hb) hcalls' hnone
        rw [cons_subset] at hfinal
        rw [append_subset] at hstack
        exact ⟨final, hfinal.2, cons_subset.mpr ⟨hfinal.1, hstack.2⟩, hrest⟩

omit hp in
lemma exists_of_callOnFlow (hstack : ∀ x ∈ stack, Relation.ReflTransGen (Leads p) start x)
    (hfound : callOnFlow p registry start steps stack seen = true) :
    ∃ x, Relation.ReflTransGen (Leads p) start x ∧ x ≠ start ∧ isCall p registry x = true := by
  induction steps generalizing stack seen with
  | zero => cases hfound
  | succ steps ih =>
    cases stack with
    | nil => cases hfound
    | cons o stack =>
      obtain ⟨ho, hstack⟩ := forall_mem_cons.mp hstack
      rw [callOnFlow] at hfound
      split_ifs at hfound with hseen hcall
      · exact ih hstack hfound
      · exact ⟨o, ho, hcall⟩
      · refine ih (fun x hx ↦ ?_) hfound
        rcases mem_append.mp hx with hx | hx
        · exact ho.tail hx
        · exact hstack x hx

lemma feedsCall_iff : feedsCall p registry o = true ↔
    ∃ x, Relation.ReflTransGen (Leads p) o x ∧ x ≠ o ∧ isCall p registry x = true := by
  constructor
  · refine exists_of_callOnFlow fun x hx ↦ ?_
    rw [mem_singleton.mp hx]
  · rintro ⟨x, hpath, hne, hcall⟩
    by_contra hnone
    rw [Bool.not_eq_true] at hnone
    have hsteps := Nat.mul_le_mul_left (2 * (p.values.flatMap (·.users)).length) (unseen_le p [])
    rw [Nat.mul_comm _ p.slots.length] at hsteps
    obtain ⟨final, -, hstart, hclosed⟩ := exists_closed_of_callOnFlow hp
      (by rw [length_singleton]; omega) (fun a ha ↦ absurd ha not_mem_nil)
      (fun a ha ↦ absurd ha not_mem_nil) hnone
    have hmem : x ∈ final := by
      clear hne hcall
      induction hpath with
      | refl => exact hstart mem_cons_self
      | tail _ hstep ih => exact (hclosed _ ih).1 _ hstep
    rw [(hclosed x hmem).2 hne] at hcall
    cases hcall

/-! ### Values and operations -/

lemma leads_of_flow {a x : OpId} (ha : v ∈ outflow p a)
    (hflow : Relation.ReflTransGen (fun v w ↦ Flow p v w ∧ ¬ IsArgument p w) v w)
    (hx : w ∈ p.operandsOf x) : Relation.TransGen (Leads p) a x := by
  induction hflow using Relation.ReflTransGen.head_induction_on generalizing a with
  | refl => exact .single ((leads_iff hp).mpr ⟨w, ha, hx⟩)
  | @head u v hstep hrest ih =>
    obtain ⟨hstep, harg⟩ := hstep
    cases hstep with
    | @through o node _ _ ho hu hv =>
      have hnext : Leads p a o := (leads_iff hp).mpr ⟨u, ha, operandsOf_eq ho ▸ hu⟩
      exact .head hnext (ih (mem_append_left _ (resultsOf_eq ho ▸ hv)))
    | @yielded o last node r i _ _ ho hr hlast hu hv =>
      have hnext : Leads p a last := (leads_iff hp).mpr ⟨u, ha, mem_of_getElem? hu⟩
      refine .head hnext (ih (mem_append_right _ ?_))
      obtain ⟨hin, hend⟩ := terminator?_eq_some.mp hlast
      have hparent := hp.mem_opsIn.mp (mem_of_getLast? hin)
      have howner := hp.mem_regionsOf.mp (regionsOf_eq ho ▸ hr)
      rw [hend, if_pos rfl, hparent, Option.bind_some, howner, Option.map_some,
        Option.getD_some, resultsOf_eq ho]
      exact mem_of_getElem? hv
    | entered ho hkind hr hu hv => exact absurd ⟨_, mem_of_getElem? hv⟩ harg
    | carried ho hkind hregions hlast hu hr hv => exact absurd ⟨_, mem_of_getElem? hv⟩ harg

end Search

end ConstantMerging

end TensorGraph
