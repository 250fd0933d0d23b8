import Mathlib.Data.List.Induction
import TensorGraph.Proofs.ConstantMerging
import TensorGraph.Proofs.Destruction
import TensorGraph.Proofs.Growth

/-!
What is read after constants have been merged. Each step of the pass leaves an operand alone, or
puts the result of one constant in the place of the result of another with the same type and an
equal value.
-/

namespace TensorGraph

open List Option

variable {p q : Program} {o kept duplicate : OpId} {v w : ValueId} {changed : Bool}
  {node : Operation} {f : OpId → Operation → Operation} {r : RegionId} {pair : OpId × OpId}
  {registry : Registry} {settings : Settings}

namespace Program

/-- The node is that of a constant with the value among its results. -/
def ConstantOf (p : Program) (v : ValueId) (node : Operation) : Prop :=
  ∃ c, p.op? c = some node ∧ node.kind = "Const" ∧ v ∈ node.results

lemma ConstantOf.unique (hp : p.Consistent) {a b : Operation}
    (ha : p.ConstantOf v a) (hb : p.ConstantOf v b) : a = b := by
  obtain ⟨c, hc, -, hv⟩ := ha
  obtain ⟨d, hd, -, hv'⟩ := hb
  rw [← resultsOf_eq hc] at hv
  rw [← resultsOf_eq hd] at hv'
  obtain rfl := hp.eq_of_mem_resultsOf hv hv'
  exact some.inj (hc.symm.trans hd)

/-- The same attributes, or tensors that agree as the value. -/
def SameValue (a b : AttributeSet) : Prop :=
  a = b ∨ ∃ t u, a.getTensor "value" = .ok t ∧ b.getTensor "value" = .ok u ∧ t.Agrees u

lemma SameValue.trans {a b c : AttributeSet} (h : SameValue a b) (h' : SameValue b c) :
    SameValue a c := by
  rcases h with rfl | ⟨t, u, ht, hu, hagree⟩
  · exact h'
  · rcases h' with rfl | ⟨u', w, hu', hw, hagree'⟩
    · exact .inr ⟨t, u, ht, hu, hagree⟩
    · cases hu.symm.trans hu'
      exact .inr ⟨t, w, ht, hw, hagree.trans hagree'⟩

/-- A slot that held `v` in `p` holds `w` in `q`: the same value if `v` is the result of no
constant, and otherwise the result of a constant with the same type and value. -/
inductive ReadsAlike (p q : Program) (v w : ValueId) : Prop where
  | other (hv : ∀ node, ¬ p.ConstantOf v node) (hsame : w = v)
  | constant (node node' : Operation) (hv : p.ConstantOf v node) (hw : q.ConstantOf w node')
      (htype : q.typeOf? w = p.typeOf? v) (hvalue : SameValue node.attrs node'.attrs)

structure Rereads (p q : Program) : Prop where
  values : SameValues p q
  survives : ∀ x node, p.op? x = some node → node.kind ≠ "Const" → (q.op? x).isSome
  op? : ∀ x after, q.op? x = some after → ∃ before, p.op? x = some before ∧
    after.kind = before.kind ∧ after.attrs = before.attrs ∧ after.results = before.results ∧
    List.Forall₂ (ReadsAlike p q) before.operands after.operands

namespace Rereads

variable {m : Program}

lemma constantOf (h : Rereads p q) (hv : q.ConstantOf v node) :
    ∃ before, p.ConstantOf v before := by
  obtain ⟨c, hc, hkind, hresult⟩ := hv
  obtain ⟨before, hbefore, hkind', -, hresults, -⟩ := h.op? c node hc
  exact ⟨before, c, hbefore, hkind' ▸ hkind, hresults ▸ hresult⟩

lemma trans (hm : m.Consistent) (h : Rereads p m) (h' : Rereads m q) : Rereads p q := by
  refine ⟨h.values.trans h'.values, fun x node hnode hkind ↦ ?_, fun x after hafter ↦ ?_⟩
  · obtain ⟨between, hbetween⟩ := isSome_iff_exists.mp (h.survives x node hnode hkind)
    obtain ⟨before, hbefore, hsame, -⟩ := h.op? x between hbetween
    cases hnode.symm.trans hbefore
    exact h'.survives x between hbetween (hsame ▸ hkind)
  · obtain ⟨between, hbetween, hkind, hattrs, hresults, hreads⟩ := h'.op? x after hafter
    obtain ⟨before, hbefore, hkind', hattrs', hresults', hreads'⟩ := h.op? x between hbetween
    refine ⟨before, hbefore, hkind.trans hkind', hattrs.trans hattrs', hresults.trans hresults', ?_⟩
    refine forall₂_trans (fun u v w huv hvw ↦ ?_) hreads' hreads
    cases huv with
    | other hu hsame =>
      subst hsame
      cases hvw with
      | other _ hsame => exact .other hu hsame
      | constant node _ hv =>
        obtain ⟨before, hbefore⟩ := h.constantOf hv
        exact absurd hbefore (hu before)
    | constant node node' hu hv htype hvalue =>
      cases hvw with
      | other hnone _ => exact absurd hv (hnone node')
      | constant node₁ node₂ hv' hw htype' hvalue' =>
        obtain rfl := hv.unique hm hv'
        exact .constant node node₂ hu hw (htype'.trans htype) (hvalue.trans hvalue')

lemma of_ops (hop : ∀ x, q.op? x = (p.op? x).map (f x))
    (hkind : ∀ x node, (f x node).kind = node.kind)
    (hattrs : ∀ x node, (f x node).attrs = node.attrs)
    (hresults : ∀ x node, (f x node).results = node.results)
    (hoperands : ∀ x node, (f x node).operands = node.operands) (hvalues : SameValues p q) :
    Rereads p q := by
  refine ⟨hvalues, fun x node hnode _ ↦ ?_, fun x after hafter ↦ ?_⟩
  · rw [hop, hnode]
    rfl
  · rw [hop] at hafter
    obtain ⟨before, hbefore, rfl⟩ := map_eq_some_iff.mp hafter
    refine ⟨before, hbefore, hkind x before, hattrs x before, hresults x before, ?_⟩
    rw [hoperands]
    refine forall₂_same.mpr fun v _ ↦ ?_
    by_cases hv : ∃ node, p.ConstantOf v node
    · obtain ⟨node, c, hc, hconst, hresult⟩ := hv
      refine .constant node (f c node) ⟨c, hc, hconst, hresult⟩ ⟨c, ?_, ?_, ?_⟩ (hvalues.typeOf? v)
        (.inl (hattrs c node).symm)
      · rw [hop, hc, map_some]
      · rw [hkind, hconst]
      · rwa [hresults]
    · exact .other (fun node hnode ↦ hv ⟨node, hnode⟩) rfl

lemma refl (p : Program) : Rereads p p :=
  of_ops (f := fun _ node ↦ node) (fun _ ↦ map_id'.symm) (fun _ _ ↦ rfl) (fun _ _ ↦ rfl)
    (fun _ _ ↦ rfl) (fun _ _ ↦ rfl) (.refl p)

end Rereads

end Program

namespace ConstantMerging

open Program Edit

structure Mergeable (p : Program) (duplicate kept : OpId) : Prop where
  apart : duplicate ≠ kept
  leaf : p.regionsOf duplicate = []
  alike : ∃ node node' v w, p.op? duplicate = some node ∧ p.op? kept = some node' ∧
    node.kind = "Const" ∧ node'.kind = "Const" ∧ node.results = [v] ∧ node'.results = [w] ∧
    p.typeOf? w = p.typeOf? v ∧ SameValue node.attrs node'.attrs

lemma result_zero (hnode : p.op? o = some node) (hresults : node.results = [v])
    (h : p.result o 0 = .ok w) : w = v := by
  have hget := result_eq_ok.mp h
  rw [resultsOf_eq hnode, hresults] at hget
  exact (some.inj hget).symm

lemma mergeInto_op? (hp : p.Consistent) (hleaf : p.regionsOf duplicate = [])
    (hv : ∀ u, p.result duplicate 0 = .ok u → u = v) (hw : ∀ u, p.result kept 0 = .ok u → u = w)
    (hne : v ≠ w) (hok : (mergeInto duplicate kept).exec p = (.ok ⟨⟩, q)) : SameValues p q ∧
      q.op? duplicate = none ∧ ∀ x, x ≠ duplicate → q.op? x = (p.op? x).map fun node ↦ { node with
        operands := node.operands.map (redirect v w), control := q.controlOf x } := by
  obtain ⟨old, new, m, n, hold, hnew, hreplace, hcontrol, herase⟩ := mergeInto_ok hok
  obtain rfl := hv old hold
  obtain rfl := hw new hnew
  obtain ⟨hvalue, ⟨hsame, -⟩ | ⟨-, -, rfl⟩⟩ := does_replaceUses.of_ok hreplace
  · exact absurd hsame hne
  have hmn := (replaceControl_ok hcontrol).1
  have hn := hmn.consistent (hp.redirected hvalue hne)
  have hop : ∀ x, n.op? x = (p.op? x).map fun node ↦
      { node with operands := node.operands.map (redirect old new), control := n.controlOf x } := by
    intro x
    rw [hmn.op?, op?_redirected hp.uses hne, Option.map_map]
    rfl
  have hleaf' : n.regionsOf duplicate = [] := by
    rw [← hleaf, regionsOf, hop, Option.map_map, regionsOf]
    rfl
  refine ⟨?_, (eraseOp_op? hn herase duplicate).1 .self, fun x hx ↦ ?_⟩
  · exact (SameValues.redirected p old new).trans
      ((SameValues.of_sameButControl hmn).trans (SameValues.of_eraseOp herase))
  · have hkept := (eraseOp_op? hn herase x).2 fun hheld ↦ hx (hheld.eq_of_leaf hleaf')
    rw [controlOf, hkept, hop]
    rcases p.op? x with _ | node <;> rfl

lemma rereads_mergeInto (hp : p.Consistent) (h : Mergeable p duplicate kept)
    (hok : (mergeInto duplicate kept).exec p = (.ok ⟨⟩, q)) : Rereads p q ∧ ∀ pair : OpId × OpId,
      Mergeable p pair.1 pair.2 → pair.1 ≠ duplicate → pair.2 ≠ duplicate →
      Mergeable q pair.1 pair.2 := by
  obtain ⟨node, node', v, w, hnode, hnode', hkind, hkind', hresults, hresults', htype, hvalue⟩ :=
    h.alike
  have hv : v ∈ p.resultsOf duplicate := by
    rw [resultsOf_eq hnode, hresults]
    exact mem_cons_self
  have hne : v ≠ w := by
    rintro rfl
    refine h.apart (hp.eq_of_mem_resultsOf hv ?_)
    rw [resultsOf_eq hnode', hresults']
    exact mem_cons_self
  obtain ⟨hvalues, hgone, hop⟩ := mergeInto_op? hp h.leaf
    (fun _ ↦ result_zero hnode hresults) (fun _ ↦ result_zero hnode' hresults') hne hok
  have hstays : ∀ x before, x ≠ duplicate → p.op? x = some before → q.op? x = some
      { before with operands := before.operands.map (redirect v w), control := q.controlOf x } := by
    intro x before hx hbefore
    rw [hop x hx, hbefore, map_some]
  refine ⟨⟨hvalues, fun x before hbefore hother ↦ ?_, fun x after hafter ↦ ?_⟩,
    fun pair hpair hfst hsnd ↦ ?_⟩
  · have hx : x ≠ duplicate := by
      rintro rfl
      exact hother (some.inj (hnode.symm.trans hbefore) ▸ hkind)
    exact isSome_of_eq_some (hstays x before hx hbefore)
  · have hx : x ≠ duplicate := by
      rintro rfl
      cases hgone.symm.trans hafter
    rw [hop x hx] at hafter
    obtain ⟨before, hbefore, rfl⟩ := map_eq_some_iff.mp hafter
    refine ⟨before, hbefore, rfl, rfl, rfl, forall₂_map_right_iff.mpr ?_⟩
    refine forall₂_same.mpr fun u _ ↦ ?_
    by_cases hu : u = v
    · subst hu
      rw [redirect, if_pos rfl]
      exact .constant node _ ⟨duplicate, hnode, hkind, hresults ▸ mem_cons_self⟩
        ⟨kept, hstays kept node' h.apart.symm hnode', hkind', hresults' ▸ mem_cons_self⟩
        ((hvalues.typeOf? w).trans htype) hvalue
    · rw [redirect, if_neg hu]
      by_cases hconst : ∃ maker, p.ConstantOf u maker
      · obtain ⟨maker, c, hc, hmaker, hresult⟩ := hconst
        have hcx : c ≠ duplicate := by
          rintro rfl
          cases hc.symm.trans hnode
          rw [hresults] at hresult
          exact hu (mem_singleton.mp hresult)
        exact .constant maker _ ⟨c, hc, hmaker, hresult⟩
          ⟨c, hstays c maker hcx hc, hmaker, hresult⟩ (hvalues.typeOf? u) (.inl rfl)
      · exact .other (fun maker hmaker ↦ hconst ⟨maker, hmaker⟩) rfl
  · obtain ⟨a, b, u, u', ha, hb, hak, hbk, hau, hbu, htype', hvalue'⟩ := hpair.alike
    refine ⟨hpair.apart, ?_, _, _, u, u', hstays _ a hfst ha, hstays _ b hsnd hb, hak, hbk,
      hau, hbu, ?_, hvalue'⟩
    · rw [← hpair.leaf, regionsOf, hop _ hfst, Option.map_map, regionsOf]
      rfl
    · rw [hvalues.typeOf?, hvalues.typeOf?, htype']

lemma rereads_hoist {place : Nat} (hok : (hoist r o place).exec p = (.ok changed, q)) :
    Rereads p q := by
  rcases hoist_cases hok with rfl | ⟨home, index, rfl⟩
  · exact .refl q
  · refine .of_ops (op?_modifyOp_eq_map _ o _) (fun x node ↦ ?_) (fun x node ↦ ?_)
      (fun x node ↦ ?_) (fun x node ↦ ?_) (.of_values rfl)
    all_goals split_ifs <;> rfl

/-! ### The pass -/

lemma exists_of_isCandidate (h : isCandidate settings p o = true) :
    ∃ node v t, p.op? o = some node ∧ node.kind = "Const" ∧ node.results = [v] ∧
    node.attrs.getTensor "value" = .ok t := by
  unfold isCandidate at h
  rcases hnode : p.op? o with _ | node
  · rw [hnode] at h
    cases h
  rw [hnode] at h
  simp only [Bool.and_eq_true, beq_iff_eq] at h
  obtain ⟨⟨⟨⟨⟨hkind, -⟩, -⟩, hresults⟩, -⟩, hvalue⟩ := h
  obtain ⟨v, hv⟩ := length_eq_one_iff.mp hresults
  cases ht : node.attrs.getTensor "value" with
  | error err =>
    rw [ht] at hvalue
    cases hvalue
  | ok t => exact ⟨node, v, t, rfl, hkind, hv, ht⟩

lemma mergeable_of_identical (hduplicate : isCandidate settings p duplicate = true)
    (hkept : isCandidate settings p kept = true) (hleaf : p.regionsOf duplicate = [])
    (hapart : duplicate ≠ kept) (h : identical p kept duplicate = true) :
    Mergeable p duplicate kept := by
  obtain ⟨node, v, t, hnode, hkind, hv, ht⟩ := exists_of_isCandidate hduplicate
  obtain ⟨node', w, -, hnode', hkind', hw, -⟩ := exists_of_isCandidate hkept
  unfold identical at h
  rw [hnode', hnode] at h
  simp only [Bool.and_eq_true, hv, hw, zip_cons_cons, zip_nil_right, all_cons,
    all_nil, beq_iff_eq] at h
  obtain ⟨⟨-, hattrs⟩, htype, -⟩ := h
  obtain ⟨u, hu, hagree⟩ := AttributeSet.getTensor_of_equal hattrs ht
  exact ⟨hapart, hleaf, node, node', v, w, hnode, hnode', hkind, hkind', hv, hw, htype, .inr
    ⟨t, u, ht, hu, hagree⟩⟩

lemma identical_of_mem_merged {constants : List OpId} (h : pair ∈ (mergeOf p constants).merged) :
    identical p pair.2 pair.1 = true := by
  induction constants using List.reverseRecOn with
  | nil => cases h
  | append_singleton front o ih =>
    rw [mergeOf, foldl_concat, ← mergeOf] at h
    split at h
    · next kept hfind =>
      rcases mem_append.mp h with hpair | hpair
      · exact ih hpair
      · obtain rfl := mem_singleton.mp hpair
        have hidentical := find?_some hfind
        exact hidentical
    · exact ih h

/-- The constants still to be merged can be merged, and differ from those that stay. -/
structure Ready (kept : List OpId) (pairs : List (OpId × OpId)) (p : Program) : Prop where
  consistent : p.Consistent
  apart : (kept ++ pairs.map Prod.fst).Nodup
  mergeable : ∀ pair ∈ pairs, pair.2 ∈ kept ∧ Mergeable p pair.1 pair.2

lemma ready_mergeOf (hp : p.Consistent) (settings : Settings) (registry : Registry) (gated : Bool)
    (r : RegionId) : Ready (mergeOf p (candidates settings registry gated p r)).kept
    (mergeOf p (candidates settings registry gated p r)).merged p := by
  have hsound := sound_mergeOf p (candidates settings registry gated p r)
  have hlisted : (candidates settings registry gated p r).Sublist (p.opsIn r) := filter_sublist
  have hnodup := hlisted.nodup (hp.placed.once r)
  refine ⟨hp, hsound.all.nodup_iff.mpr hnodup, fun pair hpair ↦ ?_⟩
  obtain ⟨hkept, hbehind⟩ := hsound.earlier pair hpair
  have hcandidate : ∀ o ∈ [pair.2, pair.1], isCandidate settings p o = true := fun o ho ↦
    (Bool.and_eq_true_iff.mp (mem_filter.mp (hbehind.subset ho)).2).1
  have hapart : pair.1 ≠ pair.2 := by
    have hpairwise := hbehind.nodup hnodup
    intro heq
    rw [heq] at hpairwise
    simp at hpairwise
  refine ⟨hkept, mergeable_of_identical (hcandidate pair.1 (by simp)) (hcandidate pair.2 (by simp))
    ?_ hapart (identical_of_mem_merged hpair)⟩
  exact (isConstant_of_mem_candidates (hbehind.subset (by simp))).leaf

lemma keeps_mergeInto (duplicate kept : OpId) : Keeps Consistent (mergeInto duplicate kept) :=
  .bind (.read _) fun _ ↦ .bind (.read _) fun _ ↦ .bind (makes_replaceUses _ _).keeps fun _ ↦
    .bind (through_replaceControl _ _).keeps fun _ ↦ keeps_eraseOp _

lemma Ready.step {kept : List OpId} {pairs : List (OpId × OpId)} (h : Ready kept (pair :: pairs) p)
    (hok : (mergeInto pair.1 pair.2).exec p = (.ok ⟨⟩, q)) : Ready kept pairs q ∧ Rereads p q := by
  have hmiddle : (pair.1 :: (kept ++ pairs.map Prod.fst)).Nodup := nodup_middle.mp h.apart
  obtain ⟨hout, hapart⟩ := nodup_cons.mp hmiddle
  have hq := (keeps_mergeInto pair.1 pair.2).of_ok h.consistent hok
  obtain ⟨hreads, hstill⟩ := rereads_mergeInto h.consistent (h.mergeable pair mem_cons_self).2 hok
  refine ⟨⟨hq, hapart, fun other hother ↦ ?_⟩, hreads⟩
  obtain ⟨hkept, hmergeable⟩ := h.mergeable other (mem_cons_of_mem _ hother)
  refine ⟨hkept, hstill other hmergeable ?_ ?_⟩
  · rintro heq
    exact hout (heq ▸ mem_append_right _ (mem_map_of_mem hother))
  · rintro heq
    exact hout (heq ▸ mem_append_left _ hkept)

lemma keeps_hoist (r : RegionId) (o : OpId) (place : Nat) : Keeps Consistent (hoist r o place) := by
  refine .bind (.read _) fun index ↦ ?_
  split_ifs
  · exact .pure _
  · exact .bind (makes_moveOp _ _ _).keeps fun _ ↦ .pure _

lemma rereads_mergeRegion (hp : p.Consistent) {gated : Bool}
    (hok : (mergeRegion settings registry gated r).exec p = (.ok changed, q)) :
    q.Consistent ∧ Rereads p q := by
  obtain ⟨m, _, hmerge, hhoist, -⟩ := mergeRegion_ok hok
  have hmerged := forM_ok (I := fun pairs m ↦
    Ready (mergeOf p (candidates settings registry gated p r)).kept pairs m ∧ Rereads p m)
    (fun pair pairs m n hm hstep ↦ by
      obtain ⟨hn, hreads⟩ := hm.1.step hstep
      exact ⟨hn, hm.2.trans hm.1.consistent hreads⟩)
    ⟨ready_mergeOf hp settings registry gated r, .refl p⟩ hmerge
  exact anyChange_ok (I := fun _ n ↦ n.Consistent ∧ Rereads p n) (fun step _ l n _ hl hstep ↦
    ⟨(keeps_hoist _ _ _).of_ok hl.1 hstep, hl.2.trans hl.1 (rereads_hoist hstep)⟩)
    ⟨hmerged.1.consistent, hmerged.2⟩ hhoist

lemma rereads_run (hp : p.Consistent)
    (hok : (run settings registry).exec p = (.ok changed, q)) : Rereads p q := by
  rw [exec_run] at hok
  refine (anyChange_ok (I := fun _ m ↦ m.Consistent ∧ Rereads p m) (fun r _ m n _ hm hstep ↦ ?_)
    ⟨hp, .refl p⟩ hok).2
  rcases visit_ok hstep with ⟨-, -, rfl⟩ | ⟨-, hmerge⟩
  · exact hm
  · obtain ⟨hn, hreads⟩ := rereads_mergeRegion hm.1 hmerge
    exact ⟨hn, hm.2.trans hm.1 hreads⟩

/-- Merging constants takes nothing but constants away. In the operations that stay, a slot that
held no result of a constant holds what it held. One that did holds the result of a constant with
the same type and, up to the sign of zeros, the same value, and if the value has no zero then the
value is the same to the bit. -/
theorem constant_reads_of_run_ok {p q : Program} (h : Reachable p)
    {settings : Settings} {registry : Registry} {changed : Bool}
    (hok : (run settings registry).exec p = (.ok changed, q)) :
    (∀ x node, p.op? x = some node → node.kind ≠ "Const" → (q.op? x).isSome) ∧
      ∀ x after, q.op? x = some after → ∃ before, p.op? x = some before ∧
      List.Forall₂ (ReadsAlike p q) before.operands after.operands ∧
      ∀ (i : Nat) v w node t, before.operands[i]? = some v → after.operands[i]? = some w →
      p.ConstantOf v node → node.attrs.getTensor "value" = .ok t → t.data.hasZero = false →
      ∃ node', q.ConstantOf w node' ∧ q.typeOf? w = p.typeOf? v ∧
      node'.attrs.getTensor "value" = .ok t := by
  have hreads := rereads_run h.consistent hok
  refine ⟨hreads.survives, fun x after hafter ↦ ?_⟩
  obtain ⟨before, hbefore, -, -, -, hslots⟩ := hreads.op? x after hafter
  refine ⟨before, hbefore, hslots, fun i v w node t hv hw hnode ht hzero ↦ ?_⟩
  have hslot : ReadsAlike p q v w :=
    (forall₂_iff_zip.mp hslots).2 (mem_of_getElem? (getElem?_zip_eq_some.mpr ⟨hv, hw⟩))
  cases hslot with
  | other hnone _ => exact absurd hnode (hnone node)
  | constant other node' hother hnode' htype hvalue =>
    obtain rfl := hnode.unique h.consistent hother
    refine ⟨node', hnode', htype, ?_⟩
    rcases hvalue with hattrs | ⟨t', u, ht', hu, hagree⟩
    · rw [← hattrs, ht]
    · obtain rfl := Except.ok.inj (ht.symm.trans ht')
      rw [hu, hagree.eq hzero]

/-- A program whose graph has two constants with the given words as values, and an operation that
uses both. -/
def twoConstants (first second : UInt32) : Program :=
  .built [.constant 0 first, .constant 0 second, .node 0 "user" [0, 1]]

/-- Two constants with the value one are merged, and the value is read from the first in both
slots. -/
theorem constant_reads_of_ones :
    let p := twoConstants 0x3f800000 0x3f800000
    let q := ((run {} .empty).exec p).2
    Reachable p ∧ (run {} .empty).exec p = (.ok true, q) ∧ q.operandsOf ⟨2⟩ = [⟨0⟩, ⟨0⟩] ∧
      ∃ node, q.ConstantOf ⟨0⟩ node ∧ q.typeOf? ⟨0⟩ = p.typeOf? ⟨1⟩ ∧
        node.attrs.getTensor "value" = .ok { data := .f32 [⟨0x3f800000⟩], sizes := [] } := by
  intro p q
  have hreach : Reachable p := reachable_built _
  have hok : (run {} .empty).exec p = (.ok true, q) := exec_eq_ok (by decide +kernel)
  have hslots : q.operandsOf ⟨2⟩ = [⟨0⟩, ⟨0⟩] := by decide +kernel
  refine ⟨hreach, hok, hslots, ?_⟩
  have hlive : (q.op? ⟨2⟩).isSome = true := by decide +kernel
  obtain ⟨after, hafter⟩ := isSome_iff_exists.mp hlive
  obtain ⟨before, hbefore, -, hexact⟩ := (constant_reads_of_run_ok hreach hok).2 ⟨2⟩ after hafter
  refine hexact 1 ⟨1⟩ ⟨0⟩ _ _ ?_ ?_ ⟨⟨1⟩, rfl, rfl, mem_cons_self⟩ rfl rfl
  · rw [← operandsOf_eq hbefore]
    rfl
  · rw [← operandsOf_eq hafter, hslots]
    rfl

/-- A zero with the sign bit set is merged into one without, and is not read any more. -/
theorem negative_zero_lost :
    let p := twoConstants 0 0x80000000
    let q := ((run {} .empty).exec p).2
    Reachable p ∧ (run {} .empty).exec p = (.ok true, q) ∧ p.operandsOf ⟨2⟩ = [⟨0⟩, ⟨1⟩] ∧
      q.operandsOf ⟨2⟩ = [⟨0⟩, ⟨0⟩] ∧
      (p.op? ⟨1⟩).map (·.attrs.getTensor "value") =
        some (.ok { data := .f32 [⟨0x80000000⟩], sizes := [] }) ∧
      (q.op? ⟨0⟩).map (·.attrs.getTensor "value") = some
      (.ok { data := .f32 [⟨0⟩], sizes := [] }) := by
  intro p q
  refine ⟨reachable_built _, exec_eq_ok
    (by decide +kernel), by decide +kernel, by decide +kernel, ?_, ?_⟩
  · rfl
  · rfl

end ConstantMerging

end TensorGraph
