import TensorGraph.Proofs.CallFlow
import TensorGraph.Proofs.ConstantReads

/-!
Merging constants spares everything else. The pass merges, erases and moves constants that may be
changed: those whose value does not flow into a call and that lie in no function which a call names.
-/

namespace TensorGraph

open List Option

variable {a o x b : OpId} {r : RegionId} {free : OpId → Bool} {t s p : Program}
  {g : List OpId → List OpId} {registry : Registry} {v : ValueId} {old new : ValueId}
  {settings : Settings}

namespace Program

def MadeByFree (p : Program) (free : OpId → Bool) (v : ValueId) : Prop :=
  ∃ o, free o = true ∧ v ∈ p.resultsOf o

/-- Free operations may be gone or be elsewhere in their region. The others are as they were, in the
order that they had, except that they use and wait for other free operations. -/
structure Spares (free : OpId → Bool) (p q : Program) : Prop where
  op? : ∀ o, free o = true ∧ q.op? o = none ∨ q.op? o = (p.op? o).map fun node ↦
    { node with operands := q.operandsOf o, control := q.controlOf o }
  operands : ∀ o, List.Forall₂ (fun v w ↦ w = v ∨ p.MadeByFree free v ∧ p.MadeByFree free w)
    (p.operandsOf o) (q.operandsOf o)
  control : ∀ o, free o = false → (∀ d ∈ p.controlOf o, free d = false) →
    q.controlOf o = p.controlOf o
  value? : ∀ v, ¬ p.MadeByFree free v → q.value? v = p.value? v
  region? : ∀ r, q.region? r = (p.region? r).map fun region ↦ { region with ops := q.opsIn r }
  order : ∀ r, (q.opsIn r).filter (!free ·) = (p.opsIn r).filter (!free ·)
  graph : q.graph = p.graph
  funcs : q.funcs = p.funcs
  depth : q.regions.length = p.regions.length

def Bare (free : OpId → Bool) (p : Program) : Prop :=
  ∀ o, free o = true → p.operandsOf o = [] ∧ p.regionsOf o = []

lemma map_operation_self (p : Program) (o : OpId) : p.op? o = (p.op? o).map fun node ↦
    { node with operands := p.operandsOf o, control := p.controlOf o } := by
  cases hnode : p.op? o with
  | none => rfl
  | some node => rw [operandsOf_eq hnode, controlOf_eq hnode, map_some]

lemma map_region_self (p : Program) (r : RegionId) : p.region? r = (p.region? r).map fun region ↦
    { region with ops := p.opsIn r } := by
  cases hregion : p.region? r with
  | none => rfl
  | some region => rw [opsIn, hregion]; rfl

lemma filter_erase_of_free (ho : free o = true) (l : List OpId) :
    (l.erase o).filter (!free ·) = l.filter (!free ·) := by
  induction l with
  | nil => rfl
  | cons x rest ih =>
    by_cases hx : x = o
    · subst hx
      rw [erase_cons_head, filter_cons_of_neg (by simp [ho])]
    · rw [erase_cons_tail (by simpa using hx), filter_cons, filter_cons, ih]

lemma filter_insertIdx_of_free (ho : free o = true) (l : List OpId) (index : Nat) :
    (l.insertIdx index o).filter (!free ·) = l.filter (!free ·) := by
  induction l generalizing index with
  | nil => cases index <;> simp [ho]
  | cons x rest ih =>
    cases index with
    | zero => rw [insertIdx_zero, filter_cons_of_neg (by simp [ho])]
    | succ index => rw [insertIdx_succ_cons, filter_cons, filter_cons, ih]

namespace Spares

lemma refl (free : OpId → Bool) (p : Program) : Spares free p p where
  op? o := .inr (map_operation_self p o)
  operands _ := forall₂_same.mpr fun _ _ ↦ .inl rfl
  control _ _ _ := rfl
  value? _ _ := rfl
  region? := map_region_self p
  order _ := rfl
  graph := rfl
  funcs := rfl
  depth := rfl

/-! ### Reading -/

section Reading

variable (h : Spares free p s)

include h

lemma exists_before {node : Operation} (ho : s.op? o = some node) :
    ∃ before, p.op? o = some before ∧ node =
      { before with operands := s.operandsOf o, control := s.controlOf o } := by
  rcases h.op? o with ⟨-, hgone⟩ | hsame
  · cases hgone.symm.trans ho
  · rw [ho] at hsame
    obtain ⟨before, hbefore, heq⟩ := map_eq_some_iff.mp hsame.symm
    exact ⟨before, hbefore, heq.symm⟩

lemma op?_of_not_free (ho : free o = false) : s.op? o = (p.op? o).map fun node ↦
    { node with operands := s.operandsOf o, control := s.controlOf o } := by
  refine (h.op? o).resolve_left fun hgone ↦ ?_
  rw [ho] at hgone
  cases hgone.1

lemma op?_of_live (ho : (s.op? o).isSome) : s.op? o = (p.op? o).map fun node ↦
    { node with operands := s.operandsOf o, control := s.controlOf o } := by
  refine (h.op? o).resolve_left fun hgone ↦ ?_
  rw [hgone.2] at ho
  cases ho

lemma resultsOf_subset (o : OpId) : s.resultsOf o ⊆ p.resultsOf o := by
  rcases h.op? o with ⟨-, hgone⟩ | hsame
  · rw [resultsOf, hgone]
    exact nil_subset _
  · rw [resultsOf, hsame, Option.map_map]
    exact Subset.refl _

lemma isEnd_of_isEnd (ho : s.isEnd o = true) : p.isEnd o = true := by
  rcases h.op? o with ⟨-, hgone⟩ | hsame
  · rw [isEnd, hgone] at ho
    cases ho
  · rw [isEnd, hsame, Option.any_map] at ho
    exact ho

lemma resultsOf_of_not_free (ho : free o = false) : s.resultsOf o = p.resultsOf o := by
  rw [resultsOf, h.op?_of_not_free ho, Option.map_map]
  rfl

lemma isEnd_of_not_free (ho : free o = false) : s.isEnd o = p.isEnd o := by
  rw [isEnd, isEnd, h.op?_of_not_free ho]
  cases p.op? o <;> rfl

lemma parentOf?_of_not_free (ho : free o = false) : s.parentOf? o = p.parentOf? o := by
  rw [parentOf?, h.op?_of_not_free ho, Option.map_map]
  rfl

lemma parentOf?_of_parentOf? (ho : s.parentOf? o = some r) : p.parentOf? o = some r := by
  obtain ⟨node, hnode, rfl⟩ := exists_op_of_parentOf? ho
  obtain ⟨before, hbefore, rfl⟩ := h.exists_before hnode
  have hparent := parentOf?_eq hbefore
  exact hparent

lemma ownerOf? (r : RegionId) : s.ownerOf? r = p.ownerOf? r := by
  rw [Program.ownerOf?, h.region?, Option.map_map]
  rfl

lemma parentOp? (r : RegionId) : s.parentOp? r = p.parentOp? r :=
  parentOp?_congr (h.ownerOf? r)

lemma func? (name : String) : s.func? name = p.func? name := by
  rw [Program.func?, h.funcs]
  rfl

lemma operandsOf_eq_nil (ho : p.operandsOf o = []) : s.operandsOf o = [] := by
  have hslots := h.operands o
  rw [ho] at hslots
  exact forall₂_nil_left_iff.mp hslots

end Reading

/-! ### Steps -/

section Steps

variable (h : Spares free p s)

include h

lemma sameButControl (hsame : SameButControl s t)
    (hcontrol : ∀ o, free o = false → (∀ d ∈ p.controlOf o, free d = false) →
    t.controlOf o = s.controlOf o) : Spares free p t where
  op? o := by
    rcases h.op? o with ⟨ho, hgone⟩ | hop
    · exact .inl ⟨ho, by rw [hsame.op?, hgone]; rfl⟩
    · refine .inr ?_
      rw [hsame.op?, hop, Option.map_map, hsame.operandsOf]
      rfl
  operands o := by
    rw [hsame.operandsOf]
    exact h.operands o
  control o ho hdeps := (hcontrol o ho hdeps).trans (h.control o ho hdeps)
  value? v hv := (hsame.value? v).trans (h.value? v hv)
  region? r := by
    rw [hsame.region?, hsame.sameTree.ops]
    exact h.region? r
  order r := by
    rw [hsame.sameTree.ops]
    exact h.order r
  graph := by
    rw [hsame.rest]
    exact h.graph
  funcs := by
    rw [hsame.rest]
    exact h.funcs
  depth := by
    rw [hsame.rest]
    exact h.depth

lemma redirected (hs : UsesRecorded s) (hne : old ≠ new) (hold : p.MadeByFree free old)
    (hnew : p.MadeByFree free new) : Spares free p (s.redirected old new) where
  op? o := by
    rcases h.op? o with ⟨ho, hgone⟩ | hop
    · exact .inl ⟨ho, by rw [op?_redirected hs hne, hgone]; rfl⟩
    · refine .inr ?_
      have hredirected := op?_redirected hs hne o
      rw [hop, Option.map_map] at hredirected
      rw [controlOf, operandsOf, hredirected]
      cases p.op? o <;> rfl
  operands o := by
    rw [operandsOf_redirected hs hne]
    refine forall₂_map_right_iff.mpr ((h.operands o).imp fun v w hslot ↦ ?_)
    unfold redirect
    split_ifs with hw
    · subst hw
      rcases hslot with rfl | ⟨hv, -⟩
      · exact .inr ⟨hold, hnew⟩
      · exact .inr ⟨hv, hnew⟩
    · exact hslot
  control o ho hdeps := by
    refine Eq.trans ?_ (h.control o ho hdeps)
    rw [controlOf, op?_redirected hs hne, Option.map_map]
    rfl
  value? v hv := by
    have hold' : v ≠ old := by
      rintro rfl
      exact hv hold
    have hnew' : v ≠ new := by
      rintro rfl
      exact hv hnew
    refine Eq.trans ?_ (h.value? v hv)
    rw [redirected_rest]
    change ((s.modifyValue old _).modifyValue new _).value? v = _
    rw [value?_modifyValue, if_neg hnew', value?_modifyValue, if_neg hold']
  region? r := by
    rw [redirected_rest]
    exact h.region? r
  order r := by
    rw [redirected_rest]
    exact h.order r
  graph := by
    rw [redirected_rest]
    exact h.graph
  funcs := by
    rw [redirected_rest]
    exact h.funcs
  depth := by
    rw [redirected_rest]
    exact h.depth

lemma modifyOps (r : RegionId)
    (hg : (g (s.opsIn r)).filter (!free ·) = (s.opsIn r).filter (!free ·)) :
    Spares free p (s.modifyRegion r fun region ↦ { region with ops := g region.ops }) where
  __ := h
  region? x := by
    rw [opsIn, region?_modifyRegion]
    have hold := h.region? x
    split_ifs
    · rw [hold, Option.map_map, Option.map_map]
      cases p.region? x <;> rfl
    · rw [hold, Option.map_map]
      cases p.region? x <;> rfl
  order x := by
    refine Eq.trans ?_ (h.order x)
    rw [opsIn, region?_modifyRegion]
    split_ifs with hx
    · subst hx
      rw [opsIn] at hg ⊢
      cases hregion : s.region? x with
      | none => rfl
      | some region =>
        rw [hregion] at hg
        exact hg
    · rfl
  depth := (length_modify ..).trans h.depth

lemma detached (ho : free o = true) (r : RegionId) : Spares free p (s.detached o r) := by
  refine h.modifyOps r (g := fun ops ↦ ops.eraseIdx ((s.opsIn r).idxOf o)) ?_
  rw [← erase_eq_eraseIdx_of_idxOf rfl]
  exact filter_erase_of_free ho _

lemma of_op? (hop : ∀ x, t.op? x = s.op? x) (hrest : t = { s with slots := t.slots }) :
    Spares free p t where
  op? x := by
    rw [operandsOf_congr (hop x), controlOf_congr (hop x), hop]
    exact h.op? x
  operands x := operandsOf_congr (hop x) ▸ h.operands x
  control x hx hdeps := (controlOf_congr (hop x)).trans (h.control x hx hdeps)
  value? := by
    rw [hrest]
    exact h.value?
  region? := by
    rw [hrest]
    exact h.region?
  order := by
    rw [hrest]
    exact h.order
  graph := by
    rw [hrest]
    exact h.graph
  funcs := by
    rw [hrest]
    exact h.funcs
  depth := by
    rw [hrest]
    exact h.depth

lemma modifyParent (hparent : p.parentOf? o = some r) :
    Spares free p (s.modifyOp o fun node ↦ { node with parent := r }) := by
  refine h.of_op? (fun x ↦ ?_) rfl
  rw [op?_modifyOp]
  split_ifs with hx
  · cases hnode : s.op? x with
    | none => rfl
    | some node =>
      obtain ⟨before, hbefore, rfl⟩ := h.exists_before hnode
      rw [← hx, parentOf?_eq hbefore] at hparent
      rw [map_some, ← some.inj hparent]
  · rfl

lemma attach (ho : free o = true) (hparent : p.parentOf? o = some r) (index : Nat) :
    Spares free p (Edit.attach o r index s) :=
  (h.modifyOps r (g := fun ops ↦ ops.insertIdx index o)
    (filter_insertIdx_of_free ho _ index)).modifyParent hparent

lemma release (hbare : Bare free p) (ho : free o = true) : Spares free p (s.release o) where
  __ := h
  op? x := by
    by_cases hx : x = o
    · exact .inl ⟨hx ▸ ho, by rw [op?_release, if_pos hx]⟩
    · rw [operandsOf, controlOf, op?_release, if_neg hx]
      exact h.op? x
  operands x := by
    by_cases hx : x = o
    · have hgone : (s.release o).operandsOf x = [] := by
        rw [operandsOf, op?_release, if_pos hx]
        rfl
      rw [hgone, hx, (hbare o ho).1]
      exact .nil
    · have hop : (s.release o).op? x = s.op? x := by rw [op?_release, if_neg hx]
      exact operandsOf_congr hop ▸ h.operands x
  control x hx hdeps := by
    have hne : x ≠ o := by
      rintro rfl
      cases hx.symm.trans ho
    rw [controlOf, op?_release, if_neg hne]
    exact h.control x hx hdeps

lemma destroy (hbare : Bare free p) (ho : free o = true) : Spares free p (s.destroy o) := by
  unfold Program.destroy
  cases s.slots.length with
  | zero => exact h
  | succ depth =>
    rw [destroyToDepth]
    cases hnode : s.op? o with
    | none => exact h
    | some node =>
      have hoperands : node.operands = [] :=
        operandsOf_eq hnode ▸ h.operandsOf_eq_nil (hbare o ho).1
      have hregions : node.regions = [] := by
        obtain ⟨before, hbefore, rfl⟩ := h.exists_before hnode
        exact regionsOf_eq hbefore ▸ (hbare o ho).2
      dsimp only
      rw [hregions, hoperands]
      exact h.release hbare ho

end Steps

end Spares

end Program

namespace Edit

variable {α : Type} {I : Program → Prop} {l : List α}

open Program

lemma spares_setControl (hx : free x = true ∨ ∃ d ∈ p.controlOf x, free d = true)
    (deps : List OpId) : Keeps (Spares free p) (setControl x deps) := by
  intro s h
  refine does_setControl.leaves h ?_
  rintro _ _ - ⟨-, -, rfl⟩
  refine h.sameButControl (.setControl s x deps.eraseDups) fun o ho hdeps ↦ controlOf_congr ?_
  have hne : o ≠ x := by
    rintro rfl
    rcases hx with hx | ⟨d, hd, hfree⟩
    · cases ho.symm.trans hx
    · cases (hdeps d hd).symm.trans hfree
  rw [op?_modifyOp, if_neg hne]

lemma loose_of_mem_controlDependents (h : Spares free p s) (ho : free o = true)
    (hx : x ∈ s.controlDependents o) : free x = true ∨ ∃ d ∈ p.controlOf x, free d = true := by
  by_contra hnone
  rw [not_or, Bool.not_eq_true] at hnone
  have hdeps : ∀ d ∈ p.controlOf x, free d = false := fun d hd ↦
    Bool.eq_false_iff.mpr fun hfree ↦ hnone.2 ⟨d, hd, hfree⟩
  have hwaits := mem_controlDependents.mp hx
  rw [h.control x hnone.1 hdeps] at hwaits
  cases (hdeps o hwaits).symm.trans ho

lemma spares_replaceControl {old : OpId} (hold : free old = true) (new : OpId) :
    Keeps (Spares free p) (replaceControl old new) := by
  refine .bind (.read _) fun _ s h ↦ ?_
  refine Keeps.forM_of_mem (fun x hx ↦ .bind (.read _) fun _ ↦ ?_) s h
  exact spares_setControl (loose_of_mem_controlDependents h hold hx) _

lemma spares_eraseOp (hbare : Bare free p) (ho : free o = true) : Keeps (Spares free p)
    (eraseOp o) := by
  refine .eraseOp (fun s h x hx deps ↦ ?_) fun s r h _ ↦ (h.detached ho r).destroy hbare ho
  exact spares_setControl (loose_of_mem_controlDependents h ho hx) deps

lemma spares_moveOp (ho : free o = true) (hparent : p.parentOf? o = some r)
    (index : Nat) : Keeps (Spares free p) (moveOp o r index) := by
  intro s h
  refine does_moveOp.leaves h ?_
  rintro _ _ - ⟨home, -, -, -, rfl⟩
  exact (h.detached ho home).attach ho hparent _

end Edit

namespace ConstantMerging

open Program Edit

/-! ### The constants that may be changed -/

def mayChange (registry : Registry) (p : Program) (o : OpId) : Bool :=
  match p.op? o with
  | none => false
  | some node =>
    node.kind == "Const" && node.operands.isEmpty && node.isPlain && !feedsCall p registry o
      && !(calleeBodies p registry).any (p.isWithin node.parent)

lemma mayChange_iff : mayChange registry p o = true ↔
    ∃ node, p.op? o = some node ∧ node.kind = "Const" ∧ node.operands = [] ∧ node.isPlain = true ∧
      feedsCall p registry o = false ∧
      (calleeBodies p registry).any (p.isWithin node.parent) = false := by
  unfold mayChange
  cases p.op? o with
  | none => simp
  | some node => simp [and_assoc]

lemma bare_mayChange (registry : Registry) (p : Program) : Bare (mayChange registry p) p := by
  intro o ho
  obtain ⟨node, hnode, -, hoperands, hplain, -⟩ := mayChange_iff.mp ho
  have hform : node.form = .plain := by simpa [Operation.isPlain] using hplain
  rw [operandsOf_eq hnode, regionsOf_eq hnode, Operation.regions, hform]
  exact ⟨hoperands, rfl⟩

section Stable

variable (hp : p.Consistent) (hbare : Bare free p) (h : Spares free p s)

include hp hbare

lemma owner_not_free (ho : p.parentOp? r = some o) : free o = false := by
  by_contra hfree
  rw [Bool.not_eq_false] at hfree
  have hr := hp.mem_regionsOf.mpr ho
  rw [(hbare o hfree).2] at hr
  cases hr

lemma not_madeByFree_of_mem_outflow (ha : free a = false) (hv : v ∈ outflow p a) :
    ¬ p.MadeByFree free v := by
  have hmaker : ∃ o, free o = false ∧ v ∈ p.resultsOf o := by
    rcases mem_append.mp hv with hv | hv
    · exact ⟨a, ha, hv⟩
    · split_ifs at hv
      · cases howner : (p.parentOf? a).bind p.parentOp? with
        | none =>
          rw [howner] at hv
          cases hv
        | some owner =>
          rw [howner] at hv
          obtain ⟨r, -, hr⟩ := bind_eq_some_iff.mp howner
          exact ⟨owner, owner_not_free hp hbare hr, hv⟩
      · cases hv
  rintro ⟨o, ho, hresult⟩
  obtain ⟨maker, hmaker, hv⟩ := hmaker
  obtain rfl := hp.eq_of_mem_resultsOf hv hresult
  cases hmaker.symm.trans ho

include h

lemma isWithin_of_spares (inner outer : RegionId) :
    s.isWithin inner outer = p.isWithin inner outer := by
  rw [isWithin_eq_getD, isWithin_eq_getD, h.depth]
  congr 1
  induction p.regions.length generalizing inner with
  | zero => rfl
  | succ steps ih =>
    rw [climbsTo, climbsTo, h.parentOp?]
    cases howner : p.parentOp? inner with
    | none => rfl
    | some owner =>
      rw [bind_some, bind_some, h.op?_of_not_free (owner_not_free hp hbare howner)]
      cases p.op? owner with
      | none => rfl
      | some node =>
        dsimp only [map_some]
        rw [ih]

lemma outflow_of_spares (ha : free a = false) : outflow s a = outflow p a := by
  unfold outflow
  rw [h.resultsOf_of_not_free ha, h.isEnd_of_not_free ha, h.parentOf?_of_not_free ha]
  split_ifs
  · cases p.parentOf? a with
    | none => rfl
    | some r =>
      rw [bind_some, bind_some, h.parentOp?]
      cases howner : p.parentOp? r with
      | none => rfl
      | some owner =>
        rw [map_some, map_some, h.resultsOf_of_not_free (owner_not_free hp hbare howner)]
  · rfl

lemma leads_of_spares (hs : s.Consistent) (ha : free a = false) : Leads s a b ↔ Leads p a b := by
  rw [leads_iff hs, leads_iff hp, outflow_of_spares hp hbare h ha]
  refine exists_congr fun v ↦ and_congr_right fun hv ↦ ?_
  have hvalue := h.value? v (not_madeByFree_of_mem_outflow hp hbare ha hv)
  rw [← count_pos_iff, ← hs.uses.counts, usersOf, hvalue, ← usersOf, hp.uses.counts, count_pos_iff]

omit h in
lemma not_free_of_leads (hab : Leads p a b) : free b = false := by
  by_contra hfree
  obtain ⟨v, -, hused⟩ := (leads_iff hp).mp hab
  rw [(hbare b (Bool.not_eq_false _ ▸ hfree)).1] at hused
  cases hused

omit hp hbare in
lemma isCall_of_op? (hx : s.op? x = (p.op? x).map fun node ↦
    { node with operands := s.operandsOf x, control := s.controlOf x }) :
    isCall s registry x = isCall p registry x := by
  unfold isCall
  rw [hx]
  cases p.op? x with
  | none => rfl
  | some node => simp only [map_some, h.func?, Operation.funcRefs]

lemma reach_of_spares (hs : s.Consistent) (ho : free o = false) :
    (Relation.ReflTransGen (Leads s) o x ↔ Relation.ReflTransGen (Leads p) o x) ∧
    (Relation.ReflTransGen (Leads p) o x → free x = false) := by
  have hspared : ∀ {x}, Relation.ReflTransGen (Leads p) o x → free x = false := by
    intro x hpath
    rcases hpath.cases_tail with rfl | ⟨y, -, hstep⟩
    · exact ho
    · exact not_free_of_leads hp hbare hstep
  refine ⟨⟨fun hpath ↦ ?_, fun hpath ↦ ?_⟩, hspared⟩
  · induction hpath with
    | refl => exact .refl
    | tail _ hstep ih => exact ih.tail ((leads_of_spares hp hbare h hs (hspared ih)).mp hstep)
  · induction hpath with
    | refl => exact .refl
    | tail hpath hstep ih =>
      exact ih.tail ((leads_of_spares hp hbare h hs (hspared hpath)).mpr hstep)

lemma feedsCall_of_spares (hs : s.Consistent) (ho : free o = false) :
    feedsCall s registry o = feedsCall p registry o := by
  rw [Bool.eq_iff_iff, feedsCall_iff hs, feedsCall_iff hp]
  refine exists_congr fun x ↦ ?_
  obtain ⟨hpath, hspared⟩ := reach_of_spares hp hbare h hs (x := x) ho
  rw [hpath]
  refine and_congr_right fun hreach ↦ and_congr_right fun _ ↦ ?_
  rw [isCall_of_op? h (h.op?_of_not_free (hspared hreach))]

end Stable

lemma mayChange_of_mem_candidates (hp : p.Consistent) (h : Spares (mayChange registry p) p s)
    (hs : s.Consistent) (ho : o ∈ candidates settings registry true s r)
    (hr : (calleeBodies p registry).any (s.isWithin r) = false) :
    mayChange registry p o = true ∧ p.parentOf? o = some r := by
  obtain ⟨hlisted, hcandidate⟩ := mem_filter.mp ho
  have hparent := hs.mem_opsIn.mp hlisted
  obtain ⟨node, hnode, rfl⟩ := exists_op_of_parentOf? hparent
  obtain ⟨before, hbefore, rfl⟩ := h.exists_before hnode
  have hhome : p.parentOf? o = some before.parent := parentOf?_eq hbefore
  refine ⟨?_, hhome⟩
  by_contra hspared
  rw [Bool.not_eq_true] at hspared
  unfold isCandidate at hcandidate
  rw [hnode] at hcandidate
  simp only [Bool.true_and, Bool.and_eq_true, beq_iff_eq, List.isEmpty_iff,
    Bool.not_eq_true'] at hcandidate
  obtain ⟨⟨⟨⟨⟨⟨hkind, hoperands⟩, -⟩, -⟩, hplain⟩, -⟩, hfeeds⟩ := hcandidate
  have hslots := h.operands o
  rw [hoperands, operandsOf_eq hbefore] at hslots
  have hbare := bare_mayChange registry p
  have hfeeds' : feedsCall p registry o = false :=
    (feedsCall_of_spares hp hbare h hs hspared).symm.trans hfeeds
  have hwithin : (calleeBodies p registry).any (p.isWithin before.parent) = false := by
    simpa only [funext (isWithin_of_spares hp hbare h before.parent)] using hr
  refine Bool.eq_false_iff.mp hspared (mayChange_iff.mpr
    ⟨before, hbefore, hkind, forall₂_nil_right_iff.mp hslots, hplain, hfeeds', hwithin⟩)

/-! ### The pass -/

structure Underway (free : OpId → Bool) (p s : Program) : Prop where
  consistent : s.Consistent
  spares : Spares free p s

section Pass

lemma Underway.keeps {α : Type} {e : Edit α} (hconsistent : Keeps Consistent e)
    (hspares : Keeps (Spares free p) e) : Keeps (Underway free p) e :=
  fun s hs ↦ ⟨hconsistent s hs.consistent, hspares s hs.spares⟩

lemma Underway.madeByFree (h : Underway free p s) (ho : free o = true) (hv : s.result o 0 = .ok v) :
    p.MadeByFree free v :=
  ⟨o, ho, h.spares.resultsOf_subset o (mem_of_getElem? (result_eq_ok.mp hv))⟩

lemma underway_replaceUses (hold : p.MadeByFree free old)
    (hnew : p.MadeByFree free new) : Keeps (Underway free p) (replaceUses old new) := by
  intro s hs
  refine ⟨(makes_replaceUses old new).keeps s hs.consistent, ?_⟩
  refine does_replaceUses.leaves hs.spares ?_
  rintro _ _ - ⟨-, ⟨-, rfl⟩ | ⟨-, hne, rfl⟩⟩
  · exact hs.spares
  · exact hs.spares.redirected hs.consistent.uses hne hold hnew

lemma underway_mergeInto (hbare : Bare free p)
    {duplicate kept : OpId} (hduplicate : free duplicate = true) (hkept : free kept = true) :
    Keeps (Underway free p) (mergeInto duplicate kept) := by
  intro s hs
  have hlater : ∀ old new, p.MadeByFree free old → p.MadeByFree free new →
      Keeps (Underway free p) (do
      replaceUses old new
      replaceControl duplicate kept
      eraseOp duplicate) := fun old new hold hnew ↦
    .bind (underway_replaceUses hold hnew) fun _ ↦ .bind
      (.keeps (through_replaceControl _ _).keeps (spares_replaceControl hduplicate kept)) fun _ ↦
      .keeps (keeps_eraseOp _) (spares_eraseOp hbare hduplicate)
  exact Edit.Leads.keeps (.read_bind hs fun old hold ↦ .read_bind hs fun new hnew ↦
    .of_keeps (hlater old new (hs.madeByFree hduplicate hold) (hs.madeByFree hkept hnew)) hs)

lemma underway_hoist (ho : free o = true) (hparent : p.parentOf? o = some r) (place : Nat)
    : Keeps (Underway free p) (hoist r o place) := by
  refine .bind (.read _) fun index ↦ ?_
  split_ifs
  · exact .pure _
  · exact .bind (.keeps (makes_moveOp _ _ _).keeps (spares_moveOp ho hparent place)) fun _ ↦ .pure _

variable (hp : p.Consistent)

include hp

lemma underway_mergeRegion (settings : Settings) (hs : Underway (mayChange registry p) p s)
    (hr : (calleeBodies p registry).any (s.isWithin r) = false) :
    Underway (mayChange registry p) p ((mergeRegion settings registry true r).exec s).2 := by
  have hfree : ∀ o ∈ candidates settings registry true s r, mayChange registry p o = true ∧
      p.parentOf? o = some r :=
    fun o ho ↦ mayChange_of_mem_candidates hp hs.spares hs.consistent ho hr
  have hsound := sound_mergeOf s (candidates settings registry true s r)
  unfold mergeRegion
  rw [exec_get_bind]
  refine Keeps.bind (Keeps.forM_of_mem fun pair hpair ↦ ?_) (fun _ ↦ .bind (Keeps.anyChange_of_mem
    fun step hstep ↦ ?_) fun _ ↦ .pure _) s hs
  · have hbehind := (hsound.earlier pair hpair).2
    exact underway_mergeInto (bare_mayChange registry p) (hfree _ (hbehind.subset (by simp))).1
      (hfree _ (hbehind.subset (by simp))).1
  · have hkept := hfree step.1 (hsound.kept.subset (fst_mem_of_mem_zipIdx hstep))
    exact underway_hoist hkept.1 hkept.2 step.2

lemma underway_run (hgated : (p.allOps.any (isCall p registry) && !settings.strictCalls) = true) :
    Underway (mayChange registry p) p ((run settings registry).exec p).2 := by
  unfold run
  rw [exec_get_bind]
  dsimp only
  rw [hgated, if_pos rfl]
  refine Keeps.anyChange (fun r s hs ↦ ?_) _ p ⟨hp, .refl _ p⟩
  rw [exec_get_bind]
  split_ifs with hskip
  · exact hs
  · exact underway_mergeRegion hp settings hs (Bool.not_eq_true _ ▸ hskip)

end Pass

end ConstantMerging

end TensorGraph
