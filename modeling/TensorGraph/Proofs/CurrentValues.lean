import TensorGraph.Proofs.Copying

/-!
Values that are still at a place. Values stay in their table for good, so a value may name an
operation or a region that no longer has it. Verification finds this out if the operation has gone,
but not if its handle has been given out again.
-/

namespace TensorGraph

open List Option

variable {p q : Program} {o : OpId} {r : RegionId} {v : ValueId} {index : Nat} {new : NewOp}
    {f : Operation → Operation} {seed : List (ValueId × ValueId)} {orphans : Prop}

namespace Program

/-- The value stands among the results of an operation or the arguments of a region. -/
def IsCurrent (p : Program) (v : ValueId) : Prop :=
  (∃ o, v ∈ p.resultsOf o) ∨ ∃ r, v ∈ p.argsOf r

/-- The operation that made the value has gone. -/
def IsOrphan (p : Program) (v : ValueId) : Prop :=
  ∃ d i, p.originOf? v = some (.result d i) ∧ p.op? d = none

/-- The value is current or, where that is allowed, an orphan. -/
def IsKnown (orphans : Prop) (p : Program) (v : ValueId) : Prop :=
  p.IsCurrent v ∨ orphans ∧ p.IsOrphan v

/-- Consistent, and every operand is current or, where that is allowed, an orphan. -/
structure Intact (orphans : Prop) (p : Program) : Prop where
  consistent : p.Consistent
  known : ∀ x, ∀ v ∈ p.operandsOf x, IsKnown orphans p v

/-- `q` has the places of `p`, and handles that are free in `p` are free in `q`. -/
structure Retains (p q : Program) : Prop where
  results : ∀ x, p.resultsOf x ⊆ q.resultsOf x
  args : ∀ r, p.argsOf r ⊆ q.argsOf r
  dead : ∀ x, p.op? x = none → q.op? x = none
  origins : ∀ v origin, p.originOf? v = some origin → q.originOf? v = some origin

/-- In addition, the operations of `q` use nothing else. -/
structure Steady (p q : Program) : Prop extends Retains p q where
  operands : ∀ x, q.operandsOf x ⊆ p.operandsOf x

lemma IsCurrent.mono (hresults : ∀ x, p.resultsOf x ⊆ q.resultsOf x)
    (hargs : ∀ r, p.argsOf r ⊆ q.argsOf r) (hv : p.IsCurrent v) : q.IsCurrent v := by
  rcases hv with ⟨o, ho⟩ | ⟨r, hr⟩
  · exact .inl ⟨o, hresults o ho⟩
  · exact .inr ⟨r, hargs r hr⟩

lemma IsKnown.mono (h : Retains p q) (hv : IsKnown orphans p v) : IsKnown orphans q v := by
  refine hv.imp (.mono h.results h.args) (And.imp_right ?_)
  rintro ⟨d, i, horigin, hdead⟩
  exact ⟨d, i, h.origins v _ horigin, h.dead d hdead⟩

lemma Intact.of_operands (hq : q.Consistent) (h : Retains p q)
    (hoperands : ∀ x, ∀ v ∈ q.operandsOf x, IsKnown orphans p v) : Intact orphans q :=
  ⟨hq, fun x v hv ↦ (hoperands x v hv).mono h⟩

lemma Intact.current (h : Intact False p) (x : OpId) (hv : v ∈ p.operandsOf x) : p.IsCurrent v :=
  (h.known x v hv).resolve_right fun hno ↦ hno.1

lemma Intact.weaken (h : Intact False p) : Intact orphans p :=
  ⟨h.consistent, fun x v hv ↦ (h.known x v hv).imp_right fun hno ↦ hno.1.elim⟩

lemma op?_modifyOp_of_none {x : OpId} (hx : p.op? x = none) : (p.modifyOp o f).op? x = none := by
  rw [op?_modifyOp, hx, map_none, ite_self]

namespace Steady

variable {m : Program}

lemma refl (p : Program) : Steady p p :=
  ⟨⟨fun _ ↦ Subset.refl _, fun _ ↦ Subset.refl _, fun _ hx ↦ hx, fun _ _ hv ↦ hv⟩,
    fun _ ↦ Subset.refl _⟩

lemma trans (h : Steady p m) (h' : Steady m q) : Steady p q where
  operands x := Subset.trans (h'.operands x) (h.operands x)
  results x := Subset.trans (h.results x) (h'.results x)
  args r := Subset.trans (h.args r) (h'.args r)
  dead x hx := h'.dead x (h.dead x hx)
  origins v origin hv := h'.origins v origin (h.origins v origin hv)

lemma of_eq (hoperands : ∀ x, q.operandsOf x = p.operandsOf x)
    (hresults : ∀ x, q.resultsOf x = p.resultsOf x) (hargs : ∀ r, q.argsOf r = p.argsOf r)
    (hdead : ∀ x, p.op? x = none → q.op? x = none)
    (horigins : ∀ v, q.originOf? v = p.originOf? v) : Steady p q := by
  refine ⟨⟨fun x ↦ ?_, fun r ↦ ?_, hdead, fun v _ hv ↦ (horigins v).trans hv⟩, fun x ↦ ?_⟩
  · rw [hresults]
    exact Subset.refl _
  · rw [hargs]
    exact Subset.refl _
  · rw [hoperands]
    exact Subset.refl _

lemma modifyOp (p : Program) (o : OpId) (hoperands : ∀ node, (f node).operands = node.operands)
    (hresults : ∀ node, (f node).results = node.results) : Steady p (p.modifyOp o f) :=
  of_eq (operandsOf_modifyOp p o hoperands) (resultsOf_modifyOp p o hresults) (fun _ ↦ rfl)
    (fun _ ↦ op?_modifyOp_of_none) fun _ ↦ rfl

lemma of_sameButUsers (h : SameButUsers p q) : Steady p q := by
  refine of_eq (fun x ↦ operandsOf_congr (h.op? x)) (fun x ↦ resultsOf_congr (h.op? x)) (fun r ↦ ?_)
    (fun x hx ↦ (h.op? x).trans hx) h.origins
  rw [argsOf, h.region?, argsOf]

lemma intact (h : Steady p q) (hp : Intact orphans p) (hq : q.Consistent) : Intact orphans q :=
  Intact.of_operands hq h.toRetains fun x _ hv ↦ hp.known x _ (h.operands x hv)

lemma withArg (hr : (p.region? r).isSome) (type : TensorType) : Steady p (p.withArg r type) := by
  refine ⟨⟨fun _ ↦ Subset.refl _, fun x ↦ ?_, fun _ hx ↦ hx,
    fun v _ hv ↦ originOf?_withArg_of_some hv r type⟩, fun _ ↦ Subset.refl _⟩
  by_cases hx : x = r
  · subst hx
    rw [argsOf_withArg hr]
    exact subset_append_left _ _
  · have hother : (p.withArg r type).argsOf x = p.argsOf x := by
      rw [argsOf, Program.withArg, region?_modifyRegion, if_neg hx]
      rfl
    rw [hother]
    exact Subset.refl _

lemma withRegion (p : Program) (o : OpId) (execution : Execution) :
    Steady p (p.withRegion o execution) := by
  refine of_eq (fun x ↦ ?_) (fun x ↦ ?_) (fun r ↦ ?_) (fun x hx ↦ ?_) fun _ ↦ rfl
  · exact operandsOf_modifyOp (p.pushRegion (.op o) execution) o (fun _ ↦ by rfl) x
  · exact resultsOf_modifyOp (p.pushRegion (.op o) execution) o (fun _ ↦ by rfl) x
  · exact argsOf_pushRegion p (.op o) execution r
  · exact op?_modifyOp_of_none (p := p.pushRegion (.op o) execution) hx

lemma withoutOperand (p : Program) (o : OpId) (index : Nat) (old : ValueId) :
    Steady p (p.withoutOperand o index old) := by
  refine trans (m := p.modifyOp o fun node ↦ { node with operands := node.operands.eraseIdx index })
    ⟨⟨fun x ↦ ?_, fun _ ↦ Subset.refl _, fun _ ↦ op?_modifyOp_of_none, fun _ _ hv ↦ hv⟩,
      fun x ↦ ?_⟩ (of_sameButUsers (.dropUse _ o old))
  · rw [resultsOf_modifyOp p o fun _ ↦ by rfl]
    exact Subset.refl _
  · rw [operandsOf, op?_modifyOp]
    split_ifs with hx
    · subst hx
      cases hnode : p.op? x with
      | none => exact nil_subset _
      | some node =>
        rw [operandsOf_eq hnode]
        exact eraseIdx_subset
    · exact Subset.refl _

end Steady

lemma Change.steady {moves : Bool} (h : Change p moves false q) : Steady p q := by
  cases h with
  | modify o hoperands _ hresults => exact .modifyOp p o hoperands hresults
  | @reorder _ _ r =>
    exact .of_eq (fun _ ↦ rfl) (fun _ ↦ rfl) (argsOf_modifyRegion p r fun _ ↦ by rfl)
      (fun _ hx ↦ hx) fun _ ↦ rfl
  | retype v type =>
    exact .of_eq (fun _ ↦ rfl) (fun _ ↦ rfl) (fun _ ↦ rfl) (fun _ hx ↦ hx)
      (map_value?_modifyValue p v (·.origin) fun _ ↦ rfl)
  | dropOperand o index old => exact .withoutOperand p o index old
  | addArg r type hr => exact .withArg hr type
  | addRegion o execution => exact .withRegion p o execution
  | addBody =>
    exact .of_eq (fun _ ↦ rfl) (fun _ ↦ rfl) (argsOf_pushRegion p _ _) (fun _ hx ↦ hx) fun _ ↦ rfl
  | addFunc => exact .of_eq (fun _ ↦ rfl) (fun _ ↦ rfl) (fun _ ↦ rfl) (fun _ hx ↦ hx) fun _ ↦ rfl
  | newGraph =>
    exact .of_eq (fun _ ↦ rfl) (fun _ ↦ rfl) (argsOf_withNewGraph p) (fun _ hx ↦ hx) fun _ ↦ rfl
  | modifyFunc =>
    exact .of_eq (fun _ ↦ rfl) (fun _ ↦ rfl) (fun _ ↦ rfl) (fun _ hx ↦ hx) fun _ ↦ rfl
  | move o home r index =>
    have hviews := views_attach p o home r index
    refine .of_eq (fun x ↦ (hviews x).1) (fun x ↦ (hviews x).2.1) (argsOf_attach p o home r index)
      (fun x hx ↦ ?_) fun _ ↦ rfl
    rw [op?_attach, hx]
    simp

lemma IsCurrent.withOp (hp : p.Consistent) (r : RegionId) (index : Nat) (new : NewOp)
    (hv : p.IsCurrent v) : (p.withOp r index new).IsCurrent v := by
  refine hv.mono (fun x ↦ ?_) fun x ↦ ?_
  · rw [resultsOf, resultsOf, hp.uses.free.op?_withOp]
    split_ifs with hx
    · rw [hx, hp.uses.free.op?_nextOp]
      exact nil_subset _
    · exact Subset.refl _
  · rw [argsOf_withOp]
    exact Subset.refl _

/-- The handle that is given out next made none of the values that are in use or handed over. -/
def Unclaimed (p : Program) (operands : List ValueId) : Prop :=
  ∀ v i, p.originOf? v = some (.result p.nextOp i) → v ∉ operands ∧ ∀ x, v ∉ p.operandsOf x

lemma unclaimed_of_values (h : ∀ value ∈ p.values, value.definingOp? ≠ some p.nextOp)
    (operands : List ValueId) : p.Unclaimed operands := by
  intro v i horigin
  obtain ⟨value, hvalue, hmade⟩ := map_eq_some_iff.mp horigin
  exact absurd (by rw [Value.definingOp?, hmade]; rfl) (h value (mem_of_getElem? hvalue))

lemma Intact.withOp (h : Intact orphans p) (hq : (p.withOp r index new).Consistent)
    (hnew : ∀ v ∈ new.operands, IsKnown orphans p v) (hnext : orphans → p.Unclaimed new.operands) :
    Intact orphans (p.withOp r index new) := by
  have hfree := h.consistent.uses.free
  -- What was an orphan is one, since the new operation did not make it.
  have hknown : ∀ v, IsKnown orphans p v →
      (orphans → ∀ i, p.originOf? v ≠ some (.result p.nextOp i)) →
      IsKnown orphans (p.withOp r index new) v := by
    rintro v (hv | ⟨horphans, d, i, horigin, hdead⟩) hother
    · exact .inl (hv.withOp h.consistent r index new)
    · refine .inr ⟨horphans, d, i, ?_, ?_⟩
      · rw [originOf?_withOp, if_pos (lt_of_originOf? horigin), horigin]
      · rw [hfree.op?_withOp, if_neg, hdead]
        rintro rfl
        exact hother horphans i horigin
  refine ⟨hq, fun x v hv ↦ ?_⟩
  rw [operandsOf, hfree.op?_withOp] at hv
  split_ifs at hv
  · exact hknown v (hnew v hv) fun horphans i hi ↦ (hnext horphans v i hi).1 hv
  · exact hknown v (h.known x v hv) fun horphans i hi ↦ (hnext horphans v i hi).2 x hv

lemma Intact.of_unused (h : Intact orphans p) (hq : q.Consistent) (hv : p.usersOf v = [])
    (hoperands : ∀ x, q.operandsOf x = p.operandsOf x)
    (hresults : ∀ x, ∀ u ∈ p.resultsOf x, u ≠ v → u ∈ q.resultsOf x)
    (hargs : ∀ r, ∀ u ∈ p.argsOf r, u ≠ v → u ∈ q.argsOf r)
    (horphan : ∀ u, p.IsOrphan u → q.IsOrphan u) : Intact orphans q := by
  refine ⟨hq, fun x u hu ↦ ?_⟩
  rw [hoperands] at hu
  have hne : u ≠ v := by
    rintro rfl
    exact h.consistent.uses.not_mem_operandsOf hv x hu
  rcases h.known x u hu with (⟨o, ho⟩ | ⟨r, hr⟩) | ⟨horphans, hgone⟩
  · exact .inl (.inl ⟨o, hresults o u ho hne⟩)
  · exact .inl (.inr ⟨r, hargs r u hr hne⟩)
  · exact .inr ⟨horphans, horphan u hgone⟩

end Program

namespace Edit

open Program

variable {α : Type} {e : Edit α}

/-! ### Edits that are handed no values -/

def Steadily (e : Edit α) : Prop :=
  ∀ p, Keeps (fun q ↦ q.Consistent ∧ Steady p q) e

lemma Steadily.intact (h : Steadily e) : Keeps (Intact orphans) e := fun p hp ↦ by
  obtain ⟨hq, hsteady⟩ := h p p ⟨hp.consistent, .refl p⟩
  exact hsteady.intact hp hq

lemma Through.steadily (h : Through true false e) : Steadily e := fun _ q hq ↦
  ⟨(h q q ⟨hq.1, .refl⟩).consistent, hq.2.trans (h.keeps_of (I := Steady q)
    (fun _ hchange hsteady ↦ hsteady.trans hchange.steady) hq.1 (.refl q))⟩

/-! ### Removal of unused values -/

lemma intact_removeArg (r : RegionId) (index : Nat) : Keeps (Intact orphans)
    (removeArg r index) := by
  intro p h
  refine does_removeArg.leaves h ?_
  rintro _ _ hok ⟨v, hv, -, hunused, rfl⟩
  have hq := (makes_removeArg r index).keeps.of_ok h.consistent hok
  have hop : ∀ x, (p.withoutArg r index).op? x = p.op? x := fun x ↦ by rw [withoutArg_rest]; rfl
  refine h.of_unused hq hunused (fun x ↦ operandsOf_congr (hop x)) (fun x u hu _ ↦ ?_)
    (fun x u hu hne ↦ ?_) ?_
  · rw [resultsOf_congr (hop x)]
    exact hu
  · rw [argsOf_withoutArg]
    split_ifs with hx
    · exact mem_eraseIdx_of_ne hv (hx ▸ hu) hne
    · exact hu
  · rintro u ⟨d, i, horigin, hdead⟩
    refine ⟨d, i, ?_, (hop d).trans hdead⟩
    rw [(h.consistent.placed.originOf?_withoutArg r index).2 u, horigin]
    intro j heq
    cases horigin.symm.trans heq

lemma intact_removeResult (o : OpId) (index : Nat) :
    Keeps (Intact orphans) (removeResult o index) := by
  intro p h
  refine does_removeResult.leaves h ?_
  rintro _ _ hok ⟨v, hv, -, hunused, rfl⟩
  have hq := (makes_removeResult o index).keeps.of_ok h.consistent hok
  refine h.of_unused hq hunused (fun x ↦ ?_) (fun x u hu hne ↦ ?_) (fun x u hu _ ↦ ?_) ?_
  · rw [withoutResult_rest]
    exact operandsOf_modifyOp p o (fun _ ↦ by rfl) x
  · rw [resultsOf_withoutResult]
    split_ifs with hx
    · exact mem_eraseIdx_of_ne hv (hx ▸ hu) hne
    · exact hu
  · rw [withoutResult_rest]
    exact hu
  · rintro u ⟨d, i, horigin, hdead⟩
    refine ⟨d, i, ?_, ?_⟩
    · rw [(h.consistent.placed.originOf?_withoutResult o index).2 u, horigin]
      intro j heq
      cases horigin.symm.trans heq
      rw [resultsOf, hdead] at hv
      cases hv
    · rw [withoutResult_rest]
      exact op?_modifyOp_of_none hdead

/-! ### Edits that are handed values -/

section Handed

variable (h : Intact orphans p)

include h

section New

variable (hnew : ∀ v ∈ new.operands, IsKnown orphans p v)
  (hnext : orphans → p.Unclaimed new.operands)

include hnew hnext

lemma intact_insertOp : Intact orphans ((insertOp r index new).exec p).2 := by
  refine does_insertOp.leaves h ?_
  rintro _ _ hok ⟨-, -, -, -, -, rfl⟩
  exact h.withOp ((makes_insertOp r index new).keeps.of_ok h.consistent hok) hnew hnext

lemma intact_appendOp : Intact orphans ((appendOp r new).exec p).2 := by
  refine does_appendOp.leaves h ?_
  rintro _ _ hok ⟨-, -, -, -, rfl⟩
  exact h.withOp ((makes_appendOp r new).keeps.of_ok h.consistent hok) hnew hnext

lemma intact_insertOpBefore {anchor : OpId} :
    Intact orphans ((insertOpBefore anchor new).exec p).2 := by
  refine does_insertOpBefore.leaves h ?_
  rintro _ _ hok ⟨r, -, -, -, -, -, rfl⟩
  exact h.withOp ((makes_insertOpBefore anchor new).keeps.of_ok h.consistent hok) hnew hnext

end New

lemma intact_replaceUses {old new : ValueId} (hnew : p.usersOf old ≠ [] → IsKnown orphans p new) :
    Intact orphans ((replaceUses old new).exec p).2 := by
  refine does_replaceUses.leaves h ?_
  rintro _ _ hok ⟨-, ⟨-, rfl⟩ | ⟨-, hne, rfl⟩⟩
  · exact h
  · have hq := (makes_replaceUses old new).keeps.of_ok h.consistent hok
    refine .of_operands (p := p) hq ⟨fun x ↦ ?_, fun r ↦ ?_, fun x hx ↦ ?_, fun v origin hv ↦ ?_⟩
      fun x v hv ↦ ?_
    · rw [resultsOf, resultsOf, op?_redirected h.consistent.uses hne, Option.map_map]
      exact Subset.refl _
    · rw [redirected_rest]
      exact Subset.refl _
    · rw [op?_redirected h.consistent.uses hne, hx, map_none]
    · rw [(SameValues.redirected p old new).originOf?, hv]
    · rw [operandsOf_redirected h.consistent.uses hne] at hv
      obtain ⟨u, hu, rfl⟩ := mem_map.mp hv
      unfold redirect
      split_ifs with hold
      · subst hold
        exact hnew fun hunused ↦ h.consistent.uses.not_mem_operandsOf hunused x hu
      · exact h.known x u hu

lemma intact_of_newOperands (hresults : ∀ node, (f node).results = node.results) (hq : q.Consistent)
    (hsame : SameButUsers (p.modifyOp o f) q)
    (hoperands : ∀ node, p.op? o = some node → ∀ v ∈ (f node).operands, IsKnown orphans p v) :
    Intact orphans q := by
  have hsteady := Steady.of_sameButUsers hsame
  refine .of_operands (p := p) hq ⟨fun x ↦ ?_, hsteady.args,
    fun x hx ↦ hsteady.dead x (op?_modifyOp_of_none hx), hsteady.origins⟩ fun x v hv ↦ ?_
  · rw [← resultsOf_modifyOp p o hresults]
    exact hsteady.results x
  · have hv := hsteady.operands x hv
    rw [operandsOf, op?_modifyOp] at hv
    split_ifs at hv with hx
    · subst hx
      cases hnode : p.op? x with
      | none => simp [hnode] at hv
      | some node =>
        rw [hnode] at hv
        exact hoperands node hnode v hv
    · exact h.known x v hv

lemma intact_setOperand (hv : IsKnown orphans p v) :
    Intact orphans ((setOperand o index v).exec p).2 := by
  refine does_setOperand.leaves h ?_
  rintro _ _ hok ⟨-, old, -, rfl⟩
  refine intact_of_newOperands h (fun _ ↦ by rfl)
    ((makes_setOperand o index v).keeps.of_ok h.consistent hok)
    (SameButUsers.trans (.dropUse _ o old) (.addUse _ o v)) fun node hnode u hu ↦ ?_
  rcases mem_or_eq_of_mem_set hu with hu | rfl
  · exact h.known o u (operandsOf_eq hnode ▸ hu)
  · exact hv

lemma intact_setOperands {operands : List ValueId}
    (hoperands : ∀ v ∈ operands, IsKnown orphans p v) :
    Intact orphans ((setOperands o operands).exec p).2 := by
  refine does_setOperands.leaves h ?_
  rintro _ _ hok ⟨-, -, rfl⟩
  exact intact_of_newOperands h (fun _ ↦ by rfl)
    ((makes_setOperands o operands).keeps.of_ok h.consistent hok)
    (SameButUsers.trans (.dropUses o _ _) (.addUses o _ _)) fun _ _ ↦ hoperands

end Handed

/-! ### Destruction -/

/-- What uses a result of an operation that goes is left with an orphan. -/
theorem intact_of_gone (h : Intact True p) (hq : q.Consistent) (gone : OpId → Prop)
    (hgone : ∀ x, gone x → q.op? x = none) (hdead : ∀ x, p.op? x = none → q.op? x = none)
    (hoperands : ∀ x, ¬ gone x → q.operandsOf x = p.operandsOf x) (hresults : ∀ x,
    ¬ gone x → q.resultsOf x = p.resultsOf x) (hargs : ∀ r, q.argsOf r = p.argsOf r)
    (horigins : ∀ v, q.originOf? v = p.originOf? v) : Intact True q := by
  refine ⟨hq, fun x v hv ↦ ?_⟩
  have hx : ¬ gone x := by
    intro hx
    simp [operandsOf, hgone x hx] at hv
  rw [hoperands x hx] at hv
  rcases h.known x v hv with (⟨d, hd⟩ | ⟨r, hr⟩) | ⟨-, d, i, horigin, hnone⟩
  · by_cases hd' : gone d
    · obtain ⟨i, hi⟩ := h.consistent.origin_of_mem_resultsOf hd
      exact .inr ⟨trivial, d, i, (horigins v).trans hi, hgone d hd'⟩
    · exact .inl (.inl ⟨d, (hresults d hd').symm ▸ hd⟩)
  · exact .inl (.inr ⟨r, (hargs r).symm ▸ hr⟩)
  · exact .inr ⟨trivial, d, i, (horigins v).trans horigin, hdead d hnone⟩

lemma intact_setForm (o : OpId) (form : Form) : Keeps (Intact True) (setForm o form) := by
  intro p h
  refine does_setForm.leaves h ?_
  rintro _ _ hok ⟨-, -, rfl⟩
  have hop := setForm_op? h.consistent hok
  refine intact_of_gone h ((keeps_setForm o form).of_ok h.consistent hok) (HoldsWithin p o)
    (fun x ↦ (hop x).1) (fun x hx ↦ ?_) (fun x hx ↦ ?_) (fun x hx ↦ ?_)
    (fun r ↦ (Prunes.dropRegions _ _).argsOf r) fun v ↦ ?_
  · by_cases hheld : HoldsWithin p o x
    · exact (hop x).1 hheld
    · exact ((hop x).2 hheld).trans (op?_modifyOp_of_none hx)
  · rw [operandsOf_congr ((hop x).2 hx), operandsOf_modifyOp p o fun _ ↦ by rfl]
  · rw [resultsOf_congr ((hop x).2 hx), resultsOf_modifyOp p o fun _ ↦ by rfl]
  · exact (SameValues.dropRegions _ _).originOf? v

lemma eraseOp_error {err : Error} (hp : p.Consistent)
    (hrun : (eraseOp o).exec p = (.error err, q)) : Steady p q := by
  have hkept : ∀ {β : Type} {e : Edit β} {m : Program}, Keeps (fun q ↦ q.Consistent ∧ Steady p q)
    e → m.Consistent ∧ Steady p m → Leads e m (fun _ q ↦ q.Consistent ∧ Steady p q) (Steady p) :=
    fun he hm ↦ (Leads.of_keeps he hm).imp (fun _ _ h ↦ h) fun _ h ↦ h.2
  have hleads : Leads (eraseOp o) p (fun _ _ ↦ True) (Steady p) := by
    refine (hkept (.read _) ⟨hp, .refl p⟩).bind fun node m hm ↦
      (hkept .get hm).bind fun m' m hm ↦ ?_
    cases firstUsed m' node with
    | some index => exact hm.2
    | none =>
      refine (hkept .get hm).bind fun m' m hm ↦
        (hkept (.forM (fun _ ↦ .bind (.read _) fun _ ↦ (makes_setControl _ _).through.steadily p) _)
        hm).bind fun _ m hm ↦ Leads.bind (Q := fun _ _ ↦ True)
        (does_detach.leads hm.2 fun _ _ _ _ ↦ trivial) fun _ _ _ ↦ trivial
  unfold Leads at hleads
  rw [hrun] at hleads
  exact hleads

lemma intact_eraseOp (o : OpId) : Keeps (Intact True) (eraseOp o) := by
  intro p h
  have hq := keeps_eraseOp o p h.consistent
  rcases hrun : (eraseOp o).exec p with ⟨err | _, q⟩
  · rw [hrun] at hq
    exact (eraseOp_error h.consistent hrun).intact h hq
  · rw [hrun] at hq
    have hop := eraseOp_op? h.consistent hrun
    refine intact_of_gone h hq (Holds p o) (fun x ↦ (hop x).1) (fun x hx ↦ ?_) (fun x hx ↦ ?_)
      (fun x hx ↦ ?_) (fun r ↦ ?_) (SameValues.of_eraseOp hrun).originOf?
    · by_cases hheld : Holds p o x
      · exact (hop x).1 hheld
      · rw [(hop x).2 hheld, hx, map_none]
    · rw [operandsOf, (hop x).2 hx, Option.map_map, operandsOf]
      rfl
    · rw [resultsOf, (hop x).2 hx, Option.map_map, resultsOf]
      rfl
    · obtain ⟨-, m, home, hsame, -, -, rfl⟩ := eraseOp_ok hrun
      exact (argsOf_discard m o home r).trans (hsame.argsOf r)

/-! ### Copies -/

def CopiesCurrent (m : CopyMap) (p : Program) : Prop :=
  Intact False p ∧ ∀ entry ∈ m.values, p.IsCurrent entry.2

namespace CopiesCurrent

variable {m : CopyMap} (h : CopiesCurrent m p)

include h

lemma value (hv : p.IsCurrent v) : p.IsCurrent (m.value v) := by
  unfold CopyMap.value
  cases hlookup : m.values.lookup v with
  | none => exact hv
  | some w =>
    obtain ⟨front, back, hsplit, -⟩ := lookup_eq_some_iff.mp hlookup
    exact h.2 (v, w) (hsplit ▸ by simp)

lemma insertValue (old : ValueId) {new : ValueId} (hnew : p.IsCurrent new) :
    CopiesCurrent (m.insertValue old new) p := by
  refine ⟨h.1, fun entry hentry ↦ ?_⟩
  rcases mem_cons.mp hentry with rfl | hentry
  · exact hnew
  · exact h.2 entry (mem_filter.mp hentry).1

lemma insertValues (old : List ValueId) {new : List ValueId} (hnew : ∀ v ∈ new, p.IsCurrent v) :
    CopiesCurrent (m.insertValues old new) p := by
  induction old generalizing m new with
  | nil => exact h
  | cons v rest ih =>
    cases new with
    | nil => exact h
    | cons w others =>
      rw [forall_mem_cons] at hnew
      exact ih (h.insertValue v hnew.1) hnew.2

lemma of_steady (hq : q.Consistent) (hsteady : Steady p q) : CopiesCurrent m q :=
  ⟨hsteady.intact h.1 hq, fun entry hentry ↦ (h.2 entry hentry).mono hsteady.results hsteady.args⟩

lemma addArg (r : RegionId) (type : TensorType) :
    Leads (addArg r type) p (fun v q ↦ CopiesCurrent m q ∧ q.IsCurrent v) (Intact False) := by
  refine does_addArg.leads h.1 ?_
  rintro _ _ hok ⟨hr, rfl, rfl⟩
  refine ⟨h.of_steady ((makes_addArg r type).keeps.of_ok h.1.consistent hok)
    (.withArg hr type), .inr ⟨r, ?_⟩⟩
  rw [argsOf_withArg hr]
  exact mem_append_right _ mem_cons_self

lemma addRegion (o : OpId) (execution : Execution) :
    Leads (addRegion o execution) p (fun _ ↦ CopiesCurrent m) (Intact False) := by
  refine does_addRegion.leads h.1 ?_
  rintro _ _ hok ⟨-, -, rfl⟩
  exact h.of_steady ((makes_addRegion o execution).keeps.of_ok h.1.consistent hok)
    (.withRegion p o execution)

lemma appendOp (r : RegionId) (hnew : ∀ v ∈ new.operands, p.IsCurrent v) :
    Leads (appendOp r new) p (fun _ ↦ CopiesCurrent m) (Intact False) := by
  refine does_appendOp.leads h.1 ?_
  rintro _ _ hok ⟨-, -, -, -, rfl⟩
  have hq := (makes_appendOp r new).keeps.of_ok h.1.consistent hok
  refine ⟨h.1.withOp hq (fun v hv ↦ .inl (hnew v hv)) False.elim, fun entry hentry ↦ ?_⟩
  exact (h.2 entry hentry).withOp h.1.consistent r _ new

lemma read {β : Type} (query : Program → Except Error β) :
    Leads (read query) p (fun b q ↦ CopiesCurrent m q ∧ query q = .ok b) (Intact False) :=
  .read h.1 fun _ hb ↦ ⟨h, hb⟩

lemma copyArgs (source target : RegionId) : Leads (copyArgs source target m) p CopiesCurrent
    (Intact False) := by
  refine (h.read _).bind fun region q hq ↦ .foldlM (fun m arg _ q hq ↦ ?_) hq.1
  refine (hq.read _).bind fun type q hq ↦ (hq.1.addArg target type).bind fun new q hq ↦ ?_
  exact .pure (hq.1.insertValue arg hq.2)

end CopiesCurrent

lemma copiesCurrent_copyToDepth (depth : Nat) (source target : RegionId)
    {m : CopyMap} (h : CopiesCurrent m p) : Leads (copyToDepth depth source target m)
    p CopiesCurrent (Intact False) := by
  induction depth generalizing source target m p with
  | zero => exact .pure h
  | succ depth ih =>
    refine (h.read _).bind fun region q hq ↦ .foldlM (fun m old _ q hq ↦ ?_) hq.1
    refine (hq.read _).bind fun node q hq ↦ ?_
    -- Reading the types of the results leaves the operation as it was read.
    have htypes : Leads (node.results.mapM fun v ↦ read (·.valueType v)) q
      (fun _ q ↦ CopiesCurrent m q ∧ q.op old = .ok node) (Intact False) :=
      (Leads.of_keeps (.mapM (fun _ ↦ .read _) _) hq).imp (fun _ _ h ↦ h) fun _ h ↦ h.1.1
    refine htypes.bind fun types q ⟨hq, hnode⟩ ↦ ?_
    have hoperands : ∀ v ∈ (copyOf m node types).operands, q.IsCurrent v := by
      intro v hv
      obtain ⟨u, hu, rfl⟩ := mem_map.mp hv
      exact hq.value (hq.1.current old (operandsOf_eq (op_eq_ok.mp hnode) ▸ hu))
    refine (hq.appendOp target hoperands).bind fun new q hq ↦ (hq.read _).bind fun copy q hq ↦ ?_
    have hresults : ∀ v ∈ copy.results, q.IsCurrent v :=
      fun v hv ↦ .inl ⟨new, resultsOf_eq (op_eq_ok.mp hq.2) ▸ hv⟩
    have hstart : CopiesCurrent (m.insertOp old new) q := hq.1
    refine .foldlM (fun m nested _ q hq ↦ ?_) (hstart.insertValues node.results hresults)
    refine (hq.read _).bind fun inner q hq ↦ (hq.1.addRegion new _).bind fun r q hq ↦ ?_
    exact (hq.copyArgs nested r).bind fun m q hq ↦ ih nested r hq

lemma mem_of_mem_ofValues {entry : ValueId × ValueId} (h : entry ∈ (CopyMap.ofValues seed).values) :
    entry ∈ seed := by
  suffices hfold : ∀ {done : List (ValueId × ValueId)}, entry ∈ seed.foldl
    (fun done entry ↦ entry :: done.filter (·.1 ≠ entry.1)) done → entry ∈ done ∨ entry ∈ seed from
    (hfold h).resolve_left not_mem_nil
  clear h
  induction seed with
  | nil => exact .inl
  | cons head rest ih =>
    intro done hmem
    rcases ih hmem with hdone | hrest
    · rcases mem_cons.mp hdone with rfl | hdone
      · exact .inr mem_cons_self
      · exact .inl (mem_filter.mp hdone).1
    · exact .inr (mem_cons_of_mem _ hrest)

lemma intact_copyRegion {source target : RegionId} (h : Intact False p)
    (hseed : ∀ entry ∈ seed, p.IsCurrent entry.2) :
    Intact False ((copyRegion source target seed).exec p).2 := by
  have hstart : CopiesCurrent (.ofValues seed) p :=
    ⟨h, fun entry hentry ↦ hseed entry (mem_of_mem_ofValues hentry)⟩
  refine Leads.keeps ?_
  refine Leads.bind (Q := fun _ ↦ CopiesCurrent (.ofValues seed)) hstart fun m q hq ↦ ?_
  exact (copiesCurrent_copyToDepth _ source target hq).bind fun m q hq ↦ .pure hq.1

end Edit

/-! ### Commands -/

/-- The command is handed known values, and gives no new operation the handle of one that has gone
and whose results are in use. Regions are copied only where no such result is in use. -/
def Command.Careful (p : Program) : Command → Prop
  | .append _ new => (∀ v ∈ new.operands, p.IsKnown True v) ∧ p.Unclaimed new.operands
  | .insert _ _ new => (∀ v ∈ new.operands, p.IsKnown True v) ∧ p.Unclaimed new.operands
  | .insertBefore _ new => (∀ v ∈ new.operands, p.IsKnown True v) ∧ p.Unclaimed new.operands
  | .replaceUses old new => p.usersOf old ≠ [] → p.IsKnown True new
  | .setOperand _ _ v => p.IsKnown True v
  | .setOperands _ operands => ∀ v ∈ operands, p.IsKnown True v
  | .copyRegion _ _ seed => p.Intact False ∧ ∀ entry ∈ seed, p.IsCurrent entry.2
  | _ => True

open Edit in
lemma Command.intact_apply {command : Command} (h : p.Intact True)
    (hcareful : command.Careful p) : (command.apply p).Intact True := by
  have hbind : ∀ {β : Type} {e : Edit β} {f : β → Outcome}, (e.exec p).2.Intact True →
      ((e >>= fun b ↦ pure (f b)).exec p).2.Intact True := fun he ↦
    Keeps.of_bind he (fun _ hq ↦ hq) fun _ _ hq ↦ hq
  by_cases hquiet : command.isSparing = true ∧ command.isRewiring = false
  · have hthrough : Through true false command.run := command.through_run hquiet.1 (fun _ ↦ rfl)
      fun hrewires ↦
      absurd (hquiet.2.symm.trans hrewires) Bool.false_ne_true
    exact hthrough.steadily.intact p h
  · cases command with
    | append region new => exact hbind (intact_appendOp h hcareful.1 fun _ ↦ hcareful.2)
    | insert region index new => exact hbind (intact_insertOp h hcareful.1 fun _ ↦ hcareful.2)
    | insertBefore anchor new =>
      exact hbind (intact_insertOpBefore h hcareful.1 fun _ ↦ hcareful.2)
    | removeArg region index => exact hbind (intact_removeArg _ _ p h)
    | replaceUses old new => exact hbind (intact_replaceUses h hcareful)
    | setOperand op index value => exact hbind (intact_setOperand h hcareful)
    | setOperands op operands => exact hbind (intact_setOperands h hcareful)
    | removeResult op index => exact hbind (intact_removeResult _ _ p h)
    | setForm op form => exact hbind (intact_setForm _ _ p h)
    | erase op => exact hbind (intact_eraseOp _ p h)
    | copyRegion source target seed =>
      exact hbind (intact_copyRegion hcareful.1 hcareful.2).weaken
    | _ => exact absurd ⟨rfl, rfl⟩ hquiet

/-- Built by careful commands. -/
inductive CarefullyBuilt : Program → Prop where
  | empty : CarefullyBuilt .empty
  | step {p : Program} {command : Command} (h : CarefullyBuilt p) (hcareful : command.Careful p) :
      CarefullyBuilt (command.apply p)

lemma CarefullyBuilt.intact (h : CarefullyBuilt p) : p.Intact True := by
  induction h with
  | empty => exact ⟨.empty, fun _ _ hv ↦ absurd hv not_mem_nil⟩
  | step _ hcareful ih => exact Command.intact_apply ih hcareful

/-- In a program that is built carefully and passes verification, an operand of an attached
operation is the result of a live operation that has it at the index on record, or such an argument
of a region that is not detached. -/
theorem CarefullyBuilt.operand_produced {p : Program} (h : CarefullyBuilt p)
    (hverify : p.verify = .ok ()) {o : OpId} (ho : o ∈ p.allOps)
    {v : ValueId} (hv : v ∈ p.operandsOf o) :
    (∃ d i, p.originOf? v = some (.result d i) ∧ (p.op? d).isSome ∧ (p.resultsOf d)[i]? = some v) ∨
      ∃ r i owner, p.originOf? v = some (.argument r i) ∧ p.ownerOf? r = some owner ∧
      owner ≠ .detached ∧ (p.argsOf r)[i]? = some v := by
  have hp := h.intact.consistent
  -- Being known leaves two things open, which verification settles: whether the operation that made
  -- the value is live, and whether the region of an argument is detached.
  have hproduced := Program.produced_iff.mp ((Program.produced_of_verify hp hverify ho).1 v hv)
  rcases h.intact.known o v hv with (⟨d, hd⟩ | ⟨r, hr⟩) | ⟨-, d, i, horigin, hdead⟩
  · obtain ⟨i, hi⟩ := mem_iff_getElem?.mp hd
    obtain ⟨node, hnode, -⟩ := Program.exists_op_of_mem_resultsOf hd
    exact .inl ⟨d, i, hp.placed.results d i v hi, isSome_of_eq_some hnode, hi⟩
  · obtain ⟨i, hi⟩ := mem_iff_getElem?.mp hr
    have horigin := hp.placed.args r i v hi
    rcases hproduced with ⟨d, j, horigin', -⟩ | ⟨r', j, owner, horigin', howner, hne⟩
    · cases horigin.symm.trans horigin'
    · obtain ⟨rfl, rfl⟩ := Origin.argument.inj (some.inj (horigin.symm.trans horigin'))
      exact .inr ⟨r, i, owner, horigin, howner, hne, hi⟩
  · rcases hproduced with ⟨d', j, horigin', hlive⟩ | ⟨r, j, owner, horigin', -⟩
    · obtain ⟨rfl, rfl⟩ := Origin.result.inj (some.inj (horigin.symm.trans horigin'))
      rw [hdead] at hlive
      cases hlive
    · cases horigin.symm.trans horigin'

/-- A source with two results, of which the second one is used, and a branch that hands its argument
on. -/
def renumbering : List Command :=
  [ .node 0 "source" [] 2, .node 0 "user" [1], .addRegion ⟨1⟩ .once, .addArg ⟨1⟩ .unknown,
    .node 1 yieldKind [2], .removeResult ⟨0⟩ 0]

/-- With the first result gone the second one takes its index, and the argument stays where it
was. -/
theorem operand_produced_renumbered :
    let p := Program.built renumbering
    CarefullyBuilt p ∧ p.verify = .ok () ∧
        (∃ d i, p.originOf? ⟨1⟩ = some (.result d i) ∧ (p.op? d).isSome ∧
      (p.resultsOf d)[i]? = some ⟨1⟩) ∧ ∃ r i owner, p.originOf? ⟨2⟩ = some (.argument r i) ∧
      p.ownerOf? r = some owner ∧ owner ≠ .detached ∧ (p.argsOf r)[i]? = some ⟨2⟩ := by
  intro p
  have hbuilt : CarefullyBuilt p := by
    refine .step (.step (.step (.step (.step (.step .empty ?_) ?_) trivial) trivial) ?_) trivial
    · exact ⟨fun v hv ↦ absurd hv not_mem_nil, Program.unclaimed_of_values (by decide +kernel) _⟩
    · refine ⟨fun v hv ↦ ?_, Program.unclaimed_of_values (by decide +kernel) _⟩
      obtain rfl := mem_singleton.mp hv
      exact .inl (.inl ⟨⟨0⟩, by decide +kernel⟩)
    · refine ⟨fun v hv ↦ ?_, Program.unclaimed_of_values (by decide +kernel) _⟩
      obtain rfl := mem_singleton.mp hv
      exact .inl (.inr ⟨⟨1⟩, by decide +kernel⟩)
  have hverify : p.verify = .ok () := Edit.eq_ok_of_toOption (by decide +kernel)
  have hsource := hbuilt.operand_produced hverify (o := ⟨1⟩) (v := ⟨1⟩) (by decide +kernel)
    (by decide +kernel)
  have harg := hbuilt.operand_produced hverify (o := ⟨2⟩) (v := ⟨2⟩) (by decide +kernel)
    (by decide +kernel)
  refine ⟨hbuilt, hverify, hsource.resolve_right ?_, harg.resolve_left ?_⟩
  · rintro ⟨r, i, -, horigin, -⟩
    cases horigin
  · rintro ⟨d, i, horigin, -⟩
    cases horigin

/-- An operation that uses a result which its producer has lost is let through. -/
theorem verified_after_removal :
    let p := Program.built [
      .node 0 "source" [] 1, .removeResult ⟨0⟩ 0, .node 0 "user" [0]]
    Reachable p ∧ p.verify = .ok () ∧ ⟨1⟩ ∈ p.allOps ∧ ⟨0⟩ ∈ p.operandsOf ⟨1⟩ ∧
      p.originOf? ⟨0⟩ = some (.result ⟨0⟩ 0) ∧ p.resultsOf ⟨0⟩ = [] := by
  intro p
  have hverify : p.verify = .ok () := Edit.eq_ok_of_toOption (by decide +kernel)
  exact ⟨reachable_built _, hverify, by decide +kernel, by decide +kernel, rfl, rfl⟩

end TensorGraph
