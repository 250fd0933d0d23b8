import TensorGraph.Proofs.Continuity

/-!
What goes when an operation goes. `Holds p o x` says that `x` is `o` or nested in it.
-/

namespace TensorGraph

open List Option

variable {p q : Program} {o x : OpId} {r : RegionId} {f : Program → OpId → Program}
    {step : Program → RegionId → Program} {form : Form} {α : Type}

namespace Program

/-- `x` is `o` or nested in it. -/
inductive Holds (p : Program) (o : OpId) : OpId → Prop where
  | self : Holds p o o
  | inner {y x : OpId} {r : RegionId} (hy : Holds p o y) (hr : r ∈ p.regionsOf y)
      (hx : x ∈ p.opsIn r) : Holds p o x

/-- `x` lies in a region of `o`, or is nested in what does. -/
def HoldsWithin (p : Program) (o x : OpId) : Prop :=
  ∃ r ∈ p.regionsOf o, ∃ y ∈ p.opsIn r, Holds p y x

structure Shrinks (p q : Program) : Prop where
  op? : ∀ x, q.op? x = p.op? x ∨ q.op? x = none
  opsIn : ∀ r, q.opsIn r ⊆ p.opsIn r

namespace Shrinks

variable {m : Program}

lemma trans (h : Shrinks p m) (h' : Shrinks m q) : Shrinks p q := by
  constructor
  · intro x
    rcases h'.op? x with hsame | hgone
    · rw [hsame]
      exact h.op? x
    · exact .inr hgone
  · exact fun r ↦ Subset.trans (h'.opsIn r) (h.opsIn r)

lemma of_prunes (h : Prunes p q) : Shrinks p q := by
  refine ⟨h.op?, fun r ↦ ?_⟩
  rcases h.region? r with hsame | ⟨hempty, -⟩
  · rw [Program.opsIn, hsame]
    exact Subset.refl _
  · rw [hempty]
    exact nil_subset _

lemma setOps (p : Program) (r : RegionId) {ops : List OpId} (hops : ops ⊆ p.opsIn r) :
    Shrinks p (p.setOps r ops) := by
  refine ⟨fun _ ↦ .inl rfl, fun x ↦ ?_⟩
  rw [Program.opsIn, Program.setOps, region?_modifyRegion]
  by_cases hx : x = r
  · subst hx
    rw [if_pos rfl]
    cases hregion : p.region? x with
    | none => exact nil_subset _
    | some region => exact hops
  · rw [if_neg hx]
    exact Subset.refl _

lemma regionsOf (h : Shrinks p q) (x : OpId) : q.regionsOf x ⊆ p.regionsOf x := by
  rcases h.op? x with hsame | hgone
  · rw [Program.regionsOf, hsame]
    exact Subset.refl _
  · rw [Program.regionsOf, hgone]
    exact nil_subset _

end Shrinks

namespace Holds

variable {y : OpId}

lemma mono (hx : Holds q o x) (hregions : ∀ y, q.regionsOf y ⊆ p.regionsOf y)
    (hops : ∀ r, q.opsIn r ⊆ p.opsIn r) : Holds p o x := by
  induction hx with
  | self => exact .self
  | inner _ hr hx ih => exact ih.inner (hregions _ hr) (hops _ hx)

lemma of_shrinks (h : Shrinks p q) (hx : Holds q o x) : Holds p o x :=
  hx.mono h.regionsOf h.opsIn

lemma trans (hy : Holds p o y) (hx : Holds p y x) : Holds p o x := by
  induction hx with
  | self => exact hy
  | inner _ hr hx ih => exact ih.inner hr hx

lemma eq_of_leaf (hleaf : p.regionsOf o = []) (hx : Holds p o x) : x = o := by
  induction hx with
  | self => rfl
  | inner _ hr _ ih =>
    rw [ih, hleaf] at hr
    cases hr

end Holds

/-! ### What vanishes is held -/

lemma exists_step_of_gone {β : Type} {f : Program → β → Program} {l : List β}
    (hlive : (p.op? x).isSome) (hgone : (l.foldl f p).op? x = none) :
    ∃ front b back, l = front ++ b :: back ∧ ((front.foldl f p).op? x).isSome ∧
    (f (front.foldl f p) b).op? x = none := by
  induction l generalizing p with
  | nil =>
    rw [foldl_nil] at hgone
    simp [hgone] at hlive
  | cons b rest ih =>
    cases hhead : (f p b).op? x with
    | none => exact ⟨[], b, rest, rfl, hlive, hhead⟩
    | some node =>
      obtain ⟨front, c, back, rfl, hbefore, hafter⟩ := ih (by rw [hhead]; rfl) hgone
      exact ⟨b :: front, c, back, rfl, hbefore, hafter⟩

lemma held_of_gone_region (hprunes : ∀ q o, Prunes q (f q o)) (hheld : ∀ q o x,
    (q.op? x).isSome → (f q o).op? x = none → Holds q o x) (hlive : (p.op? x).isSome)
    (hgone : (((p.opsIn r).reverse.foldl f (p.setOps r [])).modifyRegion r fun region ↦
      { region with owner := .detached }).op? x = none) : ∃ y ∈ p.opsIn r, Holds p y x := by
  have hgone' : ((p.opsIn r).reverse.foldl f (p.setOps r [])).op? x = none := hgone
  have hlive' : ((p.setOps r []).op? x).isSome := hlive
  obtain ⟨front, y, back, hsplit, hbefore, hafter⟩ := exists_step_of_gone hlive' hgone'
  have hy : y ∈ p.opsIn r := mem_reverse.mp (hsplit ▸ by simp)
  have hshrinks : Shrinks p (front.foldl f (p.setOps r [])) :=
    (Shrinks.setOps p r (nil_subset _)).trans (.of_prunes (.foldl hprunes front _))
  exact ⟨y, hy, (hheld _ y x hbefore hafter).of_shrinks hshrinks⟩

lemma held_of_gone_regions (hprunes : ∀ q r, Prunes q (step q r))
    (hheld : ∀ q r x, (q.op? x).isSome → (step q r).op? x = none → ∃ y ∈ q.opsIn r, Holds q y x)
    {l : List RegionId} (hlive : (p.op? x).isSome) (hgone : (l.foldl step p).op? x = none) :
    ∃ r ∈ l, ∃ y ∈ p.opsIn r, Holds p y x := by
  obtain ⟨front, r, back, rfl, hbefore, hafter⟩ := exists_step_of_gone hlive hgone
  have hshrinks : Shrinks p (front.foldl step p) := .of_prunes (.foldl hprunes front p)
  obtain ⟨y, hy, hx⟩ := hheld _ r x hbefore hafter
  exact ⟨r, by simp, y, hshrinks.opsIn r hy, hx.of_shrinks hshrinks⟩

lemma holds_of_gone {depth : Nat} (hlive : (p.op? x).isSome)
    (hgone : (destroyToDepth depth p o).op? x = none) : Holds p o x := by
  induction depth generalizing p o x with
  | zero =>
    rw [destroyToDepth] at hgone
    simp [hgone] at hlive
  | succ depth ih =>
    by_cases hx : x = o
    · rw [hx]
      exact .self
    · rw [destroyToDepth] at hgone
      cases hnode : p.op? o with
      | none =>
        simp only [hnode] at hgone
        simp [hgone] at hlive
      | some node =>
        simp only [hnode] at hgone
        have hprunes := Prunes.release p o node.operands
        have hkept :
            ((node.operands.foldl (fun q v ↦ q.dropUse o v) (p.release o)).op? x).isSome := by
          rw [(SameButUsers.dropUses o _ _).op?, op?_release, if_neg hx]
          exact hlive
        obtain ⟨r, hr, y, hy, hheld⟩ := held_of_gone_regions
          (fun q r ↦ Prunes.dropRegion (Prunes.destroyToDepth depth) _ q r)
          (fun q r x ↦ held_of_gone_region (Prunes.destroyToDepth depth) fun q o x ↦ ih) hkept hgone
        have hshrinks := Shrinks.of_prunes hprunes
        rw [← regionsOf_eq hnode] at hr
        exact (Holds.self.inner hr (hshrinks.opsIn r hy)).trans (hheld.of_shrinks hshrinks)

/-! ### What is held vanishes -/

section Held

variable {p₀ : Program} (h : Prunes p q) (hq : q.Consistent)

include h hq

lemma Prunes.gone_of_disowned {y : OpId} (howner : p.ownerOf? r = some (.op y))
    (hparent : p.parentOf? x = some r) (hy : r ∉ q.regionsOf y) : q.op? x = none := by
  rcases h.op? x with hsame | hgone
  · have hlisted : x ∈ q.opsIn r := by
      rw [hq.mem_opsIn, parentOf?, hsame]
      exact hparent
    rcases h.region? r with hregion | ⟨hempty, -⟩
    · refine absurd (hq.mem_regionsOf.mpr (parentOp?_eq_some.mpr ?_)) hy
      rw [ownerOf?, hregion]
      exact howner
    · rw [hempty] at hlisted
      cases hlisted
  · exact hgone

lemma Prunes.gone_of_holds (hp₀ : p₀.Consistent) (howner : ∀ r, p.ownerOf? r = p₀.ownerOf? r)
    (hparent : ∀ x, p.parentOf? x = p₀.parentOf? x) (ho : q.op? o = none) (hx : Holds p₀ o x) :
    q.op? x = none := by
  induction hx with
  | self => exact ho
  | @inner y x r _ hr hx ih =>
    have hy : r ∉ q.regionsOf y := by
      rw [regionsOf, ih]
      exact not_mem_nil
    have hr' := parentOp?_eq_some.mp (hp₀.mem_regionsOf.mp hr)
    exact h.gone_of_disowned hq ((howner r).trans hr') ((hparent x).trans (hp₀.mem_opsIn.mp hx)) hy

end Held

lemma gone_discard_iff (hp : p.Consistent)
    (hparent : p.parentOf? o = some r) (hq : (p.discarded o r).Consistent)
    (hlive : (p.op? x).isSome) : (p.discarded o r).op? x = none ↔ Holds p o x := by
  constructor
  · intro hnone
    have hlive' : ((p.detached o r).op? x).isSome := hlive
    refine (holds_of_gone hlive' hnone).mono (fun _ ↦ Subset.refl _) fun r' ↦ ?_
    rw [opsIn_detached]
    split_ifs with hr'
    · rw [hr']
      exact erase_subset
    · exact Subset.refl _
  · intro hheld
    refine (Prunes.destroyToDepth _ (p.detached o r) o).gone_of_holds hq hp (fun r' ↦ ?_)
      (fun _ ↦ rfl) (op?_discard_self hp hparent hq) hheld
    exact ownerOf?_modifyRegion p r (fun _ ↦ by rfl) r'

lemma gone_setForm_iff (hp : p.Consistent) (hform : ∀ regions, form ≠ .nested regions)
    (hq : ((p.regionsOf o).foldl dropRegion
    (p.withForm o form)).Consistent) (hlive : (p.op? x).isSome) :
    ((p.regionsOf o).foldl dropRegion (p.withForm o form)).op? x = none ↔
      HoldsWithin p o x := by
  have hregions := regionsOf_setForm p o hform
  constructor
  · intro hnone
    have hlive' : ((p.withForm o form).op? x).isSome := by
      rw [op?_modifyOp_eq_map, isSome_map]
      exact hlive
    obtain ⟨r, hr, y, hy, hheld⟩ := held_of_gone_regions (fun q r ↦ Prunes.dropRegion
      (fun q o ↦ Prunes.destroyToDepth q.slots.length q o) _ q r) (fun q r x ↦ held_of_gone_region
      (fun q o ↦ Prunes.destroyToDepth q.slots.length q o) fun q o x ↦ holds_of_gone) hlive' hnone
    refine ⟨r, hr, y, hy, hheld.mono (fun z ↦ ?_) fun _ ↦ Subset.refl _⟩
    rw [hregions]
    split_ifs
    · exact nil_subset _
    · exact Subset.refl _
  · rintro ⟨r, hr, y, hy, hheld⟩
    have hprunes := Prunes.dropRegions (p.regionsOf o) (p.withForm o form)
    have hparent : ∀ z, (p.withForm o form).parentOf? z = p.parentOf? z :=
      parentOf?_modifyOp p o fun _ ↦ by rfl
    -- Whether or not the operation survives, it has no regions afterwards.
    have hnone : ((p.regionsOf o).foldl dropRegion (p.withForm o form)).regionsOf o ⊆ [] := by
      refine Subset.trans ((Shrinks.of_prunes hprunes).regionsOf o) ?_
      rw [hregions, if_pos rfl]
      exact Subset.refl _
    have hgone := hprunes.gone_of_disowned hq (parentOp?_eq_some.mp (hp.mem_regionsOf.mp hr))
      ((hparent y).trans (hp.mem_opsIn.mp hy)) fun hmem ↦ not_mem_nil (hnone hmem)
    exact hprunes.gone_of_holds hq hp (fun _ ↦ rfl) hparent hgone hheld

/-! ### Values and owners -/

def SameValues (p q : Program) : Prop :=
  ∀ v, (q.value? v).map (fun value ↦ (value.type, value.origin)) =
    (p.value? v).map fun value ↦ (value.type, value.origin)

namespace SameValues

variable {m : Program}

lemma refl (p : Program) : SameValues p p := fun _ ↦ rfl

lemma trans (h : SameValues p m) (h' : SameValues m q) : SameValues p q :=
  fun v ↦ (h' v).trans (h v)

lemma typeOf? (h : SameValues p q) (v : ValueId) : q.typeOf? v = p.typeOf? v := by
  have hv := congrArg (Option.map Prod.fst) (h v)
  rwa [Option.map_map, Option.map_map] at hv

lemma originOf? (h : SameValues p q) (v : ValueId) : q.originOf? v = p.originOf? v := by
  have hv := congrArg (Option.map Prod.snd) (h v)
  rwa [Option.map_map, Option.map_map] at hv

lemma of_values (h : q.values = p.values) : SameValues p q := fun v ↦ by
  rw [value?, h, value?]

lemma modifyValue (p : Program) (v : ValueId) {f : Value → Value}
    (hf : ∀ value, ((f value).type, (f value).origin) = (value.type, value.origin)) :
    SameValues p (p.modifyValue v f) :=
  map_value?_modifyValue p v (fun value ↦ (value.type, value.origin)) hf

lemma redirected (p : Program) (old new : ValueId) : SameValues p (p.redirected old new) := by
  rw [redirected_rest]
  have hold : SameValues p (p.modifyValue old fun value ↦ { value with users := [] }) :=
    modifyValue p old fun _ ↦ by rfl
  exact hold.trans (modifyValue _ new fun _ ↦ by rfl)

lemma of_sameButControl (h : SameButControl p q) : SameValues p q := by
  refine of_values ?_
  rw [h.rest]

lemma destroyToDepth (depth : Nat) (p : Program) (o : OpId) :
    SameValues p (destroyToDepth depth p o) := by
  refine destroyToDepth_keeps (I := SameValues p) (fun q o node _ hq ↦ ?_)
    (fun _ _ _ hq ↦ hq.trans (of_values rfl)) depth (refl p) o
  exact foldl_keeps (fun m v hm ↦ hm.trans (modifyValue m v fun _ ↦ by rfl)) _
    (hq.trans (of_values rfl))

lemma dropRegions (l : List RegionId) (p : Program) : SameValues p (l.foldl dropRegion p) := by
  refine foldl_keeps (fun q r hq ↦ hq.trans ?_) l (refl p)
  have hops : SameValues q ((q.opsIn r).reverse.foldl destroy (q.setOps r [])) :=
    foldl_keeps (fun m o hm ↦ hm.trans (destroyToDepth _ m o)) _ (of_values rfl)
  exact hops.trans (of_values rfl)

lemma of_eraseOp (hok : (Edit.eraseOp o).exec p = (.ok ⟨⟩, q)) : SameValues p q := by
  obtain ⟨-, m, r, hsame, -, -, rfl⟩ := Edit.eraseOp_ok hok
  have hdetached : SameValues m (m.detached o r) := of_values rfl
  exact (of_sameButControl hsame).trans (hdetached.trans (destroyToDepth _ _ o))

lemma withOp (p : Program) (r : RegionId) (index : Nat) (new : NewOp) :
    SameValues (p.pushNode r new) (p.withOp r index new) :=
  trans (foldl_keeps (fun q w hq ↦ hq.trans (modifyValue q w fun _ ↦ by rfl)) new.operands (refl _))
    (of_values rfl)

lemma withOp_of_nil (p : Program) (r : RegionId) (index : Nat)
    {new : NewOp} (hnone : new.resultTypes = []) : SameValues p (p.withOp r index new) := by
  have hsame := withOp p r index new
  rw [pushNode, hnone] at hsame
  exact trans (fun v ↦ congrArg (Option.map _) (value?_pushOp p (p.nodeOf r new) v)) hsame

end SameValues

lemma typeOf?_withOp (r : RegionId) (index : Nat) (new : NewOp) (v : ValueId) :
    (p.withOp r index new).typeOf? v =
      if v.index < p.values.length then p.typeOf? v else
        new.resultTypes[v.index - p.values.length]? := by
  rw [(SameValues.withOp p r index new).typeOf?, typeOf?, value?_pushResults,
    values_length_pushOp, value?_pushOp]
  split_ifs
  · rfl
  · rw [Option.map_map]
    exact map_id'

structure Cuts (p q : Program) : Prop where
  op? : ∀ x, q.op? x = p.op? x ∨ q.op? x = none
  owner : ∀ r, q.ownerOf? r = p.ownerOf? r ∨ ∃ o, p.ownerOf? r = some (.op o)

namespace Cuts

variable {m : Program}

lemma foldl {f : Program → α → Program} {l : List α} (h : Cuts p m)
    (hf : ∀ m, Cuts p m → ∀ a ∈ l, Cuts p (f m a)) : Cuts p (l.foldl f m) :=
  List.foldlRecOn l f h fun m hm a ha ↦ hf m hm a ha

lemma release (h : Cuts p m) (o : OpId) (l : List ValueId) :
    Cuts p (l.foldl (fun q v ↦ q.dropUse o v) (m.release o)) := by
  refine ⟨fun x ↦ ?_, fun r ↦ ?_⟩
  · rcases (Prunes.release m o l).op? x with hsame | hgone
    · rw [hsame]
      exact h.op? x
    · exact .inr hgone
  · rw [ownerOf?, (SameButUsers.dropUses o l (m.release o)).region?]
    exact h.owner r

lemma destroyToDepth (hp : p.Consistent) (depth : Nat) (h : Cuts p m) (o : OpId) :
    Cuts p (destroyToDepth depth m o) := by
  induction depth generalizing m o with
  | zero => exact h
  | succ depth ih =>
    unfold destroyToDepth
    split
    · exact h
    · next node hnode =>
      have howned : ∀ r ∈ node.regions, p.ownerOf? r = some (.op o) := by
        intro r hr
        have hsame : m.op? o = p.op? o := (h.op? o).resolve_right (by simp [hnode])
        rw [hnode] at hsame
        rw [← regionsOf_eq hsame.symm] at hr
        exact ((hp.placed.owned r o).mp hr).1
      refine (h.release o node.operands).foldl fun q hq r hr ↦ ?_
      have hempty : Cuts p (q.setOps r []) := by
        refine ⟨hq.op?, fun x ↦ ?_⟩
        rw [setOps, ownerOf?_modifyRegion q r fun _ ↦ by rfl]
        exact hq.owner x
      have hfold := hempty.foldl (l := (q.opsIn r).reverse) fun n hn x _ ↦ ih hn x
      refine ⟨hfold.op?, fun x ↦ ?_⟩
      by_cases hx : x = r
      · exact .inr ⟨o, hx ▸ howned r hr⟩
      · rw [ownerOf?, region?_modifyRegion, if_neg hx]
        exact hfold.owner x

end Cuts

lemma SameTree.holds_iff (h : SameTree p q) : Holds q o x ↔ Holds p o x :=
  ⟨fun hx ↦ hx.mono (fun y _ hr ↦ h.regions y ▸ hr) fun r _ ho ↦ h.ops r ▸ ho,
    fun hx ↦ hx.mono (fun y _ hr ↦ (h.regions y).symm ▸ hr) fun r _ ho ↦ (h.ops r).symm ▸ ho⟩

end Program

/-! ### Edits that destroy -/

namespace Edit

open Program

lemma eraseOp_op? (hp : p.Consistent) (hok : (eraseOp o).exec p = (.ok ⟨⟩, q)) (x : OpId) :
    (Holds p o x → q.op? x = none) ∧ (¬ Holds p o x → q.op? x = (p.op? x).map fun node ↦ { node with
      control := if o ∈ node.control then
        (node.control.filter (· ≠ o) ++ (p.controlOf o).filter (· ≠ x)).eraseDups
        else node.control }) := by
  have hq := (keeps_eraseOp o).of_ok hp hok
  obtain ⟨-, m, r, hsame, hcontrol, hparent, rfl⟩ := eraseOp_ok hok
  have hm := hsame.consistent hp
  have hdead : m.op? x = none → (m.discarded o r).op? x = none := by
    intro hnone
    rcases op?_discard m o r x with hkept | hgone
    · exact hkept.trans hnone
    · exact hgone
  cases hnode : p.op? x with
  | none =>
    have hnone : m.op? x = none := by rw [hsame.op?, hnode]; rfl
    exact ⟨fun _ ↦ hdead hnone, fun _ ↦ hdead hnone⟩
  | some node =>
    have hmx : m.op? x = some { node with control := m.controlOf x } := by
      rw [hsame.op?, hnode]
      rfl
    have hgone : (m.discarded o r).op? x = none ↔ Holds p o x :=
      (gone_discard_iff hm hparent hq (by rw [hmx]; rfl)).trans hsame.sameTree.holds_iff
    refine ⟨hgone.mpr, fun hfree ↦ ?_⟩
    rcases op?_discard m o r x with hkept | hnone
    · rw [hkept, hmx, hcontrol, controlOf_eq hnode]
      rfl
    · exact absurd (hgone.mp hnone) hfree

lemma eraseOp_rest (hp : p.Consistent) (hok : (eraseOp o).exec p = (.ok ⟨⟩, q)) :
    (∀ r, q.ownerOf? r = p.ownerOf? r ∨ ∃ d, p.ownerOf? r = some (.op d)) ∧
    (∀ r, q.argsOf r = p.argsOf r) ∧ q.funcs = p.funcs ∧ q.graph = p.graph := by
  obtain ⟨-, m, r, hsame, -, -, rfl⟩ := eraseOp_ok hok
  have hregion : ∀ x, m.region? x = p.region? x := by
    intro x
    rw [hsame.rest]
    rfl
  have hstart : Cuts m (m.detached o r) :=
    ⟨fun _ ↦ .inl rfl, fun x ↦ .inl (ownerOf?_modifyRegion m r (fun _ ↦ by rfl) x)⟩
  have hcuts := Cuts.destroyToDepth (hsame.consistent hp) (m.detached o r).slots.length hstart o
  have hprunes := Prunes.destroyToDepth (m.detached o r).slots.length (m.detached o r) o
  refine ⟨fun x ↦ ?_, fun x ↦ ?_, ?_, ?_⟩
  · have hm : m.ownerOf? x = p.ownerOf? x := congrArg (Option.map Region.owner) (hregion x)
    rw [← hm]
    exact hcuts.owner x
  · rw [argsOf_discard, argsOf, hregion, argsOf]
  · refine hprunes.funcs.trans ?_
    rw [hsame.rest]
    rfl
  · refine hprunes.graph.trans ?_
    rw [hsame.rest]
    rfl

/-- An operation that is no terminator may be erased without loss of a terminator, and nothing
becomes attached that was not. -/
theorem terminated_eraseOp (hp : p.Consistent) (hterm : Terminated p) (hend : p.isEnd o = false)
    (hok : (eraseOp o).exec p = (.ok ⟨⟩, q)) : Terminated q ∧ ∀ x ∈ q.allOps, x ∈ p.allOps := by
  have hq := (keeps_eraseOp o).of_ok hp hok
  obtain ⟨-, m, r, hsame, -, hparent, rfl⟩ := eraseOp_ok hok
  have hm := hsame.consistent hp
  have htree := hsame.sameTree
  have htermm : Terminated m := htree.frame.terminated hm hp hterm
    (fun func _ ↦ by rw [hsame.argsOf]) fun func _ t _ ↦ by rw [hsame.operandsOf]
  have hframe := Frame.discard hm hparent hq ((htree.ends o).trans hend)
  refine ⟨hframe.terminated hq hm htermm (fun func _ ↦ ?_) fun func hfunc t ht ↦ ?_, fun x hx ↦ ?_⟩
  · rw [argsOf_discard]
  · -- The terminator of a function is still one, so it has not gone.
    have hbody : (m.discarded o r).Attached func.body := by
      refine ⟨0, .root ?_⟩
      rw [hframe.roots]
      exact mem_cons_of_mem _ (mem_map_of_mem hfunc)
    have hlast := (terminator?_eq_some.mp (hframe.last func.body hbody t ht)).2
    rcases op?_discard m o r t with hkept | hgone
    · rw [operandsOf, hkept, operandsOf]
    · rw [isEnd, hgone] at hlast
      cases hlast
  · have hne : x ∉ [o] := by
      rintro hmem
      obtain rfl := mem_singleton.mp hmem
      obtain ⟨home, -, hparent'⟩ := (mem_allOps hq).mp hx
      rw [parentOf?, op?_discard_self hm hparent hq] at hparent'
      cases hparent'
    exact htree.symm.mem_allOps hm hp (hframe.mem_allOps hq hm hne hx)

lemma setForm_op? (hp : p.Consistent) (hok : (setForm o form).exec p = (.ok ⟨⟩, q)) (x : OpId) :
    (HoldsWithin p o x → q.op? x = none) ∧
    (¬ HoldsWithin p o x → q.op? x = (p.withForm o form).op? x) := by
  have hq := (keeps_setForm o form).of_ok hp hok
  obtain ⟨hform, -, rfl⟩ := does_setForm.of_ok hok
  have hprunes := Prunes.dropRegions (p.regionsOf o) (p.withForm o form)
  by_cases hlive : (p.op? x).isSome
  · have hgone := gone_setForm_iff hp hform hq hlive
    exact ⟨hgone.mpr, fun hfree ↦ (hprunes.op? x).resolve_right fun hnone ↦ hfree (hgone.mp hnone)⟩
  · have hnone : (p.withForm o form).op? x = none := by
      rw [op?_modifyOp_eq_map, not_isSome_iff_eq_none.mp hlive]
      rfl
    rcases hprunes.op? x with hkept | hgone
    · exact ⟨fun _ ↦ hkept.trans hnone, fun _ ↦ hkept⟩
    · exact ⟨fun _ ↦ hgone, fun _ ↦ hgone.trans hnone.symm⟩

end Edit

end TensorGraph
