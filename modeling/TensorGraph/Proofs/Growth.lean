import TensorGraph.Proofs.Closed
import TensorGraph.Proofs.Moves

/-!
Programs that grow. `Grows busy opened p q` says that `q` has all that `p` has, but for what is
worked on or filled.
-/

namespace TensorGraph.Program

open List Option

variable {p q : Program} {o : OpId} {r : RegionId} {v : ValueId}

section SameEntry

variable {x : OpId} {busy : List OpId}

section

variable (h : q.op? o = p.op? o)

include h

lemma operandsOf_congr : q.operandsOf o = p.operandsOf o := by
  rw [operandsOf, h, operandsOf]

lemma controlOf_congr : q.controlOf o = p.controlOf o := by
  rw [controlOf, h, controlOf]

lemma resultsOf_congr : q.resultsOf o = p.resultsOf o := by
  rw [resultsOf, h, resultsOf]

lemma regionsOf_congr : q.regionsOf o = p.regionsOf o := by
  rw [regionsOf, h, regionsOf]

lemma parentOf?_congr : q.parentOf? o = p.parentOf? o := by
  rw [parentOf?, h, parentOf?]

end

section

variable (h : q.region? r = p.region? r)

include h

lemma opsIn_congr : q.opsIn r = p.opsIn r := by
  rw [opsIn, h, opsIn]

lemma argsOf_congr : q.argsOf r = p.argsOf r := by
  rw [argsOf, h, argsOf]

lemma ownerOf?_congr : q.ownerOf? r = p.ownerOf? r := by
  rw [ownerOf?, h, ownerOf?]

end

end SameEntry

section Existing

variable (h : p.Consistent)

include h

lemma Consistent.isSome_region?_of_mem_regionsOf (hr : r ∈ p.regionsOf o) : (p.region? r).isSome :=
  isSome_region?_of_ownerOf? (parentOp?_eq_some.mp (h.mem_regionsOf.mp hr))

lemma Consistent.lt_of_mem_resultsOf (hv : v ∈ p.resultsOf o) : v.index < p.values.length := by
  obtain ⟨i, hi⟩ := mem_iff_getElem?.mp hv
  exact lt_of_originOf? (h.placed.results o i v hi)

lemma Consistent.lt_of_mem_results (hnode : p.op? o = some node) (hv : v ∈ node.results) :
    v.index < p.values.length :=
  h.lt_of_mem_resultsOf (resultsOf_eq hnode ▸ hv)

lemma Consistent.lt_of_mem_argsOf (hv : v ∈ p.argsOf r) : v.index < p.values.length := by
  obtain ⟨i, hi⟩ := mem_iff_getElem?.mp hv
  exact lt_of_originOf? (h.placed.args r i v hi)

lemma Consistent.lt_of_mem_operandsOf (hv : v ∈ p.operandsOf o) : v.index < p.values.length := by
  by_contra hge
  refine h.uses.not_mem_operandsOf ?_ o hv
  simp [usersOf, value?, getElem?_eq_none (Nat.le_of_not_lt hge)]

end Existing

/-- All that the first program has is in the second one as it was, apart from the operations being
worked on and the regions being filled. -/
structure Grows (busy : List OpId) (opened : List RegionId) (p q : Program) : Prop where
  op? : ∀ x ∉ busy, ∀ node, p.op? x = some node → q.op? x = some node
  region? : ∀ r ∉ opened, ∀ region, p.region? r = some region → q.region? r = some region
  values : p.values.length ≤ q.values.length
  regions : p.regions.length ≤ q.regions.length
  funcs : q.funcs = p.funcs
  graph : q.graph = p.graph

namespace Grows

variable {busy busy' : List OpId} {opened opened' : List RegionId} {m : Program}

lemma refl (p : Program) : Grows [] [] p p :=
  ⟨fun _ _ _ h ↦ h, fun _ _ _ h ↦ h, Nat.le_refl _, Nat.le_refl _, rfl, rfl⟩

lemma trans (h : Grows busy opened p m) (h' : Grows busy' opened' m q)
    (hbusy : ∀ x ∈ busy', x ∈ busy ∨ p.op? x = none)
    (hopened : ∀ r ∈ opened', r ∈ opened ∨ p.region? r = none) : Grows busy opened p q where
  op? x hx node hnode := by
    refine h'.op? x (fun hmem ↦ ?_) node (h.op? x hx node hnode)
    rcases hbusy x hmem with hin | hdead
    · exact hx hin
    · simp [hdead] at hnode
  region? r hr region hregion := by
    refine h'.region? r (fun hmem ↦ ?_) region (h.region? r hr region hregion)
    rcases hopened r hmem with hin | habsent
    · exact hr hin
    · simp [habsent] at hregion
  values := Nat.le_trans h.values h'.values
  regions := Nat.le_trans h.regions h'.regions
  funcs := h'.funcs.trans h.funcs
  graph := h'.graph.trans h.graph

lemma weaken (h : Grows busy opened p q) (hbusy : busy ⊆ busy') (hopened : opened ⊆ opened') :
    Grows busy' opened' p q :=
  ⟨fun x hx ↦ h.op? x fun hmem ↦ hx (hbusy hmem), fun r hr ↦ h.region? r fun hmem ↦
    hr (hopened hmem), h.values, h.regions, h.funcs, h.graph⟩

section Reading

variable (h : Grows busy opened p q)

include h

lemma op?_eq (hlive : (p.op? x).isSome) (hx : x ∉ busy) : q.op? x = p.op? x := by
  obtain ⟨node, hnode⟩ := isSome_iff_exists.mp hlive
  rw [hnode, h.op? x hx node hnode]

lemma region?_eq (hr : (p.region? r).isSome) (hopen : r ∉ opened) : q.region? r = p.region? r := by
  obtain ⟨region, hregion⟩ := isSome_iff_exists.mp hr
  rw [hregion, h.region? r hopen region hregion]

lemma roots : q.roots = p.roots := by
  unfold Program.roots
  rw [h.funcs, h.graph]

lemma func? (name : String) : q.func? name = p.func? name := by
  unfold Program.func?
  rw [h.funcs]

end Reading

end Grows

lemma Closed.grows {avoid avoid' : List OpId} {opened : List RegionId} {depth : Nat}
    {scope : List ValueId} {ops : List OpId} (h : Closed p avoid depth scope ops)
    (hp : p.Consistent) (hg : Grows busy opened p q) (hbusy : ∀ x ∈ busy, x ∈ avoid)
    (hopened : ∀ r ∈ opened, ∀ x, r ∈ p.regionsOf x → x ∈ avoid)
    (havoid' : ∀ t ∈ avoid', t ∈ avoid ∨ p.op? t = none) : Closed q avoid' depth scope ops := by
  induction h generalizing avoid' with
  | nil => exact .nil
  | @cons avoid depth scope o rest havoid hlive hoperands hresults hargs _ _ ihinner ihrest =>
    have ho : q.op? o = p.op? o := hg.op?_eq hlive fun hmem ↦ havoid (hbusy o hmem)
    have hregions := regionsOf_congr ho
    have hregion : ∀ r ∈ q.regionsOf o, r ∈ p.regionsOf o ∧ q.region? r = p.region? r := by
      intro r hr
      rw [hregions] at hr
      exact ⟨hr, hg.region?_eq (hp.isSome_region?_of_mem_regionsOf hr) fun hmem ↦
        havoid (hopened r hmem o hr)⟩
    refine .cons (fun hmem ↦ ?_) (ho ▸ hlive) (operandsOf_congr ho ▸ hoperands)
      (resultsOf_congr ho ▸ hresults) (fun r hr ↦ ?_) (fun r hr ↦ ?_) ?_
    · rcases havoid' o hmem with hin | hdead
      · exact havoid hin
      · simp [hdead] at hlive
    · obtain ⟨hr, hsame⟩ := hregion r hr
      rw [argsOf_congr hsame]
      exact hargs r hr
    · obtain ⟨hr, hsame⟩ := hregion r hr
      rw [argsOf_congr hsame, opsIn_congr hsame]
      refine ihinner r hr (fun x hx ↦ mem_cons_of_mem _ (hbusy x hx))
        (fun r hr x hx ↦ mem_cons_of_mem _ (hopened r hr x hx)) fun t ht ↦ ?_
      rcases mem_cons.mp ht with rfl | ht
      · exact .inl mem_cons_self
      · exact (havoid' t ht).imp_left (mem_cons_of_mem _)
    · rw [resultsOf_congr ho]
      exact ihrest hbusy hopened havoid'

lemma AncestorIn.of_grows {a : OpId} (hp : p.Consistent) (hg : Grows busy [] p q)
    (hbusy : ∀ o ∈ busy, q.parentOf? o = p.parentOf? o) (hanc : AncestorIn q r x a)
    (hlive : (p.op? x).isSome) : AncestorIn p r x a := by
  have hparent' : ∀ o, (p.op? o).isSome → q.parentOf? o = p.parentOf? o := fun o ho ↦ by
    by_cases hmem : o ∈ busy
    · exact hbusy o hmem
    · exact parentOf?_congr (hg.op?_eq ho hmem)
  induction hanc with
  | @here o hparent => exact .here ((hparent' o hlive) ▸ hparent)
  | @up o owner a home hparent howner _ ih =>
    rw [hparent' o hlive] at hparent
    have hhome := isSome_region?_of_mem_opsIn (hp.mem_opsIn.mpr hparent)
    have hsame := parentOp?_congr (ownerOf?_congr (hg.region?_eq hhome not_mem_nil))
    rw [hsame] at howner
    exact .up hparent howner (ih (hp.isSome_of_parentOp? howner))

/-! ### Edits that let a program grow -/

lemma values_length_le (h : ∀ v, (p.originOf? v).isSome → (q.originOf? v).isSome) :
    p.values.length ≤ q.values.length := by
  by_contra hlt
  have hlast : (p.originOf? ⟨q.values.length⟩).isSome := by
    simp only [originOf?, value?, isSome_map]
    rw [getElem?_eq_getElem (by omega)]
    rfl
  obtain ⟨origin, horigin⟩ := isSome_iff_exists.mp (h _ hlast)
  have := lt_of_originOf? horigin
  exact Nat.lt_irrefl _ this

lemma Grows.modifyOp (p : Program) (o : OpId) (f : Operation → Operation) :
    Grows [o] [] p (p.modifyOp o f) where
  op? x hx node hnode := by rwa [op?_modifyOp, if_neg (by simpa using hx)]
  region? _ _ _ hregion := hregion
  values := Nat.le_refl _
  regions := Nat.le_refl _
  funcs := rfl
  graph := rfl

lemma Grows.withOp (h : p.Consistent) (r : RegionId) (index : Nat) (new : NewOp) :
    Grows [] [r] p (p.withOp r index new) where
  op? x _ node hnode := by
    have hne : x ≠ p.nextOp := fun heq ↦ by
      rw [heq, h.uses.free.op?_nextOp] at hnode
      cases hnode
    rw [h.uses.free.op?_withOp, if_neg hne, hnode]
  region? x hx region hregion := by
    rw [region?_withOp, region?_modifyRegion, if_neg (by simpa using hx), hregion]
  values := values_length_le fun v hv ↦ by
    obtain ⟨origin, horigin⟩ := isSome_iff_exists.mp hv
    rw [originOf?_withOp, if_pos (lt_of_originOf? horigin)]
    exact hv
  regions := by
    rw [Program.withOp, modifyRegion, length_modify, (sameButUsers_recordUses p r new).regions,
      pushNode, pushResults_eq, pushOp]
    split <;> exact Nat.le_refl _
  funcs := funcs_withOp r index new
  graph := graph_withOp r index new

lemma Grows.withRegion (p : Program) (o : OpId) (execution : Execution) :
    Grows [o] [] p (p.withRegion o execution) where
  op? x hx node hnode := by
    rw [Program.withRegion, op?_modifyOp, if_neg (by simpa using hx)]
    exact hnode
  region? x _ region hregion := by
    have hne : x ≠ p.nextRegion := fun heq ↦ by
      rw [heq, region?_nextRegion] at hregion
      cases hregion
    change (p.pushRegion (.op o) execution).region? x = _
    rw [region?_pushRegion, if_neg hne, hregion]
  values := Nat.le_refl _
  regions := by simp [Program.withRegion, Program.modifyOp, pushRegion]
  funcs := rfl
  graph := rfl

lemma Grows.withArg (p : Program) (r : RegionId) (type : TensorType) :
    Grows [] [r] p (p.withArg r type) where
  op? _ _ _ hnode := hnode
  region? x hx region hregion := by
    rw [Program.withArg, region?_modifyRegion, if_neg (by simpa using hx)]
    exact hregion
  values := by simp [Program.withArg, modifyRegion, pushValue]
  regions := by simp [Program.withArg, modifyRegion, pushValue]
  funcs := rfl
  graph := rfl

lemma Grows.withOperands (p : Program) (o : OpId) (operands : List ValueId) :
    Grows [o] [] p (p.withOperands o operands) := by
  have hsame : SameButUsers (p.modifyOp o fun node ↦ { node with operands })
      (p.withOperands o operands) :=
    (SameButUsers.dropUses o (p.operandsOf o) _).trans (.addUses o operands _)
  have hfirst := modifyOp p o fun node ↦ { node with operands }
  exact {
    op? := fun x hx node hnode ↦ by rw [hsame.op?, hfirst.op? x hx node hnode]
    region? := fun r hr region hregion ↦ by rw [hsame.region?, hfirst.region? r hr region hregion]
    values := values_length_le fun v hv ↦ by
      rw [hsame.origins]
      exact hv
    regions := by rw [hsame.regions]; exact hfirst.regions
    funcs := hsame.funcs.trans hfirst.funcs
    graph := hsame.graph.trans hfirst.graph }

end TensorGraph.Program
