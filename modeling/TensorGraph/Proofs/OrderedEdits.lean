import TensorGraph.Proofs.Frames

/-!
Edits that keep programs in order. `WellOrdered` joins what an edit may rely on: the program is
consistent, scoped and terminated.
-/

namespace TensorGraph

open List

variable {p q : Program} {v new old : ValueId} {index : Nat}

namespace Program

/-- Consistent, scoped and terminated. -/
structure WellOrdered (p : Program) : Prop where
  consistent : p.Consistent
  scoping : Scoped p
  terminated : Terminated p

lemma Ordered.wellOrdered (h : Ordered p) (hp : p.Consistent) : WellOrdered p :=
  ⟨hp, h.toScoped, terminated_of_verify hp h.verified⟩

/-! ### Changes that move nothing -/

lemma SameTree.of_ops {f : OpId → Operation → Operation} (hop : ∀ x, q.op? x = (p.op? x).map (f x))
    (hparent : ∀ x node, (f x node).parent = node.parent)
    (hform : ∀ x node, (f x node).form = node.form) (hkind : ∀ x node, (f x node).kind = node.kind)
    (hops : ∀ r, q.opsIn r = p.opsIn r) (howner : ∀ r, q.ownerOf? r = p.ownerOf? r)
    (hfuncs : q.funcs = p.funcs) (hgraph : q.graph = p.graph) :
    SameTree p q := by
  refine ⟨hops, fun x ↦ ?_, fun x ↦ ?_, fun x ↦ ?_, howner, hfuncs, hgraph⟩
  · rw [parentOf?, hop, Option.map_map, parentOf?]
    exact congrArg (Option.map · _) (funext (hparent x))
  · rw [regionsOf, hop, Option.map_map, regionsOf]
    refine congrArg (fun g ↦ (Option.map g (p.op? x)).getD []) (funext fun node ↦ ?_)
    simp only [Function.comp_apply, Operation.regions, hform]
  · rw [isEnd, hop, Option.any_map, isEnd]
    refine congrArg (fun g ↦ (p.op? x).any g) (funext fun node ↦ ?_)
    simp only [Operation.isTerminator, hkind]

/-- Operations may be given operands that were available and control dependencies that were seen, as
long as these values and operations are kept. -/
theorem WellOrdered.of_sameTree (h : WellOrdered p) (hq : q.Consistent) (hsame : SameTree p q)
    (hoperands : ∀ x ∈ p.allOps, ∀ v ∈ q.operandsOf x, Available p x v ∧
      (∀ r, v ∈ p.argsOf r → v ∈ q.argsOf r) ∧ ∀ d, v ∈ p.resultsOf d → v ∈ q.resultsOf d)
    (hcontrol : ∀ x ∈ p.allOps, ∀ d ∈ q.controlOf x, Sees p x d)
    (hargs : ∀ func ∈ p.funcs, (q.argsOf func.body).length = (p.argsOf func.body).length)
    (hreturns : ∀ func ∈ p.funcs, ∀ t, p.terminator? func.body = some t →
      (q.operandsOf t).length = (p.operandsOf t).length) : WellOrdered q := by
  have hf := hsame.frame
  refine ⟨hq, ⟨fun x hx v hv ↦ ?_, fun x hx d hd ↦ ?_⟩, hf.terminated hq h.consistent
    h.terminated hargs hreturns⟩
  · have hx' := hf.mem_allOps hq h.consistent not_mem_nil hx
    obtain ⟨havailable, hkeptArgs, hkeptResults⟩ := hoperands x hx' v hv
    exact hf.available hq not_mem_nil hx hkeptArgs
      (fun d hd ↦ ⟨not_mem_nil, fun _ ↦ hkeptResults d hd⟩) havailable
  · have hx' := hf.mem_allOps hq h.consistent not_mem_nil hx
    exact hf.sees hq not_mem_nil hx not_mem_nil (hcontrol x hx' d hd)

/-! ### Values and operands -/

structure Redirects (old new : ValueId) (p q : Program) : Prop where
  tree : SameTree p q
  args : ∀ r, q.argsOf r = p.argsOf r
  results : ∀ x, q.resultsOf x = p.resultsOf x
  control : ∀ x, q.controlOf x = p.controlOf x
  operands : ∀ x, q.operandsOf x = (p.operandsOf x).map (redirect old new)

lemma Redirects.refl (v : ValueId) (p : Program) : Redirects v v p p := by
  refine ⟨.refl p, fun _ ↦ rfl, fun _ ↦ rfl, fun _ ↦ rfl, fun x ↦ ?_⟩
  have hid : redirect v v = id := by
    funext u
    unfold redirect
    split_ifs with hu
    · exact hu.symm
    · rfl
  rw [hid, map_id]

lemma Redirects.redirected (h : UsesRecorded p) (hne : old ≠ new) :
    Redirects old new p (p.redirected old new) := by
  have hop := op?_redirected h hne
  have hregion : ∀ r, (p.redirected old new).region? r = p.region? r := by
    intro r
    rw [redirected_rest]
    rfl
  refine ⟨.of_ops hop (fun _ _ ↦ rfl) (fun _ _ ↦ rfl) (fun _ _ ↦ rfl) (fun r ↦ ?_) (fun r ↦ ?_)
    ?_ ?_, fun r ↦ ?_, fun x ↦ ?_, fun x ↦ ?_, operandsOf_redirected h hne⟩
  · rw [opsIn, hregion, opsIn]
  · rw [ownerOf?, hregion, ownerOf?]
  · rw [redirected_rest]
    rfl
  · rw [redirected_rest]
    rfl
  · rw [argsOf, hregion, argsOf]
  · rw [resultsOf, hop, Option.map_map, resultsOf]
    rfl
  · rw [controlOf, hop, Option.map_map, controlOf]
    rfl

lemma WellOrdered.redirects (h : WellOrdered p) (hq : q.Consistent) (hr : Redirects old new p q)
    (havailable : ∀ x ∈ p.allOps, old ∈ p.operandsOf x → Available p x new) : WellOrdered q := by
  refine h.of_sameTree hq hr.tree (fun x hx v hv ↦ ⟨?_, fun r ↦ ?_, fun d ↦ ?_⟩)
    (fun x hx d hd ↦ ?_) (fun func _ ↦ by rw [hr.args]) fun func _ t _ ↦ ?_
  · rw [hr.operands] at hv
    obtain ⟨u, hu, rfl⟩ := mem_map.mp hv
    unfold redirect
    split_ifs with hold
    · exact havailable x hx (hold ▸ hu)
    · exact h.scoping.operands x hx u hu
  · rw [hr.args]
    exact id
  · rw [hr.results]
    exact id
  · exact h.scoping.control x hx d (hr.control x ▸ hd)
  · rw [hr.operands, length_map]

lemma op?_modifyOp_eq_map (p : Program) (o : OpId) (f : Operation → Operation) (x : OpId) :
    (p.modifyOp o f).op? x = (p.op? x).map fun node ↦ if x = o then f node else node := by
  rw [op?_modifyOp]
  split_ifs
  · rfl
  · rw [Option.map_id']

lemma mem_eraseIdx_of_ne {l : List ValueId} {u : ValueId}
    (hv : l[index]? = some v) (hu : u ∈ l) (hne : u ≠ v) : u ∈ l.eraseIdx index := by
  obtain ⟨j, hj⟩ := mem_iff_getElem?.mp hu
  refine mem_eraseIdx_iff_getElem?.mpr ⟨j, fun heq ↦ hne ?_, hj⟩
  rw [heq, hv] at hj
  exact (Option.some.inj hj).symm

lemma op?_withoutOperand (p : Program) (o : OpId) (index : Nat) (old : ValueId) (x : OpId) :
    (p.withoutOperand o index old).op? x = (p.op? x).map fun node ↦
      if x = o then { node with operands := node.operands.eraseIdx index } else node :=
  op?_modifyOp_eq_map p o _ x

lemma SameTree.withoutOperand (p : Program) (o : OpId) (index : Nat) (old : ValueId) :
    SameTree p (p.withoutOperand o index old) := by
  refine .of_ops (op?_withoutOperand p o index old) (fun x node ↦ ?_) (fun x node ↦ ?_)
    (fun x node ↦ ?_) (fun _ ↦ rfl) (fun _ ↦ rfl) rfl rfl
  all_goals split_ifs <;> rfl

lemma WellOrdered.withoutOperand (h : WellOrdered p)
    {o : OpId} (hold : (p.operandsOf o)[index]? = some old)
    (hreturn : ∀ func ∈ p.funcs, p.terminator? func.body ≠ some o) :
    WellOrdered (p.withoutOperand o index old) := by
  have hoperands : ∀ x, (p.withoutOperand o index old).operandsOf x =
      if x = o then (p.operandsOf o).eraseIdx index else p.operandsOf x := by
    intro x
    rw [operandsOf, op?_withoutOperand]
    by_cases hx : x = o
    · subst hx
      rcases hnode : p.op? x with _ | node
      · simp [operandsOf, hnode]
      · simp [operandsOf, hnode]
    · simp [hx, operandsOf]
  have hresults : ∀ d, (p.withoutOperand o index old).resultsOf d = p.resultsOf d :=
    resultsOf_modifyOp p o fun _ ↦ by rfl
  have hcontrol : ∀ x, (p.withoutOperand o index old).controlOf x = p.controlOf x :=
    controlOf_modifyOp p o fun _ ↦ by rfl
  refine h.of_sameTree (h.consistent.withoutOperand hold) (.withoutOperand p o index old)
    (fun x hx v hv ↦ ⟨?_, fun r hr ↦ hr, fun d hd ↦ ?_⟩) (fun x hx d hd ↦ ?_) (fun _ _ ↦ rfl)
    fun func hfunc t ht ↦ ?_
  · rw [hoperands] at hv
    refine h.scoping.operands x hx v ?_
    split_ifs at hv with hxo
    · rw [hxo]
      exact mem_of_mem_eraseIdx hv
    · exact hv
  · rw [hresults]
    exact hd
  · exact h.scoping.control x hx d (hcontrol x ▸ hd)
  · have hne : t ≠ o := by
      rintro rfl
      exact hreturn func hfunc ht
    rw [hoperands, if_neg hne]

lemma SameTree.withoutResult (p : Program) (o : OpId) (index : Nat) :
    SameTree p (p.withoutResult o index) := by
  rw [withoutResult_rest]
  refine .of_ops (op?_modifyOp_eq_map p o _) (fun x node ↦ ?_) (fun x node ↦ ?_)
    (fun x node ↦ ?_) (fun _ ↦ rfl) (fun _ ↦ rfl) rfl rfl
  all_goals split_ifs <;> rfl

lemma WellOrdered.withoutResult (h : WellOrdered p)
    {o : OpId} (hv : (p.resultsOf o)[index]? = some v) (hunused : p.usersOf v = []) :
    WellOrdered (p.withoutResult o index) := by
  have hrest := withoutResult_rest p o index
  have hoperands : ∀ x, (p.withoutResult o index).operandsOf x = p.operandsOf x := by
    intro x
    rw [hrest]
    exact operandsOf_modifyOp p o (fun _ ↦ by rfl) x
  have hcontrol : ∀ x, (p.withoutResult o index).controlOf x = p.controlOf x := by
    intro x
    rw [hrest]
    exact controlOf_modifyOp p o (fun _ ↦ by rfl) x
  have hregion : ∀ r, (p.withoutResult o index).region? r = p.region? r := by
    intro r
    rw [hrest]
    rfl
  refine h.of_sameTree
    ⟨h.consistent.uses.withoutResult o index, h.consistent.placed.withoutResult o index⟩
    (.withoutResult p o index) (fun x hx u hu ↦ ⟨?_, fun r hr ↦ ?_, fun d hd ↦ ?_⟩)
    (fun x hx d hd ↦ ?_) (fun func _ ↦ ?_) fun func hfunc t ht ↦ by rw [hoperands]
  · exact h.scoping.operands x hx u (hoperands x ▸ hu)
  · rw [argsOf, hregion]
    exact hr
  · have hne : u ≠ v := by
      rintro rfl
      exact h.consistent.uses.not_mem_operandsOf hunused x (hoperands x ▸ hu)
    rw [resultsOf_withoutResult]
    split_ifs with hdo
    · subst hdo
      exact mem_eraseIdx_of_ne hv hd hne
    · exact hd
  · exact h.scoping.control x hx d (hcontrol x ▸ hd)
  · rw [argsOf, hregion, argsOf]

lemma SameTree.withoutArg (p : Program) (r : RegionId) (index : Nat) :
    SameTree p (p.withoutArg r index) := by
  rw [withoutArg_rest]
  refine .of_ops (f := fun _ node ↦ node) (fun x ↦ ?_) (fun _ _ ↦ rfl) (fun _ _ ↦ rfl)
    (fun _ _ ↦ rfl) (opsIn_modifyRegion p r fun _ ↦ by rfl)
    (ownerOf?_modifyRegion p r fun _ ↦ by rfl) rfl rfl
  rw [Option.map_id']
  rfl

lemma WellOrdered.withoutArg (h : WellOrdered p) {r : RegionId} (hv : (p.argsOf r)[index]? = some v)
    (hunused : p.usersOf v = []) (hbody : ∀ func ∈ p.funcs, func.body ≠ r) :
    WellOrdered (p.withoutArg r index) := by
  have hrest := withoutArg_rest p r index
  have hop : ∀ x, (p.withoutArg r index).op? x = p.op? x := by
    intro x
    rw [hrest]
    rfl
  have hoperands : ∀ x, (p.withoutArg r index).operandsOf x = p.operandsOf x := by
    intro x
    rw [operandsOf, hop, operandsOf]
  refine h.of_sameTree
    ⟨h.consistent.uses.withoutArg r index, h.consistent.placed.withoutArg r index⟩
    (.withoutArg p r index) (fun x hx u hu ↦ ⟨?_, fun y hy ↦ ?_, fun d hd ↦ ?_⟩)
    (fun x hx d hd ↦ ?_) (fun func hfunc ↦ ?_) fun func hfunc t ht ↦ by rw [hoperands]
  · exact h.scoping.operands x hx u (hoperands x ▸ hu)
  · have hne : u ≠ v := by
      rintro rfl
      exact h.consistent.uses.not_mem_operandsOf hunused x (hoperands x ▸ hu)
    rw [argsOf_withoutArg]
    split_ifs with hyr
    · subst hyr
      exact mem_eraseIdx_of_ne hv hy hne
    · exact hy
  · rw [resultsOf, hop]
    exact hd
  · refine h.scoping.control x hx d ?_
    rw [controlOf, hop] at hd
    exact hd
  · rw [argsOf_withoutArg, if_neg (hbody func hfunc)]

end Program

namespace Edit

open Program

lemma redirects_of_replaceUses (h : UsesRecorded p)
    (hok : (replaceUses old new).exec p = (.ok ⟨⟩, q)) : Redirects old new p q := by
  obtain ⟨-, ⟨rfl, rfl⟩ | ⟨-, hne, rfl⟩⟩ := does_replaceUses.of_ok hok
  · exact .refl old _
  · exact .redirected h hne

lemma wellOrdered_replaceUses (h : WellOrdered p) (hok : (replaceUses old new).exec p = (.ok ⟨⟩, q))
    (havailable : ∀ x ∈ p.allOps, old ∈ p.operandsOf x → Available p x new) :
    WellOrdered q ∧ Redirects old new p q := by
  have hr := redirects_of_replaceUses h.consistent.uses hok
  exact ⟨h.redirects ((makes_replaceUses old new).keeps.of_ok h.consistent hok) hr havailable, hr⟩

end Edit

end TensorGraph
