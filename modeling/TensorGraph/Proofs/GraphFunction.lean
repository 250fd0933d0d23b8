import TensorGraph.Proofs.FedGraphs
import TensorGraph.Proofs.Forest

/-!
The graph as a function. New arguments stand in for the values that are fed, and the operations of
these values are erased where nothing seems to need them any more.
-/

namespace TensorGraph.GraphFunction

open Program Edit List Option

variable {m p q : Program} {o x : OpId} {r : RegionId} {v : ValueId} {done : List ValueId}
    {replaced : List (ValueId × ValueId)} {found : Plan} {settings : Settings} {erased : List OpId}
  {b : Program}

/-! ### What stand-ins keep -/

namespace Fed

variable (h : Fed p done replaced m)

include h

lemma terminated (hp : p.Consistent) (hterm : Terminated p) : Terminated m := by
  refine h.sameTree.frame.terminated h.consistent hp hterm (fun func hfunc ↦ ?_) fun func _ t _ ↦ ?_
  · rw [h.argsOf_of_ne]
    intro heq
    have howner := hp.placed.bodies func hfunc
    rw [heq, hp.placed.graph] at howner
    cases howner
  · rw [h.operandsOf, length_map]

lemma produced (hp : p.Consistent) (hv : Produced p v) : Produced m (standIn replaced v) := by
  by_cases hfed : v ∈ done
  · obtain ⟨i, horigin⟩ := h.origin_standIn hp hfed
    refine produced_iff.mpr (.inr ⟨p.graph, i, .graph, horigin, ?_, by simp⟩)
    rw [h.sameTree.owner, hp.placed.graph]
  · rw [standIn_of_not_mem (mt h.mem_sources.mp hfed)]
    have hknown : (p.value? v).isSome := by
      obtain ⟨value, hvalue, -⟩ := hv
      exact isSome_of_eq_some hvalue
    rcases produced_iff.mp hv with ⟨d, i, horigin, hlive⟩ | ⟨r, i, owner, horigin, howner, hne⟩
    · refine produced_iff.mpr (.inl ⟨d, i, (h.origin v hknown).trans horigin, ?_⟩)
      rwa [h.op?, isSome_map]
    · refine produced_iff.mpr (.inr ⟨r, i, owner, (h.origin v hknown).trans horigin, ?_, hne⟩)
      rw [h.sameTree.owner, howner]

end Fed

/-- By the place it has on record, the value is a result of an operation that `o` holds, or an
argument of a region of one. -/
def MadeIn (p : Program) (o : OpId) (v : ValueId) : Prop :=
  (∃ d i, p.originOf? v = some (.result d i) ∧ p.Holds o d) ∨
    ∃ r i d, p.originOf? v = some (.argument r i) ∧ p.Holds o d ∧ r ∈ p.regionsOf d

/-- Nothing outside the operation needs anything that comes from it, apart from its own results. -/
structure SetApart (p : Program) (o : OpId) : Prop where
  used : ∀ x ∈ p.allOps, ¬ p.Holds o x → ∀ v ∈ p.operandsOf x, MadeIn p o v → v ∈ p.resultsOf o
  awaited : ∀ x ∈ p.allOps, ¬ p.Holds o x → ∀ d ∈ p.controlOf x, p.Holds o d → d = o

lemma Fed.setApart (h : Fed p done replaced m) (hp : p.Consistent)
    (hproduced : ∀ x ∈ p.allOps, ∀ v ∈ p.operandsOf x, Produced p v) (ho : SetApart p o) :
    SetApart m o := by
  have htree := h.sameTree
  refine ⟨fun x hx hout w hw hmade ↦ ?_, fun x hx hout d hd hheld ↦ ?_⟩
  · have hx' := htree.symm.mem_allOps h.consistent hp hx
    rw [h.holds_iff] at hout
    rw [h.operandsOf] at hw
    obtain ⟨v, hv, rfl⟩ := mem_map.mp hw
    by_cases hfed : v ∈ done
    · obtain ⟨i, horigin⟩ := h.origin_standIn hp hfed
      rcases hmade with ⟨d, j, horigin', -⟩ | ⟨r, j, d, horigin', -, hr⟩
      · cases horigin.symm.trans horigin'
      · obtain ⟨rfl, -⟩ := Origin.argument.inj (some.inj (horigin.symm.trans horigin'))
        have howner := parentOp?_eq_some.mp (h.consistent.mem_regionsOf.mp hr)
        rw [htree.owner, hp.placed.graph] at howner
        cases howner
    · rw [standIn_of_not_mem (mt h.mem_sources.mp hfed)] at hmade ⊢
      obtain ⟨value, hvalue, -⟩ := hproduced x hx' v hv
      have horigin := h.origin v (isSome_of_eq_some hvalue)
      rw [h.resultsOf]
      refine ho.used x hx' hout v hv ?_
      unfold MadeIn at hmade ⊢
      simpa only [horigin, h.holds_iff, htree.regions] using hmade
  · rw [h.holds_iff] at hout hheld
    rw [h.controlOf] at hd
    exact ho.awaited x (htree.symm.mem_allOps h.consistent hp hx) hout d hd hheld

/-! ### What erasure keeps -/

namespace Trimmed

section Sound

variable {plan : Plan} {erased : List OpId} (h : Trimmed plan p erased q) (hp : p.Consistent)
  (hapart : ∀ o ∈ erased, SetApart p o)

include h hp

lemma attached (hx : x ∈ q.allOps) : x ∈ p.allOps := by
  have hq := h.consistent
  obtain ⟨home, ⟨n, hhome⟩, hparent⟩ := (mem_allOps hq).mp hx
  have hroots : p.roots = q.roots := by rw [roots, roots, h.funcs, h.graph]
  refine (mem_allOps hp).mpr ⟨home, ⟨n, hhome.of_encloses hroots ?_⟩, ?_⟩
  · rintro outer inner ⟨y, hy, hinner⟩
    have hlive := isSome_of_mem_regionsOf hinner
    refine ⟨y, (h.mem_opsIn hp hlive).mp hy, ?_⟩
    rwa [regionsOf, ← h.op?_of_live hlive, ← regionsOf]
  · rwa [parentOf?, ← h.op?_of_live (hq.isSome_of_mem_allOps hx), ← parentOf?]

include hapart

lemma not_madeIn (hx : x ∈ q.allOps) (hv : v ∈ q.operandsOf x) (ho : o ∈ erased) :
    ¬ MadeIn p o v := by
  intro hmade
  have hlive := h.consistent.isSome_of_mem_allOps hx
  rw [operandsOf, h.op?_of_live hlive, ← operandsOf] at hv
  have hresult := (hapart o ho).used x (h.attached hp hx) (h.not_holds_of_live hlive ho) v hv hmade
  obtain ⟨earlier, hsub, hdropped⟩ := h.dropped_of_mem ho
  exact hdropped.unused x (fun d hd ↦ h.not_holds_of_live hlive (hsub hd)) v hresult hv

lemma produced (hx : x ∈ q.allOps) (hv : v ∈ q.operandsOf x) (hproduced : Produced p v) :
    Produced q v := by
  rcases produced_iff.mp hproduced with ⟨d, i, horigin, hlive⟩ | ⟨r, i, owner, horigin, howner, hne⟩
  · refine produced_iff.mpr (.inl ⟨d, i, (h.values.originOf? v).trans horigin, ?_⟩)
    by_contra hgone
    rw [not_isSome_iff_eq_none] at hgone
    obtain ⟨o, ho, hheld⟩ := h.missing hlive hgone
    exact h.not_madeIn hp hapart hx hv ho (.inl ⟨d, i, horigin, hheld⟩)
  · have horigin' := (h.values.originOf? v).trans horigin
    rcases h.owner r with hsame | ⟨d, hd⟩
    · exact produced_iff.mpr (.inr ⟨r, i, owner, horigin', hsame.trans howner, hne⟩)
    · -- The region belongs to an operation, which has it as long as it is there.
      have hr : r ∈ p.regionsOf d := hp.mem_regionsOf.mpr (parentOp?_eq_some.mpr hd)
      cases hleft : q.op? d with
      | none =>
        obtain ⟨o, ho, hheld⟩ := h.missing (isSome_of_mem_regionsOf hr) hleft
        exact absurd (.inr ⟨r, i, d, horigin, hheld, hr⟩) (h.not_madeIn hp hapart hx hv ho)
      | some node =>
        rw [regionsOf, ← h.op?_of_live (isSome_of_eq_some hleft), ← regionsOf] at hr
        have hd' := parentOp?_eq_some.mp (h.consistent.mem_regionsOf.mp hr)
        exact produced_iff.mpr (.inr ⟨r, i, .op d, horigin', hd', by simp⟩)

lemma awaited (hx : x ∈ q.allOps) {d : OpId} (hd : d ∈ q.controlOf x)
    (hlive : (p.op? d).isSome) : (q.op? d).isSome := by
  by_contra hgone
  rw [not_isSome_iff_eq_none] at hgone
  obtain ⟨o, ho, hheld⟩ := h.missing hlive hgone
  have hlive' := h.consistent.isSome_of_mem_allOps hx
  rw [controlOf, h.op?_of_live hlive', ← controlOf] at hd
  obtain rfl := (hapart o ho).awaited x (h.attached hp hx)
    (h.not_holds_of_live hlive' ho) d hd hheld
  obtain ⟨earlier, hsub, hdropped⟩ := h.dropped_of_mem ho
  exact hdropped.unawaited x (fun e he ↦ h.not_holds_of_live hlive' (hsub he)) hd

end Sound

end Trimmed

/-! ### What the end of the function keeps -/

namespace Closes

variable {func : Func} {last : OpId} {node : Operation} (h : Closes p q func last node)

include h

lemma attached (hr : q.Attached r) : r = q.graph ∨ p.Attached r := by
  obtain ⟨n, hat⟩ := hr
  induction hat with
  | @root r hroot =>
    rcases mem_cons.mp hroot with rfl | hbody
    · exact .inl rfl
    · refine .inr ⟨0, .root ?_⟩
      obtain ⟨f, hf, rfl⟩ := mem_map.mp hbody
      rw [h.funcs] at hf
      rcases mem_append.mp hf with hf | hf
      · exact mem_cons_of_mem _ (mem_map_of_mem hf)
      · rw [mem_singleton.mp hf, h.body]
        exact mem_cons_self
  | @nested n home inner o _ ho hinner ih =>
    have hne : o ≠ last := by
      rintro rfl
      rw [regionsOf_eq h.op?_last, h.leaf] at hinner
      cases hinner
    have hhome : o ∈ p.opsIn home := (h.mem_opsIn hne).mp ho
    rcases ih with rfl | hattached
    · rw [h.graph, opsIn_nextRegion] at hhome
      cases hhome
    · rw [regionsOf, h.op?, if_neg hne, ← regionsOf] at hinner
      exact .inr (hattached.nested hhome hinner)

lemma produced (hv : Produced p v) : Produced q v := by
  rcases produced_iff.mp hv with ⟨d, i, horigin, hlive⟩ | ⟨r, i, owner, horigin, howner, hne⟩
  · refine produced_iff.mpr (.inl ⟨d, i, (h.values.originOf? v).trans horigin, ?_⟩)
    rwa [h.op?_of_live hlive]
  · have horigin' := (h.values.originOf? v).trans horigin
    by_cases hr : r = p.graph
    · refine produced_iff.mpr (.inr ⟨r, i, .function, horigin', ?_, by simp⟩)
      rw [h.owner, if_neg (ne_nextRegion_of_ownerOf? howner), if_pos hr]
    · refine produced_iff.mpr (.inr ⟨r, i, owner, horigin', ?_, hne⟩)
      rw [h.owner, if_neg (ne_nextRegion_of_ownerOf? howner), if_neg hr, howner]

variable (hp : p.Consistent)

include hp

lemma isEnd_eq (ho : o ∈ p.opsIn r) : q.isEnd o = p.isEnd o := by
  rw [isEnd, h.op?_of_live (hp.isSome_of_mem_opsIn ho), isEnd]

lemma terminator?_eq (hr : r ≠ p.graph) (ho : p.terminator? r = some o) :
    q.terminator? r = some o := by
  obtain ⟨hlast, hend⟩ := terminator?_eq_some.mp ho
  refine terminator?_eq_some.mpr ⟨?_, ?_⟩
  · rwa [h.opsIn, if_neg hr]
  · rwa [h.isEnd_eq hp (mem_of_getLast? hlast)]

omit hp in
lemma terminator?_body : q.terminator? p.graph = some last := by
  refine terminator?_eq_some.mpr ⟨?_, ?_⟩
  · rw [h.opsIn, if_pos rfl, getLast?_concat]
  · rw [isEnd, h.op?_last, any_some, Operation.isTerminator, h.kind]
    rfl

lemma terminated (hterm : Terminated p) (hend : ∀ o ∈ p.opsIn p.graph, p.isEnd o = false)
    (hcount : node.operands.length = func.resultTypes.length) : Terminated q := by
  have hbody : ∀ f ∈ p.funcs, f.body ≠ p.graph := by
    intro f hf heq
    have howner := hp.placed.bodies f hf
    rw [heq, hp.placed.graph] at howner
    cases howner
  refine ⟨fun f hf ↦ ?_, fun f hf ↦ ?_, fun r hr o ho hend' ↦ ?_, fun r hr o ho inner hinner ↦ ?_⟩
  · rw [h.funcs] at hf
    rw [h.args]
    rcases mem_append.mp hf with hf | hf
    · exact hterm.signature f hf
    · rw [mem_singleton.mp hf, h.body]
      exact ⟨h.argAttrs, h.resultAttrs⟩
  · rw [h.funcs] at hf
    rcases mem_append.mp hf with hf | hf
    · obtain ⟨t, ht, hlength⟩ := hterm.returns f hf
      refine ⟨t, h.terminator?_eq hp (hbody f hf) ht, ?_⟩
      rwa [operandsOf, h.op?_of_live
        (hp.isSome_of_mem_opsIn (mem_of_getLast? (terminator?_eq_some.mp ht).1)), ← operandsOf]
    · rw [mem_singleton.mp hf, h.body]
      exact ⟨last, h.terminator?_body, by rw [operandsOf_eq h.op?_last, hcount]⟩
  · by_cases hgraph : r = p.graph
    · subst hgraph
      rw [h.opsIn, if_pos rfl] at ho
      rcases mem_append.mp ho with ho | ho
      · rw [h.isEnd_eq hp ho, hend o ho] at hend'
        cases hend'
      · rw [mem_singleton.mp ho]
        exact h.terminator?_body
    · rw [h.opsIn, if_neg hgraph] at ho
      rcases h.attached hr with rfl | hattached
      · rw [h.graph, opsIn_nextRegion] at ho
        cases ho
      · rw [h.isEnd_eq hp ho] at hend'
        exact h.terminator?_eq hp hgraph (hterm.last r hattached o ho hend')
  · have hne : o ≠ last := by
      rintro rfl
      rw [regionsOf_eq h.op?_last, h.leaf] at hinner
      cases hinner
    rw [h.mem_opsIn hne] at ho
    rw [regionsOf, h.op?, if_neg hne, ← regionsOf] at hinner
    rcases h.attached hr with rfl | hattached
    · rw [h.graph, opsIn_nextRegion] at ho
      cases ho
    · have hinner' : inner ≠ p.graph := by
        rintro rfl
        have howner := parentOp?_eq_some.mp (hp.mem_regionsOf.mp hinner)
        rw [hp.placed.graph] at howner
        cases howner
      obtain ⟨t, ht⟩ := isSome_iff_exists.mp (hterm.nested r hattached o ho inner hinner)
      exact isSome_of_eq_some (h.terminator?_eq hp hinner' ht)

lemma mem_allOps (hx : x ∈ q.allOps) : x = last ∨ x ∈ p.allOps := by
  obtain ⟨r, hr, hparent⟩ := (Program.mem_allOps h.consistent).mp hx
  by_cases hne : x = last
  · exact .inl hne
  · rw [parentOf?, h.op?, if_neg hne, ← parentOf?] at hparent
    rcases h.attached hr with rfl | hattached
    · have hlisted := hp.mem_opsIn.mpr hparent
      rw [h.graph, opsIn_nextRegion] at hlisted
      cases hlisted
    · exact .inr ((Program.mem_allOps hp).mpr ⟨r, hattached, hparent⟩)

lemma verify (hterm : Terminated p) (hend : ∀ o ∈ p.opsIn p.graph, p.isEnd o = false)
    (hcount : node.operands.length = func.resultTypes.length)
    (hproduced : ∀ x ∈ p.allOps, ∀ v ∈ p.operandsOf x, Produced p v) (hlive : ∀ x ∈ p.allOps,
    ∀ d ∈ p.controlOf x, (p.op? d).isSome) (hoperands : ∀ v ∈ node.operands, Produced p v)
    (hcontrol : ∀ d ∈ node.control, (p.op? d).isSome) : q.verify = .ok () := by
  refine verify_of_produced h.consistent (h.terminated hp hterm hend hcount) (fun x hx v hv ↦ ?_)
    fun x hx d hd ↦ ?_
  · rcases h.mem_allOps hp hx with rfl | hmem
    · rw [operandsOf_eq h.op?_last] at hv
      exact h.produced (hoperands v hv)
    · rw [operandsOf, h.op?_of_live (hp.isSome_of_mem_allOps hmem), ← operandsOf] at hv
      exact h.produced (hproduced x hmem v hv)
  · rcases h.mem_allOps hp hx with rfl | hmem
    · rw [controlOf_eq h.op?_last] at hd
      rw [h.op?_of_live (hcontrol d hd)]
      exact hcontrol d hd
    · rw [controlOf, h.op?_of_live (hp.isSome_of_mem_allOps hmem), ← controlOf] at hd
      have hlive' := hlive x hmem d hd
      rwa [h.op?_of_live hlive']

end Closes

/-! ### The pass -/

/-- Nothing that is needed goes if the operation is erased after its fed results have been
replaced. -/
structure Dispensable (p : Program) (plan : Plan) (o : OpId) : Prop extends SetApart p o where
  fetched : ∀ v ∈ plan.fetches, v ∈ p.resultsOf o → v ∈ plan.feeds

structure Prepared (p : Program) (found : Plan) (replaced : List (ValueId × ValueId))
    (m : Program) : Prop where
  consistent : m.Consistent
  terminated : Terminated m
  graph : m.graph = p.graph
  args : m.argsOf p.graph = p.argsOf p.graph ++ replaced.map Prod.snd
  sources : replaced.map Prod.fst = found.feeds.eraseDups
  isEnd : ∀ o ∈ m.opsIn m.graph, m.isEnd o = false
  produced : ∀ x ∈ m.allOps, ∀ v ∈ m.operandsOf x, Produced m v
  awaited : ∀ x ∈ m.allOps, ∀ d ∈ m.controlOf x, (m.op? d).isSome
  standIns : ∀ v ∈ found.feeds, Produced m (standIn replaced v)
  fetched : ∀ v ∈ found.fetches, v ∉ found.feeds → ∃ o ∈ m.opsIn p.graph, ∃ before,
    p.op? o = some before ∧ v ∈ before.results ∧
      m.op? o = some { before with operands := before.operands.map (standIn replaced) }
  controlResults : ∀ o ∈ found.controlResults, (m.op? o).isSome

lemma prepared_of_stages (hp : p.Consistent) (hverify : p.verify = .ok ())
    (hend : ∀ o ∈ p.opsIn p.graph, p.isEnd o = false) (hplan : plan settings p = .ok found)
    (hspared : ∀ o ∈ erased, Dispensable p found o) (hfed : Fed p found.feeds replaced b)
    (htrimmed : Trimmed found b erased m) :
    Prepared p found replaced m := by
  obtain ⟨-, hfeeds, hfetches, hcontrol⟩ := plan_eq_ok hplan
  have hb := hfed.consistent
  have htree := hfed.sameTree
  have hsound := fun x hx ↦ produced_of_verify hp hverify (o := x) hx
  have hm := htrimmed.consistent
  have hgraph : m.graph = p.graph := htrimmed.graph.trans hfed.graph
  have hapart : ∀ o ∈ erased, SetApart b o := fun o ho ↦
    hfed.setApart hp (fun x hx ↦ (hsound x hx).1) (hspared o ho).toSetApart
  have hends : ∀ o, (∃ feed ∈ found.feeds, feed ∈ b.resultsOf o) → b.isEnd o = false := by
    rintro o ⟨feed, hfeed, hresult⟩
    obtain ⟨d, hd, i, hi⟩ := hfeeds feed hfeed
    rw [hfed.resultsOf] at hresult
    obtain rfl := hp.eq_of_mem_resultsOf hresult (mem_of_getElem? hi)
    exact (htree.ends o).trans (hend o hd)
  have hterm := htrimmed.terminated (hfed.terminated hp (terminated_of_verify hp hverify)) hends
  refine ⟨hm, hterm, hgraph, ?_, hfed.sources, fun o ho ↦ ?_, fun x hx v hv ↦ ?_,
    fun x hx d hd ↦ ?_, fun v hv ↦ ?_, fun v hv hunfed ↦ ?_, fun o ho ↦ ?_⟩
  · rw [htrimmed.args, hfed.argsOf_graph hp]
  · have hlive := hm.isSome_of_mem_opsIn ho
    rw [hgraph, htrimmed.mem_opsIn hb hlive, htree.ops] at ho
    rw [isEnd, htrimmed.op?_of_live hlive]
    exact (htree.ends o).trans (hend o ho)
  · have hv' := hv
    rw [operandsOf, htrimmed.op?_of_live (hm.isSome_of_mem_allOps hx), ← operandsOf,
      hfed.operandsOf] at hv'
    obtain ⟨u, hu, rfl⟩ := mem_map.mp hv'
    have hx' := htree.symm.mem_allOps hb hp (htrimmed.attached hb hx)
    exact htrimmed.produced hb hapart hx hv (hfed.produced hp ((hsound x hx').1 u hu))
  · have hd' := hd
    rw [controlOf, htrimmed.op?_of_live (hm.isSome_of_mem_allOps hx), ← controlOf,
      hfed.controlOf] at hd'
    have hx' := htree.symm.mem_allOps hb hp (htrimmed.attached hb hx)
    refine htrimmed.awaited hb hapart hx hd ?_
    rw [hfed.op?, isSome_map]
    exact (hsound x hx').2 d hd'
  · obtain ⟨i, horigin⟩ := hfed.origin_standIn hp hv
    refine produced_iff.mpr (.inr ⟨p.graph, i, .graph, ?_, ?_, by simp⟩)
    · rw [htrimmed.values.originOf?, horigin]
    · rw [← hgraph, hm.placed.graph]
  · obtain ⟨o, ho, i, hi⟩ := hfetches v hv
    obtain ⟨before, hbefore, -⟩ := exists_op_of_parentOf? (hp.mem_opsIn.mp ho)
    have hlive := isSome_of_mem_graph hp hfed htrimmed ho fun herased ↦
      hunfed ((hspared o herased).fetched v hv (mem_of_getElem? hi))
    refine ⟨o, ?_, before, hbefore, ?_, ?_⟩
    · rw [htrimmed.mem_opsIn hb hlive, htree.ops]
      exact ho
    · rw [← resultsOf_eq hbefore]
      exact mem_of_getElem? hi
    · rw [htrimmed.op?_of_live hlive, hfed.op?, hbefore, map_some]
  · refine isSome_of_mem_graph hp hfed htrimmed (hcontrol o ho) fun herased ↦ ?_
    obtain ⟨earlier, -, hdropped⟩ := htrimmed.dropped_of_mem herased
    exact hdropped.spare ho

/-- An operation that has been erased had a fed result, which is no result of its handle any
more. -/
theorem Stages.exists_gone {func : Func} {last : OpId} {node : Operation}
    (h : Stages settings found replaced erased func last node p b m q) (ho : o ∈ erased) :
    ∃ feed ∈ found.feeds, feed ∈ p.resultsOf o ∧ feed ∉ q.resultsOf o := by
  obtain ⟨earlier, -, hdropped⟩ := h.trimmed.dropped_of_mem ho
  obtain ⟨feed, hfeed, hresult⟩ := hdropped.fed
  rw [h.fed.resultsOf] at hresult
  refine ⟨feed, hfeed, hresult, ?_⟩
  rw [resultsOf, h.closes.op?]
  split_ifs
  · simp [h.closes.bare]
  · simp [h.trimmed.gone o ho o .self]

lemma Prepared.operands (h : Prepared p found replaced m) {w : ValueId}
    (hw : w ∈ found.fetches.map (standIn replaced)) : Produced m w := by
  obtain ⟨v, hv, rfl⟩ := mem_map.mp hw
  by_cases hfed : v ∈ found.feeds
  · exact h.standIns v hfed
  · obtain ⟨o, -, before, -, hresult, hafter⟩ := h.fetched v hv hfed
    have hself : standIn replaced v = v := by
      refine standIn_of_not_mem fun hmem ↦ hfed ?_
      rwa [h.sources, mem_eraseDups] at hmem
    obtain ⟨i, hi⟩ := mem_iff_getElem?.mp hresult
    rw [hself]
    refine produced_iff.mpr (.inl ⟨o, i, h.consistent.placed.results o i v ?_, ?_⟩)
    · rw [resultsOf_eq hafter]
      exact hi
    · exact isSome_of_eq_some hafter

/-- If the operations of feeds that go are dispensable, a program that passes verification does so
after its graph has become a function. The function ends in an operation that is given, for each
fetch, the new argument that stands in for it if it is fed, and otherwise the value itself, which is
a result of the operation it was a result of, with stand-ins in the place of its operands, in the
body of the function. -/
theorem fetches_defined_of_run_ok {p q : Program} (h : Reachable p) (hverify : p.verify = .ok ())
    (hend : ∀ o ∈ p.opsIn p.graph, p.isEnd o = false) {settings : Settings} {found : Plan}
    (hplan : plan settings p = .ok found)
    {changed : Bool} (hok : (run settings).exec p = (.ok changed, q))
    (hspare : ∀ feed ∈ found.feeds, ∀ o, feed ∈ p.resultsOf o → feed ∉ q.resultsOf o →
      Dispensable p found o) : q.verify = .ok () ∧ ∃ replaced last,
      replaced.map Prod.fst = found.feeds.eraseDups ∧
      q.argsOf p.graph = p.argsOf p.graph ++ replaced.map Prod.snd ∧
      (∃ func ∈ q.funcs, func.name = settings.funcName ∧ func.body = p.graph) ∧
      q.terminator? p.graph = some last ∧ (q.operandsOf last).length = found.fetches.length ∧
      ∀ (i : Nat) v, found.fetches[i]? = some v → ∃ w, (q.operandsOf last)[i]? = some w ∧
        (v ∈ found.feeds → (v, w) ∈ replaced) ∧
        (v ∉ found.feeds → w = v ∧ ∃ o ∈ q.opsIn p.graph, ∃ before, p.op? o = some before ∧
          v ∈ before.results ∧
          q.op? o = some { before with operands := before.operands.map (standIn replaced) }) := by
  obtain ⟨_, q', hok', -, replaced, erased, func, last, node, b, m, hstages⟩ :=
    succeeds_run h.consistent hplan
  obtain rfl : q = q' := (Prod.mk.inj (hok.symm.trans hok')).2
  have hspared : ∀ o ∈ erased, Dispensable p found o := by
    intro o ho
    obtain ⟨feed, hfeed, hresult, hgone⟩ := hstages.exists_gone ho
    exact hspare feed hfeed o hresult hgone
  have hm := prepared_of_stages h.consistent hverify hend hplan hspared hstages.fed hstages.trimmed
  have hcloses := hstages.closes
  have hslots : q.operandsOf last = found.fetches.map (standIn replaced) := by
    rw [operandsOf_eq hcloses.op?_last, hstages.operands]
  have hcount : node.operands.length = func.resultTypes.length := by
    rw [hstages.operands, hstages.results, length_map]
  refine ⟨hcloses.verify hm.consistent hm.terminated hm.isEnd hcount hm.produced hm.awaited
    (fun w hw ↦ ?_) (fun o ho ↦ ?_), replaced, last, hm.sources, ?_,
    ⟨func, ?_, hstages.name, hcloses.body.trans hm.graph⟩, ?_, ?_, fun i v hv ↦ ?_⟩
  · rw [hstages.operands] at hw
    exact hm.operands hw
  · rw [hstages.control, mem_eraseDups] at ho
    exact hm.controlResults o ho
  · rw [hcloses.args, hm.args]
  · rw [hcloses.funcs]
    exact mem_append_right _ mem_cons_self
  · rw [← hm.graph]
    exact hcloses.terminator?_body
  · rw [hslots, length_map]
  · refine ⟨standIn replaced v, by rw [hslots, getElem?_map, hv]; rfl, fun hfed ↦
      ?_, fun hunfed ↦ ?_⟩
    · refine mem_of_mem_fst ?_
      rwa [hm.sources, mem_eraseDups]
    · obtain ⟨o, ho, before, hbefore, hresult, hafter⟩ := hm.fetched v (mem_of_getElem? hv) hunfed
      refine ⟨standIn_of_not_mem fun hmem ↦ hunfed ?_, o, ?_, before, hbefore, hresult, ?_⟩
      · rwa [hm.sources, mem_eraseDups] at hmem
      · rw [hcloses.opsIn, hm.graph, if_pos rfl]
        exact mem_append_left _ ho
      · rw [hcloses.op?_of_live (isSome_of_eq_some hafter), hafter]

/-- A source and an operation that uses its result. -/
def fedSource : Program :=
  .built [
    .append ⟨0⟩ { kind := "source", name := "in", resultTypes := [.unknown] },
    .append ⟨0⟩ { kind := "step", name := "out", operands := [⟨0⟩], resultTypes := [.unknown] }]

/-- The source is fed and goes. The result of the other operation is fetched and stays where it
was. -/
theorem fetches_defined_of_source :
    let p := fedSource
    let settings : Settings := { feeds := ["in"], fetches := ["out", "in"] }
    let q := ((run settings).exec p).2
    Reachable p ∧ p.verify = .ok () ∧ (run settings).exec p = (.ok true, q) ∧ q.argsOf ⟨0⟩ = [⟨2⟩] ∧
      q.verify = .ok () ∧ ∃ last, q.terminator? ⟨0⟩ = some last ∧
      (q.operandsOf last)[0]? = some ⟨1⟩ ∧ ∃ o ∈ q.opsIn ⟨0⟩, ⟨1⟩ ∈ q.resultsOf o := by
  intro p settings q
  have hreach : Reachable p := reachable_built _
  have hverify : p.verify = .ok () := eq_ok_of_toOption (by decide +kernel)
  have hok : (run settings).exec p = (.ok true, q) := exec_eq_ok (by decide +kernel)
  have hplan : plan settings p = .ok ⟨[⟨0⟩], [⟨1⟩, ⟨0⟩], []⟩ :=
    eq_ok_of_toOption (by decide +kernel)
  have hend : ∀ o ∈ p.opsIn p.graph, p.isEnd o = false := by decide +kernel
  have hspare : ∀ feed ∈ [ValueId.mk 0], ∀ o, feed ∈ p.resultsOf o → feed ∉ q.resultsOf o →
      Dispensable p ⟨[⟨0⟩], [⟨1⟩, ⟨0⟩], []⟩ o := by
    intro feed hfeed o hresult _
    obtain rfl := mem_singleton.mp hfeed
    have hsource : ⟨0⟩ ∈ p.resultsOf ⟨0⟩ := by decide +kernel
    obtain rfl := hreach.consistent.eq_of_mem_resultsOf hresult hsource
    have hused : ∀ x ∈ p.allOps, ∀ v ∈ p.operandsOf x, v ∈ p.resultsOf ⟨0⟩ := by decide +kernel
    have hwaits : ∀ x ∈ p.allOps, p.controlOf x = [] := by decide +kernel
    have hfetched : ∀ v ∈ p.resultsOf ⟨0⟩, v ∈ [ValueId.mk 0] := by decide +kernel
    refine ⟨⟨fun x hx _ v hv _ ↦ hused x hx v hv, fun x hx _ d hd _ ↦ ?_⟩, fun v _ ↦ hfetched v⟩
    rw [hwaits x hx] at hd
    cases hd
  obtain ⟨hsound, replaced, last, -, -, -, hlast, -, hslots⟩ :=
    fetches_defined_of_run_ok hreach hverify hend hplan hok hspare
  obtain ⟨w, hw, -, hunfed⟩ := hslots 0 ⟨1⟩ rfl
  obtain ⟨rfl, o, ho, before, -, hresult, hafter⟩ := hunfed (by decide)
  refine ⟨hreach, hverify, hok, by decide +kernel, hsound, last, hlast, hw, o, ho, ?_⟩
  rw [resultsOf_eq hafter]
  exact hresult

/-- One result of an operation is fed and the other one is fetched. The operation goes, and what
ends the function takes its handle: it is given a value that seems to be its own result, and passes
for sound. -/
theorem fetched_result_lost :
    let p := built
      [.append ⟨0⟩ { kind := "split", name := "a", resultTypes := [.unknown, .unknown] }]
    let settings : Settings := { feeds := ["a"], fetches := ["a:1"] }
    let q := ((run settings).exec p).2
    Reachable p ∧ p.verify = .ok () ∧ p.resultsOf ⟨0⟩ = [⟨0⟩, ⟨1⟩] ∧
      (run settings).exec p = (.ok true, q) ∧ q.verify = .ok () ∧ q.terminator? ⟨0⟩ = some ⟨0⟩ ∧
      q.operandsOf ⟨0⟩ = [⟨1⟩] ∧ q.originOf? ⟨1⟩ = some (.result ⟨0⟩ 1) ∧ q.resultsOf ⟨0⟩ = [] := by
  intro p settings q
  refine ⟨reachable_built _, eq_ok_of_toOption (by decide +kernel), by decide +kernel, exec_eq_ok
    (by decide +kernel), eq_ok_of_toOption (by decide +kernel), by decide +kernel⟩

end TensorGraph.GraphFunction
