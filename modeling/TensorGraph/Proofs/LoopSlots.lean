import TensorGraph.Pass.LoopSlots
import TensorGraph.Proofs.Rewriting

/-!
Slots of loops. The operand of a slot is available to the loop, so it is available in the regions of
the loop and to all that sees the loop.
-/

namespace TensorGraph

open List Option

variable {p q : Program} {o : OpId} {r body : RegionId} {index : Nat} {cond : RegionId}

namespace Program

section Loop

variable (h : WellOrdered p) (ho : o ∈ p.allOps) {func : Func} {v init : ValueId} {x : OpId}
  {node : Operation} {slot : Nat} {changed : Bool}

include h

lemma WellOrdered.ne_body (hr : r ∈ p.regionsOf o) (hfunc : func ∈ p.funcs) : func.body ≠ r := by
  rintro rfl
  have howner := h.consistent.mem_regionsOf.mp hr
  have hroot : func.body ∈ p.roots := mem_cons_of_mem _ (mem_map_of_mem hfunc)
  rw [h.consistent.parentOp?_of_root hroot] at howner
  cases howner

include ho

lemma WellOrdered.available_of_use_arg (hr : r ∈ p.regionsOf o)
    {arg : ValueId} (harg : arg ∈ p.argsOf r) (hv : Available p o v) (hx : x ∈ p.allOps)
    (huse : arg ∈ p.operandsOf x) : Available p x v := by
  have hp := h.consistent
  obtain ⟨a, hanc⟩ := (h.scoping.operands x hx arg huse).exists_ancestorIn_of_mem_args hp harg
  obtain ⟨home, -, hparent⟩ := (mem_allOps hp).mp ho
  have habove : AncestorIn p home a o := .up hanc.parentOf? (hp.mem_regionsOf.mp hr) (.here hparent)
  exact .of_ancestor (hanc.trans habove) hv

end Loop

lemma WellOrdered.available_of_use_result (h : WellOrdered p)
    {result : ValueId} (hresult : result ∈ p.resultsOf o) (hv : Available p o v) (hx : x ∈ p.allOps)
    (huse : result ∈ p.operandsOf x) : Available p x v :=
  .trans h.consistent
    ((h.scoping.operands x hx result huse).sees_of_mem_results h.consistent hresult) hv

end Program

namespace Edit

open Program

variable (h : WellOrdered p)

include h

lemma wellOrdered_removeOperand (hok : (removeOperand o index).exec p = (.ok ⟨⟩, q))
    (hreturn : ∀ func ∈ p.funcs, p.terminator? func.body ≠ some o) :
    WellOrdered q ∧ SameTree p q := by
  obtain ⟨old, hold, rfl⟩ := does_removeOperand.of_ok hok
  exact ⟨h.withoutOperand hold hreturn, .withoutOperand p o index old⟩

lemma wellOrdered_removeResult (hok : (removeResult o index).exec p = (.ok ⟨⟩, q)) :
    WellOrdered q ∧ SameTree p q := by
  obtain ⟨v, hv, -, hunused, rfl⟩ := does_removeResult.of_ok hok
  exact ⟨h.withoutResult hv hunused, .withoutResult p o index⟩

lemma wellOrdered_removeArg (hok : (removeArg r index).exec p = (.ok ⟨⟩, q))
    (hbody : ∀ func ∈ p.funcs, func.body ≠ r) : WellOrdered q ∧ SameTree p q := by
  obtain ⟨v, hv, -, hunused, rfl⟩ := does_removeArg.of_ok hok
  exact ⟨h.withoutArg hv hunused hbody, .withoutArg p r index⟩

end Edit

namespace LoopSlots

open Program Edit

lemma loopOf?_eq_some {loop : Loop} (hloop : loopOf? p node = some loop) :
    node.regions = [loop.cond, loop.body] ∧ loop.condArgs = p.argsOf loop.cond ∧
    loop.bodyArgs = p.argsOf loop.body := by
  unfold loopOf? at hloop
  split at hloop
  · next cond body hregions =>
    simp only [bind_eq_bind, bind_eq_some_iff] at hloop
    obtain ⟨condRegion, hcond, bodyRegion, hbody, last, -, lastNode, -, hshape⟩ := hloop
    split_ifs at hshape
    cases hshape
    exact ⟨hregions, (argsOf_eq hcond).symm, (argsOf_eq hbody).symm⟩
  · cases hloop

lemma mem_operandsOf_of_redirects {old : ValueId}
    (hr : Redirects old init p q) (hinit : init ∈ p.operandsOf o) : init ∈ q.operandsOf o := by
  rw [hr.operands, List.mem_map]
  refine ⟨init, hinit, ?_⟩
  unfold redirect
  split_ifs
  · rfl
  · rfl

section Slot

variable (h : WellOrdered p) (ho : o ∈ p.allOps)

include h ho

lemma wellOrdered_redirectSlot (hcond : cond ∈ p.regionsOf o) (hbody : body ∈ p.regionsOf o)
    {condArg bodyArg result : ValueId} (hinit : init ∈ p.operandsOf o)
    (hcondArg : condArg ∈ p.argsOf cond) (hbodyArg : bodyArg ∈ p.argsOf body)
    (hresult : result ∈ p.resultsOf o)
    {m n : Program} (hfirst : (replaceUses bodyArg init).exec p = (.ok ⟨⟩, m))
    (hsecond : (replaceUses condArg init).exec m = (.ok ⟨⟩, n))
    (hthird : (replaceUses result init).exec n = (.ok ⟨⟩, q)) : WellOrdered q ∧ SameTree p q := by
  obtain ⟨hm, hpm⟩ := wellOrdered_replaceUses h hfirst fun x hx huse ↦
    h.available_of_use_arg ho hbody hbodyArg (h.scoping.operands o ho init hinit) hx huse
  have hom := hpm.tree.mem_allOps h.consistent hm.consistent ho
  have hinitm := mem_operandsOf_of_redirects hpm hinit
  obtain ⟨hn, hmn⟩ := wellOrdered_replaceUses hm hsecond fun x hx huse ↦ hm.available_of_use_arg hom
    (hpm.tree.regions o ▸ hcond) (hpm.args cond ▸ hcondArg)
    (hm.scoping.operands o hom init hinitm) hx huse
  have hon := hmn.tree.mem_allOps hm.consistent hn.consistent hom
  have hinitn := mem_operandsOf_of_redirects hmn hinitm
  have hresultn : result ∈ n.resultsOf o := by
    rw [hmn.results, hpm.results]
    exact hresult
  obtain ⟨hq, hnq⟩ := wellOrdered_replaceUses hn hthird fun x hx huse ↦
    hn.available_of_use_result hresultn (hn.scoping.operands o hon init hinitn) hx huse
  exact ⟨hq, (hpm.tree.trans hmn.tree).trans hnq.tree⟩

end Slot

lemma terminator_ne_of_mem_regionsOf (h : WellOrdered p) {last : OpId}
    (hbody : body ∈ p.regionsOf o) (hlast : p.terminator? body = some last)
    (hfunc : func ∈ p.funcs) : p.terminator? func.body ≠ some last := by
  intro hreturn
  have hin := h.consistent.mem_opsIn.mp (mem_of_getLast? (terminator?_eq_some.mp hlast).1)
  have hin' := h.consistent.mem_opsIn.mp (mem_of_getLast? (terminator?_eq_some.mp hreturn).1)
  exact h.ne_body hbody hfunc (some.inj (hin'.symm.trans hin))

lemma wellOrdered_dropSlot (h : WellOrdered p) (hcond : cond ∈ p.regionsOf o)
    (hbody : body ∈ p.regionsOf o) (hend : p.isEnd o = false) (hok : (do
      removeArg cond slot
      removeArg body slot
      removeOperand o slot
      removeResult o slot : Edit Unit).exec p = (.ok ⟨⟩, q)) : WellOrdered q ∧ SameTree p q := by
  obtain ⟨_, m, hfirst, hok⟩ := exec_bind_ok.mp hok
  obtain ⟨hm, hpm⟩ := wellOrdered_removeArg h hfirst fun _ ↦ h.ne_body hcond
  obtain ⟨_, n, hsecond, hok⟩ := exec_bind_ok.mp hok
  have hbodym : body ∈ m.regionsOf o := hpm.regions o ▸ hbody
  obtain ⟨hn, hmn⟩ := wellOrdered_removeArg hm hsecond fun _ ↦ hm.ne_body hbodym
  obtain ⟨_, l, hthird, hlast⟩ := exec_bind_ok.mp hok
  have hendn : n.isEnd o = false := by
    rw [hmn.ends, hpm.ends]
    exact hend
  obtain ⟨hl, hnl⟩ := wellOrdered_removeOperand hn hthird fun _ _ hreturn ↦
    nomatch (terminator?_eq_some.mp hreturn).2.symm.trans hendn
  obtain ⟨hq, hlq⟩ := wellOrdered_removeResult hl hlast
  exact ⟨hq, ((hpm.trans hmn).trans hnl).trans hlq⟩

lemma wellOrdered_removeSlot (h : WellOrdered p) (ho : o ∈ p.allOps) (hend : p.isEnd o = false)
    (hok : (removeSlot o slot).exec p = (.ok ⟨⟩, q)) : WellOrdered q ∧ SameTree p q := by
  unfold removeSlot at hok
  rcases hnode : p.op? o with _ | node
  · rw [bind_readOp_none hnode] at hok
    cases hok
  rw [bind_readOp hnode, exec_get_bind] at hok
  split at hok
  · next loop init result hloop hinit hresult =>
    obtain ⟨hregions, hcondArgs, hbodyArgs⟩ := loopOf?_eq_some hloop
    split at hok
    · next condArg bodyArg hcondArg hbodyArg =>
      obtain ⟨_, k, hfirst, hok⟩ := exec_bind_ok.mp hok
      obtain ⟨_, l, hsecond, hok⟩ := exec_bind_ok.mp hok
      obtain ⟨_, m, hthird, hok⟩ := exec_bind_ok.mp hok
      have hcond : loop.cond ∈ p.regionsOf o := by
        rw [regionsOf_eq hnode, hregions]
        simp
      have hbody : loop.body ∈ p.regionsOf o := by
        rw [regionsOf_eq hnode, hregions]
        simp
      obtain ⟨hm, hpm⟩ := wellOrdered_redirectSlot h ho hcond hbody
        (operandsOf_eq hnode ▸ mem_of_getElem? hinit) (hcondArgs ▸ mem_of_getElem? hcondArg)
        (hbodyArgs ▸ mem_of_getElem? hbodyArg) (resultsOf_eq hnode ▸ mem_of_getElem? hresult)
        hfirst hsecond hthird
      rw [exec_get_bind] at hok
      have hcondm : loop.cond ∈ m.regionsOf o := hpm.regions o ▸ hcond
      have hbodym : loop.body ∈ m.regionsOf o := hpm.regions o ▸ hbody
      have hendm : m.isEnd o = false := (hpm.ends o).trans hend
      dsimp only at hok
      split at hok
      · next last hlast =>
        obtain ⟨_, n, hreturn, hok⟩ := exec_bind_ok.mp hok
        obtain ⟨hn, hmn⟩ := wellOrdered_removeOperand hm hreturn fun _ ↦
          terminator_ne_of_mem_regionsOf hm hbodym hlast
        obtain ⟨hq, hnq⟩ := wellOrdered_dropSlot hn (hmn.regions o ▸ hcondm)
          (hmn.regions o ▸ hbodym) ((hmn.ends o).trans hendm) hok
        exact ⟨hq, (hpm.trans hmn).trans hnq⟩
      · obtain ⟨hq, hmq⟩ := wellOrdered_dropSlot hm hcondm hbodym hendm hok
        exact ⟨hq, hpm.trans hmq⟩
    · cases hok
      exact ⟨h, .refl p⟩
  · cases hok
    exact ⟨h, .refl p⟩

lemma isEnd_of_kind (hnode : p.op? o = some node)
    (hkind : node.kind = "WhileRegion") : p.isEnd o = false := by
  rw [isEnd, hnode]
  simp [Operation.isTerminator, hkind, returnKind, yieldKind]

lemma wellOrdered_simplifyLoop (h : WellOrdered p) (ho : o ∈ p.allOps)
    (hok : (simplifyLoop o).exec p = (.ok changed, q)) : WellOrdered q ∧ SameTree p q := by
  unfold simplifyLoop at hok
  rcases hnode : p.op? o with _ | node
  · rw [bind_readOp_none hnode] at hok
    cases hok
  rw [bind_readOp hnode] at hok
  split_ifs at hok with hkind
  · cases hok
    exact ⟨h, .refl p⟩
  have hend := isEnd_of_kind hnode (of_not_not hkind)
  rw [exec_get_bind, exec_bind_ok] at hok
  obtain ⟨_, m, hloop, hdone⟩ := hok
  cases hdone
  refine forM_ok (I := fun _ m ↦ WellOrdered m ∧ SameTree p m) (fun slot _ l n hl hstep ↦ ?_)
    ⟨h, .refl p⟩ hloop
  obtain ⟨hl, hpl⟩ := hl
  obtain ⟨hn, hln⟩ := wellOrdered_removeSlot hl (hpl.mem_allOps h.consistent hl.consistent ho)
    ((hpl.ends o).trans hend) hstep
  exact ⟨hn, hpl.trans hln⟩

lemma wellOrdered_run (h : WellOrdered p) (hok : run.exec p = (.ok changed, q)) :
    WellOrdered q := by
  have hloop : (anyChange p.allOps simplifyLoop).exec p = (.ok changed, q) := hok
  have hdone := anyChange_ok (I := fun rest m ↦ WellOrdered m ∧ SameTree p m ∧ rest ⊆ p.allOps)
    (fun o rest m n _ hm hstep ↦ ?_) ⟨h, .refl p, Subset.refl _⟩ hloop
  · exact hdone.1
  · obtain ⟨hm, hpm, hrest⟩ := hm
    have ho := hpm.mem_allOps h.consistent hm.consistent (hrest mem_cons_self)
    obtain ⟨hn, hmn⟩ := wellOrdered_simplifyLoop hm ho hstep
    exact ⟨hn, hpm.trans hmn, Subset.trans (subset_cons_self _ _) hrest⟩

lemma keeps_reachable_removeSlot (o : OpId) (slot : Nat) : Keeps Reachable (removeSlot o slot) := by
  have hrest : ∀ loop : Loop, Keeps Reachable (do
      removeArg loop.cond slot
      removeArg loop.body slot
      removeOperand o slot
      removeResult o slot : Edit Unit) := by
    intro loop
    exact .bind (.reachable (.removeArg loop.cond slot) rfl) fun _ ↦
      .bind (.reachable (.removeArg loop.body slot) rfl) fun _ ↦
      .bind (.reachable (.removeOperand o slot) rfl) fun _ ↦ .reachable (.removeResult o slot) rfl
  refine .bind (.read _) fun node ↦ .bind .get fun p ↦ ?_
  split
  · next loop init result _ _ _ =>
    split
    · next condArg bodyArg _ _ =>
      refine .bind (.reachable (.replaceUses bodyArg init) rfl) fun _ ↦ .bind
        (.reachable (.replaceUses condArg init) rfl) fun _ ↦
        .bind (.reachable (.replaceUses result init) rfl) fun _ ↦ .bind .get fun m ↦ ?_
      dsimp only
      split
      · next last _ =>
        exact .bind (.reachable (.removeOperand last slot) rfl) fun _ ↦ hrest loop
      · exact hrest loop
    · exact .pure _
  · exact .pure _

lemma keeps_reachable_run : Keeps Reachable run := by
  refine .bind .get fun _ ↦ .anyChange (fun o ↦ ?_) _
  refine .bind (.read _) fun node ↦ ?_
  split_ifs
  · exact .pure _
  · exact .bind .get fun _ ↦ .bind (.forM (keeps_reachable_removeSlot o) _) fun _ ↦ .pure _

end LoopSlots

end TensorGraph
