import TensorGraph.Proofs.Destruction
import TensorGraph.Proofs.Fusion
import TensorGraph.Proofs.SlotRemoval
import TensorGraph.Proofs.Successes

/-!
The replacement of a chain. First the fused operation is made, takes over the results of the root
and is waited for in its place; `Rewired` says what the program is like then.
-/

namespace TensorGraph.Fusion

open Program Edit List

variable {p q : Program} {o x : OpId} {chain : Match} {node : Operation}

/-! ### Results taken over -/

/-- The value that a value is replaced by when values from `start` on stand for the old ones. -/
def moved (olds : List ValueId) (start : Nat) (v : ValueId) : ValueId :=
  if v ∈ olds then ⟨start + olds.idxOf v⟩ else v

lemma moved_redirect {old : ValueId} {rest : List ValueId} {start : Nat}
    (hlt : ∀ v ∈ rest, v.index < start) (v : ValueId) : moved rest (start + 1)
    (redirect old ⟨start⟩ v) = moved (old :: rest) start v := by
  unfold moved redirect
  by_cases hv : v = old
  · have hstart : (⟨start⟩ : ValueId) ∉ rest := fun hmem ↦ Nat.lt_irrefl _ (hlt _ hmem)
    rw [if_pos hv, if_neg hstart, hv, if_pos mem_cons_self, idxOf_cons_self, Nat.add_zero]
  · rw [if_neg hv, idxOf_cons_ne rest (Ne.symm hv)]
    simp only [mem_cons, hv, false_or]
    split_ifs
    · exact congrArg ValueId.mk (by omega)
    · rfl

lemma succeeds_takeOver {fused : OpId} {olds : List ValueId} {start place : Nat} (hp : p.Consistent)
    (hlt : ∀ v ∈ olds, v.index < start)
    (hnew : ∀ i < olds.length, (p.resultsOf fused)[place + i]? = some ⟨start + i⟩) :
    Succeeds (takeOver fused (olds.zipIdx place)) p fun _ q ↦ q.Consistent ∧ q.roots = p.roots ∧
    SameValues p q ∧ ∀ x, q.op? x = (p.op? x).map fun node ↦
    { node with operands := node.operands.map (moved olds start) } := by
  induction olds generalizing start place p with
  | nil =>
    refine .of_ok rfl ⟨hp, rfl, .refl p, fun x ↦ ?_⟩
    have hid : moved [] start = id := rfl
    simp [hid]
  | cons old rest ih =>
    have hhead := hnew 0 (Nat.succ_pos _)
    rw [Nat.add_zero, Nat.add_zero] at hhead
    have hresult : p.result fused place = .ok ⟨start⟩ := by
      cases hnode : p.op? fused with
      | none => simp [resultsOf, hnode] at hhead
      | some node =>
        rw [resultsOf_eq hnode] at hhead
        simp [result, op, hnode, hhead, bind, Except.bind, pure, Except.pure]
    obtain ⟨hold, hrest⟩ := forall_mem_cons.mp hlt
    have hne : old ≠ ⟨start⟩ := fun heq ↦ by
      rw [heq] at hold
      exact Nat.lt_irrefl _ hold
    have horigin := hp.placed.results _ _ _ hhead
    have hlive : (p.value? ⟨start⟩).isSome := isSome_value?_of_originOf? horigin
    have hvalue : (p.value? old).isSome := by
      rw [value?, getElem?_eq_getElem (Nat.lt_trans hold (lt_of_originOf? horigin))]
      rfl
    have hresults : ∀ x, (p.redirected old ⟨start⟩).resultsOf x = p.resultsOf x := fun x ↦ by
      rw [resultsOf, op?_redirected hp.uses hne, Option.map_map, resultsOf]
      rfl
    have hvalues := SameValues.redirected p old ⟨start⟩
    refine .bind (Q := fun _ q ↦ q = p.redirected old ⟨start⟩)
      (.read_bind hresult (.of_ok (replaceUses_exec hvalue hlive hne) rfl)) fun _ q hq ↦ ?_
    subst hq
    have hnext : ∀ i < rest.length, ((p.redirected old ⟨start⟩).resultsOf fused)[place + 1 + i]? =
        some ⟨start + 1 + i⟩ := by
      intro i hi
      rw [hresults, Nat.add_right_comm, Nat.add_assoc, hnew (i + 1) (Nat.succ_lt_succ hi)]
      exact congrArg (fun n ↦ some (ValueId.mk n)) (by omega)
    refine (ih (hp.redirected hlive hne) (fun v hv ↦ Nat.lt_succ_of_lt (hrest v hv)) hnext).imp ?_
    rintro _ q ⟨hq, hroots, hsame, hop⟩
    refine ⟨hq, hroots.trans (Redirects.redirected hp.uses hne).tree.frame.roots,
      hvalues.trans hsame, fun x ↦ ?_⟩
    rw [hop, op?_redirected hp.uses hne, Option.map_map]
    refine congrArg (Option.map · _) (funext fun node ↦ ?_)
    rw [Function.comp_apply, map_map]
    refine congrArg (fun operands ↦ { node with operands }) (map_congr_left fun v _ ↦ ?_)
    exact moved_redirect hrest v

section Moved

variable {olds : List ValueId} {start : Nat} {v w : ValueId}

lemma moved_not_mem (hlt : ∀ v ∈ olds, v.index < start) (v : ValueId) :
    moved olds start v ∉ olds := by
  unfold moved
  split_ifs with hv
  · intro hmem
    have hbound : start + olds.idxOf v < start := hlt _ hmem
    omega
  · exact hv

lemma eq_of_moved_eq (hw : w.index < start) (h : moved olds start v = w) : v = w := by
  unfold moved at h
  split_ifs at h with hv
  · rw [← h] at hw
    exact absurd hw (by simp)
  · exact h

end Moved

/-! ### The fused operation -/

structure Rewired (p : Program) (chain : Match) (node : Operation) (q : Program) : Prop where
  consistent : q.Consistent
  roots : q.roots = p.roots
  fused : ∃ new, q.op? p.nextOp = some new ∧ new.kind = chain.replacement.kind ∧
    new.operands = chain.replacement.operands.map (moved node.results p.values.length) ∧
    new.results = (List.range node.results.length).map fun i ↦ ⟨p.values.length + i⟩
  leaf : q.regionsOf p.nextOp = []
  others : ∀ x, x ≠ p.nextOp → q.op? x = (p.op? x).map fun node' ↦ { node' with
    operands := node'.operands.map (moved node.results p.values.length)
    control := q.controlOf x }
  waits : ∀ x, x ≠ p.nextOp → ∀ d, d ∈ q.controlOf x ↔
    ∃ e ∈ p.controlOf x, (if e = chain.root then p.nextOp else e) = d
  waitsFused : ∀ d, d ∈ q.controlOf p.nextOp ↔ d ∈ chainControl p (chain.interior ++ [chain.root])
  values : ∀ v, v.index < p.values.length →
    q.typeOf? v = p.typeOf? v ∧ q.originOf? v = p.originOf? v
  types : ∀ i v, node.results[i]? = some v → q.typeOf? ⟨p.values.length + i⟩ = p.typeOf? v

namespace Rewired

section Reading

variable (hp : p.Consistent) (hfound : chain.Found p) (h : Rewired p chain node q)

include hfound hp in
lemma ne_nextOp (ho : o ∈ chain.interior ++ [chain.root]) : o ≠ p.nextOp := by
  rintro rfl
  have hlive := hfound.isSome_op? ho
  rw [hp.uses.free.op?_nextOp] at hlive
  cases hlive

include h

lemma resultsOf (hx : x ≠ p.nextOp) : q.resultsOf x = p.resultsOf x := by
  rw [Program.resultsOf, h.others x hx, Option.map_map, Program.resultsOf]
  rfl

lemma operandsOf (hx : x ≠ p.nextOp) : q.operandsOf x =
    (p.operandsOf x).map (moved node.results p.values.length) := by
  rw [Program.operandsOf, h.others x hx, Option.map_map, Program.operandsOf]
  cases p.op? x <;> rfl

lemma operandsOf_fused : q.operandsOf p.nextOp = chain.replacement.operands.map
    (moved node.results p.values.length) := by
  obtain ⟨new, hnew, -, hoperands, -⟩ := h.fused
  rw [operandsOf_eq hnew, hoperands]

include hp hfound in
lemma free (ho : o ∈ chain.interior ++ [chain.root]) (x : OpId) : o ∉ q.controlOf x := by
  intro hmem
  by_cases hx : x = p.nextOp
  · rw [hx, h.waitsFused] at hmem
    exact (mem_chainControl.mp hmem).2 ho
  · obtain ⟨e, he, heq⟩ := (h.waits x hx o).mp hmem
    split_ifs at heq with hroot
    · exact ne_nextOp hp hfound ho heq.symm
    · subst heq
      rcases mem_append.mp ho with ho | ho
      · exact hfound.free ho x he
      · exact hroot (mem_singleton.mp ho)

end Reading

end Rewired

section Steps

variable (hp : p.Consistent) (hnode : p.op? chain.root = some node) {m : Program}
  (hinsert : (insertOpBefore chain.root (chain.newOp p node)).exec p = (.ok p.nextOp, m))

include hp hnode hinsert

lemma succeeds_takeOver_results : Succeeds (takeOver p.nextOp node.results.zipIdx) m fun _ n ↦
    n.Consistent ∧ n.roots = m.roots ∧ SameValues m n ∧
    (∀ x, x ≠ p.nextOp → n.op? x = (p.op? x).map fun node' ↦
        { node' with operands := node'.operands.map (moved node.results p.values.length) }) ∧
      ∃ r, n.op? p.nextOp = some { p.nodeOf r (chain.newOp p node) with
        operands := chain.replacement.operands.map (moved node.results p.values.length) } := by
  have hm := (makes_insertOpBefore _ _).keeps.of_ok hp hinsert
  obtain ⟨r, -, -, -, -, -, rfl⟩ := does_insertOpBefore.of_ok hinsert
  have hop := hp.uses.free.op?_withOp r ((p.opsIn r).idxOf chain.root) (chain.newOp p node)
  refine (succeeds_takeOver hm (fun _ ↦ hp.lt_of_mem_results hnode) fun i hi ↦ ?_).imp ?_
  · rw [resultsOf, hop, if_pos rfl, Nat.zero_add]
    simp [nodeOf, Match.newOp, hi]
  · rintro _ n ⟨hn, hroots, hvalues, hop'⟩
    refine ⟨hn, hroots, hvalues, fun x hx ↦ ?_, r, ?_⟩
    · rw [hop', hop, if_neg hx]
    · rw [hop', hop, if_pos rfl]
      rfl

lemma rewired_of_ok {n : Program}
    (htake : (takeOver p.nextOp node.results.zipIdx).exec m = (.ok ⟨⟩, n))
    (hreplace : (replaceControl chain.root p.nextOp).exec n = (.ok ⟨⟩, q)) :
    Rewired p chain node q := by
  obtain ⟨_, n', htake', hn, hroots, hvalues, hothers, home, hfused⟩ :=
    succeeds_takeOver_results hp hnode hinsert
  cases htake.symm.trans htake'
  obtain ⟨r, -, -, -, -, -, rfl⟩ := does_insertOpBefore.of_ok hinsert
  have hwaits : ∀ x, x ≠ p.nextOp → n.controlOf x = p.controlOf x := by
    intro x hx
    rw [controlOf, hothers x hx, Option.map_map, controlOf]
    rfl
  have hwaitsFused : n.controlOf p.nextOp =
      (chainControl p (chain.interior ++ [chain.root])).eraseDups :=
    controlOf_eq hfused
  have hroot : chain.root ∉ n.controlOf p.nextOp := by
    rw [hwaitsFused, mem_eraseDups, mem_chainControl]
    simp
  obtain ⟨hsame, -⟩ := replaceControl_ok hreplace
  have hmem := mem_controlOf_replaceControl hroot hreplace
  have hall := hvalues.trans (.of_sameButControl hsame)
  refine ⟨hsame.consistent hn, hsame.sameTree.frame.roots.trans (hroots.trans ?_), ?_, ?_,
    fun x hx ↦ ?_, fun x hx d ↦ ?_, fun d ↦ ?_, fun v hv ↦ ?_, fun i v hv ↦ ?_⟩
  · rw [roots, funcs_withOp, graph_withOp, roots]
  · rw [hsame.op?, hfused]
    refine ⟨_, rfl, rfl, rfl, ?_⟩
    simp [nodeOf, Match.newOp]
  · rw [hsame.sameTree.regions, regionsOf_eq hfused]
    exact regions_nodeOf (p := p) (r := home) (chain.newOp p node)
  · rw [hsame.op?, hothers x hx, Option.map_map]
    rfl
  · rw [hmem, hwaits x hx]
  · rw [hmem, exists_replaced_iff hroot, hwaitsFused, mem_eraseDups]
  · rw [hall.typeOf?, hall.originOf?, typeOf?_withOp, originOf?_withOp, if_pos hv, if_pos hv]
    exact ⟨rfl, rfl⟩
  · have hv' := hp.lt_of_mem_results hnode (mem_of_getElem? hv)
    rw [hall.typeOf?, typeOf?_withOp, if_neg (by simp), typeOf?_eq_typeAt hv']
    simp [Match.newOp, hv]

end Steps

/-! ### The end of a chain -/

lemma eraseOp_of_leaf (hp : p.Consistent) (hleaf : p.regionsOf o = [])
    (hfree : ∀ x, o ∉ p.controlOf x) (hok : (eraseOp o).exec p = (.ok ⟨⟩, q)) :
    q.Consistent ∧ q.roots = p.roots ∧ SameValues p q ∧
    ∀ x, q.op? x = if x = o then none else p.op? x := by
  obtain ⟨-, -, hfuncs, hgraph⟩ := eraseOp_rest hp hok
  refine ⟨(keeps_eraseOp o).of_ok hp hok, by rw [roots, hfuncs, hgraph, roots], .of_eraseOp hok,
    fun x ↦ ?_⟩
  obtain ⟨hgone, hkept⟩ := eraseOp_op? hp hok x
  split_ifs with hx
  · exact hgone (hx ▸ .self)
  · rw [hkept fun hholds ↦ hx (hholds.eq_of_leaf hleaf)]
    cases hnode : p.op? x with
    | none => rfl
    | some other =>
      have hwaits := hfree x
      rw [controlOf_eq hnode] at hwaits
      rw [Option.map_some, if_neg hwaits]

lemma eraseAll_of_leaves {l : List OpId} (hp : p.Consistent) (hleaf : ∀ o ∈ l, p.regionsOf o = [])
    (hfree : ∀ o ∈ l, ∀ x, o ∉ p.controlOf x) (hok : (l.forM eraseOp).exec p = (.ok ⟨⟩, q)) :
    q.Consistent ∧ q.roots = p.roots ∧ SameValues p q ∧
    ∀ x, q.op? x = if x ∈ l then none else p.op? x := by
  induction l generalizing p with
  | nil =>
    obtain rfl : p = q := (Prod.mk.inj hok).2
    exact ⟨hp, rfl, .refl p, fun x ↦ (if_neg not_mem_nil).symm⟩
  | cons o rest ih =>
    rw [forall_mem_cons] at hleaf hfree
    rw [exec_forM_cons, exec_bind_ok] at hok
    obtain ⟨_, m, hfirst, hrest⟩ := hok
    obtain ⟨hm, hroots, hvalues, hop⟩ := eraseOp_of_leaf hp hleaf.1 hfree.1 hfirst
    have hlater := ih hm (fun x hx ↦ ?_) (fun x hx y hy ↦ ?_) hrest
    · obtain ⟨hq, hroots', hvalues', hop'⟩ := hlater
      refine ⟨hq, hroots'.trans hroots, hvalues.trans hvalues', fun x ↦ ?_⟩
      by_cases hx : x = o
      · simp [hop', hop, hx]
      · simp [hop', hop, hx]
    · have hx' := hleaf.2 x hx
      rw [regionsOf, hop]
      split_ifs
      · rfl
      · exact hx'
    · rw [controlOf, hop] at hy
      split_ifs at hy
      · cases hy
      · exact hfree.2 x hx y hy

lemma rewired_of_fuse (hp : p.Consistent) (hfound : chain.Found p)
    (hleaf : p.regionsOf chain.root = []) (hok : (fuse chain).exec p = (.ok ⟨⟩, q)) :
    ∃ node m, p.op? chain.root = some node ∧ Rewired p chain node m ∧ q.Consistent ∧
      q.roots = m.roots ∧ SameValues m q ∧
      ∀ x, q.op? x = if x ∈ chain.interior ++ [chain.root] then none else m.op? x := by
  obtain ⟨node, _, _, m, hnode, -, hinsert, htake, hreplace, herase⟩ := fuse_ok hp hok
  have h := rewired_of_ok hp hnode hinsert htake hreplace
  have hgone := eraseAll_of_leaves h.consistent (fun o ho ↦ ?_)
    (fun o ho ↦ h.free hp hfound (mem_ops_iff.mp ho)) herase
  · obtain ⟨hq, hroots, hvalues, hop⟩ := hgone
    exact ⟨node, m, hnode, h, hq, hroots, hvalues, fun x ↦
      (hop x).trans (if_congr mem_ops_iff rfl rfl)⟩
  · rw [regionsOf, h.others o (Rewired.ne_nextOp hp hfound (mem_ops_iff.mp ho)), Option.map_map]
    change p.regionsOf o = []
    rcases mem_cons.mp ho with rfl | ho
    · exact hleaf
    · obtain ⟨other, hother, -, hregions⟩ := hfound.interior (mem_reverse.mp ho)
      rw [regionsOf_eq hother, hregions]

end TensorGraph.Fusion
