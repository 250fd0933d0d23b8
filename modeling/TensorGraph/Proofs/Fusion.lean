import TensorGraph.Proofs.Annotations
import TensorGraph.Proofs.ChainMatches

/-!
Fusing chains. The root of a chain sees the other operations of the chain, so all that the chain
refers to is available to the root, and the fused operation can stand right in front of it.
-/

namespace TensorGraph

open List

variable {p q : Program} {o fused d root : OpId} {node : Operation} {ops : List OpId}
  {l : List (ValueId × Nat)} {changed : Bool} {chain : Match}

namespace Program

lemma isEnd_eq_false (hnode : p.op? o = some node)
    (hkind : node.kind ≠ returnKind ∧ node.kind ≠ yieldKind) : p.isEnd o = false := by
  rw [isEnd, hnode]
  simp [Operation.isTerminator, hkind]

lemma Sees.mem_allOps (h : p.Consistent) (ho : o ∈ p.allOps) (hsees : Sees p o d) :
    d ∈ p.allOps := by
  obtain ⟨home, ⟨n, hhome⟩, hparent⟩ := (Program.mem_allOps h).mp ho
  obtain ⟨r, a, hanc, hbefore⟩ := hsees
  obtain ⟨m, -, hat⟩ := hanc.exists_attachedAt h hparent hhome
  exact (Program.mem_allOps h).mpr ⟨r, ⟨m, hat⟩, h.mem_opsIn.mp hbefore.mem_left⟩

end Program

namespace Fusion

open Program Edit

/-! ### Chains in order -/

section Rules

variable (h : WellOrdered p)

include h

lemma Produces.sees {v : ValueId} {consumer : OpId} {kinds : List String}
    (hproduces : Produces p v consumer kinds o) (hconsumer : consumer ∈ p.allOps) :
    Sees p consumer o := by
  have hp := h.consistent
  obtain ⟨index, horigin⟩ := hproduces.origin
  rcases h.scoping.operands consumer hconsumer v ((hproduces.mem_operandsOf_iff hp).mpr rfl) with
    ⟨r, a, -, harg⟩ | ⟨d, hresult, hsees⟩
  · -- The value is recorded as a result, so it is no argument.
    obtain ⟨place, hplace⟩ := hp.origin_of_mem_argsOf harg
    cases horigin.symm.trans hplace
  · obtain ⟨place, hplace⟩ := hp.origin_of_mem_resultsOf hresult
    cases horigin.symm.trans hplace
    exact hsees

lemma Links.sees {rest : List OpId} {outer : List ValueId} (hlinks : Links p root rest outer)
    (hroot : root ∈ p.allOps) : (∀ o ∈ rest, Sees p root o) ∧ ∀ v ∈ outer, Available p root v := by
  have hp := h.consistent
  induction hlinks with
  | source o => exact ⟨fun _ ho ↦ absurd ho not_mem_nil, h.scoping.operands o hroot⟩
  | link hproduces _ _ ih =>
    have hsees := hproduces.sees h hroot
    obtain ⟨hrest, houter⟩ := ih (hsees.mem_allOps hp hroot)
    refine ⟨fun o ho ↦ ?_, fun v hv ↦ ?_⟩
    · rcases mem_cons.mp ho with rfl | ho
      · exact hsees
      · exact hsees.trans hp (hrest o ho)
    · rcases mem_append.mp hv with hv | hv
      · exact .trans hp hsees (houter v hv)
      · exact h.scoping.operands _ hroot v (mem_of_mem_erase hv)

end Rules

lemma Match.Found.isEnd (h : chain.Found p) (ho : o ∈ chain.root :: chain.interior) :
    p.isEnd o = false := by
  have hkinds : ∀ kind ∈ rootKinds ++ linkKinds, kind ≠ returnKind ∧ kind ≠ yieldKind := by decide
  rcases mem_cons.mp ho with rfl | ho
  · obtain ⟨node, hnode, hkind⟩ := h.root
    exact isEnd_eq_false hnode (hkinds node.kind (mem_append_left _ hkind))
  · obtain ⟨node, hnode, hkind, -⟩ := h.interior ho
    exact isEnd_eq_false hnode (hkinds node.kind (mem_append_right _ hkind))

/-! ### Replacement -/

def Match.newOp (chain : Match) (p : Program) (root : Operation) : NewOp :=
  { chain.replacement with
    resultTypes := root.results.map p.typeAt
    control := chainControl p (chain.interior ++ [chain.root]) }

def takeOver (fused : OpId) (olds : List (ValueId × Nat)) : Edit Unit :=
  olds.forM fun pair ↦ read (·.result fused pair.2) >>= fun new ↦ replaceUses pair.1 new

lemma mem_chainControl : d ∈ chainControl p ops ↔ (∃ o ∈ ops, d ∈ p.controlOf o) ∧ d ∉ ops := by
  unfold chainControl
  rw [mem_eraseDups, mem_filter, mem_flatMap]
  simp [controlOf]

lemma fuse_ok (hp : p.Consistent) (hok : (fuse chain).exec p = (.ok ⟨⟩, q)) :
    ∃ node m n k, p.op? chain.root = some node ∧
      (∀ o ∈ chain.interior ++ [chain.root], (p.op? o).isSome) ∧
      (insertOpBefore chain.root (chain.newOp p node)).exec p = (.ok p.nextOp, m) ∧
      (takeOver p.nextOp node.results.zipIdx).exec m = (.ok ⟨⟩, n) ∧
      (replaceControl chain.root p.nextOp).exec n = (.ok ⟨⟩, k) ∧
      ((chain.root :: chain.interior.reverse).forM eraseOp).exec k = (.ok ⟨⟩, q) := by
  unfold fuse at hok
  dsimp only at hok
  obtain ⟨_, p, hcheck, hrest⟩ := exec_bind_ok.mp hok
  obtain ⟨hlive, rfl⟩ := does_checkOps.of_ok hcheck
  obtain ⟨node, hnode, hok⟩ := bind_read_ok.mp hrest
  rw [op_eq_ok] at hnode
  rw [exec_bind_of_ok (exec_mapM_read fun v hv ↦ valueType_eq_ok (hp.lt_of_mem_results hnode hv)),
    exec_get_bind, exec_bind_ok] at hok
  obtain ⟨fused, m, hinsert, hok⟩ := hok
  obtain ⟨-, -, -, -, -, rfl, -⟩ := does_insertOpBefore.of_ok hinsert
  obtain ⟨_, n, htake, hok⟩ := exec_bind_ok.mp hok
  obtain ⟨_, k, hreplace, herase⟩ := exec_bind_ok.mp hok
  exact ⟨node, m, n, k, hnode, hlive, hinsert, htake, hreplace, herase⟩

/-- The program is in order, and those of the given operations that are live are attached. -/
structure Settled (ops : List OpId) (p : Program) : Prop where
  ordered : WellOrdered p
  attached : ∀ x ∈ ops, (p.op? x).isSome → x ∈ p.allOps

lemma isSome_op?_iff {x : OpId} : (p.op? x).isSome ↔ (p.parentOf? x).isSome := by
  rw [parentOf?, Option.isSome_map]

namespace Settled

variable (h : Settled ops p)

include h

lemma of_sameTree (hq : WellOrdered q) (htree : SameTree p q) : Settled ops q := by
  refine ⟨hq, fun x hx hlive ↦ ?_⟩
  rw [isSome_op?_iff, htree.parent, ← isSome_op?_iff] at hlive
  exact htree.mem_allOps h.ordered.consistent hq.consistent (h.attached x hx hlive)

lemma eraseOp (ho : o ∈ ops) (hend : (p.op? o).isSome → p.isEnd o = false)
    (hok : (eraseOp o).exec p = (.ok ⟨⟩, q)) : Settled ops q ∧ ∀ x, (q.op? x).isSome →
    (p.op? x).isSome ∧ q.isEnd x = p.isEnd x := by
  have hp := h.ordered.consistent
  obtain ⟨-, m, r, hsame, -, hparent, hdone⟩ := eraseOp_ok hok
  have hlive : (p.op? o).isSome := by
    rw [isSome_op?_iff, ← hsame.parentOf?, hparent]
    rfl
  have hq := wellOrdered_eraseOp h.ordered (h.attached o ho hlive) (hend hlive) hok
  subst hdone
  have hm := hsame.consistent hp
  have hendm : m.isEnd o = false := (hsame.sameTree.ends o).trans (hend hlive)
  have hf := Frame.discard hm hparent hq.consistent hendm
  have hself := op?_discard_self hm hparent hq.consistent
  have hkept : ∀ x, ((m.discarded o r).op? x).isSome →
      x ∉ [o] ∧ (m.discarded o r).op? x = m.op? x := by
    intro x hx
    constructor
    · intro hmem
      rw [mem_singleton.mp hmem, hself] at hx
      cases hx
    · rcases op?_discard m o r x with hsame' | hgone
      · exact hsame'
      · rw [hgone] at hx
        cases hx
  have hback : ∀ x, ((m.discarded o r).op? x).isSome → (p.op? x).isSome := by
    intro x hx
    rw [(hkept x hx).2, isSome_op?_iff, hsame.parentOf?, ← isSome_op?_iff] at hx
    exact hx
  refine ⟨⟨hq, fun x hx hx' ↦ ?_⟩, fun x hx ↦ ⟨hback x hx, ?_⟩⟩
  · exact hf.mem_allOps_of_live hq.consistent hm (hkept x hx').1
      (hsame.sameTree.mem_allOps hp hm (h.attached x hx (hback x hx'))) hx'
  · rw [isEnd, (hkept x hx).2, ← isEnd, hsame.sameTree.ends]

lemma insertOpBefore {anchor : OpId} {new : NewOp}
    (hok : (insertOpBefore anchor new).exec p = (.ok fused, q)) (hanchor : anchor ∈ p.allOps)
    (hkind : new.kind ≠ returnKind ∧ new.kind ≠ yieldKind)
    (hoperands : ∀ v ∈ new.operands, Available p anchor v)
    (hcontrol : ∀ d ∈ new.control, Sees p anchor d) : Settled ops q ∧ Sees q anchor fused ∧
    anchor ∈ q.allOps ∧ p.op? fused = none ∧ ∀ x, x ≠ fused → q.op? x = p.op? x := by
  have hp := h.ordered.consistent
  have hq := (makes_insertOpBefore anchor new).keeps.of_ok hp hok
  obtain ⟨r, hparent, -, -, -, rfl, rfl⟩ := does_insertOpBefore.of_ok hok
  have hend : (p.nodeOf r new).isTerminator = false := by
    simp [nodeOf, Operation.isTerminator, hkind]
  have hop := hp.uses.free.op?_withOp r ((p.opsIn r).idxOf anchor) new
  have hdead := hp.uses.free.op?_nextOp
  obtain ⟨front, back, -, hsplit⟩ := opsIn_withOp_split new hp hparent
  have hseen : Sees (p.withOp r ((p.opsIn r).idxOf anchor) new) anchor p.nextOp :=
    ⟨r, anchor, .here (parentOf?_next hq hsplit).2, before_next hsplit⟩
  have hothers : ∀ x, x ≠ p.nextOp →
      (p.withOp r ((p.opsIn r).idxOf anchor) new).op? x = p.op? x := by
    intro x hx
    rw [hop, if_neg hx]
  have hkept : ∀ x ∈ p.allOps, x ∈ (p.withOp r ((p.opsIn r).idxOf anchor) new).allOps :=
    fun x hx ↦ mem_allOps_withOp new hp hparent hend hq hx
  refine ⟨⟨h.ordered.withOp hanchor hparent hq hend hoperands hcontrol, fun x hx hlive ↦ ?_⟩,
    hseen, hkept anchor hanchor, hdead, hothers⟩
  by_cases hnew : x = p.nextOp
  · rw [hnew]
    exact hseen.mem_allOps hq (hkept anchor hanchor)
  · rw [hothers x hnew] at hlive
    exact hkept x (h.attached x hx hlive)

end Settled

lemma wellOrdered_takeOver (h : WellOrdered p) (hroot : root ∈ p.allOps) (hsees : Sees p root fused)
    (hl : ∀ pair ∈ l, pair.1 ∈ p.resultsOf root) (hok : (takeOver fused l).exec p = (.ok ⟨⟩, q)) :
    WellOrdered q ∧ SameTree p q := by
  have hdone := forM_ok (I := fun rest m ↦ WellOrdered m ∧ SameTree p m ∧
    (∀ x, m.resultsOf x = p.resultsOf x) ∧ ∀ pair ∈ rest, pair.1 ∈ p.resultsOf root)
    (fun pair rest m n hm hstep ↦ ?_) ⟨h, .refl p, fun _ ↦ rfl, hl⟩ hok
  · exact ⟨hdone.1, hdone.2.1⟩
  · obtain ⟨hm, hpm, hresults, hrest⟩ := hm
    rw [bind_read_ok] at hstep
    obtain ⟨new, hnew, hreplace⟩ := hstep
    have hseesm := hpm.sees h.consistent hm.consistent hroot hsees
    have hold : pair.1 ∈ m.resultsOf root := by
      rw [hresults]
      exact hrest pair mem_cons_self
    obtain ⟨hn, hmn⟩ := wellOrdered_replaceUses hm hreplace fun x hx huse ↦ .inr ⟨fused,
      mem_of_getElem? (result_eq_ok.mp hnew),
      ((hm.scoping.operands x hx pair.1 huse).sees_of_mem_results hm.consistent hold).trans
      hm.consistent hseesm⟩
    refine ⟨hn, hpm.trans hmn.tree, fun x ↦ ?_, fun other hother ↦ ?_⟩
    · rw [hmn.results, hresults]
    · exact hrest other (mem_cons_of_mem _ hother)

lemma settled_eraseAll (h : Settled ops p) {l : List OpId} (hl : l ⊆ ops) (hend : ∀ o ∈ l,
    (p.op? o).isSome → p.isEnd o = false) (hok : (l.forM eraseOp).exec p = (.ok ⟨⟩, q)) :
    Settled ops q := by
  have hdone := forM_ok (I := fun rest m ↦ Settled ops m ∧ rest ⊆ ops ∧ ∀ o ∈ rest,
    (m.op? o).isSome → m.isEnd o = false) (fun o rest m n hm hstep ↦ ?_) ⟨h, hl, hend⟩ hok
  · exact hdone.1
  · obtain ⟨hm, hsub, hends⟩ := hm
    obtain ⟨hn, hkept⟩ := hm.eraseOp (hsub mem_cons_self) (hends o mem_cons_self) hstep
    refine ⟨hn, Subset.trans (subset_cons_self _ _) hsub, fun x hx hlive ↦ ?_⟩
    obtain ⟨hlive', hsame⟩ := hkept x hlive
    rw [hsame]
    exact hends x (mem_cons_of_mem _ hx) hlive'

lemma settled_fuse (h : Settled ops p) (hfound : chain.Found p) (hroot : chain.root ∈ p.allOps)
    (hok : (fuse chain).exec p = (.ok ⟨⟩, q)) : Settled ops q := by
  have hp := h.ordered.consistent
  obtain ⟨outer, hlinks, hreads, -⟩ := hfound.links
  obtain ⟨hseen, houter⟩ := hlinks.sees h.ordered hroot
  have hattached : ∀ o ∈ chain.root :: chain.interior.reverse, o ∈ p.allOps := by
    intro o ho
    rcases mem_cons.mp ho with rfl | ho
    · exact hroot
    · exact (hseen o ho).mem_allOps hp hroot
  have hwhole : Settled (chain.root :: chain.interior.reverse ++ ops) p := by
    refine ⟨h.ordered, fun x hx hlive ↦ ?_⟩
    rcases mem_append.mp hx with hx | hx
    · exact hattached x hx
    · exact h.attached x hx hlive
  have hkind : ∀ kind ∈ fusedKinds, kind ≠ returnKind ∧ kind ≠ yieldKind := by decide
  have hcontrol : ∀ d ∈ chainControl p (chain.interior ++ [chain.root]), Sees p chain.root d := by
    intro d hd
    obtain ⟨⟨o, ho, hd⟩, -⟩ := mem_chainControl.mp hd
    rcases mem_cons.mp (mem_ops_iff.mpr ho) with rfl | ho
    · exact h.ordered.scoping.control _ hroot d hd
    · exact (hseen o ho).trans hp
        (h.ordered.scoping.control o (hattached o (mem_cons_of_mem _ ho)) d hd)
  obtain ⟨node, m, n, k, hnode, hlive, hinsert, htake, hreplace, herase⟩ := fuse_ok hp hok
  obtain ⟨hm, hsees, hrootm, hdead, hothers⟩ := hwhole.insertOpBefore hinsert hroot
    (hkind _ hfound.kind) (fun v hv ↦ houter v (hreads hv)) hcontrol
  have hkept : ∀ o ∈ chain.root :: chain.interior.reverse, m.op? o = p.op? o := by
    intro o ho
    refine hothers o ?_
    rintro rfl
    have hlive := hlive _ (mem_ops_iff.mp ho)
    rw [hdead] at hlive
    cases hlive
  obtain ⟨hn, hmn⟩ := wellOrdered_takeOver hm.ordered hrootm hsees (fun pair hpair ↦ by
    rw [resultsOf_eq ((hkept _ mem_cons_self).trans hnode)]
    exact fst_mem_of_mem_zipIdx hpair) htake
  have hk := wellOrdered_replaceControl hn hreplace fun x hx hwaits ↦
    (hn.scoping.control x hx chain.root hwaits).trans hn.consistent
    (hmn.sees hm.ordered.consistent hn.consistent hrootm hsees)
  have hmk := hmn.trans (replaceControl_ok hreplace).1.sameTree
  have hdone := settled_eraseAll (hm.of_sameTree hk hmk) (subset_append_left _ _)
    (fun o ho _ ↦ ?_) herase
  · exact ⟨hdone.ordered, fun x hx ↦ hdone.attached x (mem_append_right _ hx)⟩
  · rw [hmk.ends, isEnd, hkept o ho]
    exact hfound.isEnd (by simpa using ho)

/-! ### The pass -/

lemma settled_fuseAt (h : Settled ops p) {rules : List Rule} (hrules : rules ⊆ builtinRules)
    (hroot : root ∈ ops) (hok : (fuseAt rules root).exec p = (.ok changed, q)) : Settled ops q := by
  unfold fuseAt at hok
  rw [exec_get_bind] at hok
  split_ifs at hok with hdead
  · cases hok
    exact h
  have hlive : (p.op? root).isSome := by
    rw [← isLive]
    simpa using hdead
  split at hok
  · cases hok
    exact h
  · next chain hfound =>
    obtain ⟨rule, hrule, hfind⟩ := exists_of_findSome?_eq_some hfound
    obtain ⟨_, m, hfuse, hdone⟩ := exec_bind_ok.mp hok
    cases hdone
    obtain ⟨rfl, hfits⟩ := found_of_builtinRules (hrules hrule) hfind
    exact settled_fuse h hfits (h.attached _ hroot hlive) hfuse

lemma wellOrdered_run (h : WellOrdered p) {settings : Settings}
    (hok : (run settings builtinRules).exec p = (.ok changed, q)) : WellOrdered q := by
  unfold run at hok
  dsimp only at hok
  rw [exec_get_bind] at hok
  have hdone := anyChange_ok (I := fun rest m ↦ Settled p.allOps m ∧ rest ⊆ p.allOps)
    (fun root rest m n _ hm hstep ↦ ?_) ⟨⟨h, fun x hx _ ↦ hx⟩, fun x hx ↦ mem_reverse.mp hx⟩ hok
  · exact hdone.1.ordered
  · refine ⟨settled_fuseAt hm.1 (fun rule hrule ↦ ?_) (hm.2 mem_cons_self) hstep, ?_⟩
    · exact (mem_filter.mp hrule).1
    · exact Subset.trans (subset_cons_self _ _) hm.2

lemma keeps_reachable_fuse (chain : Match) : Keeps Reachable (fuse chain) := by
  have hcheck : ∀ ops, Keeps Reachable (checkOps ops) :=
    fun ops ↦ .forM (fun _ ↦ .bind (.read _) fun _ ↦ .pure _) ops
  refine .bind (hcheck _) fun _ ↦ .bind (.read _) fun node ↦ .bind (.mapM (fun _ ↦ .read _) _)
    fun resultTypes ↦ .bind .get fun p ↦ .bind (.reachable (.insertBefore _ _) rfl) fun fused ↦
    .bind (.forM (fun pair ↦ ?_) _) fun _ ↦ .bind (.reachable (.replaceControl _ _) rfl) fun _ ↦
    .bind (.reachable (.erase _) rfl) fun _ ↦ .forM (fun o ↦ .reachable (.erase o) rfl) _
  exact .bind (.read _) fun new ↦ .reachable (.replaceUses _ new) rfl

lemma keeps_reachable_run (settings : Settings) (rules : List Rule) :
    Keeps Reachable (run settings rules) := by
  refine .bind .get fun p ↦ .anyChange (fun root ↦ .bind .get fun m ↦ ?_) _
  split_ifs
  · exact .pure _
  · split
    · exact .pure _
    · exact .bind (keeps_reachable_fuse _) fun _ ↦ .pure _

end Fusion

end TensorGraph
