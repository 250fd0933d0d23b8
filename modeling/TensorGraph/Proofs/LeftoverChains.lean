import TensorGraph.Proofs.ChainReplacement
import TensorGraph.Proofs.Changes
import TensorGraph.Proofs.Forest

/-!
Fusion leaves no chain behind.
-/

namespace TensorGraph.Fusion

open Program Edit List Option

variable {p m q : Program} {o x consumer : OpId} {chain : Match} {node : Operation} {rule : Rule}
    {v : ValueId} {kinds : List String} {changed : Bool}

/-- Operations that chains end in own no regions. -/
def Flat (p : Program) : Prop :=
  ∀ x node, p.op? x = some node → node.kind ∈ rootKinds → node.regions = []

/-- The operation is there and does not belong to the chain. -/
def Match.Spares (chain : Match) (p : Program) (x : OpId) : Prop :=
  (p.op? x).isSome ∧ x ∉ chain.interior ++ [chain.root]

lemma Match.Spares.ne_nextOp (h : chain.Spares p x) (hp : p.Consistent) : x ≠ p.nextOp := by
  rintro rfl
  have hlive := h.1
  rw [hp.uses.free.op?_nextOp] at hlive
  cases hlive

lemma moved_injective {olds : List ValueId} {start : Nat} {w : ValueId} (hv : v.index < start)
    (hw : w.index < start) (h : moved olds start v = moved olds start w) : v = w := by
  by_cases hmem : w ∈ olds
  · have hmem' : v ∈ olds := by
      by_contra hmem'
      rw [moved, if_neg hmem', moved, if_pos hmem] at h
      rw [h] at hv
      exact absurd hv (by simp)
    rw [moved, if_pos hmem', moved, if_pos hmem] at h
    exact (idxOf_inj hmem').mp (Nat.add_left_cancel (congrArg ValueId.index h))
  · rw [moved.eq_def olds start w, if_neg hmem] at h
    exact eq_of_moved_eq hw h

namespace Rewired

variable (hp : p.Consistent) (hfound : chain.Found p) (h : Rewired p chain node m)
  (hq : q.Consistent) (hvalues : SameValues m q)
  (hgone : ∀ x, q.op? x = if x ∈ chain.interior ++ [chain.root] then none else m.op? x)

include hp hfound hgone in
lemma op?_fused : q.op? p.nextOp = m.op? p.nextOp := by
  rw [hgone, if_neg fun hmem ↦ ne_nextOp hp hfound hmem rfl]

include h hgone

lemma spares_of_isSome (hlive : (q.op? x).isSome) (hne : x ≠ p.nextOp) : chain.Spares p x := by
  rw [hgone] at hlive
  split_ifs at hlive with hmem
  · cases hlive
  · rw [h.others x hne, isSome_map] at hlive
    exact ⟨hlive, hmem⟩

include hp

lemma op?_of_spares (hx : chain.Spares p x) : q.op? x = (p.op? x).map fun before ↦ { before with
    operands := before.operands.map (moved node.results p.values.length)
    control := m.controlOf x } := by
  rw [hgone, if_neg hx.2, h.others x (hx.ne_nextOp hp)]

lemma operandsOf_of_spares (hx : chain.Spares p x) :
    q.operandsOf x = (p.operandsOf x).map (moved node.results p.values.length) := by
  rw [← h.operandsOf (hx.ne_nextOp hp), Program.operandsOf, hgone, if_neg hx.2, Program.operandsOf]

lemma factors_before {gate : ValueId} (hx : chain.Spares p x) (ho : chain.Spares p o)
    (hfactors : q.operandsOf x = [v, gate] ∨ q.operandsOf x = [gate, v])
    (hread : q.operandsOf o = [v])
    (hgate : ∀ u, moved node.results p.values.length u = gate → u = gate) :
    ∃ w, p.operandsOf o = [w] ∧ (p.operandsOf x = [w, gate] ∨ p.operandsOf x = [gate, w]) := by
  rw [h.operandsOf_of_spares hp hgone ho, map_eq_singleton_iff] at hread
  obtain ⟨w, hread, hw⟩ := hread
  have hlt := hp.lt_of_mem_operandsOf (o := o) (v := w) (by rw [hread]; exact mem_singleton_self w)
  have hsame : ∀ u ∈ p.operandsOf x, moved node.results p.values.length u = v → u = w :=
    fun u hu hmoved ↦ moved_injective (hp.lt_of_mem_operandsOf hu) hlt (hmoved.trans hw.symm)
  refine ⟨w, hread, ?_⟩
  rw [h.operandsOf_of_spares hp hgone hx] at hfactors
  rcases hfactors with hfactors | hfactors
  · simp only [map_eq_cons_iff, map_eq_nil_iff] at hfactors
    obtain ⟨a, _, hoperands, ha, b, _, rfl, hb, rfl⟩ := hfactors
    obtain rfl := hsame a (by rw [hoperands]; simp) ha
    obtain rfl := hgate b hb
    exact .inl hoperands
  · simp only [map_eq_cons_iff, map_eq_nil_iff] at hfactors
    obtain ⟨a, _, hoperands, ha, b, _, rfl, hb, rfl⟩ := hfactors
    obtain rfl := hsame b (by rw [hoperands]; simp) hb
    obtain rfl := hgate a ha
    exact .inr hoperands

include hfound

lemma spares_of_kind {after : Operation} (hafter : q.op? x = some after)
    (hkind : after.kind ∉ fusedKinds) : chain.Spares p x ∧ ∃ before, p.op? x = some before ∧
    after.kind = before.kind ∧ after.form = before.form ∧ after.results = before.results ∧
    after.parent = before.parent ∧ after.operands.length = before.operands.length := by
  have hne : x ≠ p.nextOp := by
    rintro rfl
    obtain ⟨new, hnew, hfused, -⟩ := h.fused
    rw [op?_fused hp hfound hgone, hnew] at hafter
    rw [← some.inj hafter, hfused] at hkind
    exact hkind hfound.kind
  have hspares := h.spares_of_isSome hgone (isSome_of_eq_some hafter) hne
  obtain ⟨before, hbefore⟩ := isSome_iff_exists.mp hspares.1
  rw [h.op?_of_spares hp hgone hspares, hbefore] at hafter
  cases hafter
  exact ⟨hspares, before, hbefore, rfl, rfl, rfl, rfl, length_map _⟩

lemma unary (hunary : Unary p) : Unary q := by
  have hkinds : ∀ kind ∈ "Tanh" :: activations, kind ∉ fusedKinds := by decide
  intro x after hafter hkind
  obtain ⟨-, before, hbefore, hsame, -, -, -, hlength⟩ :=
    h.spares_of_kind hp hfound hgone hafter (hkinds _ hkind)
  rw [hlength]
  exact hunary x before hbefore (hsame ▸ hkind)

lemma flat (hflat : Flat p) : Flat q := by
  have hkinds : ∀ kind ∈ rootKinds, kind ∉ fusedKinds := by decide
  intro x after hafter hkind
  obtain ⟨-, before, hbefore, hsame, hform, -⟩ :=
    h.spares_of_kind hp hfound hgone hafter (hkinds _ hkind)
  have hregions := hflat x before hbefore (hsame ▸ hkind)
  rwa [Operation.regions, hform, ← Operation.regions]

lemma free_before (ho : chain.Spares p o) (hfree : ∀ x, o ∉ q.controlOf x) (x : OpId) :
    o ∉ p.controlOf x := by
  have hwaits : ∀ y, y ∉ chain.interior ++ [chain.root] → q.controlOf y = m.controlOf y :=
    fun y hy ↦ by
    rw [controlOf, hgone, if_neg hy, controlOf]
  intro hx
  by_cases hmem : x ∈ chain.interior ++ [chain.root]
  · refine hfree p.nextOp ?_
    rw [hwaits _ fun hfused ↦ ne_nextOp hp hfound hfused rfl, h.waitsFused, mem_chainControl]
    exact ⟨⟨x, hmem, hx⟩, ho.2⟩
  · have hspares : chain.Spares p x :=
      ⟨isSome_of_mem_controlDependents (mem_controlDependents.mpr hx), hmem⟩
    refine hfree x ?_
    rw [hwaits x hmem, h.waits x (hspares.ne_nextOp hp)]
    refine ⟨o, hx, if_neg ?_⟩
    rintro rfl
    exact ho.2 (by simp)

include hq

lemma mem_allOps_before (hroots : q.roots = m.roots) (hx : chain.Spares p x) (hmem : x ∈ q.allOps) :
    x ∈ p.allOps := by
  have hparent : ∀ {y}, chain.Spares p y → q.parentOf? y = p.parentOf? y := fun {y} hy ↦ by
    rw [parentOf?, h.op?_of_spares hp hgone hy, Option.map_map, parentOf?]
    rfl
  obtain ⟨home, ⟨n, hhome⟩, hx'⟩ := (mem_allOps hq).mp hmem
  refine (mem_allOps hp).mpr
    ⟨home, ⟨n, hhome.of_encloses (h.roots.symm.trans hroots.symm) ?_⟩, hparent hx ▸ hx'⟩
  rintro outer inner ⟨o, ho, hinner⟩
  have hne : o ≠ p.nextOp := by
    rintro rfl
    rw [regionsOf, op?_fused hp hfound hgone, ← regionsOf, h.leaf] at hinner
    cases hinner
  have hlisted := hq.mem_opsIn.mp ho
  have hspares := h.spares_of_isSome hgone (isSome_op?_iff.mpr (isSome_of_eq_some hlisted)) hne
  refine ⟨o, hp.mem_opsIn.mpr (hparent hspares ▸ hlisted), ?_⟩
  rwa [regionsOf, h.op?_of_spares hp hgone hspares, Option.map_map] at hinner

/-- If only one operation that was there before uses an old value, it did so before: what the chain
reads from outside the fused operation reads now. -/
theorem usersOf_before (hunary : Unary p) (hconsumer : chain.Spares p consumer)
    (hold : v.index < p.values.length) (hproduces : Produces q v consumer kinds o) :
    p.usersOf v = [consumer] := by
  have hread : v ∈ q.operandsOf consumer := (hproduces.mem_operandsOf_iff hq).mpr rfl
  rw [h.operandsOf_of_spares hp hgone hconsumer, List.mem_map] at hread
  obtain ⟨u, hu, hmoved⟩ := hread
  obtain rfl := eq_of_moved_eq hold hmoved
  have hcounts : ∀ x, chain.Spares p x → (p.operandsOf x).count u = [consumer].count x := by
    intro x hx
    rw [← hproduces.count hq x, h.operandsOf_of_spares hp hgone hx, count_eq_countP,
      count_eq_countP, countP_map]
    refine countP_congr fun w _ ↦ ?_
    simp only [Function.comp_apply, beq_iff_eq]
    exact ⟨fun heq ↦ heq ▸ hmoved, eq_of_moved_eq hold⟩
  have hothers : ∀ x, ¬ chain.Spares p x → u ∉ p.operandsOf x := by
    intro x hx hmem
    have hchain : x ∈ chain.interior ++ [chain.root] := by
      by_contra hchain
      exact hx ⟨isSome_op?_of_mem_operandsOf hmem, hchain⟩
    obtain ⟨outer, hlinks, -, houter⟩ := hfound.links
    rcases hlinks.mem_outer_or (mem_ops_iff.mpr hchain) hmem with hout | ⟨other, hother, husers⟩
    · have hused : u ∈ q.operandsOf p.nextOp := by
        rw [Program.operandsOf, op?_fused hp hfound hgone, ← Program.operandsOf, h.operandsOf_fused]
        exact mem_map.mpr ⟨u, houter hunary hout, hmoved⟩
      exact hconsumer.ne_nextOp hp ((hproduces.mem_operandsOf_iff hq).mp hused).symm
    · have huser := hp.uses.mem_usersOf.mpr hu
      rw [husers, mem_singleton] at huser
      exact hconsumer.2 (mem_ops_iff.mp (huser ▸ hother))
  refine perm_singleton.mp (perm_iff_count.mpr fun x ↦ ?_)
  rw [hp.uses.counts]
  by_cases hx : chain.Spares p x
  · exact hcounts x hx
  · rw [count_eq_zero.mpr (hothers x hx), count_eq_zero.mpr]
    rw [mem_singleton]
    rintro rfl
    exact hx hconsumer

include hvalues

lemma lt_of_produces (hkinds : kinds ⊆ linkKinds) (hconsumer : chain.Spares p consumer)
    (hproduces : Produces q v consumer kinds o) : v.index < p.values.length := by
  have hfused : ∀ kind ∈ linkKinds, kind ∉ fusedKinds := by decide
  obtain ⟨after, hafter, hkind, -⟩ := hproduces.node
  obtain ⟨ho, -⟩ := h.spares_of_kind hp hfound hgone hafter (hfused _ (hkinds hkind))
  have hread : v ∈ q.operandsOf consumer := (hproduces.mem_operandsOf_iff hq).mpr rfl
  rw [h.operandsOf_of_spares hp hgone hconsumer, List.mem_map] at hread
  obtain ⟨u, hu, rfl⟩ := hread
  by_cases hmem : u ∈ node.results
  · -- The value would be a result of the fused operation.
    obtain ⟨new, hnew, -, -, hresults⟩ := h.fused
    have hplace : (m.resultsOf p.nextOp)[node.results.idxOf u]? = some
        (moved node.results p.values.length u) := by
      rw [resultsOf_eq hnew, hresults, getElem?_map, getElem?_range (idxOf_lt_length_of_mem hmem),
        moved, if_pos hmem]
      rfl
    obtain ⟨index, horigin⟩ := hproduces.origin
    rw [hvalues.originOf?, h.consistent.placed.results _ _ _ hplace] at horigin
    cases horigin
    exact absurd rfl (ho.ne_nextOp hp)
  · rw [moved, if_neg hmem]
    exact hp.lt_of_mem_operandsOf hu

lemma produces_before (hunary : Unary p) (hkinds : kinds ⊆ linkKinds)
    (hconsumer : chain.Spares p consumer) (hproduces : Produces q v consumer kinds o) :
    chain.Spares p o ∧ Produces p v consumer kinds o := by
  have hfused : ∀ kind ∈ linkKinds, kind ∉ fusedKinds := by decide
  have hold := h.lt_of_produces hp hfound hq hvalues hgone hkinds hconsumer hproduces
  obtain ⟨after, hafter, hkind, hform, hlength, hparent⟩ := hproduces.node
  obtain ⟨ho, before, hbefore, hkind', hform', hresults, hparent', -⟩ :=
    h.spares_of_kind hp hfound hgone hafter (hfused _ (hkinds hkind))
  refine ⟨ho, ⟨before, hbefore, hkind' ▸ hkind, hform' ▸ hform, hresults ▸ hlength, ?_⟩, ?_, ?_, ?_⟩
  · rw [parentOf?, h.op?_of_spares hp hgone hconsumer, Option.map_map, hparent'] at hparent
    exact hparent
  · obtain ⟨index, horigin⟩ := hproduces.origin
    rw [hvalues.originOf?, (h.values v hold).2] at horigin
    exact ⟨index, horigin⟩
  · exact h.usersOf_before hp hfound hq hgone hunary hconsumer hold hproduces
  · have hfree : ∀ x, o ∉ q.controlOf x :=
      fun x hx ↦ not_mem_nil (hproduces.free ▸ mem_controlDependents.mpr hx)
    exact eq_nil_iff_forall_not_mem.mpr fun x hx ↦
      h.free_before hp hfound hgone ho hfree x (mem_controlDependents.mp hx)

lemma fits_before (hunary : Unary p) {interior : List OpId} {operands : List ValueId}
    (hfits : Fits q x rule interior operands) : chain.Spares p x ∧
    ∃ operands', Fits p x rule interior operands' := by
  have hkinds : ∀ kind ∈ rootKinds, kind ∉ fusedKinds := by decide
  obtain ⟨after, hafter, hkind⟩ := hfits.exists_root
  obtain ⟨hx, before, hbefore, hsame, -⟩ := h.spares_of_kind hp hfound hgone hafter (hkinds _ hkind)
  have hpull : ∀ {v consumer kinds o}, kinds ⊆ linkKinds → chain.Spares p consumer →
    Produces q v consumer kinds o → chain.Spares p o ∧ Produces p v consumer kinds o :=
    fun hkinds hconsumer ↦ h.produces_before hp hfound hq hvalues hgone hunary hkinds hconsumer
  have hreads := fun {y} ↦ h.operandsOf_of_spares hp hgone (x := y)
  have hback : ∀ {u v consumer kinds o}, moved node.results p.values.length u = v →
      Produces p v consumer kinds o → u = v :=
    fun hmoved hproduces ↦
      eq_of_moved_eq (hp.lt_of_mem_operandsOf ((hproduces.mem_operandsOf_iff hp).mpr rfl)) hmoved
  refine ⟨hx, ?_⟩
  cases hfits with
  | biased hnode' hkind' hoperands hcontraction =>
    cases hafter.symm.trans hnode'
    obtain ⟨-, hcontraction⟩ := hpull (by decide) hx hcontraction
    rw [hreads hx] at hoperands
    simp only [map_eq_cons_iff, map_eq_nil_iff] at hoperands
    obtain ⟨input, _, hoperands, hinput, bias, _, rfl, -, rfl⟩ := hoperands
    obtain rfl := hback hinput hcontraction
    exact ⟨_, .biased hbefore (hsame ▸ hkind') hoperands hcontraction⟩
  | activated hnode' hkind' hsum hbiasAdd hoperands hcontraction =>
    cases hafter.symm.trans hnode'
    obtain ⟨hb, hbiasAdd⟩ := hpull (by decide) hx hbiasAdd
    obtain ⟨-, hcontraction⟩ := hpull (by decide) hb hcontraction
    rw [hreads hx, head?_map, map_eq_some_iff] at hsum
    obtain ⟨sum, hsum, hsame'⟩ := hsum
    obtain rfl := hback hsame' hbiasAdd
    rw [hreads hb] at hoperands
    simp only [map_eq_cons_iff, map_eq_nil_iff] at hoperands
    obtain ⟨input, _, hoperands, hinput, bias, _, rfl, -, rfl⟩ := hoperands
    obtain rfl := hback hinput hcontraction
    exact ⟨_, .activated hbefore (hsame ▸ hkind') hsum hbiasAdd hoperands hcontraction⟩
  | sigmoidGated hnode' hkind' hfactors hsigmoid hread =>
    cases hafter.symm.trans hnode'
    obtain ⟨hs, hsigmoid⟩ := hpull (by decide) hx hsigmoid
    obtain ⟨y, hread, hfactors⟩ := h.factors_before hp hgone hx hs hfactors hread fun _ hmoved ↦
      hback hmoved hsigmoid
    exact ⟨_, .sigmoidGated hbefore (hsame ▸ hkind') hfactors hsigmoid hread⟩
  | softplusGated hnode' hkind' hfactors htanh hinput hsoftplus hread =>
    cases hafter.symm.trans hnode'
    obtain ⟨ht, htanh⟩ := hpull (by decide) hx htanh
    obtain ⟨hs, hsoftplus⟩ := hpull (by decide) ht hsoftplus
    rw [hreads ht, head?_map, map_eq_some_iff] at hinput
    obtain ⟨input, hinput, hsame'⟩ := hinput
    obtain rfl := hback hsame' hsoftplus
    obtain ⟨y, hread, hfactors⟩ := h.factors_before hp hgone hx hs hfactors hread fun _ hmoved ↦
      hback hmoved htanh
    exact ⟨_, .softplusGated hbefore (hsame ▸ hkind') hfactors htanh hinput hsoftplus hread⟩

end Rewired

/-! ### The pass -/

structure Exhausted (rules : List Rule) (rest : List OpId) (p : Program) : Prop where
  consistent : p.Consistent
  unary : Unary p
  flat : Flat p
  tried : ∀ x ∈ p.allOps, x ∉ rest → ∀ rule ∈ rules, rule.find? p x = none

variable {rules : List Rule} {rest : List OpId} {root : OpId}

lemma Exhausted.next (h : Exhausted rules (root :: rest) p)
    (hroot : (p.op? root).isSome → ∀ rule ∈ rules, rule.find? p root = none) :
    Exhausted rules rest p := by
  refine ⟨h.consistent, h.unary, h.flat, fun x hx hrest ↦ ?_⟩
  by_cases heq : x = root
  · rw [heq] at hx ⊢
    exact hroot (h.consistent.isSome_of_mem_allOps hx)
  · exact h.tried x hx (not_mem_cons_of_ne_of_not_mem heq hrest)

section

variable (hrules : rules ⊆ builtinRules) (h : Exhausted rules (root :: rest) p)

include hrules h

lemma Exhausted.fuse (hrule : rule ∈ rules) (hfind : rule.find? p root = some chain)
    (hok : (fuse chain).exec p = (.ok ⟨⟩, q)) : Exhausted rules rest q := by
  obtain ⟨rfl, hfound⟩ := found_of_builtinRules (hrules hrule) hfind
  have hp := h.consistent
  have hleaf : p.regionsOf chain.root = [] := by
    obtain ⟨node, hnode, hkind⟩ := hfound.root
    rw [regionsOf_eq hnode, h.flat _ node hnode hkind]
  obtain ⟨node, m, hnode, hm, hq, hroots, hvalues, hgone⟩ := rewired_of_fuse hp hfound hleaf hok
  refine ⟨hq, hm.unary hp hfound hgone h.unary, hm.flat hp hfound hgone h.flat,
    fun x hx hrest rule' hrule' ↦ ?_⟩
  rw [eq_none_iff_forall_ne_some]
  intro chain' hfind'
  obtain ⟨-, -, hfits⟩ := fits_of_builtinRules (hrules hrule') hfind'
  obtain ⟨hspares, operands, hbefore⟩ := hm.fits_before hp hfound hq hvalues hgone h.unary hfits
  have hne : x ≠ chain.root := fun heq ↦ hspares.2 (by simp [heq])
  have hmem := hm.mem_allOps_before hp hfound hq hgone hroots hspares hx
  have hnone := h.tried x hmem (not_mem_cons_of_ne_of_not_mem hne hrest) rule' hrule'
  have hsome := hbefore.isSome_find? h.unary
  rw [hnone] at hsome
  cases hsome

lemma Exhausted.fuseAt
    (hok : (fuseAt rules root).exec p = (.ok changed, q)) : Exhausted rules rest q := by
  unfold Fusion.fuseAt at hok
  rw [exec_get_bind] at hok
  split_ifs at hok with hdead
  · cases hok
    refine h.next fun hlive ↦ ?_
    rw [isLive, hlive] at hdead
    cases hdead
  · split at hok
    · next hnone =>
      cases hok
      exact h.next fun _ ↦ findSome?_eq_none_iff.mp hnone
    · next chain hsome =>
      obtain ⟨rule, hrule, hfind⟩ := exists_of_findSome?_eq_some hsome
      obtain ⟨_, m, hfuse, hdone⟩ := exec_bind_ok.mp hok
      cases hdone
      exact h.fuse hrules hrule hfind hfuse

end

lemma exhausted_of_anyChange (hrules : rules ⊆ builtinRules) (hp : p.Consistent) (hunary : Unary p)
    (hflat : Flat p) (hok : (anyChange p.allOps.reverse (fuseAt rules)).exec p = (.ok changed, q)) :
    Exhausted rules [] q :=
  anyChange_ok (I := Exhausted rules) (fun _ _ _ _ _ hm hstep ↦ hm.fuseAt hrules hstep)
    ⟨hp, hunary, hflat, fun _ hx hmem ↦ absurd (mem_reverse.mpr hx) hmem⟩ hok

lemma Exhausted.fuseAt_unchanged (h : Exhausted rules [] p) (hroot : root ∈ p.allOps) :
    (Fusion.fuseAt rules root).exec p = (.ok false, p) := by
  unfold Fusion.fuseAt
  rw [exec_get_bind]
  split_ifs
  · rfl
  · have hnone := findSome?_eq_none_iff.mpr (h.tried root hroot not_mem_nil)
    rw [hnone]
    rfl

/-- When fusion has succeeded on a program whose activations and tangents have one operand and in
which no chain ends in an operation with regions, no rule that is enabled finds a chain at an
attached operation, and another run does nothing. -/
theorem no_chain_left (settings : Settings) (registry : Registry) {p q : Program} (hp : Reachable p)
    (hunary : Unary p) (hflat : Flat p)
    {changed : Bool} (hok : ((pass settings).run registry).exec p = (.ok changed, q)) :
    (∀ x ∈ q.allOps, ∀ rule ∈ builtinRules, (settings.enableMkl || !rule.requiresMkl) = true →
      rule.find? q x = none) ∧ ((pass settings).run registry).exec q = (.ok false, q) := by
  have hrules : (builtinRules ++ []).filter (fun rule ↦ settings.enableMkl || !rule.requiresMkl) ⊆
      builtinRules := fun rule hrule ↦ by simpa using (mem_filter.mp hrule).1
  have hdone := exhausted_of_anyChange hrules hp.consistent hunary hflat hok
  refine ⟨fun x hx rule hrule henabled ↦ ?_, ?_⟩
  · exact hdone.tried x hx not_mem_nil rule (mem_filter.mpr ⟨mem_append_left _ hrule, henabled⟩)
  · exact anyChange_unchanged fun x hx ↦ hdone.fuseAt_unchanged (mem_reverse.mp hx)

/-- A convolution with bias and activation, gated by the tangent of its softplus, stored from the
last operation back. -/
def backToFront : Program :=
  .built [
    .node 0 "source" [] 1, .node 0 "Conv2D" [0] 1, .node 0 "BiasAdd" [1, 0] 1 [0],
    .node 0 "Relu" [2] 1, .node 0 "Softplus" [3] 1 [3], .node 0 "Tanh" [4] 1,
    .node 0 "Mul" [5, 3] 1, .node 0 "sink" [6] 0 [6],
    .reorder ⟨0⟩ [⟨7⟩, ⟨6⟩, ⟨5⟩, ⟨4⟩, ⟨3⟩, ⟨2⟩, ⟨1⟩, ⟨0⟩]]

/-- The addition is asked about before the activation, which is left over but ends no chain any
more. -/
theorem no_chain_left_backToFront :
    let settings : Settings := { enableMkl := true }
    let registry : Registry := NameMap.empty
    let q := (((pass settings).run registry).exec backToFront).2
    Reachable backToFront ∧ Unary backToFront ∧ Flat backToFront ∧
      ((pass settings).run registry).exec backToFront = (.ok true, q) ∧
      q.allOps.filterMap (fun x ↦ (q.op? x).map (·.kind)) =
        ["sink", "_MklFusedMish", "Relu", "_FusedConv2D", "source"] ∧
      (∀ x ∈ q.allOps, ∀ rule ∈ builtinRules, rule.find? q x = none) ∧
      ((pass settings).run registry).exec q = (.ok false, q) := by
  intro settings registry q
  have hchecks : ∀ i < backToFront.slots.length, ∀ node ∈ backToFront.op? ⟨i⟩,
      (node.kind ∈ "Tanh" :: activations → node.operands.length = 1) ∧
      (node.kind ∈ rootKinds → node.regions = []) := by
    decide +kernel
  have hnodes := fun x node (hnode : backToFront.op? x = some node) ↦
    hchecks x.index (index_lt_of_isSome (isSome_of_eq_some hnode)) node hnode
  have hunary : Unary backToFront := fun x node hnode ↦ (hnodes x node hnode).1
  have hflat : Flat backToFront := fun x node hnode ↦ (hnodes x node hnode).2
  have hok : ((pass settings).run registry).exec backToFront = (.ok true, q) :=
    exec_eq_ok (by decide +kernel)
  obtain ⟨hnone, hagain⟩ := no_chain_left settings registry (reachable_built _) hunary hflat hok
  exact ⟨reachable_built _, hunary, hflat, hok, by decide +kernel, fun x hx rule hrule ↦
    hnone x hx rule hrule rfl, hagain⟩

end TensorGraph.Fusion
