import TensorGraph.Pass.Fusion
import TensorGraph.Proofs.Rewriting

/-!
What the rules for fusion find. A producer that is found has its value on record, which only the
consumer uses, and nothing waits for it.
-/

namespace TensorGraph.Fusion

open Program List Option

variable {p : Program} {o root consumer : OpId} {v w : ValueId} {node : Operation}
  {kinds : List String} {rest : List OpId} {outer operands : List ValueId} {chain : Match}
  {n : Nat} {rule : Rule}

/-! ### Kinds -/

/-- The kinds of operation that a chain ends in. -/
def rootKinds : List String := "Mul" :: "BiasAdd" :: activations

/-- The kinds of operation that a chain goes through before its root. -/
def linkKinds : List String := ["MatMul", "Conv2D", "BiasAdd", "Sigmoid", "Tanh", "Softplus"]

/-- The kinds of operation that stand for chains. -/
def fusedKinds : List String := ["_FusedMatMul", "_FusedConv2D", "_MklSwish", "_MklFusedMish"]

def stage (kind : String) : Nat :=
  if kind ∈ ["MatMul", "Conv2D", "Softplus"] then 0
  else if kind ∈ ["BiasAdd", "Sigmoid", "Tanh"] then 1
  else 2

def stageOf (p : Program) (o : OpId) : Nat :=
  ((p.op? o).map fun node ↦ stage node.kind).getD 0

lemma stageOf_eq (hnode : p.op? o = some node) : stageOf p o = stage node.kind := by
  rw [stageOf, hnode]
  rfl

/-- Activations and hyperbolic tangents have one operand. -/
def Unary (p : Program) : Prop :=
  ∀ x node, p.op? x = some node → node.kind ∈ "Tanh" :: activations → node.operands.length = 1

/-! ### Producers -/

lemma isSome_op?_of_mem_operandsOf (hv : v ∈ p.operandsOf o) : (p.op? o).isSome := by
  cases ho : p.op? o with
  | none => simp [operandsOf, ho] at hv
  | some _ => rfl

/-- The operation is on record as making the value, which the consumer uses once and nothing else
does. It is a plain one with one result in the region of the consumer, and nothing waits for it. -/
structure Produces (p : Program) (v : ValueId) (consumer : OpId) (kinds : List String)
    (o : OpId) : Prop where
  node : ∃ node, p.op? o = some node ∧ node.kind ∈ kinds ∧ node.form = .plain ∧
    node.results.length = 1 ∧ p.parentOf? consumer = some node.parent
  origin : ∃ index, p.originOf? v = some (.result o index)
  users : p.usersOf v = [consumer]
  free : p.controlDependents o = []

lemma producer?_eq_some : producer? p v consumer kinds = some o ↔
    Produces p v consumer kinds o := by
  constructor
  · intro hproducer
    unfold producer? at hproducer
    simp only [bind_eq_bind, bind_eq_some_iff] at hproducer
    obtain ⟨value, hvalue, found, hfound, node, hnode, consumerNode, hconsumer, hchecks⟩ :=
      hproducer
    split_ifs at hchecks with hcheck
    cases hchecks
    simp only [Bool.and_eq_true, beq_iff_eq, contains_iff_mem, List.isEmpty_iff] at hcheck
    obtain ⟨⟨⟨⟨⟨hkind, hplain⟩, hparent⟩, hlength⟩, husers⟩, hfree⟩ := hcheck
    have hform : node.form = .plain := by simpa [Operation.isPlain] using hplain
    obtain ⟨index, horigin⟩ := definingOp?_eq_some.mp hfound
    exact ⟨⟨node, hnode, hkind, hform, hlength, hparent ▸ parentOf?_eq hconsumer⟩,
      ⟨index, by rw [originOf?_eq hvalue, horigin]⟩, by rw [usersOf_eq hvalue, husers], hfree⟩
  · rintro ⟨⟨node, hnode, hkind, hform, hlength, hparent⟩, ⟨index, horigin⟩, husers, hfree⟩
    obtain ⟨value, hvalue, horigin⟩ := map_eq_some_iff.mp horigin
    obtain ⟨consumerNode, hconsumer, hsame⟩ := exists_op_of_parentOf? hparent
    have hfound : value.definingOp? = some o := definingOp?_eq_some.mpr ⟨index, horigin⟩
    rw [usersOf_eq hvalue] at husers
    simp [producer?, hvalue, hfound, hnode, hconsumer, hkind, Operation.isPlain, hform, hsame,
      hlength, husers, hfree]

namespace Produces

variable (h : Produces p v consumer kinds o)

include h

lemma mono {more : List String} (hkinds : kinds ⊆ more) : Produces p v consumer more o := by
  obtain ⟨⟨node, hnode, hkind, hplain⟩, horigin, husers, hfree⟩ := h
  exact ⟨⟨node, hnode, hkinds hkind, hplain⟩, horigin, husers, hfree⟩

lemma stageOf_eq (hkinds : ∀ kind ∈ kinds, stage kind = n) : stageOf p o = n := by
  obtain ⟨node, hnode, hkind, -⟩ := h.node
  rw [Fusion.stageOf_eq hnode, hkinds node.kind hkind]

lemma count (hp : p.Consistent) (x : OpId) : (p.operandsOf x).count v = [consumer].count x := by
  rw [← hp.uses.counts, h.users]

lemma mem_operandsOf_iff (hp : p.Consistent) {x : OpId} : v ∈ p.operandsOf x ↔ x = consumer := by
  rw [← count_pos_iff, h.count hp, count_pos_iff, mem_singleton]

end Produces

/-! ### Chains -/

inductive Links (p : Program) : OpId → List OpId → List ValueId → Prop where
  | source (o : OpId) : Links p o [] (p.operandsOf o)
  | link {consumer o : OpId} {v : ValueId} {rest : List OpId} {outer : List ValueId}
      (hproduces : Produces p v consumer linkKinds o) (hstage : stageOf p o < stageOf p consumer)
      (hrest : Links p o rest outer) : Links p consumer (o :: rest)
      (outer ++ (p.operandsOf consumer).erase v)

namespace Links

variable (h : Links p root rest outer)

include h

lemma exists_produces (ho : o ∈ rest) : ∃ v, ∃ consumer ∈ root ::
    rest, Produces p v consumer linkKinds o := by
  induction h with
  | source => cases ho
  | link hproduces _ _ ih =>
    rcases mem_cons.mp ho with rfl | ho
    · exact ⟨_, _, mem_cons_self, hproduces⟩
    · obtain ⟨v, consumer, hconsumer, hproduces'⟩ := ih ho
      exact ⟨v, consumer, mem_cons_of_mem _ hconsumer, hproduces'⟩

lemma stageOf_lt (ho : o ∈ rest) : stageOf p o < stageOf p root := by
  induction h with
  | source => cases ho
  | link _ hstage _ ih =>
    rcases mem_cons.mp ho with rfl | ho
    · exact hstage
    · exact Nat.lt_trans (ih ho) hstage

lemma nodup : (root :: rest).Nodup := by
  induction h with
  | source => exact nodup_singleton _
  | link hproduces hstage hrest ih =>
    refine nodup_cons.mpr ⟨fun hmem ↦ ?_, ih⟩
    exact Nat.lt_irrefl _ ((link hproduces hstage hrest).stageOf_lt hmem)

lemma exists_of_mem_outer (hw : w ∈ outer) : ∃ o ∈ root :: rest, w ∈ p.operandsOf o := by
  induction h with
  | source o => exact ⟨o, mem_cons_self, hw⟩
  | @link consumer _ _ _ _ _ _ _ ih =>
    rcases mem_append.mp hw with hw | hw
    · obtain ⟨o, ho, hread⟩ := ih hw
      exact ⟨o, mem_cons_of_mem _ ho, hread⟩
    · exact ⟨consumer, mem_cons_self, mem_of_mem_erase hw⟩

lemma mem_outer_or (ho : o ∈ root :: rest) (hw : w ∈ p.operandsOf o) :
    w ∈ outer ∨ ∃ consumer ∈ root :: rest, p.usersOf w = [consumer] := by
  induction h with
  | source => exact .inl (mem_singleton.mp ho ▸ hw)
  | @link consumer _ v _ _ hproduces _ _ ih =>
    rcases mem_cons.mp ho with rfl | ho
    · by_cases hlink : w = v
      · exact .inr ⟨o, mem_cons_self, hlink ▸ hproduces.users⟩
      · exact .inl (mem_append_right _ ((mem_erase_of_ne hlink).mpr hw))
    · rcases ih ho with hw | ⟨x, hx, husers⟩
      · exact .inl (mem_append_left _ hw)
      · exact .inr ⟨x, mem_cons_of_mem _ hx, husers⟩

end Links

structure Match.Found (p : Program) (chain : Match) : Prop where
  root : ∃ node, p.op? chain.root = some node ∧ node.kind ∈ rootKinds
  nonempty : chain.interior ≠ []
  kind : chain.replacement.kind ∈ fusedKinds
  links : ∃ outer, Links p chain.root chain.interior.reverse outer ∧
    chain.replacement.operands ⊆ outer ∧ (Unary p → outer ⊆ chain.replacement.operands)

lemma mem_ops_iff : o ∈ chain.root :: chain.interior.reverse ↔
    o ∈ chain.interior ++ [chain.root] := by
  simp [or_comm]

namespace Match.Found

variable (h : chain.Found p)

include h

lemma interior (ho : o ∈ chain.interior) : ∃ node, p.op? o = some node ∧ node.kind ∈ linkKinds ∧
    node.regions = [] := by
  obtain ⟨outer, hlinks, -⟩ := h.links
  obtain ⟨v, consumer, -, ⟨node, hnode, hkind, hform, -⟩, -⟩ :=
    hlinks.exists_produces (mem_reverse.mpr ho)
  exact ⟨node, hnode, hkind, by rw [Operation.regions, hform]⟩

lemma free (ho : o ∈ chain.interior) (x : OpId) : o ∉ p.controlOf x := by
  obtain ⟨outer, hlinks, -⟩ := h.links
  obtain ⟨v, consumer, -, hproduces⟩ := hlinks.exists_produces (mem_reverse.mpr ho)
  exact fun hx ↦ not_mem_nil (hproduces.free ▸ mem_controlDependents.mpr hx)

lemma nodup : (chain.root :: chain.interior.reverse).Nodup := by
  obtain ⟨outer, hlinks, -⟩ := h.links
  exact hlinks.nodup

lemma reads (hv : v ∈ chain.replacement.operands) :
    ∃ o ∈ chain.interior ++ [chain.root], v ∈ p.operandsOf o := by
  obtain ⟨outer, hlinks, hreads, -⟩ := h.links
  obtain ⟨o, ho, hread⟩ := hlinks.exists_of_mem_outer (hreads hv)
  exact ⟨o, mem_ops_iff.mp ho, hread⟩

lemma isSome_op? (ho : o ∈ chain.interior ++ [chain.root]) : (p.op? o).isSome := by
  rcases mem_append.mp ho with ho | ho
  · obtain ⟨node, hnode, -⟩ := h.interior ho
    exact isSome_of_eq_some hnode
  · obtain ⟨node, hnode, -⟩ := h.root
    rw [mem_singleton.mp ho]
    exact isSome_of_eq_some hnode

end Match.Found

/-! ### What the rules find -/

/-- The chains that a rule finds at an operation: the operations in front of it, and what the fused
operation reads. -/
inductive Fits (p : Program) (root : OpId) : Rule → List OpId → List ValueId → Prop where
  | biased {node : Operation} {input bias : ValueId} {contraction : OpId}
      (hnode : p.op? root = some node) (hkind : node.kind = "BiasAdd")
      (hoperands : p.operandsOf root = [input, bias])
      (hcontraction : Produces p input root ["MatMul", "Conv2D"] contraction) :
      Fits p root contractionBiasActivation [contraction] (p.operandsOf contraction ++ [bias])
  | activated {node : Operation} {sum input bias : ValueId} {contraction biasAdd : OpId}
      (hnode : p.op? root = some node) (hkind : node.kind ∈ activations)
      (hsum : (p.operandsOf root).head? = some sum)
      (hbiasAdd : Produces p sum root ["BiasAdd"] biasAdd)
      (hoperands : p.operandsOf biasAdd = [input, bias])
      (hcontraction : Produces p input biasAdd ["MatMul", "Conv2D"] contraction) :
      Fits p root contractionBiasActivation [contraction, biasAdd]
      (p.operandsOf contraction ++ [bias])
  | sigmoidGated {node : Operation} {x gate : ValueId} {sigmoid : OpId}
      (hnode : p.op? root = some node) (hkind : node.kind = "Mul")
      (hfactors : p.operandsOf root = [x, gate] ∨ p.operandsOf root = [gate, x])
      (hsigmoid : Produces p gate root ["Sigmoid"] sigmoid) (hread : p.operandsOf sigmoid = [x]) :
      Fits p root swish [sigmoid] [x]
  | softplusGated {node : Operation} {x gate input : ValueId} {tanh softplus : OpId}
      (hnode : p.op? root = some node) (hkind : node.kind = "Mul")
      (hfactors : p.operandsOf root = [x, gate] ∨ p.operandsOf root = [gate, x])
      (htanh : Produces p gate root ["Tanh"] tanh) (hinput : (p.operandsOf tanh).head? = some input)
      (hsoftplus : Produces p input tanh ["Softplus"] softplus)
      (hread : p.operandsOf softplus = [x]) : Fits p root mish [softplus, tanh] [x]

section Order

variable (hnode : p.op? root = some node) (hkind : node.kind = "Mul") {x gate : ValueId}
  (hfactors : p.operandsOf root = [x, gate] ∨ p.operandsOf root = [gate, x])

include hnode hkind hfactors

lemma fits_of_swishOrder (hfound : swishOrder? p root node x gate = some chain) :
    chain.root = root ∧ chain.replacement.kind ∈ fusedKinds ∧
    Fits p root swish chain.interior chain.replacement.operands := by
  unfold swishOrder? at hfound
  simp only [bind_eq_bind, bind_eq_some_iff] at hfound
  obtain ⟨sigmoid, hsigmoid, sigmoidNode, hsigmoidNode, hfound⟩ := hfound
  split_ifs at hfound with hread
  cases hfound
  rw [producer?_eq_some] at hsigmoid
  rw [← operandsOf_eq hsigmoidNode] at hread
  exact ⟨rfl,
    (by decide : "_MklSwish" ∈ fusedKinds), .sigmoidGated hnode hkind hfactors hsigmoid hread⟩

lemma fits_of_mishOrder (hfound : mishOrder p root node x gate = .found chain) : chain.root = root ∧
    chain.replacement.kind ∈ fusedKinds ∧
    Fits p root mish chain.interior chain.replacement.operands := by
  unfold mishOrder at hfound
  split at hfound
  · cases hfound
  next tanh htanh =>
  split at hfound
  · cases hfound
  next input hinput =>
  split at hfound
  · cases hfound
  next softplus hsoftplus =>
  split_ifs at hfound with hread
  obtain rfl := Attempt.found.inj hfound
  obtain ⟨tanhNode, htanhNode, hinput⟩ := bind_eq_some_iff.mp hinput
  obtain ⟨softplusNode, hsoftplusNode, hread⟩ := map_eq_some_iff.mp hread
  rw [producer?_eq_some] at htanh hsoftplus
  rw [← operandsOf_eq htanhNode] at hinput
  rw [← operandsOf_eq hsoftplusNode] at hread
  exact ⟨rfl, (by decide : "_MklFusedMish" ∈ fusedKinds), .softplusGated hnode hkind hfactors htanh
    hinput hsoftplus hread⟩

end Order

lemma fits_of_contraction (hfind : contractionBiasActivation.find? p root = some chain) :
    chain.root = root ∧ chain.replacement.kind ∈ fusedKinds ∧
    Fits p root contractionBiasActivation chain.interior chain.replacement.operands := by
  unfold contractionBiasActivation at hfind
  simp only [bind_eq_bind, bind_eq_some_iff] at hfind
  obtain ⟨node, hnode, biasAdd, hfound, biasNode, hbiasNode, hfind⟩ := hfind
  split at hfind
  · next input bias hoperands =>
    simp only [bind_eq_some_iff] at hfind
    obtain ⟨contraction, hcontraction, contractionNode, hcontractionNode, hchain⟩ := hfind
    cases hchain
    rw [producer?_eq_some] at hcontraction
    rw [← operandsOf_eq hbiasNode] at hoperands
    have hfused : (if contractionNode.kind = "MatMul" then "_FusedMatMul" else "_FusedConv2D") ∈
        fusedKinds := by split_ifs <;> decide
    refine ⟨rfl, hfused, ?_⟩
    unfold biasAdd? at hfound
    split_ifs at hfound with hactivation hroot
    · obtain ⟨sum, hsum, hfound⟩ := bind_eq_some_iff.mp hfound
      rw [producer?_eq_some] at hfound
      rw [← operandsOf_eq hnode] at hsum
      simp only [hactivation, if_true, ← operandsOf_eq hcontractionNode]
      exact .activated hnode (contains_iff_mem.mp hactivation) hsum hfound hoperands hcontraction
    · cases hfound
      simp only [hactivation, ← operandsOf_eq hcontractionNode]
      exact .biased hnode hroot hoperands hcontraction
  · cases hfind

lemma fits_of_builtinRules (hrule : rule ∈ builtinRules) (hfind : rule.find? p root = some chain) :
    chain.root = root ∧ chain.replacement.kind ∈ fusedKinds ∧
    Fits p root rule chain.interior chain.replacement.operands := by
  simp only [builtinRules, mem_cons, not_mem_nil, or_false] at hrule
  rcases hrule with rfl | rfl | rfl
  · exact fits_of_contraction hfind
  · unfold swish at hfind
    simp only [bind_eq_bind, bind_eq_some_iff] at hfind
    obtain ⟨node, hnode, hfind⟩ := hfind
    split at hfind
    · next a b hkind hoperands =>
      rw [← operandsOf_eq hnode] at hoperands
      rcases or_eq_some_iff.mp hfind with hfound | ⟨-, hfound⟩
      · exact fits_of_swishOrder hnode hkind (.inl hoperands) hfound
      · exact fits_of_swishOrder hnode hkind (.inr hoperands) hfound
    · cases hfind
  · unfold mish at hfind
    simp only [bind_eq_bind, bind_eq_some_iff] at hfind
    obtain ⟨node, hnode, hfind⟩ := hfind
    split at hfind
    · next a b hkind hoperands =>
      rw [← operandsOf_eq hnode] at hoperands
      split at hfind
      · next found hfound =>
        cases hfind
        exact fits_of_mishOrder hnode hkind (.inl hoperands) hfound
      · cases hfind
      · split at hfind
        · next found hfound =>
          cases hfind
          exact fits_of_mishOrder hnode hkind (.inr hoperands) hfound
        · cases hfind
    · cases hfind

/-! ### Found chains are linked -/

lemma links_of_produces (hproduces : Produces p v root kinds o) (hkinds : kinds ⊆ linkKinds)
    (hmade : ∀ kind ∈ kinds, stage kind = n) (hstage : n < stageOf p root)
    (hrest : Links p o rest outer) : Links p root (o :: rest)
    (outer ++ (p.operandsOf root).erase v) :=
  .link (hproduces.mono hkinds) (by rwa [hproduces.stageOf_eq hmade]) hrest

lemma erase_factor {x gate : ValueId} (h : operands = [x, gate] ∨ operands = [gate, x]) :
    operands.erase gate ⊆ [x] := by
  rcases h with rfl | rfl
  · have hperm := (Perm.swap gate x []).erase gate
    rw [erase_cons_head] at hperm
    exact hperm.subset
  · rw [erase_cons_head]
    exact Subset.refl _

lemma Unary.erase_head (hunary : Unary p) (hnode : p.op? o = some node)
    (hkind : node.kind ∈ "Tanh" :: activations) (hhead : (p.operandsOf o).head? = some v) :
    (p.operandsOf o).erase v = [] := by
  obtain ⟨only, honly⟩ := length_eq_one_iff.mp (hunary o node hnode hkind)
  rw [operandsOf_eq hnode, honly] at hhead ⊢
  rw [← some.inj hhead, erase_cons_head]

section

variable {interior : List OpId} (h : Fits p root rule interior operands)

include h

lemma Fits.links : ∃ outer, Links p root interior.reverse outer ∧ operands ⊆ outer ∧
    (Unary p → outer ⊆ operands) := by
  cases h with
  | biased hnode hkind hoperands hcontraction =>
    have hlinks := links_of_produces (n := 0) hcontraction (by decide) (by decide)
      (by rw [stageOf_eq hnode, hkind]; decide) (.source _)
    rw [hoperands, erase_cons_head] at hlinks
    exact ⟨_, hlinks, Subset.refl _, fun _ ↦ Subset.refl _⟩
  | activated hnode hkind hsum hbiasAdd hoperands hcontraction =>
    have hstage : ∀ kind ∈ activations, stage kind = 2 := by decide
    have hinner := links_of_produces (n := 0) hcontraction (by decide) (by decide)
      (by rw [hbiasAdd.stageOf_eq (n := 1) (by decide)]; decide) (.source _)
    rw [hoperands, erase_cons_head] at hinner
    have hlinks := links_of_produces (n := 1) hbiasAdd (by decide) (by decide)
      (by rw [stageOf_eq hnode, hstage _ hkind]; decide) hinner
    refine ⟨_, hlinks, subset_append_left _ _, fun hunary ↦ ?_⟩
    rw [hunary.erase_head hnode (mem_cons_of_mem _ hkind) hsum, append_nil]
    exact Subset.refl _
  | sigmoidGated hnode hkind hfactors hsigmoid hread =>
    have hlinks := links_of_produces (n := 1) hsigmoid (by decide) (by decide)
      (by rw [stageOf_eq hnode, hkind]; decide) (.source _)
    rw [hread] at hlinks
    exact ⟨_, hlinks, subset_append_left _ _, fun _ ↦
      append_subset.mpr ⟨Subset.refl _, erase_factor hfactors⟩⟩
  | softplusGated hnode hkind hfactors htanh hinput hsoftplus hread =>
    have hinner := links_of_produces (n := 0) hsoftplus (by decide) (by decide)
      (by rw [htanh.stageOf_eq (n := 1) (by decide)]; decide) (.source _)
    have hlinks := links_of_produces (n := 1) htanh (by decide) (by decide)
      (by rw [stageOf_eq hnode, hkind]; decide) hinner
    rw [hread, append_assoc] at hlinks
    refine ⟨_, hlinks, subset_append_left _ _, fun hunary ↦ ?_⟩
    obtain ⟨tanhNode, htanhNode, htanhKind, -⟩ := htanh.node
    rw [hunary.erase_head htanhNode (mem_of_mem_head? ?_) hinput, nil_append]
    · exact append_subset.mpr ⟨Subset.refl _, erase_factor hfactors⟩
    · exact congrArg some (mem_singleton.mp htanhKind).symm

lemma Fits.exists_root : ∃ node, p.op? root = some node ∧ node.kind ∈ rootKinds := by
  have hkinds : ∀ kind ∈ activations, kind ∈ rootKinds := by decide
  cases h with
  | biased hnode hkind => exact ⟨_, hnode, by rw [hkind]; decide⟩
  | activated hnode hkind => exact ⟨_, hnode, hkinds _ hkind⟩
  | sigmoidGated hnode hkind => exact ⟨_, hnode, by rw [hkind]; decide⟩
  | softplusGated hnode hkind => exact ⟨_, hnode, by rw [hkind]; decide⟩

end

lemma found_of_builtinRules (hrule : rule ∈ builtinRules) (hfind : rule.find? p root = some chain) :
    chain.root = root ∧ chain.Found p := by
  obtain ⟨rfl, hkind, hfits⟩ := fits_of_builtinRules hrule hfind
  refine ⟨rfl, hfits.exists_root, fun hnone ↦ ?_, hkind, hfits.links⟩
  rw [hnone] at hfits
  cases hfits

/-! ### What fits is found -/

lemma mishOrder_ne_abandoned (hunary : Unary p) (x gate : ValueId) :
    mishOrder p root node x gate ≠ .abandoned := by
  unfold mishOrder
  split
  · exact Attempt.noConfusion
  next tanh htanh =>
  obtain ⟨tanhNode, htanhNode, hkind, -⟩ := (producer?_eq_some.mp htanh).node
  obtain ⟨only, honly⟩ := length_eq_one_iff.mp (hunary tanh tanhNode htanhNode
    (mem_of_mem_head? (congrArg some (mem_singleton.mp hkind).symm)))
  rw [htanhNode, bind_some, honly]
  dsimp only [head?_cons]
  split
  · exact Attempt.noConfusion
  · split_ifs <;> exact Attempt.noConfusion

lemma Fits.isSome_find? {interior : List OpId} (h : Fits p root rule interior operands)
    (hunary : Unary p) : (rule.find? p root).isSome := by
  cases h with
  | @biased node _ _ _ hnode hkind hoperands hcontraction =>
    obtain ⟨other, hother, -⟩ := hcontraction.node
    rw [operandsOf_eq hnode] at hoperands
    simp [contractionBiasActivation, biasAdd?, activations, hnode, hkind, hoperands,
      producer?_eq_some.mpr hcontraction, hother]
  | activated hnode hkind hsum hbiasAdd hoperands hcontraction =>
    obtain ⟨other, hother, -⟩ := hcontraction.node
    obtain ⟨biasNode, hbiasNode, -⟩ := hbiasAdd.node
    rw [operandsOf_eq hnode] at hsum
    rw [operandsOf_eq hbiasNode] at hoperands
    simp [contractionBiasActivation, biasAdd?, hnode, hkind, hsum, producer?_eq_some.mpr hbiasAdd,
      hbiasNode, hoperands, producer?_eq_some.mpr hcontraction, hother]
  | @sigmoidGated node x gate _ hnode hkind hfactors hsigmoid hread =>
    obtain ⟨other, hother, -⟩ := hsigmoid.node
    rw [operandsOf_eq hother] at hread
    rw [operandsOf_eq hnode] at hfactors
    have hfound : (swishOrder? p root node x gate).isSome := by
      simp [swishOrder?, producer?_eq_some.mpr hsigmoid, hother, hread]
    rcases hfactors with hfactors | hfactors <;> simp [swish, hnode, hkind, hfactors, hfound]
  | @softplusGated node x gate _ _ _ hnode hkind hfactors htanh hinput hsoftplus hread =>
    obtain ⟨tanhNode, htanhNode, -⟩ := htanh.node
    obtain ⟨other, hother, -⟩ := hsoftplus.node
    rw [operandsOf_eq htanhNode] at hinput
    rw [operandsOf_eq hother] at hread
    rw [operandsOf_eq hnode] at hfactors
    have hfound : ∃ chain, mishOrder p root node x gate = .found chain := by
      simp [mishOrder, producer?_eq_some.mpr htanh, htanhNode, hinput,
        producer?_eq_some.mpr hsoftplus, hother, hread]
    obtain ⟨chain, hfound⟩ := hfound
    rcases hfactors with hfactors | hfactors
    · simp [mish, hnode, hkind, hfactors, hfound]
    · cases hfirst : mishOrder p root node gate x with
      | found => simp [mish, hnode, hkind, hfactors, hfirst]
      | notFound => simp [mish, hnode, hkind, hfactors, hfirst, hfound]
      | abandoned => exact absurd hfirst (mishOrder_ne_abandoned hunary gate x)

end TensorGraph.Fusion
