import TensorGraph.Proofs.ChainMatches
import TensorGraph.Proofs.ControlEdges
import TensorGraph.Proofs.Growth

/-!
Programs in which chains of operations have become single ones. `Contracts chains p q` says that `q`
is `p` with each chain replaced by one operation.
-/

namespace TensorGraph.Fusion

open Program List Option

variable {p : Program} {x o : OpId} {v : ValueId}

/-- A chain that has become one operation. -/
structure Chain where
  root : OpId
  interior : List OpId
  fused : OpId

def Chain.ops (chain : Chain) : List OpId :=
  chain.interior ++ [chain.root]

/-- The operations that have become part of others. -/
def merged (chains : List Chain) : List OpId :=
  chains.flatMap Chain.ops

/-- What has become of an operation. -/
def image (chains : List Chain) (x : OpId) : OpId :=
  ((chains.find? (·.ops.contains x)).map Chain.fused).getD x

/-- What has become of the value in a slot. A result of a root has become the result of the fused
operation at the same place, of the same type; any other value is still there. -/
inductive Carried (chains : List Chain) (p q : Program) (v w : ValueId) : Prop where
  | moved {chain : Chain} (hchain : chain ∈ chains) {index : Nat}
      (hold : (p.resultsOf chain.root)[index]? = some v)
      (hnew : (q.resultsOf chain.fused)[index]? = some w) (htype : q.typeOf? w = p.typeOf? v)
  | kept (hv : ∀ chain ∈ chains, v ∉ p.resultsOf chain.root) (hw : w = v)

/-- Each chain of `p` is one operation of `q`, and nothing else has changed but what that brings
about. -/
structure Contracts (chains : List Chain) (p q : Program) : Prop where
  /-- Chains are made of live operations. -/
  live : ∀ o ∈ merged chains, ∃ node, p.op? o = some node ∧ node.kind ∈ rootKinds ++ linkKinds
  /-- No operation is in two chains or at two places of a chain. -/
  apart : (merged chains).Nodup
  /-- No two chains have become the same operation. -/
  distinct : (chains.map Chain.fused).Nodup
  /-- No fused operation has the handle of an operation that is still there. -/
  fresh : ∀ chain ∈ chains, (p.op? chain.fused).isSome → chain.fused ∈ merged chains
  /-- The other operations are as they were, up to operands and control dependencies. -/
  survives : ∀ x ∉ merged chains, ∀ node, p.op? x = some node → q.op? x =
    some { node with operands := q.operandsOf x, control := q.controlOf x }
  operands : ∀ x ∉ merged chains, (p.op? x).isSome →
    List.Forall₂ (Carried chains p q) (p.operandsOf x) (q.operandsOf x)
  fused : ∀ chain ∈ chains, ∃ node, q.op? chain.fused = some node ∧ node.kind ∈ fusedKinds ∧
    node.results.length = (p.resultsOf chain.root).length
  /-- A fused operation reads what the chain read. -/
  reads : ∀ chain ∈ chains, ∀ w ∈ q.operandsOf chain.fused,
    ∃ o ∈ chain.ops, ∃ v ∈ p.operandsOf o, Carried chains p q v w
  /-- There are no other operations. -/
  covers : ∀ x, (q.op? x).isSome →
    (∃ chain ∈ chains, chain.fused = x) ∨ x ∉ merged chains ∧ (p.op? x).isSome
  /-- No control dependency is lost, except within a chain. -/
  waits : ∀ a, ∀ d ∈ p.controlOf a,
    image chains a = image chains d ∨ image chains d ∈ q.controlOf (image chains a)
  /-- No control dependency comes from nowhere. -/
  waited : ∀ a', ∀ d' ∈ q.controlOf a',
    ∃ a d, d ∈ p.controlOf a ∧ image chains a = a' ∧ image chains d = d'
  values : ∀ v, v.index < p.values.length →
    q.typeOf? v = p.typeOf? v ∧ q.originOf? v = p.originOf? v

/-! ### Images -/

section Image

variable {chains more : List Chain} {chain : Chain}

lemma mem_merged : x ∈ merged chains ↔ ∃ chain ∈ chains, x ∈ chain.ops :=
  mem_flatMap

lemma root_mem_merged (hchain : chain ∈ chains) : chain.root ∈ merged chains :=
  mem_merged.mpr ⟨chain, hchain, by simp [Chain.ops]⟩

lemma find?_eq_none_iff : chains.find? (·.ops.contains x) = none ↔ x ∉ merged chains := by
  simp [mem_merged, find?_eq_none]

lemma image_of_not_mem (hx : x ∉ merged chains) : image chains x = x := by
  rw [image, find?_eq_none_iff.mpr hx]
  rfl

lemma exists_image_eq (hx : x ∈ merged chains) : ∃ chain ∈ chains, x ∈ chain.ops ∧
    image chains x = chain.fused := by
  cases hfind : chains.find? (·.ops.contains x) with
  | none => exact absurd hx (find?_eq_none_iff.mp hfind)
  | some first =>
    refine ⟨first, mem_of_find?_eq_some hfind, ?_, by rw [image, hfind]; rfl⟩
    have hcontains : first.ops.contains x = true := by simpa using find?_some hfind
    exact contains_iff_mem.mp hcontains

lemma image_singleton (chain : Chain) (x : OpId) :
    image [chain] x = if x ∈ chain.ops then chain.fused else x := by
  split_ifs with hx
  · obtain ⟨found, hfound, -, himage⟩ :=
      exists_image_eq (mem_merged.mpr ⟨chain, mem_singleton_self _, hx⟩)
    rw [himage, mem_singleton.mp hfound]
  · refine image_of_not_mem fun hmem ↦ hx ?_
    simpa [merged] using hmem

lemma image_append (hfused : ∀ chain ∈ chains, chain.fused ∉ merged more) (x : OpId) :
    image (chains ++ more) x = image more (image chains x) := by
  by_cases hx : x ∈ merged chains
  · obtain ⟨chain, hchain, -, himage⟩ := exists_image_eq hx
    rw [himage, image_of_not_mem (hfused chain hchain), ← himage, image, image, find?_append]
    cases hfind : chains.find? (·.ops.contains x) with
    | none => exact absurd hx (find?_eq_none_iff.mp hfind)
    | some first => rfl
  · rw [image_of_not_mem hx, image, find?_append, find?_eq_none_iff.mpr hx]
    rfl

end Image

/-! ### Composition -/

namespace Contracts

lemma refl (p : Program) : Contracts [] p p where
  live _ ho := by cases ho
  apart := .nil
  distinct := .nil
  fresh _ hchain := by cases hchain
  survives x _ node hnode := by rw [hnode, operandsOf_eq hnode, controlOf_eq hnode]
  operands _ _ _ := forall₂_same.mpr fun _ _ ↦ .kept (fun _ hchain ↦ by cases hchain) rfl
  fused _ hchain := by cases hchain
  reads _ hchain := by cases hchain
  covers _ hx := .inr ⟨not_mem_nil, hx⟩
  waits _ _ hd := .inr hd
  waited a d hd := ⟨a, d, hd, rfl, rfl⟩
  values _ _ := ⟨rfl, rfl⟩

section Reading

variable {chains : List Chain} {q : Program} (h : Contracts chains p q)

include h

lemma op?_isSome (hx : x ∉ merged chains) (hlive : (p.op? x).isSome) : (q.op? x).isSome := by
  obtain ⟨node, hnode⟩ := isSome_iff_exists.mp hlive
  rw [h.survives x hx node hnode]
  rfl

lemma resultsOf (hx : x ∉ merged chains) (hlive : (p.op? x).isSome) :
    q.resultsOf x = p.resultsOf x := by
  obtain ⟨node, hnode⟩ := isSome_iff_exists.mp hlive
  rw [resultsOf_eq (h.survives x hx node hnode), resultsOf_eq hnode]

lemma lt_values (hv : v.index < p.values.length) : v.index < q.values.length := by
  have hvalue : p.value? v = some p.values[v.index] := getElem?_eq_getElem hv
  exact lt_of_originOf? ((h.values v hv).2.trans (originOf?_eq hvalue))

lemma isSome_image (hlive : (p.op? x).isSome) : (q.op? (image chains x)).isSome := by
  by_cases hx : x ∈ merged chains
  · obtain ⟨chain, hchain, -, himage⟩ := exists_image_eq hx
    obtain ⟨node, hnode, -⟩ := h.fused chain hchain
    rw [himage, hnode]
    rfl
  · rw [image_of_not_mem hx]
    exact h.op?_isSome hx hlive

lemma exists_before {node : Operation} (hnode : q.op? x = some node)
    (hkind : node.kind ∉ fusedKinds) : x ∉ merged chains ∧ ∃ before, p.op? x = some before ∧
      node = { before with operands := node.operands, control := node.control } := by
  rcases h.covers x (by rw [hnode]; rfl) with ⟨chain, hchain, rfl⟩ | ⟨hx, hlive⟩
  · obtain ⟨other, hother, hfused, -⟩ := h.fused chain hchain
    cases hnode.symm.trans hother
    exact absurd hfused hkind
  · obtain ⟨before, hbefore⟩ := isSome_iff_exists.mp hlive
    have hsame := some.inj (hnode.symm.trans (h.survives x hx before hbefore))
    refine ⟨hx, before, hbefore, ?_⟩
    rw [hsame]

end Reading

section Trans

variable {chains more : List Chain} {m q : Program} (h : Contracts chains p m)
  (h' : Contracts more m q)

include h h'

lemma fused_not_mem (hchain : chain ∈ chains) : chain.fused ∉ merged more := by
  intro hmem
  have hkinds : ∀ kind ∈ rootKinds ++ linkKinds, kind ∉ fusedKinds := by decide
  obtain ⟨node, hnode, hfused, -⟩ := h.fused chain hchain
  obtain ⟨other, hother, hkind⟩ := h'.live chain.fused hmem
  cases hnode.symm.trans hother
  exact hkinds node.kind hkind hfused

lemma exists_start (ho : o ∈ merged more) :
    o ∉ merged chains ∧ ∃ node, p.op? o = some node ∧ node.kind ∈ rootKinds ++ linkKinds := by
  have hkinds : ∀ kind ∈ rootKinds ++ linkKinds, kind ∉ fusedKinds := by decide
  obtain ⟨node, hnode, hkind⟩ := h'.live o ho
  obtain ⟨hnot, before, hbefore, hsame⟩ := h.exists_before hnode (hkinds node.kind hkind)
  refine ⟨hnot, before, hbefore, ?_⟩
  rwa [hsame] at hkind

lemma resultsOf_start (ho : o ∈ merged more) : m.resultsOf o = p.resultsOf o := by
  obtain ⟨hnot, node, hnode, -⟩ := h.exists_start h' ho
  exact h.resultsOf hnot (by rw [hnode]; rfl)

lemma resultsOf_fused (hchain : chain ∈ chains) :
    q.resultsOf chain.fused = m.resultsOf chain.fused := by
  obtain ⟨node, hnode, -⟩ := h.fused chain hchain
  exact h'.resultsOf (h.fused_not_mem h' hchain) (by rw [hnode]; rfl)

variable (hp : p.Consistent) (hm : m.Consistent)

include hp hm

lemma carried {u w : ValueId} (huv : Carried chains p m u v) (hvw : Carried more m q v w) :
    Carried (chains ++ more) p q u w := by
  cases huv with
  | moved hchain hold hnew htype =>
    cases hvw with
    | moved hchain' hold' _ _ =>
      -- The value would be a result of an operation of a later chain, and of one that stands for a
      -- chain.
      have hsame := hm.eq_of_mem_resultsOf (mem_of_getElem? hnew) (mem_of_getElem? hold')
      exact absurd (hsame ▸ root_mem_merged hchain') (h.fused_not_mem h' hchain)
    | kept _ hw =>
      subst hw
      have hlt := hm.lt_of_mem_resultsOf (mem_of_getElem? hnew)
      refine .moved (mem_append_left _ hchain) hold ?_ ((h'.values w hlt).1.trans htype)
      rw [h.resultsOf_fused h' hchain]
      exact hnew
  | kept hu hv =>
    subst hv
    cases hvw with
    | moved hchain hold hnew htype =>
      rw [h.resultsOf_start h' (root_mem_merged hchain)] at hold
      have hlt := hp.lt_of_mem_resultsOf (mem_of_getElem? hold)
      exact .moved (mem_append_right _ hchain) hold hnew (htype.trans (h.values v hlt).1)
    | kept hv hw =>
      refine .kept (fun chain hchain ↦ ?_) hw
      rcases mem_append.mp hchain with hchain | hchain
      · exact hu chain hchain
      · rw [← h.resultsOf_start h' (root_mem_merged hchain)]
        exact hv chain hchain

lemma trans : Contracts (chains ++ more) p q := by
  have hmerged : merged (chains ++ more) = merged chains ++ merged more := flatMap_append
  have himage := image_append fun chain hchain ↦ h.fused_not_mem h' hchain
  constructor
  case live =>
    intro o ho
    rw [hmerged] at ho
    rcases mem_append.mp ho with ho | ho
    · exact h.live o ho
    · exact (h.exists_start h' ho).2
  case apart =>
    rw [hmerged]
    exact nodup_append'.mpr ⟨h.apart, h'.apart, fun o ho ho' ↦ (h.exists_start h' ho').1 ho⟩
  case distinct =>
    rw [map_append]
    refine nodup_append'.mpr ⟨h.distinct, h'.distinct, fun o ho ho' ↦ ?_⟩
    obtain ⟨chain, hchain, rfl⟩ := mem_map.mp ho
    obtain ⟨other, hother, heq⟩ := mem_map.mp ho'
    obtain ⟨node, hlive, -⟩ := h.fused chain hchain
    have hmem := h'.fresh other hother (by rw [heq, hlive]; rfl)
    rw [heq] at hmem
    exact h.fused_not_mem h' hchain hmem
  case fresh =>
    intro chain hchain hlive
    rw [hmerged]
    by_cases hbefore : chain.fused ∈ merged chains
    · exact mem_append_left _ hbefore
    · rcases mem_append.mp hchain with hchain | hchain
      · exact mem_append_left _ (h.fresh chain hchain hlive)
      · exact mem_append_right _ (h'.fresh chain hchain (h.op?_isSome hbefore hlive))
  case survives =>
    intro x hx node hnode
    rw [hmerged, mem_append, not_or] at hx
    have hmiddle := h.survives x hx.1 node hnode
    exact h'.survives x hx.2
      { node with operands := m.operandsOf x, control := m.controlOf x } hmiddle
  case operands =>
    intro x hx hlive
    rw [hmerged, mem_append, not_or] at hx
    refine forall₂_trans ?_ (h.operands x hx.1 hlive) (h'.operands x hx.2 (h.op?_isSome hx.1 hlive))
    exact fun u v w huv hvw ↦ h.carried h' hp hm huv hvw
  case fused =>
    intro chain hchain
    rcases mem_append.mp hchain with hchain | hchain
    · obtain ⟨node, hnode, hkind, hlength⟩ := h.fused chain hchain
      exact ⟨_, h'.survives _ (h.fused_not_mem h' hchain) node hnode, hkind, hlength⟩
    · obtain ⟨node, hnode, hkind, hlength⟩ := h'.fused chain hchain
      refine ⟨node, hnode, hkind, ?_⟩
      rw [hlength, h.resultsOf_start h' (root_mem_merged hchain)]
  case reads =>
    intro chain hchain w hw
    rcases mem_append.mp hchain with hchain | hchain
    · obtain ⟨node, hnode, -⟩ := h.fused chain hchain
      obtain ⟨v, hv, hvw⟩ :=
        exists_of_mem_right (h'.operands _ (h.fused_not_mem h' hchain) (by rw [hnode]; rfl)) hw
      obtain ⟨o, ho, u, hu, huv⟩ := h.reads chain hchain v hv
      exact ⟨o, ho, u, hu, h.carried h' hp hm huv hvw⟩
    · obtain ⟨o, ho, v, hv, hvw⟩ := h'.reads chain hchain w hw
      obtain ⟨hnot, node, hnode, -⟩ := h.exists_start h' (mem_merged.mpr ⟨chain, hchain, ho⟩)
      obtain ⟨u, hu, huv⟩ := exists_of_mem_right (h.operands o hnot (by rw [hnode]; rfl)) hv
      exact ⟨o, ho, u, hu, h.carried h' hp hm huv hvw⟩
  case covers =>
    intro x hx
    rcases h'.covers x hx with ⟨chain, hchain, hfused⟩ | ⟨hnot, hlive⟩
    · exact .inl ⟨chain, mem_append_right _ hchain, hfused⟩
    · rcases h.covers x hlive with ⟨chain, hchain, hfused⟩ | ⟨hnot', hlive'⟩
      · exact .inl ⟨chain, mem_append_left _ hchain, hfused⟩
      · rw [hmerged, mem_append, not_or]
        exact .inr ⟨⟨hnot', hnot⟩, hlive'⟩
  case waits =>
    intro a d hd
    rw [himage, himage]
    rcases h.waits a d hd with hsame | hwaits
    · exact .inl (by rw [hsame])
    · exact h'.waits _ _ hwaits
  case waited =>
    intro a' d' hd
    obtain ⟨b, e, he, rfl, rfl⟩ := h'.waited a' d' hd
    obtain ⟨a, d, hold, rfl, rfl⟩ := h.waited b e he
    exact ⟨a, d, hold, himage a, himage d⟩
  case values =>
    intro v hv
    obtain ⟨htype, horigin⟩ := h.values v hv
    obtain ⟨htype', horigin'⟩ := h'.values v (h.lt_values hv)
    exact ⟨htype'.trans htype, horigin'.trans horigin⟩

end Trans

end Contracts

/-! ### Amenable programs -/

/-- Fusion goes through: nothing waits for what is gone, roots own no regions, and an operand that
is on record as a result of an operation that may go into a chain is one of its results. -/
structure Amenable (p : Program) : Prop where
  control : p.LiveControl
  flat : ∀ x node, p.op? x = some node → node.kind ∈ rootKinds → node.regions = []
  current : ∀ x, ∀ v ∈ p.operandsOf x, ∀ o index, p.originOf? v = some (.result o index) →
    ∀ node, p.op? o = some node → node.kind ∈ linkKinds → v ∈ node.results

def Suits (p : Program) (x : OpId) : Prop :=
  (∀ node ∈ p.op? x, node.kind ∈ rootKinds → node.regions = []) ∧
    ∀ v ∈ p.operandsOf x, ∀ o ∈ (p.value? v).bind Value.definingOp?, ∀ node ∈ p.op? o,
      node.kind ∈ linkKinds → v ∈ node.results

instance (p : Program) (x : OpId) : Decidable (Suits p x) :=
  inferInstanceAs (Decidable (_ ∧ _))

lemma amenable_of_suits (hcontrol : p.LiveControl) (h : ∀ i < p.slots.length, Suits p ⟨i⟩) :
    Amenable p := by
  refine ⟨hcontrol, fun x node hnode hkind ↦ ?_, fun x v hv o index horigin node hnode hkind ↦ ?_⟩
  · exact (h x.index (index_lt_of_isSome (by rw [hnode]; rfl))).1 node hnode hkind
  · obtain ⟨value, hvalue, hplace⟩ := map_eq_some_iff.mp horigin
    refine (h x.index (index_lt_of_isSome (isSome_op?_of_mem_operandsOf hv))).2 v
      hv o ?_ node hnode hkind
    exact bind_eq_some_iff.mpr ⟨value, hvalue, definingOp?_eq_some.mpr ⟨index, hplace⟩⟩

lemma Contracts.amenable {chains : List Chain} {q : Program} (h : Contracts chains p q)
    (hp : Amenable p) (hconsistent : p.Consistent) (hq : q.Consistent) : Amenable q := by
  refine ⟨fun x d hd ↦ ?_, fun x node hnode hkind ↦ ?_,
    fun x w hw o index horigin node hnode hkind ↦ ?_⟩
  · obtain ⟨a, b, hb, -, rfl⟩ := h.waited x d hd
    exact h.isSome_image (hp.control a b hb)
  · have hkinds : ∀ kind ∈ rootKinds, kind ∉ fusedKinds := by decide
    obtain ⟨-, before, hbefore, hsame⟩ := h.exists_before hnode (hkinds node.kind hkind)
    rw [hsame] at hkind ⊢
    exact hp.flat x before hbefore hkind
  · have hkinds : ∀ kind ∈ linkKinds, kind ∉ fusedKinds := by decide
    -- Whoever uses the value, some operation has used what it stands for.
    obtain ⟨y, v, hv, hvw⟩ : ∃ y, ∃ v ∈ p.operandsOf y, Carried chains p q v w := by
      rcases h.covers x (isSome_op?_of_mem_operandsOf hw) with ⟨chain, hchain, rfl⟩ | ⟨hnot, hlive'⟩
      · obtain ⟨y, -, v, hv, hvw⟩ := h.reads chain hchain w hw
        exact ⟨y, v, hv, hvw⟩
      · obtain ⟨v, hv, hvw⟩ := exists_of_mem_right (h.operands x hnot hlive') hw
        exact ⟨x, v, hv, hvw⟩
    cases hvw with
    | moved hchain _ hnew _ =>
      obtain ⟨other, hother, hfused, -⟩ := h.fused _ hchain
      have hsame := (hq.placed.results _ _ _ hnew).symm.trans horigin
      obtain ⟨rfl, -⟩ := Origin.result.inj (some.inj hsame)
      cases hnode.symm.trans hother
      exact absurd hfused (hkinds _ hkind)
    | kept _ hw =>
      subst hw
      obtain ⟨-, before, hbefore, hsame⟩ := h.exists_before hnode (hkinds node.kind hkind)
      rw [(h.values w (hconsistent.lt_of_mem_operandsOf hv)).2] at horigin
      rw [hsame] at hkind ⊢
      exact hp.current y w hv o index horigin before hbefore hkind

end TensorGraph.Fusion
