import TensorGraph.Proofs.Inlining

/-!
Where operations come from while bodies of functions are copied into the operations that name them.
A copy of an operation that is still to be converted looks like one that was there at the start.
-/

namespace TensorGraph

open Relation List Option

variable {o : OpId} {node : Operation} {func : Func} {busy : List OpId} {opened : List RegionId}
    {r : RegionId} {p : Program}

namespace Program

/-! ### Places that stay -/

structure StaysPut (p q : Program) : Prop where
  parent : ∀ o, (p.op? o).isSome → q.parentOf? o = p.parentOf? o
  owner : ∀ r, (p.region? r).isSome → q.parentOp? r = p.parentOp? r
  roots : q.roots = p.roots

namespace StaysPut

variable {q : Program}

lemma of_grows (hg : Grows busy opened p q)
    (hbusy : ∀ o ∈ busy, (p.op? o).isSome → q.parentOf? o = p.parentOf? o)
    (hopened : ∀ r ∈ opened, (p.region? r).isSome → q.parentOp? r = p.parentOp? r) :
    StaysPut p q where
  parent o ho := by
    by_cases hmem : o ∈ busy
    · exact hbusy o hmem ho
    · exact parentOf?_congr (hg.op?_eq ho hmem)
  owner r hr := by
    by_cases hmem : r ∈ opened
    · exact hopened r hmem hr
    · exact parentOp?_congr (ownerOf?_congr (hg.region?_eq hr hmem))
  roots := hg.roots

lemma of_busy {node' : Operation} (hg : Grows [o] [] p q) (ho : p.op? o = some node)
    (ho' : q.op? o = some node') (hparent : node'.parent = node.parent) : StaysPut p q := by
  refine of_grows hg (fun x hx _ ↦ ?_) (by simp)
  rw [mem_singleton.mp hx, parentOf?_eq ho, parentOf?_eq ho', hparent]

lemma of_filled {t : RegionId} {w : OpId} (hg : Grows [] [t] p q) (hp : p.Consistent)
    (hq : q.Consistent) (ht : t ∈ p.regionsOf w) : StaysPut p q ∧ t ∈ q.regionsOf w := by
  have ht' : t ∈ q.regionsOf w := by
    rwa [regionsOf_congr (hg.op?_eq (isSome_of_mem_regionsOf ht) not_mem_nil)]
  refine ⟨of_grows hg (by simp) fun r hr _ ↦ ?_, ht'⟩
  rw [mem_singleton.mp hr, hp.mem_regionsOf.mp ht, hq.mem_regionsOf.mp ht']

variable (h : StaysPut p q) (hp : p.Consistent)

include h hp

lemma ancestorIn_iff {a : OpId} (ho : (p.op? o).isSome) : AncestorIn q r o a ↔
    AncestorIn p r o a := by
  constructor
  · intro hanc
    induction hanc with
    | @here o hparent => exact .here (h.parent o ho ▸ hparent)
    | @up o owner a home hparent howner _ ih =>
      rw [h.parent o ho] at hparent
      rw [h.owner home (isSome_region?_of_mem_opsIn (hp.mem_opsIn.mpr hparent))] at howner
      exact .up hparent howner (ih (hp.isSome_of_parentOp? howner))
  · intro hanc
    induction hanc with
    | @here o hparent => exact .here ((h.parent o ho).trans hparent)
    | @up o owner a home hparent howner _ ih =>
      refine .up ((h.parent o ho).trans hparent) ?_ (ih (hp.isSome_of_parentOp? howner))
      rw [h.owner home (isSome_region?_of_mem_opsIn (hp.mem_opsIn.mpr hparent))]
      exact howner

lemma attached (hq : q.Consistent) (hr : (p.region? r).isSome) (hattached : q.Attached r) :
    p.Attached r := by
  obtain ⟨n, hat⟩ := hattached
  induction hat with
  | root hroot => exact ⟨0, .root (h.roots ▸ hroot)⟩
  | @nested n home inner o _ ho hinner ih =>
    have howner := hq.mem_regionsOf.mp hinner
    rw [h.owner inner hr] at howner
    have hinner' := hp.mem_regionsOf.mpr howner
    have hparent := hq.mem_opsIn.mp ho
    rw [h.parent o (isSome_of_mem_regionsOf hinner')] at hparent
    have ho' := hp.mem_opsIn.mpr hparent
    exact (ih (isSome_region?_of_mem_opsIn ho')).nested ho' hinner'

lemma mem_allOps (hq : q.Consistent) (ho : (p.op? o).isSome) (hmem : o ∈ q.allOps) :
    o ∈ p.allOps := by
  obtain ⟨r, hr, hparent⟩ := (Program.mem_allOps hq).mp hmem
  rw [h.parent o ho] at hparent
  have hregion := isSome_region?_of_mem_opsIn (hp.mem_opsIn.mpr hparent)
  exact (Program.mem_allOps hp).mpr ⟨r, h.attached hp hq hregion hr, hparent⟩

end StaysPut

lemma mem_roots_of_mem_funcs (h : func ∈ p.funcs) : func.body ∈ p.roots :=
  mem_cons_of_mem _ (mem_map_of_mem h)

lemma Consistent.func?_of_mem (hp : p.Consistent) (h : func ∈ p.funcs) :
    p.func? func.name = some func := by
  unfold func?
  cases hfind : p.funcs.find? (·.name == func.name) with
  | none => exact absurd (beq_self_eq_true func.name) (find?_eq_none.mp hfind func h)
  | some other =>
    have hname : other.name = func.name := by simpa using find?_some hfind
    rw [inj_on_of_nodup_map hp.placed.names (mem_of_find?_eq_some hfind) h hname]

end Program

namespace RegionForm

open Program Edit

/-! ### What operations name -/

/-- The scheme by which an operation is to be converted. -/
def scheme? (node : Operation) : Option Scheme :=
  match node.form with
  | .functional _ => schemeOf node.kind
  | _ => none

/-- The functions an operation that is to be converted names, in the order of the regions they
become. -/
def calleesOf (node : Operation) : List String :=
  match scheme? node with
  | some scheme =>
    scheme.roles.flatMap fun role ↦ (node.funcRefs.filter (·.role == role)).map (·.func)
  | none => []

/-- Some operation to be converted that lies in the function `caller` names the function
`callee`. -/
def Names (p : Program) (caller callee : String) : Prop :=
  ∃ func o a node, p.func? caller = some func ∧ AncestorIn p func.body o a ∧ p.op? o = some node ∧
    callee ∈ calleesOf node

structure Alike (model node : Operation) : Prop where
  kind : node.kind = model.kind
  form : node.form = model.form
  operands : node.operands.length = model.operands.length
  results : node.results.length = model.results.length

namespace Alike

variable {model node' : Operation}

lemma refl (node : Operation) : Alike node node := ⟨rfl, rfl, rfl, rfl⟩

section

variable (h : Alike model node)

include h

lemma trans (h' : Alike node node') : Alike model node' :=
  ⟨h'.kind.trans h.kind, h'.form.trans h.form, h'.operands.trans h.operands,
    h'.results.trans h.results⟩

lemma scheme?_eq : scheme? node = scheme? model := by
  rw [scheme?, h.form, h.kind, scheme?]

lemma funcRefs_eq : node.funcRefs = model.funcRefs := by
  rw [Operation.funcRefs, h.form, Operation.funcRefs]

lemma calleesOf_eq : calleesOf node = calleesOf model := by
  rw [calleesOf, h.scheme?_eq, h.funcRefs_eq, calleesOf]

end

end Alike

lemma scheme?_eq_none (h : ∀ refs, node.form ≠ .functional refs) : scheme? node = none := by
  unfold scheme?
  cases hform : node.form with
  | functional refs => exact absurd hform (h refs)
  | plain => rfl
  | nested regions => rfl

lemma exists_scheme_of_mem_calleesOf {name : String} (h : name ∈ calleesOf node) :
    (scheme? node).isSome := by
  unfold calleesOf at h
  cases hscheme : scheme? node with
  | none => simp [hscheme] at h
  | some scheme => rfl

/-! ### What a conversion keeps -/

/-- `q` has come from `p` by steps of conversions. Bodies of functions are as they were, and control
dependencies are there. What is still to be converted looks like something that was there at the
start, and the function where it lies leads to what it names. -/
structure Derived (p q : Program) : Prop where
  consistent : q.Consistent
  funcs : q.funcs = p.funcs
  graph : q.graph = p.graph
  bodies : ∀ func ∈ p.funcs, q.region? func.body = p.region? func.body
  ends : ∀ o, (p.op? o).isSome → q.isEnd o = p.isEnd o
  live : ∀ o, (p.op? o).isSome → (q.op? o).isSome
  control : ∀ o ∈ q.allOps, ∀ d ∈ q.controlOf o, (q.op? d).isSome
  models : ∀ o ∈ q.allOps, ∀ node, q.op? o = some node → (scheme? node).isSome →
    ∃ x ∈ p.allOps, ∃ model, p.op? x = some model ∧ Alike model node
  callees : ∀ func ∈ p.funcs, ∀ o a node, AncestorIn q func.body o a → q.op? o = some node →
    ∀ name ∈ calleesOf node, TransGen (Names p) func.name name

/-- What is asked of a new operation: that its control dependencies are there, that it looks like
one that was there if it is to be converted, and that the functions where it lies lead to what it
names. -/
structure Warranted (p s q : Program) (o : OpId) (node : Operation) : Prop where
  control : ∀ d ∈ node.control, (q.op? d).isSome
  model : (scheme? node).isSome → ∃ x ∈ s.allOps, ∃ model, s.op? x = some model ∧ Alike model node
  callees : ∀ func ∈ p.funcs, ∀ a, AncestorIn q func.body o a → ∀ name ∈ calleesOf node,
    TransGen (Names p) func.name name

structure Settles (node node' : Operation) : Prop where
  parent : node'.parent = node.parent
  ends : node'.isTerminator = node.isTerminator
  control : node'.control = node.control
  scheme : scheme? node' = none

section Settles

variable {s q : Program} (hg : Grows busy opened s q) (hbusy : ∀ o ∈ busy, ∀ node,
  s.op? o = some node → ∃ node', q.op? o = some node' ∧ Settles node node')

include hg hbusy

lemma op?_of_settles (ho : s.op? o = some node) :
    ∃ node', q.op? o = some node' ∧ (node' = node ∨ Settles node node') := by
  by_cases hmem : o ∈ busy
  · obtain ⟨node', ho', hsettles⟩ := hbusy o hmem node ho
    exact ⟨node', ho', .inr hsettles⟩
  · exact ⟨node, hg.op? o hmem node ho, .inl rfl⟩

lemma staysPut_of_settles (hopened : ∀ r ∈ opened, ∃ w,
    s.parentOp? r = some w ∧ q.parentOp? r = some w) : StaysPut s q := by
  refine .of_grows hg (fun o hmem ho ↦ ?_) fun r hmem _ ↦ ?_
  · obtain ⟨node, hnode⟩ := isSome_iff_exists.mp ho
    obtain ⟨node', hnode', hsettles⟩ := hbusy o hmem node hnode
    rw [parentOf?_eq hnode, parentOf?_eq hnode', hsettles.parent]
  · obtain ⟨w, hw, hw'⟩ := hopened r hmem
    rw [hw, hw']

end Settles

namespace Derived

variable {s q : Program}

lemma refl (hp : Reachable p) (hverify : p.verify = .ok ()) : Derived p p where
  consistent := hp.consistent
  funcs := rfl
  graph := rfl
  bodies _ _ := rfl
  ends _ _ := rfl
  live _ ho := ho
  control o ho := (produced_of_verify hp.consistent hverify ho).2
  models o ho node hnode _ := ⟨o, ho, node, hnode, .refl node⟩
  callees func hfunc o a node hanc hnode name hname := by
    refine .single ⟨func, o, a, node, ?_, hanc, hnode, hname⟩
    exact hp.consistent.func?_of_mem hfunc

lemma roots (h : Derived p q) : q.roots = p.roots := by
  rw [Program.roots, h.funcs, h.graph, Program.roots]

lemma func? (h : Derived p q) (name : String) : q.func? name = p.func? name := by
  rw [Program.func?, h.funcs, Program.func?]

lemma terminator? (h : Derived p q) (hp : p.Consistent) (hfunc : func ∈ p.funcs) :
    q.terminator? func.body = p.terminator? func.body := by
  refine Option.ext fun o ↦ ?_
  rw [terminator?_eq_some, terminator?_eq_some, opsIn_congr (h.bodies func hfunc)]
  refine and_congr_right fun hlast ↦ ?_
  rw [h.ends o (hp.isSome_of_mem_opsIn (mem_of_getLast? hlast))]

variable (h : Derived p s) (hq : q.Consistent) (hg : Grows busy opened s q)
  (hbusy : ∀ o ∈ busy, ∀ node, s.op? o = some node → ∃ node', q.op? o = some node' ∧
  Settles node node') (hopened : ∀ r ∈ opened, ∃ w, s.parentOp? r = some w ∧ q.parentOp? r = some w)

include h hq hg hbusy hopened

lemma grows (hnew : ∀ o node, s.op? o = none → q.op? o = some node → Warranted p s q o node) :
    Derived p q := by
  have hkept : ∀ o node, s.op? o = some node → ∃ node', q.op? o = some node' ∧
      (node' = node ∨ Settles node node') := fun _ _ ↦ op?_of_settles hg hbusy
  have hstays := staysPut_of_settles hg hbusy hopened
  have hlive : ∀ o, (s.op? o).isSome → (q.op? o).isSome := by
    intro o ho
    obtain ⟨node, hnode⟩ := isSome_iff_exists.mp ho
    obtain ⟨node', hnode', -⟩ := hkept o node hnode
    exact isSome_of_eq_some hnode'
  refine ⟨hq, hg.funcs.trans h.funcs, hg.graph.trans h.graph, fun func hfunc ↦ ?_, fun o ho ↦ ?_,
    fun o ho ↦ hlive o (h.live o ho), fun o ho d hd ↦ ?_, fun o ho node hnode hscheme ↦ ?_,
    fun func hfunc o a node hanc hnode name hname ↦ ?_⟩
  · have hroot : func.body ∈ s.roots := h.roots ▸ mem_roots_of_mem_funcs hfunc
    refine (hg.region?_eq ((AttachedAt.root hroot).isSome_region? h.consistent) fun hmem ↦ ?_).trans
      (h.bodies func hfunc)
    obtain ⟨w, hw, -⟩ := hopened _ hmem
    cases (h.consistent.parentOp?_of_root hroot).symm.trans hw
  · obtain ⟨node, hnode⟩ := isSome_iff_exists.mp (h.live o ho)
    obtain ⟨node', hnode', hsame⟩ := hkept o node hnode
    rw [← h.ends o ho, isEnd, isEnd, hnode, hnode']
    rcases hsame with rfl | hsettles
    · rfl
    · exact hsettles.ends
  · cases hold : s.op? o with
    | none =>
      obtain ⟨r, -, hparent⟩ := (mem_allOps hq).mp ho
      obtain ⟨node, hnode, -⟩ := exists_op_of_parentOf? hparent
      rw [controlOf_eq hnode] at hd
      exact (hnew o node hold hnode).control d hd
    | some node =>
      have hsome := isSome_of_eq_some hold
      obtain ⟨node', hnode', hsame⟩ := hkept o node hold
      refine hlive d (h.control o (hstays.mem_allOps h.consistent hq hsome ho) d ?_)
      rw [controlOf_eq hnode'] at hd
      rw [controlOf_eq hold]
      rcases hsame with rfl | hsettles
      · exact hd
      · rwa [hsettles.control] at hd
  · cases hold : s.op? o with
    | none =>
      obtain ⟨x, hx, model, hmodel, halike⟩ := (hnew o node hold hnode).model hscheme
      obtain ⟨y, hy, first, hfirst, halike'⟩ :=
        h.models x hx model hmodel (halike.scheme?_eq ▸ hscheme)
      exact ⟨y, hy, first, hfirst, halike'.trans halike⟩
    | some old =>
      obtain ⟨node', hnode', hsame⟩ := hkept o old hold
      cases hnode.symm.trans hnode'
      rcases hsame with rfl | hsettles
      · exact h.models o (hstays.mem_allOps h.consistent hq (isSome_of_eq_some hold) ho)
          _ hold hscheme
      · rw [hsettles.scheme] at hscheme
        cases hscheme
  · cases hold : s.op? o with
    | none => exact (hnew o node hold hnode).callees func hfunc a hanc name hname
    | some old =>
      obtain ⟨node', hnode', hsame⟩ := hkept o old hold
      cases hnode.symm.trans hnode'
      have hanc' := (hstays.ancestorIn_iff h.consistent (isSome_of_eq_some hold)).mp hanc
      rcases hsame with rfl | hsettles
      · exact h.callees func hfunc o a _ hanc' hold name hname
      · have hscheme := exists_scheme_of_mem_calleesOf hname
        rw [hsettles.scheme] at hscheme
        cases hscheme

lemma grows_of_old (hold : ∀ o, s.op? o = none → q.op? o = none) : Derived p q :=
  h.grows hq hg hbusy hopened fun o _ hnone hsome ↦ by cases (hold o hnone).symm.trans hsome

end Derived

end RegionForm

end TensorGraph
