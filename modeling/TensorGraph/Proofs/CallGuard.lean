import TensorGraph.Proofs.SparedOperations
import TensorGraph.Registry.Standard

/-!
The guard that keeps constants apart which flow into calls.
-/

namespace TensorGraph

open List Option

variable {o : OpId} {r body home : RegionId}

namespace Program

/-! ### Inside a function -/

section Inside

variable {p : Program}

lemma climbsTo_succ {outer current : RegionId} {steps : Nat}
    (h : p.climbsTo outer steps current = some true) :
    p.climbsTo outer (steps + 1) current = some true := by
  induction steps generalizing current with
  | zero => cases h
  | succ steps ih =>
    rw [climbsTo] at h ⊢
    split_ifs at h ⊢ with heq
    · rfl
    · cases hnode : (p.parentOp? current).bind p.op? with
      | none =>
        rw [hnode] at h
        cases h
      | some node =>
        rw [hnode] at h
        exact ih h

variable (hp : p.Consistent) (hbody : body ∈ p.roots)

include hp hbody

lemma AncestorIn.isWithin_root {a : OpId} (hparent : p.parentOf? o = some home)
    (hwithin : p.isWithin home body = true) (hanc : AncestorIn p r o a) :
    p.isWithin r body = true := by
  induction hanc generalizing home with
  | here hparent' =>
    cases hparent.symm.trans hparent'
    exact hwithin
  | @up o owner a home' hparent' howner habove ih =>
    obtain rfl := some.inj (hparent.symm.trans hparent')
    have hne : home ≠ body := by
      rintro rfl
      cases (hp.parentOp?_of_root hbody).symm.trans howner
    obtain ⟨node, hnode, -⟩ := exists_op_of_mem_regionsOf (hp.mem_regionsOf.mpr howner)
    refine ih (parentOf?_eq hnode) ?_
    rw [isWithin_eq_true] at hwithin ⊢
    cases hsteps : p.regions.length with
    | zero =>
      rw [hsteps] at hwithin
      cases hwithin
    | succ steps =>
      rw [hsteps, Program.climbsTo, if_neg hne, howner, bind_some, hnode] at hwithin
      exact climbsTo_succ hwithin

lemma mem_allOps_of_isWithin (hparent : p.parentOf? o = some home)
    (hwithin : p.isWithin home body = true) : o ∈ p.allOps := by
  obtain ⟨a, hanc⟩ := exists_ancestorIn_of_isWithin hparent hwithin
  exact hanc.mem_allOps hp hbody

lemma Sees.isWithin {d : OpId} (hparent : p.parentOf? o = some home)
    (hwithin : p.isWithin home body = true) (hsees : Sees p o d) : ∃ r, p.parentOf? d = some r ∧
    p.isWithin r body = true := by
  obtain ⟨r, a, hanc, hbefore⟩ := hsees
  exact ⟨r, hp.mem_opsIn.mp hbefore.mem_left, hanc.isWithin_root hp hbody hparent hwithin⟩

end Inside

end Program

namespace ConstantMerging

open Program Edit

/-- The operation is no constant, or one whose value flows into a call. -/
def Guarded (p : Program) (registry : Registry) (o : OpId) : Prop :=
  ∀ node, p.op? o = some node → node.kind = "Const" → ∃ v ∈ node.results, FlowsIntoCall p registry v

section Guard

variable {registry : Registry} {p q : Program} (hp : p.Consistent)

include hp

lemma Guarded.not_mayChange (h : Guarded p registry o) : mayChange registry p o = false := by
  by_contra hfree
  obtain ⟨node, hnode, hkind, hoperands, -, hfeeds, -⟩ :=
    mayChange_iff.mp (Bool.not_eq_false _ ▸ hfree)
  obtain ⟨v, hv, w, x, hflow, hx, hcall⟩ := h node hnode hkind
  have hleaves : v ∈ outflow p o := mem_append_left _ (resultsOf_eq hnode ▸ hv)
  have hpath := leads_of_flow hp hleaves hflow hx
  have hne : x ≠ o := by
    rintro rfl
    rw [operandsOf_eq hnode, hoperands] at hx
    cases hx
  rw [(feedsCall_iff hp).mpr ⟨x, hpath.to_reflTransGen, hne, hcall⟩] at hfeeds
  cases hfeeds

omit hp in
lemma before_iff_of_spares (h : Spares (mayChange registry p) p q)
    {a b : OpId} (ha : mayChange registry p a = false) (hb : mayChange registry p b = false)
    (r : RegionId) : Before q r a b ↔ Before p r a b := by
  have hkept : ∀ l : List OpId, [a, b].Sublist l ↔
      [a, b].Sublist (l.filter (!mayChange registry p ·)) := by
    intro l
    refine ⟨fun hsub ↦ ?_, fun hsub ↦ hsub.trans filter_sublist⟩
    have hfiltered := hsub.filter (!mayChange registry p ·)
    simpa [ha, hb] using hfiltered
  unfold Before
  rw [hkept, hkept (p.opsIn r), h.order]

lemma value?_of_mem_results (h : Spares (mayChange registry p) p q)
    (ho : mayChange registry p o = false) {v : ValueId} (hv : v ∈ p.resultsOf o) :
    q.value? v = p.value? v :=
  h.value? v
    (not_madeByFree_of_mem_outflow hp (bare_mayChange registry p) ho (mem_append_left _ hv))

omit hp in
lemma mem_roots_of_mem_calleeBodies (hbody : body ∈ calleeBodies p registry) : body ∈ p.roots := by
  obtain ⟨func, hfunc, rfl⟩ := mem_map.mp hbody
  exact mem_cons_of_mem _ (mem_map_of_mem (mem_of_mem_filter hfunc))

omit hp in
lemma not_mayChange_of_isWithin (hbody : body ∈ calleeBodies p registry)
    (hwithin : p.isWithin r body = true) (ho : p.parentOf? o = some r) :
    mayChange registry p o = false := by
  by_contra hfree
  obtain ⟨node, hnode, -, -, -, -, houtside⟩ := mayChange_iff.mp (Bool.not_eq_false _ ▸ hfree)
  cases (parentOf?_eq hnode).symm.trans ho
  rw [any_eq_true.mpr ⟨body, hbody, hwithin⟩] at houtside
  cases houtside

lemma op?_of_isWithin (hscoped : p.Scoped) (h : Spares (mayChange registry p) p q)
    (hbody : body ∈ calleeBodies p registry) (hwithin : p.isWithin r body = true)
    (ho : p.parentOf? o = some r) : q.op? o = p.op? o := by
  have hroot := mem_roots_of_mem_calleeBodies hbody
  have hmem := mem_allOps_of_isWithin hp hroot ho hwithin
  have hspared := not_mayChange_of_isWithin hbody hwithin ho
  have hinside : ∀ d, Sees p o d → mayChange registry p d = false := fun d hsees ↦ by
    obtain ⟨r', hparent, hwithin'⟩ := hsees.isWithin hp hroot ho hwithin
    exact not_mayChange_of_isWithin hbody hwithin' hparent
  have hmade : ∀ v ∈ p.operandsOf o, ¬ p.MadeByFree (mayChange registry p) v := by
    rintro v hv ⟨d, hd, hresult⟩
    have hsees := (hscoped.operands o hmem v hv).sees_of_mem_results hp hresult
    cases (hinside d hsees).symm.trans hd
  have hoperands : q.operandsOf o = p.operandsOf o := by
    have hslots := h.operands o
    generalize q.operandsOf o = after at hslots
    generalize p.operandsOf o = before at hslots hmade
    induction hslots with
    | nil => rfl
    | cons hslot _ ih =>
      rw [forall_mem_cons] at hmade
      rw [hslot.resolve_right fun hswap ↦ hmade.1 hswap.1, ih hmade.2]
  have hcontrol := h.control o hspared fun d hd ↦ hinside d (hscoped.control o hmem d hd)
  rw [h.op?_of_not_free hspared, hoperands, hcontrol]
  exact (map_operation_self p o).symm

lemma region?_of_isWithin (hq : Underway (mayChange registry p) p q)
    (hbody : body ∈ calleeBodies p registry) (hwithin : p.isWithin r body = true) :
    q.region? r = p.region? r := by
  have hold : ∀ o ∈ p.opsIn r, mayChange registry p o = false := fun o ho ↦
    not_mayChange_of_isWithin hbody hwithin (hp.mem_opsIn.mp ho)
  have hnew : ∀ o ∈ q.opsIn r, mayChange registry p o = false := fun o ho ↦
    not_mayChange_of_isWithin hbody hwithin
    (hq.spares.parentOf?_of_parentOf? (hq.consistent.mem_opsIn.mp ho))
  have hops : q.opsIn r = p.opsIn r := by
    have horder := hq.spares.order r
    rwa [filter_eq_self.mpr fun o ho ↦ by rw [hnew o ho]; rfl,
      filter_eq_self.mpr fun o ho ↦ by rw [hold o ho]; rfl] at horder
  rw [hq.spares.region?, hops]
  exact (map_region_self p r).symm

end Guard

/-- While a program has a call and calls are not taken to be strict, the pass leaves alone whatever
is no constant or is a constant whose value flows into a call without passing through an argument of
a region: it is not merged, erased or moved. In the functions that calls name it changes nothing at
all. This holds however the pass ends. -/
theorem guarded_of_run {p : Program} (hp : Reachable p) (hscoped : p.Scoped) (settings : Settings)
    (hstrict : settings.strictCalls = false) {registry : Registry} {call : OpId}
    (hcall : call ∈ p.allOps) (hisCall : isCall p registry call = true) :
    let q := ((run settings registry).exec p).2
    (∀ o, Guarded p registry o → q.op? o = (p.op? o).map (fun node ↦
        { node with operands := q.operandsOf o, control := q.controlOf o }) ∧
      (∀ v ∈ p.resultsOf o, q.value? v = p.value? v) ∧
      ∀ r x, Guarded p registry x → (Before q r o x ↔ Before p r o x)) ∧
    ∀ body ∈ calleeBodies p registry, ∀ r, p.isWithin r body = true → q.region? r = p.region? r ∧
      (∀ v ∈ p.argsOf r, q.value? v = p.value? v) ∧
      ∀ o ∈ p.opsIn r, q.op? o = p.op? o ∧ ∀ v ∈ p.resultsOf o, q.value? v = p.value? v := by
  have hgated : (p.allOps.any (isCall p registry) && !settings.strictCalls) = true := by
    rw [hstrict, any_eq_true.mpr ⟨call, hcall, hisCall⟩]
    rfl
  intro q
  have hq : Underway (mayChange registry p) p q := underway_run hp.consistent hgated
  refine ⟨fun o ho ↦ ?_, fun body hbody r hwithin ↦ ?_⟩
  · have hspared := ho.not_mayChange hp.consistent
    refine ⟨hq.spares.op?_of_not_free hspared, fun v hv ↦ ?_, fun r x hx ↦ ?_⟩
    · exact value?_of_mem_results hp.consistent hq.spares hspared hv
    · exact before_iff_of_spares hq.spares hspared (hx.not_mayChange hp.consistent) r
  · refine ⟨region?_of_isWithin hp.consistent hq hbody hwithin, fun v hv ↦ ?_, fun o ho ↦
      ⟨?_, fun v hv ↦ ?_⟩⟩
    · refine hq.spares.value? v ?_
      rintro ⟨o, -, hresult⟩
      exact hp.consistent.not_mem_argsOf hresult hv
    · exact op?_of_isWithin hp.consistent hscoped hq.spares hbody hwithin
        (hp.consistent.mem_opsIn.mp ho)
    · have hspared := not_mayChange_of_isWithin hbody hwithin (hp.consistent.mem_opsIn.mp ho)
      exact value?_of_mem_results hp.consistent hq.spares hspared hv

/-- A graph with three equal constants, the first of which flows into a call of the function, and
two more in the function. -/
def calledFunction : Program :=
  .built [
    .addFunction "f" [.fixed .f32 []] [], .constant 1 0x3f800000, .constant 1 0x3f800000,
    .node 1 returnKind, .constant 0 0x3f800000, .constant 0 0x3f800000, .constant 0 0x3f800000,
    .append ⟨0⟩ { kind := "Neg", operands := [⟨3⟩], resultTypes := [.fixed .f32 []] },
    .node 0 "f" [6], .node 0 "user" [4, 5]]

/-- The second and the third constant of the graph are merged. The first stays, and so do those in
the function. -/
theorem guarded_calledFunction :
    let q := ((run {} .empty).exec calledFunction).2
    Reachable calledFunction ∧ calledFunction.Scoped ∧ ⟨7⟩ ∈ calledFunction.allOps ∧
      isCall calledFunction .empty ⟨7⟩ = true ∧ q.value? ⟨3⟩ = calledFunction.value? ⟨3⟩ ∧
      q.region? ⟨1⟩ = calledFunction.region? ⟨1⟩ ∧ (q.op? ⟨5⟩).isSome = false := by
  intro q
  have hp : Reachable calledFunction := reachable_built _
  have hscoped : calledFunction.Scoped := (isScoped_eq_true hp.consistent).mp (by decide +kernel)
  have hlisted : (⟨7⟩ : OpId) ∈ calledFunction.allOps := by decide +kernel
  have hcall : isCall calledFunction .empty ⟨7⟩ = true := by decide +kernel
  obtain ⟨hguarded, hbodies⟩ := guarded_of_run hp hscoped {} rfl hlisted hcall
  have hresult : calledFunction.resultsOf ⟨6⟩ = [⟨6⟩] := by decide +kernel
  have hflow : FlowsIntoCall calledFunction .empty ⟨3⟩ := by
    refine ⟨⟨6⟩, ⟨7⟩, .single ⟨.of_mem (o := ⟨6⟩) ?_ ?_, ?_⟩, ?_, hcall⟩
    · decide +kernel
    · rw [hresult]
      exact mem_cons_self
    · rintro ⟨r, hr⟩
      exact hp.consistent.not_mem_argsOf (hresult ▸ mem_cons_self) hr
    · decide +kernel
  have hguard : Guarded calledFunction .empty ⟨3⟩ := by
    intro node hnode _
    refine ⟨⟨3⟩, ?_, hflow⟩
    rw [← resultsOf_eq hnode]
    decide +kernel
  refine ⟨hp, hscoped, hlisted, hcall, ?_, ?_, by decide +kernel⟩
  · exact (hguarded ⟨3⟩ hguard).2.1 ⟨3⟩ (by decide +kernel)
  · exact (hbodies ⟨1⟩ (by decide +kernel) ⟨1⟩ (by decide +kernel)).1

/-- A loop takes two equal constants as operands and hands its arguments to a call. They are merged
all the same. -/
theorem merged_before_loop :
    let p : Program := .built [
      .constant 0 0x3f800000, .constant 0 0x3f800000,
      .append ⟨0⟩ { kind := "WhileRegion", operands := [⟨0⟩, ⟨1⟩], resultTypes :=
        [.fixed .f32 [], .fixed .f32 []] },
      .addRegion ⟨2⟩ .repeated, .addRegion ⟨2⟩ .repeated, .addArg ⟨1⟩ (.fixed .f32 []),
      .addArg ⟨1⟩ (.fixed .f32 []), .addArg ⟨2⟩ (.fixed .f32 []), .addArg ⟨2⟩ (.fixed .f32 []),
      .node 1 yieldKind [4], .node 2 "PartitionedCall" [6, 7], .node 2 yieldKind [6, 7]]
    let q := ((run {} .standard).exec p).2
    Reachable p ∧ p.Scoped ∧ ⟨4⟩ ∈ p.allOps ∧ isCall p .standard ⟨4⟩ = true ∧
      (∀ v ∈ p.resultsOf ⟨1⟩, ∃ w, Relation.ReflTransGen (Flow p) v w ∧ w ∈ p.operandsOf ⟨4⟩) ∧
      (p.op? ⟨1⟩).isSome = true ∧ (q.op? ⟨1⟩).isSome = false := by
  intro p q
  have hp : Reachable p := reachable_built _
  refine ⟨hp, (isScoped_eq_true hp.consistent).mp
    (by decide +kernel), by decide +kernel, by decide +kernel, ?_, by decide +kernel⟩
  intro v hv
  have hresult : p.resultsOf ⟨1⟩ = [⟨1⟩] := by decide +kernel
  rw [hresult] at hv
  obtain rfl := mem_singleton.mp hv
  have hlive : (p.op? ⟨2⟩).isSome = true := by decide +kernel
  obtain ⟨node, hnode⟩ := isSome_iff_exists.mp hlive
  have hkind : (p.op? ⟨2⟩).map (·.kind) = some "WhileRegion" := by decide +kernel
  rw [hnode] at hkind
  refine ⟨⟨7⟩, .single
    (.entered (r := ⟨2⟩) (i := 1) hnode (some.inj hkind) ?_ ?_ ?_), by decide +kernel⟩
  · rw [← regionsOf_eq hnode]
    decide +kernel
  · rw [← operandsOf_eq hnode]
    decide +kernel
  · decide +kernel

end ConstantMerging

end TensorGraph
