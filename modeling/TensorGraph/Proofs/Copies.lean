import TensorGraph.Proofs.Evaluation
import TensorGraph.Proofs.Growth

/-!
Copies of operations. `Copied` says that the operations of one list are copies of those of another,
under new names.
-/

namespace TensorGraph

open List

variable {scope' : List ValueId} {start' : Nat} {avoid' : List OpId}

/-- New names for values that come into scope: distinct, not used for what is in scope, and none of
those given out before `start`. -/
structure Renames (start : Nat) (scope : List ValueId) (f g : ValueId → ValueId)
    (names names' : List ValueId) : Prop where
  same : ∀ v ∈ scope, g v = f v
  names : names' = names.map g
  distinct : names'.Nodup
  fresh : ∀ v ∈ scope, f v ∉ names'
  late : ∀ v ∈ names', start ≤ v.index

namespace Renames

variable {start : Nat} {scope names names' : List ValueId} {f g : ValueId → ValueId}
  (h : Renames start scope f g names names')

include h

lemma weaken (hle : start' ≤ start) : Renames start' scope f g names names' :=
  ⟨h.same, h.names, h.distinct, h.fresh, fun v hv ↦ Nat.le_trans hle (h.late v hv)⟩

lemma not_mem (hold : ∀ v ∈ scope', v.index < start ∨ ∃ u ∈ scope, v = f u)
    {v : ValueId} (hv : v ∈ names') : v ∉ scope' := by
  intro hmem
  rcases hold v hmem with hlt | ⟨u, hu, rfl⟩
  · exact Nat.not_lt.mpr (h.late v hv) hlt
  · exact h.fresh u hu hv

lemma mem (hsub : ∀ v ∈ scope, f v ∈ scope') : ∀ v ∈ scope ++ names, g v ∈ scope' ++ names' := by
  intro v hv
  rcases mem_append.mp hv with hv | hv
  · rw [h.same v hv]
    exact mem_append_left _ (hsub v hv)
  · rw [h.names]
    exact mem_append_right _ (mem_map_of_mem hv)

lemma old (hold : ∀ v ∈ scope', v.index < start ∨ ∃ u ∈ scope, v = f u) :
    ∀ v ∈ scope' ++ names', v.index < start ∨ ∃ u ∈ scope ++ names, v = g u := by
  intro v hv
  rcases mem_append.mp hv with hv | hv
  · refine (hold v hv).imp_right ?_
    rintro ⟨u, hu, rfl⟩
    exact ⟨u, mem_append_left _ hu, (h.same u hu).symm⟩
  · rw [h.names] at hv
    obtain ⟨u, hu, rfl⟩ := mem_map.mp hv
    exact .inr ⟨u, mem_append_right _ hu, rfl⟩

end Renames

/-- The second operation does under new names what the first one does. Their kinds may differ if
both are terminators. -/
structure Operation.StandsFor (f : ValueId → ValueId) (node node' : Operation) : Prop where
  ends : node'.isTerminator = node.isTerminator
  kind : node.isTerminator = false → node'.kind = node.kind
  attrs : node'.attrs = node.attrs
  funcRefs : node'.funcRefs = node.funcRefs
  operands : node'.operands = node.operands.map f
  regions : node'.regions.length = node.regions.length

namespace Program

inductive Copied (p : Program) (start : Nat) : List OpId → List ValueId → (ValueId → ValueId) →
    List OpId → List OpId → Prop where
  | nil {avoid : List OpId} {scope : List ValueId} {f : ValueId → ValueId} :
    Copied p start avoid scope f [] []
  | cons {avoid : List OpId} {scope : List ValueId} {f f' : ValueId → ValueId}
      {o o' : OpId} {node node' : Operation} {g : RegionId → RegionId → ValueId → ValueId}
      {rest rest' : List OpId} (ho : p.op? o = some node) (ho' : p.op? o' = some node')
      (havoid : o ∉ avoid) (havoid' : o' ∉ avoid) (hstands : node.StandsFor f node')
      (hoperands : ∀ v ∈ node.operands, v ∈ scope)
      (hresults : Renames start scope f f' node.results node'.results)
      (hargs : ∀ r r', (r, r') ∈ node.regions.zip node'.regions →
        Renames start scope f (g r r') (p.argsOf r) (p.argsOf r'))
      (hinner : ∀ r r', (r, r') ∈ node.regions.zip node'.regions →
        Copied p start (o :: o' :: avoid) (scope ++ p.argsOf r) (g r r') (p.opsIn r) (p.opsIn r'))
      (hrest : Copied p start avoid (scope ++ node.results) f' rest rest') :
      Copied p start avoid scope f (o :: rest) (o' :: rest')

namespace Copied

variable {p q : Program} {start : Nat} {avoid : List OpId} {scope : List ValueId}
  {f : ValueId → ValueId} {ops ops' : List OpId}

variable (h : Copied p start avoid scope f ops ops')

include h

lemma outputs {α : Type} (I : Interpretation α) (depth : Nat)
    {env env' : Env α} (hmatches : Env.Matches scope f env env') :
    (p.evalOps I depth (p.outputsOf I depth) ops' env').map (·.2) =
    (p.evalOps I depth (p.outputsOf I depth) ops env).map (·.2) := by
  induction h generalizing depth env env' with
  | nil => rfl
  | @cons avoid scope f f' o o' node node' g rest rest' ho ho' _ _ hstands hoperands hresults
      hargs _ _ ihinner ihrest =>
    rw [evalOps_cons ho, evalOps_cons ho', hstands.ends]
    cases hend : node.isTerminator with
    | true =>
      obtain ⟨inputs, hin, hin'⟩ := hmatches.mapM hoperands
      simp [hin, hstands.operands, hin']
    | false =>
      -- Regions that stand for each other act alike, since their arguments are given the same
      -- values.
      have hregion : ∀ r r', (r, r') ∈ node.regions.zip node'.regions →
          p.outputsOf I depth r' env' = p.outputsOf I depth r env := by
        intro r r' hmem
        funext args
        cases depth with
        | zero => rfl
        | succ depth =>
          have hrenames := hargs r r' hmem
          simp only [outputsOf, evalRegion_succ]
          have hlength : (p.argsOf r').length = (p.argsOf r).length := by
            rw [hrenames.names, length_map]
          by_cases hcount : (p.argsOf r).length = args.length
          · obtain ⟨next, hnext⟩ := env.isSome_bind hcount
            obtain ⟨next', hnext'⟩ := env'.isSome_bind (hlength.trans hcount)
            rw [hnext, hnext']
            refine ihinner r r' hmem depth ?_
            rw [hrenames.names] at hnext'
            exact hmatches.bind hrenames.same (hrenames.names ▸ hrenames.distinct)
              (hrenames.names ▸ hrenames.fresh) hnext hnext'
          · rw [env.bind_eq_none hcount, env'.bind_eq_none (hlength ▸ hcount)]
            rfl
      have houtcome := I.outcome_congr depth (hstands.kind hend) hstands.attrs
        hstands.funcRefs (forall₂_iff_zip.mpr ⟨hstands.regions.symm, hregion _ _⟩)
        (rfl : p.call (p.outputsOf I depth) = p.call (p.outputsOf I depth))
      rcases evalOp_matches (p := p) (q := p) hmatches hoperands hstands.operands hresults.same
        hresults.names hresults.distinct hresults.fresh houtcome with
        ⟨hnone, hnone'⟩ | ⟨next, next', hnext, hnext', hafter⟩
      · simp [hnone, hnone']
      · simp only [hnext, hnext', Option.bind_some]
        exact ihrest depth hafter

/-- A copy of what is closed is closed in any scope that has the new names of all that is in scope,
if it has nothing else that is as new as the copy. -/
theorem closed {depth : Nat}
    (hclosed : Closed p avoid' depth scope ops) (hsub : ∀ v ∈ scope, f v ∈ scope')
    (hold : ∀ v ∈ scope', v.index < start ∨ ∃ u ∈ scope, v = f u) :
    Closed p avoid depth scope' ops' := by
  induction h generalizing avoid' depth scope' with
  | nil => exact .nil
  | @cons avoid scope f f' o o' node node' g rest rest' ho ho' _ havoid' hstands _ hresults
      hargs _ _ ihinner ihrest =>
    cases hclosed with
    | cons _ _ hoperands _ _ hinner hrest =>
      rw [operandsOf_eq ho] at hoperands
      rw [regionsOf_eq ho] at hinner
      rw [resultsOf_eq ho] at hrest
      have hpair : ∀ r' ∈ p.regionsOf o', ∃ r, (r, r') ∈ node.regions.zip node'.regions := by
        intro r' hr'
        rw [regionsOf_eq ho'] at hr'
        obtain ⟨i, hi⟩ := mem_iff_getElem?.mp hr'
        obtain ⟨hlt, -⟩ := List.getElem?_eq_some_iff.mp hi
        have hlt' : i < node.regions.length := hstands.regions ▸ hlt
        refine ⟨node.regions[i], mem_iff_getElem?.mpr ⟨i, ?_⟩⟩
        rw [getElem?_zip_eq_some]
        exact ⟨getElem?_eq_getElem hlt', hi⟩
      refine .cons havoid' (by rw [ho']; rfl) ?_ ?_ ?_ ?_ ?_
      · rw [operandsOf_eq ho', hstands.operands, forall_mem_map]
        exact fun v hv ↦ hsub v (hoperands v hv)
      · rw [resultsOf_eq ho']
        exact fun v hv ↦ hresults.not_mem hold hv
      · intro r' hr' v hv
        obtain ⟨r, hmem⟩ := hpair r' hr'
        exact (hargs r r' hmem).not_mem hold hv
      · intro r' hr'
        obtain ⟨r, hmem⟩ := hpair r' hr'
        have hrenames := hargs r r' hmem
        exact (ihinner r r' hmem (hinner r (of_mem_zip hmem).1) (hrenames.mem hsub)
          (hrenames.old hold)).avoidLess (subset_cons_self _ _)
      · rw [resultsOf_eq ho']
        exact ihrest hrest (hresults.mem hsub) (hresults.old hold)

/-- Copies stay copies when the program grows, if they and the originals keep clear of what is
worked on. -/
theorem grows {busy : List OpId} {opened : List RegionId}
    (hp : p.Consistent) (hg : Grows busy opened p q) (hbusy : ∀ x ∈ busy, x ∈ avoid)
    (hopened : ∀ r ∈ opened, ∀ x, r ∈ p.regionsOf x → x ∈ avoid) (havoid : avoid' ⊆ avoid)
    (hstart : start' ≤ start) : Copied q start' avoid' scope f ops ops' := by
  induction h generalizing avoid' with
  | nil => exact .nil
  | @cons avoid scope f f' o o' node node' g rest rest' ho ho' ho_avoid ho_avoid' hstands
      hoperands hresults hargs _ _ ihinner ihrest =>
    have hregion : ∀ {x : OpId} {node : Operation} {r : RegionId}, x ∉ avoid → p.op? x = some node →
        r ∈ node.regions → q.region? r = p.region? r := by
      intro x node r hx hnode hr
      rw [← regionsOf_eq hnode] at hr
      exact hg.region?_eq (hp.isSome_region?_of_mem_regionsOf hr) fun hmem ↦
        hx (hopened r hmem x hr)
    refine .cons (g := g) (hg.op? o (fun hmem ↦ ho_avoid (hbusy o hmem)) node ho)
      (hg.op? o' (fun hmem ↦ ho_avoid' (hbusy o' hmem)) node' ho')
      (fun hmem ↦ ho_avoid (havoid hmem)) (fun hmem ↦ ho_avoid' (havoid hmem)) hstands hoperands
      (hresults.weaken hstart) (fun r r' hmem ↦ ?_) (fun r r' hmem ↦ ?_)
      (ihrest hbusy hopened havoid)
    · have hr := hregion ho_avoid ho (of_mem_zip hmem).1
      have hr' := hregion ho_avoid' ho' (of_mem_zip hmem).2
      rw [argsOf_congr hr, argsOf_congr hr']
      exact (hargs r r' hmem).weaken hstart
    · have hr := hregion ho_avoid ho (of_mem_zip hmem).1
      have hr' := hregion ho_avoid' ho' (of_mem_zip hmem).2
      rw [argsOf_congr hr, opsIn_congr hr, opsIn_congr hr']
      exact ihinner r r' hmem (fun x hx ↦ mem_cons_of_mem _ (mem_cons_of_mem _ (hbusy x hx)))
        (fun r hr x hx ↦ mem_cons_of_mem _ (mem_cons_of_mem _ (hopened r hr x hx)))
        (cons_subset_cons _ (cons_subset_cons _ havoid))

lemma setKind {t : OpId} (ht : p.isEnd t = true)
    {kind : String} (hkind : kind = returnKind ∨ kind = yieldKind) :
    Copied (p.modifyOp t fun node ↦ { node with kind }) start avoid scope f ops ops' := by
  have hop : ∀ {x : OpId} {node : Operation}, p.op? x = some node → ∃ kind',
      (p.modifyOp t fun node ↦ { node with kind }).op? x = some { node with kind := kind' } ∧
        ({ node with kind := kind' } : Operation).isTerminator = node.isTerminator ∧
        (node.isTerminator = false → kind' = node.kind) := by
    intro x node hnode
    rw [op?_modifyOp, hnode]
    by_cases hx : x = t
    · subst hx
      have hend : node.isTerminator = true := by simpa [isEnd, hnode] using ht
      refine ⟨kind, by rw [if_pos rfl]; rfl, ?_, fun hno ↦ by simp [hend] at hno⟩
      rw [hend]
      rcases hkind with rfl | rfl <;> simp [Operation.isTerminator]
    · exact ⟨node.kind, by rw [if_neg hx], rfl, fun _ ↦ rfl⟩
  induction h with
  | nil => exact .nil
  | @cons avoid scope f f' o o' node node' g rest rest' ho ho' ho_avoid ho_avoid' hstands
      hoperands hresults hargs _ _ ihinner ihrest =>
    obtain ⟨kind₁, hnode, hend, hsame⟩ := hop ho
    obtain ⟨kind₂, hnode', hend', hsame'⟩ := hop ho'
    refine .cons (g := g) hnode hnode' ho_avoid ho_avoid' ⟨?_, fun hno ↦ ?_, hstands.attrs,
      hstands.funcRefs, hstands.operands, hstands.regions⟩ hoperands hresults hargs ihinner ihrest
    · rw [hend, hend', hstands.ends]
    · rw [hend] at hno
      change kind₂ = kind₁
      rw [hsame hno, hsame' (hstands.ends.trans hno), hstands.kind hno]

end Copied

end Program

end TensorGraph
