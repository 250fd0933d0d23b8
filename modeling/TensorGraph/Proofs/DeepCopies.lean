import TensorGraph.Proofs.CompleteCopies
import TensorGraph.Proofs.ControlEdges

/-!
Copies as a whole. The operations of one region are copied to the end of another, each before what
is nested in it, and keep everything but their names.
-/

namespace TensorGraph

open List

/-- What stands for what in a copy. -/
structure Renaming where
  ops : OpId → OpId
  regions : RegionId → RegionId
  values : ValueId → ValueId

def Renaming.visit (f : Renaming) : Visit → Visit
  | .op o => .op (f.ops o)
  | .region r => .region (f.regions r)

/-- The second operation is the first one under other names. -/
structure Operation.RenamedBy (f : Renaming) (node node' : Operation) : Prop where
  name : node'.name = node.name
  kind : node'.kind = node.kind
  attrs : node'.attrs = node.attrs
  funcRefs : node'.funcRefs = node.funcRefs
  operands : node'.operands = node.operands.map f.values
  results : node'.results = node.results.map f.values
  control : node'.control = node.control.map f.ops
  regions : node'.regions = node.regions.map f.regions
  parent : node'.parent = f.regions node.parent

namespace Program

/-- In a tour of the region the first is met before the second. -/
def MetBefore (p : Program) (r : RegionId) (b a : Visit) : Prop :=
  (p.contents r).idxOf b < (p.contents r).idxOf a

instance (p : Program) (r : RegionId) (b a : Visit) : Decidable (p.MetBefore r b a) :=
  inferInstanceAs (Decidable (_ < _))

/-- The operations in a region refer to what is defined in it only after a tour has met it. -/
def RefersBack (p : Program) (r : RegionId) : Prop :=
  ∀ o ∈ p.walk r,
    (∀ v ∈ p.operandsOf o, ∀ b ∈ p.contents r, v ∈ p.defines b → p.MetBefore r b (.op o)) ∧
    ∀ d ∈ p.controlOf o, d ∈ p.walk r → p.MetBefore r (.op d) (.op o)

instance (p : Program) (r : RegionId) : Decidable (p.RefersBack r) :=
  inferInstanceAs (Decidable (∀ o ∈ p.walk r, _ ∧ _))

/-- All that lies in `src` has been copied to the end of `dst`, and nothing else has changed. -/
structure DeepCopy (p : Program) (src dst : RegionId) (seed table : List (ValueId × ValueId))
    (f : Renaming) (q : Program) : Prop where
  values : ∀ v, f.values v = (table.lookup v).getD v
  seeded : ∀ v, (∀ a ∈ p.contents src, v ∉ p.defines a) → f.values v =
    (CopyMap.ofValues seed).value v
  outside : ∀ o ∉ p.walk src, f.ops o = o
  fresh : ∀ a ∈ p.contents src, ¬ p.Has (f.visit a)
  distinct : ((p.contents src).map f.visit).Nodup
  only : ∀ a, q.Has a → p.Has a ∨ a ∈ (p.contents src).map f.visit
  target : ∀ region, p.region? dst = some region →
    q.region? dst = some { region with ops := region.ops ++ (p.opsIn src).map f.ops }
  preorder : ∀ depth, ((p.opsIn src).map f.ops).flatMap
    (fun o ↦ o :: (q.regionsOf o).flatMap (q.opsToDepth depth)) =
    (p.opsToDepth (depth + 1) src).map f.ops
  ops : ∀ o ∈ p.walk src, ∃ node node', p.op? o = some node ∧ q.op? (f.ops o) = some node' ∧
    node.RenamedBy f node'
  regions : ∀ o ∈ p.walk src, ∀ r ∈ p.regionsOf o, ∃ region, p.region? r = some region ∧
    q.region? (f.regions r) = some {
      ops := region.ops.map f.ops
      args := region.args.map f.values
      owner := .op (f.ops o)
      execution := region.execution }
  types : ∀ a ∈ p.contents src, ∀ v ∈ p.defines a, q.typeOf? (f.values v) = p.typeOf? v
  keptOps : ∀ o node, p.op? o = some node → q.op? o = some node
  keptRegions : ∀ r ≠ dst, ∀ region, p.region? r = some region → q.region? r = some region
  keptTypes : ∀ v type, p.typeOf? v = some type → q.typeOf? v = some type
  keptOrigins : ∀ v origin, p.originOf? v = some origin → q.originOf? v = some origin
  funcs : q.funcs = p.funcs
  graph : q.graph = p.graph

end Program

def CopyMap.renaming (m : CopyMap) (image : Visit → Visit) : Renaming where
  ops := m.op
  regions r := match image (.region r) with
    | .region r' => r'
    | .op _ => r
  values := m.value

namespace Edit

open Program

lemma originOf?_copyRegion {p : Program} (src dst : RegionId) (seed : List (ValueId × ValueId))
    {v : ValueId} {origin : Origin} (hv : p.originOf? v = some origin) :
    ((copyRegion src dst seed).exec p).2.originOf? v = some origin := by
  refine Keeps.copyRegion (I := fun q ↦ q.originOf? v = some origin) (fun r type q hq ↦ ?_)
    (fun r new q hq ↦ ?_) (fun o execution q hq ↦ ?_) src dst seed p hv
  · refine does_addArg.leaves (I := fun q ↦ q.originOf? v = some origin) hq ?_
    rintro _ _ - ⟨-, -, rfl⟩
    exact originOf?_withArg_of_some hq r type
  · refine does_appendOp.leaves (I := fun q ↦ q.originOf? v = some origin) hq ?_
    rintro _ _ - ⟨-, -, -, -, rfl⟩
    rw [originOf?_withOp, if_pos (lt_of_originOf? hq), hq]
  · refine does_addRegion.leaves (I := fun q ↦ q.originOf? v = some origin) hq ?_
    rintro _ _ - ⟨-, -, rfl⟩
    exact hq

end Edit

namespace Program

variable {p q : Program} {src dst r : RegionId} {a b : Visit} {o : OpId} {seed m : CopyMap}
  {front back : List Visit} {image : Visit → Visit}

lemma MetBefore.mem_front (h : p.MetBefore r b a) (hsplit : p.contents r = front ++ a :: back) :
    b ∈ front := by
  by_contra hb
  rw [MetBefore, hsplit, idxOf_append_of_notMem hb, idxOf_append] at h
  split_ifs at h with ha
  · have hlt := idxOf_lt_length_iff.mpr ha
    omega
  · rw [idxOf_cons_self] at h
    omega

namespace CopyProgress

variable (h : CopyProgress p src dst seed image (p.contents src) m q) (hc : p.Copyable src dst)

include h

lemma visit_renaming (ha : a ∈ .region src :: p.contents src) :
    (m.renaming image).visit a = image a := by
  cases a with
  | op o => exact (h.image_op ((mem_cons.mp ha).resolve_left (by simp))).symm
  | region r =>
    have hregion : ∃ r', image (.region r) = .region r' := by
      rcases mem_cons.mp ha with heq | hmem
      · exact ⟨dst, heq ▸ h.target⟩
      · exact image_region h hmem
    obtain ⟨r', himage⟩ := hregion
    simp only [Renaming.visit, CopyMap.renaming, himage]

lemma nodup_control (hlive : ∀ d ∈ p.controlOf o, (p.op? d).isSome)
    (hnodup : (p.controlOf o).Nodup) : ((p.controlOf o).map m.op).Nodup := by
  refine hnodup.map_on fun d hd e he heq ↦ ?_
  have hnew : ∀ {x y}, x ∈ p.walk src → (p.op? y).isSome → m.op x ≠ y := fun hx hy heq ↦
    h.fresh _ (op_mem_tour.mpr hx) (by rw [h.image_op (op_mem_tour.mpr hx), heq]; exact hy)
  have hsame : ∀ {x}, x ∉ p.walk src → m.op x = x :=
    fun hx ↦ h.table.otherOps _ fun hmem ↦ hx (op_mem_tour.mp hmem)
  by_cases hin : d ∈ p.walk src
  · by_cases hin' : e ∈ p.walk src
    · have himage : image (.op d) = image (.op e) := by
        rw [h.image_op (op_mem_tour.mpr hin), h.image_op (op_mem_tour.mpr hin'), heq]
      exact Visit.op.inj
        (inj_on_of_nodup_map h.distinct (op_mem_tour.mpr hin) (op_mem_tour.mpr hin') himage)
    · exact absurd (heq.trans (hsame hin')) (hnew hin (hlive e he))
  · by_cases hin' : e ∈ p.walk src
    · exact absurd (heq.symm.trans (hsame hin)) (hnew hin' (hlive d hd))
    · rw [← hsame hin, heq, hsame hin']

include hc

lemma regionsOf_copy (ho : o ∈ p.walk src) :
    q.regionsOf (m.op o) = (p.regionsOf o).map (m.renaming image).regions := by
  have hmem := op_mem_tour.mpr ho
  have hinside := h.inside_image hc hmem
  have hregions : (p.inside (.op o)).map image =
      ((p.regionsOf o).map (m.renaming image).regions).map .region := by
    rw [Program.inside, map_map, map_map]
    exact map_congr_left fun r hr ↦ (h.visit_renaming (mem_cons_of_mem _
      (mem_of_inside hc (mem_cons_of_mem _ hmem) (mem_map_of_mem hr)))).symm
  rw [h.image_op hmem, hregions, Program.inside] at hinside
  exact map_injective_iff.mpr (fun _ _ heq ↦ Visit.region.inj heq) hinside

lemma flatMap_copies {depth : Nat} {l : List OpId} (hl : ∀ o ∈ l, o ∈ p.walk src)
    (hdepth : ∀ r, .region r ∈ p.contents src →
      q.opsToDepth depth ((m.renaming image).regions r) = (p.opsToDepth depth r).map m.op) :
    (l.map m.op).flatMap (fun o ↦ o :: (q.regionsOf o).flatMap (q.opsToDepth depth)) =
      (l.flatMap fun o ↦ o :: (p.regionsOf o).flatMap (p.opsToDepth depth)).map m.op := by
  rw [flatMap_map, map_flatMap]
  refine flatMap_congr fun o ho ↦ ?_
  rw [h.regionsOf_copy hc (hl o ho), map_cons, flatMap_map, map_flatMap]
  exact congrArg _ (flatMap_congr fun r hr ↦ hdepth r
    (mem_of_inside hc (mem_cons_of_mem _ (op_mem_tour.mpr (hl o ho))) (mem_map_of_mem hr)))

lemma opsToDepth_copy (depth : Nat) (hr : .region r ∈ p.contents src) :
    q.opsToDepth depth ((m.renaming image).regions r) = (p.opsToDepth depth r).map m.op := by
  induction depth generalizing r with
  | zero => rfl
  | succ depth ih =>
    rw [opsToDepth, h.opsIn_copy hc hr (h.visit_renaming (mem_cons_of_mem _ hr)).symm, opsToDepth]
    exact h.flatMap_copies hc (fun x hx ↦ op_mem_tour.mp
      (mem_of_inside hc (mem_cons_of_mem _ hr) (mem_map_of_mem hx))) fun _ ↦ ih

lemma renamed (hback : p.RefersBack src) (hlive : ∀ d ∈ p.controlOf o, (p.op? d).isSome)
    (hnodup : (p.controlOf o).Nodup) (ho : o ∈ p.walk src) :
    ∃ node node', p.op? o = some node ∧ q.op? (m.op o) = some node' ∧
    node.RenamedBy (m.renaming image) node' := by
  have hmem : .op o ∈ p.contents src := op_mem_tour.mpr ho
  obtain ⟨front, back, hsplit⟩ := append_of_mem hmem
  obtain ⟨node, node', m₁, hnode, hnode', hknows, hcopy⟩ := h.exists_copy hsplit
  refine ⟨node, node', hnode, hnode', hcopy.name, hcopy.kind, hcopy.attrs, hcopy.funcRefs, ?_,
    hcopy.results, ?_, ?_, ?_⟩
  · rw [hcopy.operands, ← operandsOf_eq hnode]
    exact map_congr_left fun v hv ↦ h.value_eq hsplit hknows fun b hb hdef ↦
      ((hback o ho).1 v hv b hb hdef).mem_front hsplit
  · have hcontrol : node.control.map m₁.op = (p.controlOf o).map m.op := by
      rw [← controlOf_eq hnode]
      refine map_congr_left fun d hd ↦ ?_
      by_cases hin : d ∈ p.walk src
      · exact hknows.ops d (((hback o ho).2 d hd hin).mem_front hsplit)
      · have hnever : .op d ∉ p.contents src := fun hmem ↦ hin (op_mem_tour.mp hmem)
        rw [hknows.otherOps d fun hmet ↦ hnever (hsplit ▸ mem_append_left _ hmet),
          h.table.otherOps d hnever]
    rw [hcopy.control, hcontrol, eraseDups_of_nodup (h.nodup_control hlive hnodup),
      controlOf_eq hnode]
    rfl
  · rw [← regionsOf_eq hnode', ← regionsOf_eq hnode]
    exact h.regionsOf_copy hc ho
  · have hheld :
      p.holder? (.op o) = some (.region node.parent) := by rw [holder?, parentOf?, hnode]; rfl
    obtain ⟨hparent, hholder⟩ := h.holder_image hc hmem hheld
    rw [h.image_op hmem, ← h.visit_renaming hparent, holder?, parentOf?, hnode'] at hholder
    exact Visit.region.inj (Option.some.inj hholder)

lemma region?_copy (ho : o ∈ p.walk src) (hr : r ∈ p.regionsOf o) :
    ∃ region, p.region? r = some region ∧ q.region? ((m.renaming image).regions r) = some {
      ops := region.ops.map m.op
      args := region.args.map m.value
      owner := .op (m.op o)
      execution := region.execution } := by
  have hmem := op_mem_tour.mpr ho
  have hregion : .region r ∈ p.contents src := mem_of_inside hc (mem_cons_of_mem _ hmem)
    (mem_map_of_mem hr)
  have himage := h.visit_renaming (mem_cons_of_mem _ hregion)
  obtain ⟨front, region, owner, hsource, hentry⟩ := h.replica hregion
  rw [← himage] at hentry
  obtain ⟨region', hregion', heq⟩ := Option.map_eq_some_iff.mp hentry
  obtain ⟨-, hargs, -, hexecution⟩ := Region.mk.inj (Sum.inr.inj heq)
  have hops := h.opsIn_copy hc hregion himage.symm
  have howner : q.ownerOf? ((m.renaming image).regions r) = some (.op (m.op o)) := by
    have hheld :=
      (h.holder_image hc hregion ((mem_inside (a := .op o) hc.consistent).mp (mem_map_of_mem hr))).2
    rw [← himage, h.image_op hmem] at hheld
    obtain ⟨o', hparent, hsame⟩ := Option.map_eq_some_iff.mp hheld
    rw [parentOp?_eq_some.mp hparent, Visit.op.inj hsame]
  rw [opsIn_eq hregion', opsIn_eq hsource] at hops
  rw [ownerOf?, hregion'] at howner
  refine ⟨region, hsource, ?_⟩
  rw [hregion', ← hops, ← hargs, ← hexecution, ← Option.some.inj howner]

end CopyProgress

end Program

open Program

/-- A region whose operations refer back, and that does not lie in itself, can be copied to every
region that does not lie in it: the copy is an image of the original under new names. -/
theorem Reachable.deepCopy_of_refersBack {p : Program} (hp : Reachable p)
    (hlive : p.LiveControl) {src dst : RegionId} (hsrc : (p.region? src).isSome)
    (hdst : (p.region? dst).isSome) (hself : ¬ p.LiesIn (.region src) (.region src))
    (hapart : ¬ p.LiesIn (.region dst) (.region src)) {seed : List (ValueId × ValueId)}
    (hseed : ∀ entry ∈ seed, (p.value? entry.2).isSome) (hback : p.RefersBack src) :
    ∃ table q f, (Edit.copyRegion src dst seed).exec p = (.ok table, q) ∧
    p.DeepCopy src dst seed table f q := by
  have hc : p.Copyable src dst := ⟨hp.consistent, hsrc, hdst, hself, hapart⟩
  have hfits : Edit.Fits p (.ofValues seed) (p.contents src) := by
    refine ⟨fun v hv ↦ ?_, fun o _ ↦ hlive o⟩
    rcases CopyMap.value_ofValues seed v with heq | ⟨entry, hentry, heq⟩
    · rwa [heq]
    · rw [heq]
      simpa [value?] using hseed entry hentry
  obtain ⟨table, q, hok, m, image, rfl, h⟩ := Edit.Succeeds.of_leads (hc.leads seed)
    fun _ hnot ↦ hnot hfits
  have hvisit : ∀ a ∈ p.contents src, (m.renaming image).visit a = image a :=
    fun a ha ↦ h.visit_renaming (mem_cons_of_mem _ ha)
  have hall : (p.contents src).map (m.renaming image).visit = (p.contents src).map image :=
    map_congr_left hvisit
  refine ⟨_, q, m.renaming image, hok, ?_⟩
  exact {
    values := fun v ↦ rfl
    seeded := h.table.otherValues
    outside := fun o ho ↦ h.table.otherOps o fun hmem ↦ ho (op_mem_tour.mp hmem)
    fresh := fun a ha ↦ by
      rw [hvisit a ha]
      exact h.fresh a ha
    distinct := by
      rw [hall]
      exact h.distinct
    only := fun a ha ↦ by
      rw [hall, mem_map]
      rcases h.only a ha with hold | ⟨c, hc, heq⟩
      · exact .inl hold
      · exact .inr ⟨c, hc, heq.symm⟩
    target := fun region hregion ↦ by
      rw [h.region?_target hregion, h.opsIn_image hc mem_cons_self h.target, opsIn_eq hregion]
      rfl
    preorder := fun depth ↦ h.flatMap_copies hc (fun o ho ↦
      op_mem_tour.mp (CopyProgress.mem_of_inside hc mem_cons_self (mem_map_of_mem ho)))
      fun _ ↦ h.opsToDepth_copy hc depth
    ops := fun o ho ↦ h.renamed hc hback (hlive o) (hp.distinct.control o) ho
    regions := fun o ho r hr ↦ h.region?_copy hc ho hr
    types := h.newTypes
    keptOps := fun o node hnode ↦ h.grows.op? o not_mem_nil node hnode
    keptRegions :=
      fun r hr region hregion ↦
      h.grows.region? r (fun hmem ↦ hr (mem_singleton.mp hmem)) region hregion
    keptTypes := fun v type hv ↦ (h.types v (lt_of_typeOf? hv)).trans hv
    keptOrigins := fun v origin hv ↦ by
      have hkept := Edit.originOf?_copyRegion src dst seed hv
      rwa [hok] at hkept
    funcs := h.grows.funcs
    graph := h.grows.graph }

/-- A branch whose region has an argument, with a use of that and of what stands before the
branch. -/
def argumentInBranch : Program :=
  .built [
    .append ⟨0⟩ { kind := "source", name := "a", resultTypes := [.unknown] },
    .node 0 "branch" [0] 0 [0], .addRegion ⟨1⟩ .once, .addArg ⟨1⟩ .unknown,
    .node 1 "use" [0, 1] 0 [0, 1], .addFunction "f" [] []]

/-- The use in the copy of the branch names the copies of all that the use names. -/
theorem deepCopy_argumentInBranch : ∃ q f, Reachable argumentInBranch ∧
      argumentInBranch.RefersBack ⟨0⟩ ∧ (Edit.copyRegion ⟨0⟩ ⟨2⟩ []).exec argumentInBranch =
      (.ok [(⟨1⟩, ⟨3⟩), (⟨0⟩, ⟨2⟩)], q) ∧ argumentInBranch.DeepCopy ⟨0⟩
      ⟨2⟩ [] [(⟨1⟩, ⟨3⟩), (⟨0⟩, ⟨2⟩)] f q ∧ q.operandsOf ⟨5⟩ = [⟨2⟩, ⟨3⟩] ∧
      q.controlOf ⟨5⟩ = [⟨3⟩, ⟨4⟩] := by
  have hp : TidilyBuilt argumentInBranch := .of_sparing rfl (by decide +kernel)
  have hback : argumentInBranch.RefersBack ⟨0⟩ := by decide +kernel
  obtain ⟨table, q, f, hok, hcopy⟩ : ∃ table q f,
    (Edit.copyRegion ⟨0⟩ ⟨2⟩ []).exec argumentInBranch = (.ok table, q) ∧
    argumentInBranch.DeepCopy ⟨0⟩ ⟨2⟩ [] table f q :=
    hp.reachable.deepCopy_of_refersBack hp.liveControl (by decide +kernel) (by decide +kernel)
    (not_liesIn_of_root hp.reachable.consistent (by decide +kernel))
    (not_liesIn_of_root hp.reachable.consistent (by decide +kernel)) (by simp) hback
  have hrun : (Edit.copyRegion ⟨0⟩ ⟨2⟩ []).exec argumentInBranch =
      (.ok [(⟨1⟩, ⟨3⟩), (⟨0⟩, ⟨2⟩)], ((Edit.copyRegion ⟨0⟩ ⟨2⟩ []).exec argumentInBranch).2) :=
    Edit.exec_eq_ok (by decide +kernel)
  obtain ⟨htable, rfl⟩ := Prod.mk.inj (hrun.symm.trans hok)
  obtain rfl := Except.ok.inj htable
  exact ⟨_, f, hp.reachable, hback, hrun, hcopy, by decide +kernel⟩

/-- Every operation in a region refers to operations in it, to their results and to the arguments of
their regions only after them in a walk. -/
def Program.RefersToEarlier (p : Program) (r : RegionId) : Prop :=
  ∀ o ∈ p.walk r, ∀ d ∈ p.walk r, (d ∈ p.controlOf o ∨ ∃ v ∈ p.operandsOf o, v ∈ p.resultsOf d ∨
    v ∈ (p.regionsOf d).flatMap p.argsOf) → (p.walk r).idxOf d < (p.walk r).idxOf o

instance (p : Program) (r : RegionId) : Decidable (p.RefersToEarlier r) :=
  inferInstanceAs (Decidable (∀ o ∈ p.walk r, ∀ d ∈ p.walk r, _ → _))

/-- An operation in the first region of another one uses an argument of its second region. -/
def crossedRegions : Program :=
  .built [
    .node 0 "branch", .addRegion ⟨0⟩ .once, .addRegion ⟨0⟩ .once, .addArg ⟨2⟩ .unknown,
    .node 1 "use" [0], .addFunction "f" [] []]

/-- The first region is copied before the argument of the second one has a copy. -/
theorem crossedRegions_copied_across :
    let run := (Edit.copyRegion ⟨0⟩ ⟨3⟩ []).exec crossedRegions
    Reachable crossedRegions ∧ crossedRegions.LiveControl ∧ crossedRegions.RefersToEarlier ⟨0⟩ ∧
      .region ⟨3⟩ ∉ crossedRegions.contents ⟨0⟩ ∧ run = (.ok [(⟨0⟩, ⟨1⟩)], run.2) ∧
      run.2.walk ⟨3⟩ = [⟨2⟩, ⟨3⟩] ∧ crossedRegions.operandsOf ⟨1⟩ = [⟨0⟩] ∧
      run.2.operandsOf ⟨3⟩ ≠ [⟨1⟩] := by
  have hp : TidilyBuilt crossedRegions := .of_sparing rfl (by decide +kernel)
  exact ⟨hp.reachable, hp.liveControl, by decide +kernel, by decide +kernel, Edit.exec_eq_ok
    (by decide +kernel), by decide +kernel⟩

end TensorGraph
