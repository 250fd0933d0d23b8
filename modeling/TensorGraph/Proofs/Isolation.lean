import TensorGraph.Proofs.SweepFailures
import TensorGraph.Proofs.Wiring

/-!
Functions that do not refer to each other. A program is isolated if whatever lies under a root
refers only to what lies under the same root.
-/

namespace TensorGraph

open List Option

variable {p q s : Program} {o : OpId} {r : RegionId} {node : Operation} {depth : Nat}
  {top : RegionId} {a : Visit} {v : ValueId} {inputs : List ValueId} {start : Nat}
  {conversion : Conversion} {seen seen' : Set Visit}

namespace Program

/-! ### What lies under a region -/

/-- The region itself and all that is nested in it. -/
inductive Under (p : Program) (top : RegionId) : Visit → Prop where
  | top : Under p top (.region top)
  | inside {a b : Visit} (houter : Under p top a) (hb : b ∈ p.inside a) : Under p top b

/-- The arguments of the regions under a region and the results of the operations. -/
def valuesUnder (p : Program) (r : RegionId) : List ValueId :=
  (p.regionsToDepth p.regions.length r).flatMap p.argsOf ++ (p.walk r).flatMap p.resultsOf

/-- Whatever an operation refers to lies under the same root as the operation. -/
def Isolated (p : Program) : Prop :=
  ∀ root ∈ p.roots, ∀ o ∈ p.walk root,
    (∀ v ∈ p.operandsOf o, v ∈ p.valuesUnder root) ∧ ∀ d ∈ p.controlOf o, d ∈ p.walk root

instance (p : Program) : Decidable (Isolated p) :=
  inferInstanceAs (Decidable (∀ root ∈ p.roots, ∀ o ∈ p.walk root,
    (∀ v ∈ p.operandsOf o, v ∈ p.valuesUnder root) ∧ ∀ d ∈ p.controlOf o, d ∈ p.walk root))

lemma Under.trans (hr : Under p top (.region r)) (ha : Under p r a) : Under p top a := by
  induction ha with
  | top => exact hr
  | inside _ hb ih => exact ih.inside hb

lemma under_of_mem_regionsToDepth (hr : r ∈ p.regionsToDepth depth top) :
    Under p top (.region r) := by
  induction depth generalizing top with
  | zero => cases hr
  | succ depth ih =>
    rcases mem_regionsToDepth_succ.mp hr with rfl | ⟨o, ho, inner, hinner, hr⟩
    · exact .top
    · have hnested : Under p top (.region inner) :=
        (Under.top.inside (mem_map_of_mem ho)).inside (mem_map_of_mem hinner)
      exact hnested.trans (ih hr)

lemma Under.exists_level {root : RegionId} (hroot : root ∈ p.roots) (h : Under p root a) :
    ∃ n r, AttachedAt p n r ∧ r ∈ p.regionsToDepth (n + 1) root ∧
    (a = .region r ∨ ∃ o ∈ p.opsIn r, a = .op o) := by
  induction h with
  | top => exact ⟨0, root, .root hroot, mem_regionsToDepth_succ.mpr (.inl rfl), .inl rfl⟩
  | inside _ hb ih =>
    obtain ⟨n, r, hat, hr, rfl | ⟨o, ho, rfl⟩⟩ := ih
    · obtain ⟨o, ho, rfl⟩ := mem_map.mp hb
      exact ⟨n, r, hat, hr, .inr ⟨o, ho, rfl⟩⟩
    · obtain ⟨inner, hinner, rfl⟩ := mem_map.mp hb
      exact ⟨n + 1, inner, hat.nested ho hinner, mem_regionsToDepth_nested hr ho hinner, .inl rfl⟩

section Root

variable (hp : p.Consistent) {root : RegionId} (hroot : root ∈ p.roots)

include hp hroot

lemma under_region_iff : Under p root (.region r) ↔ r ∈ p.regionsToDepth p.regions.length root := by
  refine ⟨fun h ↦ ?_, under_of_mem_regionsToDepth⟩
  obtain ⟨n, x, hat, hx, hsame | ⟨o, -, hsame⟩⟩ := h.exists_level hroot
  · cases hsame
    exact regionsToDepth_le (hat.lt_length hp) hx
  · cases hsame

lemma under_op_iff : Under p root (.op o) ↔ o ∈ p.walk root := by
  refine ⟨fun h ↦ ?_, fun h ↦ ?_⟩
  · obtain ⟨n, x, hat, hx, hsame | ⟨y, hy, hsame⟩⟩ := h.exists_level hroot
    · cases hsame
    · cases hsame
      exact mem_opsToDepth.mpr ⟨x, regionsToDepth_le (hat.lt_length hp) hx, hy⟩
  · obtain ⟨x, hx, ho⟩ := mem_opsToDepth.mp h
    exact (under_of_mem_regionsToDepth hx).inside (mem_map_of_mem ho)

lemma mem_valuesUnder : v ∈ p.valuesUnder root ↔ ∃ a, Under p root a ∧ v ∈ p.defines a := by
  unfold valuesUnder
  rw [mem_append, mem_flatMap, mem_flatMap]
  constructor
  · rintro (⟨r, hr, hv⟩ | ⟨o, ho, hv⟩)
    · exact ⟨.region r, (under_region_iff hp hroot).mpr hr, hv⟩
    · exact ⟨.op o, (under_op_iff hp hroot).mpr ho, hv⟩
  · rintro ⟨a, ha, hv⟩
    cases a with
    | region r => exact .inl ⟨r, (under_region_iff hp hroot).mp ha, hv⟩
    | op o => exact .inr ⟨o, (under_op_iff hp hroot).mp ha, hv⟩

lemma Under.has (h : Under p root a) : p.Has a := by
  obtain ⟨n, r, hat, -, rfl | ⟨o, ho, rfl⟩⟩ := h.exists_level hroot
  · exact hat.isSome_region? hp
  · exact hp.isSome_of_mem_opsIn ho

end Root

lemma isolated_iff (hp : p.Consistent) :
    Isolated p ↔ ∀ root ∈ p.roots, ∀ o, Under p root (.op o) → Met p {a | Under p root a} o := by
  constructor
  · intro h root hroot o ho
    obtain ⟨hoperands, hcontrol⟩ := h root hroot o ((under_op_iff hp hroot).mp ho)
    exact ⟨fun v hv ↦ (mem_valuesUnder hp hroot).mp (hoperands v hv), fun d hd ↦
      (under_op_iff hp hroot).mpr (hcontrol d hd)⟩
  · intro h root hroot o ho
    have hmet := h root hroot o ((under_op_iff hp hroot).mpr ho)
    exact ⟨fun v hv ↦ (mem_valuesUnder hp hroot).mpr (hmet.operands v hv), fun d hd ↦
      (under_op_iff hp hroot).mp (hmet.control d hd)⟩

end Program

namespace RegionForm

open Program Edit

/-! ### Regions made from wired functions -/

def Hosts (p q : Program) (inputs : List ValueId) (r : RegionId) : Prop :=
  ∀ base : Set Visit, (∀ a ∈ base, p.Has a) → (∀ v ∈ inputs, ∃ a ∈ base, v ∈ p.defines a) →
    ∃ depth out, Wired q {a | p.Has a} depth base [.region r] out

structure WiredBody (p : Program) (o : OpId) (count : Nat) (body : RegionId) : Prop where
  region : p.Has (.region body)
  count : (p.argsOf body).length = count
  wired : ∃ out, Wired p {.op o} p.regions.length ∅ [.region body] out

structure Reworked (p : Program) (o : OpId) (s : Program) : Prop where
  consistent : s.Consistent
  grows : Grows [o] [] p s
  has : ∀ a, p.Has a → s.Has a
  results : s.resultsOf o = p.resultsOf o

section Reworked

variable (h : Reworked p o s)

include h

lemma Reworked.rework (hreworks : Reworks o s q) : Reworked p o q where
  consistent := hreworks.after
  grows := h.grows.trans hreworks.grows (fun _ hx ↦ .inl hx) (by simp)
  has a ha := has_of_grows hreworks.grows (forall_mem_singleton.mpr hreworks.live)
    (by simp) (h.has a ha)
  results := hreworks.results.trans h.results

lemma Reworked.defines (ha : p.Has a) : s.defines a = p.defines a :=
  defines_of_grows h.grows (forall_mem_singleton.mpr h.results) (by simp) ha

end Reworked

lemma unchanged_setKind (p : Program) (o : OpId) (kind : String) (ha : p.Has a) :
    Unchanged p (p.modifyOp o fun node ↦ { node with kind }) a := by
  cases a with
  | op x =>
    have hregions := regionsOf_modifyOp p o (f := fun node ↦ { node with kind }) (fun _ ↦ rfl) x
    refine ⟨?_, resultsOf_modifyOp p o (f := fun node ↦ { node with kind }) (fun _ ↦ rfl) x,
      congrArg _ hregions, fun y _ ↦ ⟨?_, ?_⟩⟩
    rotate_left
    · exact operandsOf_modifyOp p o (f := fun node ↦ { node with kind }) (fun _ ↦ rfl) y
    · exact controlOf_modifyOp p o (f := fun node ↦ { node with kind }) (fun _ ↦ rfl) y
    change ((p.modifyOp o fun node ↦ { node with kind }).op? x).isSome
    rw [op?_modifyOp]
    split_ifs
    · rw [isSome_map]
      exact ha
    · exact ha
  | region r => exact ⟨ha, rfl, rfl, fun y hy ↦ by cases hy⟩

section Inlining

variable {operands : List ValueId} {base : Set Visit} (hbase : ∀ a ∈ base, p.Has a)
  (hoperands : ∀ v ∈ conversion.flavor.handed operands, ∃ a ∈ base, v ∈ p.defines a)

include hbase hoperands

variable (h : Reworked p conversion.op s) (hinputs : match conversion.flavor with
      | .branch => s.argsOf r = [] ∧ inputs = operands.drop 1
      | .loop => s.argsOf r = inputs ∧ ∀ v ∈ inputs, start ≤ v.index)

include h hinputs

lemma inputs_met : ∀ v ∈ inputs, ∃ a ∈ insert (.region r) base, v ∈ s.defines a := by
  intro v hv
  cases hflavor : conversion.flavor with
  | branch =>
    simp only [hflavor] at hinputs hoperands
    rw [hinputs.2] at hv
    obtain ⟨a, ha, hdef⟩ := hoperands v hv
    exact ⟨a, Set.mem_insert_of_mem _ ha, (h.defines (hbase a ha)).symm ▸ hdef⟩
  | loop =>
    simp only [hflavor] at hinputs
    rw [← hinputs.1] at hv
    exact ⟨.region r, Set.mem_insert _ _, hv⟩

lemma copyBody_wired {body : RegionId} {table : List (ValueId × ValueId)} (hroot : body ∈ s.roots)
    (hbody : WiredBody p conversion.op (conversion.flavor.handed operands).length body)
    (hr : r ∈ s.regionsOf conversion.op) (hnew : ¬ p.Has (.region r)) (hempty : s.opsIn r = [])
    (hcount : inputs.length = (conversion.flavor.handed operands).length)
    (hok : (copyRegion body r ((s.argsOf body).zip inputs)).exec s = (.ok table, q)) :
    q.Consistent ∧ Grows [] [r] s q ∧ (∀ a ∈ base, q.Has a) ∧
      ∃ depth out, Wired q {a | p.Has a} depth base [.region r] out := by
  have hs := h.consistent
  obtain ⟨out, hwired⟩ := hbody.wired
  -- The body is wired in the program that has come about, as it was at the start.
  have hinner : Wired s {.op conversion.op} s.regions.length {.region body}
      (s.inside (.region body)) out := by
    have hkept : Wired s {.op conversion.op} _ _ _ _ :=
      (hwired.transfer (fun a ha hother ↦ ?_) (fun a ha _ ↦ ha) (by simp)).1
    · have hinner := (hkept.mono h.grows.regions).of_region
      rwa [insert_empty_eq] at hinner
    · exact .of_grows h.grows ha (fun x hx heq ↦ hother (mem_singleton.mp hx ▸ heq)) (by simp)
  have hcontents := contents_eq ((AttachedAt.root hroot).isSome_region? hs)
  have hc : s.Copyable body r := .of_root hs hroot hr fun hmem ↦
    hinner.tours_avoid _ (hcontents ▸ hmem) rfl
  obtain ⟨m, image, hcopy⟩ := hc.of_copyRegion hok
  rw [CopyMap.ofValues_zip] at hcopy
  have hargs : s.argsOf body = p.argsOf body :=
    argsOf_congr (h.grows.region?_eq hbody.region not_mem_nil)
  have hnames := CopyMap.map_value_insertValues {} (hs.nodup_argsOf body)
    (hcount.trans (hargs ▸ hbody.count.symm))
  have hhas : ∀ a ∈ insert (.region r) base, s.Has a :=
    Set.forall_mem_insert.mpr ⟨hc.target, fun a ha ↦ h.has a (hbase a ha)⟩
  have hfilled : q.argsOf r = s.argsOf r := by
    obtain ⟨region, hregion⟩ := isSome_iff_exists.mp hc.target
    rw [argsOf_eq (hcopy.region?_target hregion), argsOf_eq hregion]
  have hmet : ∀ v ∈ s.argsOf body, ∃ a ∈ insert (.region r) base, m.value v ∈ q.defines a := by
    intro v hv
    have hinput : m.value v ∈ inputs := by
      rw [← hnames, hcopy.table.otherValues v fun _ ↦ hc.not_mem_defines hv]
      exact mem_map_of_mem hv
    obtain ⟨a, ha, hdef⟩ := inputs_met hbase hoperands h hinputs _ hinput
    have hkept := defines_of_grows hcopy.grows (by simp)
      (forall_mem_singleton.mpr hfilled) (hhas a ha)
    exact ⟨a, ha, hkept ▸ hdef⟩
  have hreached : Reached s body {.region body}
      (s.toursOf s.regions.length (s.inside (.region body))) :=
    ⟨hcontents ▸ Sublist.refl _, fun c hseen hne ↦ absurd hseen hne⟩
  have hdone := hcopy.wired_copy hc hmet hinner hreached
  have hinside := hcopy.inside_eq hc mem_cons_self
  have hnone : s.inside (.region r) = [] := congrArg _ hempty
  rw [hcopy.target, hnone, nil_append] at hinside
  rw [Set.image_singleton, hcopy.target, Set.union_singleton, Set.insert_idem, ← hinside] at hdone
  exact ⟨hcopy.consistent, hcopy.grows, fun a ha ↦ hcopy.has_of_has (h.has a (hbase a ha)), _, _,
    .region hnew (hcopy.has_of_has hc.target) (hdone.avoidLess h.has) .done⟩

omit h hinputs in
lemma inlines_wired (hlive : p.Has (.op conversion.op)) :
    Inlines conversion operands (fun s body ↦ Reworked p conversion.op s ∧
      WiredBody p conversion.op (conversion.flavor.handed operands).length body)
    (fun s _ r ↦ Reworked p conversion.op s ∧
      ∃ depth out, Wired s {a | p.Has a} depth base [.region r] out) where
  region h := h.1.has _ h.2.region
  ready hreworks h := ⟨h.1.rework hreworks, h.2⟩
  made {s q _ _} hreworks _ _ h := by
    obtain ⟨hreworked, depth, out, hwired⟩ := h
    refine ⟨hreworked.rework hreworks, depth, out,
      (hwired.transfer (fun a ha hnew ↦ ?_) (fun a ha _ ↦ ha) fun a ha ↦ ?_).1⟩
    · refine .of_grows hreworks.grows ha (forall_mem_singleton.mpr fun heq ↦ hnew ?_) (by simp)
      rw [heq]
      exact hlive
    · rw [(hreworked.rework hreworks).defines (hbase a ha), hreworked.defines (hbase a ha)]
  step {s q node name func} hs ho hfunc h _ hok := by
    obtain ⟨hreworked, hbody⟩ := h
    obtain ⟨r, inputs, s₁, table, s₂, last, hopen, hcopy, hlast, hq⟩ :=
      inlineCallee_steps hs ho hfunc (hreworked.has _ hbody.region) hok
    obtain ⟨hs₁, hg₁, hfresh, ho₁, hops₁, hcount, hinputs⟩ := openRegion_ok hs ho hopen
    have hr₁ : r ∈ s₁.regionsOf conversion.op := by
      rw [regionsOf_eq ho₁]
      simp [Operation.regions]
    have hnew : ¬ p.Has (.region r) := fun hr ↦ by
      have hsome : (s.region? r).isSome := hreworked.has _ hr
      simp [hfresh] at hsome
    obtain ⟨hs₂, hg₁₂, hhas, depth, out, hwired⟩ := copyBody_wired hbase hoperands
      (hreworked.rework (.of_op? hs hs₁ hg₁ ho ho₁ rfl)) hinputs
      (hg₁.roots ▸ body_mem_roots hfunc) hbody hr₁ hnew hops₁ hcount hcopy
    obtain ⟨hconsistent, hgrows, -, ho₃⟩ := inlineCallee_done hs ho hg₁ hfresh ho₁ hs₂ hg₁₂ hlast hq
    refine ⟨hconsistent, hgrows, r, ho₃, hreworked.rework
      (.of_op? hs hconsistent hgrows ho ho₃ rfl), depth, out, ?_⟩
    subst hq
    refine (hwired.transfer (fun a ha _ ↦ unchanged_setKind s₂ last yieldKind ha)
      (fun a ha _ ↦ ha) fun a ha ↦ ?_).1
    exact (unchanged_setKind s₂ last yieldKind (hhas a ha)).defines

end Inlining

/-! ### Converted operations -/

/-- A walk over the region finds it wired. -/
def InOrder (p : Program) (r : RegionId) : Prop :=
  ∃ depth out, Wired p ∅ depth ∅ [.region r] out

structure Hosted (conversion : Conversion) (node : Operation) (p q : Program) : Prop where
  consistent : q.Consistent
  grows : Grows [conversion.op] [] p q
  regions : ∃ rs, q.op? conversion.op = some { node with
      kind := conversion.regionKind
      form := .nested rs
      operands := conversion.flavor.kept node.operands } ∧
    ∀ r ∈ rs, Hosts p q (conversion.flavor.handed node.operands) r

lemma Flavor.mem_of_mem_handed {flavor : Flavor} {operands : List ValueId}
    (hv : v ∈ flavor.handed operands) : v ∈ operands := by
  cases flavor with
  | branch => exact mem_of_mem_drop hv
  | loop => exact hv

lemma Convertible.wiredBody (h : Convertible conversion node p) (hp : p.Consistent)
    (hwired : ∀ name ∈ conversion.callees, ∀ func, p.func? name = some func → InOrder p func.body) :
    ∀ name ∈ conversion.callees, ∃ func, p.func? name = some func ∧
      WiredBody p conversion.op (conversion.flavor.handed node.operands).length func.body := by
  intro name hname
  obtain ⟨func, hfunc, hcount, houtside⟩ := h.bodies name hname
  obtain ⟨depth, out, hbody⟩ := hwired name hname func hfunc
  have hroot : AttachedAt p 0 func.body := .root (body_mem_roots hfunc)
  refine ⟨func, hfunc, hroot.isSome_region? hp, hcount, out, ?_⟩
  have hlevel : Wired p ∅ p.regions.length ∅ [.region func.body] out :=
    hbody.toLevel hp (forall_mem_singleton.mpr hroot) (Nat.le_add_left _ _)
  refine hlevel.avoiding (S := {a | Under p func.body a}) (fun a ha b hb ↦ ha.inside hb)
    (forall_mem_singleton.mpr .top) ?_
  rintro _ rfl hunder
  obtain ⟨a, hanc⟩ :=
    (mem_walk hp ⟨0, hroot⟩).mp ((under_op_iff hp (body_mem_roots hfunc)).mp hunder)
  exact houtside a hanc

/-- What was met before a walk over the new regions need not be the same for each of them: the
regions do not depend on it. -/
theorem convert_hosted (hp : p.Consistent) (h : Convertible conversion node p)
    (hoperands : ∀ v ∈ node.operands, ∃ a, p.Has a ∧ v ∈ p.defines a)
    (hwired : ∀ name ∈ conversion.callees, ∀ func, p.func? name = some func → InOrder p func.body)
    (hok : (convert conversion).exec p = (.ok ⟨⟩, q)) : Hosted conversion node p q := by
  have hlive : p.Has (.op conversion.op) := isSome_of_eq_some h.live
  have hstart : Reworked p conversion.op p :=
    ⟨hp, (Grows.refl p).weaken (nil_subset _) (Subset.refl _), fun _ ha ↦ ha, rfl⟩
  have hmade : ∀ base : Set Visit, (∀ a ∈ base, p.Has a) →
      (∀ v ∈ conversion.flavor.handed node.operands, ∃ a ∈ base, v ∈ p.defines a) → _ :=
    fun base hbase hinputs ↦ convert_made (inlines_wired hbase hinputs hlive)
      hp h.live h.regions rfl h.callees
      (fun name hname ↦ (h.wiredBody hp hwired name hname).imp fun _ hbody ↦
      ⟨hbody.1, hstart, hbody.2⟩) hok
  obtain ⟨hq, hg, rs, hop, -⟩ := hmade {a | p.Has a} (fun _ ha ↦ ha) fun v hv ↦
    hoperands v (Flavor.mem_of_mem_handed hv)
  refine ⟨hq, hg, rs, hop, fun r hr base hbase hinputs ↦ ?_⟩
  obtain ⟨-, -, rs', hop', hlength, hall⟩ := hmade base hbase hinputs
  obtain rfl : rs = rs' := by
    have hform := congrArg Operation.form (some.inj (hop.symm.trans hop'))
    exact Form.nested.inj hform
  obtain ⟨name, hmem⟩ := exists_mem_zip hlength hr
  obtain ⟨_, -, -, hfound⟩ := hall name r hmem
  exact hfound

section Hosted

variable (hc : Hosted conversion node p q) (h : Convertible conversion node p) (hp : p.Consistent)

include hc

lemma Hosted.unchanged (ha : p.Has a) (hne : a ≠ .op conversion.op) : Unchanged p q a :=
  .of_grows hc.grows ha (forall_mem_singleton.mpr hne) (by simp)

lemma Hosted.has (ha : p.Has a) : q.Has a := by
  obtain ⟨rs, hop, -⟩ := hc.regions
  exact has_of_grows hc.grows (forall_mem_singleton.mpr (isSome_of_eq_some hop)) (by simp) ha

include h

lemma Hosted.defines (ha : p.Has a) : q.defines a = p.defines a := by
  obtain ⟨rs, hop, -⟩ := hc.regions
  have hresults : q.resultsOf conversion.op = p.resultsOf conversion.op := by
    rw [resultsOf_eq hop, resultsOf_eq h.live]
  exact defines_of_grows hc.grows (forall_mem_singleton.mpr hresults) (by simp) ha

lemma Hosted.met (ho : p.Has (.op o)) (hmet : Met p seen o)
    (hseen : ∀ a ∈ seen, p.Has a) (hsub : seen ⊆ seen') : Met q seen' o := by
  have hrefers : (∀ v ∈ q.operandsOf o, v ∈ p.operandsOf o) ∧ q.controlOf o = p.controlOf o := by
    by_cases hself : o = conversion.op
    · obtain ⟨rs, hop, -⟩ := hc.regions
      rw [hself, operandsOf_eq hop, operandsOf_eq h.live, controlOf_eq hop, controlOf_eq h.live]
      exact ⟨fun v hv ↦ Flavor.mem_of_mem_kept hv, rfl⟩
    · obtain ⟨hoperands, hcontrol⟩ :=
        (hc.unchanged ho fun heq ↦ hself (Visit.op.inj heq)).refers o rfl
      exact ⟨fun v hv ↦ hoperands ▸ hv, hcontrol⟩
  refine ⟨fun v hv ↦ ?_, fun d hd ↦ hsub (hmet.control d (hrefers.2 ▸ hd))⟩
  obtain ⟨a, ha, hdef⟩ := hmet.operands v (hrefers.1 v hv)
  exact ⟨a, hsub ha, (hc.defines h (hseen a ha)).symm ▸ hdef⟩

omit hc in
lemma Convertible.inside_self : p.inside (.op conversion.op) = [] := by
  rw [inside, regionsOf_eq h.live, h.regions]
  rfl

lemma Hosted.wired_self (hmet : Met p seen conversion.op) (hseen : ∀ a ∈ seen, p.Has a)
    (hsub : seen ⊆ seen') : ∃ depth out, seen' ⊆ out ∧
    Wired q ∅ depth seen' (q.inside (.op conversion.op)) out := by
  obtain ⟨rs, hop, hhosts⟩ := hc.regions
  rw [inside, regionsOf_eq hop]
  change ∃ depth out, seen' ⊆ out ∧ Wired q ∅ depth seen' (rs.map .region) out
  have hinputs : ∀ v ∈ conversion.flavor.handed node.operands, ∃ a ∈ seen, v ∈ p.defines a :=
    fun v hv ↦ hmet.operands v (operandsOf_eq h.live ▸ Flavor.mem_of_mem_handed hv)
  clear hop
  induction rs generalizing seen' with
  | nil => exact ⟨0, seen', subset_rfl, .done⟩
  | cons r rest ih =>
    rw [forall_mem_cons] at hhosts
    obtain ⟨depth, out, hfirst⟩ := hhosts.1 seen hseen hinputs
    have hwide := (hfirst.avoidLess (Set.empty_subset _)).widen seen'
    rw [Set.union_eq_self_of_subset_left hsub] at hwide
    obtain ⟨depth', out', hout, hrest⟩ := ih (hsub.trans hwide.subset) hhosts.2
    refine ⟨max depth depth', out', hwide.subset.trans hout, ?_⟩
    exact (hwide.mono (Nat.le_max_left _ _)).append (hrest.mono (Nat.le_max_right _ _))

lemma Hosted.wired {out : Set Visit} {todo : List Visit}
    (hwired : Wired p ∅ depth seen todo out) (hseen : ∀ a ∈ seen, p.Has a) (hsub : seen ⊆ seen') :
    ∃ depth' out', out ⊆ out' ∧ Wired q ∅ depth' seen' todo out' := by
  induction hwired generalizing seen' with
  | @done depth => exact ⟨depth, seen', hsub, .done⟩
  | @op _ seen mid _ o _ _ hlive hmet hinner _ ihinner ihrest =>
    have hmid := hinner.has (Set.forall_mem_insert.mpr ⟨hlive, hseen⟩)
    have hinner' : ∃ depth' mid', mid ⊆ mid' ∧ Wired q ∅ depth' (insert (.op o) seen')
        (q.inside (.op o)) mid' := by
      by_cases hself : o = conversion.op
      · subst hself
        rw [h.inside_self] at hinner
        cases hinner
        obtain ⟨depth', mid', hout, hself⟩ := hc.wired_self h hmet hseen
          (hsub.trans (Set.subset_insert (.op conversion.op) seen'))
        exact ⟨depth', mid', (Set.insert_subset_insert hsub).trans hout, hself⟩
      · rw [(hc.unchanged hlive fun heq ↦ hself (Visit.op.inj heq)).inside]
        exact ihinner (Set.forall_mem_insert.mpr ⟨hlive, hseen⟩) (Set.insert_subset_insert hsub)
    obtain ⟨depth₁, mid', hmid', hinner'⟩ := hinner'
    obtain ⟨depth₂, out', hout', hrest'⟩ := ihrest hmid hmid'
    refine ⟨max depth₁ depth₂ + 1, out', hout', .op (Set.notMem_empty _) ?_
      (hc.met h hlive hmet hseen hsub) (hinner'.mono (Nat.le_max_left _ _))
      (hrest'.mono (by omega))⟩
    exact hc.has hlive
  | region _ hlive hinner _ ihinner ihrest =>
    have hkept := hc.unchanged hlive (fun heq ↦ by cases heq)
    have hmid := hinner.has (Set.forall_mem_insert.mpr ⟨hlive, hseen⟩)
    obtain ⟨depth₁, mid', hmid', hinner'⟩ :=
      ihinner (Set.forall_mem_insert.mpr ⟨hlive, hseen⟩) (Set.insert_subset_insert hsub)
    obtain ⟨depth₂, out', hout', hrest'⟩ := ihrest hmid hmid'
    have hlater := hrest'.mono (Nat.le_max_right depth₁ depth₂)
    refine ⟨max depth₁ depth₂, out', hout', .region (Set.notMem_empty _) hkept.has ?_ hlater⟩
    rw [hkept.inside]
    exact hinner'.mono (Nat.le_max_left _ _)

lemma Hosted.staysPut : StaysPut p q := by
  obtain ⟨rs, hop, -⟩ := hc.regions
  exact .of_busy hc.grows h.live hop rfl

variable {root : RegionId} (hroot : root ∈ p.roots)

include hp hroot

lemma Hosted.under (ha : Under p root a) : Under q root a := by
  induction ha with
  | top => exact .top
  | @inside a b houter hb ih =>
    by_cases hself : a = .op conversion.op
    · rw [hself, h.inside_self] at hb
      cases hb
    · exact ih.inside ((hc.unchanged (houter.has hp hroot) hself).inside ▸ hb)

lemma Hosted.under_old (ho : p.Has (.op o)) (hunder : Under q root (.op o)) :
    Under p root (.op o) := by
  have hstays := hc.staysPut h
  have hroot' : root ∈ q.roots := hstays.roots ▸ hroot
  rw [under_op_iff hc.consistent hroot', mem_walk hc.consistent ⟨0, .root hroot'⟩] at hunder
  rw [under_op_iff hp hroot, mem_walk hp ⟨0, .root hroot⟩]
  exact hunder.imp fun a hanc ↦ (hstays.ancestorIn_iff hp ho).mp hanc

omit h in
lemma Hosted.under_new (ha : Under q root a) (hnew : ¬ p.Has a) :
    Under q root (.op conversion.op) ∧ ∃ r ∈ q.regionsOf conversion.op, Under q r a := by
  induction ha with
  | top => exact absurd (Under.top.has hp hroot) hnew
  | @inside a b houter hb ih =>
    by_cases hold : p.Has a
    · by_cases hself : a = .op conversion.op
      · subst hself
        obtain ⟨r, hr, rfl⟩ := mem_map.mp hb
        exact ⟨houter, r, hr, .top⟩
      · rw [(hc.unchanged hold hself).inside] at hb
        exact absurd (hp.has_of_mem_inside hb) hnew
    · obtain ⟨hself, r, hr, hunder⟩ := ih hold
      exact ⟨hself, r, hr, hunder.inside hb⟩

end Hosted

/-- A conversion keeps a program isolated. Whatever is new is met by the walk over the region where
it lies, and this walk starts with what lies under the root of the converted operation. -/
theorem Hosted.isolated (hc : Hosted conversion node p q) (h : Convertible conversion node p)
    (hp : p.Consistent) (hisolated : Isolated p) : Isolated q := by
  rw [isolated_iff hp] at hisolated
  rw [isolated_iff hc.consistent]
  intro root hroot' o ho
  have hroot : root ∈ p.roots := hc.grows.roots ▸ hroot'
  have hbase : ∀ a, Under p root a → p.Has a := fun a ha ↦ ha.has hp hroot
  by_cases hold : p.Has (.op o)
  · have hmet := hisolated root hroot o (hc.under_old h hp hroot hold ho)
    exact hc.met h hold hmet hbase fun a ha ↦ hc.under h hp hroot ha
  · obtain ⟨hself, r, hr, hunder⟩ := hc.under_new hp hroot ho hold
    have hlive : p.Has (.op conversion.op) := isSome_of_eq_some h.live
    have hmet := hisolated root hroot conversion.op (hc.under_old h hp hroot hlive hself)
    obtain ⟨rs, hop, hhosts⟩ := hc.regions
    have hr' : r ∈ rs := by rwa [regionsOf_eq hop] at hr
    obtain ⟨depth, out, hwired⟩ := hhosts r hr' {a | Under p root a} hbase fun v hv ↦
      hmet.operands v (operandsOf_eq h.live ▸ Flavor.mem_of_mem_handed hv)
    have hin : ∀ a, Under q r a → a ∈ out ∧ ¬ p.Has a := by
      intro a ha
      induction ha with
      | top => exact hwired.todo_mem _ mem_cons_self
      | inside _ hb ih =>
        exact ((hwired.met _ ih.1).resolve_left fun hseen ↦ ih.2 (hbase _ hseen)).1 _ hb
    have hout : out ⊆ {a | Under q root a} := by
      refine hwired.out_subset (fun a ha ↦ hc.under h hp hroot ha) (fun a ha b hb ↦ ha.inside hb) ?_
      exact forall_mem_singleton.mpr (hself.inside (mem_map_of_mem hr))
    have hmet' :=
      ((hwired.met _ (hin _ hunder).1).resolve_left fun hseen ↦ hold (hbase _ hseen)).2 o rfl
    exact hmet'.mono hout

/-! ### Sweeps -/

/-- Some attached operation that is to be converted names the function. -/
def Named (p : Program) (name : String) : Prop :=
  ∃ o ∈ p.allOps, ∃ node, p.op? o = some node ∧ name ∈ calleesOf node

/-- What remains to be converted, in a program that is isolated and where all functions that may be
copied are wired. -/
structure Separate (p : Program) (conversions : List Conversion) (s : Program) : Prop where
  remaining : Remaining p conversions s
  isolated : Isolated s
  wired : ∀ name, Named p name → ∀ func, p.func? name = some func → InOrder s func.body
  attached : ∀ conversion ∈ conversions, conversion.op ∈ s.allOps
  convertible : ∀ conversion ∈ conversions, ∃ node, Convertible conversion node s

lemma mem_allOps_iff_under (hp : p.Consistent) : o ∈ p.allOps ↔
    ∃ root ∈ p.roots, Under p root (.op o) := by
  rw [allOps, mem_flatMap]
  exact exists_congr fun root ↦ and_congr_right fun hroot ↦ (under_op_iff hp hroot).symm

lemma Ready.named (h : Ready p s conversion) (hderived : Derived p s)
    (hattached : conversion.op ∈ s.allOps) : ∀ name ∈ conversion.callees, Named p name := by
  intro name hname
  obtain ⟨node, scheme, hnode, hscheme, -, hcallees⟩ := h.op
  obtain ⟨x, hx, model, hmodel, halike⟩ := hderived.models _ hattached node hnode
    (isSome_of_eq_some hscheme)
  exact ⟨x, hx, model, hmodel, halike.calleesOf_eq ▸ hcallees ▸ hname⟩

section Sweep

variable (hp : p.Consistent) (hends : ∀ func ∈ p.funcs, (p.terminator? func.body).isSome)

include hp hends

lemma Separate.step {rest : List Conversion}
    (h : Separate p (conversion :: rest) s) (hok : (convert conversion).exec s = (.ok ⟨⟩, q)) :
    Separate p rest q := by
  have hs := h.remaining.derived.consistent
  obtain ⟨hattached, hattachedRest⟩ := forall_mem_cons.mp h.attached
  obtain ⟨⟨node, hfirst⟩, hothers⟩ := forall_mem_cons.mp h.convertible
  have hself := (nodup_cons.mp h.remaining.ops).1
  obtain ⟨root, hroot, hunder⟩ := (mem_allOps_iff_under hs).mp hattached
  have hmet := (isolated_iff hs).mp h.isolated root hroot conversion.op hunder
  have hc : Hosted conversion node s q := by
    refine convert_hosted hs hfirst (fun v hv ↦ ?_) (fun name hname func hfunc ↦ ?_) hok
    · obtain ⟨a, ha, hdef⟩ := hmet.operands v (operandsOf_eq hfirst.live ▸ hv)
      exact ⟨a, Under.has hs hroot ha, hdef⟩
    · rw [h.remaining.derived.func?] at hfunc
      have hready := h.remaining.ready conversion mem_cons_self
      exact h.wired name (hready.named h.remaining.derived hattached name hname) func hfunc
  obtain ⟨_, q', hrun, hremaining⟩ := h.remaining.step hp hends
  cases hrun.symm.trans hok
  obtain ⟨rs, hop, -⟩ := hc.regions
  have hreworks : Reworks conversion.op s q := .of_op? hs hc.consistent hc.grows hfirst.live hop rfl
  refine ⟨hremaining, hc.isolated hfirst hs h.isolated, fun name hname func hfunc ↦ ?_,
    fun other hmem ↦ ?_, hreworks.convertible (isSome_of_eq_some hfirst.live) hself hothers⟩
  · obtain ⟨depth, out, hwired⟩ := h.wired name hname func hfunc
    obtain ⟨depth', out', -, hwired'⟩ := hc.wired hfirst hwired (by simp) (Set.empty_subset ∅)
    exact ⟨depth', out', hwired'⟩
  · obtain ⟨root, hroot, hunder⟩ := (mem_allOps_iff_under hs).mp (hattachedRest other hmem)
    exact (mem_allOps_iff_under hc.consistent).mpr
      ⟨root, hc.grows.roots ▸ hroot, hc.under hfirst hs hroot hunder⟩

lemma isolated_of_sweep {sweeps : Nat} {changed : Bool} (hroots : p.roots.Nodup)
    (h : Separate p [] s) (hok : (sweep sweeps).exec s = (.ok changed, q)) : Isolated q := by
  have hswept := swept_of_ok hok
  clear hok
  induction hswept with
  | done => exact h.isolated
  | step hplan _ hconverted _ ih =>
    have hderived := h.remaining.derived
    obtain ⟨hops, hall⟩ := plan_eq_ok hderived.consistent (hderived.roots ▸ hroots) hplan
    have hstart :=
      (⟨⟨hderived, hops, ready_of_plan hderived hplan⟩, h.isolated, h.wired, attached_of_plan hplan,
      hall⟩ : Separate p _ _)
    exact ih (forM_ok (I := Separate p)
      (fun _ _ _ _ hm hok ↦ hm.step hp hends hok) hstart hconverted)

end Sweep

/-! ### Runs -/

/-- If the pass succeeds on a verified program that is isolated, and all functions that operations
to be converted name are wired, then the program is isolated still. -/
theorem isolated_of_run_ok (registry : Registry) {p q : Program} (hp : Reachable p)
    (hverify : p.verify = .ok ()) (hisolated : Isolated p)
    (hwired : ∀ name, Named p name → ∀ func, p.func? name = some func → InOrder p func.body)
    {changed : Bool} (hok : (pass.run registry).exec p = (.ok changed, q)) : Isolated q := by
  have hends := isSome_terminator?_of_verify hp.consistent hverify
  have hstart : Separate p [] p :=
    ⟨⟨.refl hp hverify, .nil, by simp⟩, hisolated, hwired, by simp, by simp⟩
  exact isolated_of_sweep hp.consistent hends hp.nodup_roots hstart hok

/-- A conditional that stands before its selector and names a function with a conditional that names
another one. -/
def nestedCalls : Program :=
  .built [
    .addFunction "f" [.fixed .bool []] [], .node 1 "source" [] 1, .node 1 "user" [1, 0] 0 [0],
    .node 1 returnKind, .addFunction "g" [.fixed .bool []] [],
    .append ⟨2⟩ { kind := "If", operands := [⟨2⟩, ⟨2⟩], funcRefs :=
      [⟨"then_branch", "f"⟩, ⟨"else_branch", "f"⟩] },
    .node 2 returnKind, .append ⟨0⟩ { kind := "pred", resultTypes := [.fixed .bool []] },
    .append ⟨0⟩ { kind := "If", operands := [⟨3⟩, ⟨3⟩], funcRefs :=
      [⟨"then_branch", "g"⟩, ⟨"else_branch", "f"⟩] },
    .reorder ⟨0⟩ [⟨6⟩, ⟨5⟩]]

/-- Copies of copies still refer to the selector in the graph and to nothing in the functions. -/
theorem isolated_nestedCalls :
    let q := ((pass.run .empty).exec nestedCalls).2
    Reachable nestedCalls ∧ nestedCalls.verify = .ok () ∧ Isolated nestedCalls ∧
      (pass.run .empty).exec nestedCalls = (.ok true, q) ∧ q.regions.length = 9 ∧ Isolated q := by
  intro q
  have hp : Reachable nestedCalls := reachable_built _
  have hverify : nestedCalls.verify = .ok () := eq_ok_of_toOption (by decide +kernel)
  have hisolated : Isolated nestedCalls := by decide +kernel
  have hok : (pass.run .empty).exec nestedCalls = (.ok true, q) := exec_eq_ok (by decide +kernel)
  have hbodies : ∀ func ∈ nestedCalls.funcs, func.body = ⟨1⟩ ∨ func.body = ⟨2⟩ := by decide +kernel
  refine ⟨hp, hverify, hisolated, hok, by decide +kernel,
    isolated_of_run_ok .empty hp hverify hisolated ?_ hok⟩
  intro name _ func hfunc
  have hflat {depth : Nat} {seen out : Set Visit} {o : OpId} {todo : List Visit}
      (ho : o ∈ nestedCalls.allOps) (hmet : Met nestedCalls seen o)
      (hrest : Wired nestedCalls ∅ (depth + 1) (insert (.op o) seen) todo out) :
      Wired nestedCalls ∅ (depth + 1) seen (.op o :: todo) out := by
    have hinside : ∀ o ∈ nestedCalls.allOps, (nestedCalls.op? o).isSome ∧
        nestedCalls.inside (.op o) = [] := by
      decide +kernel
    exact .op (by simp) (hinside o ho).1 hmet ((hinside o ho).2 ▸ .done) hrest
  have hnone {seen : Set Visit} {o : OpId}
      (h : nestedCalls.operandsOf o = [] ∧ nestedCalls.controlOf o = []) :
      Met nestedCalls seen o := ⟨by simp [h.1], by simp [h.2]⟩
  rw [func?] at hfunc
  rcases hbodies func (mem_of_find?_eq_some hfunc) with hbody | hbody <;> rw [hbody]
  · have hlive : (nestedCalls.region? ⟨1⟩).isSome := by decide +kernel
    have hin : nestedCalls.inside (.region ⟨1⟩) = [.op ⟨0⟩, .op ⟨1⟩, .op ⟨2⟩] := by decide +kernel
    refine ⟨1, _, .region (by simp) hlive
      (hin ▸ hflat (by decide +kernel) (hnone (by decide +kernel))
      (hflat (by decide +kernel) ⟨?_, ?_⟩
      (hflat (by decide +kernel) (hnone (by decide +kernel)) .done))) .done⟩
    · simp [show nestedCalls.operandsOf ⟨1⟩ = [⟨1⟩, ⟨0⟩] by decide +kernel,
        show nestedCalls.defines (.op ⟨0⟩) = [⟨1⟩] by decide +kernel,
        show nestedCalls.defines (.region ⟨1⟩) = [⟨0⟩] by decide +kernel]
    · simp [show nestedCalls.controlOf ⟨1⟩ = [⟨0⟩] by decide +kernel]
  · have hlive : (nestedCalls.region? ⟨2⟩).isSome := by decide +kernel
    have hin : nestedCalls.inside (.region ⟨2⟩) = [.op ⟨3⟩, .op ⟨4⟩] := by decide +kernel
    refine ⟨1, _, .region (by simp) hlive (hin ▸ hflat (by decide +kernel) ⟨?_, ?_⟩
      (hflat (by decide +kernel) (hnone (by decide +kernel)) .done)) .done⟩
    · simp [show nestedCalls.operandsOf ⟨3⟩ = [⟨2⟩, ⟨2⟩] by decide +kernel,
        show nestedCalls.defines (.region ⟨2⟩) = [⟨2⟩] by decide +kernel]
    · simp [show nestedCalls.controlOf ⟨3⟩ = [] by decide +kernel]

/-- A function that uses a value before it is defined. -/
def lateSource : Program :=
  .built [
    .addFunction "f" [] [], .append ⟨1⟩ { kind := "source", resultTypes := [.fixed .f32 []] },
    .node 1 "user" [0], .node 1 returnKind, .reorder ⟨1⟩ [⟨1⟩, ⟨0⟩, ⟨2⟩],
    .append ⟨0⟩ { kind := "pred", resultTypes := [.fixed .bool []] },
    .append ⟨0⟩ { kind := "If", operands := [⟨1⟩], funcRefs :=
      [⟨"then_branch", "f"⟩, ⟨"else_branch", "f"⟩] }]

/-- The copy of the user is made when the table does not know the source yet, and so it uses the
source of the function. -/
theorem not_isolated_lateSource :
    let q := ((pass.run .empty).exec lateSource).2
    Reachable lateSource ∧ lateSource.verify = .ok () ∧ Isolated lateSource ∧
      (pass.run .empty).exec lateSource = (.ok true, q) ∧ q.operandsOf ⟨5⟩ = [⟨0⟩] ∧ ¬ Isolated q :=
  ⟨reachable_built _, eq_ok_of_toOption (by decide +kernel), by decide +kernel, exec_eq_ok
    (by decide +kernel), by decide +kernel⟩

end RegionForm

end TensorGraph
