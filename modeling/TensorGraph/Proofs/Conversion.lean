import TensorGraph.Proofs.CompleteCopies

/-!
What the conversion of an operation does. The operation gets one new region for each function it
names, and each region holds a copy of the body of its function.
-/

namespace TensorGraph.RegionForm

open Program Edit List

variable {r : RegionId} {operands : List ValueId} {p p₁ : Program} {func : Func} {flavor : Flavor}
  {inputs : List ValueId} {o : OpId} {name : String} {q : Program}

lemma body_mem_roots (h : p.func? name = some func) : func.body ∈ p.roots :=
  mem_cons_of_mem _ (mem_map_of_mem (mem_of_find?_eq_some h))

def Flavor.handed (flavor : Flavor) (operands : List ValueId) : List ValueId :=
  match flavor with
  | .branch => operands.drop 1
  | .loop => operands

/-- The operands that a converted operation keeps. -/
def Flavor.kept (flavor : Flavor) (operands : List ValueId) : List ValueId :=
  match flavor with
  | .branch => operands.take 1
  | .loop => operands

lemma Flavor.mem_of_mem_kept {v : ValueId} (hv : v ∈ flavor.kept operands) : v ∈ operands := by
  cases flavor with
  | branch => exact mem_of_mem_take hv
  | loop => exact hv

/-- A region of an operation holds a copy of a body. In a branch the operands stand for the
arguments of the body, in a loop the arguments of the region do. -/
def Embodies (flavor : Flavor) (o : OpId) (operands : List ValueId) (start : Nat) (p : Program)
    (body r : RegionId) : Prop :=
  ∃ f, Copied p start [o] (p.argsOf body) f (p.opsIn body) (p.opsIn r) ∧
    match flavor with
    | .branch => p.argsOf r = [] ∧ (p.argsOf body).map f = operands.drop 1
    | .loop => p.argsOf r = (p.argsOf body).map f ∧ ∀ v ∈ p.argsOf r, start ≤ v.index

structure Inlinable (o : OpId) (count : Nat) (p : Program) (body : RegionId) : Prop where
  region : (p.region? body).isSome
  count : (p.argsOf body).length = count
  closed : Closed p [o] p.regions.length (p.argsOf body) (p.opsIn body)

section Growing

variable {q : Program} (hp : p.Consistent) (hg : Grows [o] [] p q) {body : RegionId}

include hp hg

lemma Inlinable.grows {count : Nat} (h : Inlinable o count p body) : Inlinable o count q body := by
  have hsame := hg.region?_eq h.region not_mem_nil
  refine ⟨hsame ▸ h.region, argsOf_congr hsame ▸ h.count, ?_⟩
  rw [argsOf_congr hsame, opsIn_congr hsame]
  exact (h.closed.grows hp hg (by simp) (by simp) fun t ht ↦ .inl ht).mono hg.regions

lemma Embodies.grows {start start' : Nat} (h : Embodies flavor o operands start p body r)
    (hbody : (p.region? body).isSome) (hr : (p.region? r).isSome) (hstart : start' ≤ start) :
    Embodies flavor o operands start' q body r := by
  obtain ⟨f, hcopied, hargs⟩ := h
  have hsame := hg.region?_eq hbody not_mem_nil
  have hsame' := hg.region?_eq hr not_mem_nil
  unfold Embodies
  rw [argsOf_congr hsame, argsOf_congr hsame', opsIn_congr hsame, opsIn_congr hsame']
  refine ⟨f, hcopied.grows hp hg (by simp) (by simp) (Subset.refl _) hstart, ?_⟩
  cases flavor with
  | branch => exact hargs
  | loop => exact ⟨hargs.1, fun v hv ↦ Nat.le_trans hstart (hargs.2 v hv)⟩

end Growing

section Callee

variable {conversion : Conversion} {q : Program} {node : Operation} (hp : p.Consistent)
  (ho : p.op? conversion.op = some node)

include hp ho

lemma openRegion_ok {r : RegionId}
    (hok : (openRegion conversion operands).exec p = (.ok (r, inputs), q)) :
    q.Consistent ∧ Grows [conversion.op] [] p q ∧ p.region? r = none ∧
      q.op? conversion.op = some { node with form := .nested (node.regions ++ [r]) } ∧
      q.opsIn r = [] ∧ inputs.length = (conversion.flavor.handed operands).length ∧
      match conversion.flavor with
      | .branch => q.argsOf r = [] ∧ inputs = operands.drop 1
      | .loop => q.argsOf r = inputs ∧ ∀ v ∈ inputs, p.values.length ≤ v.index := by
  unfold openRegion at hok
  cases hflavor : conversion.flavor with
  | branch =>
    simp only [hflavor] at hok
    obtain ⟨r', m, hregion, hdone⟩ := exec_bind_ok.mp hok
    have hm := (makes_addRegion conversion.op .once).keeps.of_ok hp hregion
    obtain ⟨-, rfl, rfl⟩ := does_addRegion.of_ok hregion
    cases hdone
    have hfresh := region?_withRegion p conversion.op .once
    exact ⟨hm, .withRegion _ _ _, region?_nextRegion p, op?_withRegion ho .once, opsIn_eq hfresh,
      rfl, argsOf_eq hfresh, rfl⟩
  | loop =>
    simp only [hflavor] at hok
    obtain ⟨r', m, hregion, hok⟩ := exec_bind_ok.mp hok
    obtain ⟨new, n, hcarry, hdone⟩ := exec_bind_ok.mp hok
    have hm := (makes_addRegion conversion.op .repeated).keeps.of_ok hp hregion
    have hn :=
      (Keeps.mapM (fun v ↦ .bind (.read _) fun _ ↦ (makes_addArg r' _).keeps) operands).of_ok
      hm hcarry
    obtain ⟨-, rfl, rfl⟩ := does_addRegion.of_ok hregion
    cases hdone
    have hfresh := region?_withRegion p conversion.op .repeated
    obtain ⟨hgrows, hfilled, -, hlength, hlate⟩ := carryValues_ok hfresh hcarry
    refine ⟨hn, (Grows.withRegion _ _ _).trans hgrows (by simp) fun r hr ↦ ?_, region?_nextRegion p,
      hgrows.op? _ not_mem_nil _ (op?_withRegion ho .repeated), opsIn_eq hfilled, hlength,
      argsOf_eq hfilled, hlate⟩
    exact .inr (mem_singleton.mp hr ▸ region?_nextRegion p)

omit hp ho in
lemma copyBody_ok {body : RegionId} {table : List (ValueId × ValueId)} (hp : p.Consistent)
    (hroot : body ∈ p.roots) (hr : r ∈ p.regionsOf o) (hempty : p.opsIn r = [])
    (hbody : Inlinable o inputs.length p body) (hinputs : ∀ v ∈ inputs, v.index < p.values.length)
    (hok : (copyRegion body r ((p.argsOf body).zip inputs)).exec p = (.ok table, q)) :
    q.Consistent ∧ Grows [] [r] p q ∧ q.argsOf r = p.argsOf r ∧ ∃ f,
      (p.argsOf body).map f = inputs ∧ Copied q p.values.length [o] (p.argsOf body) f (p.opsIn body)
      (q.opsIn r) := by
  have hcontents : p.contents body = p.toursOf p.regions.length ((p.opsIn body).map .op) :=
    contents_eq ((AttachedAt.root hroot).isSome_region? hp)
  have hc : p.Copyable body r :=
    .of_root hp hroot hr (hcontents ▸ hbody.closed.not_mem_toursOf mem_cons_self)
  obtain ⟨m, image, h⟩ := hc.of_copyRegion hok
  rw [CopyMap.ofValues_zip] at h
  have hnames := CopyMap.map_value_insertValues {} (hp.nodup_argsOf body) hbody.count.symm
  have hvalue : (p.argsOf body).map m.value = inputs :=
    (map_congr_left fun v hv ↦ h.table.otherValues v fun _ ↦ hc.not_mem_defines hv).trans hnames
  have hreached : Reached p body ∅ (p.toursOf p.regions.length ((p.opsIn body).map .op)) :=
    ⟨hcontents ▸ Sublist.refl _, fun c hc ↦ absurd hc (Set.notMem_empty c)⟩
  have hscope : ∀ v ∈ p.argsOf body, (m.value v).index < p.values.length ∧
      ∀ c ∈ p.contents body, v ∉ p.defines c :=
    fun v hv ↦ ⟨hinputs _ (hvalue ▸ mem_map_of_mem hv), fun _ ↦ hc.not_mem_defines hv⟩
  obtain ⟨region, hregion⟩ := Option.isSome_iff_exists.mp hc.target
  have hops := h.opsIn_image hc mem_cons_self h.target
  rw [hempty, nil_append] at hops
  refine ⟨h.consistent, h.grows, ?_, m.value, hvalue, hops ▸ h.copied hc hbody.closed hreached
    (fun v hv ↦ .inl (hscope v hv)) ?_ fun t ht ↦ .inl ht⟩
  · rw [argsOf_eq (h.region?_target hregion), argsOf_eq hregion]
  · exact forall_mem_singleton.mpr (isSome_of_mem_regionsOf hr)

omit ho in
lemma op?_eq_none_of_new_region (hr : p.region? r = none) (hq : q.Consistent)
    (hparent : ∀ x, (p.op? x).isSome → q.parentOf? x = p.parentOf? x)
    {x : OpId} (hx : x ∈ q.opsIn r) : p.op? x = none := by
  by_contra hlive
  have hsame := hparent x (Option.isSome_iff_ne_none.mpr hlive)
  rw [hq.mem_opsIn.mp hx] at hsame
  have hin := isSome_region?_of_mem_opsIn (hp.mem_opsIn.mpr hsame.symm)
  simp [hr] at hin

lemma inlineCallee_steps (hfunc : p.func? name = some func) (hbody : (p.region? func.body).isSome)
    (hok : (inlineCallee conversion operands name).exec p = (.ok ⟨⟩, q)) :
    ∃ r inputs p₁ table p₂ last, (openRegion conversion operands).exec p = (.ok (r, inputs), p₁) ∧
      (copyRegion func.body r ((p₁.argsOf func.body).zip inputs)).exec p₁ = (.ok table, p₂) ∧
      p₂.terminator? r = some last ∧ q = p₂.modifyOp last fun node ↦
      { node with kind := yieldKind } := by
  unfold inlineCallee at hok
  rw [exec_get_bind] at hok
  simp only [hfunc] at hok
  rw [bind_read_ok] at hok
  obtain ⟨region, hregion, hok⟩ := hok
  rw [← argsOf_eq (region_eq_ok.mp hregion), exec_bind_ok] at hok
  obtain ⟨⟨r, inputs⟩, p₁, hopen, hok⟩ := hok
  obtain ⟨-, hg₁, -⟩ := openRegion_ok hp ho hopen
  rw [← argsOf_congr (hg₁.region?_eq hbody not_mem_nil), exec_bind_ok] at hok
  obtain ⟨table, p₂, hcopy, hok⟩ := hok
  rw [exec_get_bind] at hok
  split at hok
  · cases hok
  next last hlast =>
  rw [setKind] at hok
  obtain ⟨-, rfl⟩ := does_updateOp.of_ok hok
  exact ⟨r, inputs, p₁, table, p₂, last, hopen, hcopy, hlast, rfl⟩

omit hp ho in
lemma inputs_lt (hp₁ : p₁.Consistent) (hoperands : ∀ v ∈ operands, v.index < p.values.length)
    (hle : p.values.length ≤ p₁.values.length) (hinputs : match conversion.flavor with
      | .branch => p₁.argsOf r = [] ∧ inputs = operands.drop 1
      | .loop => p₁.argsOf r = inputs ∧ ∀ v ∈ inputs, p.values.length ≤ v.index) :
    ∀ v ∈ inputs, v.index < p₁.values.length := by
  intro v hv
  revert hinputs
  cases conversion.flavor with
  | branch =>
    rintro ⟨-, rfl⟩
    exact Nat.lt_of_lt_of_le (hoperands v (mem_of_mem_drop hv)) hle
  | loop =>
    rintro ⟨hown, -⟩
    exact hp₁.lt_of_mem_argsOf (hown ▸ hv)

lemma inlineCallee_done {p₂ : Program} {last : OpId} (hg₁ : Grows [conversion.op] [] p p₁)
    (hfresh : p.region? r = none)
    (ho₁ : p₁.op? conversion.op = some { node with form := .nested (node.regions ++ [r]) })
    (hp₂ : p₂.Consistent) (hg₁₂ : Grows [] [r] p₁ p₂) (hlast : p₂.terminator? r = some last)
    (hq : q = p₂.modifyOp last fun node ↦ { node with kind := yieldKind }) :
    q.Consistent ∧ Grows [conversion.op] [] p q ∧ p.op? last = none ∧
      q.op? conversion.op = some { node with form := .nested (node.regions ++ [r]) } := by
  subst hq
  have hg₂ : Grows [conversion.op] [] p p₂ := hg₁.trans hg₁₂ (by simp) fun x hx ↦
    .inr (mem_singleton.mp hx ▸ hfresh)
  have ho₂ := hg₁₂.op? _ not_mem_nil _ ho₁
  have hdead : p.op? last = none := by
    refine op?_eq_none_of_new_region hp hfresh hp₂ (fun x hlive ↦ ?_)
      (mem_of_getLast? (terminator?_eq_some.mp hlast).1)
    by_cases hself : x = conversion.op
    · rw [hself, parentOf?_eq ho₂, parentOf?_eq ho]
    · exact parentOf?_congr (hg₂.op?_eq hlive (by simpa using hself))
  have hne : conversion.op ≠ last := by
    rintro rfl
    cases hdead.symm.trans ho
  refine ⟨hp₂.modifyOp last {}, hg₂.trans (.modifyOp _ _ _) (fun x hx ↦ ?_) (by simp), hdead, ?_⟩
  · exact .inr (mem_singleton.mp hx ▸ hdead)
  · rw [op?_modifyOp, if_neg hne, ho₂]

lemma inlineCallee_ok (hfunc : p.func? name = some func)
    (hbody : Inlinable conversion.op (conversion.flavor.handed operands).length p func.body)
    (hoperands : ∀ v ∈ operands, v.index < p.values.length)
    (hok : (inlineCallee conversion operands name).exec p = (.ok ⟨⟩, q)) :
    q.Consistent ∧ Grows [conversion.op] [] p q ∧ ∃ r,
      q.op? conversion.op = some { node with form := .nested (node.regions ++ [r]) } ∧
      Embodies conversion.flavor conversion.op operands p.values.length q func.body r := by
  obtain ⟨r, inputs, p₁, table, p₂, last, hopen, hcopy, hlast, hq⟩ :=
    inlineCallee_steps hp ho hfunc hbody.region hok
  obtain ⟨hp₁, hg₁, hfresh, ho₁, hops₁, hcount, hinputs⟩ := openRegion_ok hp ho hopen
  have hbody₁ := hbody.grows hp hg₁
  rw [← hcount] at hbody₁
  obtain ⟨hp₂, hg₁₂, hargs₂, f, hnames, hcopied⟩ :=
    copyBody_ok hp₁ (hg₁.roots ▸ body_mem_roots hfunc)
    (by rw [regionsOf_eq ho₁]; simp [Operation.regions]) hops₁ hbody₁
    (inputs_lt hp₁ hoperands hg₁.values hinputs) hcopy
  obtain ⟨hconsistent, hgrows, -, ho₃⟩ := inlineCallee_done hp ho hg₁ hfresh ho₁ hp₂ hg₁₂ hlast hq
  subst hq
  have hbody₂ : p₂.region? func.body = p₁.region? func.body := by
    refine hg₁₂.region?_eq hbody₁.region fun hmem ↦ ?_
    have hsome := hbody.region
    rw [mem_singleton.mp hmem, hfresh] at hsome
    cases hsome
  refine ⟨hconsistent, hgrows, r, ho₃, f, ?_, ?_⟩
  · change Copied _ _ _ (p₂.argsOf func.body) _ (p₂.opsIn func.body) (p₂.opsIn r)
    rw [argsOf_congr hbody₂, opsIn_congr hbody₂]
    exact (hcopied.grows hp₂ (.refl p₂) (by simp) (by simp) (Subset.refl _)
      hg₁.values).setKind (terminator?_eq_some.mp hlast).2 (.inr rfl)
  · change match conversion.flavor with
      | .branch => p₂.argsOf r = [] ∧ (p₂.argsOf func.body).map f = operands.drop 1
      | .loop =>
        p₂.argsOf r = (p₂.argsOf func.body).map f ∧ ∀ v ∈ p₂.argsOf r, p.values.length ≤ v.index
    rw [hargs₂, argsOf_congr hbody₂, hnames]
    revert hinputs
    cases conversion.flavor with
    | branch => exact id
    | loop =>
      intro hinputs
      exact ⟨hinputs.1, hinputs.1 ▸ hinputs.2⟩

end Callee

/-! ### The rest of a conversion -/

section Convert

variable {conversion : Conversion} {node : Operation} {q : Program} (hp : p.Consistent)
  (ho : p.op? conversion.op = some node)

include hp ho

lemma setForm_setKind_ok (hregions : node.regions = []) {kind : String}
    (hok : (setForm conversion.op .plain >>= fun _ ↦ setKind conversion.op kind).exec p =
      (.ok ⟨⟩, q)) : q.Consistent ∧ Grows [conversion.op] [] p q ∧
        q.op? conversion.op = some { node with form := .plain, kind } := by
  obtain ⟨_, p₁, hform, hkind⟩ := exec_bind_ok.mp hok
  have hp₁ := (keeps_setForm conversion.op .plain).of_ok hp hform
  obtain ⟨-, -, hplain⟩ := does_setForm.of_ok hform
  rw [regionsOf_eq ho, hregions, foldl_nil] at hplain
  subst hplain
  obtain ⟨-, rfl⟩ := does_updateOp.of_ok hkind
  refine ⟨hp₁.modifyOp conversion.op {},
    (Grows.modifyOp _ _ _).trans (.modifyOp _ _ _) (fun x hx ↦ .inl hx) (by simp), ?_⟩
  rw [op?_modifyOp, if_pos rfl, op?_modifyOp, if_pos rfl, ho]
  rfl

lemma setOperands_ok (hok : (setOperands conversion.op operands).exec p = (.ok ⟨⟩, q)) :
    q.Consistent ∧ Grows [conversion.op] [] p q ∧
    q.op? conversion.op = some { node with operands } := by
  have hq := (makes_setOperands conversion.op operands).keeps.of_ok hp hok
  obtain ⟨-, -, rfl⟩ := does_setOperands.of_ok hok
  refine ⟨hq, .withOperands _ _ _, ?_⟩
  have hsame : SameButUsers (p.modifyOp conversion.op fun node ↦ { node with operands })
    (p.withOperands conversion.op operands) :=
    (SameButUsers.dropUses conversion.op (p.operandsOf conversion.op) _).trans
      (.addUses _ operands _)
  rw [hsame.op?, op?_modifyOp, if_pos rfl, ho]
  rfl

end Convert

/-! ### All functions that an operation names -/

structure Reworks (o : OpId) (p q : Program) : Prop where
  before : p.Consistent
  after : q.Consistent
  grows : Grows [o] [] p q
  live : (q.op? o).isSome
  results : q.resultsOf o = p.resultsOf o

lemma Reworks.of_op? {node node' : Operation} (hp : p.Consistent) (hq : q.Consistent)
    (hg : Grows [o] [] p q) (ho : p.op? o = some node) (ho' : q.op? o = some node')
    (hresults : node'.results = node.results) : Reworks o p q :=
  ⟨hp, hq, hg, Option.isSome_of_eq_some ho', by rw [resultsOf_eq ho', resultsOf_eq ho, hresults]⟩

lemma Reworks.parentOf? (h : Reworks o p q) (ho : (p.op? o).isSome) :
    q.parentOf? o = p.parentOf? o := by
  obtain ⟨node, hnode⟩ := Option.isSome_iff_exists.mp ho
  have hlisted := h.before.mem_opsIn.mpr (parentOf?_eq hnode)
  have hsame := opsIn_congr (h.grows.region?_eq (isSome_region?_of_mem_opsIn hlisted) not_mem_nil)
  rw [parentOf?_eq hnode]
  exact h.after.mem_opsIn.mp (hsame ▸ hlisted)

/-- A way to tell what the regions of an operation are made from: `Ready` is asked of the bodies
that are copied, `Made` is what a body and its region have to do with each other. Both stay while
the operation gets further regions. -/
structure Inlines (conversion : Conversion) (operands : List ValueId)
    (Ready : Program → RegionId → Prop) (Made : Program → RegionId → RegionId → Prop) : Prop where
  region : ∀ {p body}, Ready p body → (p.region? body).isSome
  ready : ∀ {p q body}, Reworks conversion.op p q → Ready p body → Ready q body
  made : ∀ {p q body r}, Reworks conversion.op p q → (p.region? body).isSome →
    (p.region? r).isSome → Made p body r → Made q body r
  step : ∀ {p q node name func}, p.Consistent → p.op? conversion.op = some node →
    p.func? name = some func → Ready p func.body → (∀ v ∈ operands, v.index < p.values.length) →
    (inlineCallee conversion operands name).exec p = (.ok ⟨⟩, q) →
    q.Consistent ∧ Grows [conversion.op] [] p q ∧ ∃ r, q.op? conversion.op =
      some { node with form := .nested (node.regions ++ [r]) } ∧ Made q func.body r

section Callees

variable {conversion : Conversion} {q : Program} {node : Operation}
  {Ready : Program → RegionId → Prop} {Made : Program → RegionId → RegionId → Prop}
  (hinlines : Inlines conversion operands Ready Made) (hp : p.Consistent)
  (ho : p.op? conversion.op = some node)

include hinlines hp ho

lemma inlineCallees_ok {callees : List String}
    (hbodies : ∀ name ∈ callees, ∃ func, p.func? name = some func ∧ Ready p func.body)
    (hoperands : ∀ v ∈ operands, v.index < p.values.length)
    (hok : (callees.forM (inlineCallee conversion operands)).exec p = (.ok ⟨⟩, q)) :
    q.Consistent ∧ Grows [conversion.op] [] p q ∧ ∃ rs form, q.op? conversion.op = some
      { node with form } ∧ ({ node with form } : Operation).regions = node.regions ++ rs ∧
      rs.length = callees.length ∧ ∀ name r, (name, r) ∈ callees.zip rs →
      ∃ func, p.func? name = some func ∧ Made q func.body r := by
  induction callees generalizing p node with
  | nil =>
    obtain ⟨-, rfl⟩ := Prod.mk.inj hok
    exact ⟨hp, (Grows.refl p).weaken (nil_subset _) (Subset.refl _), [], node.form, ho,
      (append_nil _).symm, rfl, by simp⟩
  | cons name rest ih =>
    rw [exec_forM_cons, exec_bind_ok] at hok
    obtain ⟨_, p₁, hhead, htail⟩ := hok
    rw [forall_mem_cons] at hbodies
    obtain ⟨⟨func, hfunc, hbody⟩, hrest⟩ := hbodies
    obtain ⟨hp₁, hg₁, r, ho₁, hmade⟩ := hinlines.step hp ho hfunc hbody hoperands hhead
    have hfirst : Reworks conversion.op p p₁ := .of_op? hp hp₁ hg₁ ho ho₁ rfl
    obtain ⟨hq, hg₂, rs, form, ho₂, hregions, hlength, hall⟩ := ih hp₁ ho₁ (fun name hname ↦ by
        obtain ⟨func, hfunc, hbody⟩ := hrest name hname
        exact ⟨func, (hg₁.func? name).trans hfunc, hinlines.ready hfirst hbody⟩)
      (fun v hv ↦ Nat.lt_of_lt_of_le (hoperands v hv) hg₁.values) htail
    refine ⟨hq, hg₁.trans hg₂ (fun x hx ↦ .inl hx) (by simp), r :: rs, form, ho₂, ?_, ?_, ?_⟩
    · change ({ node with form } : Operation).regions = _ at hregions
      rw [hregions]
      simp [Operation.regions]
    · rw [length_cons, length_cons, hlength]
    · intro callee r' hmem
      rw [zip_cons_cons, mem_cons] at hmem
      rcases hmem with hhere | hmem
      · cases hhere
        refine ⟨func, hfunc, hinlines.made (.of_op? hp₁ hq hg₂ ho₁ ho₂ rfl)
          (hinlines.region (hinlines.ready hfirst hbody)) ?_ hmade⟩
        exact hp₁.isSome_region?_of_mem_regionsOf (o := conversion.op)
          (by rw [regionsOf_eq ho₁]; simp [Operation.regions])
      · obtain ⟨func', hfunc', hmade'⟩ := hall callee r' hmem
        exact ⟨func', (hg₁.func? callee).symm.trans hfunc', hmade'⟩

lemma convert_made (hregions : node.regions = []) (hsame : node.operands = operands)
    (hcallees : conversion.callees ≠ [])
    (hbodies : ∀ name ∈ conversion.callees, ∃ func, p.func? name = some func ∧ Ready p func.body)
    (hok : (convert conversion).exec p = (.ok ⟨⟩, q)) :
    q.Consistent ∧ Grows [conversion.op] [] p q ∧ ∃ rs, q.op? conversion.op = some { node with
        kind := conversion.regionKind
        form := .nested rs
        operands := conversion.flavor.kept node.operands } ∧
      rs.length = conversion.callees.length ∧
      ∀ name r, (name, r) ∈ conversion.callees.zip rs → ∃ func, p.func? name = some func ∧
        Made q func.body r := by
  subst hsame
  unfold convert at hok
  rw [bind_readOp ho, ← bind_assoc, exec_bind_ok] at hok
  obtain ⟨_, p₁, hform, hok⟩ := hok
  obtain ⟨hp₁, hg₁, ho₁⟩ := setForm_setKind_ok hp ho hregions hform
  obtain ⟨_, p₂, hinline, hok⟩ := exec_bind_ok.mp hok
  have hbodies₁ : ∀ name ∈ conversion.callees, ∃ func, p₁.func? name = some func ∧
      Ready p₁ func.body := by
    intro name hname
    obtain ⟨func, hfunc, hbody⟩ := hbodies name hname
    exact ⟨func, (hg₁.func? name).trans hfunc, hinlines.ready (.of_op? hp hp₁ hg₁ ho ho₁ rfl) hbody⟩
  obtain ⟨hp₂, hg₁₂, rs, form, ho₂, hrs, hlength, hall⟩ :=
    inlineCallees_ok hinlines hp₁ ho₁ hbodies₁
    (fun v hv ↦ Nat.lt_of_lt_of_le (hp.lt_of_mem_operandsOf (operandsOf_eq ho ▸ hv)) hg₁.values)
    hinline
  have hg₂ : Grows [conversion.op] [] p p₂ := hg₁.trans hg₁₂ (fun x hx ↦ .inl hx) (by simp)
  have hform : form = .nested rs := by
    have hsome : rs ≠ [] := fun hnil ↦ hcallees (length_eq_zero_iff.mp (by simp [← hlength, hnil]))
    cases form with
    | plain => exact absurd (by simpa [Operation.regions] using hrs) hsome
    | functional refs => exact absurd (by simpa [Operation.regions] using hrs) hsome
    | nested regions => simpa [Operation.regions] using hrs
  subst hform
  have hall₂ : ∀ name r, (name, r) ∈ conversion.callees.zip rs → ∃ func, p.func? name = some func ∧
      (p₂.region? func.body).isSome ∧ (p₂.region? r).isSome ∧ Made p₂ func.body r := by
    intro name r hmem
    obtain ⟨func, hfunc, hmade⟩ := hall name r hmem
    obtain ⟨func', hfunc', hbody⟩ := hbodies₁ name (of_mem_zip hmem).1
    obtain rfl := Option.some.inj (hfunc'.symm.trans hfunc)
    have hready := hinlines.ready (.of_op? hp₁ hp₂ hg₁₂ ho₁ ho₂ rfl) hbody
    refine ⟨func', (hg₁.func? name).symm.trans hfunc, hinlines.region hready, ?_, hmade⟩
    exact hp₂.isSome_region?_of_mem_regionsOf (o := conversion.op)
      (by rw [regionsOf_eq ho₂]; exact (of_mem_zip hmem).2)
  -- In both cases the operation ends up with the operands it is to keep, and no region changes.
  have hlast : q.Consistent ∧ Grows [conversion.op] [] p₂ q ∧ q.op? conversion.op = some { node with
      kind := conversion.regionKind
      form := .nested rs
      operands := conversion.flavor.kept node.operands } := by
    cases hflavor : conversion.flavor with
    | branch =>
      simp only [hflavor] at hok
      exact setOperands_ok hp₂ ho₂ hok
    | loop =>
      simp only [hflavor] at hok
      obtain ⟨-, rfl⟩ := Prod.mk.inj hok
      exact ⟨hp₂, (Grows.refl p₂).weaken (nil_subset _) (Subset.refl _), ho₂⟩
  obtain ⟨hq, hg₃, ho₃⟩ := hlast
  refine ⟨hq, hg₂.trans hg₃ (fun x hx ↦ .inl hx) (by simp), rs, ho₃, hlength, fun name r hmem ↦ ?_⟩
  obtain ⟨func, hfunc, hbody, hr, hmade⟩ := hall₂ name r hmem
  exact ⟨func, hfunc, hinlines.made (.of_op? hp₂ hq hg₃ ho₂ ho₃ rfl) hbody hr hmade⟩

end Callees

lemma exists_mem_zip {names : List String} {rs : List RegionId} (hlength : rs.length = names.length)
    (hr : r ∈ rs) : ∃ name, (name, r) ∈ names.zip rs := by
  obtain ⟨i, hi⟩ := mem_iff_getElem?.mp hr
  have hlt : i < names.length := hlength ▸ (List.getElem?_eq_some_iff.mp hi).1
  refine ⟨names[i], mem_iff_getElem?.mpr ⟨i, ?_⟩⟩
  rw [getElem?_zip_eq_some]
  exact ⟨getElem?_eq_getElem hlt, hi⟩

/-! ### Whole conversions -/

structure Converted (conversion : Conversion) (node : Operation) (p q : Program) : Prop where
  consistent : q.Consistent
  grows : Grows [conversion.op] [] p q
  regions : ∃ rs, q.op? conversion.op = some { node with
      kind := conversion.regionKind
      form := .nested rs
      operands := conversion.flavor.kept node.operands } ∧
    rs.length = conversion.callees.length ∧
    ∀ name r, (name, r) ∈ conversion.callees.zip rs → ∃ func, p.func? name = some func ∧
      Embodies conversion.flavor conversion.op node.operands p.values.length q func.body r

section Converted

variable {conversion : Conversion} {node : Operation} {q : Program}

lemma inlines_embodies (conversion : Conversion) (operands : List ValueId) (start : Nat) :
    Inlines conversion operands (fun p body ↦ start ≤ p.values.length ∧
        Inlinable conversion.op (conversion.flavor.handed operands).length p body)
      (Embodies conversion.flavor conversion.op operands start) where
  region h := h.2.region
  ready hreworks h :=
    ⟨Nat.le_trans h.1 hreworks.grows.values, h.2.grows hreworks.before hreworks.grows⟩
  made hreworks hbody hr h := h.grows hreworks.before hreworks.grows hbody hr (Nat.le_refl _)
  step {p q _ _ func} hp ho hfunc h hoperands hok := by
    obtain ⟨hq, hg, r, ho', hembodies⟩ := inlineCallee_ok hp ho hfunc h.2 hoperands hok
    refine ⟨hq, hg, r, ho', hembodies.grows hq ((Grows.refl q).weaken (nil_subset _)
      (Subset.refl _)) ((h.2.grows hp hg).region) ?_ h.1⟩
    exact hq.isSome_region?_of_mem_regionsOf (o := conversion.op)
      (by rw [regionsOf_eq ho']; simp [Operation.regions])

lemma convert_ok (hp : p.Consistent) (ho : p.op? conversion.op = some node)
    (hregions : node.regions = []) (hcallees : conversion.callees ≠ [])
    (hbodies : ∀ name ∈ conversion.callees, ∃ func, p.func? name = some func ∧
      Inlinable conversion.op (conversion.flavor.handed node.operands).length p func.body)
    (hok : (convert conversion).exec p = (.ok ⟨⟩, q)) : Converted conversion node p q := by
  obtain ⟨hq, hg, hrs⟩ := convert_made (inlines_embodies conversion node.operands p.values.length)
    hp ho hregions
    rfl hcallees (fun name hname ↦ by
      obtain ⟨func, hfunc, hbody⟩ := hbodies name hname
      exact ⟨func, hfunc, Nat.le_refl _, hbody⟩) hok
  exact ⟨hq, hg, hrs⟩

end Converted

end TensorGraph.RegionForm
