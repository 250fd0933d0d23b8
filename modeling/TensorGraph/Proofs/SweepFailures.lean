import TensorGraph.Proofs.CopiedCallees
import TensorGraph.Proofs.RegionForm

/-!
When the conversion of conditionals and loops fails. No conversion that has been planned fails, so a
run that fails does so at a plan. If it is the first plan, nothing has changed.
-/

namespace TensorGraph.RegionForm

open Program Edit Relation List Option

variable {p s : Program} {o : OpId} {node model : Operation} {args : Nat} {name : String}
    {conversion : Conversion} {flavor : Flavor} {conversions : List Conversion}

/-! ### Conversions that succeed -/

lemma Derived.yields (h : Derived p s) (ho : s.op? o = some node)
    (hend : node.isTerminator = true) :
    Derived p (s.modifyOp o fun node ↦ { node with kind := yieldKind }) := by
  refine h.grows_of_old (h.consistent.modifyOp o {})
    (.modifyOp s o _) (fun x hx node' hnode' ↦ ?_) (by simp) fun x hx ↦ ?_
  · obtain rfl := mem_singleton.mp hx
    cases ho.symm.trans hnode'
    refine ⟨{ node with kind := yieldKind }, by rw [op?_modifyOp, if_pos rfl, ho]; rfl,
      rfl, ?_, rfl, ?_⟩
    · rw [hend]
      rfl
    · unfold scheme?
      cases node.form with
      | functional refs => rfl
      | plain => rfl
      | nested regions => rfl
  · rw [op?_modifyOp]
    split_ifs
    · rw [hx]
      rfl
    · exact hx

section Inline

variable {operands : List ValueId} (h : Derived p s) (ho : s.op? conversion.op = some node)
  (hrefs : ∀ refs, node.form ≠ .functional refs)
  (hoperands : ∀ v ∈ operands, v.index < s.values.length)

include h ho hrefs hoperands

lemma succeeds_openRegion : Succeeds (openRegion conversion operands) s fun answer q ↦
    Opened p conversion.op answer.1 q ∧ ∀ v ∈ answer.2, v.index < q.values.length := by
  unfold openRegion
  cases conversion.flavor with
  | branch =>
    refine .bind_of_ok (addRegion_exec ho hrefs _) (.of_ok rfl ⟨h.withRegion ho _, fun v hv ↦ ?_⟩)
    exact hoperands v (mem_of_mem_drop hv)
  | loop =>
    refine .bind_of_ok (addRegion_exec ho hrefs _) ?_
    have hopened := h.withRegion ho .repeated
    have hfresh := region?_withRegion s conversion.op .repeated
    refine ((succeeds_carryValues (isSome_of_eq_some hfresh) hoperands).and fun new q hok ↦
      And.intro (carryValues_ok hfresh hok)
      ((keeps_carryValues_opened p _ _ _).of_ok hopened hok)).bind ?_
    rintro new q ⟨-, ⟨-, hfilled, -⟩, hopened'⟩
    have hargs : q.argsOf s.nextRegion = new := argsOf_eq hfilled
    exact .of_ok rfl
      ⟨hopened', fun v hv ↦ hopened'.derived.consistent.lt_of_mem_argsOf (hargs ▸ hv)⟩

lemma succeeds_inlineCallee (hp : p.Consistent) {func : Func} (hfunc : p.func? name = some func)
    (hend : (p.terminator? func.body).isSome) (hbeneath : Beneath p s name conversion.op)
    (hout : ∀ a, ¬ AncestorIn s func.body conversion.op a) :
    Succeeds (inlineCallee conversion operands name) s fun _ q ↦ Derived p q ∧
      Grows [conversion.op] [] s q ∧
      ∃ regions, q.op? conversion.op = some { node with form := .nested regions } := by
  have hs := h.consistent
  have hmem := mem_of_find?_eq_some hfunc
  obtain rfl : func.name = name := by simpa using find?_some hfunc
  obtain ⟨last, hlast⟩ := isSome_iff_exists.mp hend
  have hroot := mem_roots_of_mem_funcs hmem
  obtain ⟨body, hbody⟩ :=
    isSome_iff_exists.mp ((AttachedAt.root (h.roots ▸ hroot)).isSome_region? hs)
  unfold inlineCallee
  refine .get_bind ?_
  rw [h.func?, hfunc]
  dsimp only
  refine .read_bind (region_eq_ok.mpr hbody)
    (((succeeds_openRegion h ho hrefs hoperands).and fun _ _ hok ↦ openRegion_ok hs ho hok).bind ?_)
  rintro ⟨r, inputs⟩ s₁ ⟨⟨hopened, hinputs⟩, hs₁, hg₁, hfresh, ho₁, -, -, -⟩
  dsimp only at hopened hinputs ⊢
  have hlive := isSome_of_eq_some ho
  have hstays : StaysPut s s₁ := .of_busy hg₁ ho ho₁ rfl
  have hbody₁ : s₁.argsOf func.body = body.args := argsOf_eq (hg₁.region? _ not_mem_nil _ hbody)
  have hout₁ : ∀ a, ¬ AncestorIn s₁ func.body conversion.op a := fun a hanc ↦
    hout a ((hstays.ancestorIn_iff hs hlive).mp hanc)
  rw [← hbody₁]
  refine (succeeds_copyBody hmem hopened.derived hopened.region (hbeneath.staysPut hstays hs hlive)
    hout₁ hinputs).bind ?_
  rintro _ s₂ ⟨hderived, hgrows, hends⟩
  refine .get_bind ?_
  -- The last operation of the body is a terminator, and so is its copy.
  have hlast₁ : s₁.terminator? func.body = some last :=
    (hopened.derived.terminator? hp hmem).trans hlast
  obtain ⟨hgetLast, hisEnd⟩ := terminator?_eq_some.mp hlast₁
  obtain ⟨copy, hcopy, hcopyEnd⟩ := hends last hgetLast
  rw [hisEnd] at hcopyEnd
  have hends₂ : s₂.terminator? r = some copy := terminator?_eq_some.mpr ⟨hcopy, hcopyEnd⟩
  rw [hends₂]
  dsimp only
  have hs₂ := hderived.consistent
  obtain ⟨made, hmade, hparent⟩ := exists_op_of_parentOf? (hs₂.mem_opsIn.mp (mem_of_getLast? hcopy))
  have hterminator : made.isTerminator = true := by simpa [isEnd, hmade] using hcopyEnd
  obtain ⟨-, hg₂, -, ho₂⟩ := inlineCallee_done hs ho hg₁ hfresh ho₁ hs₂ hgrows hends₂ rfl
  rw [setKind]
  exact .of_ok (updateOp_exec (isSome_of_eq_some hmade) _)
    ⟨hderived.yields hmade hterminator, hg₂, _, ho₂⟩

end Inline

/-- What a plan for the operation has made sure of. -/
structure Ready (p s : Program) (conversion : Conversion) : Prop where
  op : ∃ node scheme, s.op? conversion.op = some node ∧ scheme? node = some scheme ∧
    conversion.regionKind = scheme.regionKind ∧ conversion.callees = calleesOf node
  callees : ∀ name ∈ conversion.callees, ∃ func, p.func? name = some func ∧
    ∀ a, ¬ AncestorIn s func.body conversion.op a

/-- What is left when some functions have been copied into regions of the operation, with those that
remain. -/
structure Inlined (p s : Program) (conversion : Conversion) (node : Operation) (rest : List String)
    (q : Program) : Prop where
  derived : Derived p q
  grows : Grows [conversion.op] [] s q
  made : ∃ form, q.op? conversion.op = some { node with form } ∧ ∀ refs, form ≠ .functional refs
  rest : rest ⊆ conversion.callees

lemma isTerminator_of_scheme? {scheme : Scheme} (h : scheme? node = some scheme) :
    node.regions = [] ∧ node.isTerminator = false ∧ ∀ node' :
    Operation, node'.kind = scheme.regionKind → node'.isTerminator = false := by
  unfold scheme? at h
  cases hform : node.form with
  | plain => simp [hform] at h
  | nested regions => simp [hform] at h
  | functional refs =>
    simp only [hform] at h
    unfold schemeOf at h
    refine ⟨by rw [Operation.regions, hform], ?_, fun node' hkind ↦ ?_⟩
    · unfold Operation.isTerminator
      split_ifs at h with hkind hkind hkind
      all_goals rcases hkind with hkind | hkind <;> simp [hkind, returnKind, yieldKind]
    · unfold Operation.isTerminator
      rw [hkind]
      split_ifs at h
      all_goals
        cases h
        rfl

lemma succeeds_convert (h : Derived p s) (hp : p.Consistent)
    (hends : ∀ func ∈ p.funcs, (p.terminator? func.body).isSome) (hready : Ready p s conversion) :
    Succeeds (convert conversion) s fun _ q ↦ Derived p q ∧ Grows [conversion.op] [] s q ∧
    StaysPut s q := by
  have hs := h.consistent
  obtain ⟨node, scheme, ho, hscheme, hkind, hcallees⟩ := hready.op
  obtain ⟨hregions, hends₀, hends₁⟩ := isTerminator_of_scheme? hscheme
  have hlive := isSome_of_eq_some ho
  have hoperands : ∀ v ∈ node.operands, v.index < s.values.length := fun v hv ↦
    hs.lt_of_mem_operandsOf (operandsOf_eq ho ▸ hv)
  have hsettles : ∀ node' : Operation, node'.parent = node.parent →
      node'.kind = conversion.regionKind → node'.control = node.control →
      (∀ refs, node'.form ≠ .functional refs) → Settles node node' :=
    fun node' hparent hkind' hcontrol hform ↦
      ⟨hparent, by rw [hends₀, hends₁ node' (hkind'.trans hkind)], hcontrol, scheme?_eq_none hform⟩
  have hbeneath : ∀ name ∈ conversion.callees, Beneath p s name conversion.op :=
    fun name hname func hfunc a hanc ↦ h.callees func hfunc conversion.op a node hanc ho name
    (hcallees ▸ hname)
  unfold convert
  refine .read_bind (op_eq_ok.mpr ho) ?_
  rw [← LawfulMonad.bind_assoc]
  have hfirst := setForm_setKind_exec ho hregions conversion.regionKind
  refine .bind_of_ok hfirst ?_
  obtain ⟨hs₁, hg₁, ho₁⟩ := setForm_setKind_ok hs ho hregions hfirst
  have hold : ∀ x, s.op? x = none →
      ((s.modifyOp conversion.op fun node ↦ { node with form := .plain }).modifyOp conversion.op
      fun node ↦ { node with kind := conversion.regionKind }).op? x = none := by
    intro x hx
    have hne : x ≠ conversion.op := by
      rintro rfl
      cases hx.symm.trans ho
    rw [op?_modifyOp, if_neg hne, op?_modifyOp, if_neg hne, hx]
  generalize (s.modifyOp conversion.op fun node ↦ { node with form := .plain }).modifyOp
    conversion.op _ = s₁ at *
  have hderived : Derived p s₁ := by
    refine h.grows_of_old hs₁ hg₁ (fun x hx node' hnode' ↦ ?_) (by simp) hold
    obtain rfl := mem_singleton.mp hx
    cases ho.symm.trans hnode'
    exact ⟨_, ho₁, hsettles _ rfl rfl rfl (by simp)⟩
  have hstart : Inlined p s conversion { node with form := .plain, kind := conversion.regionKind }
      conversion.callees s₁ := ⟨hderived, hg₁, ⟨.plain, ho₁, by simp⟩, Subset.refl _⟩
  refine (Succeeds.forM (R := Inlined p s conversion _) ?_ hstart).bind ?_
  · intro name rest q hq
    obtain ⟨form, hop, hform⟩ := hq.made
    have hname := hq.rest mem_cons_self
    obtain ⟨func, hfunc, hout⟩ := hready.callees name hname
    have hstays : StaysPut s q := .of_busy hq.grows ho hop rfl
    refine (succeeds_inlineCallee hq.derived hop hform
      (fun v hv ↦ Nat.lt_of_lt_of_le (hoperands v hv) hq.grows.values) hp hfunc
      (hends func (mem_of_find?_eq_some hfunc)) ((hbeneath name hname).staysPut hstays hs hlive)
      fun a hanc ↦ hout a ((hstays.ancestorIn_iff hs hlive).mp hanc)).imp ?_
    rintro _ q' ⟨hderived', hgrows', regions, hop'⟩
    exact ⟨hderived', hq.grows.trans hgrows' (fun _ hx ↦ .inl hx) (by simp), ⟨_, hop', by simp⟩,
      fun x hx ↦ hq.rest (mem_cons_of_mem _ hx)⟩
  · rintro _ q ⟨hderived', hgrows', ⟨form, hop, hform⟩, -⟩
    cases conversion.flavor with
    | loop => exact .of_ok rfl ⟨hderived', hgrows', .of_busy hgrows' ho hop rfl⟩
    | branch =>
      have hkept : ∀ v ∈ node.operands.take 1, v.index < q.values.length := fun v hv ↦
        Nat.lt_of_lt_of_le (hoperands v (mem_of_mem_take hv)) hgrows'.values
      have hlast := setOperands_exec (isSome_of_eq_some hop) hkept
      obtain ⟨hq', hg', hop'⟩ := setOperands_ok hderived'.consistent hop hlast
      have hgrows := hgrows'.trans hg' (fun _ hx ↦ .inl hx) (by simp)
      refine .of_ok hlast ⟨hderived'.grows_of_old hq' hg' (fun x hx node' hnode' ↦ ?_) (by simp)
        fun x hx ↦ ?_, hgrows, .of_busy hgrows ho hop' rfl⟩
      · obtain rfl := mem_singleton.mp hx
        cases hop.symm.trans hnode'
        exact ⟨_, hop', rfl, rfl, rfl, scheme?_eq_none hform⟩
      · rw [op?_withOperands, op?_modifyOp]
        split_ifs
        · rw [hx]
          rfl
        · exact hx

/-! ### Plans that fail -/

def MeetsCycle (p : Program) (err : Error) : Prop :=
  ∃ kind label name, err = .unsupportedForm (.conversion kind label (.recursive name)) ∧
    TransGen (Names p) name name

section Plan

variable (h : Derived p s) (hp : p.Consistent)

include h hp

lemma failsOnly_checkCallee {results : Nat} (hnode : s.op? o = some node)
    (hname : name ∈ calleesOf node) (hok : checkCallee p model args results name = .ok ()) :
    FailsOnly (MeetsCycle p) (checkCallee s node args results name) := by
  unfold checkCallee at hok ⊢
  rw [h.func?]
  cases hfunc : p.func? name with
  | none =>
    rw [hfunc] at hok
    cases hok
  | some func =>
    have hmem := mem_of_find?_eq_some hfunc
    simp only [hfunc] at hok ⊢
    by_cases hwithin : s.isWithin node.parent func.body = true
    · rw [if_pos hwithin]
      rintro err herr
      obtain rfl := Except.error.inj herr
      obtain ⟨a, hanc⟩ := exists_ancestorIn_of_isWithin (parentOf?_eq hnode) hwithin
      have hself : func.name = name := by simpa using find?_some hfunc
      exact ⟨_, _, name, rfl, hself ▸ h.callees func hmem o a node hanc hnode name hname⟩
    · have hregion : s.region func.body = p.region func.body := by
        rw [region, h.bodies func hmem, region]
      rw [if_neg hwithin, h.terminator? hp hmem, hregion]
      by_cases hwithin' : p.isWithin model.parent func.body = true
      · rw [if_pos hwithin'] at hok
        cases hok
      · rw [if_neg hwithin'] at hok
        by_cases hend : (p.terminator? func.body).isNone = true
        · rw [if_pos hend] at hok
          cases hok
        · rw [if_neg hend] at hok ⊢
          obtain ⟨body, hbody, hok⟩ := check_bind_eq_ok.mp hok
          refine .of_ok (a := ()) (check_bind_eq_ok.mpr ⟨body, hbody, ?_⟩)
          by_cases hargs : body.args.length ≠ args
          · rw [if_pos hargs] at hok
            cases hok
          · rw [if_neg hargs] at hok ⊢
            by_cases hresults : func.resultTypes.length ≠ results
            · rw [if_pos hresults] at hok
              cases hok
            · rw [if_neg hresults]
              rfl

lemma failsOnly_calleesIn {role : String} {names : List String} (hnode : s.op? o = some node)
    (halike : Alike model node)
    (hrole : ∀ name ∈ (node.funcRefs.filter (·.role == role)).map (·.func), name ∈ calleesOf node)
    (hok : calleesIn p model flavor args role = .ok names) :
    FailsOnly (MeetsCycle p) (calleesIn s node flavor args role) := by
  have hresults : expectedResults node flavor role = expectedResults model flavor role := by
    unfold expectedResults
    rw [halike.operands, halike.results]
  unfold calleesIn at hok ⊢
  rw [← halike.funcRefs_eq] at hok
  by_cases hempty : ((node.funcRefs.filter (·.role == role)).map (·.func)).isEmpty = true
  · simp only [hempty, if_true] at hok
    cases hok
  · simp only [hempty] at hok ⊢
    obtain ⟨_, hchecks, -⟩ := check_bind_eq_ok.mp hok
    refine .bind (.forM fun name hname ↦ ?_) fun _ _ ↦ .of_ok rfl
    rw [hresults]
    exact failsOnly_checkCallee h hp hnode (hrole name hname)
      (check_forM_eq_ok.mp hchecks name hname)

omit h hp in
lemma expectedArgs_congr (halike : Alike model node) (hok : expectedArgs model flavor = .ok args) :
    expectedArgs node flavor = .ok args := by
  cases flavor with
  | branch =>
    have hempty : node.operands.isEmpty = model.operands.isEmpty := by
      rw [Bool.eq_iff_iff, isEmpty_iff_length_eq_zero, isEmpty_iff_length_eq_zero, halike.operands]
    rw [expectedArgs] at hok ⊢
    rw [hempty, halike.operands]
    split_ifs at hok ⊢
    · cases hok
    · exact hok
  | loop =>
    rw [expectedArgs] at hok ⊢
    rw [halike.operands, halike.results]
    split_ifs at hok ⊢
    · exact hok
    · cases hok

omit h hp in
lemma conversionOf_eq (hnode : p.op? o = some node) : conversionOf p o = match scheme? node with
      | some scheme => do
        let args ← expectedArgs node scheme.flavor
        let callees ← scheme.roles.mapM (calleesIn p node scheme.flavor args)
        return some ⟨o, scheme.regionKind, scheme.flavor, callees.flatten⟩
      | none => .ok none := by
  unfold conversionOf scheme?
  rw [op_eq_ok.mpr hnode]
  dsimp only [bind, Except.bind]
  cases node.form with
  | plain => rfl
  | nested regions => rfl
  | functional refs =>
    cases schemeOf node.kind with
    | none => rfl
    | some scheme => rfl

lemma failsOnly_plan (hplan : plan p = .ok conversions) : FailsOnly (MeetsCycle p) (plan s) := by
  obtain ⟨found, hfound, -⟩ := check_bind_eq_ok.mp hplan
  refine .bind (.mapM fun o ho ↦ ?_) fun _ _ ↦ .of_ok rfl
  obtain ⟨node, hnode⟩ := isSome_iff_exists.mp (h.consistent.isSome_of_mem_allOps ho)
  rw [conversionOf_eq hnode]
  cases hscheme : scheme? node with
  | none => exact .of_ok rfl
  | some scheme =>
    obtain ⟨x, hx, model, hmodel, halike⟩ := h.models o ho node hnode (isSome_of_eq_some hscheme)
    -- The operation it looks like has been accepted.
    obtain ⟨answer, haccepted⟩ := exists_ok_of_mem hfound hx
    rw [conversionOf_eq hmodel, ← halike.scheme?_eq, hscheme] at haccepted
    obtain ⟨args, hargs, haccepted⟩ := check_bind_eq_ok.mp haccepted
    obtain ⟨callees, hcallees, -⟩ := check_bind_eq_ok.mp haccepted
    refine .bind (.of_ok (expectedArgs_congr halike hargs)) fun args' hargs' ↦ ?_
    cases (expectedArgs_congr halike hargs).symm.trans hargs'
    refine .bind (.mapM fun role hrole ↦ ?_) fun _ _ ↦ .of_ok rfl
    obtain ⟨names, hnames⟩ := exists_ok_of_mem hcallees hrole
    refine failsOnly_calleesIn h hp hnode halike (fun name hname ↦ ?_) hnames
    rw [calleesOf, hscheme]
    exact mem_flatMap.mpr ⟨role, hrole, hname⟩

omit hp in
lemma ready_of_plan (hplan : plan s = .ok conversions) :
    ∀ conversion ∈ conversions, Ready p s conversion := by
  intro conversion hmem
  obtain ⟨found, hfound, hdone⟩ := check_bind_eq_ok.mp hplan
  cases hdone
  obtain ⟨_, hmem, rfl⟩ := mem_filterMap.mp hmem
  obtain ⟨o, ho, hok⟩ := exists_of_mem_mapM hfound hmem
  obtain ⟨node, hnode⟩ := isSome_iff_exists.mp (h.consistent.isSome_of_mem_allOps ho)
  rw [conversionOf_eq hnode] at hok
  cases hscheme : scheme? node with
  | none =>
    rw [hscheme] at hok
    cases hok
  | some scheme =>
    rw [hscheme] at hok
    obtain ⟨args, -, hok⟩ := check_bind_eq_ok.mp hok
    obtain ⟨callees, hcallees, hok⟩ := check_bind_eq_ok.mp hok
    cases hok
    have hnames : callees.flatten = calleesOf node := by
      rw [calleesOf, hscheme]
      refine congrArg List.flatten ?_
      rw [← forall₂_eq_eq_eq, forall₂_map_right_iff]
      exact ((check_mapM_eq_ok.mp hcallees).imp fun role names hok ↦ (calleesIn_eq_ok hok).1).flip
    refine ⟨⟨node, scheme, hnode, hscheme, rfl, hnames⟩, fun name hname ↦ ?_⟩
    obtain ⟨names, hin, hname⟩ := mem_flatten.mp hname
    obtain ⟨role, -, hrole⟩ := exists_of_mem_mapM hcallees hin
    obtain ⟨func, hfunc, hwithin, -⟩ := (calleesIn_eq_ok hrole).2.2 name hname
    exact ⟨func,
      (h.func? name).symm.trans hfunc, not_ancestorIn_of_isWithin h.consistent ho hnode hwithin⟩

end Plan

/-! ### Sweeps -/

structure Remaining (p : Program) (conversions : List Conversion) (s : Program) : Prop where
  derived : Derived p s
  ops : (conversions.map (·.op)).Nodup
  ready : ∀ conversion ∈ conversions, Ready p s conversion

section Sweep

variable (hp : p.Consistent) (hends : ∀ func ∈ p.funcs, (p.terminator? func.body).isSome)

include hp hends

lemma Remaining.step {rest : List Conversion} (h : Remaining p (conversion :: rest) s) :
    Succeeds (convert conversion) s fun _ q ↦ Remaining p rest q := by
  obtain ⟨hfirst, hothers⟩ := forall_mem_cons.mp h.ready
  obtain ⟨hself, hrest⟩ := nodup_cons.mp h.ops
  refine (succeeds_convert h.derived hp hends hfirst).imp ?_
  rintro _ q ⟨hderived, hgrows, hstays⟩
  refine ⟨hderived, hrest, fun other hmem ↦ ?_⟩
  obtain ⟨⟨node, scheme, hnode, hscheme⟩, hcallees⟩ := hothers other hmem
  have hne : other.op ≠ conversion.op := fun heq ↦ hself (mem_map.mpr ⟨other, hmem, heq⟩)
  refine ⟨⟨node, scheme, hgrows.op? _ (by simpa using hne) node hnode, hscheme⟩,
    fun name hname ↦ ?_⟩
  obtain ⟨func, hfunc, hout⟩ := hcallees name hname
  exact ⟨func, hfunc, fun a hanc ↦ hout a
    ((hstays.ancestorIn_iff h.derived.consistent (isSome_of_eq_some hnode)).mp hanc)⟩

lemma succeeds_converts (h : Remaining p conversions s) :
    Succeeds (conversions.forM convert) s fun _ q ↦ Derived p q :=
  (Succeeds.forM (R := Remaining p) (fun _ _ _ hq ↦ hq.step hp hends) h).imp fun _ _ hq ↦ hq.derived

lemma meetsCycle_of_sweep (hroots : p.roots.Nodup) (hplan : plan p = .ok conversions) {sweeps : Nat}
    {q : Program} (h : Derived p s) {err : Error} (hrun : (sweep sweeps).exec s = (.error err, q)) :
    MeetsCycle p err := by
  induction sweeps generalizing s with
  | zero => cases hrun
  | succ sweeps ih =>
    unfold sweep at hrun
    cases hnext : plan s with
    | error err' =>
      rw [exec_bind_of_error (by rw [exec_read, hnext])] at hrun
      obtain rfl := Except.error.inj (Prod.mk.inj hrun).1
      exact failsOnly_plan h hp hplan err' hnext
    | ok others =>
      rw [exec_bind_of_ok (by rw [exec_read, hnext])] at hrun
      by_cases hempty : others.isEmpty = true
      · rw [if_pos hempty] at hrun
        cases hrun
      · rw [if_neg hempty] at hrun
        obtain ⟨hops, -⟩ := plan_eq_ok h.consistent (h.roots ▸ hroots) hnext
        obtain ⟨_, m, hconverted, hm⟩ := succeeds_converts hp hends ⟨h, hops, ready_of_plan h hnext⟩
        rw [exec_bind_of_ok hconverted, exec_bind] at hrun
        rcases hrest : (sweep sweeps).exec m with ⟨err' | _, q'⟩
        · rw [hrest] at hrun
          obtain ⟨herr, -⟩ := Prod.mk.inj hrun
          obtain rfl := Except.error.inj herr
          exact ih hm (hrest.trans hrun)
        · rw [hrest] at hrun
          cases hrun

end Sweep

lemma isSome_terminator?_of_verify (hp : p.Consistent) (hverify : p.verify = .ok ()) :
    ∀ func ∈ p.funcs, (p.terminator? func.body).isSome := by
  intro func hfunc
  obtain ⟨last, hlast, -⟩ := (terminated_of_verify hp hverify).returns func hfunc
  exact isSome_of_eq_some hlast

/-- A run on a verified program that fails leaves the program as it was, or has refused an operation
that names a function where it lies, and the function leads to itself. -/
theorem unchanged_or_meetsCycle (registry : Registry) {p q : Program} (hp : Reachable p)
    (hverify : p.verify = .ok ()) {err : Error}
    (hrun : (pass.run registry).exec p = (.error err, q)) : q = p ∨
      ∃ kind label name, err = .unsupportedForm (.conversion kind label (.recursive name)) ∧
      TransGen (Names p) name name := by
  have hends := isSome_terminator?_of_verify hp.consistent hverify
  cases hplan : plan p with
  | error err' =>
    have hfirst : (sweep maxSweeps).exec p = (.error err', p) :=
      exec_bind_of_error (by rw [exec_read, hplan]) _
    exact .inl (Prod.mk.inj (hrun.symm.trans hfirst)).2
  | ok conversions =>
    exact .inr
      (meetsCycle_of_sweep hp.consistent hends hp.nodup_roots hplan (.refl hp hverify) hrun)

/-- A conditional that hands no arguments to a function that takes two. -/
theorem unchanged_wrongCount :
    let p : Program := .built [
      .addFunction "f" [.unknown, .unknown] [], .node 1 returnKind, .node 0 "source" [] 1,
      .append ⟨0⟩ { kind := "If", operands := [⟨2⟩], funcRefs :=
        [⟨"then_branch", "f"⟩, ⟨"else_branch", "f"⟩] }]
    let fault : Error := .unsupportedForm (.conversion "If" "<unnamed>" (.argumentCount "f" 2 0))
    Reachable p ∧ p.verify = .ok () ∧ (pass.run .empty).exec p = (.error fault, p) := by
  intro p fault
  have hp : Reachable p := reachable_built _
  have hverify : p.verify = .ok () := eq_ok_of_toOption (by decide +kernel)
  have hrun : (pass.run .empty).exec p = (.error fault, ((pass.run .empty).exec p).2) :=
    exec_eq_error (by decide +kernel)
  refine ⟨hp, hverify, hrun.trans (congrArg (Prod.mk _) ?_)⟩
  rcases unchanged_or_meetsCycle .empty hp hverify hrun with hsame | ⟨kind, label, name, hcycle, -⟩
  · exact hsame
  · cases (Error.unsupportedForm.inj hcycle)

/-- Two functions with a conditional each that names the other one. The first sweep copies each into
the other, and the second finds a conditional in each that names the function where it lies. -/
theorem changed_before_failure :
    let p : Program := .built [
      .addFunction "f" [.fixed .bool []] [], .addFunction "g" [.fixed .bool []] [],
      .append ⟨1⟩ { kind := "If", operands := [⟨0⟩, ⟨0⟩],
                    funcRefs := [⟨"then_branch", "g"⟩, ⟨"else_branch", "g"⟩] },
      .node 1 returnKind,
      .append ⟨2⟩ { kind := "If", operands := [⟨1⟩, ⟨1⟩],
                    funcRefs := [⟨"then_branch", "f"⟩, ⟨"else_branch", "f"⟩] },
      .node 2 returnKind]
    let q := ((pass.run .empty).exec p).2
    Reachable p ∧ p.verify = .ok () ∧ (pass.run .empty).exec p =
      (.error (.unsupportedForm (.conversion "If" "<unnamed>" (.recursive "f"))), q) ∧
      (p.op? ⟨0⟩).map (·.kind) = some "If" ∧ (q.op? ⟨0⟩).map (·.kind) = some "IfRegion" ∧
      p.regions.length = 3 ∧ q.regions.length = 11 ∧ q ≠ p := by
  intro p q
  have hregions : p.regions.length = 3 := by decide +kernel
  have hregions' : q.regions.length = 11 := by decide +kernel
  refine ⟨reachable_built _, eq_ok_of_toOption (by decide +kernel), exec_eq_error
    (by decide +kernel), by decide +kernel, by decide +kernel, hregions, hregions', fun hsame ↦ ?_⟩
  rw [hsame, hregions] at hregions'
  cases hregions'

end TensorGraph.RegionForm
