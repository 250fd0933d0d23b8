import TensorGraph.Proofs.Conversion

/-!
Conversions keep the meaning of a program. A region that holds a copy of a body gives what the
function gives, so the converted operation gives what it gave when it named functions.
-/

namespace TensorGraph

open List Option

variable {p : Program} {r : RegionId} {node : Operation} {avoid ops : List OpId}
    {scope operands : List ValueId} {depth rounds level : Nat} {v : ValueId}

variable {α : Type} {env : Env α} {inputs : List α} {I : Interpretation α} {run : Runner α}

/-! ### Known values -/

namespace Env

variable {next : Env α} {names : List ValueId} {values : List α}

lemma bind_nil (env : Env α) : env.bind [] [] = some env :=
  bind_eq_some.mpr ⟨rfl, by simp⟩

def Known (scope : List ValueId) (env : Env α) : Prop :=
  ∀ v ∈ scope, (env v).isSome

lemma Known.nil (env : Env α) : Known [] env := by simp [Known]

lemma Known.bind (h : Known scope env) (hnext : env.bind names values = some next) :
    Known (scope ++ names) next := by
  obtain ⟨hlength, hnext⟩ := bind_eq_some.mp hnext
  intro v hv
  rw [hnext]
  split_ifs with hmem
  · rw [getElem?_eq_getElem (hlength ▸ idxOf_lt_length_of_mem hmem)]
    rfl
  · exact h v ((mem_append.mp hv).resolve_right hmem)

lemma Known.mapM (h : Known scope env) (hscope : ∀ v ∈ operands, v ∈ scope) :
    ∃ inputs, operands.mapM env = some inputs := by
  induction operands with
  | nil => exact ⟨[], rfl⟩
  | cons v rest ih =>
    rw [forall_mem_cons] at hscope
    obtain ⟨a, ha⟩ := isSome_iff_exists.mp (h v hscope.1)
    obtain ⟨inputs, hinputs⟩ := ih hscope.2
    exact ⟨a :: inputs, by rw [mapM_cons, ha, hinputs]; rfl⟩

end Env

lemma mapM_cons_eq_some {rest : List ValueId} : (v :: rest).mapM env = some inputs ↔
    ∃ a tail, inputs = a :: tail ∧ env v = some a ∧ rest.mapM env = some tail := by
  rw [mapM_cons]
  simp only [bind_eq_bind, bind_eq_some_iff, Option.pure_def, some.injEq]
  constructor
  · rintro ⟨a, ha, tail, htail, rfl⟩
    exact ⟨a, tail, rfl, ha, htail⟩
  · rintro ⟨a, tail, rfl, ha, htail⟩
    exact ⟨a, ha, tail, htail, rfl⟩

lemma length_of_mapM (h : operands.mapM env = some inputs) : inputs.length = operands.length := by
  induction operands generalizing inputs with
  | nil =>
    cases h
    rfl
  | cons v rest ih =>
    obtain ⟨a, tail, rfl, -, htail⟩ := mapM_cons_eq_some.mp h
    rw [length_cons, length_cons, ih htail]

lemma getElem?_of_mapM (h : operands.mapM env = some inputs) {i : Nat}
    (hv : operands[i]? = some v) : env v = inputs[i]? := by
  induction operands generalizing inputs i with
  | nil => simp at hv
  | cons u rest ih =>
    obtain ⟨a, tail, rfl, ha, htail⟩ := mapM_cons_eq_some.mp h
    cases i with
    | zero =>
      cases hv
      exact ha
    | succ i => exact ih htail hv

lemma Interpretation.runParts_branch (I : Interpretation α) (kind : String)
    {parts parts' : List (Run α)} {handed handed' : List α}
    (hparts : parts'.map (· handed') = parts.map (· handed)) (selector : α) (rest rest' : List α) :
    I.runParts rounds (.branch kind) parts' handed' (selector :: rest') =
      I.runParts rounds (.branch kind) parts handed (selector :: rest) := by
  have hlength : parts'.length = parts.length := by
    simpa only [length_map] using congrArg List.length hparts
  have hpart : (parts'[I.select kind parts'.length selector]?).bind (· handed') =
      (parts[I.select kind parts.length selector]?).bind (· handed) := by
    have hat := congrArg (fun l : List (Option (List α)) ↦
      (l[I.select kind parts.length selector]?).bind id) hparts
    simpa [hlength, getElem?_map, bind_map, Function.comp_def] using hat
  exact hpart

namespace Program

lemma evalOp_congr {q : Program} {run' : Runner α}
    (houtcome : ∀ inputs, I.outcome rounds (fun r ↦ run' r env) (q.call run') node inputs =
      I.outcome rounds (fun r ↦ run r env) (p.call run) node inputs) :
    q.evalOp I rounds run' node env = p.evalOp I rounds run node env := by
  unfold evalOp
  simp only [houtcome]

lemma known_of_evalOp {next : Env α} (h : Env.Known scope env)
    (hnext : p.evalOp I rounds run node env = some next) :
    Env.Known (scope ++ node.results) next := by
  unfold evalOp at hnext
  simp only [bind_eq_bind, bind_eq_some_iff] at hnext
  obtain ⟨inputs, -, outputs, -, hbind⟩ := hnext
  exact h.bind hbind

def ClosedRoots (p : Program) : Prop :=
  ∀ r ∈ p.roots, Closed p [] p.regions.length (p.argsOf r) (p.opsIn r)

end Program

namespace RegionForm

open Program

def Flavor.manner (kind : String) : Flavor → Manner
  | .branch => .branch kind
  | .loop => .loop

/-! ### Regions that hold bodies -/

section Body

variable {o : OpId} {start : Nat} {name : String} {func : Func} (hp : p.Consistent)
  (hfunc : p.func? name = some func)

include hp hfunc

lemma Embodies.branch_outputs (h : Embodies .branch o operands start p func.body r) (depth : Nat)
    (hinputs : operands.mapM env = some inputs) :
    p.outputsOf I depth r env [] = p.call (p.outputsOf I depth) name inputs.tail := by
  obtain ⟨f, hcopied, hargs, hnames⟩ := h
  rw [call, hfunc]
  cases depth with
  | zero => rfl
  | succ depth =>
    have hcount : (p.argsOf func.body).length = inputs.tail.length := by
      rw [length_tail, length_of_mapM hinputs]
      simpa using congrArg List.length hnames
    obtain ⟨inner, hinner⟩ := Env.empty.isSome_bind hcount
    simp only [outputsOf, evalRegion_succ]
    rw [hargs, env.bind_nil, hinner]
    refine hcopied.outputs I depth fun v hv ↦ ?_
    obtain ⟨i, hi⟩ := mem_iff_getElem?.mp hv
    have hlt : i < inputs.tail.length := hcount ▸ (List.getElem?_eq_some_iff.mp hi).1
    have hoperand : operands[i + 1]? = some (f v) := by
      rw [Nat.add_comm, ← getElem?_drop, ← hnames, getElem?_map, hi]
      rfl
    refine ⟨inputs.tail[i], ?_, ?_⟩
    · rw [Env.bind_of_getElem? hinner (hp.nodup_argsOf _) hi, getElem?_eq_getElem hlt]
    · rw [getElem?_of_mapM hinputs hoperand, ← getElem?_eq_getElem hlt, getElem?_tail]

lemma Embodies.loop_outputs (h : Embodies .loop o operands start p func.body r) (depth : Nat)
    (env : Env α) : p.outputsOf I depth r env = p.call (p.outputsOf I depth) name := by
  obtain ⟨f, hcopied, hnames, -⟩ := h
  funext args
  rw [call, hfunc]
  cases depth with
  | zero => rfl
  | succ depth =>
    have hlength : (p.argsOf r).length = (p.argsOf func.body).length := by
      rw [hnames, length_map]
    simp only [outputsOf, evalRegion_succ]
    by_cases hcount : (p.argsOf func.body).length = args.length
    · obtain ⟨inner, hinner⟩ := Env.empty.isSome_bind hcount
      obtain ⟨inner', hinner'⟩ := env.isSome_bind (hlength.trans hcount)
      rw [hinner, hinner']
      refine hcopied.outputs I depth ?_
      have hnodup := hp.nodup_argsOf r
      rw [hnames] at hinner' hnodup
      exact (Env.Matches.empty f Env.empty env).bind (by simp) hnodup (by simp) hinner hinner'
    · rw [Env.empty.bind_eq_none hcount, env.bind_eq_none (hlength ▸ hcount)]
      rfl

end Body

/-! ### Converted programs -/

/-- An operation that names functions which do not hold it and which take what it hands to them. -/
structure Convertible (conversion : Conversion) (node : Operation) (p : Program) : Prop where
  live : p.op? conversion.op = some node
  regions : node.regions = []
  calls : node.calls = some (conversion.flavor.manner conversion.regionKind, conversion.callees)
  kind : regionManner conversion.regionKind = some (conversion.flavor.manner conversion.regionKind)
  callees : conversion.callees ≠ []
  selector : conversion.flavor = .branch → node.operands ≠ []
  bodies : ∀ name ∈ conversion.callees, ∃ func, p.func? name = some func ∧
    (p.argsOf func.body).length = (conversion.flavor.handed node.operands).length ∧
    ∀ a, ¬ AncestorIn p func.body conversion.op a

lemma not_isTerminator_of_regionManner {manner : Manner}
    (h : regionManner node.kind = some manner) : node.isTerminator = false := by
  unfold regionManner at h
  unfold Operation.isTerminator
  split_ifs at h with hbranch hloop
  · rcases hbranch with hkind | hkind <;> simp [hkind, returnKind, yieldKind]
  · simp [hloop, returnKind, yieldKind]

lemma not_isTerminator_of_calls {calls : Manner × List String}
    (h : node.calls = some calls) : node.isTerminator = false := by
  unfold Operation.calls functionalManner at h
  unfold Operation.isTerminator
  split_ifs at h with _ hkind hkind hkind
  · rcases hkind with hkind | hkind <;> simp [hkind, returnKind, yieldKind]
  · rcases hkind with hkind | hkind <;> simp [hkind, returnKind, yieldKind]
  · rcases hkind with hkind | hkind <;> simp [hkind, returnKind, yieldKind]
  · cases h

lemma Convertible.inlinable {conversion : Conversion} (h : Convertible conversion node p)
    (hp : p.Consistent) (hroots : ClosedRoots p) :
    ∀ name ∈ conversion.callees, ∃ func, p.func? name = some func ∧
    Inlinable conversion.op (conversion.flavor.handed node.operands).length p func.body := by
  intro name hname
  obtain ⟨func, hfunc, hcount, houtside⟩ := h.bodies name hname
  have hroot := body_mem_roots hfunc
  refine ⟨func, hfunc, (AttachedAt.root hroot).isSome_region? hp, hcount, ?_⟩
  have hextra : ∀ t ∈ [conversion.op], ∀ a, ¬ AncestorIn p func.body t a := by simpa using houtside
  exact (hroots _ hroot).avoiding hp (Subset.refl _) hextra

section Converted

variable {conversion : Conversion} {q : Program} (hc : Converted conversion node p q)
  (h : Convertible conversion node p)

include hc h

lemma Converted.evalOp_self (hcall : q.call (q.outputsOf I depth) = p.call (p.outputsOf I depth))
    (hoperands : ∀ v ∈ node.operands, v ∈ scope) (hknown : Env.Known scope env) {node' : Operation}
    (hnode' : q.op? conversion.op = some node') :
    q.evalOp I depth (q.outputsOf I depth) node' env = p.evalOp I depth
    (p.outputsOf I depth) node env := by
  obtain ⟨rs, hop, hlength, hembodies⟩ := hc.regions
  cases hop.symm.trans hnode'
  obtain ⟨inputs, hinputs⟩ := hknown.mapM hoperands
  have hrs : rs ≠ [] := fun hnil ↦ h.callees (length_eq_zero_iff.mp (by simp [← hlength, hnil]))
  obtain ⟨first, others, rfl⟩ := exists_cons_of_ne_nil hrs
  have hpairs : ∀ name r, (name, r) ∈ conversion.callees.zip (first :: others) →
      ∃ func, q.func? name = some func ∧
      Embodies conversion.flavor conversion.op node.operands p.values.length q func.body r := by
    intro name r hmem
    obtain ⟨func, hfunc, hr⟩ := hembodies name r hmem
    exact ⟨func, (hc.grows.func? name).trans hfunc, hr⟩
  have hfunctional : ∀ inputs : List α, I.outcome depth (fun r ↦ p.outputsOf I depth r env)
      (p.call (p.outputsOf I depth)) node inputs = I.runParts depth
      (conversion.flavor.manner conversion.regionKind)
      (conversion.callees.map (q.call (q.outputsOf I depth))) inputs.tail inputs := by
    intro inputs
    rw [hcall, Interpretation.outcome, h.regions, h.calls]
  have hnested : ∀ inputs : List α, I.outcome depth (fun r ↦ q.outputsOf I depth r env)
      (q.call (q.outputsOf I depth)) { node with
        kind := conversion.regionKind
        form := .nested (first :: others)
        operands := conversion.flavor.kept node.operands } inputs =
        I.runParts depth (conversion.flavor.manner conversion.regionKind)
          ((first :: others).map fun r ↦ q.outputsOf I depth r env) [] inputs := by
    intro inputs
    rw [Interpretation.outcome]
    simp only [Operation.regions, h.kind]
  unfold evalOp
  simp only [hfunctional, hnested, hinputs, bind_eq_bind, bind_some]
  cases hflavor : conversion.flavor with
  | branch =>
    simp only [hflavor] at hpairs
    obtain ⟨selector, handed, hcons⟩ := exists_cons_of_ne_nil (h.selector hflavor)
    rw [hcons] at hinputs
    obtain ⟨a, tail, rfl, ha, htail⟩ := mapM_cons_eq_some.mp hinputs
    have hkept : (Flavor.kept .branch node.operands).mapM env = some [a] := by
      rw [hcons]
      exact mapM_cons_eq_some.mpr ⟨a, [], rfl, ha, rfl⟩
    rw [hkept, bind_some]
    refine congrArg (Option.bind · _) (I.runParts_branch _ ?_ a tail [])
    rw [List.map_map, List.map_map, ← List.forall₂_eq_eq_eq, List.forall₂_map_left_iff,
      List.forall₂_map_right_iff]
    refine (forall₂_iff_zip.mpr ⟨hlength.symm, fun {name r} hmem ↦ ?_⟩).flip
    obtain ⟨func, hfunc, hr⟩ := hpairs name r hmem
    exact hr.branch_outputs hc.consistent hfunc depth
      (hcons ▸ mapM_cons_eq_some.mpr ⟨a, tail, rfl, ha, htail⟩)
  | loop =>
    simp only [hflavor] at hpairs
    have hkept : (Flavor.kept .loop node.operands).mapM env = some inputs := hinputs
    have hparts : (first :: others).map (fun r ↦ q.outputsOf I depth r env) =
        conversion.callees.map (q.call (q.outputsOf I depth)) := by
      rw [← forall₂_eq_eq_eq, forall₂_map_left_iff, forall₂_map_right_iff]
      refine (forall₂_iff_zip.mpr ⟨hlength.symm, fun {name r} hmem ↦ ?_⟩).flip
      obtain ⟨func, hfunc, hr⟩ := hpairs name r hmem
      exact hr.loop_outputs hc.consistent hfunc depth env
    rw [hkept, bind_some, hparts]
    rfl

def RunsAlike (I : Interpretation α) (depth : Nat) (p q : Program) : Prop :=
  ∀ {r : RegionId} {avoid : List OpId} {level : Nat} {scope : List ValueId} {env : Env α},
    (p.region? r).isSome → Closed p avoid level (scope ++ p.argsOf r) (p.opsIn r) →
    Env.Known scope env → ∀ args, q.evalRegion I depth r env args = p.evalRegion I depth r env args

variable (hp : p.Consistent) (hroots : ClosedRoots p)

include hp hroots

omit h in
lemma Converted.call_eq (hdepth : RunsAlike I depth p q) :
    q.call (q.outputsOf I depth) = p.call (p.outputsOf I depth) := by
  funext name args
  rw [call, hc.grows.func?, call]
  cases hfunc : p.func? name with
  | none => rfl
  | some func =>
    have hroot := body_mem_roots hfunc
    have hclosed : Closed p [] p.regions.length ([] ++ p.argsOf func.body)
        (p.opsIn func.body) := hroots _ hroot
    have hsame := hdepth ((AttachedAt.root hroot).isSome_region? hp) hclosed (.nil .empty) args
    exact congrArg (Option.map (·.2)) hsame

lemma Converted.evalOps_eq (hdepth : RunsAlike I depth p q)
    (hclosed : Closed p avoid level scope ops) (hknown : Env.Known scope env) :
    q.evalOps I depth (q.outputsOf I depth) ops env = p.evalOps I depth
    (p.outputsOf I depth) ops env := by
  have hcall := hc.call_eq hp hroots hdepth
  induction hclosed generalizing env with
  | nil => rfl
  | @cons avoid level scope x rest _ hlive hoperands _ _ hinner _ _ ihrest =>
    obtain ⟨nodeX, hnodeX⟩ := isSome_iff_exists.mp hlive
    -- Both operations are terminators or none is, and they leave the same values.
    obtain ⟨nodeX', hnodeX', hend, hends, hstep⟩ : ∃ nodeX', q.op? x = some nodeX' ∧
        nodeX'.isTerminator = nodeX.isTerminator ∧
        (nodeX.isTerminator = true → nodeX'.operands = nodeX.operands) ∧
        q.evalOp I depth (q.outputsOf I depth) nodeX' env = p.evalOp I depth
        (p.outputsOf I depth) nodeX env := by
      by_cases hx : x = conversion.op
      · subst hx
        cases h.live.symm.trans hnodeX
        obtain ⟨rs, hop, -⟩ := hc.regions
        have hplain := not_isTerminator_of_calls h.calls
        refine ⟨_, hop, ?_, fun hno ↦ by simp [hplain] at hno, ?_⟩
        · rw [hplain]
          exact not_isTerminator_of_regionManner h.kind
        · exact hc.evalOp_self h hcall (operandsOf_eq hnodeX ▸ hoperands) hknown hop
      · refine ⟨nodeX, hc.grows.op? x (by simpa using hx) nodeX hnodeX, rfl, fun _ ↦ rfl, ?_⟩
        refine evalOp_congr (I.outcome_congr _ rfl rfl rfl (forall₂_same.mpr fun r hr ↦ ?_) hcall)
        rw [← regionsOf_eq hnodeX] at hr
        funext args
        exact congrArg (Option.map (·.2))
          (hdepth (hp.isSome_region?_of_mem_regionsOf hr) (hinner r hr) hknown args)
    rw [evalOps_cons hnodeX, evalOps_cons hnodeX', hend, hstep]
    split_ifs with hfinal
    · rw [hends hfinal]
    · cases hnext : p.evalOp I depth (p.outputsOf I depth) nodeX env with
      | none => rw [bind_none, bind_none]
      | some next =>
        have hafter := known_of_evalOp hknown hnext
        rw [← resultsOf_eq hnodeX] at hafter
        rw [bind_some, bind_some]
        exact ihrest hafter

lemma Converted.runsAlike (depth : Nat) : RunsAlike I depth p q := by
  induction depth with
  | zero => exact fun _ _ _ _ ↦ rfl
  | succ depth ih =>
    intro r avoid level scope env hr hclosed hknown args
    have hsame := hc.grows.region?_eq hr not_mem_nil
    rw [evalRegion_succ, evalRegion_succ, argsOf_congr hsame, opsIn_congr hsame]
    cases hbind : env.bind (p.argsOf r) args with
    | none => rw [bind_none, bind_none]
    | some next =>
      rw [bind_some, bind_some]
      exact hc.evalOps_eq h hp hroots ih hclosed (hknown.bind hbind)

lemma Converted.evalRegion_root (depth : Nat) (hr : r ∈ p.roots) (env : Env α)
    (args : List α) : q.evalRegion I depth r env args = p.evalRegion I depth r env args := by
  have hclosed : Closed p [] p.regions.length ([] ++ p.argsOf r) (p.opsIn r) := hroots r hr
  exact hc.runsAlike h hp hroots depth ((AttachedAt.root hr).isSome_region? hp)
    hclosed (.nil env) args

end Converted

/-! ### What is closed stays closed -/

section Closed

variable {conversion : Conversion} {q : Program} (hc : Converted conversion node p q)
  (h : Convertible conversion node p) (hp : p.Consistent)

include hc h

lemma Converted.parentOf?_self : q.parentOf? conversion.op = p.parentOf? conversion.op := by
  obtain ⟨rs, hop, -⟩ := hc.regions
  rw [parentOf?_eq hop, parentOf?_eq h.live]

include hp

lemma Converted.region_new (hr : r ∈ q.regionsOf conversion.op) : p.region? r = none := by
  cases hregion : p.region? r with
  | none => rfl
  | some region =>
    have howner := hc.consistent.mem_regionsOf.mp hr
    have hsame := hc.grows.region? r not_mem_nil region hregion
    rw [parentOp?_congr (ownerOf?_congr (hsame.trans hregion.symm))] at howner
    have hold := hp.mem_regionsOf.mpr howner
    rw [regionsOf_eq h.live, h.regions] at hold
    cases hold

lemma Converted.ancestorIn {x a : OpId} (hlive : (p.op? x).isSome) (hanc : AncestorIn q r x a) :
    AncestorIn p r x a :=
  hanc.of_grows hp hc.grows (by simpa using hc.parentOf?_self h) hlive

variable (hroots : ClosedRoots p)

include hroots

lemma Converted.closed_region (hlive : ∀ t ∈ avoid, (p.op? t).isSome)
    (hoperands : ∀ v ∈ node.operands, v ∈ scope) (hscope : ∀ v ∈ scope, v.index < p.values.length)
    (hr : r ∈ q.regionsOf conversion.op) : (∀ v ∈ q.argsOf r, v ∉ scope) ∧
    Closed q (conversion.op :: avoid) q.regions.length (scope ++ q.argsOf r) (q.opsIn r) := by
  have hnew := hc.region_new h hp hr
  obtain ⟨rs, hop, hlength, hembodies⟩ := hc.regions
  rw [regionsOf_eq hop] at hr
  obtain ⟨name, hmem⟩ := exists_mem_zip hlength hr
  obtain ⟨func, hfunc, f, hcopied, hargs⟩ := hembodies name r hmem
  obtain ⟨func', hfunc', hbody⟩ := h.inlinable hp hroots name (of_mem_zip hmem).1
  obtain rfl := some.inj (hfunc'.symm.trans hfunc)
  have hsource := (hbody.grows hp hc.grows).closed
  have hsub : ∀ v ∈ q.argsOf func'.body, f v ∈ scope ++ q.argsOf r := by
    intro v hv
    have hv := mem_map_of_mem (f := f) hv
    cases hflavor : conversion.flavor with
    | branch =>
      simp only [hflavor] at hargs
      rw [hargs.2] at hv
      exact mem_append_left _ (hoperands _ (mem_of_mem_drop hv))
    | loop =>
      simp only [hflavor] at hargs
      exact mem_append_right _ (hargs.1 ▸ hv)
  have hnames : ∀ v ∈ q.argsOf r, p.values.length ≤ v.index ∧
      ∃ u ∈ q.argsOf func'.body, v = f u := by
    intro v hv
    cases hflavor : conversion.flavor with
    | branch =>
      simp only [hflavor] at hargs
      rw [hargs.1] at hv
      cases hv
    | loop =>
      simp only [hflavor] at hargs
      refine ⟨hargs.2 v hv, ?_⟩
      rw [hargs.1] at hv
      obtain ⟨u, hu, rfl⟩ := mem_map.mp hv
      exact ⟨u, hu, rfl⟩
  refine ⟨fun v hv hmem ↦ Nat.not_lt.mpr (hnames v hv).1 (hscope v hmem), ?_⟩
  have hclosed : Closed q [conversion.op] q.regions.length (scope ++ q.argsOf r) (q.opsIn r) := by
    refine hcopied.closed hsource hsub fun v hv ↦ ?_
    rcases mem_append.mp hv with hv | hv
    · exact .inl (hscope v hv)
    · exact .inr (hnames v hv).2
  refine hclosed.avoiding hc.consistent (Subset.refl _) fun t ht a hanc ↦ ?_
  have hin :=
    isSome_region?_of_mem_opsIn (hp.mem_opsIn.mpr (hc.ancestorIn h hp (hlive t ht) hanc).parentOf?)
  simp [hnew] at hin

lemma Converted.closed (hclosed : Closed p avoid level scope ops)
    (hlive : ∀ t ∈ avoid, (p.op? t).isSome) (hscope : ∀ v ∈ scope, v.index < p.values.length) :
    Closed q avoid (level + q.regions.length) scope ops := by
  induction hclosed with
  | nil => exact .nil
  | @cons avoid level scope x rest havoid hx hoperands hresults hargs _ _ ihinner ihrest =>
    have hrest := ihrest hlive fun v hv ↦ (mem_append.mp hv).elim (hscope v) hp.lt_of_mem_resultsOf
    rw [Nat.add_right_comm] at hrest ⊢
    by_cases hself : x = conversion.op
    · subst hself
      obtain ⟨rs, hop, -⟩ := hc.regions
      rw [operandsOf_eq h.live] at hoperands
      have hsame : q.resultsOf conversion.op = p.resultsOf conversion.op := by
        rw [resultsOf_eq hop, resultsOf_eq h.live]
      refine .cons havoid (by rw [hop]; rfl) ?_ (hsame ▸ hresults) (fun r hr ↦ ?_)
        (fun r hr ↦ ?_) (hsame ▸ hrest)
      · rw [operandsOf_eq hop]
        exact fun v hv ↦ hoperands v (Flavor.mem_of_mem_kept hv)
      · exact (hc.closed_region h hp hroots hlive hoperands hscope hr).1
      · exact (hc.closed_region h hp hroots hlive hoperands hscope hr).2.mono (Nat.le_add_left _ _)
    · have hop := hc.grows.op?_eq hx (by simpa using hself)
      have hregion : ∀ r ∈ p.regionsOf x, q.region? r = p.region? r := fun r hr ↦
        hc.grows.region?_eq (hp.isSome_region?_of_mem_regionsOf hr) not_mem_nil
      refine .cons havoid (hop ▸ hx) (operandsOf_congr hop ▸ hoperands)
        (resultsOf_congr hop ▸ hresults) (fun r hr ↦ ?_) (fun r hr ↦ ?_)
        (resultsOf_congr hop ▸ hrest)
      · rw [regionsOf_congr hop] at hr
        exact argsOf_congr (hregion r hr) ▸ hargs r hr
      · rw [regionsOf_congr hop] at hr
        rw [argsOf_congr (hregion r hr), opsIn_congr (hregion r hr)]
        exact ihinner r hr (forall_mem_cons.mpr ⟨hx, hlive⟩) fun v hv ↦
          (mem_append.mp hv).elim (hscope v) hp.lt_of_mem_argsOf

lemma Converted.closedRoots : ClosedRoots q := by
  intro r hr
  have hroot : r ∈ p.roots := hc.grows.roots ▸ hr
  have hsame := hc.grows.region?_eq ((AttachedAt.root hroot).isSome_region? hp) not_mem_nil
  rw [argsOf_congr hsame, opsIn_congr hsame]
  have hclosed := hc.closed h hp hroots (hroots r hroot) (by simp) fun v hv ↦ hp.lt_of_mem_argsOf hv
  exact hclosed.toLevel hc.consistent (.root hr) (opsIn_congr hsame ▸ Subset.refl _)
    (Nat.le_add_left _ _)

end Closed

end RegionForm

end TensorGraph
