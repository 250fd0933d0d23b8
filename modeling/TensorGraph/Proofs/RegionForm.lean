import TensorGraph.Proofs.Inlining

/-!
Giving conditionals and loops regions of their own keeps the meaning of a program.
-/

namespace TensorGraph.RegionForm

open Program Edit List

variable {p q : Program} {o : OpId} {node : Operation} {args : Nat} {flavor : Flavor}
    {conversion : Conversion} {conversions : List Conversion} {rest : List Conversion}
  {changed : Bool} {sweeps : Nat}

/-! ### Plans -/

lemma manner_of_schemeOf {kind : String} {scheme : Scheme} (h : schemeOf kind = some scheme) :
    functionalManner kind = some (scheme.flavor.manner scheme.regionKind, scheme.roles) ∧
    regionManner scheme.regionKind = some (scheme.flavor.manner scheme.regionKind) ∧
    scheme.roles ≠ [] := by
  unfold schemeOf at h
  unfold functionalManner
  split_ifs at h ⊢
  all_goals
    cases h
    exact ⟨rfl, rfl, by simp⟩

lemma expectedArgs_eq_ok (h : expectedArgs node flavor = .ok args) :
    args = (flavor.handed node.operands).length ∧ (flavor = .branch → node.operands ≠ []) := by
  cases flavor with
  | branch =>
    rw [expectedArgs] at h
    split_ifs at h with hempty
    · cases h
    · cases h
      refine ⟨(length_drop ..).symm, fun _ hnil ↦ hempty ?_⟩
      rw [hnil]
      rfl
  | loop =>
    rw [expectedArgs] at h
    split_ifs at h
    · cases h
      exact ⟨rfl, fun hflavor ↦ by cases hflavor⟩
    · cases h

lemma checkCallee_eq_ok {results : Nat} {name : String}
    (h : checkCallee p node args results name = .ok ()) : ∃ func, p.func? name = some func ∧
    p.isWithin node.parent func.body = false ∧ (p.argsOf func.body).length = args := by
  unfold checkCallee at h
  cases hfunc : p.func? name with
  | none =>
    rw [hfunc] at h
    cases h
  | some func =>
    simp only [hfunc] at h
    by_cases hwithin : p.isWithin node.parent func.body = true
    · rw [if_pos hwithin] at h
      cases h
    · by_cases hend : (p.terminator? func.body).isNone = true
      · rw [if_neg hwithin, if_pos hend] at h
        cases h
      · rw [if_neg hwithin, if_neg hend] at h
        obtain ⟨body, hbody, h⟩ := check_bind_eq_ok.mp h
        by_cases hargs : body.args.length ≠ args
        · rw [if_pos hargs] at h
          cases h
        · refine ⟨func, rfl, Bool.eq_false_iff.mpr hwithin, ?_⟩
          rw [argsOf_eq (region_eq_ok.mp hbody)]
          exact not_not.mp hargs

lemma calleesIn_eq_ok {role : String} {names : List String}
    (h : calleesIn p node flavor args role = .ok names) : names =
      (node.funcRefs.filter (·.role == role)).map (·.func) ∧ names ≠ [] ∧
      ∀ name ∈ names, ∃ func, p.func? name = some func ∧ p.isWithin node.parent func.body = false ∧
      (p.argsOf func.body).length = args := by
  unfold calleesIn at h
  by_cases hempty : ((node.funcRefs.filter (·.role == role)).map (·.func)).isEmpty = true
  · simp only [hempty, if_true] at h
    cases h
  · simp only [hempty] at h
    obtain ⟨_, hchecks, h⟩ := check_bind_eq_ok.mp h
    cases h
    refine ⟨rfl, fun hnil ↦ hempty (isEmpty_iff.mpr hnil), fun name hname ↦ ?_⟩
    exact checkCallee_eq_ok (check_forM_eq_ok.mp hchecks name hname)

lemma op_of_conversionOf (h : conversionOf p o = .ok (some conversion)) : conversion.op = o := by
  obtain ⟨node, -, h⟩ := check_bind_eq_ok.mp h
  split at h
  · obtain ⟨args, -, h⟩ := check_bind_eq_ok.mp h
    obtain ⟨callees, -, h⟩ := check_bind_eq_ok.mp h
    cases h
    rfl
  · cases h

lemma map_op_sublist {ops : List OpId} {found : List (Option Conversion)}
    (h : List.Forall₂ (fun o conversion ↦ conversionOf p o = .ok conversion) ops found) :
    ((found.filterMap id).map (·.op)).Sublist ops := by
  induction h with
  | nil => exact .slnil
  | @cons o conversion _ _ hok _ ih =>
    cases conversion with
    | none => exact ih.cons o
    | some conversion =>
      obtain rfl := op_of_conversionOf hok
      exact ih.cons_cons conversion.op

lemma attached_of_plan (h : plan p = .ok conversions) :
    ∀ conversion ∈ conversions, conversion.op ∈ p.allOps := by
  obtain ⟨found, hfound, h⟩ := check_bind_eq_ok.mp h
  cases h
  exact fun conversion hmem ↦
    (map_op_sublist (check_mapM_eq_ok.mp hfound)).subset (mem_map_of_mem hmem)

section Plan

variable (hp : p.Consistent)

include hp

lemma not_ancestorIn_of_isWithin (ho : o ∈ p.allOps) (hnode : p.op? o = some node) {body : RegionId}
    (hwithin : p.isWithin node.parent body = false) (a : OpId) : ¬ AncestorIn p body o a := by
  intro hanc
  obtain ⟨home, hhome, hparent⟩ := (mem_allOps hp).mp ho
  have hin := isWithin_of_ancestorIn hp hanc hparent hhome
  cases (parentOf?_eq hnode).symm.trans hparent
  exact Bool.false_ne_true (hwithin.symm.trans hin)

lemma convertible_of_conversionOf (ho : o ∈ p.allOps) (h : conversionOf p o = .ok (some conversion))
    : ∃ node, Convertible conversion node p := by
  obtain ⟨node, hnode, h⟩ := check_bind_eq_ok.mp h
  rw [op_eq_ok] at hnode
  cases hform : node.form with
  | plain => rw [hform] at h; cases h
  | nested regions => rw [hform] at h; cases h
  | functional refs =>
    cases hscheme : schemeOf node.kind with
    | none => rw [hform, hscheme] at h; cases h
    | some scheme =>
      simp only [hform, hscheme] at h
      obtain ⟨args, hargs, h⟩ := check_bind_eq_ok.mp h
      obtain ⟨callees, hcallees, h⟩ := check_bind_eq_ok.mp h
      cases h
      obtain ⟨hmanner, hkind, hroles⟩ := manner_of_schemeOf hscheme
      obtain ⟨hcount, hselector⟩ := expectedArgs_eq_ok hargs
      have hnames : ∀ names ∈ callees, names ≠ [] ∧
          ∀ name ∈ names, ∃ func, p.func? name = some func ∧
          p.isWithin node.parent func.body = false ∧ (p.argsOf func.body).length = args := by
        intro names hmem
        obtain ⟨role, -, hok⟩ := exists_of_mem_mapM hcallees hmem
        exact (calleesIn_eq_ok hok).2
      have hbyRole :
          scheme.roles.map (fun role ↦ (node.funcRefs.filter (·.role == role)).map (·.func)) =
          callees := by
        rw [← forall₂_eq_eq_eq, forall₂_map_left_iff]
        exact (check_mapM_eq_ok.mp hcallees).imp fun role names hok ↦ (calleesIn_eq_ok hok).1.symm
      have hsome : callees.flatten ≠ [] := by
        obtain ⟨role, roles, hcons⟩ := exists_cons_of_ne_nil hroles
        rw [hcons, map_cons] at hbyRole
        have hfirst := (hnames _ (hbyRole ▸ mem_cons_self)).1
        rw [← hbyRole, flatten_cons]
        exact append_ne_nil_of_left_ne_nil hfirst _
      refine ⟨node, hnode, by rw [Operation.regions, hform], ?_, hkind, hsome, hselector, ?_⟩
      · have hrefs : node.funcRefs ≠ [] := by
          intro hnil
          refine hsome ?_
          rw [← hbyRole, hnil]
          simp
        rw [Operation.calls, if_neg hrefs, hmanner, ← hbyRole]
        rfl
      · intro name hname
        obtain ⟨names, hmem, hname⟩ := mem_flatten.mp hname
        obtain ⟨func, hfunc, hwithin, hlength⟩ := (hnames names hmem).2 name hname
        exact ⟨func, hfunc, hlength.trans hcount, not_ancestorIn_of_isWithin hp ho hnode hwithin⟩

lemma plan_eq_ok (hroots : p.roots.Nodup) (h : plan p = .ok conversions) :
    (conversions.map (·.op)).Nodup ∧
    ∀ conversion ∈ conversions, ∃ node, Convertible conversion node p := by
  obtain ⟨found, hfound, h⟩ := check_bind_eq_ok.mp h
  cases h
  constructor
  · exact (map_op_sublist (check_mapM_eq_ok.mp hfound)).nodup (nodup_allOps hp hroots)
  · intro conversion hmem
    obtain ⟨_, hmem, rfl⟩ := mem_filterMap.mp hmem
    obtain ⟨o, ho, hok⟩ := exists_of_mem_mapM hfound hmem
    exact convertible_of_conversionOf hp ho hok

end Plan

/-! ### Sweeps -/

lemma Convertible.of_grows {other : Conversion} (h : Convertible other node p)
    (hg : Grows [o] [] p q) (hparent : q.parentOf? o = p.parentOf? o) (hp : p.Consistent)
    (hne : other.op ≠ o) : Convertible other node q := by
  refine ⟨hg.op? _ (by simpa using hne) _ h.live, h.regions, h.calls, h.kind, h.callees,
    h.selector, fun name hname ↦ ?_⟩
  obtain ⟨func, hfunc, hcount, houtside⟩ := h.bodies name hname
  have hroot := body_mem_roots hfunc
  have hbody := hg.region?_eq ((AttachedAt.root hroot).isSome_region? hp) not_mem_nil
  refine ⟨func, (hg.func? name).trans hfunc, ?_, fun a hanc ↦ ?_⟩
  · rw [argsOf_congr hbody]
    exact hcount
  · refine houtside a (hanc.of_grows hp hg (by simpa using hparent) ?_)
    rw [h.live]
    rfl

lemma Reworks.convertible (h : Reworks o p q) (ho : (p.op? o).isSome)
    (hself : o ∉ rest.map (·.op)) (hrest : ∀ other ∈ rest, ∃ node, Convertible other node p) :
    ∀ other ∈ rest, ∃ node, Convertible other node q := by
  intro other hmem
  obtain ⟨node, hother⟩ := hrest other hmem
  exact ⟨node, hother.of_grows h.grows (h.parentOf? ho) h.before fun heq ↦
    hself (mem_map.mpr ⟨other, hmem, heq⟩)⟩

structure KeepsMeaning (p q : Program) : Prop where
  consistent : q.Consistent
  closed : ClosedRoots q
  funcs : q.funcs = p.funcs
  graph : q.graph = p.graph
  runs : ∀ {α : Type} (I : Interpretation α) (depth : Nat), ∀ r ∈ p.roots, ∀ env args,
    q.evalRegion I depth r env args = p.evalRegion I depth r env args

namespace KeepsMeaning

variable {m : Program}

lemma roots (h : KeepsMeaning p q) : q.roots = p.roots := by
  rw [Program.roots, h.funcs, h.graph, Program.roots]

lemma refl (hp : p.Consistent) (hroots : ClosedRoots p) : KeepsMeaning p p :=
  ⟨hp, hroots, rfl, rfl, fun _ _ _ _ _ _ ↦ rfl⟩

lemma trans (h : KeepsMeaning p m) (h' : KeepsMeaning m q) : KeepsMeaning p q where
  consistent := h'.consistent
  closed := h'.closed
  funcs := h'.funcs.trans h.funcs
  graph := h'.graph.trans h.graph
  runs I depth r hr env args :=
    (h'.runs I depth r (h.roots ▸ hr) env args).trans (h.runs I depth r hr env args)

lemma of_converted (hp : p.Consistent) (hroots : ClosedRoots p) (h : Convertible conversion node p)
    (hc : Converted conversion node p q) : KeepsMeaning p q where
  consistent := hc.consistent
  closed := hc.closedRoots h hp hroots
  funcs := hc.grows.funcs
  graph := hc.grows.graph
  runs _ depth _ hr env args := hc.evalRegion_root h hp hroots depth hr env args

end KeepsMeaning

structure Pending (p : Program) (conversions : List Conversion) (q : Program) : Prop where
  meaning : KeepsMeaning p q
  ops : (conversions.map (·.op)).Nodup
  convertible : ∀ conversion ∈ conversions, ∃ node, Convertible conversion node q

lemma Pending.step {q' : Program} (h : Pending p (conversion :: rest) q)
    (hok : (convert conversion).exec q = (.ok ⟨⟩, q')) : Pending p rest q' := by
  obtain ⟨⟨node, hfirst⟩, hothers⟩ := forall_mem_cons.mp h.convertible
  obtain ⟨hself, hrest⟩ := nodup_cons.mp h.ops
  have hq := h.meaning.consistent
  have hc := convert_ok hq hfirst.live hfirst.regions hfirst.callees
    (hfirst.inlinable hq h.meaning.closed) hok
  obtain ⟨rs, hop, -⟩ := hc.regions
  have hreworks : Reworks conversion.op q q' :=
    .of_op? hq hc.consistent hc.grows hfirst.live hop rfl
  exact ⟨h.meaning.trans (.of_converted hq h.meaning.closed hfirst hc), hrest,
    hreworks.convertible (Option.isSome_of_eq_some hfirst.live) hself hothers⟩

/-- Programs from which sweeps lead to another one, as long as there is something to convert. -/
inductive Swept : Program → Bool → Program → Prop where
  | done (p : Program) : Swept p false p
  | step {p q m : Program} {conversions : List Conversion} {again : Bool}
      (hplan : plan p = .ok conversions) (hsome : conversions ≠ [])
      (hconverted : (conversions.forM convert).exec p = (.ok ⟨⟩, m))
      (hrest : Swept m again q) : Swept p true q

lemma swept_of_ok (hok : (sweep sweeps).exec p = (.ok changed, q)) :
    Swept p changed q := by
  induction sweeps generalizing p changed with
  | zero =>
    cases hok
    exact .done _
  | succ sweeps ih =>
    obtain ⟨conversions, hplan, hok⟩ := bind_read_ok.mp hok
    by_cases hempty : conversions.isEmpty = true
    · rw [if_pos hempty] at hok
      cases hok
      exact .done _
    · rw [if_neg hempty] at hok
      obtain ⟨_, m, hconverted, hok⟩ := exec_bind_ok.mp hok
      obtain ⟨_, q', hrest, hok⟩ := exec_bind_ok.mp hok
      cases hok
      exact .step hplan (by simpa using hempty) hconverted (ih hrest)

lemma keepsMeaning_sweep (hp : p.Consistent) (hclosed : ClosedRoots p) (hroots : p.roots.Nodup)
    (hok : (sweep sweeps).exec p = (.ok changed, q)) : KeepsMeaning p q := by
  have hswept := swept_of_ok hok
  clear hok
  induction hswept with
  | done => exact .refl hp hclosed
  | step hplan _ hconverted _ ih =>
    obtain ⟨hops, hall⟩ := plan_eq_ok hp hroots hplan
    have hdone := (forM_ok (I := Pending _) (fun _ _ _ _ ↦ Pending.step)
      ⟨.refl hp hclosed, hops, hall⟩ hconverted).meaning
    exact hdone.trans (ih hdone.consistent hdone.closed (hdone.roots ▸ hroots))

/-- If the pass succeeds on an ordered program, the graph and the functions are the same and
evaluate to what they evaluated to, on all arguments and for every interpretation. -/
theorem evaluates_iff_of_run_ok (registry : Registry) {p q : Program} (hp : Reachable p)
    (hordered : Ordered p) {changed : Bool} (hok : (pass.run registry).exec p = (.ok changed, q)) :
    q.graph = p.graph ∧ q.funcs = p.funcs ∧ ∀ {α : Type} (I : Interpretation α), ∀ r ∈ p.roots,
      ∀ args env outputs, q.Evaluates I r args env outputs ↔ p.Evaluates I r args env outputs := by
  have hclosed : ClosedRoots p := fun r hr ↦ hordered.toScoped.closed_root hp.consistent hr
  have hkept := keepsMeaning_sweep hp.consistent hclosed hp.nodup_roots hok
  refine ⟨hkept.graph, hkept.funcs, fun I r hr args env outputs ↦ ?_⟩
  constructor
  · rintro ⟨depth, hrun⟩
    exact ⟨depth, (hkept.runs I depth r hr _ args).symm.trans hrun⟩
  · rintro ⟨depth, hrun⟩
    exact ⟨depth, (hkept.runs I depth r hr _ args).trans hrun⟩

/-- A conditional that names two functions, one of which runs a loop of two more. -/
def choice : Program :=
  .built [
    .addFunction "positive" [.unknown] [.unknown], .node 1 "isPositive" [0] 1,
    .node 1 returnKind [1], .addFunction "less" [.unknown] [.unknown], .node 2 "decrement" [2] 1,
    .node 2 returnKind [3], .addFunction "down" [.unknown] [.unknown],
    .append ⟨3⟩ { kind := "While", operands := [⟨4⟩], resultTypes := [.unknown],
                  funcRefs := [⟨"cond", "positive"⟩, ⟨"body", "less"⟩] },
    .node 3 returnKind [5], .node 0 "source" [] 2,
    .append ⟨0⟩ { kind := "If", operands := [⟨6⟩, ⟨7⟩], resultTypes := [.unknown],
                  funcRefs := [⟨"then_branch", "less"⟩, ⟨"else_branch", "down"⟩] },
    .node 0 returnKind [8]]

/-- The loop moves into the second branch, and the graph still counts down to zero. -/
theorem evaluates_choice :
    let registry : Registry := NameMap.empty
    let q := ((pass.run registry).exec choice).2
    Reachable choice ∧ Ordered choice ∧ (pass.run registry).exec choice = (.ok true, q) ∧
      q.regionsOf ⟨7⟩ = [⟨4⟩, ⟨5⟩] ∧ q.opsIn ⟨5⟩ = [⟨11⟩, ⟨12⟩] ∧ q.regionsOf ⟨11⟩ = [⟨8⟩, ⟨9⟩] ∧
      ∃ env, q.Evaluates .integers ⟨0⟩ [] env [0] := by
  intro registry q
  have hp : Reachable choice := reachable_built _
  have hordered : Ordered choice := ordered_of_isScoped hp.consistent (by decide +kernel)
    (by decide +kernel)
  have hok : (pass.run registry).exec choice = (.ok true, q) := exec_eq_ok (by decide +kernel)
  have heval :
      (choice.evalRegion .integers 5 ⟨0⟩ .empty []).map (·.2) = some [0] := by decide +kernel
  have hroot : ⟨0⟩ ∈ choice.roots := by decide +kernel
  obtain ⟨⟨env, outputs⟩, hrun, rfl⟩ := Option.map_eq_some_iff.mp heval
  obtain ⟨-, -, hsame⟩ := evaluates_iff_of_run_ok registry hp hordered hok
  exact ⟨hp, hordered, hok, by decide +kernel, by decide +kernel, by decide +kernel, env,
    (hsame .integers ⟨0⟩ hroot [] env _).mpr ⟨5, hrun⟩⟩

end TensorGraph.RegionForm
