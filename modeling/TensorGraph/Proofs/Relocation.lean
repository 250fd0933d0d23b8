import Mathlib.Data.Option.Basic
import TensorGraph.Proofs.Inlining

/-!
Plain operations in other places. Two closed programs in which only plain operations stand in
different places run alike.
-/

namespace TensorGraph

open List Option

variable {o stop : OpId} {r : RegionId} {node : Operation} {depth : Nat} {p : Program}

variable {α : Type} {env env' next : Env α} {values : List α}

/-! ### Runs with arbitrary rules -/

/-- Total functions for plain operations, and rules for those that run regions or functions. -/
structure Semantics (α : Type) where
  /-- The value of a result of a plain operation, from name, kind and attributes and the values of
  the operands. -/
  plain : String → String → AttributeSet → List α → Nat → α
  /-- What an operation makes of its regions and of the values of its operands. -/
  regions : String → String → AttributeSet → List (Run α) → List α → Option (List α)
  /-- What an operation makes of the functions it names, each with its role. -/
  functions : String → String → AttributeSet → List (String × Run α) → List α → Option (List α)

/-- A way into a region of an operation, with arguments for the region. -/
structure Entry (α : Type) where
  op : OpId
  region : RegionId
  args : List α

namespace Semantics

variable (S : Semantics α) (p : Program)

/-- The results of a plain operation. -/
def plainResults (node : Operation) (inputs : List α) : List α :=
  (List.range node.results.length).map (S.plain node.name node.kind node.attrs inputs)

/-- What an operation gives, when regions and functions are run in the given ways. -/
def outcome (inside : RegionId → Run α) (call : String → Run α)
    (node : Operation) (inputs : List α) : Option (List α) :=
  match node.form with
  | .plain => some (S.plainResults node inputs)
  | .nested regions => S.regions node.name node.kind node.attrs (regions.map inside) inputs
  | .functional refs =>
    S.functions node.name node.kind node.attrs (refs.map fun ref ↦ (ref.role, call ref.func)) inputs

/-- Runs an operation that is no terminator; `run` says how regions are run. -/
def runOp (run : Runner α) (node : Operation) (env : Env α) : Option (Env α) :=
  (node.operands.mapM env).bind fun inputs ↦
    (S.outcome (fun r ↦ run r env) (p.call run) node inputs).bind (env.bind node.results)

/-- Runs operations in order, up to the first terminator, whose operands are the outputs. -/
def runOps (run : Runner α) : List OpId → Env α → Option (Env α × List α)
  | [], env => some (env, [])
  | o :: rest, env =>
    match p.op? o with
    | none => none
    | some node =>
      if node.isTerminator then (node.operands.mapM env).map fun outputs ↦ (env, outputs)
      else (S.runOp p run node env).bind (runOps run rest)

/-- Runs a region on arguments among the values around it, nested at most as deep as given; gives
the values at its end and its outputs. -/
def runRegion : Nat → RegionId → Env α → List α → Option (Env α × List α)
  | 0, _, _, _ => none
  | depth + 1, r, env, args => (env.bind (p.argsOf r) args).bind
      (S.runOps p (fun r env args ↦ (runRegion depth r env args).map (·.2)) (p.opsIn r))

/-- The outputs of a region. -/
def outputs (depth : Nat) (r : RegionId) (env : Env α) (args : List α) : Option (List α) :=
  (S.runRegion p depth r env args).map (·.2)

/-- The values at the time when an operation of the list is about to run. -/
def runBefore (run : Runner α) (stop : OpId) : List OpId → Env α → Option (Env α)
  | [], _ => none
  | o :: rest, env =>
    if o = stop then some env
    else
      match p.op? o with
      | none => none
      | some node =>
        if node.isTerminator then none else (S.runOp p run node env).bind (runBefore run stop rest)

/-- Runs the region that is reached when operations of a region are entered one inside the other;
the operations along the way run up to the one that is entered. -/
def runAlong : Nat → RegionId → Env α → List α → List (Entry α) → Option (Env α × List α)
  | depth, r, env, args, [] => S.runRegion p depth r env args
  | 0, _, _, _, _ :: _ => none
  | depth + 1, r, env, args, entry :: path =>
    if entry.region ∈ p.regionsOf entry.op then
      ((env.bind (p.argsOf r) args).bind
        (S.runBefore p (S.outputs p depth) entry.op (p.opsIn r))).bind fun env ↦
        runAlong depth entry.region env entry.args path
    else none

lemma outcome_congr {inside inside' : RegionId → Run α} {call call' : String → Run α}
    (hinside : ∀ r ∈ node.regions, inside r = inside' r) (hcall : call = call') (inputs : List α) :
    S.outcome inside call node inputs = S.outcome inside' call' node inputs := by
  unfold outcome
  unfold Operation.regions at hinside
  cases hform : node.form with
  | plain => rfl
  | functional refs => simp only [hcall]
  | nested regions =>
    simp only [hform] at hinside ⊢
    rw [map_congr_left hinside]

lemma runRegion_succ (depth : Nat) (r : RegionId) (env : Env α) (args : List α) :
    S.runRegion p (depth + 1) r env args = (env.bind (p.argsOf r) args).bind
    (S.runOps p (S.outputs p depth) (p.opsIn r)) := rfl

variable {p}

lemma runOps_cons (ho : p.op? o = some node) (run : Runner α) (rest : List OpId)
    (env : Env α) : S.runOps p run (o :: rest) env =
      if node.isTerminator then (node.operands.mapM env).map fun outputs ↦ (env, outputs)
      else (S.runOp p run node env).bind (S.runOps p run rest) := by
  rw [runOps, ho]

lemma runBefore_cons (ho : p.op? o = some node) (run : Runner α)
    (hstop : o ≠ stop) (rest : List OpId) (env : Env α) : S.runBefore p run stop (o :: rest) env =
      if node.isTerminator then none else (S.runOp p run node env).bind
        (S.runBefore p run stop rest) := by
  rw [runBefore, if_neg hstop, ho]

end Semantics

variable {S : Semantics α}

/-! ### Plain operations in other places -/

inductive Interleaved (moved : OpId → Prop) : List OpId → List OpId → Prop where
  | nil : Interleaved moved [] []
  | left {o : OpId} {l l' : List OpId} (ho : moved o) (h : Interleaved moved l l') :
      Interleaved moved (o :: l) l'
  | right {o : OpId} {l l' : List OpId} (ho : moved o) (h : Interleaved moved l l') :
      Interleaved moved l (o :: l')
  | both {o : OpId} {l l' : List OpId} (ho : ¬ moved o) (h : Interleaved moved l l') :
      Interleaved moved (o :: l) (o :: l')

lemma Interleaved.of_filter_eq {inPlace : OpId → Bool}
    (h : l.filter inPlace = l'.filter inPlace) : Interleaved (fun o ↦ inPlace o = false) l l' := by
  have hright : ∀ {front l l' : List OpId}, (∀ o ∈ front, inPlace o = false) →
      Interleaved (fun o ↦ inPlace o = false) l l' →
      Interleaved (fun o ↦ inPlace o = false) l (front ++ l') := by
    intro front l l' hfront hrest
    induction front with
    | nil => exact hrest
    | cons o front ih =>
      rw [forall_mem_cons] at hfront
      exact .right hfront.1 (ih hfront.2)
  induction l generalizing l' with
  | nil =>
    rw [← append_nil l']
    refine hright (fun o ho ↦ ?_) .nil
    exact Bool.eq_false_iff.mpr (filter_eq_nil_iff.mp h.symm o ho)
  | cons o l ih =>
    by_cases ho : inPlace o = true
    · rw [filter_cons_of_pos ho, eq_comm, filter_eq_cons_iff] at h
      obtain ⟨front, rest, rfl, hfront, -, hrest⟩ := h
      refine hright (fun x hx ↦ Bool.eq_false_iff.mpr (hfront x hx)) (.both ?_ (ih hrest.symm))
      rw [ho]
      exact Bool.noConfusion
    · rw [filter_cons_of_neg ho] at h
      exact .left (Bool.eq_false_iff.mpr ho) (ih h)

namespace Program

structure Relocates (moved : OpId → Prop) (p q : Program) : Prop where
  same : SameButPlaces p q
  plain : ∀ o, moved o → ∀ node, p.op? o = some node → node.form = .plain ∧
    node.isTerminator = false
  order : ∀ r, Interleaved moved (p.opsIn r) (q.opsIn r)

def Coherent (S : Semantics α) (moved : OpId → Prop) (p : Program) (scope : List ValueId)
    (env : Env α) : Prop :=
  ∀ o node, moved o → p.op? o = some node → ∀ i v, node.results[i]? = some v → v ∈ scope →
    (∀ u ∈ node.operands, u ∈ scope) ∧ ∃ inputs, node.operands.mapM env = some inputs ∧
      env v = some (S.plain node.name node.kind node.attrs inputs i)

structure Agree (S : Semantics α) (moved : OpId → Prop) (p : Program) (scope scope' : List ValueId)
    (env env' : Env α) : Prop where
  known : Env.Known scope env
  known' : Env.Known scope' env'
  others : ∀ v, (∀ o, moved o → v ∉ p.resultsOf o) → env v = env' v
  common : ∀ v ∈ scope, v ∈ scope' → env v = env' v
  coherent : Coherent S moved p scope env
  coherent' : Coherent S moved p scope' env'

lemma Agree.symm {scope scope' : List ValueId}
    (h : Agree S moved p scope scope' env env') : Agree S moved p scope' scope env' env :=
  ⟨h.known', h.known, fun v hv ↦ (h.others v hv).symm, fun v hv hv' ↦
    (h.common v hv' hv).symm, h.coherent', h.coherent⟩

lemma mapM_congr_env {operands : List ValueId} (h : ∀ v ∈ operands, env v = env' v) :
    operands.mapM env = operands.mapM env' := by
  induction operands with
  | nil => rfl
  | cons v rest ih =>
    rw [forall_mem_cons] at h
    rw [mapM_cons, mapM_cons, h.1, ih h.2]

lemma rel_mono {β γ : Type} {R T : β → γ → Prop} {a : Option β} {b : Option γ}
    (h : Option.Rel R a b) (hle : ∀ x y, R x y → T x y) : Option.Rel T a b := by
  cases h with
  | some hxy => exact .some (hle _ _ hxy)
  | none => exact .none

section Agree

variable {moved : OpId → Prop} {p : Program} {scope scope' : List ValueId}

lemma Coherent.bind (h : Coherent S moved p scope env)
    (hfresh : ∀ v ∈ names, v ∉ scope) (hothers : ∀ o, moved o → ∀ v ∈ p.resultsOf o, v ∉ names)
    (hnext : env.bind names values = some next) : Coherent S moved p (scope ++ names) next := by
  intro o node ho hnode i v hi hv
  have hv : v ∈ scope :=
    (mem_append.mp hv).resolve_right (hothers o ho v (resultsOf_eq hnode ▸ mem_of_getElem? hi))
  have hkept : ∀ u ∈ scope, next u = env u :=
    fun u hu ↦ Env.bind_of_not_mem hnext fun hmem ↦ hfresh u hmem hu
  obtain ⟨hoperands, inputs, hinputs, hvalue⟩ := h o node ho hnode i v hi hv
  refine ⟨fun u hu ↦ mem_append_left _ (hoperands u hu), inputs, ?_, ?_⟩
  · rw [mapM_congr_env fun u hu ↦ hkept u (hoperands u hu)]
    exact hinputs
  · rw [hkept v hv]
    exact hvalue

variable (h : Agree S moved p scope scope' env env')

include h

lemma Agree.bind {next' : Env α} (hfresh : ∀ v ∈ names, v ∉ scope)
    (hfresh' : ∀ v ∈ names, v ∉ scope') (hothers : ∀ o, moved o → ∀ v ∈ p.resultsOf o, v ∉ names)
    (hnext : env.bind names values = some next) (hnext' : env'.bind names values = some next') :
    Agree S moved p (scope ++ names) (scope' ++ names) next next' := by
  have hsame : ∀ v, env v = env' v → next v = next' v := by
    intro v hv
    rw [(Env.bind_eq_some.mp hnext).2, (Env.bind_eq_some.mp hnext').2, hv]
  have hnamed : ∀ v ∈ names, next v = next' v := by
    intro v hv
    rw [(Env.bind_eq_some.mp hnext).2, (Env.bind_eq_some.mp hnext').2, if_pos hv, if_pos hv]
  refine ⟨h.known.bind hnext, h.known'.bind hnext', fun v hv ↦ hsame v (h.others v hv),
    fun v hv hv' ↦ ?_, h.coherent.bind hfresh hothers hnext,
    h.coherent'.bind hfresh' hothers hnext'⟩
  by_cases hmem : v ∈ names
  · exact hnamed v hmem
  · exact hsame v
      (h.common v ((mem_append.mp hv).resolve_right hmem) ((mem_append.mp hv').resolve_right hmem))

lemma Agree.bind_both (hfresh : ∀ v ∈ names, v ∉ scope ∧ v ∉ scope')
    (hothers : ∀ o, moved o → ∀ v ∈ p.resultsOf o, v ∉ names) (values : List α) : Option.Rel
    (Agree S moved p (scope ++ names) (scope' ++ names)) (env.bind names values)
    (env'.bind names values) :=
  env.both_bind env' Iff.rfl
    (h.bind (fun v hv ↦ (hfresh v hv).1) (fun v hv ↦ (hfresh v hv).2) hothers)

lemma Agree.run_moved (hp : p.Consistent)
    (ho : moved o) (hnode : p.op? o = some node) (hoperands : ∀ v ∈ node.operands, v ∈ scope)
    (hfresh : ∀ v ∈ node.results, v ∉ scope)
    {inputs : List α} (hinputs : node.operands.mapM env = some inputs)
    (hnext : env.bind node.results (S.plainResults node inputs) = some next) :
    Agree S moved p (scope ++ node.results) scope' next env' := by
  have hnodup := hp.nodup_resultsOf o
  rw [resultsOf_eq hnode] at hnodup
  have hkept : ∀ u ∈ scope, next u = env u :=
    fun u hu ↦ Env.bind_of_not_mem hnext fun hmem ↦ hfresh u hmem hu
  have hinputs' : node.operands.mapM next = some inputs := by
    rw [mapM_congr_env fun u hu ↦ hkept u (hoperands u hu)]
    exact hinputs
  have hgiven : ∀ i v, node.results[i]? = some v →
      next v = some (S.plain node.name node.kind node.attrs inputs i) := by
    intro i v hi
    rw [Env.bind_of_getElem? hnext hnodup hi, Semantics.plainResults, getElem?_map,
      getElem?_range (List.getElem?_eq_some_iff.mp hi).1]
    rfl
  refine ⟨h.known.bind hnext, h.known', fun v hv ↦ ?_, fun v hv hv' ↦ ?_,
    fun x node' hx hnode' i v hi hv ↦ ?_, h.coherent'⟩
  · rw [Env.bind_of_not_mem hnext fun hmem ↦ hv o ho (resultsOf_eq hnode ▸ hmem)]
    exact h.others v hv
  · by_cases hmem : v ∈ node.results
    · -- The other side has run the operation before, on operands in scope there and here.
      obtain ⟨i, hi⟩ := mem_iff_getElem?.mp hmem
      obtain ⟨hoperands', inputs', hin', hvalue⟩ := h.coherent' o node ho hnode i v hi hv'
      have hsame : inputs = inputs' := by
        rw [mapM_congr_env fun u hu ↦
          (h.common u (hoperands u hu) (hoperands' u hu)).symm, hinputs] at hin'
        exact some.inj hin'
      rw [hgiven i v hi, hvalue, hsame]
    · have hv := (mem_append.mp hv).resolve_right hmem
      rw [hkept v hv]
      exact h.common v hv hv'
  · by_cases hmem : v ∈ node.results
    · -- A result of the operation itself, since no value is the result of two.
      obtain rfl : o = x := hp.eq_of_mem_resultsOf (resultsOf_eq hnode ▸ hmem)
        (resultsOf_eq hnode' ▸ mem_of_getElem? hi)
      cases hnode.symm.trans hnode'
      exact ⟨fun u hu ↦ mem_append_left _ (hoperands u hu), inputs, hinputs', hgiven i v hi⟩
    · have hv := (mem_append.mp hv).resolve_right hmem
      obtain ⟨hoperands₀, inputs₀, hin₀, hvalue⟩ := h.coherent x node' hx hnode' i v hi hv
      refine ⟨fun u hu ↦ mem_append_left _ (hoperands₀ u hu), inputs₀, ?_,
        (hkept v hv).trans hvalue⟩
      rw [mapM_congr_env fun u hu ↦ hkept u (hoperands₀ u hu)]
      exact hin₀

lemma Agree.runOp {run run' : Runner α} (hoperands : ∀ v ∈ node.operands, v ∈ scope ∧ v ∈ scope')
    (hfresh : ∀ v ∈ node.results, v ∉ scope ∧ v ∉ scope')
    (hothers : ∀ o, moved o → ∀ v ∈ p.resultsOf o, v ∉ node.results)
    (hregions : ∀ r ∈ node.regions, run r env = run' r env') (hcall : p.call run = q.call run') :
    Option.Rel (Agree S moved p (scope ++ node.results) (scope' ++ node.results))
    (S.runOp p run node env) (S.runOp q run' node env') := by
  unfold Semantics.runOp
  rw [mapM_congr_env fun v hv ↦ h.common v (hoperands v hv).1 (hoperands v hv).2]
  cases node.operands.mapM env' with
  | none => exact .none
  | some inputs =>
    have houtcome : S.outcome (fun r ↦ run r env) (p.call run) node inputs =
        S.outcome (fun r ↦ run' r env') (q.call run') node inputs :=
        S.outcome_congr hregions hcall inputs
    rw [bind_some, bind_some, houtcome]
    cases S.outcome (fun r ↦ run' r env') (q.call run') node inputs with
    | none => exact .none
    | some outputs => exact h.bind_both hfresh hothers outputs

lemma Agree.runOp_moved (hp : p.Consistent) (ho : moved o) (hnode : p.op? o = some node)
    (hform : node.form = .plain) (hoperands : ∀ v ∈ node.operands, v ∈ scope)
    (hfresh : ∀ v ∈ node.results, v ∉ scope) (s : Program) (run : Runner α) :
    ∃ next, S.runOp s run node env = some next ∧
    Agree S moved p (scope ++ node.results) scope' next env' := by
  obtain ⟨inputs, hinputs⟩ := h.known.mapM hoperands
  have hlength : node.results.length = (S.plainResults node inputs).length := by
    rw [Semantics.plainResults, length_map, length_range]
  obtain ⟨next, hnext⟩ := env.isSome_bind hlength
  refine ⟨next, ?_, h.run_moved hp ho hnode hoperands hfresh hinputs hnext⟩
  rw [Semantics.runOp, hinputs, bind_some, Semantics.outcome]
  simp only [hform, bind_some, hnext]

end Agree

/-! ### Corresponding runs -/

section

variable (S : Semantics α) (moved : OpId → Prop) (p q : Program)

def Facing (l l' : List OpId) (env env' : Env α) : Prop :=
  ∃ scope scope', (∃ avoid level, Closed p avoid level scope l) ∧
    (∃ avoid level, Closed q avoid level scope' l') ∧ Agree S moved p scope scope' env env'

def Entering (r : RegionId) (env env' : Env α) : Prop :=
  ∃ scope scope', (∃ avoid level, Closed p avoid level (scope ++ p.argsOf r) (p.opsIn r)) ∧
    (∃ avoid level, Closed q avoid level (scope' ++ p.argsOf r) (q.opsIn r)) ∧
    (∀ v ∈ p.argsOf r, v ∉ scope ∧ v ∉ scope') ∧ Agree S moved p scope scope' env env'

end

def SameEnd (moved : OpId → Prop) (p : Program) (ended ended' : Env α × List α) : Prop :=
  ended.2 = ended'.2 ∧ ∀ v, (∀ o, moved o → v ∉ p.resultsOf o) → ended.1 v = ended'.1 v

def RegionsAlike (S : Semantics α) (moved : OpId → Prop) (p q : Program) (depth : Nat) : Prop :=
  ∀ r env env', Entering S moved p q r env env' → ∀ args,
    Option.Rel (SameEnd moved p) (S.runRegion p depth r env args) (S.runRegion q depth r env' args)

lemma RegionsAlike.outputs (hdepth : RegionsAlike S moved p q depth)
    (hr : Entering S moved p q r env env') :
    S.outputs p depth r env = S.outputs q depth r env' := by
  funext args
  unfold Semantics.outputs
  have hsame := hdepth r env env' hr args
  generalize S.runRegion p depth r env args = ended, S.runRegion q depth r env' args =
    ended' at hsame
  cases hsame with
  | some hends => exact congrArg some hends.1
  | none => rfl

section Lists

variable {moved : OpId → Prop} {p q : Program} (h : Relocates moved p q) (hp : p.Consistent)

include h

lemma Relocates.not_moved (hr : r ∈ p.regionsOf o) : ¬ moved o := by
  intro ho
  obtain ⟨node, hnode, hmem⟩ := exists_op_of_mem_regionsOf hr
  rw [Operation.regions, (h.plain o ho node hnode).1] at hmem
  cases hmem

include hp

lemma Relocates.run_left (ho : moved o) (hfacing : Facing S moved p q (o :: l) l' env env')
    (run : Runner α) : ∃ node next, p.op? o = some node ∧ node.isTerminator = false ∧
    S.runOp p run node env = some next ∧ Facing S moved p q l l' next env' := by
  obtain ⟨scope, scope', ⟨avoid, level, hclosed⟩, hclosed', hagree⟩ := hfacing
  cases hclosed with
  | cons _ hlive hoperands hresults _ _ hrest =>
  obtain ⟨node, hnode⟩ := isSome_iff_exists.mp hlive
  obtain ⟨hform, hend⟩ := h.plain o ho node hnode
  rw [operandsOf_eq hnode] at hoperands
  rw [resultsOf_eq hnode] at hresults hrest
  obtain ⟨next, hnext, hagree'⟩ := hagree.runOp_moved hp ho hnode hform hoperands hresults p run
  exact ⟨node, next, hnode, hend, hnext, _, _, ⟨_, _, hrest⟩, hclosed', hagree'⟩

lemma Relocates.run_right (ho : moved o) (hfacing : Facing S moved p q l (o :: l') env env')
    (run : Runner α) : ∃ node next, q.op? o = some node ∧ node.isTerminator = false ∧
    S.runOp q run node env' = some next ∧ Facing S moved p q l l' env next := by
  obtain ⟨scope, scope', hclosed, ⟨avoid, level, hclosed'⟩, hagree⟩ := hfacing
  cases hclosed' with
  | cons _ hlive hoperands hresults _ _ hrest =>
  obtain ⟨node', hnode'⟩ := isSome_iff_exists.mp hlive
  obtain ⟨home, hnode⟩ := h.same.symm.op?_eq hnode'
  obtain ⟨hform, hend⟩ := h.plain o ho _ hnode
  rw [operandsOf_eq hnode'] at hoperands
  rw [resultsOf_eq hnode'] at hresults hrest
  obtain ⟨next, hnext, hagree'⟩ :=
    hagree.symm.runOp_moved hp ho hnode hform hoperands hresults q run
  exact ⟨node', next, hnode', hend, hnext, _, _, hclosed, ⟨_, _, hrest⟩, hagree'.symm⟩

variable {depth : Nat} (hdepth : RegionsAlike S moved p q depth)
  (hcall : p.call (S.outputs p depth) = q.call (S.outputs q depth))

include hdepth hcall

lemma Relocates.run_both (ho : ¬ moved o)
    (hfacing : Facing S moved p q (o :: l) (o :: l') env env') : ∃ node node', p.op? o = some node ∧
      q.op? o = some node' ∧ node'.isTerminator = node.isTerminator ∧
      node'.operands.mapM env' = node.operands.mapM env ∧
      (∀ r ∈ node.regions, Entering S moved p q r env env') ∧ Option.Rel (Facing S moved p q l l')
      (S.runOp p (S.outputs p depth) node env) (S.runOp q (S.outputs q depth) node' env') := by
  obtain ⟨scope, scope', ⟨avoid, level, hclosed⟩, ⟨avoid', level', hclosed'⟩, hagree⟩ := hfacing
  cases hclosed with
  | cons _ hlive hoperands hresults hargs hinner hrest =>
  cases hclosed' with
  | cons _ _ hoperands' hresults' hargs' hinner' hrest' =>
  obtain ⟨node, hnode⟩ := isSome_iff_exists.mp hlive
  obtain ⟨home, hnode'⟩ := h.same.op?_eq hnode
  rw [operandsOf_eq hnode] at hoperands
  rw [resultsOf_eq hnode] at hresults hrest
  rw [regionsOf_eq hnode] at hargs hinner
  rw [operandsOf_eq hnode'] at hoperands'
  rw [resultsOf_eq hnode'] at hresults' hrest'
  rw [regionsOf_eq hnode'] at hargs' hinner'
  have henter : ∀ r ∈ node.regions, Entering S moved p q r env env' := by
    intro r hr
    refine ⟨scope, scope', ⟨_, _, hinner r hr⟩, ⟨_, _, h.same.argsOf r ▸ hinner' r hr⟩,
      fun v hv ↦ ?_, hagree⟩
    exact ⟨hargs r hr v hv, hargs' r hr v ((h.same.argsOf r).symm ▸ hv)⟩
  have hothers : ∀ x, moved x → ∀ v ∈ p.resultsOf x, v ∉ node.results := by
    intro x hx v hv hmem
    apply ho
    rwa [hp.eq_of_mem_resultsOf hv (resultsOf_eq hnode ▸ hmem)] at hx
  have hstep := hagree.runOp (fun v hv ↦ ⟨hoperands v hv, hoperands' v hv⟩)
    (fun v hv ↦ ⟨hresults v hv, hresults' v hv⟩) hothers
    (fun r hr ↦ hdepth.outputs (henter r hr)) hcall
  refine ⟨node, _, hnode, hnode', rfl, ?_, henter, rel_mono hstep fun next next' hnext ↦ ?_⟩
  · exact mapM_congr_env fun v hv ↦ (hagree.common v (hoperands v hv) (hoperands' v hv)).symm
  · exact ⟨_, _, ⟨_, _, hrest⟩, ⟨_, _, hrest'⟩, hnext⟩

lemma Relocates.runOps (hlists : Interleaved moved l l')
    (hfacing : Facing S moved p q l l' env env') :
    Option.Rel (SameEnd moved p) (S.runOps p (S.outputs p depth) l env)
    (S.runOps q (S.outputs q depth) l' env') := by
  induction hlists generalizing env env' with
  | nil =>
    obtain ⟨_, _, _, _, hagree⟩ := hfacing
    exact .some ⟨rfl, hagree.others⟩
  | left ho _ ih =>
    obtain ⟨node, next, hnode, hend, hnext, hrest⟩ := h.run_left hp ho hfacing (S.outputs p depth)
    rw [S.runOps_cons hnode, hend, if_neg Bool.false_ne_true, hnext]
    exact ih hrest
  | right ho _ ih =>
    obtain ⟨node, next, hnode, hend, hnext, hrest⟩ := h.run_right hp ho hfacing (S.outputs q depth)
    rw [S.runOps_cons hnode, hend, if_neg Bool.false_ne_true, hnext]
    exact ih hrest
  | both ho _ ih =>
    obtain ⟨node, node', hnode, hnode', hends, hinputs, -, hstep⟩ :=
      h.run_both hp hdepth hcall ho hfacing
    obtain ⟨_, _, _, _, hagree⟩ := hfacing
    rw [S.runOps_cons hnode, S.runOps_cons hnode', hends]
    by_cases hend : node.isTerminator = true
    · rw [if_pos hend, if_pos hend, hinputs]
      cases node.operands.mapM env with
      | none => exact .none
      | some outputs => exact .some ⟨rfl, hagree.others⟩
    · rw [if_neg hend, if_neg hend]
      exact rel_bind hstep fun _ _ hrest ↦ ih hrest

lemma Relocates.runBefore (hstop : ¬ moved stop) (hlists : Interleaved moved l l')
    (hfacing : Facing S moved p q l l' env env') :
    Option.Rel (fun here here' ↦ ∀ r ∈ p.regionsOf stop, Entering S moved p q r here here')
    (S.runBefore p (S.outputs p depth) stop l env)
    (S.runBefore q (S.outputs q depth) stop l' env') := by
  have hother : ∀ {o}, moved o → o ≠ stop := by
    rintro o ho rfl
    exact hstop ho
  induction hlists generalizing env env' with
  | nil => exact .none
  | left ho _ ih =>
    obtain ⟨node, next, hnode, hend, hnext, hrest⟩ := h.run_left hp ho hfacing (S.outputs p depth)
    rw [S.runBefore_cons hnode _ (hother ho), hend, if_neg Bool.false_ne_true, hnext]
    exact ih hrest
  | right ho _ ih =>
    obtain ⟨node, next, hnode, hend, hnext, hrest⟩ := h.run_right hp ho hfacing (S.outputs q depth)
    rw [S.runBefore_cons hnode _ (hother ho), hend, if_neg Bool.false_ne_true, hnext]
    exact ih hrest
  | @both o l l' ho _ ih =>
    obtain ⟨node, node', hnode, hnode', hends, -, henter, hstep⟩ :=
      h.run_both hp hdepth hcall ho hfacing
    by_cases heq : o = stop
    · subst heq
      rw [Semantics.runBefore, Semantics.runBefore, if_pos rfl, if_pos rfl, regionsOf_eq hnode]
      exact .some henter
    · rw [S.runBefore_cons hnode _ heq, S.runBefore_cons hnode' _ heq, hends]
      by_cases hend : node.isTerminator = true
      · rw [if_pos hend, if_pos hend]
        exact .none
      · rw [if_neg hend, if_neg hend]
        exact rel_bind hstep fun _ _ hrest ↦ ih hrest

end Lists

/-! ### Whole runs -/

section Roots

variable {moved : OpId → Prop} {p q : Program} (h : Relocates moved p q) (hp : p.Consistent)

lemma Entering.bind (hr : Entering S moved p q r env env') (hp : p.Consistent) (args : List α) :
    Option.Rel (Facing S moved p q (p.opsIn r) (q.opsIn r)) (env.bind (p.argsOf r) args)
    (env'.bind (p.argsOf r) args) := by
  obtain ⟨scope, scope', hclosed, hclosed', hfresh, hagree⟩ := hr
  have hbind := hagree.bind_both hfresh (fun o _ v hv ↦ hp.not_mem_argsOf hv) args
  exact rel_mono hbind fun next next' hnext ↦ ⟨_, _, hclosed, hclosed', hnext⟩

variable (hroots : ClosedRoots p) (hroots' : ClosedRoots q)

include h hroots hroots'

lemma Relocates.entering_root (hr : r ∈ p.roots) : Entering S moved p q r .empty .empty := by
  have hr' : r ∈ q.roots := h.same.roots ▸ hr
  have hclosed' := hroots' r hr'
  rw [h.same.argsOf r] at hclosed'
  refine ⟨[], [], ⟨_, _, hroots r hr⟩, ⟨_, _, hclosed'⟩, fun v _ ↦ ⟨not_mem_nil, not_mem_nil⟩, ?_⟩
  have hknown : Env.Known [] (Env.empty : Env α) := fun v hv ↦ absurd hv not_mem_nil
  have hcoherent : Coherent S moved p [] .empty := fun _ _ _ _ _ v _ hv ↦ absurd hv not_mem_nil
  exact ⟨hknown, hknown, fun _ _ ↦ rfl, fun _ _ _ ↦ rfl, hcoherent, hcoherent⟩

lemma Relocates.call (hdepth : RegionsAlike S moved p q depth) :
    p.call (S.outputs p depth) = q.call (S.outputs q depth) := by
  funext name args
  unfold Program.call Program.func?
  rw [h.same.funcs]
  cases hfunc : p.funcs.find? (·.name == name) with
  | none => rfl
  | some func =>
    have hroot : Entering S moved p q func.body .empty .empty :=
      h.entering_root hroots hroots' (RegionForm.body_mem_roots hfunc)
    exact congrFun (hdepth.outputs hroot) args

include hp

lemma Relocates.regionsAlike (depth : Nat) : RegionsAlike S moved p q depth := by
  induction depth with
  | zero => exact fun _ _ _ _ _ ↦ .none
  | succ depth ih =>
    intro r env env' hr args
    rw [S.runRegion_succ, S.runRegion_succ, h.same.argsOf r]
    refine rel_bind (hr.bind hp args) fun next next' hfacing ↦ ?_
    exact h.runOps hp ih (h.call hroots hroots' ih) (h.order r) hfacing

lemma Relocates.runAlong (path : List (Entry α))
    (hr : Entering S moved p q r env env') (args : List α) :
    Option.Rel (SameEnd moved p) (S.runAlong p depth r env args path)
    (S.runAlong q depth r env' args path) := by
  induction path generalizing depth r env env' args with
  | nil =>
    rw [Semantics.runAlong, Semantics.runAlong]
    exact h.regionsAlike hp hroots hroots' depth r env env' hr args
  | cons entry path ih =>
    cases depth with
    | zero => exact .none
    | succ depth =>
      have hdepth := h.regionsAlike (S := S) hp hroots hroots' depth
      have hcall := h.call hroots hroots' hdepth
      rw [Semantics.runAlong, Semantics.runAlong, h.same.argsOf r, h.same.regionsOf entry.op]
      by_cases hregion : entry.region ∈ p.regionsOf entry.op
      · rw [if_pos hregion, if_pos hregion]
        have hbefore := rel_bind (hr.bind hp args) fun next next' hfacing ↦
          h.runBefore hp hdepth hcall (h.not_moved hregion) (h.order r) hfacing
        exact rel_bind hbefore fun here here' henter ↦ ih (henter entry.region hregion) entry.args
      · rw [if_neg hregion, if_neg hregion]
        exact .none

end Roots

end Program

end TensorGraph
