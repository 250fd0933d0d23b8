import Mathlib.Data.List.Forall2
import TensorGraph.Proofs.Views

/-!
What programs compute. An interpretation says what an operation gives for the values of its
operands, which branch a selector takes, and when a loop goes on.
-/

namespace TensorGraph

open List Option

variable {node node' : Operation} {v : ValueId}

variable {α : Type}

/-- How operations act on a domain of values. -/
structure Interpretation (α : Type) where
  /-- The results of an operation that runs nothing, from its kind, its attributes, the functions it
  names and the values of its operands. -/
  apply : String → AttributeSet → List FuncRef → List α → Option (List α)
  /-- Which of so many branches a selector takes, in an operation that becomes one of the given kind
  when its branches are regions. -/
  select : String → Nat → α → Nat
  /-- Whether a loop goes on after its condition gave a value. -/
  goesOn : α → Bool

/-- Integers, which are counted down or tested, and a source of two of them. -/
def Interpretation.integers : Interpretation Int where
  apply kind _ _ inputs :=
    if kind = "source" then some [1, 2]
    else if kind = "decrement" then some (inputs.map (· - 1))
    else some (inputs.map fun a ↦ if 0 < a then 1 else 0)
  select _ _ a := a.toNat
  goesOn a := a == 1

lemma rel_bind {β γ δ ε : Type} {R : β → γ → Prop} {T : δ → ε → Prop} {a : Option β} {b : Option γ}
    {f : β → Option δ} {g : γ → Option ε} (h : Option.Rel R a b)
    (hnext : ∀ x y, R x y → Option.Rel T (f x) (g y)) : Option.Rel T (a.bind f) (b.bind g) := by
  cases h with
  | some hxy => exact hnext _ _ hxy
  | none => exact .none

/-! ### Environments -/

/-- The values that are known. -/
abbrev Env (α : Type) := ValueId → Option α

namespace Env

def empty : Env α := fun _ ↦ none

/-- Gives values to as many names. -/
def bind (env : Env α) (names : List ValueId) (values : List α) : Option (Env α) :=
  if names.length = values.length then some fun v ↦ ((names.zip values).lookup v).or (env v)
  else none

end Env

/-! ### Parts -/

/-- From inputs to outputs, if there are any. -/
abbrev Run (α : Type) := List α → Option (List α)

/-- How regions run, from what is known around them and their arguments. -/
abbrev Runner (α : Type) := RegionId → Env α → Run α

/-- The ways in which an operation runs its parts. -/
inductive Manner where
  /-- The first operand selects the part to be run, as it does for the given kind with regions. -/
  | branch (kind : String)
  /-- The operands go around as long as the first part says so, changed by the second one. -/
  | loop
  deriving DecidableEq, Repr

/-- How an operation of the kind runs functions, and the roles in which it names them. -/
def functionalManner (kind : String) : Option (Manner × List String) :=
  if kind = "If" ∨ kind = "StatelessIf" then
    some (.branch "IfRegion", ["then_branch", "else_branch"])
  else if kind = "Case" ∨ kind = "StatelessCase" then
    some (.branch "CaseRegion", ["branches"])
  else if kind = "While" ∨ kind = "StatelessWhile" then some (.loop, ["cond", "body"])
  else none

/-- How an operation of the kind runs its regions. -/
def regionManner (kind : String) : Option Manner :=
  if kind = "IfRegion" ∨ kind = "CaseRegion" then some (.branch kind)
  else if kind = "WhileRegion" then some .loop
  else none

/-- The functions that an operation runs, role by role. -/
def Operation.calls (node : Operation) : Option (Manner × List String) :=
  if node.funcRefs = [] then none
  else (functionalManner node.kind).map fun (manner, roles) ↦
    (manner, roles.flatMap fun role ↦ (node.funcRefs.filter (·.role == role)).map (·.func))

namespace Interpretation

variable (I : Interpretation α)

/-- Runs the body as long as the condition, which gives one value, says so. -/
def iterate (cond body : Run α) : Nat → List α → Option (List α)
  | 0, _ => none
  | rounds + 1, carried => do
    match ← cond carried with
    | [c] => if I.goesOn c then iterate cond body rounds (← body carried) else some carried
    | _ => none

/-- Runs parts on the values of the operands; a branch is handed some values of its own. -/
def runParts (rounds : Nat) (manner : Manner) (parts : List (Run α))
    (handed inputs : List α) : Option (List α) :=
  match manner, inputs with
  | .branch _, [] => none
  | .branch kind, selector :: _ => do (← parts[I.select kind parts.length selector]?) handed
  | .loop, carried =>
    match parts with
    | [cond, body] => I.iterate cond body rounds carried
    | _ => none

/-- What an operation gives, when regions and functions are run in the given ways. -/
def outcome (rounds : Nat) (inside : RegionId → Run α)
    (call : String → Run α) (node : Operation) (inputs : List α) : Option (List α) :=
  match node.regions with
  | [] =>
    match node.calls with
    | none => I.apply node.kind node.attrs node.funcRefs inputs
    | some (manner, names) => I.runParts rounds manner (names.map call) inputs.tail inputs
  | regions =>
    match regionManner node.kind with
    | none => none
    | some manner => I.runParts rounds manner (regions.map inside) [] inputs

end Interpretation

/-! ### Operations and regions -/

namespace Program

variable (p : Program) (I : Interpretation α)

/-- Runs a function on arguments, when regions are run in the given way. -/
def call (run : Runner α) (name : String) (args : List α) : Option (List α) :=
  match p.func? name with
  | none => none
  | some func => run func.body .empty args

/-- Runs an operation that is no terminator. -/
def evalOp (rounds : Nat) (run : Runner α) (node : Operation) (env : Env α) : Option (Env α) := do
  let inputs ← node.operands.mapM env
  let outputs ← I.outcome rounds (fun r ↦ run r env) (p.call run) node inputs
  env.bind node.results outputs

/-- Runs operations in order, up to the first terminator. -/
def evalOps (rounds : Nat) (run : Runner α) : List OpId → Env α → Option (Env α × List α)
  | [], env => some (env, [])
  | o :: rest, env =>
    match p.op? o with
    | none => none
    | some node =>
      if node.isTerminator then (node.operands.mapM env).map fun outputs ↦ (env, outputs)
      else (p.evalOp I rounds run node env).bind (evalOps rounds run rest)

/-- Runs a region on arguments among the values around it; gives the values known at its end and its
outputs. -/
def evalRegion : Nat → RegionId → Env α → List α → Option (Env α × List α)
  | 0, _, _, _ => none
  | depth + 1, r, env, args =>
    (env.bind (p.argsOf r) args).bind
      (p.evalOps I depth (fun r env args ↦ (evalRegion depth r env args).map (·.2)) (p.opsIn r))

/-- The outputs of a region. -/
def outputsOf (depth : Nat) (r : RegionId) (env : Env α) (args : List α) : Option (List α) :=
  (p.evalRegion I depth r env args).map (·.2)

/-- Run on the arguments, the region has the given values at its end and gives the outputs. -/
def Evaluates (r : RegionId) (args : List α) (env : Env α) (outputs : List α) : Prop :=
  ∃ depth, p.evalRegion I depth r .empty args = some (env, outputs)

end Program

/-! ### Environments that match -/

lemma lookup_zip {names : List ValueId} {values : List α} (h : names.length = values.length)
    (v : ValueId) :
    (names.zip values).lookup v = if v ∈ names then values[names.idxOf v]? else none := by
  induction names generalizing values with
  | nil => rfl
  | cons name names ih =>
    cases values with
    | nil => cases h
    | cons value values =>
      rw [zip_cons_cons, lookup_cons, idxOf_cons]
      by_cases hv : v = name
      · simp [hv]
      · have hbeq : (v == name) = false := by simpa using hv
        have hbeq' : (name == v) = false := by simpa using Ne.symm hv
        simp [hbeq, hbeq', hv, ih (Nat.succ.inj h)]

namespace Env

variable {env env' : Env α} {names : List ValueId} {values : List α}

lemma bind_eq_some : env.bind names values = some env' ↔ names.length = values.length ∧
    ∀ v, env' v = if v ∈ names then values[names.idxOf v]? else env v := by
  unfold bind
  split_ifs with hlength
  · have hlookup : ∀ v, ((names.zip values).lookup v).or (env v) =
        if v ∈ names then values[names.idxOf v]? else env v := by
      intro v
      rw [lookup_zip hlength]
      split_ifs with hv
      · have hlt : names.idxOf v < values.length := hlength ▸ idxOf_lt_length_of_mem hv
        rw [getElem?_eq_getElem hlt, some_or]
      · rfl
    rw [some.injEq]
    constructor
    · rintro rfl
      exact ⟨hlength, hlookup⟩
    · rintro ⟨-, hall⟩
      exact funext fun v ↦ (hlookup v).trans (hall v).symm
  · simp [hlength]

lemma bind_of_not_mem (h : env.bind names values = some env') (hv : v ∉ names) :
    env' v = env v := by
  rw [(bind_eq_some.mp h).2, if_neg hv]

lemma bind_of_getElem? (h : env.bind names values = some env') (hnodup : names.Nodup) {i : Nat}
    (hv : names[i]? = some v) : env' v = values[i]? := by
  obtain ⟨hlt, rfl⟩ := List.getElem?_eq_some_iff.mp hv
  rw [(bind_eq_some.mp h).2, if_pos (getElem_mem hlt), hnodup.idxOf_getElem]

lemma isSome_bind (env : Env α) (h : names.length = values.length) :
    ∃ env', env.bind names values = some env' := by
  unfold bind
  rw [if_pos h]
  exact ⟨_, rfl⟩

lemma bind_eq_none (env : Env α) (h : names.length ≠ values.length) :
    env.bind names values = none := by
  unfold bind
  rw [if_neg h]

lemma both_bind (env env' : Env α) {names' : List ValueId} {values' : List α}
    {R : Env α → Env α → Prop}
    (hlengths : names.length = values.length ↔ names'.length = values'.length)
    (h : ∀ {next next'}, env.bind names values = some next → env'.bind names' values' = some next' →
    R next next') : Option.Rel R (env.bind names values) (env'.bind names' values') := by
  by_cases hlength : names.length = values.length
  · obtain ⟨next, hnext⟩ := env.isSome_bind hlength
    obtain ⟨next', hnext'⟩ := env'.isSome_bind (hlengths.mp hlength)
    rw [hnext, hnext']
    exact .some (h hnext hnext')
  · rw [env.bind_eq_none hlength, env'.bind_eq_none fun heq ↦ hlength (hlengths.mpr heq)]
    exact .none

def Matches (scope : List ValueId) (f : ValueId → ValueId) (env env' : Env α) : Prop :=
  ∀ v ∈ scope, ∃ a, env v = some a ∧ env' (f v) = some a

namespace Matches

variable {scope : List ValueId} {f g : ValueId → ValueId}

lemma empty (f : ValueId → ValueId) (env env' : Env α) : Matches [] f env env' := by
  simp [Matches]

lemma mapM (h : Matches scope f env env')
    {operands : List ValueId} (hscope : ∀ v ∈ operands, v ∈ scope) :
    ∃ inputs, operands.mapM env = some inputs ∧ (operands.map f).mapM env' = some inputs := by
  induction operands with
  | nil => exact ⟨[], rfl, rfl⟩
  | cons v rest ih =>
    rw [forall_mem_cons] at hscope
    obtain ⟨a, ha, ha'⟩ := h v hscope.1
    obtain ⟨inputs, hin, hin'⟩ := ih hscope.2
    refine ⟨a :: inputs, ?_, ?_⟩
    · rw [mapM_cons, ha, hin]
      rfl
    · rw [map_cons, mapM_cons, ha', hin']
      rfl

/-- Environments still match after names have been given the same values, if the new ones are
distinct and stand for nothing else. -/
theorem bind (h : Matches scope f env env') (hsame : ∀ v ∈ scope, g v = f v)
    (hnodup : (names.map g).Nodup) (hfresh : ∀ v ∈ scope, f v ∉ names.map g)
    {next next' : Env α} (hnext : env.bind names values = some next)
    (hnext' : env'.bind (names.map g) values = some next') :
    Matches (scope ++ names) g next next' := by
  have hlength := (bind_eq_some.mp hnext).1
  intro v hv
  by_cases hmem : v ∈ names
  · obtain ⟨i, hi⟩ := mem_iff_getElem?.mp hmem
    have hlt : i < values.length := hlength ▸ (List.getElem?_eq_some_iff.mp hi).1
    have hi' : (names.map g)[i]? = some (g v) := by rw [getElem?_map, hi]; rfl
    refine ⟨values[i], ?_, ?_⟩
    · rw [bind_of_getElem? hnext hnodup.of_map hi, getElem?_eq_getElem hlt]
    · rw [bind_of_getElem? hnext' hnodup hi', getElem?_eq_getElem hlt]
  · have hscope := (mem_append.mp hv).resolve_right hmem
    obtain ⟨a, ha, ha'⟩ := h v hscope
    refine ⟨a, ?_, ?_⟩
    · rw [bind_of_not_mem hnext hmem, ha]
    · rw [hsame v hscope, bind_of_not_mem hnext' (hfresh v hscope), ha']

end Matches

end Env

/-! ### Operations that act alike -/

namespace Interpretation

variable (I : Interpretation α)

lemma outcome_congr (rounds : Nat) {inside inside' : RegionId → Run α}
    {call call' : String → Run α} (hkind : node'.kind = node.kind)
    (hattrs : node'.attrs = node.attrs) (hrefs : node'.funcRefs = node.funcRefs)
    (hregions : List.Forall₂ (fun r r' ↦ inside' r' = inside r) node.regions node'.regions)
    (hcall : call' = call) (inputs : List α) : I.outcome rounds inside' call' node' inputs =
    I.outcome rounds inside call node inputs := by
  have hcalls : node'.calls = node.calls := by rw [Operation.calls, hrefs, hkind, Operation.calls]
  have hparts : node'.regions.map inside' = node.regions.map inside := by
    have hflip := hregions.flip
    rw [← forall₂_eq_eq_eq, forall₂_map_left_iff, forall₂_map_right_iff]
    exact hflip
  unfold outcome
  generalize node.regions = regions at hregions hparts
  generalize node'.regions = regions' at hregions hparts
  cases hregions with
  | nil => simp only [hcalls, hkind, hattrs, hrefs, hcall]
  | cons hhead htail => simp only [hkind, hparts]

end Interpretation

namespace Program

variable {p q : Program} {I : Interpretation α}

lemma evalRegion_succ (p : Program) (I : Interpretation α) (depth : Nat) (r : RegionId)
    (env : Env α) (args : List α) : p.evalRegion I (depth + 1) r env args =
    (env.bind (p.argsOf r) args).bind (p.evalOps I depth (p.outputsOf I depth) (p.opsIn r)) := rfl

lemma evalOps_cons {o : OpId} (ho : p.op? o = some node) (I : Interpretation α) (rounds : Nat)
    (run : Runner α) (rest : List OpId) (env : Env α) :
    p.evalOps I rounds run (o :: rest) env = if node.isTerminator then (node.operands.mapM env).map
      fun outputs ↦
      (env, outputs) else (p.evalOp I rounds run node env).bind (p.evalOps I rounds run rest) := by
  rw [evalOps, ho]

lemma evalOp_matches {rounds : Nat} {run run' : Runner α} {scope : List ValueId}
    {f g : ValueId → ValueId} {env env' : Env α} (h : Env.Matches scope f env env')
    (hscope : ∀ v ∈ node.operands, v ∈ scope) (hoperands : node'.operands = node.operands.map f)
    (hsame : ∀ v ∈ scope, g v = f v) (hresults : node'.results = node.results.map g)
    (hnodup : node'.results.Nodup) (hfresh : ∀ v ∈ scope, f v ∉ node'.results)
    (houtcome : ∀ inputs, I.outcome rounds (fun r ↦ run' r env')
    (q.call run') node' inputs = I.outcome rounds (fun r ↦ run r env) (p.call run) node inputs) :
    (p.evalOp I rounds run node env = none ∧ q.evalOp I rounds run' node' env' = none) ∨
      ∃ next next', p.evalOp I rounds run node env = some next ∧
      q.evalOp I rounds run' node' env' = some next' ∧
      Env.Matches (scope ++ node.results) g next next' := by
  obtain ⟨inputs, hin, hin'⟩ := h.mapM hscope
  unfold evalOp
  simp only [hin, hoperands, hin', bind_eq_bind, bind_some, houtcome]
  cases I.outcome rounds (fun r ↦ run r env) (p.call run) node inputs with
  | none => exact .inl ⟨rfl, rfl⟩
  | some outputs =>
    rw [hresults] at hnodup hfresh ⊢
    simp only [bind_some]
    by_cases hlength : node.results.length = outputs.length
    · obtain ⟨next, hnext⟩ := env.isSome_bind hlength
      have hlength' : (node.results.map g).length = outputs.length := by rw [length_map, hlength]
      obtain ⟨next', hnext'⟩ := env'.isSome_bind hlength'
      exact .inr ⟨next, next', hnext, hnext', h.bind hsame hnodup hfresh hnext hnext'⟩
    · refine .inl ⟨env.bind_eq_none hlength, env'.bind_eq_none ?_⟩
      rwa [length_map]

end Program

end TensorGraph
