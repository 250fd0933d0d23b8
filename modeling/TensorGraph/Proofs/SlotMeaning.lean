import TensorGraph.Proofs.Inlining
import TensorGraph.Proofs.SlotRemoval

/-!
Slots that hold one value. If the body of a loop hands the argument of a slot on as it is, the slot
holds in every round what its operand had before the loop, and so has the result.
-/

namespace TensorGraph

open List Option

variable {x : OpId} {r : RegionId} {v : ValueId} {node : Operation} {avoid ops rest : List OpId}
    {scope operands : List ValueId} {depth level rounds : Nat}

variable {α : Type} {env next env' : Env α} {inputs carried outputs values args : List α}
  {I : Interpretation α}

lemma mapM_eraseIdx (h : operands.mapM env = some inputs) (index : Nat) :
    (operands.eraseIdx index).mapM env = some (inputs.eraseIdx index) := by
  induction operands generalizing inputs index with
  | nil =>
    cases h
    rfl
  | cons v rest ih =>
    obtain ⟨a, tail, rfl, ha, htail⟩ := mapM_cons_eq_some.mp h
    cases index with
    | zero => exact htail
    | succ index => exact mapM_cons_eq_some.mpr ⟨a, _, rfl, ha, ih htail index⟩

/-! ### Rounds -/

namespace Interpretation

lemma outcome_loop (I : Interpretation α) {inside : RegionId → Run α}
    {call : String → Run α} {cond body : RegionId}
    (hkind : node.kind = "WhileRegion") (hregions : node.regions = [cond, body]) (inputs : List α) :
    I.outcome rounds inside call node inputs = I.iterate (inside cond)
    (inside body) rounds inputs := by
  rw [outcome, hregions]
  simp [hkind, regionManner, runParts]

variable (I : Interpretation α) {cond body cond' body' : Run α} {index : Nat}
  (hkept : ∀ carried outputs, body carried = some outputs → outputs[index]? = carried[index]?)

include hkept

lemma getElem?_iterate (h : I.iterate cond body rounds carried = some outputs) : outputs[index]? =
    carried[index]? := by
  induction rounds generalizing carried with
  | zero => cases h
  | succ rounds ih =>
    simp only [iterate, bind_eq_bind, bind_eq_some_iff] at h
    obtain ⟨test, -, h⟩ := h
    split at h
    · split_ifs at h
      · obtain ⟨next, hnext, hrounds⟩ := bind_eq_some_iff.mp h
        rw [ih hrounds, hkept carried next hnext]
      · rw [some.inj h]
    · cases h

lemma iterate_eraseIdx {a : α}
    (hcond : ∀ carried, carried[index]? = some a → cond' (carried.eraseIdx index) = cond carried)
    (hbody : ∀ carried, carried[index]? = some a →
      body' (carried.eraseIdx index) = (body carried).map (·.eraseIdx index)) (rounds : Nat)
    (hcarried : carried[index]? = some a) : I.iterate cond' body' rounds (carried.eraseIdx index) =
      (I.iterate cond body rounds carried).map (·.eraseIdx index) := by
  induction rounds generalizing carried with
  | zero => rfl
  | succ rounds ih =>
    rw [iterate, iterate, hcond carried hcarried, hbody carried hcarried]
    rcases cond carried with _ | _ | ⟨c, _ | ⟨d, rest⟩⟩
    · rfl
    · rfl
    · simp only [bind_eq_bind, bind_some]
      split_ifs
      · rcases hnext : body carried with _ | next
        · rfl
        · exact ih ((hkept carried next hnext).trans hcarried)
      · rfl
    · rfl

end Interpretation

namespace LoopSlots

open Program

namespace Slot

/-! ### Environments side by side -/

def Gone (s : Slot) (v : ValueId) : Prop :=
  v = s.bodyArg ∨ v = s.condArg ∨ v = s.result

variable {s : Slot}

lemma value_of_gone (hv : s.Gone v) : s.value v = s.init :=
  if_pos hv

lemma value_of_not_gone (hv : ¬ s.Gone v) : s.value v = v :=
  if_neg hv

/-- All values in scope are known, the operand of the slot has the value of what goes with the slot,
and the second environment has all that stays. -/
structure Tracks (s : Slot) (scope : List ValueId) (env env' : Env α) : Prop where
  known : Env.Known scope env
  kept : ∀ v, ¬ s.Gone v → env' v = env v
  inScope : ∀ v ∈ scope, s.value v ∈ scope
  same : ∀ v ∈ scope, env (s.value v) = env v

namespace Tracks

lemma nil (s : Slot) (env : Env α) : s.Tracks [] env env :=
  ⟨.nil env, fun _ _ ↦ rfl, by simp, by simp⟩

variable {names : List ValueId} (h : s.Tracks scope env env')

include h

lemma mapM (hinit : ¬ s.Gone s.init) (hscope : ∀ v ∈ operands, v ∈ scope) :
    (operands.map s.value).mapM env' = operands.mapM env := by
  induction operands with
  | nil => rfl
  | cons v rest ih =>
    rw [forall_mem_cons] at hscope
    have hvalue : env' (s.value v) = env v := by
      rw [h.kept _ fun hgone ↦ value_ne hinit hgone v rfl, h.same v hscope.1]
    rw [map_cons, mapM_cons, mapM_cons, hvalue, ih hscope.2]

lemma extend {next' : Env α} (hfresh : ∀ v ∈ names, v ∉ scope)
    (hnext : env.bind names values = some next) (hkept : ∀ v, ¬ s.Gone v → next' v = next v)
    (hgone : ∀ v ∈ names, s.Gone v → s.init ∈ scope ∧ next v = env s.init) :
    s.Tracks (scope ++ names) next next' := by
  have hold : ∀ v ∈ scope, next v = env v :=
    fun v hv ↦ Env.bind_of_not_mem hnext fun hmem ↦ hfresh v hmem hv
  refine ⟨h.known.bind hnext, hkept, fun v hv ↦ ?_, fun v hv ↦ ?_⟩
  · rw [mem_append]
    rcases mem_append.mp hv with hv | hv
    · exact .inl (h.inScope v hv)
    · by_cases hv' : s.Gone v
      · rw [value_of_gone hv']
        exact .inl (hgone v hv hv').1
      · rw [value_of_not_gone hv']
        exact .inr hv
  · rcases mem_append.mp hv with hv | hv
    · rw [hold _ (h.inScope v hv), h.same v hv, hold v hv]
    · by_cases hv' : s.Gone v
      · obtain ⟨hinit, hvalue⟩ := hgone v hv hv'
        rw [value_of_gone hv', hold _ hinit, hvalue]
      · rw [value_of_not_gone hv']

lemma bind (hfresh : ∀ v ∈ names, v ∉ scope) (hplain : ∀ v ∈ names, ¬ s.Gone v) (values : List α) :
    Option.Rel (s.Tracks (scope ++ names)) (env.bind names values) (env'.bind names values) := by
  refine env.both_bind env' Iff.rfl fun hnext hnext' ↦ ?_
  refine h.extend hfresh hnext (fun v hv ↦ ?_) fun v hv hgone ↦ absurd hgone (hplain v hv)
  rw [(Env.bind_eq_some.mp hnext').2, (Env.bind_eq_some.mp hnext).2, h.kept v hv]

lemma bind_eraseIdx (hfresh : ∀ v ∈ names, v ∉ scope) (hnodup : names.Nodup)
    {index : Nat} {name : ValueId} (hname : names[index]? = some name)
    (hgone : ∀ v ∈ names, s.Gone v ↔ v = name) (hinit : s.init ∈ scope)
    (hvalue : values[index]? = env s.init) : Option.Rel (s.Tracks (scope ++ names))
    (env.bind names values) (env'.bind (names.eraseIdx index) (values.eraseIdx index)) := by
  obtain ⟨a, ha⟩ := isSome_iff_exists.mp (h.known s.init hinit)
  have hindex := (List.getElem?_eq_some_iff.mp hname).1
  have hindex' := (List.getElem?_eq_some_iff.mp (hvalue.trans ha)).1
  have hlengths : names.length = values.length ↔
      (names.eraseIdx index).length = (values.eraseIdx index).length := by
    rw [length_eraseIdx_of_lt hindex, length_eraseIdx_of_lt hindex']
    omega
  refine env.both_bind env' hlengths fun hnext hnext' ↦ ?_
  refine h.extend hfresh hnext (fun v hv ↦ ?_) fun v hv hv' ↦ ⟨hinit, ?_⟩
  · by_cases hmem : v ∈ names
    · obtain ⟨j, hj⟩ := mem_iff_getElem?.mp hmem
      have hne : j ≠ index := by
        rintro rfl
        exact hv ((hgone v hmem).mpr (some.inj (hj.symm.trans hname)))
      -- The place of the name, and of its value, when the entry has been taken out.
      obtain ⟨k, hk⟩ : ∃ k, ∀ {β : Type} (l : List β), (l.eraseIdx index)[k]? = l[j]? := by
        rcases Nat.lt_or_gt_of_ne hne with hlt | hgt
        · exact ⟨j, fun l ↦ getElem?_eraseIdx_of_lt hlt⟩
        · obtain ⟨k, rfl⟩ := Nat.exists_eq_add_of_lt hgt
          exact ⟨index + k, fun l ↦ getElem?_eraseIdx_of_ge (Nat.le_add_right _ _)⟩
      rw [Env.bind_of_getElem? hnext hnodup hj,
        Env.bind_of_getElem? hnext' (hnodup.sublist (eraseIdx_sublist ..))
        ((hk names).trans hj), hk values]
    · have hmem' : v ∉ names.eraseIdx index := fun hin ↦ hmem (mem_of_mem_eraseIdx hin)
      rw [Env.bind_of_not_mem hnext hmem, Env.bind_of_not_mem hnext' hmem', h.kept v hv]
  · obtain rfl := (hgone v hv).mp hv'
    rw [Env.bind_of_getElem? hnext hnodup hname, hvalue]

end Tracks

/-! ### Slots whose value is handed on -/

/-- A slot of a loop whose value the body hands on. -/
structure Passthrough (s : Slot) (p : Program) : Prop where
  lies : s.LiesIn p
  kind : ∃ node, p.op? s.op = some node ∧ node.kind = "WhileRegion"
  handed : (p.operandsOf s.last)[s.index]? = some s.bodyArg

section Passthrough

variable {p : Program} (h : WellOrdered p) (ho : s.op ∈ p.allOps) (hs : s.Passthrough p)

include hs

lemma Passthrough.isEnd : p.isEnd s.op = false := by
  obtain ⟨node, hnode, hkind⟩ := hs.kind
  exact isEnd_of_kind hnode hkind

lemma Passthrough.op_ne_last : s.op ≠ s.last :=
  hs.lies.op_ne_last hs.isEnd

include h

lemma Passthrough.gone_result_iff (hv : v ∈ p.resultsOf x) : s.Gone v ↔ v = s.result := by
  refine ⟨?_, fun heq ↦ .inr (.inr heq)⟩
  rintro (rfl | rfl | rfl)
  · exact absurd (mem_of_getElem? hs.lies.bodyArg) (h.consistent.not_mem_argsOf hv)
  · exact absurd (mem_of_getElem? hs.lies.condArg) (h.consistent.not_mem_argsOf hv)
  · rfl

lemma Passthrough.not_gone_result (hx : x ≠ s.op) (hv : v ∈ p.resultsOf x) : ¬ s.Gone v := by
  rw [hs.gone_result_iff h hv]
  rintro rfl
  exact hx (h.consistent.eq_of_mem_resultsOf hv (mem_of_getElem? hs.lies.result))

lemma Passthrough.gone_arg_iff (hv : v ∈ p.argsOf r) :
    s.Gone v ↔ r = s.body ∧ v = s.bodyArg ∨ r = s.cond ∧ v = s.condArg := by
  constructor
  · rintro (rfl | rfl | rfl)
    · exact .inl ⟨h.consistent.eq_of_mem_argsOf hv (mem_of_getElem? hs.lies.bodyArg), rfl⟩
    · exact .inr ⟨h.consistent.eq_of_mem_argsOf hv (mem_of_getElem? hs.lies.condArg), rfl⟩
    · exact absurd hv (h.consistent.not_mem_argsOf (mem_of_getElem? hs.lies.result))
  · rintro (⟨-, rfl⟩ | ⟨-, rfl⟩)
    · exact .inl rfl
    · exact .inr (.inl rfl)

include ho

lemma Passthrough.attached_body : p.Attached s.body := by
  obtain ⟨home, hhome, hparent⟩ := (mem_allOps h.consistent).mp ho
  exact hhome.nested (h.consistent.mem_opsIn.mpr hparent) (by rw [hs.lies.loop.regions]; simp)

lemma Passthrough.eq_last (hx : x ∈ p.opsIn s.body) (hend : p.isEnd x = true) : x = s.last := by
  have hlast := h.terminated.last s.body (hs.attached_body h ho) x hx hend
  exact some.inj (hlast.symm.trans hs.lies.loop.ends)

lemma Passthrough.getElem?_evalOps {run : Runner α}
    (hops : ops ⊆ p.opsIn s.body) (hlast : s.last ∈ ops)
    (hrun : p.evalOps I rounds run ops env = some (next, outputs)) :
    outputs[s.index]? = env s.bodyArg := by
  induction ops generalizing env with
  | nil => cases hlast
  | cons x rest ih =>
    obtain ⟨node, hnode, -⟩ :=
      exists_op_of_parentOf? (h.consistent.mem_opsIn.mp (hops mem_cons_self))
    have hend : p.isEnd x = node.isTerminator := by rw [Program.isEnd, hnode]; rfl
    rw [evalOps_cons hnode] at hrun
    split_ifs at hrun with hterminator
    · obtain rfl := hs.eq_last h ho (hops mem_cons_self) (hend.trans hterminator)
      obtain ⟨outputs', hinputs, heq⟩ := map_eq_some_iff.mp hrun
      cases heq
      exact (getElem?_of_mapM hinputs (operandsOf_eq hnode ▸ hs.handed)).symm
    · obtain ⟨mid, hmid, hrest⟩ := bind_eq_some_iff.mp hrun
      have hne : s.last ≠ x := by
        rintro rfl
        exact hterminator (hend.symm.trans (terminator?_eq_some.mp hs.lies.loop.ends).2)
      rw [ih (Subset.trans (subset_cons_self _ _) hops)
        ((mem_cons.mp hlast).resolve_left hne) hrest]
      simp only [evalOp, bind_eq_bind, bind_eq_some_iff] at hmid
      obtain ⟨inputs, -, results, -, hbind⟩ := hmid
      refine Env.bind_of_not_mem hbind fun hmem ↦ ?_
      exact h.consistent.not_mem_argsOf (resultsOf_eq hnode ▸ hmem)
        (mem_of_getElem? hs.lies.bodyArg)

lemma Passthrough.getElem?_outputsOf (hrun : p.outputsOf I depth s.body env carried = some outputs)
    : outputs[s.index]? = carried[s.index]? := by
  obtain ⟨⟨next, outputs'⟩, hregion, rfl⟩ := map_eq_some_iff.mp hrun
  cases depth with
  | zero => cases hregion
  | succ depth =>
    rw [evalRegion_succ] at hregion
    obtain ⟨inner, hinner, hops⟩ := bind_eq_some_iff.mp hregion
    have hlast := mem_of_getLast? (terminator?_eq_some.mp hs.lies.loop.ends).1
    rw [hs.getElem?_evalOps h ho (Subset.refl _) hlast hops,
      Env.bind_of_getElem? hinner (h.consistent.nodup_argsOf _) hs.lies.bodyArg]

lemma Passthrough.result_eq (hnode : p.op? s.op = some node)
    (hrun : p.evalOp I depth (p.outputsOf I depth) node env = some next) :
    next s.result = env s.init := by
  obtain ⟨_, hnode', hkind⟩ := hs.kind
  cases hnode.symm.trans hnode'
  simp only [evalOp, bind_eq_bind, bind_eq_some_iff] at hrun
  obtain ⟨inputs, hinputs, outputs, houtcome, hbind⟩ := hrun
  rw [I.outcome_loop hkind (regionsOf_eq hnode ▸ hs.lies.loop.regions)] at houtcome
  rw [getElem?_of_mapM hinputs (operandsOf_eq hnode ▸ hs.lies.init), Env.bind_of_getElem? hbind
    (resultsOf_eq hnode ▸ h.consistent.nodup_resultsOf s.op) (resultsOf_eq hnode ▸ hs.lies.result)]
  exact I.getElem?_iterate (fun _ _ hbody ↦ hs.getElem?_outputsOf h ho hbody) houtcome

end Passthrough

/-! ### Programs side by side -/

section

variable (s : Slot) (r : RegionId)

def takes (args : List α) : List α :=
  if r = s.cond ∨ r = s.body then args.eraseIdx s.index else args

def gives (outputs : List α) : List α :=
  if r = s.body then outputs.eraseIdx s.index else outputs

def EndsAlike (x y : Env α × List α) : Prop :=
  (∀ v, ¬ s.Gone v → y.1 v = x.1 v) ∧ y.2 = s.gives r x.2

end

def Simulates (s : Slot) (I : Interpretation α) (depth : Nat) (p q : Program) : Prop :=
  ∀ {r : RegionId} {avoid : List OpId} {level : Nat} {scope : List ValueId} {env env' : Env α}
    {args : List α}, Closed p avoid level (scope ++ p.argsOf r) (p.opsIn r) →
    (∀ v ∈ p.argsOf r, v ∉ scope) → s.Tracks scope env env' →
    (r = s.cond ∨ r = s.body → s.init ∈ scope ∧ args[s.index]? = env s.init) →
    Option.Rel (s.EndsAlike r) (p.evalRegion I depth r env args)
      (q.evalRegion I depth r env' (s.takes r args))

lemma Simulates.outputsOf {p q : Program} (h : s.Simulates I depth p q)
    (hclosed : Closed p avoid level (scope ++ p.argsOf r) (p.opsIn r))
    (hfresh : ∀ v ∈ p.argsOf r, v ∉ scope) (htracks : s.Tracks scope env env')
    (hslot : r = s.cond ∨ r = s.body → s.init ∈ scope ∧ args[s.index]? = env s.init) :
    q.outputsOf I depth r env' (s.takes r args) =
    (p.outputsOf I depth r env args).map (s.gives r) := by
  have hrel := h hclosed hfresh htracks hslot
  unfold Program.outputsOf
  generalize p.evalRegion I depth r env args = x at hrel
  generalize q.evalRegion I depth r env' (s.takes r args) = y at hrel
  cases hrel with
  | some hends => exact congrArg some hends.2
  | none => rfl

section Removed

variable {p q : Program} (h : WellOrdered p) (ho : s.op ∈ p.allOps) (hs : s.Passthrough p)
  (hr : s.Removed p q)

include h hs

lemma Passthrough.part_iff : r = s.cond ∨ r = s.body ↔ p.parentOp? r = some s.op := by
  rw [← h.consistent.mem_regionsOf, hs.lies.loop.regions]
  simp

omit h hs in
lemma takes_of_not_part (hnot : ¬ (r = s.cond ∨ r = s.body)) (args : List α) :
    s.takes r args = args :=
  if_neg hnot

omit h hs in
lemma gives_of_not_part (hnot : ¬ (r = s.cond ∨ r = s.body)) (outputs : List α) :
    s.gives r outputs = outputs :=
  if_neg fun heq ↦ hnot (.inr heq)

lemma Simulates.outputsOf_eq (hdepth : s.Simulates I depth p q) (hother : p.parentOp? r ≠ some s.op)
    (hclosed : Closed p avoid level (scope ++ p.argsOf r) (p.opsIn r))
    (hfresh : ∀ v ∈ p.argsOf r, v ∉ scope) (htracks : s.Tracks scope env env') :
    q.outputsOf I depth r env' = p.outputsOf I depth r env := by
  have hnot : ¬ (r = s.cond ∨ r = s.body) := fun hpart ↦ hother ((hs.part_iff h).mp hpart)
  funext args
  have hsame : q.outputsOf I depth r env' (s.takes r args) =
      (p.outputsOf I depth r env args).map (s.gives r) :=
    hdepth.outputsOf hclosed hfresh htracks fun hpart ↦ absurd hpart hnot
  rw [takes_of_not_part hnot, funext (gives_of_not_part hnot)] at hsame
  exact hsame.trans map_id'

section Loop

variable (htracks : s.Tracks scope env env')

include ho htracks

lemma Passthrough.iterate_eq (hdepth : s.Simulates I depth p q)
    (hargs : ∀ r ∈ p.regionsOf s.op, ∀ v ∈ p.argsOf r, v ∉ scope)
    (hinner : ∀ r ∈ p.regionsOf s.op, Closed p avoid level (scope ++ p.argsOf r) (p.opsIn r))
    (hinit : s.init ∈ scope) (rounds : Nat) (hinputs : env s.init = inputs[s.index]?) :
    I.iterate (q.outputsOf I depth s.cond env') (q.outputsOf I depth s.body env') rounds
    (inputs.eraseIdx s.index) =
    (I.iterate (p.outputsOf I depth s.cond env) (p.outputsOf I depth s.body env) rounds inputs).map
    (·.eraseIdx s.index) := by
  have hregions := hs.lies.loop.regions
  obtain ⟨a, ha⟩ := isSome_iff_exists.mp (htracks.known s.init hinit)
  -- Both regions do what they did, as long as the slot holds the value of its operand.
  have hparts : ∀ r ∈ p.regionsOf s.op, ∀ carried : List α, carried[s.index]? = some a →
      q.outputsOf I depth r env' (s.takes r carried) =
      (p.outputsOf I depth r env carried).map (s.gives r) :=
    fun r hr carried hcarried ↦ hdepth.outputsOf (hinner r hr) (hargs r hr) htracks fun _ ↦
      ⟨hinit, hcarried.trans ha.symm⟩
  have hcond := hparts s.cond (by simp [hregions])
  have hbody := hparts s.body (by simp [hregions])
  have hcondGives : s.gives s.cond = fun outputs : List α ↦ outputs :=
    funext fun _ ↦ if_neg (hs.lies.cond_ne_body h.consistent)
  have hbodyGives : s.gives s.body = fun outputs : List α ↦ outputs.eraseIdx s.index :=
    funext fun _ ↦ if_pos rfl
  simp only [takes, true_or, or_true, if_true, hcondGives, hbodyGives,
    Option.map_id'] at hcond hbody
  exact I.iterate_eraseIdx (fun _ _ hrun ↦ hs.getElem?_outputsOf h ho hrun) hcond hbody rounds
    (hinputs.symm.trans ha)

lemma Passthrough.evalOp_self (hdepth : s.Simulates I depth p q) (hnode : p.op? s.op = some node)
    (hclosed : Closed p avoid level scope (s.op :: rest)) :
    Option.Rel (s.Tracks (scope ++ p.resultsOf s.op))
    (p.evalOp I depth (p.outputsOf I depth) node env)
    (q.evalOp I depth (q.outputsOf I depth) (s.trimOp s.op node) env') := by
  obtain - | ⟨-, -, hoperands, hresults, hargs, hinner, -⟩ := hclosed
  have hinit : s.init ∈ scope := hoperands _ (mem_of_getElem? hs.lies.init)
  have hregions : node.regions = [s.cond, s.body] := regionsOf_eq hnode ▸ hs.lies.loop.regions
  obtain ⟨_, hnode', hkind⟩ := hs.kind
  cases hnode.symm.trans hnode'
  rw [operandsOf_eq hnode] at hoperands
  obtain ⟨inputs, hinputs⟩ := htracks.known.mapM hoperands
  have hinputs' : (s.trimOp s.op node).operands.mapM env' = some (inputs.eraseIdx s.index) := by
    have htrim : (s.trimOp s.op node).operands = (node.operands.map s.value).eraseIdx s.index := by
      simp [trimOp, eraseAt, hs.op_ne_last]
    rw [htrim]
    exact mapM_eraseIdx ((htracks.mapM (hs.lies.init_ne h ho) hoperands).trans hinputs) _
  have hvalue := getElem?_of_mapM hinputs (operandsOf_eq hnode ▸ hs.lies.init)
  have houtcome : I.outcome depth (fun r ↦ q.outputsOf I depth r env')
    (q.call (q.outputsOf I depth)) (s.trimOp s.op node) (inputs.eraseIdx s.index) = _ :=
    (I.outcome_loop hkind hregions _).trans
    (hs.iterate_eq h ho htracks hdepth hargs hinner hinit depth hvalue)
  unfold evalOp
  simp only [hinputs, hinputs', bind_eq_bind, bind_some, I.outcome_loop hkind hregions, houtcome]
  cases hiterate : I.iterate (p.outputsOf I depth s.cond env)
    (p.outputsOf I depth s.body env) depth inputs with
  | none => exact .none
  | some outputs =>
    have houtput := I.getElem?_iterate (fun _ _ hrun ↦ hs.getElem?_outputsOf h ho hrun) hiterate
    have hresult := hs.lies.result
    have hnodup := h.consistent.nodup_resultsOf s.op
    have hgone : ∀ v ∈ p.resultsOf s.op, s.Gone v ↔ v = s.result := fun _ ↦ hs.gone_result_iff h
    have htrim : (s.trimOp s.op node).results = node.results.eraseIdx s.index := if_pos rfl
    rw [resultsOf_eq hnode] at hresults hresult hnodup hgone ⊢
    rw [htrim]
    exact htracks.bind_eraseIdx hresults hnodup hresult hgone hinit (houtput.trans hvalue.symm)

lemma Passthrough.mapM_terminator (hnode : p.op? x = some node) (hend : p.isEnd x = true)
    (hx : x ∈ p.opsIn r) (hoperands : ∀ v ∈ p.operandsOf x, v ∈ scope) :
    ∃ outputs, node.operands.mapM env = some outputs ∧
    (s.trimOp x node).operands.mapM env' = some (s.gives r outputs) := by
  rw [operandsOf_eq hnode] at hoperands
  obtain ⟨outputs, houtputs⟩ := htracks.known.mapM hoperands
  have houtputs' := (htracks.mapM (hs.lies.init_ne h ho) hoperands).trans houtputs
  have hne : x ≠ s.op := by
    rintro rfl
    cases hend.symm.trans hs.isEnd
  refine ⟨outputs, houtputs, ?_⟩
  by_cases hlast : x = s.last
  · subst hlast
    have hin := mem_of_getLast? (terminator?_eq_some.mp hs.lies.loop.ends).1
    have hbody : r = s.body :=
      some.inj ((h.consistent.mem_opsIn.mp hx).symm.trans (h.consistent.mem_opsIn.mp hin))
    have htrim :
        (s.trimOp s.last node).operands = (node.operands.map s.value).eraseIdx s.index := by
      simp [trimOp, eraseAt, hne]
    rw [htrim, mapM_eraseIdx houtputs', gives, if_pos hbody]
  · have hbody : r ≠ s.body := by
      rintro rfl
      exact hlast (hs.eq_last h ho hx hend)
    have htrim : (s.trimOp x node).operands = node.operands.map s.value := by
      simp [trimOp, eraseAt, hne, hlast]
    rw [htrim, houtputs', gives, if_neg hbody]

end Loop

include hr

lemma Removed.call_eq (hdepth : s.Simulates I depth p q) :
    q.call (q.outputsOf I depth) = p.call (p.outputsOf I depth) := by
  funext name args
  have hfunc : q.func? name = p.func? name := congrArg (List.find? _) hr.funcs
  rw [call, hfunc, call]
  cases hbody : p.func? name with
  | none => rfl
  | some func =>
    have hroot := RegionForm.body_mem_roots hbody
    have hclosed : Closed p [] p.regions.length ([] ++ p.argsOf func.body) (p.opsIn func.body) :=
      h.scoping.closed_root h.consistent hroot
    have hother : p.parentOp? func.body ≠ some s.op := by
      rw [h.consistent.parentOp?_of_root hroot]
      exact some_ne_none _ ∘ Eq.symm
    exact congrFun (hdepth.outputsOf_eq h hs hother hclosed (by simp) (.nil s _)) args

lemma Removed.bind_rel (hfresh : ∀ v ∈ p.argsOf r, v ∉ scope) (htracks : s.Tracks scope env env')
    (hslot : r = s.cond ∨ r = s.body → s.init ∈ scope ∧ args[s.index]? = env s.init) : Option.Rel
    (s.Tracks (scope ++ p.argsOf r)) (env.bind (p.argsOf r) args)
    (env'.bind (q.argsOf r) (s.takes r args)) := by
  have hne := hs.lies.cond_ne_body h.consistent
  have hnodup := h.consistent.nodup_argsOf r
  have hgone : ∀ v ∈ p.argsOf r, s.Gone v ↔ r = s.body ∧ v = s.bodyArg ∨
      r = s.cond ∧ v = s.condArg :=
    fun _ ↦ hs.gone_arg_iff h
  rw [hr.argsOf]
  by_cases hcond : r = s.cond
  · subst hcond
    obtain ⟨hinit, hvalue⟩ := hslot (.inl rfl)
    simp only [eraseAt, if_neg hne, takes, true_or, if_true]
    refine htracks.bind_eraseIdx hfresh hnodup hs.lies.condArg (fun v hv ↦ ?_) hinit hvalue
    rw [hgone v hv]
    simp [hne]
  by_cases hbody : r = s.body
  · subst hbody
    obtain ⟨hinit, hvalue⟩ := hslot (.inr rfl)
    simp only [eraseAt, if_neg hne.symm, takes, or_true, if_true]
    refine htracks.bind_eraseIdx hfresh hnodup hs.lies.bodyArg (fun v hv ↦ ?_) hinit hvalue
    rw [hgone v hv]
    simp [hne.symm]
  · simp only [eraseAt, if_neg hcond, if_neg hbody, takes_of_not_part (not_or.mpr ⟨hcond, hbody⟩)]
    refine htracks.bind hfresh (fun v hv ↦ ?_) args
    rw [hgone v hv]
    simp [hcond, hbody]

include ho

lemma Removed.evalOp_other (hdepth : s.Simulates I depth p q) (hnode : p.op? x = some node)
    (hx : x ≠ s.op) (hend : p.isEnd x = false) (hclosed : Closed p avoid level scope (x :: rest))
    (htracks : s.Tracks scope env env') : Option.Rel (s.Tracks (scope ++ p.resultsOf x))
    (p.evalOp I depth (p.outputsOf I depth) node env)
    (q.evalOp I depth (q.outputsOf I depth) (s.trimOp x node) env') := by
  obtain - | ⟨-, -, hoperands, hresults, hargs, hinner, -⟩ := hclosed
  have hlast : x ≠ s.last := by
    rintro rfl
    cases hend.symm.trans (terminator?_eq_some.mp hs.lies.loop.ends).2
  have htrim : s.trimOp x node = { node with operands := node.operands.map s.value } := by
    simp [trimOp, eraseAt, hx, hlast]
  rw [operandsOf_eq hnode] at hoperands
  rw [htrim]
  unfold evalOp
  rw [htracks.mapM (hs.lies.init_ne h ho) hoperands]
  cases node.operands.mapM env with
  | none => exact .none
  | some inputs =>
    simp only [bind_eq_bind, bind_some]
    have houtcome : I.outcome depth (fun r ↦ q.outputsOf I depth r env')
        (q.call (q.outputsOf I depth))
        { node with operands := node.operands.map s.value } inputs =
        I.outcome depth (fun r ↦ p.outputsOf I depth r env)
          (p.call (p.outputsOf I depth)) node inputs := by
      refine I.outcome_congr depth rfl rfl rfl (forall₂_same.mpr fun r hmem ↦ ?_)
        (hr.call_eq h hs hdepth) inputs
      replace hmem : r ∈ p.regionsOf x := (regionsOf_eq hnode).symm ▸ hmem
      refine hdepth.outputsOf_eq h hs (fun howner ↦ hx ?_) (hinner r hmem) (hargs r hmem) htracks
      exact some.inj ((h.consistent.mem_regionsOf.mp hmem).symm.trans howner)
    rw [houtcome]
    cases I.outcome depth (fun r ↦ p.outputsOf I depth r env)
      (p.call (p.outputsOf I depth)) node inputs with
    | none => exact .none
    | some outputs =>
      rw [resultsOf_eq hnode] at hresults ⊢
      exact htracks.bind hresults
        (fun v hv ↦ hs.not_gone_result h hx (resultsOf_eq hnode ▸ hv)) outputs

lemma Removed.evalOps_rel (hdepth : s.Simulates I depth p q)
    (hclosed : Closed p avoid level scope ops) (hops : ops ⊆ p.opsIn r)
    (htracks : s.Tracks scope env env') : Option.Rel (s.EndsAlike r)
    (p.evalOps I depth (p.outputsOf I depth) ops env)
    (q.evalOps I depth (q.outputsOf I depth) ops env') := by
  induction hclosed generalizing env env' with
  | nil =>
    refine .some ⟨htracks.kept, ?_⟩
    unfold gives
    split_ifs
    · rfl
    · rfl
  | @cons avoid level scope x rest havoid hlive hoperands hresults hargs hinner hrest _ ihrest =>
    have hclosed := Closed.cons havoid hlive hoperands hresults hargs hinner hrest
    obtain ⟨node, hnode⟩ := isSome_iff_exists.mp hlive
    have hnode' : q.op? x = some (s.trimOp x node) := by rw [hr.op?, hnode]; rfl
    have hend : p.isEnd x = node.isTerminator := by rw [isEnd, hnode]; rfl
    have hends : (s.trimOp x node).isTerminator = node.isTerminator := rfl
    rw [evalOps_cons hnode, evalOps_cons hnode', hends]
    split_ifs with hterminator
    · obtain ⟨outputs, houtputs, houtputs'⟩ := hs.mapM_terminator h ho htracks hnode
        (hend.trans hterminator) (hops mem_cons_self) hoperands
      rw [houtputs, houtputs']
      exact .some ⟨htracks.kept, rfl⟩
    · refine rel_bind ?_ fun next next' hnext ↦
        ihrest (Subset.trans (subset_cons_self x rest) hops) hnext
      by_cases hx : x = s.op
      · subst hx
        exact hs.evalOp_self h ho htracks hdepth hnode hclosed
      · exact hr.evalOp_other h ho hs hdepth hnode hx
          (hend.trans (Bool.eq_false_iff.mpr hterminator)) hclosed htracks

lemma Removed.simulates (depth : Nat) : s.Simulates I depth p q := by
  induction depth with
  | zero => exact fun _ _ _ _ ↦ .none
  | succ depth ih =>
    intro r avoid level scope env env' args hclosed hfresh htracks hslot
    rw [evalRegion_succ, evalRegion_succ, (Removed.sameTree hr).ops]
    refine rel_bind (hr.bind_rel h hs hfresh htracks hslot) fun next next' hnext ↦ ?_
    exact hr.evalOps_rel h ho hs ih hclosed (Subset.refl _) hnext

end Removed

end Slot

end LoopSlots

end TensorGraph
