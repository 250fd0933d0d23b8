import TensorGraph.Proofs.Worklist

/-!
A run of the propagation ends where another one finds nothing to do. An operation is settled when a
look at it tells no value anything new.
-/

namespace TensorGraph.TypePropagation

open Program Edit List Option

variable {p q : Program} {o x : OpId} {node : Operation} {changed : Bool} {steps : Nat}
    {registry : Registry} {types : List TensorType} {slots : List (ValueId × TensorType)}
    {settings : Settings} {final agenda : Agenda}

/-! ### Settled operations -/

/-- A look at the operation tells no value anything new. -/
def Settled (registry : Registry) (version : Nat) (p : Program) (node : Operation) : Prop :=
  ∃ types, resultTypes registry version p node = .ok types ∧ Silent p (lookSlots p node types)

lemma tell_argSlots_of_silent (hp : p.Consistent) (h : Silent p (lookSlots p node types)) :
    p.tell (argSlots p node) = p :=
  tell_of_silent (fun slot hslot ↦ h slot (mem_append_left _ hslot)) fun _ hslot ↦
    lt_of_mem_argSlots hp hslot

section Settled

variable {version : Nat} (hp : p.Consistent) (ho : p.op? o = some node)

include hp ho

lemma Settled.lookAt (h : Settled registry version p node) (agenda : Agenda) :
    (lookAt registry version o agenda).exec p = (.ok (agenda, false), p) := by
  obtain ⟨types, htypes, hsilent⟩ := h
  rw [lookAt_exec hp ho, tell_argSlots_of_silent hp hsilent, htypes]
  dsimp only
  rw [learners_eq_nil_iff.mpr hsilent, tell_of_silent hsilent fun slot hslot ↦
    lt_of_mem_lookSlots hp ho hslot]
  rfl

lemma lt_of_mem_inputs {v : ValueId} (hv : v ∈ inputs p node) : v.index < p.values.length := by
  rcases mem_append.mp hv with hown | hinner
  · split_ifs at hown
    · cases hown
    · exact hp.lt_of_mem_operandsOf (operandsOf_eq ho ▸ hown)
  · obtain ⟨r, -, hv⟩ := mem_flatMap.mp hinner
    cases hlast : p.terminator? r with
    | none =>
      rw [hlast] at hv
      cases hv
    | some last =>
      rw [hlast] at hv
      exact hp.lt_of_mem_operandsOf hv

lemma typeAt_tell_of_not_mem_affected (hnodup : (slots.map (·.1)).Nodup)
    (hrest : o ∉ affected p (learners p slots)) : ∀ v ∈ inputs p node,
  (p.tell slots).typeAt v = p.typeAt v :=
  fun _ hv ↦ not_mem_learners hnodup (lt_of_mem_inputs hp ho hv) fun hlearns ↦
  hrest (mem_affected_of_mem_inputs hp ho hv hlearns)

end Settled

lemma eq_of_mem_lookSlots (hp : p.Consistent) {o' : OpId} {node' : Operation}
    (ho : p.op? o = some node) (ho' : p.op? o' = some node')
    {types' : List TensorType} {slot slot' : ValueId × TensorType}
    (hslot : slot ∈ lookSlots p node types) (hslot' : slot' ∈ lookSlots p node' types')
    (heq : slot'.1 = slot.1) : o = o' := by
  rcases mem_append.mp hslot with harg | hresult <;> rcases mem_append.mp
    hslot' with harg' | hresult'
  · obtain ⟨r, hr, hv⟩ := exists_region_of_mem_argSlots harg
    obtain ⟨r', hr', hv'⟩ := exists_region_of_mem_argSlots harg'
    obtain rfl := hp.eq_of_mem_argsOf hv (heq ▸ hv')
    have howner := hp.mem_regionsOf.mp (regionsOf_eq ho ▸ hr)
    exact some.inj (howner.symm.trans (hp.mem_regionsOf.mp (regionsOf_eq ho' ▸ hr')))
  · obtain ⟨r, -, hv⟩ := exists_region_of_mem_argSlots harg
    have hv' := mem_results_of_mem_zip hresult'
    exact absurd hv (hp.not_mem_argsOf (resultsOf_eq ho' ▸ heq ▸ hv'))
  · obtain ⟨r, -, hv⟩ := exists_region_of_mem_argSlots harg'
    have hv' := mem_results_of_mem_zip hresult
    exact absurd (heq ▸ hv) (hp.not_mem_argsOf (resultsOf_eq ho ▸ hv'))
  · have hv := mem_results_of_mem_zip hresult
    have hv' := mem_results_of_mem_zip hresult'
    exact hp.eq_of_mem_resultsOf (resultsOf_eq ho ▸ hv) (resultsOf_eq ho' ▸ heq ▸ hv')

lemma inputs_refined (h : p.Refined q) (node : Operation) : inputs q node = inputs p node := by
  unfold inputs
  refine congrArg (_ ++ ·) (flatMap_congr fun r _ ↦ ?_)
  rw [h.terminator?]
  cases p.terminator? r with
  | none => rfl
  | some last => exact operandsOf_congr (h.op? last)

section

variable (h : p.Refined q) (hsame : ∀ v ∈ inputs p node, q.typeAt v = p.typeAt v)

include h hsame

lemma argSlots_congr : argSlots q node = argSlots p node := by
  unfold argSlots
  split_ifs with hloop
  · have hend : node.isTerminator = false := by
      rw [Operation.isTerminator, hloop]
      rfl
    rw [carried_congr h hsame hend]
    cases carried p node with
    | none => rfl
    | some types => exact regionSlots_refined h types node.regions
  · rfl

lemma lookSlots_congr (types : List TensorType) : lookSlots q node types = lookSlots p node types :=
  congrArg (· ++ node.results.zip types) (argSlots_congr h hsame)

end

/-- The operation is a reshape whose target has become known. -/
def TargetLearnt (registry : Registry) (version : Nat) (p q : Program) (node : Operation) : Prop :=
  registry.shapeRule? node.kind = some ShapeRule.reshape ∧ InferenceContext.operandValue? ⟨q, node,
    version⟩ 1 ≠ InferenceContext.operandValue? ⟨p, node, version⟩ 1

lemma operandValue?_of_not_targetLearnt {version : Nat} {m m' : Program}
    (hm : p.Refined m) (hm' : m.Refined m') (hq : m'.Refined q)
    (hknown : ¬ TargetLearnt registry version p q node)
    (hrule : registry.shapeRule? node.kind = some ShapeRule.reshape) :
    InferenceContext.operandValue? ⟨m', node, version⟩ 1 = InferenceContext.operandValue?
    ⟨m, node, version⟩ 1 := by
  have hsame := not_not.mp (not_and.mp hknown hrule)
  exact (InferenceContext.operandValue?_between (hm.trans hm') hq hsame).trans
    (InferenceContext.operandValue?_between hm (hm'.trans hq) hsame).symm

/-! ### Looks keep operations settled -/

section Look

variable (hrules : registry.OnlyBuiltIn)
  (hends : ∀ node : Operation, node.isTerminator = true → registry.shapeRule? node.kind = none)
  {version : Nat} {s : Program} (hs : s.Consistent) (hp : p.Refined s) (ho : s.op? o = some node)
  (hq : (s.tell (lookSlots s node types)).Refined q)

include hrules hends hs hp ho hq

lemma settled_of_look
    (htypes : resultTypes registry version (s.tell (argSlots s node)) node = .ok types)
    (hknown : ¬ TargetLearnt registry version p q node)
    (hrest : o ∉ affected s (learners s (lookSlots s node types))) :
    Settled registry version (s.tell (lookSlots s node types)) node := by
  have hmiddle := Refined.tell s (argSlots s node)
  have hlast : (s.tell (argSlots s node)).Refined (s.tell (lookSlots s node types)) := by
    rw [lookSlots, tell_append]
    exact .tell _ _
  have hrest' : o ∉ affected s (learners s (argSlots s node)) := fun hmem ↦ hrest (by
    rw [lookSlots, learners_append, affected_append]
    exact mem_append_left _ hmem)
  have hnew := typeAt_tell_of_not_mem_affected hs ho (nodup_lookSlots hs ho types) hrest
  have hold := typeAt_tell_of_not_mem_affected hs ho (nodup_argSlots hs ho) hrest'
  have hsame : ∀ v ∈ inputs (s.tell (argSlots s node)) node,
      (s.tell (lookSlots s node types)).typeAt v = (s.tell (argSlots s node)).typeAt v := by
    intro v hv
    rw [inputs_refined hmiddle] at hv
    rw [hnew v hv, hold v hv]
  refine ⟨types, ?_, ?_⟩
  · rw [resultTypes_congr hlast hsame (hmiddle.consistent hs) ((hmiddle.op? o).trans ho) hrules
      (hends node) (operandValue?_of_not_targetLearnt (hp.trans hmiddle) hlast hq hknown)]
    exact htypes
  · rw [lookSlots_congr (hmiddle.trans hlast) hnew]
    exact silent_tell (nodup_lookSlots hs ho types) fun slot hslot ↦ lt_of_mem_lookSlots hs ho hslot

lemma Settled.look {other : Operation} (hx : s.op? x = some other) (hne : x ≠ o)
    (h : Settled registry version s other) (hknown : ¬ TargetLearnt registry version p q other)
    (hrest : x ∉ affected s (learners s (lookSlots s node types))) :
    Settled registry version (s.tell (lookSlots s node types)) other := by
  obtain ⟨types', htypes', hsilent⟩ := h
  have hrefined := Refined.tell s (lookSlots s node types)
  have hsame := typeAt_tell_of_not_mem_affected hs hx (nodup_lookSlots hs ho types) hrest
  refine ⟨types', ?_, ?_⟩
  · rw [resultTypes_congr hrefined hsame hs hx hrules (hends other)
      (operandValue?_of_not_targetLearnt hp hrefined hq hknown)]
    exact htypes'
  · rw [lookSlots_congr hrefined hsame]
    refine hsilent.congr fun slot hslot ↦ typeAt_tell_of_not_mem s fun hmem ↦ ?_
    obtain ⟨slot', hslot', heq⟩ := mem_map.mp hmem
    exact hne (eq_of_mem_lookSlots hs hx ho hslot hslot' heq)

end Look

/-! ### Whole runs -/

inductive Course (registry : Registry) (settings : Settings) : Program → Agenda →
    Program → Agenda → Prop where
  | done (p : Program) (visited : List OpId) :
      Course registry settings p ⟨[], visited⟩ p ⟨[], visited⟩
  | skip {p q : Program} {o : OpId} {queue visited : List OpId} {final : Agenda}
      (hlimit : settings.maxIterations < (o :: visited).count o)
      (rest : Course registry settings p ⟨queue, o :: visited⟩ q final) :
      Course registry settings p ⟨o :: queue, visited⟩ q final
  | look {p q : Program} {o : OpId} {node : Operation} {queue visited : List OpId}
      {types : List TensorType} {final : Agenda} (ho : p.op? o = some node)
      (htypes : resultTypes registry settings.graphVersion (p.tell (argSlots p node)) node =
      .ok types) (rest : Course registry settings (p.tell (lookSlots p node types))
        ((affected p (learners p (lookSlots p node types))).foldl Agenda.push ⟨queue, o :: visited⟩)
      q final) : Course registry settings p ⟨o :: queue, visited⟩ q final

lemma propagate_look_ok (hp : p.Consistent) (ho : p.op? o = some node) {queue visited : List OpId}
    (hlimit : (o :: visited).count o ≤ settings.maxIterations)
    (hrun : (propagate registry settings (steps + 1) ⟨o :: queue, visited⟩).exec p =
    (.ok (final, changed), q)) : ∃ types later, resultTypes registry settings.graphVersion
    (p.tell (argSlots p node)) node = .ok types ∧ (propagate registry settings steps
    ((affected p (learners p (lookSlots p node types))).foldl Agenda.push
    ⟨queue, o :: visited⟩)).exec (p.tell (lookSlots p node types)) = (.ok (final, later), q) ∧
    changed = (!(learners p (lookSlots p node types)).isEmpty || later) := by
  have hlive : (p.op? o).isSome := ho ▸ rfl
  rw [propagate_look hlive hlimit, exec_bind, lookAt_exec hp ho] at hrun
  cases htypes : resultTypes registry settings.graphVersion (p.tell (argSlots p node)) node with
  | error err =>
    rw [htypes] at hrun
    cases hrun
  | ok types =>
    rw [htypes] at hrun
    obtain ⟨⟨next, later⟩, m, hnext, hreturn⟩ := exec_bind_ok.mp hrun
    cases hreturn
    exact ⟨types, later, rfl, hnext, rfl⟩

lemma course_of_propagate (hp : p.Consistent) (hagenda : agenda.Sound p)
    (hrun : (propagate registry settings steps agenda).exec p = (.ok (final, changed), q))
    (hqueue : final.queue = []) : Course registry settings p agenda q final := by
  induction steps generalizing p agenda changed with
  | zero =>
    obtain ⟨queue, visited⟩ := agenda
    cases hrun
    obtain rfl : queue = [] := hqueue
    exact .done _ visited
  | succ steps ih =>
    obtain ⟨queue, visited⟩ := agenda
    cases queue with
    | nil =>
      cases hrun
      exact .done _ visited
    | cons o queue =>
      have hlive := hagenda.live o mem_cons_self
      obtain ⟨node, ho⟩ := isSome_iff_exists.mp hlive
      have hrest := hagenda.tail (o :: visited)
      rcases Nat.lt_or_ge settings.maxIterations ((o :: visited).count o) with hlimit | hlimit
      · rw [propagate_skip hlive hlimit] at hrun
        exact .skip hlimit (ih hp hrest hrun)
      · obtain ⟨types, later, htypes, hnext, -⟩ := propagate_look_ok hp ho hlimit hrun
        have hrefined := Refined.tell p (lookSlots p node types)
        exact .look ho htypes
          (ih (hrefined.consistent hp) ((hrest.pushAffected hp _).refined hrefined) hnext)

namespace Course

variable {s : Program} (h : Course registry settings s agenda q final)

include h

lemma refined : s.Refined q := by
  induction h with
  | done p visited => exact .refl p
  | skip hlimit rest ih => exact ih
  | look ho htypes rest ih => exact (Refined.tell _ _).trans ih

lemma count_visited_le (o : OpId) : agenda.visited.count o ≤ final.visited.count o := by
  induction h with
  | done p visited => exact Nat.le_refl _
  | skip hlimit rest ih => exact Nat.le_trans count_le_count_cons ih
  | look ho htypes rest ih =>
    rw [visited_foldl_push] at ih
    exact Nat.le_trans count_le_count_cons ih

lemma mem_visited (hx : x ∈ agenda.queue) : x ∈ final.visited := by
  induction h with
  | done p visited => cases hx
  | @skip p q o queue visited final hlimit rest ih =>
    rcases mem_cons.mp hx with rfl | hx
    · have hcount := rest.count_visited_le x
      rw [count_cons_self] at hcount
      exact count_pos_iff.mp (Nat.lt_of_lt_of_le (Nat.succ_pos _) hcount)
    · exact ih hx
  | @look p q o node queue visited types final ho htypes rest ih =>
    rcases mem_cons.mp hx with rfl | hx
    · have hcount := rest.count_visited_le x
      rw [visited_foldl_push, count_cons_self] at hcount
      exact count_pos_iff.mp (Nat.lt_of_lt_of_le (Nat.succ_pos _) hcount)
    · exact ih (mem_foldl_push.mpr (.inl hx))

/-- If an operation waits or is settled at the start and none is passed over, the operation is
settled in the end. -/
theorem settled (hrules : registry.OnlyBuiltIn)
    (hends : ∀ node : Operation, node.isTerminator = true → registry.shapeRule? node.kind = none)
    (hp : p.Refined s) (hs : s.Consistent)
    (hlimit : ∀ o, final.visited.count o ≤ settings.maxIterations) (hx : s.op? x = some node)
    (hknown : ¬ TargetLearnt registry settings.graphVersion p q node)
    (hinv : x ∈ agenda.queue ∨ Settled registry settings.graphVersion s node) :
    Settled registry settings.graphVersion q node := by
  induction h with
  | done s visited =>
    rcases hinv with hwaits | hsettled
    · cases hwaits
    · exact hsettled
  | @skip s q o queue visited final hover rest ih =>
    have hcount := rest.count_visited_le o
    exact absurd (Nat.lt_of_lt_of_le hover hcount) (Nat.not_lt.mpr (hlimit o))
  | @look s q o looked queue visited types final ho htypes rest ih =>
    have hstep := Refined.tell s (lookSlots s looked types)
    refine ih (hp.trans hstep) (hstep.consistent hs) hlimit ((hstep.op? x).trans hx) hknown ?_
    by_cases hpushed : x ∈ affected s (learners s (lookSlots s looked types))
    · exact .inl (mem_foldl_push.mpr (.inr hpushed))
    by_cases heq : x = o
    · subst heq
      cases ho.symm.trans hx
      exact .inr (settled_of_look hrules hends hs hp ho rest.refined htypes hknown hpushed)
    · rcases hinv with hwaits | hsettled
      · have hqueue : x ∈ queue := (mem_cons.mp hwaits).resolve_left heq
        exact .inl (mem_foldl_push.mpr (.inl hqueue))
      · exact .inr (hsettled.look hrules hends hs hp ho rest.refined hx heq hknown hpushed)

end Course

lemma propagate_of_settled (hp : p.Consistent) (hsteps : agenda.queue.length < steps)
    (hsettled : ∀ o ∈ agenda.queue, ∃ node, p.op? o = some node ∧
    Settled registry settings.graphVersion p node) : ∃ final,
    (propagate registry settings steps agenda).exec p = (.ok (final, false), p) := by
  induction steps generalizing agenda with
  | zero => exact absurd hsteps (Nat.not_lt_zero _)
  | succ steps ih =>
    obtain ⟨queue, visited⟩ := agenda
    cases queue with
    | nil => exact ⟨_, propagate_nil steps⟩
    | cons o queue =>
      obtain ⟨node, ho, hnode⟩ := hsettled o mem_cons_self
      have hlive : (p.op? o).isSome := ho ▸ rfl
      obtain ⟨final, hrest⟩ := @ih ⟨queue, o :: visited⟩ (Nat.lt_of_succ_lt_succ hsteps)
        fun x hx ↦ hsettled x (mem_cons_of_mem _ hx)
      refine ⟨final, ?_⟩
      rcases Nat.lt_or_ge settings.maxIterations ((o :: visited).count o) with hlimit | hlimit
      · rw [propagate_skip hlive hlimit, hrest]
      · rw [propagate_look hlive hlimit, exec_bind_of_ok (hnode.lookAt hp ho _),
          exec_bind_of_ok hrest]
        rfl

lemma settled_of_propagate (hp : p.Consistent) (hsound : agenda.Sound p)
    (hlimit : ∀ o ∈ agenda.queue, agenda.visited.count o < settings.maxIterations)
    (hrun : (propagate registry settings steps agenda).exec p = (.ok (final, false), q))
    (hqueue : final.queue = []) (ho : o ∈ agenda.queue) (hnode : p.op? o = some node) :
    Settled registry settings.graphVersion p node := by
  induction steps generalizing agenda with
  | zero =>
    cases hrun
    rw [hqueue] at ho
    cases ho
  | succ steps ih =>
    obtain ⟨queue, visited⟩ := agenda
    cases queue with
    | nil => cases ho
    | cons x queue =>
      obtain ⟨looked, hx⟩ := isSome_iff_exists.mp (hsound.live x mem_cons_self)
      have hnotMem := (nodup_cons.mp hsound.nodup).1
      have hcount : (x :: visited).count x ≤ settings.maxIterations := by
        rw [count_cons_self]
        exact hlimit x mem_cons_self
      obtain ⟨types, later, htypes, hnext, hchanged⟩ := propagate_look_ok hp hx hcount hrun
      obtain ⟨hlearners, rfl⟩ := Bool.or_eq_false_iff.mp hchanged.symm
      rw [Bool.not_eq_false', List.isEmpty_iff] at hlearners
      have hsilent := learners_eq_nil_iff.mp hlearners
      rcases mem_cons.mp ho with rfl | ho
      · cases hnode.symm.trans hx
        rw [tell_argSlots_of_silent hp hsilent] at htypes
        exact ⟨types, htypes, hsilent⟩
      · rw [tell_of_silent hsilent fun slot hslot ↦
          lt_of_mem_lookSlots hp hx hslot, hlearners] at hnext
        refine ih (hsound.tail (x :: visited)) (fun y hy ↦ ?_) hnext ho
        have hne : x ≠ y := fun heq ↦ hnotMem (heq ▸ hy)
        rw [count_cons_of_ne hne]
        exact hlimit y (mem_cons_of_mem _ hy)

lemma shapeRule?_of_isTerminator (hend : node.isTerminator = true) :
    Registry.standard.shapeRule? node.kind = none := by
  rw [Operation.isTerminator, Bool.or_eq_true, beq_iff_eq, beq_iff_eq] at hend
  rcases hend with hkind | hkind
  · rw [hkind]
    rfl
  · rw [hkind]
    rfl

section Again

variable {p q : Program} {settings : Settings} {agenda : Agenda} {changed : Bool}

lemma run_eq_ok_iff : (run settings .standard).exec p = (.ok changed, q) ↔
    ∃ agenda, (explore settings .standard).exec p = (.ok (agenda, changed), q) := by
  unfold run
  rw [exec_bind_ok]
  constructor
  · rintro ⟨⟨agenda, _⟩, _, hexplore, hreturn⟩
    cases hreturn
    exact ⟨agenda, hexplore⟩
  · rintro ⟨agenda, hexplore⟩
    exact ⟨_, _, hexplore, rfl⟩

variable (hp : p.Consistent)
  (hrun : (explore settings .standard).exec p = (.ok (agenda, changed), q))

include hp hrun

lemma queue_of_explore : agenda.queue = [] ∧ ∃ steps, (propagate .standard settings steps
      (p.allOps.foldl Agenda.push (Agenda.mk [] []))).exec p = (.ok (agenda, changed), q) := by
  have hends : Ends .standard settings.graphVersion p ((explore settings .standard).exec p) :=
    ends_explore onlyBuiltIn_standard hp
  rw [hrun] at hends
  unfold explore at hrun
  rw [exec_get_bind] at hrun
  cases hends with
  | finished hrefined hqueue => exact ⟨hqueue, _, hrun⟩

lemma course_of_explore : Course .standard settings p (p.allOps.foldl Agenda.push (Agenda.mk [] []))
    q agenda := by
  obtain ⟨hqueue, steps, hpropagate⟩ := queue_of_explore hp hrun
  exact course_of_propagate hp (sound_start hp) hpropagate hqueue

end Again

/-- After a run that has passed over no operation, a look at an operation tells nothing new, unless
it is a reshape whose target has become known during the run. Another run does nothing at all
exactly if a look at those tells nothing new either. -/
theorem run_again_iff {p q : Program} (hp : Reachable p) {settings : Settings} {agenda : Agenda}
    {changed : Bool} (hrun : (explore settings .standard).exec p = (.ok (agenda, changed), q))
    (hlimit : ∀ o, agenda.visited.count o ≤ settings.maxIterations) :
    (∀ o ∈ q.allOps, ∀ node, q.op? o = some node →
      ¬ TargetLearnt .standard settings.graphVersion p q node →
      Settled .standard settings.graphVersion q node) ∧
    ((run settings .standard).exec q = (.ok false, q) ↔
      ∀ o ∈ q.allOps, ∀ node, q.op? o = some node →
      TargetLearnt .standard settings.graphVersion p q node →
      Settled .standard settings.graphVersion q node) := by
  have hcourse := course_of_explore hp.consistent hrun
  have hq := hcourse.refined.consistent hp.consistent
  have hwaits : ∀ o ∈ q.allOps, o ∈ (p.allOps.foldl Agenda.push (Agenda.mk [] [])).queue :=
    fun o ho ↦ mem_foldl_push.mpr (.inr (hcourse.refined.annotated.allOps ▸ ho))
  have hothers : ∀ o ∈ q.allOps, ∀ node, q.op? o = some node →
    ¬ TargetLearnt .standard settings.graphVersion p q node →
    Settled .standard settings.graphVersion q node :=
    fun o ho node hnode hknown ↦ hcourse.settled onlyBuiltIn_standard
    (fun _ ↦ shapeRule?_of_isTerminator) (.refl p) hp.consistent hlimit
    (hcourse.refined.op? o ▸ hnode) hknown (.inl (hwaits o ho))
  refine ⟨hothers, ?_, ?_⟩
  · intro hagain o ho node hnode _
    obtain ⟨final, hexplore⟩ := run_eq_ok_iff.mp hagain
    obtain ⟨hqueue, steps, hpropagate⟩ := queue_of_explore hq hexplore
    refine settled_of_propagate hq (sound_start hq) (fun x hx ↦ ?_) hpropagate hqueue
      (mem_foldl_push.mpr (.inr ho)) hnode
    have hx' : x ∈ q.allOps := (mem_foldl_push.mp hx).resolve_left not_mem_nil
    rw [visited_foldl_push]
    exact Nat.lt_of_lt_of_le (count_pos_iff.mpr (hcourse.mem_visited (hwaits x hx'))) (hlimit x)
  · intro hlearnt
    have hall : ∀ o ∈ (q.allOps.foldl Agenda.push (Agenda.mk [] [])).queue, ∃ node, q.op? o =
        some node ∧ Settled .standard settings.graphVersion q node := by
      intro o hwaiting
      have ho := (mem_foldl_push.mp hwaiting).resolve_left not_mem_nil
      obtain ⟨node, hnode⟩ := isSome_iff_exists.mp ((sound_start hq).live o hwaiting)
      refine ⟨node, hnode, ?_⟩
      by_cases hknown : TargetLearnt .standard settings.graphVersion p q node
      · exact hlearnt o ho node hnode hknown
      · exact hothers o ho node hnode hknown
    have hsteps :=
      Nat.lt_succ_of_le
      (Nat.le_add_right (q.allOps.foldl Agenda.push (Agenda.mk [] [])).queue.length
      (q.slots.length * settings.maxIterations * q.slots.length))
    obtain ⟨final, hpropagate⟩ := propagate_of_settled hq hsteps hall
    exact run_eq_ok_iff.mpr ⟨final, hpropagate⟩

/-- The chain that ends with a reshape is done after one run. -/
theorem run_again_reshapedInput : ∃ agenda q, Reachable reshapedInput ∧
    (explore {} .standard).exec reshapedInput = (.ok (agenda, true), q) ∧
    (∀ o, agenda.visited.count o ≤ 32) ∧ (run {} .standard).exec q = (.ok false, q) := by
  have hp : Reachable reshapedInput := reachable_built _
  have hchanged :
      (((explore {} .standard).exec reshapedInput).1.map (·.2)).toOption = some true := by
    decide +kernel
  have hvisited : ∀ agenda ∈ ((explore {} .standard).exec reshapedInput).1.toOption,
      agenda.1.visited.length ≤ 32 := by decide +kernel
  have htargets : ((explore {} .standard).exec reshapedInput).2.allOps.all (fun o ↦
        (((explore {} .standard).exec reshapedInput).2.op? o).all fun node ↦
        InferenceContext.operandValue? ⟨((explore {} .standard).exec reshapedInput).2, node, 0⟩ 1 =
        InferenceContext.operandValue? ⟨reshapedInput, node, 0⟩ 1) = true := by decide +kernel
  rcases hexplore : (explore {} .standard).exec reshapedInput with ⟨_ | ⟨agenda, changed⟩, q⟩
  · rw [hexplore] at hchanged
    cases hchanged
  rw [hexplore] at hchanged hvisited htargets
  obtain rfl : changed = true := some.inj hchanged
  have hlimit : ∀ o, agenda.visited.count o ≤ 32 :=
    fun o ↦ count_le_length.trans (hvisited (agenda, true) rfl)
  refine ⟨agenda, q, hp, rfl, hlimit, (run_again_iff hp hexplore hlimit).2.mpr ?_⟩
  intro o ho node hnode hlearnt
  have htarget := all_eq_true.mp htargets o ho
  rw [hnode] at htarget
  exact absurd (of_decide_eq_true htarget) hlearnt.2

/-- The target of a reshape becomes known when the reshape has been looked at and is not looked at
again. -/
theorem target_learnt_too_late :
    let p : Program := .built [
      .append ⟨0⟩
        { kind := "Placeholder", resultTypes := [⟨some .f32, .ranked [.unknown, .unknown]⟩],
          attrs := .ofList [("shape", .shape (.fixed [2, 3]))] },
      .append ⟨0⟩ { kind := "Shape", operands := [⟨0⟩], resultTypes := [.fixed .i64 [2]] },
      .append ⟨0⟩ { kind := "source", resultTypes := [⟨some .f32, .unranked⟩] },
      .append ⟨0⟩ { kind := "Reshape", operands := [⟨2⟩, ⟨1⟩], resultTypes :=
        [⟨some .f32, .unranked⟩] },
      .reorder ⟨0⟩ [⟨2⟩, ⟨3⟩, ⟨1⟩, ⟨0⟩]]
    let q := ((run {} .standard).exec p).2
    Reachable p ∧ ((run {} .standard).exec p).1.toOption = some true ∧
      (∀ agenda ∈ ((explore {} .standard).exec p).1.toOption, agenda.1.visited.length ≤ 32) ∧
      ((run {} .standard).exec q).1.toOption = some true :=
  ⟨reachable_built _, by decide +kernel⟩

end TensorGraph.TypePropagation
