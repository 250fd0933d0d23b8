import TensorGraph.Pass.GraphFunction
import TensorGraph.Proofs.Copying

/-!
What becomes of a graph that is made a function. The pass either leaves the program alone or does
all of its three steps.
-/

namespace TensorGraph.GraphFunction

open Program Edit List Option

variable {m p q q' : Program} {o x : OpId} {r : RegionId} {v : ValueId} {done feeds : List ValueId}
  {name : String} {replaced : List (ValueId × ValueId)} {settings : Settings} {found : Plan}

/-! ### Arguments in the place of feeds -/

/-- The argument that stands in for a value, or the value itself. -/
def standIn (replaced : List (ValueId × ValueId)) (v : ValueId) : ValueId :=
  (replaced.lookup v).getD v

lemma standIn_of_not_mem (h : v ∉ replaced.map Prod.fst) : standIn replaced v = v := by
  rw [standIn, lookup_eq_none_of_not_mem h, getD_none]

lemma mem_of_mem_fst (h : v ∈ replaced.map Prod.fst) : (v, standIn replaced v) ∈ replaced := by
  obtain ⟨arg, harg⟩ := isSome_iff_exists.mp (lookup_isSome_iff.mpr h)
  rw [standIn, harg, getD_some]
  exact mem_of_lookup_eq_some harg

lemma eraseDups_concat (l : List ValueId) (v : ValueId) :
    (l ++ [v]).eraseDups = if v ∈ l then l.eraseDups else l.eraseDups ++ [v] := by
  rw [eraseDups_append]
  by_cases hv : v ∈ l
  · simp [hv, List.removeAll]
  · simp [hv, List.removeAll, eraseDups_cons]

lemma redirect_standIn {feed : ValueId} (arg : ValueId) (hfresh : ∀ pair ∈ replaced, pair.2 ≠ feed)
    (v : ValueId) : redirect feed arg (standIn replaced v) = standIn
    (replaced ++ [(feed, arg)]) v := by
  have hsplit : (replaced ++ [(feed, arg)]).lookup v =
      (replaced.lookup v).or (if v = feed then some arg else none) := by
    rw [lookup_append, lookup_cons_eq_ite, lookup_nil]
  by_cases hv : v ∈ replaced.map Prod.fst
  · have hother : standIn replaced v ≠ feed := hfresh _ (mem_of_mem_fst hv)
    obtain ⟨old, hold⟩ := isSome_iff_exists.mp (lookup_isSome_iff.mpr hv)
    rw [redirect, if_neg hother, standIn, standIn, hsplit, hold, some_or]
  · rw [standIn_of_not_mem hv, standIn, hsplit, lookup_eq_none_of_not_mem hv, none_or, redirect]
    split_ifs <;> rfl

/-- In `m` new arguments of the graph stand in for the values of `done`. -/
structure Fed (p : Program) (done : List ValueId) (replaced : List (ValueId × ValueId))
    (m : Program) : Prop where
  consistent : m.Consistent
  op? : ∀ x, m.op? x = (p.op? x).map fun node ↦
    { node with operands := node.operands.map (standIn replaced) }
  region? : ∀ r, m.region? r = (p.region? r).map fun region ↦
    if r = p.graph then { region with args := region.args ++ replaced.map Prod.snd } else region
  funcs : m.funcs = p.funcs
  graph : m.graph = p.graph
  type : ∀ v, (p.value? v).isSome → m.typeOf? v = p.typeOf? v
  origin : ∀ v, (p.value? v).isSome → m.originOf? v = p.originOf? v
  sources : replaced.map Prod.fst = done.eraseDups
  fresh : ∀ pair ∈ replaced, p.value? pair.2 = none
  types : ∀ pair ∈ replaced, (p.value? pair.1).isSome ∧ m.typeOf? pair.2 = p.typeOf? pair.1

lemma Fed.start (h : p.Consistent) : Fed p [] [] p := by
  have hself : standIn [] = id := rfl
  refine ⟨h, fun x ↦ ?_, fun r ↦ ?_, rfl, rfl, fun _ _ ↦ rfl, fun _ _ ↦ rfl, rfl, fun _ hpair ↦
    ?_, fun _ hpair ↦ ?_⟩
  · simp [hself]
  · simp
  · cases hpair
  · cases hpair

lemma Fed.known (h : Fed p done replaced m) (hv : (p.value? v).isSome) : (m.value? v).isSome := by
  have horigin := congrArg Option.isSome (h.origin v hv)
  rw [originOf?, isSome_map, originOf?, isSome_map] at horigin
  rw [horigin]
  exact hv

lemma isSome_region?_graph (h : p.Consistent) : (p.region? p.graph).isSome :=
  isSome_region?_of_ownerOf? h.placed.graph

lemma Fed.feed (h : Fed p done replaced m) {feed : ValueId} (hfeed : (p.value? feed).isSome)
    (hnew : feed ∉ done) : Fed p (done ++ [feed]) (replaced ++ [(feed, m.nextValue)])
    ((m.withArg p.graph (m.typeAt feed)).redirected feed m.nextValue) := by
  have hfresh : m.value? m.nextValue = none := value?_nextValue m
  have hknown : ∀ v, (p.value? v).isSome → v ≠ m.nextValue := by
    rintro v hv rfl
    have hsome := h.known hv
    rw [hfresh] at hsome
    cases hsome
  have hgraph : (m.region? p.graph).isSome := h.graph ▸ isSome_region?_graph h.consistent
  have hm := h.consistent.withArg hgraph (m.typeAt feed)
  have hvalue : ((m.withArg p.graph (m.typeAt feed)).value? m.nextValue).isSome := by
    change ((m.pushValue _ _).value? m.nextValue).isSome
    rw [value?_pushValue, if_pos rfl]
    rfl
  have hsame := SameValues.redirected (m.withArg p.graph (m.typeAt feed)) feed m.nextValue
  have hold : ∀ v, (m.value? v).isSome →
      ((m.withArg p.graph (m.typeAt feed)).redirected feed m.nextValue).typeOf? v = m.typeOf? v :=
      fun v hv ↦ by
    rw [hsame.typeOf?, typeOf?_withArg, if_pos (isSome_value?_iff.mp hv)]
  have hsource : ∀ pair ∈ replaced, pair.2 ≠ feed := by
    rintro pair hpair rfl
    rw [h.fresh pair hpair] at hfeed
    cases hfeed
  refine ⟨hm.redirected hvalue (hknown feed hfeed), fun x ↦ ?_, fun r ↦ ?_, ?_, ?_, fun v hv ↦ ?_,
    fun v hv ↦ ?_, ?_, fun pair hpair ↦ ?_, fun pair hpair ↦ ?_⟩
  · have hstandIn := funext (redirect_standIn m.nextValue hsource)
    rw [op?_redirected hm.uses (hknown feed hfeed), ← hstandIn]
    change (m.op? x).map _ = _
    rw [h.op?, Option.map_map]
    simp only [Function.comp_def, List.map_map]
  · have hregion : ((m.withArg p.graph (m.typeAt feed)).redirected feed m.nextValue).region? r =
        (m.withArg p.graph (m.typeAt feed)).region? r := by
      rw [redirected_rest]
      rfl
    rw [hregion, withArg, region?_modifyRegion]
    change (if r = p.graph then (m.region? r).map _ else m.region? r) = _
    rw [h.region?]
    by_cases hr : r = p.graph
    · rw [if_pos hr, Option.map_map]
      simp [hr, Function.comp_def]
    · simp [hr]
  · rw [redirected_rest]
    exact h.funcs
  · rw [redirected_rest]
    exact h.graph
  · rw [hold v (h.known hv), h.type v hv]
  · rw [hsame.originOf?, ← h.origin v hv]
    refine (congrArg (Option.map Value.origin) (value?_pushValue m _ _ v)).trans ?_
    rw [if_neg (hknown v hv)]
    rfl
  · rw [map_append, h.sources, eraseDups_concat, if_neg hnew]
    rfl
  · rcases mem_append.mp hpair with hpair | hpair
    · exact h.fresh pair hpair
    · obtain rfl := mem_singleton.mp hpair
      by_contra hsome
      exact hknown _ (ne_none_iff_isSome.mp hsome) rfl
  · rcases mem_append.mp hpair with hpair | hpair
    · obtain ⟨hsource, htype⟩ := h.types pair hpair
      refine ⟨hsource, (hold pair.2 ?_).trans htype⟩
      have hsome := congrArg Option.isSome htype
      rw [typeOf?, isSome_map, typeOf?, isSome_map] at hsome
      rwa [hsome]
    · obtain rfl := mem_singleton.mp hpair
      refine ⟨hfeed, ?_⟩
      have hnext : ¬ m.nextValue.index < m.values.length := Nat.lt_irrefl _
      rw [hsame.typeOf?, typeOf?_withArg, if_neg hnext, if_pos rfl, ← h.type feed hfeed,
        typeOf?_eq_typeAt (isSome_value?_iff.mp (h.known hfeed))]

lemma Fed.succeeds_feedArgument (h : Fed p done replaced m)
    {feed : ValueId} (hfeed : (p.value? feed).isSome) :
    Succeeds (feedArgument p.graph replaced feed) m (Fed p (done ++ [feed])) := by
  have hseen : (replaced.lookup feed).isSome ↔ feed ∈ done := by
    rw [lookup_isSome_iff, h.sources, mem_eraseDups]
  unfold feedArgument
  split_ifs with hdone
  · rw [hseen] at hdone
    exact .of_ok rfl { h with sources := by rw [h.sources, eraseDups_concat, if_pos hdone] }
  · have hfed := h.feed hfeed (mt hseen.mpr hdone)
    have hgraph : (m.region? p.graph).isSome := h.graph ▸ isSome_region?_graph h.consistent
    have hne : feed ≠ m.nextValue := by
      rintro rfl
      have hsome := h.known hfeed
      rw [value?_nextValue] at hsome
      cases hsome
    have hvalue : ∀ v, ((m.withArg p.graph (m.typeAt feed)).value? v).isSome ↔ v = m.nextValue ∨
        (m.value? v).isSome := by
      intro v
      change ((m.pushValue _ _).value? v).isSome ↔ _
      rw [value?_pushValue]
      by_cases hv : v = m.nextValue <;> simp [hv]
    exact .read_bind (valueType_eq_ok (isSome_value?_iff.mp (h.known hfeed)))
      (.bind_of_ok (addArg_exec hgraph _) (.bind_of_ok
      (replaceUses_exec ((hvalue _).mpr (.inr (h.known hfeed))) ((hvalue _).mpr (.inl rfl)) hne)
      (.of_ok rfl hfed)))

lemma succeeds_feedArguments (h : p.Consistent) (hfeeds : ∀ feed ∈ feeds, (p.value? feed).isSome) :
    Succeeds (feedArguments p.graph feeds) p (Fed p feeds) :=
  .foldlM (R := Fed p) (fun _ feed hfeed _ _ hm ↦ hm.succeeds_feedArgument (hfeeds feed hfeed))
    (.start h)

namespace Fed

variable (h : Fed p done replaced m)

include h

lemma sameTree : SameTree p m := by
  refine .of_ops h.op? (fun _ _ ↦ rfl) (fun _ _ ↦ rfl) (fun _ _ ↦ rfl) (fun r ↦ ?_)
    (fun r ↦ ?_) h.funcs h.graph
  · rw [opsIn, h.region?, opsIn]
    cases p.region? r with
    | none => rfl
    | some region => by_cases hr : r = p.graph <;> simp [hr]
  · rw [ownerOf?, h.region?, ownerOf?]
    cases p.region? r with
    | none => rfl
    | some region => by_cases hr : r = p.graph <;> simp [hr]

lemma operandsOf (x : OpId) : m.operandsOf x = (p.operandsOf x).map (standIn replaced) := by
  rw [Program.operandsOf, h.op?, Program.operandsOf]
  cases p.op? x <;> rfl

lemma resultsOf (x : OpId) : m.resultsOf x = p.resultsOf x := by
  rw [Program.resultsOf, h.op?, Option.map_map, Program.resultsOf]
  rfl

lemma controlOf (x : OpId) : m.controlOf x = p.controlOf x := by
  rw [Program.controlOf, h.op?, Option.map_map, Program.controlOf]
  rfl

lemma argsOf_graph (hp : p.Consistent) :
    m.argsOf p.graph = p.argsOf p.graph ++ replaced.map Prod.snd := by
  obtain ⟨region, hregion, -⟩ := map_eq_some_iff.mp hp.placed.graph
  rw [argsOf, h.region?, hregion, map_some, if_pos rfl, argsOf_eq hregion]
  rfl

lemma argsOf_of_ne (hr : r ≠ p.graph) : m.argsOf r = p.argsOf r := by
  rw [argsOf, h.region?, argsOf]
  simp [hr]

lemma holds_iff : m.Holds o x ↔ p.Holds o x :=
  h.sameTree.holds_iff

lemma mem_sources : v ∈ replaced.map Prod.fst ↔ v ∈ done := by
  rw [h.sources, mem_eraseDups]

lemma origin_standIn (hp : p.Consistent) (hv : v ∈ done) :
    ∃ i, m.originOf? (standIn replaced v) = some (.argument p.graph i) := by
  have hmem : standIn replaced v ∈ m.argsOf p.graph := by
    rw [h.argsOf_graph hp]
    exact mem_append_right _ (mem_map_of_mem (mem_of_mem_fst (h.mem_sources.mpr hv)))
  obtain ⟨i, hi⟩ := mem_iff_getElem?.mp hmem
  exact ⟨i, h.consistent.placed.args _ i _ hi⟩

end Fed

/-! ### Operations that are erased -/

/-- The operation is that of a feed, waits for nothing and is no control result, and without what
the operations in `earlier` hold, nothing reads its results or waits for it. -/
structure Dropped (plan : Plan) (p : Program) (reads : OpId → List ValueId) (earlier : List OpId)
    (o : OpId) : Prop where
  fed : ∃ feed ∈ plan.feeds, feed ∈ p.resultsOf o
  control : p.controlOf o = []
  spare : o ∉ plan.controlResults
  unused : ∀ x, (∀ d ∈ earlier, ¬ p.Holds d x) → ∀ v ∈ p.resultsOf o, v ∉ reads x
  unawaited : ∀ x, (∀ d ∈ earlier, ¬ p.Holds d x) → o ∉ p.controlOf x

/-- Operations of feeds have been erased, here with the last one first, and nothing else has
changed. -/
structure Trimmed (plan : Plan) (p : Program) (erased : List OpId) (q : Program) : Prop where
  consistent : q.Consistent
  gone : ∀ o ∈ erased, ∀ x, p.Holds o x → q.op? x = none
  kept : ∀ x, (∀ o ∈ erased, ¬ p.Holds o x) → q.op? x = p.op? x
  owner : ∀ r, q.ownerOf? r = p.ownerOf? r ∨ ∃ o, p.ownerOf? r = some (.op o)
  args : ∀ r, q.argsOf r = p.argsOf r
  values : SameValues p q
  funcs : q.funcs = p.funcs
  graph : q.graph = p.graph
  dropped : ∀ o earlier, o :: earlier <:+ erased → Dropped plan p p.operandsOf earlier o
  terminated : Terminated p →
    (∀ o, (∃ feed ∈ plan.feeds, feed ∈ p.resultsOf o) → p.isEnd o = false) → Terminated q

namespace Trimmed

variable {plan : Plan} {erased : List OpId}

lemma refl (hp : p.Consistent) : Trimmed plan p [] p where
  consistent := hp
  gone o ho := absurd ho not_mem_nil
  kept _ _ := rfl
  owner _ := .inl rfl
  args _ := rfl
  values := .refl p
  funcs := rfl
  graph := rfl
  dropped o earlier h := by simp at h
  terminated h _ := h

section Left

variable (h : Trimmed plan p erased q)

include h

lemma not_holds_of_live (hx : (q.op? x).isSome) (ho : o ∈ erased) : ¬ p.Holds o x := by
  intro hheld
  rw [h.gone o ho x hheld] at hx
  cases hx

lemma op?_of_live (hx : (q.op? x).isSome) : q.op? x = p.op? x :=
  h.kept x fun _ ho ↦ h.not_holds_of_live hx ho

lemma missing (hlive : (p.op? x).isSome) (hgone : q.op? x = none) : ∃ o ∈ erased, p.Holds o x := by
  by_contra hnone
  rw [← h.kept x fun o ho hheld ↦ hnone ⟨o, ho, hheld⟩, hgone] at hlive
  cases hlive

lemma dropped_of_mem (ho : o ∈ erased) :
    ∃ earlier ⊆ erased, Dropped plan p p.operandsOf earlier o := by
  obtain ⟨front, back, rfl⟩ := append_of_mem ho
  exact ⟨back, fun d hd ↦ by simp [hd], h.dropped o back (suffix_append _ _)⟩

variable (hp : p.Consistent)

include hp

lemma mem_opsIn (hx : (q.op? x).isSome) : x ∈ q.opsIn r ↔ x ∈ p.opsIn r := by
  rw [h.consistent.mem_opsIn, hp.mem_opsIn, parentOf?, h.op?_of_live hx, parentOf?]

lemma shrinks : Shrinks p q := by
  refine ⟨fun x ↦ ?_, fun r x hx ↦ ?_⟩
  · cases hx : q.op? x with
    | none => exact .inr rfl
    | some node => exact .inl (hx ▸ h.op?_of_live (isSome_of_eq_some hx))
  · exact (h.mem_opsIn hp (h.consistent.isSome_of_mem_opsIn hx)).mp hx

lemma holds_of_live (hx : p.Holds o x) (hlive : (q.op? x).isSome) : q.Holds o x := by
  induction hx with
  | self => exact .self
  | @inner y x r hy hr hx ih =>
    have hy' : (q.op? y).isSome := by
      by_contra hgone
      rw [not_isSome_iff_eq_none] at hgone
      obtain ⟨o', ho', hheld⟩ := h.missing (isSome_of_mem_regionsOf hr) hgone
      exact h.not_holds_of_live hlive ho' (hheld.inner hr hx)
    refine (ih hy').inner ?_ ((h.mem_opsIn hp hlive).mpr hx)
    rw [regionsOf, h.op?_of_live hy', ← regionsOf]
    exact hr

end Left

lemma succeeds_eraseOp (h : Trimmed plan p erased q) (hp : p.Consistent) {node : Operation}
    (hnode : q.op? o = some node) (hfed : ∃ feed ∈ plan.feeds, feed ∈ p.resultsOf o)
    (hisolated : isIsolated q plan.controlResults o node = true) :
    Succeeds (eraseOp o) q fun _ q' ↦ Trimmed plan p (o :: erased) q' := by
  have hq := h.consistent
  have hsame := h.op?_of_live (isSome_of_eq_some hnode)
  unfold isIsolated at hisolated
  simp only [Bool.and_eq_true, List.isEmpty_iff, Bool.not_eq_true', contains_eq_mem,
    decide_eq_false_iff_not, List.all_eq_true, Option.any_eq_true] at hisolated
  obtain ⟨⟨⟨hidle, hcontrol⟩, hdependents⟩, hspare⟩ := hisolated
  have hunused : ∀ v ∈ q.resultsOf o, ∀ x, v ∉ q.operandsOf x := by
    intro v hv
    rw [resultsOf_eq hnode] at hv
    obtain ⟨value, hvalue, hnone⟩ := hidle v hv
    refine hq.uses.not_mem_operandsOf ?_
    rw [usersOf_eq hvalue]
    simpa [Value.hasUses] using hnone
  have hunawaited : ∀ x, o ∉ q.controlOf x :=
    fun x hx ↦ not_mem_nil (hdependents ▸ mem_controlDependents.mpr hx)
  refine ((Edit.succeeds_eraseOp hq hnode hunused hunawaited).and fun _ q' hok ↦ ?_).imp fun _ _ h ↦
    h.2
  have hgone := fun x ↦ (eraseOp_op? hq hok x).1
  have hop : ∀ x, ¬ q.Holds o x → q'.op? x = q.op? x := by
    intro x hx
    rw [(eraseOp_op? hq hok x).2 hx]
    cases hx' : q.op? x with
    | none => rfl
    | some other =>
      have hother := hunawaited x
      rw [controlOf_eq hx'] at hother
      rw [map_some, if_neg hother]
  obtain ⟨howner, hargs, hfuncs, hgraph⟩ := eraseOp_rest hq hok
  refine ⟨(keeps_eraseOp o).of_ok hq hok, fun d hd x hheld ↦ ?_, fun x hx ↦ ?_, fun r ↦ ?_,
    fun r ↦ (hargs r).trans (h.args r), h.values.trans (.of_eraseOp hok), hfuncs.trans h.funcs,
    hgraph.trans h.graph, fun d earlier hsuffix ↦ ?_, fun hterm hends ↦ ?_⟩
  · -- What has gone stays away, and what the operation held goes with it.
    by_cases hlive : (q.op? x).isSome
    · rcases mem_cons.mp hd with rfl | hd
      · exact hgone x (h.holds_of_live hp hheld hlive)
      · exact absurd hheld (h.not_holds_of_live hlive hd)
    · rw [not_isSome_iff_eq_none] at hlive
      by_cases hheld' : q.Holds o x
      · exact hgone x hheld'
      · rw [hop x hheld', hlive]
  · obtain ⟨hself, hothers⟩ := forall_mem_cons.mp hx
    rw [hop x fun hheld ↦ hself (.of_shrinks (h.shrinks hp) hheld), h.kept x hothers]
  · rcases howner r with hr | ⟨d, hd⟩
    · rw [hr]
      exact h.owner r
    · rcases h.owner r with hr | hcut
      · exact .inr ⟨d, hr ▸ hd⟩
      · exact .inr hcut
  · rcases suffix_cons_iff.mp hsuffix with hnew | hold
    · obtain ⟨rfl, rfl⟩ := List.cons.inj hnew
      refine ⟨hfed, ?_, hspare, fun x hx v hv ↦ ?_, fun x hx ↦ ?_⟩
      · rw [controlOf, ← hsame, ← controlOf, controlOf_eq hnode, hcontrol]
      · rw [operandsOf, ← h.kept x hx, ← operandsOf]
        exact hunused v (by rwa [resultsOf, hsame, ← resultsOf]) x
      · rw [controlOf, ← h.kept x hx, ← controlOf]
        exact hunawaited x
    · exact h.dropped d earlier hold
  · refine (terminated_eraseOp hq (h.terminated hterm hends) ?_ hok).1
    rw [isEnd, hsame]
    exact hends o hfed

lemma succeeds_eraseFeds (h : Trimmed plan p erased q) (hp : p.Consistent)
    (hfeeds : ∀ feed ∈ feeds, feed ∈ plan.feeds ∧ ∃ (o : OpId) (i : Nat),
    (p.resultsOf o)[i]? = some feed) : Succeeds (feeds.forM (eraseFed plan.controlResults)) q
    fun _ q' ↦ ∃ erased, Trimmed plan p erased q' := by
  refine (Succeeds.forM (R := fun rest m ↦ (∃ erased, Trimmed plan p erased m) ∧ rest ⊆ feeds) ?_
    ⟨⟨erased, h⟩, Subset.refl _⟩).imp fun _ _ h ↦ h.1
  rintro feed rest m ⟨⟨erased, hm⟩, hrest⟩
  have hrest' : rest ⊆ feeds := fun v hv ↦ hrest (mem_cons_of_mem _ hv)
  obtain ⟨hfeed, o, i, hresult⟩ := hfeeds feed (hrest mem_cons_self)
  have horigin := (hm.values.originOf? feed).trans (hp.placed.results o i feed hresult)
  obtain ⟨value, hvalue, hmade⟩ := map_eq_some_iff.mp horigin
  have hdefining : value.definingOp? = some o := definingOp?_eq_some.mpr ⟨i, hmade⟩
  refine .read_bind (value_eq_ok.mpr hvalue) ?_
  rw [hdefining]
  refine .get_bind ?_
  cases hnode : m.op? o with
  | none => exact .of_ok rfl ⟨⟨erased, hm⟩, hrest'⟩
  | some node =>
    dsimp only
    split_ifs with hisolated
    · exact (hm.succeeds_eraseOp hp hnode ⟨feed, hfeed, mem_of_getElem? hresult⟩ hisolated).imp
        fun _ _ h ↦ ⟨⟨_, h⟩, hrest'⟩
    · exact .of_ok rfl ⟨⟨erased, hm⟩, hrest'⟩

end Trimmed

/-! ### The end of the function -/

lemma opsIn_nextRegion (p : Program) : p.opsIn p.nextRegion = [] := by
  have hnone := map_eq_none_iff.mp (ownerOf?_nextRegion p)
  rw [opsIn, hnone]
  rfl

/-- The graph of `p` has become the body of a function, with an operation at its end, and the new
graph is empty. -/
structure Closes (p q : Program) (func : Func) (last : OpId) (node : Operation) : Prop where
  consistent : q.Consistent
  op? : ∀ x, q.op? x = if x = last then some node else p.op? x
  unused : p.op? last = none
  opsIn : ∀ r, q.opsIn r = if r = p.graph then p.opsIn r ++ [last] else p.opsIn r
  owner : ∀ r, q.ownerOf? r = if r = p.nextRegion then some .graph else
    if r = p.graph then some .function else p.ownerOf? r
  args : ∀ r, q.argsOf r = p.argsOf r
  values : SameValues p q
  funcs : q.funcs = p.funcs ++ [func]
  graph : q.graph = p.nextRegion
  body : func.body = p.graph
  argAttrs : func.argAttrs.length = (p.argsOf p.graph).length
  resultAttrs : func.resultAttrs.length = func.resultTypes.length
  leaf : node.regions = []
  bare : node.results = []
  kind : node.kind = returnKind

section

variable (hp : p.Consistent) (hname : p.func? name = none) (resultTypes : List TensorType)

include hp hname

lemma graphIntoFunction_exec : (graphIntoFunction name resultTypes).exec p =
    (.ok p.graph, p.withNewGraph.withFunc name p.graph resultTypes) := by
  obtain ⟨region, hregion⟩ := isSome_iff_exists.mp (isSome_region?_graph hp)
  have hcheck : (checkFunctionName name).exec p = (.ok ⟨⟩, p) := by
    rw [checkFunctionName, exec_get_bind, hname]
    rfl
  unfold graphIntoFunction
  rw [exec_bind_of_ok hcheck, exec_get_bind, bind_readRegion hregion, exec_get_bind, exec_bind_of_ok
    (exec_modify _ _)]
  change (pushFunc name p.graph resultTypes >>= fun _ ↦ pure p.graph).exec p.withNewGraph = _
  rw [exec_bind_of_ok (pushFunc_exec hp.placed.isSome_graph_withNewGraph name resultTypes)]
  rfl

lemma succeeds_finish {operands : List ValueId} {control : List OpId} (hoperands : ∀ v ∈ operands,
    v.index < p.values.length) (hcontrol : ∀ d ∈ control, (p.op? d).isSome) : Succeeds (do
      let body ← graphIntoFunction name resultTypes
      let _ ← appendOp body { kind := returnKind, operands, control }
      return true) p fun changed q ↦ changed = true ∧ ∃ func last node, Closes p q func last node ∧
        func.name = name ∧ func.resultTypes = resultTypes ∧ node.operands = operands ∧
        node.control = control.eraseDups := by
  have hfunc := graphIntoFunction_exec hp hname resultTypes
  have hn := (through_graphIntoFunction name resultTypes).keeps.of_ok hp hfunc
  have hgraph : ((p.withNewGraph.withFunc name p.graph resultTypes).region? p.graph).isSome :=
    hp.placed.isSome_graph_withNewGraph
  have hlast := appendOp_exec { kind := returnKind, operands, control } hgraph hoperands hcontrol
  have hq := (makes_appendOp _ _).keeps.of_ok hn hlast
  refine .bind_of_ok hfunc (.bind_of_ok hlast (.of_ok rfl ⟨rfl, ?_⟩))
  have hops : ∀ r, (p.withNewGraph.withFunc name p.graph resultTypes).opsIn r = p.opsIn r :=
    opsIn_withNewGraph p
  have hargs : ∀ r, (p.withNewGraph.withFunc name p.graph resultTypes).argsOf r = p.argsOf r :=
    argsOf_withNewGraph p
  refine ⟨⟨name, p.graph, resultTypes, .replicate (p.withNewGraph.argsOf p.graph).length .empty,
    .replicate resultTypes.length .empty, .empty⟩, _, _, ⟨hq, hn.uses.free.op?_withOp _ _ _,
    hp.uses.free.op?_nextOp, fun r ↦ ?_, fun r ↦ ?_, fun r ↦ ?_, ?_, funcs_withOp _ _ _,
    graph_withOp _ _ _, rfl, ?_, ?_, regions_nodeOf _ _, rfl, rfl⟩, rfl, rfl, rfl, rfl⟩
  · rw [opsIn_withOp _ hgraph, hops, insertIdx_length_self, hops]
    split_ifs with hr
    · rw [hr]
    · rfl
  · rw [← hp.placed.ownerOf?_withNewGraph, ownerOf?_withOp]
    rfl
  · rw [← hargs, argsOf_withOp]
  · exact SameValues.trans (.of_values rfl) (.withOp_of_nil _ _ _ rfl)
  · rw [length_replicate]
    exact congrArg List.length (hargs p.graph)
  · exact length_replicate

end

namespace Closes

variable {func : Func} {last : OpId} {node : Operation} (h : Closes p q func last node)

include h

lemma op?_of_live (hx : (p.op? x).isSome) : q.op? x = p.op? x := by
  rw [h.op?, if_neg]
  rintro rfl
  rw [h.unused] at hx
  cases hx

lemma op?_last : q.op? last = some node := by
  rw [h.op?, if_pos rfl]

lemma mem_opsIn (hx : x ≠ last) : x ∈ q.opsIn r ↔ x ∈ p.opsIn r := by
  rw [h.opsIn]
  split_ifs
  · simp [hx]
  · rfl

end Closes

/-! ### The pass -/

lemma mem_graph_of_resolveOp (h : resolveOp p name = .ok o) : o ∈ p.opsIn p.graph := by
  unfold resolveOp at h
  cases hfind : p.findOp? p.graph name with
  | none =>
    rw [hfind] at h
    cases h
  | some found =>
    rw [hfind] at h
    cases h
    obtain ⟨region, hregion, hfound⟩ := bind_eq_some_iff.mp hfind
    rw [opsIn_eq hregion]
    exact mem_of_find?_eq_some hfound

lemma exists_result_of_resolveValue {entry : String} (h : resolveValue p entry = .ok v) :
    ∃ o ∈ p.opsIn p.graph, ∃ i : Nat, (p.resultsOf o)[i]? = some v := by
  obtain ⟨⟨name, index⟩, -, h⟩ := check_bind_eq_ok.mp h
  obtain ⟨o, ho, h⟩ := check_bind_eq_ok.mp h
  refine ⟨o, mem_graph_of_resolveOp ho, index, ?_⟩
  cases hresult : p.result o index with
  | error err =>
    rw [hresult] at h
    cases h
  | ok found =>
    rw [hresult] at h
    cases h
    exact result_eq_ok.mp hresult

lemma plan_eq_ok (h : plan settings p = .ok found) : p.func? settings.funcName = none ∧
    (∀ v ∈ found.feeds, ∃ o ∈ p.opsIn p.graph, ∃ i : Nat, (p.resultsOf o)[i]? = some v) ∧
    (∀ v ∈ found.fetches, ∃ o ∈ p.opsIn p.graph, ∃ i : Nat, (p.resultsOf o)[i]? = some v) ∧
    ∀ o ∈ found.controlResults, o ∈ p.opsIn p.graph := by
  unfold plan at h
  split_ifs at h with hname
  · cases h
  · obtain ⟨feeds, hfeeds, h⟩ := check_bind_eq_ok.mp h
    obtain ⟨fetches, hfetches, h⟩ := check_bind_eq_ok.mp h
    obtain ⟨controlResults, hcontrol, h⟩ := check_bind_eq_ok.mp h
    cases h
    refine ⟨not_isSome_iff_eq_none.mp hname, fun v hv ↦ ?_, fun v hv ↦ ?_, fun o ho ↦ ?_⟩
    · obtain ⟨entry, -, hentry⟩ := exists_of_mem_mapM hfeeds hv
      exact exists_result_of_resolveValue hentry
    · obtain ⟨entry, -, hentry⟩ := exists_of_mem_mapM hfetches hv
      exact exists_result_of_resolveValue hentry
    · obtain ⟨name, -, hname⟩ := exists_of_mem_mapM hcontrol ho
      exact mem_graph_of_resolveOp hname

lemma eq_of_holds_graph (hp : p.Consistent) (hx : x ∈ p.opsIn p.graph)
    (h : p.Holds o x) : x = o := by
  cases h with
  | self => rfl
  | @inner y _ r _ hr hx' =>
    cases (hp.mem_opsIn.mp hx).symm.trans (hp.mem_opsIn.mp hx')
    have howner := parentOp?_eq_some.mp (hp.mem_regionsOf.mp hr)
    rw [hp.placed.graph] at howner
    cases howner

structure Stages (settings : Settings) (found : Plan) (replaced : List (ValueId × ValueId))
    (erased : List OpId) (func : Func) (last : OpId) (node : Operation)
    (p b m q : Program) : Prop where
  fed : Fed p found.feeds replaced b
  trimmed : Trimmed found b erased m
  closes : Closes m q func last node
  name : func.name = settings.funcName
  results : func.resultTypes.length = found.fetches.length
  operands : node.operands = found.fetches.map (standIn replaced)
  control : node.control = found.controlResults.eraseDups

section Erased

variable {erased : List OpId} {b : Program} (hp : p.Consistent)
  (hfed : Fed p found.feeds replaced b) (htrimmed : Trimmed found b erased m)

include hp hfed htrimmed

lemma isSome_of_mem_graph (ho : o ∈ p.opsIn p.graph) (hkept : o ∉ erased) : (m.op? o).isSome := by
  obtain ⟨node, hnode, -⟩ := exists_op_of_parentOf? (hp.mem_opsIn.mp ho)
  rw [htrimmed.kept o fun d hd hheld ↦ ?_, hfed.op?, hnode]
  · rfl
  · rw [hfed.holds_iff] at hheld
    exact hkept (eq_of_holds_graph hp ho hheld ▸ hd)

end Erased

lemma succeeds_run (hp : p.Consistent) (hplan : plan settings p = .ok found) :
    Succeeds (run settings) p fun changed q ↦ changed = true ∧ ∃ replaced erased func last node b m,
      Stages settings found replaced erased func last node p b m q := by
  obtain ⟨hname, hfeeds, hfetches, hcontrol⟩ := plan_eq_ok hplan
  refine .read_bind hplan
    (.get_bind (.bind (succeeds_feedArguments hp fun v hv ↦ ?_) fun replaced b hfed ↦
    .bind ((Trimmed.refl hfed.consistent).succeeds_eraseFeds hfed.consistent fun v hv ↦
    ⟨hv, ?_⟩) ?_))
  · obtain ⟨o, -, i, hi⟩ := hfeeds v hv
    exact isSome_value?_of_originOf? (hp.placed.results o i v hi)
  · obtain ⟨o, -, i, hi⟩ := hfeeds v hv
    exact ⟨o, i, by rw [hfed.resultsOf, hi]⟩
  · rintro _ m ⟨erased, htrimmed⟩
    have hm := htrimmed.consistent
    have hresults : ∀ w ∈ found.fetches.map (standIn replaced), w.index < m.values.length := by
      intro w hw
      obtain ⟨v, hv, rfl⟩ := mem_map.mp hw
      have horigin : ∃ origin, b.originOf? (standIn replaced v) = some origin := by
        by_cases hfeed : v ∈ found.feeds
        · obtain ⟨i, hi⟩ := hfed.origin_standIn hp hfeed
          exact ⟨_, hi⟩
        · obtain ⟨o, -, i, hi⟩ := hfetches v hv
          have horigin := hp.placed.results o i v hi
          rw [standIn_of_not_mem (mt hfed.mem_sources.mp hfeed), hfed.origin v
            (isSome_value?_of_originOf? horigin)]
          exact ⟨_, horigin⟩
      obtain ⟨origin, horigin⟩ := horigin
      exact lt_of_originOf? ((htrimmed.values.originOf? _).trans horigin)
    have hlive : ∀ o ∈ found.controlResults, (m.op? o).isSome := by
      intro o ho
      refine isSome_of_mem_graph hp hfed htrimmed (hcontrol o ho) fun hmem ↦ ?_
      obtain ⟨earlier, -, hdropped⟩ := htrimmed.dropped_of_mem hmem
      exact hdropped.spare ho
    have hname' : m.func? settings.funcName = none := by
      rw [func?, htrimmed.funcs, hfed.funcs]
      exact hname
    refine .bind_of_ok (exec_mapM_read fun v hv ↦ valueType_eq_ok (hresults v hv))
      ((succeeds_finish hm hname' _ hresults hlive).imp ?_)
    rintro changed q ⟨hchanged, func, last, node, hcloses, hfunc, htypes, hoperands, hends⟩
    refine ⟨hchanged, replaced, erased, func, last, node, b, m, hfed, htrimmed, hcloses, hfunc,
      ?_, hoperands, hends⟩
    rw [htypes, length_map, length_map]

/-- The graph of `p` is the body of a new function of `q`. The feeds have new arguments for
stand-ins, with their types, which are what operations read in their place, and that is the only
change to the operations that are left. Those in `erased` have gone with all that they held, the
last one first, each when nothing was left that needed it. What ends the body is given the fetches
and waits for the control results. -/
structure Enclosed (settings : Settings) (found : Plan) (replaced : List (ValueId × ValueId))
    (erased : List OpId) (last : OpId) (p q : Program) : Prop where
  sources : replaced.map Prod.fst = found.feeds.eraseDups
  args : q.argsOf p.graph = p.argsOf p.graph ++ replaced.map Prod.snd
  types : ∀ pair ∈ replaced, p.value? pair.2 = none ∧ q.typeOf? pair.2 = p.typeOf? pair.1
  kept : ∀ x node, p.op? x = some node → (∀ o ∈ erased, ¬ p.Holds o x) →
    q.op? x = some { node with operands := node.operands.map (standIn replaced) }
  left : ∀ x, (q.op? x).isSome ↔ x = last ∨ (p.op? x).isSome ∧ ∀ o ∈ erased, ¬ p.Holds o x
  listed : ∀ x, x ∈ q.opsIn p.graph ↔ x = last ∨ x ∈ p.opsIn p.graph ∧ x ∉ erased
  dropped : ∀ o earlier, o :: earlier <:+ erased → o ∈ p.opsIn p.graph ∧
    Dropped found p (fun x ↦ (p.operandsOf x).map (standIn replaced)) earlier o
  func : ∃ func, q.funcs = p.funcs ++ [func] ∧ func.name = settings.funcName ∧ func.body = p.graph
  final : (q.opsIn p.graph).getLast? = some last
  ends : ∃ node, q.op? last = some node ∧ node.kind = returnKind ∧ node.operands =
    found.fetches.map (standIn replaced) ∧ node.control = found.controlResults.eraseDups
  graph : q.graph ≠ p.graph ∧ q.opsIn q.graph = [] ∧ q.argsOf q.graph = []

section Enclosed

variable {erased : List OpId} {func : Func} {last : OpId} {node : Operation} {b : Program}

lemma Fed.dropped (hfed : Fed p found.feeds replaced b) {earlier : List OpId}
    (h : Dropped found b b.operandsOf earlier o) :
    Dropped found p (fun x ↦ (p.operandsOf x).map (standIn replaced)) earlier o := by
  obtain ⟨hfeed, hcontrol, hspare, hunused, hunawaited⟩ := h
  simp only [hfed.resultsOf, hfed.controlOf, hfed.holds_iff,
    hfed.operandsOf] at hfeed hcontrol hunused hunawaited
  exact ⟨hfeed, hcontrol, hspare, hunused, hunawaited⟩

lemma Stages.enclosed (h : Stages settings found replaced erased func last node p b m q)
    (hp : p.Consistent)
    (hfeeds : ∀ v ∈ found.feeds, ∃ o ∈ p.opsIn p.graph, ∃ i : Nat, (p.resultsOf o)[i]? = some v) :
    Enclosed settings found replaced erased last p q := by
  have hgraph : m.graph = p.graph := h.trimmed.graph.trans h.fed.graph
  have hholds : ∀ {x}, (∀ o ∈ erased, ¬ b.Holds o x) ↔ ∀ o ∈ erased, ¬ p.Holds o x := by
    simp only [h.fed.holds_iff, implies_true]
  have hlive : ∀ x, (m.op? x).isSome ↔ (p.op? x).isSome ∧ ∀ o ∈ erased, ¬ p.Holds o x := by
    intro x
    constructor
    · intro hx
      refine ⟨?_, hholds.mp fun o ho ↦ h.trimmed.not_holds_of_live hx ho⟩
      rwa [h.trimmed.op?_of_live hx, h.fed.op?, isSome_map] at hx
    · rintro ⟨hx, hkept⟩
      rwa [h.trimmed.kept x (hholds.mpr hkept), h.fed.op?, isSome_map]
  have hlisted : ∀ x, x ∈ m.opsIn p.graph ↔ x ∈ p.opsIn p.graph ∧ x ∉ erased := by
    intro x
    have hmem : (m.op? x).isSome → (x ∈ m.opsIn p.graph ↔ x ∈ p.opsIn p.graph) := fun hx ↦ by
      rw [h.trimmed.mem_opsIn h.fed.consistent hx, h.fed.sameTree.ops]
    constructor
    · intro hx
      have hx' := h.trimmed.consistent.isSome_of_mem_opsIn hx
      exact ⟨(hmem hx').mp hx, fun herased ↦ ((hlive x).mp hx').2 x herased .self⟩
    · rintro ⟨hx, hkept⟩
      exact (hmem (isSome_of_mem_graph hp h.fed h.trimmed hx hkept)).mpr hx
  have hops : q.opsIn p.graph = m.opsIn p.graph ++ [last] := by
    rw [h.closes.opsIn, hgraph, if_pos rfl]
  have hne : m.nextRegion ≠ m.graph :=
    (ne_nextRegion_of_ownerOf? h.trimmed.consistent.placed.graph).symm
  constructor
  case sources => exact h.fed.sources
  case args => rw [h.closes.args, h.trimmed.args, h.fed.argsOf_graph hp]
  case types =>
    intro pair hpair
    exact ⟨h.fed.fresh pair hpair, (h.closes.values.typeOf? _).trans
      ((h.trimmed.values.typeOf? _).trans (h.fed.types pair hpair).2)⟩
  case kept =>
    intro x before hbefore hkept
    rw [h.closes.op?_of_live ((hlive x).mpr ⟨isSome_of_eq_some hbefore, hkept⟩),
      h.trimmed.kept x (hholds.mpr hkept), h.fed.op?, hbefore]
    rfl
  case left =>
    intro x
    rw [← hlive, h.closes.op?]
    split_ifs with hx <;> simp [hx]
  case listed =>
    intro x
    rw [hops, mem_append, mem_singleton, hlisted, or_comm]
  case dropped =>
    intro o earlier hsuffix
    have hdropped := h.fed.dropped (h.trimmed.dropped o earlier hsuffix)
    obtain ⟨feed, hfeed, hresult⟩ := hdropped.fed
    obtain ⟨d, hd, i, hi⟩ := hfeeds feed hfeed
    exact ⟨hp.eq_of_mem_resultsOf hresult (mem_of_getElem? hi) ▸ hd, hdropped⟩
  case func =>
    refine ⟨func, ?_, h.name, h.closes.body.trans hgraph⟩
    rw [h.closes.funcs, h.trimmed.funcs, h.fed.funcs]
  case final => rw [hops, getLast?_concat]
  case ends => exact ⟨node, h.closes.op?_last, h.closes.kind, h.operands, h.control⟩
  case graph =>
    refine ⟨?_, ?_, ?_⟩
    · rw [h.closes.graph, ← hgraph]
      exact hne
    · rw [h.closes.graph, h.closes.opsIn, if_neg hne, opsIn_nextRegion]
    · rw [h.closes.graph, h.closes.args, argsOf, map_eq_none_iff.mp (ownerOf?_nextRegion m)]
      rfl

end Enclosed

/-- If a name cannot be resolved, or the function is there already, the program stays as it is.
Otherwise the pass succeeds, and its graph has become a function in which nothing but the feeds was
replaced. -/
theorem enclosed_or_unchanged (settings : Settings) (registry : Registry)
    {p : Program} (hp : Reachable p) : (∀ err, plan settings p = .error err →
      ((pass settings).run registry).exec p = (.error err, p)) ∧
      ∀ found, plan settings p = .ok found → ∃ q replaced erased last,
      ((pass settings).run registry).exec p = (.ok true, q) ∧
        Enclosed settings found replaced erased last p q := by
  refine ⟨fun err herr ↦ ?_, fun found hplan ↦ ?_⟩
  · have hread : (read (plan settings)).exec p = (.error err, p) := by rw [exec_read, herr]
    exact exec_bind_of_error hread _
  · obtain ⟨_, q, hok, rfl, replaced, erased, func, last, node, b, m, hstages⟩ :=
      succeeds_run hp.consistent hplan
    exact ⟨q, replaced, erased, last, hok, hstages.enclosed hp.consistent (plan_eq_ok hplan).2.1⟩

/-- Two sources, one of which holds an operation that waits for the other one, and an operation that
uses both. -/
def twoSources : Program :=
  .built [
    .append ⟨0⟩ { kind := "source", name := "a", resultTypes := [.fixed .f32 []] },
    .append ⟨0⟩ { kind := "source", name := "b", resultTypes := [.unknown] }, .addRegion ⟨1⟩ .once,
    .node 1 "step" [] 0 [0],
    .append ⟨0⟩ { kind := "sum", name := "c", operands := [⟨0⟩, ⟨1⟩, ⟨0⟩], resultTypes :=
      [.unknown] }]

/-- The second source goes with what it holds, and then the first one, which nothing waits for any
more. The end of the function takes a handle that has become free. A name that is not there leaves
the program alone. -/
theorem enclosed_or_unchanged_twoSources :
    let settings : Settings :=
      { feeds := ["b", "a", "b"], fetches := ["c", "a"], controlResults := ["c", "c"] }
    let registry : Registry := NameMap.empty
    let q := (((pass settings).run registry).exec twoSources).2
    Reachable twoSources ∧ q.opsIn ⟨0⟩ = [⟨3⟩, ⟨0⟩] ∧ q.argsOf ⟨0⟩ = [⟨3⟩, ⟨4⟩] ∧
      q.operandsOf ⟨3⟩ = [⟨4⟩, ⟨3⟩, ⟨4⟩] ∧
        (∃ found replaced erased last, plan settings twoSources = .ok found ∧
          ((pass settings).run registry).exec twoSources = (.ok true, q) ∧
      Enclosed settings found replaced erased last twoSources q) ∧
      ((pass { feeds := ["d"] }).run registry).exec twoSources =
      (.error (.structural (.noOpNamed "d")), twoSources) := by
  intro settings registry q
  have hp : Reachable twoSources := reachable_built _
  have hplan : plan settings twoSources = .ok ⟨[⟨1⟩, ⟨0⟩, ⟨1⟩], [⟨2⟩, ⟨0⟩], [⟨3⟩, ⟨3⟩]⟩ :=
    eq_ok_of_toOption (by decide +kernel)
  have hmissing : plan { feeds := ["d"] } twoSources = .error (.structural (.noOpNamed "d")) := rfl
  obtain ⟨q', replaced, erased, last, hok, henclosed⟩ :=
    (enclosed_or_unchanged settings registry hp).2 _ hplan
  obtain rfl : q = q' := congrArg Prod.snd hok
  exact ⟨hp, by decide +kernel, by decide +kernel, by decide +kernel,
    ⟨_, replaced, erased, last, hplan, hok, henclosed⟩,
    (enclosed_or_unchanged { feeds := ["d"] } registry hp).1 _ hmissing⟩

end TensorGraph.GraphFunction
