import TensorGraph.Proofs.TopologicalOrder

/-!
Which programs the sort refuses. A region is refused if data flows in a cycle between the places of
its body, and a path between places is a path between the operations that stand there.
-/

namespace TensorGraph

open List

variable {err : Error} {i j : Nat} {p : Program}
    {step : List (RegionId × List OpId) → RegionId → Except Error (List (RegionId × List OpId))}
    {done : List (RegionId × List OpId)}

lemma Edges.hasCycle_iff {edges : Edges} :
    edges.hasCycle = true ↔ ∃ a, Relation.TransGen (fun x y ↦ (x, y) ∈ edges) a a := by
  constructor
  · intro hcycle
    obtain ⟨⟨a, b⟩, hedge, hback⟩ := any_eq_true.mp hcycle
    exact ⟨a, .head' hedge (mem_reach.mp (contains_iff_mem.mp hback))⟩
  · rintro ⟨a, hloop⟩
    by_contra hcycle
    exact acyclic_of_hasCycle_eq_false (Bool.eq_false_iff.mpr hcycle) a hloop

namespace TopologicalOrder

open Program

/-! ### Cycles of data -/

section

variable (p : Program) (r : RegionId)

/-- Data flows from the family of `a` to the family of `c`. Inside one family only the results of
the operation itself count. -/
def DataLink (a c : OpId) : Prop :=
  a ∈ bodyOps p r ∧ c ∈ bodyOps p r ∧ ∃ producer user, AncestorIn p r producer a ∧
    AncestorIn p r user c ∧ Uses p user producer ∧ (a = c → producer = c)

/-- Data flows from the family of `a` to the family of `c`. Inside one family only the operands of
the operation itself count. -/
def NoticedLink (a c : OpId) : Prop :=
  a ∈ bodyOps p r ∧ c ∈ bodyOps p r ∧ ∃ producer user, AncestorIn p r producer a ∧
    AncestorIn p r user c ∧ Uses p user producer ∧ (a = c → user = c)

/-- Data flows in a cycle between operations of the region. -/
def DataCycle : Prop :=
  ∃ o, Relation.TransGen (DataLink p r) o o

/-- There are two operations to compare, and data is seen to flow in a cycle. -/
def Refused : Prop :=
  2 ≤ (bodyOps p r).length ∧ ∃ o, Relation.TransGen (NoticedLink p r) o o

end

/-- Operations take nothing from inside themselves, their results are not used inside them, and one
that uses its own results is not alone in the region. -/
structure PlainSelfUse (p : Program) (r : RegionId) : Prop where
  ends : ∀ c ∈ bodyOps p r, ∀ producer user, AncestorIn p r producer c → AncestorIn p r user c →
    Uses p user producer → (producer = c ↔ user = c)
  company : ∀ c ∈ bodyOps p r, Uses p c c → 2 ≤ (bodyOps p r).length

section Region

variable {r : RegionId}

lemma noticedLink_eq_dataLink (hplain : PlainSelfUse p r) : NoticedLink p r = DataLink p r := by
  funext a c
  refine propext (and_congr_right fun _ ↦ and_congr_right fun hc ↦ exists_congr fun producer ↦
    exists_congr fun user ↦ and_congr_right fun hproducer ↦ and_congr_right fun huser ↦
    and_congr_right fun huses ↦ forall_congr' fun heq ↦ ?_)
  exact (hplain.ends c hc producer user (heq ▸ hproducer) huser huses).symm

lemma two_le_of_dataCycle (hplain : PlainSelfUse p r) (hcycle : DataCycle p r) :
    2 ≤ (bodyOps p r).length := by
  obtain ⟨o, hloop⟩ := hcycle
  obtain ⟨c, ⟨ho, hc, producer, user, hproducer, huser, huses, hself⟩, -⟩ :=
    Relation.TransGen.head'_iff.mp hloop
  by_cases heq : o = c
  · obtain rfl := hself heq
    obtain rfl := (hplain.ends producer hc producer user (heq ▸ hproducer) huser huses).mp rfl
    exact hplain.company user hc huses
  · exact two_le_length ho hc heq

lemma refused_iff_dataCycle (hplain : PlainSelfUse p r) : Refused p r ↔ DataCycle p r := by
  unfold Refused
  rw [noticedLink_eq_dataLink hplain]
  exact ⟨fun hrefused ↦ hrefused.2, fun hcycle ↦ ⟨two_le_of_dataCycle hplain hcycle, hcycle⟩⟩

/-! ### Cycles between places -/

variable (h : p.Consistent) (hr : p.Attached r)

include h hr

lemma mem_dataEdges_iff : (i, j) ∈ dataEdges p r (bodyOps p r) ↔
    ∃ a c, (bodyOps p r)[i]? = some a ∧ (bodyOps p r)[j]? = some c ∧ NoticedLink p r a c := by
  have hplaces : ∀ {a c}, (bodyOps p r)[i]? = some a → (bodyOps p r)[j]? = some c →
      (a = c ↔ i = j) := by
    intro a c ha hc
    constructor
    · rintro rfl
      exact place_unique h ha hc
    · rintro rfl
      exact Option.some.inj (ha.symm.trans hc)
  constructor
  · intro hedge
    obtain ⟨c, hc, user, huser, hsource⟩ := mem_edgesFrom.mp hedge
    obtain ⟨producer, huses, hplace, hinside⟩ := mem_dataSources.mp hsource
    obtain ⟨a, hproducer, ha⟩ := (placeOf_eq_some h hr).mp hplace
    have hmem : c ∈ bodyOps p r := mem_of_getElem? hc
    refine ⟨a, c, ha, hc, mem_of_getElem? ha, hmem, producer, user, hproducer,
      (mem_family h hr (mem_bodyOps.mp hmem).1).mp huser, huses, fun heq ↦ ?_⟩
    by_contra hother
    exact hinside ⟨(hplaces ha hc).mp heq, hother⟩
  · rintro ⟨a, c, ha, hc, -, hmem, producer, user, hproducer, huser, huses, hself⟩
    refine mem_edgesFrom.mpr ⟨c, hc, user, (mem_family h hr (mem_bodyOps.mp hmem).1).mpr huser, ?_⟩
    refine mem_dataSources.mpr ⟨producer, huses, (placeOf_eq_some h hr).mpr ⟨a, hproducer, ha⟩, ?_⟩
    exact fun hinside ↦ hinside.2 (hself ((hplaces ha hc).mpr hinside.1))

lemma link_of_path (hpath : Relation.TransGen (fun x y ↦ (x, y) ∈ dataEdges p r (bodyOps p r)) i j)
    : ∃ a c, (bodyOps p r)[i]? = some a ∧
    (bodyOps p r)[j]? = some c ∧ Relation.TransGen (NoticedLink p r) a c := by
  induction hpath with
  | single hedge =>
    obtain ⟨a, c, ha, hc, hlink⟩ := (mem_dataEdges_iff h hr).mp hedge
    exact ⟨a, c, ha, hc, .single hlink⟩
  | tail _ hedge ih =>
    obtain ⟨a, b, ha, hb, hfront⟩ := ih
    obtain ⟨b', c, hb', hc, hlink⟩ := (mem_dataEdges_iff h hr).mp hedge
    cases hb.symm.trans hb'
    exact ⟨a, c, ha, hc, hfront.tail hlink⟩

lemma path_of_link {a c : OpId} (hlinks : Relation.TransGen (NoticedLink p r) a c)
    (ha : (bodyOps p r)[i]? = some a) : ∃ j, (bodyOps p r)[j]? = some c ∧
    Relation.TransGen (fun x y ↦ (x, y) ∈ dataEdges p r (bodyOps p r)) i j := by
  induction hlinks with
  | single hlink =>
    obtain ⟨j, hc⟩ := mem_iff_getElem?.mp hlink.2.1
    exact ⟨j, hc, .single ((mem_dataEdges_iff h hr).mpr ⟨a, _, ha, hc, hlink⟩)⟩
  | tail _ hlink ih =>
    obtain ⟨k, hb, hfront⟩ := ih
    obtain ⟨j, hc⟩ := mem_iff_getElem?.mp hlink.2.1
    exact ⟨j, hc, hfront.tail ((mem_dataEdges_iff h hr).mpr ⟨_, _, hb, hc, hlink⟩)⟩

lemma hasCycle_dataEdges_iff : (dataEdges p r (bodyOps p r)).hasCycle = true ↔
    ∃ o, Relation.TransGen (NoticedLink p r) o o := by
  rw [Edges.hasCycle_iff]
  constructor
  · rintro ⟨i, hloop⟩
    obtain ⟨a, c, ha, hc, hlinks⟩ := link_of_path h hr hloop
    cases ha.symm.trans hc
    exact ⟨a, hlinks⟩
  · rintro ⟨o, hlinks⟩
    obtain ⟨c, hlink, -⟩ := Relation.TransGen.head'_iff.mp hlinks
    obtain ⟨i, ho⟩ := mem_iff_getElem?.mp hlink.1
    obtain ⟨j, ho', hpath⟩ := path_of_link h hr hlinks ho
    obtain rfl := place_unique h ho ho'
    exact ⟨i, hpath⟩

lemma newOrder_eq_error_iff : newOrder p r = .error err ↔ Refused p r ∧
    err = .structural (.dataCycle r) := by
  unfold newOrder Refused
  dsimp only
  rw [← hasCycle_dataEdges_iff h hr]
  by_cases hshort : (bodyOps p r).length < 2
  · rw [if_pos hshort]
    constructor
    · intro herr
      cases herr
    · intro hrefused
      omega
  · rw [if_neg hshort]
    by_cases hcycle : (dataEdges p r (bodyOps p r)).hasCycle = true
    · rw [if_pos hcycle]
      constructor
      · intro herr
        exact ⟨⟨Nat.le_of_not_lt hshort, hcycle⟩, (Except.error.inj herr).symm⟩
      · rintro ⟨-, rfl⟩
        rfl
    · rw [if_neg hcycle]
      constructor
      · intro herr
        cases herr
      · rintro ⟨hrefused, -⟩
        exact absurd hrefused.2 hcycle

end Region

/-! ### The pass -/

lemma collect_error
    (hstep : ∀ done r, step done r = (newOrder p r).map fun new ↦ done ++ (new.map (r, ·)).toList)
    {regions : List RegionId} (herr : regions.foldlM step done = .error err) :
    ∃ r ∈ regions, newOrder p r = .error err := by
  induction regions generalizing done with
  | nil => cases herr
  | cons r rest ih =>
    rw [foldlM_cons, hstep] at herr
    rcases hnew : newOrder p r with err' | new
    · rw [hnew] at herr
      obtain rfl := Except.error.inj herr
      exact ⟨r, mem_cons_self, hnew⟩
    · rw [hnew] at herr
      obtain ⟨x, hx, hfails⟩ := ih herr
      exact ⟨x, mem_cons_of_mem r hx, hfails⟩

lemma plan_error (h : p.Consistent) (herr : plan p = .error err) : ∃ r, p.Attached r ∧
    newOrder p r = .error err := by
  obtain ⟨r, hr, hfails⟩ := collect_error (p := p) (fun done r ↦ by
    rcases newOrder p r with err | _ | order
    · rfl
    · exact congrArg Except.ok (append_nil done).symm
    · rfl) herr
  exact ⟨r, (mem_allRegions h).mp hr, hfails⟩

/-- The sort fails exactly if some attached region is refused, and says which one. Where operations
use only their own results among what they produce, and are not alone then, the refused regions are
those with a cycle of data. -/
theorem fails_iff_refused (registry : Registry) {p : Program} (hp : Reachable p) :
    ((∃ err q, (pass.run registry).exec p = (.error err, q)) ↔ ∃ r, p.Attached r ∧ Refused p r) ∧
    (∀ err q, (pass.run registry).exec p = (.error err, q) → ∃ r, p.Attached r ∧ Refused p r ∧
      err = .structural (.dataCycle r)) ∧
    ∀ r, p.Attached r → PlainSelfUse p r → (Refused p r ↔ DataCycle p r) := by
  have h := hp.consistent
  have hcause : ∀ err q, (pass.run registry).exec p = (.error err, q) →
      ∃ r, p.Attached r ∧ Refused p r ∧ err = .structural (.dataCycle r) := by
    intro err q hrun
    rcases hplan : plan p with err' | orders
    · obtain rfl := Except.error.inj (Prod.mk.inj ((exec_run_of_error hplan).symm.trans hrun)).1
      obtain ⟨r, hr, hfails⟩ := plan_error h hplan
      obtain ⟨hrefused, herr⟩ := (newOrder_eq_error_iff h hr).mp hfails
      exact ⟨r, hr, hrefused, herr⟩
    · cases (Prod.mk.inj ((exec_run_of_plan h hplan).symm.trans hrun)).1
  refine ⟨⟨?_, ?_⟩, hcause, fun r _ hplain ↦ refused_iff_dataCycle hplain⟩
  · rintro ⟨err, q, hrun⟩
    obtain ⟨r, hr, hrefused, -⟩ := hcause err q hrun
    exact ⟨r, hr, hrefused⟩
  · rintro ⟨r, hr, hrefused⟩
    rcases hplan : plan p with err | orders
    · exact ⟨err, p, exec_run_of_error hplan⟩
    · obtain ⟨new, hnew, -⟩ := (plan_ok h hplan).1 r hr
      cases hnew.symm.trans ((newOrder_eq_error_iff h hr).mpr ⟨hrefused, rfl⟩)

/-- A value made inside an operation goes to the next operation, whose result is used inside the
first one again. -/
def entwined : Program :=
  .built [
    .node 0 "outer", .addRegion ⟨0⟩ .once, .node 1 "source" [] 1, .node 0 "next" [0] 1,
    .node 1 yieldKind [1]]

/-- The cycle goes through operations at different depths. -/
theorem refused_entwined :
    let registry : Registry := NameMap.empty
    Reachable entwined ∧ entwined.verify = .ok () ∧ entwined.Attached ⟨0⟩ ∧ Refused entwined ⟨0⟩ ∧
      ∃ err q, (pass.run registry).exec entwined = (.error err, q) := by
  intro registry
  have hp : Reachable entwined := reachable_built _
  have hroot : entwined.Attached ⟨0⟩ := ⟨0, .root mem_cons_self⟩
  have hout : NoticedLink entwined ⟨0⟩ ⟨0⟩ ⟨2⟩ :=
    ⟨by decide, by decide, ⟨1⟩, ⟨2⟩, .up rfl rfl (.here rfl), .here rfl,
    ⟨⟨0⟩, mem_cons_self, 0, rfl⟩, fun heq ↦ absurd heq (by decide)⟩
  have hback : NoticedLink entwined ⟨0⟩ ⟨2⟩ ⟨0⟩ :=
    ⟨by decide, by decide, ⟨2⟩, ⟨3⟩, .here rfl, .up rfl rfl (.here rfl),
    ⟨⟨1⟩, mem_cons_self, 0, rfl⟩, fun heq ↦ absurd heq (by decide)⟩
  have hrefused : Refused entwined ⟨0⟩ := ⟨by decide, ⟨0⟩, .head hout (.single hback)⟩
  exact ⟨hp, rfl, hroot, hrefused, (fails_iff_refused registry hp).1.mpr ⟨⟨0⟩, hroot, hrefused⟩⟩

/-- An operation that uses its own result and has the region to itself. -/
def loneSelfUse : Program :=
  .built [
    .node 0 "echo" [] 1, .setOperands ⟨0⟩ [⟨0⟩]]

/-- An operation in a region uses a result of the operation that owns the region. -/
def innerSelfUse : Program :=
  .built [
    .node 0 "outer" [] 1, .addRegion ⟨0⟩ .once, .node 1 "inner" [0], .node 0 "other"]

/-- Data flows in a cycle in both programs. In the first one the sort finds nothing to sort, in the
second one it takes the use for one of a value that is defined inside. -/
theorem selfUses_sorted :
    let registry : Registry := NameMap.empty
    (Reachable loneSelfUse ∧ loneSelfUse.Attached ⟨0⟩ ∧ DataCycle loneSelfUse ⟨0⟩ ∧
      (pass.run registry).exec loneSelfUse = (.ok false, loneSelfUse)) ∧
    Reachable innerSelfUse ∧ innerSelfUse.Attached ⟨0⟩ ∧ DataCycle innerSelfUse ⟨0⟩ ∧
      (pass.run registry).exec innerSelfUse = (.ok false, innerSelfUse) := by
  intro registry
  have hlone : DataLink loneSelfUse ⟨0⟩ ⟨0⟩ ⟨0⟩ :=
    ⟨by decide, by decide, ⟨0⟩, ⟨0⟩, .here rfl, .here rfl,
    ⟨⟨0⟩, mem_cons_self, 0, rfl⟩, fun _ ↦ rfl⟩
  have hinner : DataLink innerSelfUse ⟨0⟩ ⟨0⟩ ⟨0⟩ := ⟨by decide, by decide, ⟨0⟩, ⟨1⟩, .here rfl,
    .up rfl rfl (.here rfl), ⟨⟨0⟩, mem_cons_self, 0, rfl⟩, fun _ ↦ rfl⟩
  exact ⟨⟨reachable_built _, ⟨0, .root mem_cons_self⟩, ⟨⟨0⟩, .single hlone⟩, rfl⟩,
    reachable_built _, ⟨0, .root mem_cons_self⟩, ⟨⟨0⟩, .single hinner⟩, rfl⟩

end TopologicalOrder

end TensorGraph
