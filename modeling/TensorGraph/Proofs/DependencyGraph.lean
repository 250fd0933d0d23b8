import TensorGraph.Pass.TopologicalOrder
import TensorGraph.Proofs.Digraph
import TensorGraph.Proofs.Verification

/-!
The dependency graph of a region. One operation of the region depends on another if something in the
family of the one needs something in the family of the other.
-/

namespace TensorGraph.TopologicalOrder

open Program List Option

variable {o user : OpId} {body : List OpId} {i j place : Nat}

/-- `user` has an operand that `producer` defines. -/
def Uses (p : Program) (user producer : OpId) : Prop :=
  ∃ v ∈ p.operandsOf user, ∃ index, p.originOf? v = some (.result producer index)

/-- `user` waits for `producer`. -/
def Awaits (p : Program) (user producer : OpId) : Prop :=
  producer ∈ p.controlOf user

/-- `c` or something nested in it needs `a` or something nested in it, where both lie in `r`. -/
def EdgeBy (needs : OpId → OpId → Prop) (p : Program) (r : RegionId) (a c : OpId) : Prop :=
  ∃ producer user, AncestorIn p r producer a ∧ AncestorIn p r user c ∧ needs user producer

section

variable (p : Program) (r : RegionId) (a c : OpId)

/-- Data flows from the family of `a` to the family of `c`. -/
def DataEdge : Prop :=
  EdgeBy (Uses p) p r a c

/-- The family of `c` waits for the family of `a`. -/
def ControlEdge : Prop :=
  EdgeBy (Awaits p) p r a c

/-- The edges of the combined graph, on the operations other than the terminator. -/
def Dependency : Prop :=
  a ∈ bodyOps p r ∧ c ∈ bodyOps p r ∧ (DataEdge p r a c ∨ ControlEdge p r a c)

/-- The operations lie in one strongly connected component of the combined graph. -/
def SameComponent : Prop :=
  Relation.ReflTransGen (Dependency p r) a c ∧ Relation.ReflTransGen (Dependency p r) c a

end

variable {p : Program} {r : RegionId}

/-! ### The body of a region -/

lemma mem_bodyOps : o ∈ bodyOps p r ↔ o ∈ p.opsIn r ∧ p.terminator? r ≠ some o := by
  unfold bodyOps
  rw [mem_filter, bne_iff_ne]

lemma idxOf?_eq_some_of_nodup {l : List OpId} (hnodup : l.Nodup) : l.idxOf? o = some i ↔
    l[i]? = some o := by
  rw [idxOf?_eq_some_iff, getElem?_eq_some_iff]
  constructor
  · rintro ⟨hi, heq, -⟩
    exact ⟨hi, heq⟩
  · rintro ⟨hi, rfl⟩
    refine ⟨hi, rfl, fun j hj heq ↦ ?_⟩
    have := hnodup.getElem_inj_iff.mp heq
    omega

section Body

variable (h : p.Consistent)

include h

lemma nodup_bodyOps : (bodyOps p r).Nodup :=
  (h.placed.once r).filter _

lemma place_unique (hi : (bodyOps p r)[i]? = some o) (hj : (bodyOps p r)[j]? = some o) : i = j :=
  (getElem?_inj (List.getElem?_eq_some_iff.mp hi).1 (nodup_bodyOps h)).mp (hi.trans hj.symm)

lemma bodyOps_append : bodyOps p r ++ (p.terminator? r).toList = p.opsIn r := by
  unfold bodyOps
  rcases hlast : p.terminator? r with _ | t
  · simp
  · obtain ⟨front, hfront⟩ := getLast?_eq_some_iff.mp (terminator?_eq_some.mp hlast).1
    have hnodup := h.placed.once r
    rw [hfront, nodup_append] at hnodup
    rw [hfront, filter_append]
    have hkept : front.filter (fun o ↦ some t != some o) = front := by
      refine filter_eq_self.mpr fun o ho ↦ ?_
      have hne : o ≠ t := hnodup.2.2 o ho t (mem_singleton.mpr rfl)
      simpa using hne.symm
    rw [hkept]
    simp

lemma mem_family (hr : p.Attached r) (ho : o ∈ p.opsIn r) : user ∈ family p o ↔
    AncestorIn p r user o := by
  unfold family
  rw [mem_cons, mem_flatMap]
  constructor
  · rintro (rfl | ⟨inner, hinner, huser⟩)
    · exact .here (h.mem_opsIn.mp ho)
    · obtain ⟨b, hb⟩ := (mem_walk h (hr.nested ho hinner)).mp huser
      exact hb.trans (.up hb.parentOf? (h.mem_regionsOf.mp hinner) (.here (h.mem_opsIn.mp ho)))
  · intro hanc
    rcases hanc.eq_or_exists_inner h with heq | ⟨inner, hinner, hb⟩
    · exact .inl heq
    · exact .inr ⟨inner, hinner, (mem_walk h (hr.nested ho hinner)).mpr hb⟩

lemma placeOf_eq_some (hr : p.Attached r) : placeOf p r (bodyOps p r) o = some i ↔
    ∃ a, AncestorIn p r o a ∧ (bodyOps p r)[i]? = some a := by
  have hplace := fun a ↦ idxOf?_eq_some_of_nodup (nodup_bodyOps h (r := r)) (o := a) (i := i)
  unfold placeOf
  rw [bind_eq_some_iff]
  constructor
  · rintro ⟨a, hclimb, hindex⟩
    exact ⟨a, ancestorIn_of_ancestorIn? hclimb, (hplace a).mp hindex⟩
  · rintro ⟨a, hanc, hindex⟩
    obtain ⟨home, hparent, hhome⟩ := hanc.exists_home h hr
    exact ⟨a, hanc.ancestorIn? h hparent hhome, (hplace a).mpr hindex⟩

end Body

/-! ### Edges between places -/

/-- The edges of both sorts. -/
abbrev allEdges (p : Program) (r : RegionId) : Edges :=
  dataEdges p r (bodyOps p r) ++ controlEdges p r (bodyOps p r)

def edgesFrom (p : Program) (body : List OpId) (sources : Nat → OpId → OpId → List Nat) : Edges :=
  body.zipIdx.flatMap fun (o, place) ↦
    (family p o).flatMap fun user ↦ (sources place o user).map (·, place)

lemma mem_edgesFrom {sources : Nat → OpId → OpId → List Nat} : (i, j) ∈ edgesFrom p body sources ↔
      ∃ c, body[j]? = some c ∧ ∃ user ∈ family p c, i ∈ sources j c user := by
  unfold edgesFrom
  simp only [mem_flatMap, List.mem_map, Prod.mk.injEq, Prod.exists, mem_zipIdx_iff_getElem?]
  constructor
  · rintro ⟨c, place, hc, user, huser, source, hsource, rfl, rfl⟩
    exact ⟨c, hc, user, huser, hsource⟩
  · rintro ⟨c, hc, user, huser, hsource⟩
    exact ⟨c, j, hc, user, huser, i, hsource, rfl, rfl⟩

lemma mem_dataSources : i ∈ dataSources p r body place o user ↔ ∃ producer, Uses p user producer ∧
    placeOf p r body producer = some i ∧ ¬ (i = place ∧ user ≠ o) := by
  unfold dataSources Uses
  rw [mem_filterMap]
  constructor
  · rintro ⟨v, hv, hsource⟩
    obtain ⟨value, hvalue, hsource⟩ := bind_eq_some_iff.mp hsource
    obtain ⟨producer, hproducer, hsource⟩ := bind_eq_some_iff.mp hsource
    obtain ⟨source, hplace, hsource⟩ := bind_eq_some_iff.mp hsource
    split_ifs at hsource with hinside
    cases hsource
    obtain ⟨index, horigin⟩ := definingOp?_eq_some.mp hproducer
    exact ⟨producer, ⟨v, hv, index, by rw [originOf?_eq hvalue, horigin]⟩, hplace, hinside⟩
  · rintro ⟨producer, ⟨v, hv, index, horigin⟩, hplace, hinside⟩
    obtain ⟨value, hvalue, horigin⟩ := map_eq_some_iff.mp horigin
    refine ⟨v, hv, bind_eq_some_iff.mpr ⟨value, hvalue, ?_⟩⟩
    refine bind_eq_some_iff.mpr ⟨producer, definingOp?_eq_some.mpr ⟨index, horigin⟩, ?_⟩
    exact bind_eq_some_iff.mpr ⟨i, hplace, if_neg hinside⟩

lemma mem_controlSources : i ∈ controlSources p r body place user ↔
    ∃ producer, Awaits p user producer ∧ placeOf p r body producer = some i ∧ i ≠ place := by
  unfold controlSources Awaits
  rw [mem_filterMap]
  constructor
  · rintro ⟨producer, hproducer, hsource⟩
    obtain ⟨source, hplace, hsource⟩ := bind_eq_some_iff.mp hsource
    split_ifs at hsource with hinside
    cases hsource
    exact ⟨producer, hproducer, hplace, hinside⟩
  · rintro ⟨producer, hproducer, hplace, hinside⟩
    refine ⟨producer, hproducer, bind_eq_some_iff.mpr ⟨i, hplace, ?_⟩⟩
    exact if_neg hinside

section Edges

variable (h : p.Consistent) (hr : p.Attached r) {a c : OpId}

include h hr

section

variable (needs : OpId → OpId → Prop) (sources : Nat → OpId → OpId → List Nat)

lemma edgeBy_of_mem_edgesFrom (hsources : ∀ place o user source,
    source ∈ sources place o user → ∃ producer, needs user producer ∧ placeOf p r (bodyOps p r)
      producer = some source) (hedge : (i, j) ∈ edgesFrom p (bodyOps p r) sources) :
    ∃ a c, (bodyOps p r)[i]? = some a ∧ (bodyOps p r)[j]? = some c ∧ EdgeBy needs p r a c := by
  obtain ⟨c, hc, user, huser, hsource⟩ := mem_edgesFrom.mp hedge
  obtain ⟨producer, hneeds, hplace⟩ := hsources j c user i hsource
  obtain ⟨a, hanc, ha⟩ := (placeOf_eq_some h hr).mp hplace
  have hmem : c ∈ p.opsIn r := (mem_bodyOps.mp (mem_of_getElem? hc)).1
  exact ⟨a, c, ha, hc, producer, user, hanc, (mem_family h hr hmem).mp huser, hneeds⟩

lemma mem_edgesFrom_of_edgeBy (hsources : ∀ place o user source producer, needs user producer →
    placeOf p r (bodyOps p r) producer = some source → source ≠ place →
    source ∈ sources place o user) (ha : (bodyOps p r)[i]? = some a)
    (hc : (bodyOps p r)[j]? = some c) (hne : a ≠ c) (hedge : EdgeBy needs p r a c) :
    (i, j) ∈ edgesFrom p (bodyOps p r) sources := by
  obtain ⟨producer, user, hproducer, huser, hneeds⟩ := hedge
  have hmem : c ∈ p.opsIn r := (mem_bodyOps.mp (mem_of_getElem? hc)).1
  have hplaces : i ≠ j := by
    rintro rfl
    exact hne (some.inj (ha.symm.trans hc))
  refine mem_edgesFrom.mpr ⟨c, hc, user, (mem_family h hr hmem).mpr huser, ?_⟩
  exact hsources j c user i producer hneeds ((placeOf_eq_some h hr).mpr ⟨a, hproducer, ha⟩) hplaces

end

lemma dataEdge_of_mem (hedge : (i, j) ∈ dataEdges p r (bodyOps p r)) :
    ∃ a c, (bodyOps p r)[i]? = some a ∧ (bodyOps p r)[j]? = some c ∧ DataEdge p r a c := by
  refine edgeBy_of_mem_edgesFrom h hr (Uses p) (dataSources p r (bodyOps p r))
    (fun place o user source hsource ↦ ?_) hedge
  obtain ⟨producer, huses, hplace, -⟩ := mem_dataSources.mp hsource
  exact ⟨producer, huses, hplace⟩

lemma controlEdge_of_mem (hedge : (i, j) ∈ controlEdges p r (bodyOps p r)) :
    ∃ a c, (bodyOps p r)[i]? = some a ∧ (bodyOps p r)[j]? = some c ∧ ControlEdge p r a c := by
  refine edgeBy_of_mem_edgesFrom h hr (Awaits p)
    (fun place _ user ↦ controlSources p r (bodyOps p r) place user)
    (fun place o user source hsource ↦ ?_) hedge
  obtain ⟨producer, hawaits, hplace, -⟩ := mem_controlSources.mp hsource
  exact ⟨producer, hawaits, hplace⟩

lemma dependency_of_mem (hedge : (i, j) ∈ allEdges p r) :
    ∃ a c, (bodyOps p r)[i]? = some a ∧ (bodyOps p r)[j]? = some c ∧
    (DataEdge p r a c ∨ ControlEdge p r a c) := by
  rcases mem_append.mp hedge with hdata | hcontrol
  · obtain ⟨a, c, ha, hc, hdata⟩ := dataEdge_of_mem h hr hdata
    exact ⟨a, c, ha, hc, .inl hdata⟩
  · obtain ⟨a, c, ha, hc, hcontrol⟩ := controlEdge_of_mem h hr hcontrol
    exact ⟨a, c, ha, hc, .inr hcontrol⟩

section Places

variable (ha : (bodyOps p r)[i]? = some a) (hc : (bodyOps p r)[j]? = some c)

include ha hc

lemma mem_dataEdges (hne : a ≠ c) (hedge : DataEdge p r a c) :
    (i, j) ∈ dataEdges p r (bodyOps p r) := by
  refine mem_edgesFrom_of_edgeBy h hr (Uses p) (dataSources p r (bodyOps p r))
    (fun place o user source producer huses hplace hother ↦ ?_) ha hc hne hedge
  exact mem_dataSources.mpr ⟨producer, huses, hplace, fun hinside ↦ hother hinside.1⟩

lemma mem_controlEdges (hne : a ≠ c) (hedge : ControlEdge p r a c) :
    (i, j) ∈ controlEdges p r (bodyOps p r) := by
  refine mem_edgesFrom_of_edgeBy h hr (Awaits p)
    (fun place _ user ↦ controlSources p r (bodyOps p r) place user)
    (fun place o user source producer hawaits hplace hother ↦ ?_) ha hc hne hedge
  exact mem_controlSources.mpr ⟨producer, hawaits, hplace, hother⟩

lemma mem_of_dependency (hne : a ≠ c) (hedge : DataEdge p r a c ∨ ControlEdge p r a c) :
    (i, j) ∈ allEdges p r := by
  rcases hedge with hdata | hcontrol
  · exact mem_append_left _ (mem_dataEdges h hr ha hc hne hdata)
  · exact mem_append_right _ (mem_controlEdges h hr ha hc hne hcontrol)

lemma path_of_reaches (hpath : (allEdges p r).Reaches i j) :
    Relation.ReflTransGen (Dependency p r) a c := by
  induction hpath generalizing c with
  | refl =>
    cases ha.symm.trans hc
    exact .refl
  | @tail middle j _ hedge ih =>
    obtain ⟨b, c', hb, hc', hdepends⟩ := dependency_of_mem h hr hedge
    cases hc.symm.trans hc'
    exact (ih hb).tail ⟨mem_of_getElem? hb, mem_of_getElem? hc, hdepends⟩

lemma reaches_of_path (hpath : Relation.ReflTransGen (Dependency p r) a c) :
    (allEdges p r).Reaches i j := by
  induction hpath generalizing j with
  | refl =>
    rw [place_unique h ha hc]
    exact .refl
  | @tail b c _ hstep ih =>
    obtain ⟨middle, hb⟩ := mem_iff_getElem?.mp hstep.1
    by_cases hbc : b = c
    · exact ih (hbc ▸ hc)
    · exact (ih hb).tail (mem_of_dependency h hr hb hc hbc hstep.2.2)

lemma sameComponent_of_connected (hconn : (allEdges p r).Connected i j) :
    SameComponent p r a c :=
  ⟨path_of_reaches h hr ha hc hconn.1, path_of_reaches h hr hc ha hconn.2⟩

lemma connected_of_sameComponent (hsame : SameComponent p r a c) : (allEdges p r).Connected i j :=
  ⟨reaches_of_path h hr ha hc hsame.1, reaches_of_path h hr hc ha hsame.2⟩

end Places

end Edges

end TensorGraph.TopologicalOrder
