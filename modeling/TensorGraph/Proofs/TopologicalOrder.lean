import TensorGraph.Proofs.DependencyGraph
import TensorGraph.Proofs.Rewriting

/-!
Sorting regions. What a region is sorted into is a permutation with the terminator still last, in
which data flows forward, and control as well outside of the strongly connected components.
-/

namespace TensorGraph.TopologicalOrder

open Program List Option

variable {p q : Program} {r : RegionId} {order l : List OpId}
    {step : List (RegionId × List OpId) → RegionId → Except Error (List (RegionId × List OpId))}
    {orders : List (RegionId × List OpId)} {a c : OpId}

/-- The order holds the operations of the region, with the terminator last, and no dependency
between others leads back except control inside a component. -/
structure Sorted (p : Program) (r : RegionId) (order : List OpId) : Prop where
  perm : order.Perm (p.opsIn r)
  last : ∀ t, p.terminator? r = some t → order.getLast? = some t
  data : ∀ a ∈ bodyOps p r, ∀ c ∈ bodyOps p r, a ≠ c → DataEdge p r a c → [a, c].Sublist order
  control : ∀ a ∈ bodyOps p r, ∀ c ∈ bodyOps p r, a ≠ c → ControlEdge p r a c →
    [a, c].Sublist order ∨ SameComponent p r a c

/-! ### Sorting places -/

section Places

variable {data : Edges}

lemma sortPlaces_perm (hacyclic : data.hasCycle = false) (control : Edges) (count : Nat) :
    (sortPlaces data control count).Perm (List.range count) := by
  unfold sortPlaces
  refine (Perm.flatMap_left _ fun component _ ↦ data.orderNodes_perm hacyclic component).trans ?_
  rw [flatMap_id']
  refine Perm.trans ?_ (Edges.flatten_components_perm (data ++ control) count)
  exact (Edges.orderComponents_perm _ count).flatten

lemma sortPlaces_pairwise (hacyclic : data.hasCycle = false) (control : Edges) (count : Nat) :
    (sortPlaces data control count).Pairwise fun x y ↦ (y, x) ∉ data ∧
    ((y, x) ∈ control → (data ++ control).Connected x y) := by
  unfold sortPlaces
  have hcomponent : ∀ component ∈ (data ++ control).orderComponents
      ((data ++ control).components count), component ∈ (data ++ control).components count :=
      fun _ hmem ↦ (Edges.orderComponents_perm _ count).subset hmem
  refine pairwise_flatMap.mpr ⟨fun component hmem ↦ ?_, ?_⟩
  · have hmem' := hcomponent component hmem
    have hperm := Edges.orderNodes_perm hacyclic component
    refine (Edges.orderNodes_pairwise (Edges.nodup_component hmem')).imp_of_mem
      fun {x y} hx hy hdata ↦ ⟨hdata, fun _ ↦ ?_⟩
    exact ((Edges.mem_component hmem' (hperm.subset hx)).mp (hperm.subset hy)).2
  · refine (Edges.orderComponents_pairwise (data ++ control) count).imp
      fun {front back} hforward x hx y hy ↦ ?_
    have hx' := (Edges.orderNodes_perm hacyclic front).subset hx
    have hy' := (Edges.orderNodes_perm hacyclic back).subset hy
    have hnone : (y, x) ∉ data ++ control := hforward x hx' y hy'
    rw [mem_append, not_or] at hnone
    exact ⟨hnone.1, fun hcontrol ↦ absurd hcontrol hnone.2⟩

end Places

/-! ### Sorting a region -/

lemma two_le_length (ha : a ∈ l) (hc : c ∈ l) (hne : a ≠ c) : 2 ≤ l.length := by
  have hpair : [a, c] ⊆ l := cons_subset.mpr ⟨ha, cons_subset.mpr ⟨hc, nil_subset _⟩⟩
  have hnodup : [a, c].Nodup := by simpa using hne
  exact (hnodup.subperm hpair).length_le

lemma sublist_or_sublist (ha : a ∈ l) (hc : c ∈ l) (hne : a ≠ c) :
    [a, c].Sublist l ∨ [c, a].Sublist l := by
  obtain ⟨front, back, rfl⟩ := append_of_mem ha
  rcases mem_append.mp hc with hc | hc
  · right
    exact (singleton_sublist.mpr hc).append (singleton_sublist.mpr mem_cons_self)
  · left
    have hback : c ∈ back := (mem_cons.mp hc).resolve_left hne.symm
    exact ((singleton_sublist.mpr hback).cons_cons a).trans (sublist_append_right front _)

lemma filterMap_range_getElem? (l : List OpId) : (List.range l.length).filterMap (l[·]?) = l := by
  induction l with
  | nil => rfl
  | cons o rest ih =>
    rw [length_cons, range_succ_eq_map, filterMap_cons, filterMap_map]
    exact congrArg (o :: ·) ih

section Region

variable (h : p.Consistent) (hr : p.Attached r)

def sortedBody (p : Program) (r : RegionId) : List OpId :=
  (sortPlaces (dataEdges p r (bodyOps p r)) (controlEdges p r (bodyOps p r))
    (bodyOps p r).length).filterMap ((bodyOps p r)[·]?)

section Acyclic

variable (hacyclic : (dataEdges p r (bodyOps p r)).hasCycle = false)

include hacyclic

lemma sortedBody_perm : (sortedBody p r).Perm (bodyOps p r) := by
  have hperm := (sortPlaces_perm hacyclic (controlEdges p r (bodyOps p r))
    (bodyOps p r).length).filterMap ((bodyOps p r)[·]?)
  rwa [filterMap_range_getElem?] at hperm

include h hr

lemma sortedBody_pairwise : (sortedBody p r).Pairwise fun c a ↦
    a ≠ c → ¬ DataEdge p r a c ∧ (ControlEdge p r a c → SameComponent p r a c) := by
  refine pairwise_filterMap.mpr ?_
  refine (sortPlaces_pairwise hacyclic _ _).imp fun {x y} hplaces c hc a ha hne ↦ ⟨?_, ?_⟩
  · intro hdata
    exact hplaces.1 (mem_dataEdges h hr ha hc hne hdata)
  · intro hcontrol
    have hconn := hplaces.2 (mem_controlEdges h hr ha hc hne hcontrol)
    exact sameComponent_of_connected h hr ha hc hconn.symm

lemma sorted_sortedBody : Sorted p r (sortedBody p r ++ (p.terminator? r).toList) := by
  have hperm := sortedBody_perm hacyclic
  have hpairwise := sortedBody_pairwise h hr hacyclic
  have hside : ∀ a ∈ bodyOps p r, ∀ c ∈ bodyOps p r, a ≠ c →
      [a, c].Sublist (sortedBody p r ++ (p.terminator? r).toList) ∨ ¬ DataEdge p r a c ∧
      (ControlEdge p r a c → SameComponent p r a c) := by
    intro a ha c hc hne
    rcases sublist_or_sublist (hperm.symm.subset ha)
      (hperm.symm.subset hc) hne with hbefore | hafter
    · exact .inl (hbefore.trans (sublist_append_left _ _))
    · exact .inr (pairwise_iff_forall_sublist.mp hpairwise hafter hne)
  constructor
  · have hall := hperm.append_right (p.terminator? r).toList
    rwa [bodyOps_append h] at hall
  · intro t ht
    rw [ht]
    exact getLast?_concat
  · intro a ha c hc hne hdata
    exact (hside a ha c hc hne).resolve_right fun hback ↦ hback.1 hdata
  · intro a ha c hc hne hcontrol
    exact (hside a ha c hc hne).imp_right fun hback ↦ hback.2 hcontrol

end Acyclic

include h hr

lemma sorted_newOrder {new : Option (List OpId)} (hok : newOrder p r = .ok new) :
    Sorted p r (new.getD (p.opsIn r)) := by
  unfold newOrder at hok
  dsimp only at hok
  by_cases hshort : (bodyOps p r).length < 2
  · rw [if_pos hshort] at hok
    cases hok
    have hone : ∀ a ∈ bodyOps p r, ∀ c ∈ bodyOps p r, ¬ a ≠ c :=
      fun a ha c hc hne ↦ Nat.not_le_of_lt hshort (two_le_length ha hc hne)
    constructor
    · exact .refl _
    · intro t ht
      exact (terminator?_eq_some.mp ht).1
    · intro a ha c hc hne
      exact absurd hne (hone a ha c hc)
    · intro a ha c hc hne
      exact absurd hne (hone a ha c hc)
  · rw [if_neg hshort] at hok
    by_cases hcycle : (dataEdges p r (bodyOps p r)).hasCycle = true
    · rw [if_pos hcycle] at hok
      cases hok
    · rw [if_neg hcycle] at hok
      have hsorted := sorted_sortedBody h hr (Bool.eq_false_iff.mpr hcycle)
      cases hok
      split_ifs with hsame
      · change Sorted p r (p.opsIn r)
        rwa [← hsame]
      · exact hsorted

end Region

lemma order_ne_of_newOrder (h : newOrder p r = .ok (some order)) : order ≠ p.opsIn r := by
  unfold newOrder at h
  dsimp only at h
  split_ifs at h with hfew hcycle hsame
  · cases h
  · cases h
  · cases h
    exact hsame

/-! ### The plan -/

section Plan

/-- Collecting the new orders of regions one after the other succeeds only if none fails, and gives
the new ones. -/
theorem collect_ok
    (hstep : ∀ done r, step done r = (newOrder p r).map fun new ↦ done ++ (new.map (r, ·)).toList)
    {regions : List RegionId} {done : List (RegionId × List OpId)}
    (hok : regions.foldlM step done = .ok orders) : done ⊆ orders ∧
    (∀ r ∈ regions, ∃ new, newOrder p r = .ok new ∧ ∀ order, new = some order →
    (r, order) ∈ orders) ∧ ∀ r order, (r, order) ∈ orders →
    (r, order) ∈ done ∨ r ∈ regions ∧ newOrder p r = .ok (some order) := by
  induction regions generalizing done with
  | nil =>
    cases hok
    exact ⟨Subset.refl _, fun r hr ↦ absurd hr not_mem_nil, fun r order hmem ↦ .inl hmem⟩
  | cons r rest ih =>
    rw [foldlM_cons, hstep] at hok
    rcases hnew : newOrder p r with err | new
    · rw [hnew] at hok
      cases hok
    · rw [hnew] at hok
      obtain ⟨hdone, hrest, horders⟩ := ih hok
      rw [append_subset] at hdone
      refine ⟨hdone.1, forall_mem_cons.mpr ⟨⟨new, hnew, ?_⟩, hrest⟩, ?_⟩
      · rintro order rfl
        exact hdone.2 (mem_singleton.mpr rfl)
      · intro r' order hmem
        rcases horders r' order hmem with hearlier | ⟨hr', horder⟩
        · rcases mem_append.mp hearlier with hearlier | hhere
          · exact .inl hearlier
          · obtain ⟨order', rfl, heq⟩ := map_eq_some_iff.mp (mem_toList.mp hhere)
            cases heq
            exact .inr ⟨mem_cons_self, hnew⟩
        · exact .inr ⟨mem_cons_of_mem _ hr', horder⟩

lemma plan_ok (h : p.Consistent) (hok : plan p = .ok orders) :
    (∀ r, p.Attached r → ∃ new, newOrder p r = .ok new ∧ ∀ order, new = some order →
    (r, order) ∈ orders) ∧ ∀ r order, (r, order) ∈ orders → p.Attached r ∧
    newOrder p r = .ok (some order) := by
  obtain ⟨-, hall, horders⟩ := collect_ok (p := p) (fun done r ↦ by
    rcases newOrder p r with err | _ | order
    · rfl
    · exact congrArg Except.ok (append_nil done).symm
    · rfl) hok
  constructor
  · intro r hr
    exact hall r ((mem_allRegions h).mpr hr)
  · intro r order hmem
    obtain ⟨hr, hnew⟩ := (horders r order hmem).resolve_left not_mem_nil
    exact ⟨(mem_allRegions h).mp hr, hnew⟩

end Plan

/-! ### Putting the orders in place -/

/-- Only the orders of operations in regions may differ. -/
structure SameButOrder (p q : Program) : Prop where
  rest : q = { p with regions := q.regions }
  region? : ∀ r, q.region? r = (p.region? r).map fun region ↦ { region with ops := q.opsIn r }

namespace SameButOrder

lemma refl (p : Program) : SameButOrder p p := by
  refine ⟨rfl, fun r ↦ ?_⟩
  rcases hr : p.region? r with _ | region
  · rfl
  · rw [opsIn_eq hr]
    rfl

lemma trans {m : Program} (h : SameButOrder p m) (h' : SameButOrder m q) :
    SameButOrder p q := by
  refine ⟨?_, fun r ↦ ?_⟩
  · rw [h'.rest, h.rest]
  · rw [h'.region?, h.region?, Option.map_map]
    rfl

lemma setOps (p : Program) (r : RegionId) (order : List OpId) :
    SameButOrder p (p.setOps r order) := by
  refine ⟨rfl, fun x ↦ ?_⟩
  by_cases hx : x = r
  · have hregion : (p.setOps r order).region? x =
        (p.region? x).map fun region ↦ { region with ops := order } := by
      rw [Program.setOps, region?_modifyRegion, if_pos hx]
    rcases hr : p.region? x with _ | region
    · rw [hregion, hr]
      rfl
    · rw [hr] at hregion
      rw [opsIn_eq hregion, hregion]
  · have hregion : (p.setOps r order).region? x = p.region? x := by
      rw [Program.setOps, region?_modifyRegion, if_neg hx]
    rw [hregion, show (p.setOps r order).opsIn x = p.opsIn x by rw [opsIn, hregion]; rfl]
    exact (refl p).region? x

lemma isSome_region? (h : SameButOrder p q) (r : RegionId) :
    (q.region? r).isSome = (p.region? r).isSome := by
  rw [h.region?, isSome_map]

end SameButOrder

section Orders

section

variable (p : Program) (orders : List (RegionId × List OpId))

def reordered : Program :=
  orders.foldl (fun q entry ↦ q.setOps entry.1 entry.2) p

lemma sameButOrder_reordered : SameButOrder p (reordered p orders) := by
  induction orders generalizing p with
  | nil => exact .refl p
  | cons entry rest ih => exact (SameButOrder.setOps p entry.1 entry.2).trans (ih _)

end

lemma opsIn_reordered (order : List OpId)
    (hregions : ∀ x order', (x, order') ∈ orders → (p.region? x).isSome)
    (hagree : ∀ order', (r, order') ∈ orders → order' = order)
    (hnow : p.opsIn r = order ∨ (r, order) ∈ orders) : (reordered p orders).opsIn r = order := by
  induction orders generalizing p with
  | nil => exact hnow.resolve_right not_mem_nil
  | cons entry rest ih =>
    obtain ⟨x, order'⟩ := entry
    have hops := opsIn_setOps p x order' (.inl (hregions x order' mem_cons_self)) r
    refine ih (fun y other hmem ↦ ?_) (fun other hmem ↦ hagree other (mem_cons_of_mem _ hmem)) ?_
    · rw [(SameButOrder.setOps p x order').isSome_region?]
      exact hregions y other (mem_cons_of_mem _ hmem)
    · by_cases hr : r = x
      · subst hr
        rw [hops, if_pos rfl]
        exact .inl (hagree order' mem_cons_self)
      · rw [hops, if_neg hr]
        refine hnow.imp_right fun hmem ↦ (mem_cons.mp hmem).resolve_left fun heq ↦ ?_
        exact hr (Prod.mk.inj heq).1

lemma exec_reorder (h : p.Consistent) (hr : (p.region? r).isSome) (hperm : order.Perm (p.opsIn r)) :
    (Edit.reorder r order).exec p = (.ok ⟨⟩, p.setOps r order) := by
  refine Edit.does_reorder.exec ⟨hr, fun o ↦ hperm.mem_iff.symm, ?_, rfl⟩ fun _ _ h ↦ ⟨rfl, h.2.2.2⟩
  rw [eraseDups_of_nodup (h.placed.once r)]
  exact hperm.length_eq

lemma exec_forM_reorder (h : p.Consistent)
    (hregions : ∀ r order, (r, order) ∈ orders → (p.region? r).isSome)
    (hperm : ∀ r order, (r, order) ∈ orders → order.Perm (p.opsIn r)) :
    (orders.forM fun (r, order) ↦ Edit.reorder r order).exec p = (.ok ⟨⟩, reordered p orders) := by
  induction orders generalizing p with
  | nil => rfl
  | cons entry rest ih =>
    obtain ⟨r, order⟩ := entry
    have hr := hregions r order mem_cons_self
    have horder := hperm r order mem_cons_self
    have hhead := exec_reorder h hr horder
    have hnext := (Edit.makes_reorder r order).keeps.of_ok h hhead
    rw [Edit.exec_forM_cons, Edit.exec_bind_of_ok hhead]
    refine ih hnext (fun x order' hmem ↦ ?_) (fun x order' hmem ↦ ?_)
    · rw [(SameButOrder.setOps p r order).isSome_region?]
      exact hregions x order' (mem_cons_of_mem _ hmem)
    · have hother := hperm x order' (mem_cons_of_mem _ hmem)
      rw [opsIn_setOps p r order (.inl hr)]
      by_cases hx : x = r
      · subst hx
        rw [if_pos rfl]
        exact hother.trans horder.symm
      · rwa [if_neg hx]

end Orders

/-! ### The pass -/

lemma exec_run_of_error {err : Error} (hplan : plan p = .error err) :
    run.exec p = (.error err, p) :=
  Edit.exec_bind_of_error (by rw [Edit.exec_read, hplan]) _

section Planned

variable (h : p.Consistent) (hplan : plan p = .ok orders)

include h hplan

lemma isSome_region?_of_plan (hmem : (r, order) ∈ orders) : (p.region? r).isSome := by
  obtain ⟨n, hat⟩ := ((plan_ok h hplan).2 r order hmem).1
  exact hat.isSome_region? h

lemma exec_run_of_plan : run.exec p = (.ok (!orders.isEmpty), reordered p orders) := by
  have hexec := exec_forM_reorder h (fun r order ↦ isSome_region?_of_plan h hplan)
    fun r order hmem ↦ by
    obtain ⟨hr, hnew⟩ := (plan_ok h hplan).2 r order hmem
    exact (sorted_newOrder h hr hnew).perm
  unfold run
  rw [Edit.exec_bind_of_ok (by rw [Edit.exec_read, hplan]), Edit.exec_bind_of_ok hexec]
  rfl

lemma opsIn_of_plan (hr : p.Attached r) :
    ∃ new, newOrder p r = .ok new ∧ (reordered p orders).opsIn r = new.getD (p.opsIn r) := by
  obtain ⟨hall, horders⟩ := plan_ok h hplan
  obtain ⟨new, hnew, hlisted⟩ := hall r hr
  refine ⟨new, hnew, opsIn_reordered _ (fun r order ↦ isSome_region?_of_plan h hplan) ?_ ?_⟩
  · intro order hmem
    cases hnew.symm.trans (horders r order hmem).2
    rfl
  · rcases new with _ | order
    · exact .inl rfl
    · exact .inr (hlisted order rfl)

lemma opsIn_of_plan_detached (hr : ¬ p.Attached r) : (reordered p orders).opsIn r = p.opsIn r := by
  refine opsIn_reordered (p.opsIn r) (fun r order ↦ isSome_region?_of_plan h hplan)
    (fun order hmem ↦ ?_) (.inl rfl)
  exact absurd ((plan_ok h hplan).2 r order hmem).1 hr

end Planned

lemma exists_plan_of_run (h : p.Consistent) {changed : Bool} (hrun : run.exec p = (.ok changed, q))
    : ∃ orders, plan p = .ok orders ∧ changed = !orders.isEmpty ∧ q = reordered p orders := by
  rcases hplan : plan p with err | orders
  · cases (Prod.mk.inj ((exec_run_of_error hplan).symm.trans hrun)).1
  · obtain ⟨hchanged, hq⟩ := Prod.mk.inj ((exec_run_of_plan h hplan).symm.trans hrun)
    exact ⟨orders, rfl, (Except.ok.inj hchanged).symm, hq.symm⟩

lemma run_cases (h : p.Consistent) :
    (∃ err, run.exec p = (.error err, p)) ∨ ∃ changed q, run.exec p = (.ok changed, q) ∧
      SameButOrder p q ∧ (∀ r, p.Attached r → Sorted p r (q.opsIn r)) ∧ ∀ r, ¬ p.Attached r →
      q.opsIn r = p.opsIn r := by
  rcases hplan : plan p with err | orders
  · exact .inl ⟨err, exec_run_of_error hplan⟩
  · refine .inr ⟨!orders.isEmpty, reordered p orders, exec_run_of_plan h hplan,
      sameButOrder_reordered p orders, fun r hr ↦ ?_, fun r hr ↦ opsIn_of_plan_detached h hplan hr⟩
    obtain ⟨new, hnew, hops⟩ := opsIn_of_plan h hplan hr
    rw [hops]
    exact sorted_newOrder h hr hnew

/-- A sort that fails leaves the program unchanged. One that succeeds changes only the orders of
operations, and only in attached regions, which are sorted then. -/
theorem sorts_or_leaves_unchanged (registry : Registry) {p : Program} (hp : Reachable p) :
    (∀ err q, (pass.run registry).exec p = (.error err, q) → q = p) ∧
    ∀ changed q, (pass.run registry).exec p = (.ok changed, q) → SameButOrder p q ∧
      (∀ r, p.Attached r → Sorted p r (q.opsIn r)) ∧
      ∀ r, ¬ p.Attached r → q.opsIn r = p.opsIn r := by
  rcases run_cases hp.consistent with ⟨err, herr⟩ | ⟨changed, q, hok, hsorted⟩
  · constructor
    · intro err' q hrun
      exact (Prod.mk.inj (herr.symm.trans hrun)).2.symm
    · intro changed q hrun
      cases (Prod.mk.inj (herr.symm.trans hrun)).1
  · constructor
    · intro err q' hrun
      cases (Prod.mk.inj (hok.symm.trans hrun)).1
    · intro changed' q' hrun
      obtain rfl : q = q' := (Prod.mk.inj (hok.symm.trans hrun)).2
      exact hsorted

/-- A program where a value is used in a branch in front of its source, and two operations wait for
each other. -/
def tangled : Program :=
  .built [
    .node 0 "choose", .addRegion ⟨0⟩ .once, .node 0 "source" [] 1, .node 1 "consume" [0],
    .node 0 "ping", .node 0 "pong" [] 0 [3], .addControl ⟨3⟩ ⟨4⟩, .node 0 yieldKind]

/-- The source moves in front of the branch, and what waits for each other stays together. -/
theorem sorted_tangled :
    let registry : Registry := NameMap.empty
    let q := ((pass.run registry).exec tangled).2
    Reachable tangled ∧ (pass.run registry).exec tangled = (.ok true, q) ∧
      q.opsIn ⟨0⟩ = [⟨1⟩, ⟨0⟩, ⟨3⟩, ⟨4⟩, ⟨5⟩] ∧ tangled.Attached ⟨0⟩ ∧ DataEdge tangled ⟨0⟩ ⟨1⟩
      ⟨0⟩ ∧ [⟨1⟩, ⟨0⟩].Sublist (q.opsIn ⟨0⟩) := by
  intro registry q
  have hp : Reachable tangled := reachable_built _
  have hanswer : ((pass.run registry).exec tangled).1 = .ok true := by rfl
  have hok : (pass.run registry).exec tangled = (.ok true, q) := Prod.ext hanswer rfl
  have horder : q.opsIn ⟨0⟩ = [⟨1⟩, ⟨0⟩, ⟨3⟩, ⟨4⟩, ⟨5⟩] := by rfl
  have hroot : tangled.Attached ⟨0⟩ := ⟨0, .root mem_cons_self⟩
  have hdata : DataEdge tangled ⟨0⟩ ⟨1⟩ ⟨0⟩ :=
    ⟨⟨1⟩, ⟨2⟩, .here rfl, .up rfl rfl (.here rfl), ⟨0⟩, mem_cons_self, 0, rfl⟩
  obtain ⟨-, hsorted, -⟩ := (sorts_or_leaves_unchanged registry hp).2 true q hok
  exact ⟨hp, hok, horder, hroot, hdata, (hsorted ⟨0⟩ hroot).data ⟨1⟩ (by decide) ⟨0⟩
    (by decide) (by decide) hdata⟩

end TensorGraph.TopologicalOrder
