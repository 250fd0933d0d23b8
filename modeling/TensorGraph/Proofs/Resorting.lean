import TensorGraph.Proofs.StableOrder

/-!
Sorting again. A region stays as it is if data leads forward in it, control as well outside of the
components, and every component stands together.
-/

namespace TensorGraph

open List Option

variable {a c o : OpId} {r : RegionId} {l : List OpId} {p : Program}

namespace TopologicalOrder

open Program

/-- What stands between two operations of a component belongs to the component. -/
def Together (p : Program) (r : RegionId) (order : List OpId) : Prop :=
  ∀ a b c, [a, b, c].Sublist order → SameComponent p r a c → SameComponent p r a b

/-! ### Components stand together -/

/-- In blocks of related elements, where different blocks are not related, what stands between
related elements is related to them. -/
theorem related_of_between {related : Nat → Nat → Prop} {blocks : List (List Nat)}
    (hinside : ∀ block ∈ blocks, ∀ x ∈ block, ∀ y ∈ block, related x y)
    (hacross : blocks.Pairwise fun front back ↦ ∀ x ∈ front, ∀ y ∈ back, ¬ related x y)
    {x y z : Nat} (hsub : [x, y, z].Sublist blocks.flatten) (hxz : related x z) : related x y := by
  induction blocks with
  | nil => cases hsub
  | cons block blocks ih =>
    obtain ⟨hfirst, hrest⟩ := pairwise_cons.mp hacross
    obtain ⟨hblock, hblocks⟩ := forall_mem_cons.mp hinside
    obtain ⟨front, back, hsplit, hfront, hback⟩ := sublist_append_iff.mp hsub
    rcases front with _ | ⟨x', _ | ⟨y', front⟩⟩
    · exact ih hblocks hrest (hsplit ▸ hback)
    · -- The first element lies in the block, the last one behind it.
      obtain ⟨rfl, rfl⟩ := List.cons.inj hsplit
      obtain ⟨later, hlater, hz⟩ := mem_flatten.mp (hback.subset (by simp : z ∈ [y, z]))
      exact absurd hxz (hfirst later hlater x (hfront.subset (by simp)) z hz)
    · obtain ⟨rfl, htail⟩ := List.cons.inj hsplit
      obtain ⟨rfl, -⟩ := List.cons.inj htail
      exact hblock x (hfront.subset (by simp)) y (hfront.subset (by simp))

lemma connected_of_between {data control : Edges} {count x y z : Nat}
    (hsub : [x, y, z].Sublist (sortPlaces data control count))
    (hxz : (data ++ control).Connected x z) : (data ++ control).Connected x y := by
  have hperm := Edges.orderComponents_perm (data ++ control) count
  have hcomponent : ∀ {component}, component ∈ (data ++ control).orderComponents
    ((data ++ control).components count) → component ∈ (data ++ control).components count :=
    fun hmem ↦ hperm.subset hmem
  have hmem : ∀ {component x}, x ∈ data.orderNodes component → x ∈ component :=
    fun hx ↦ pickOrder_subset _ _ _ hx
  unfold sortPlaces at hsub
  rw [flatMap_def] at hsub
  refine related_of_between (forall_mem_map.mpr fun component hmem' x hx y hy ↦ ?_)
    (pairwise_map.mpr ?_) hsub hxz
  · exact ((Edges.mem_component (hcomponent hmem') (hmem hx)).mp (hmem hy)).2
  · have hnodup := hperm.nodup_iff.mpr (Edges.nodup_components (data ++ control) count)
    refine Pairwise.imp_of_mem (fun {front back} hfront hback hne x hx y hy hconn ↦ hne ?_) hnodup
    have hbound := ((Edges.mem_component (hcomponent hback) (hmem hy)).mp (hmem hy)).1
    have hshared := (Edges.mem_component (hcomponent hfront) (hmem hx)).mpr ⟨hbound, hconn⟩
    exact Edges.eq_of_mem_components (hcomponent hfront) (hcomponent hback) hshared (hmem hy)

/-! ### Regions that stay as they are -/

lemma sublist_of_lt {i j : Nat} (hi : l[i]? = some a) (hj : l[j]? = some c) (hlt : i < j) :
    [a, c].Sublist l := by
  obtain ⟨hi', rfl⟩ := List.getElem?_eq_some_iff.mp hi
  obtain ⟨hj', rfl⟩ := List.getElem?_eq_some_iff.mp hj
  have hascending : [(⟨i, hi'⟩ : Fin l.length), ⟨j, hj'⟩].Pairwise (· < ·) := by simpa using hlt
  exact map_getElem_sublist hascending

lemma sublist_of_lt_of_lt {i k j : Nat} {b : OpId} (hi : l[i]? = some a) (hk : l[k]? = some b)
    (hj : l[j]? = some c) (hik : i < k) (hkj : k < j) : [a, b, c].Sublist l := by
  obtain ⟨hi', rfl⟩ := List.getElem?_eq_some_iff.mp hi
  obtain ⟨hk', rfl⟩ := List.getElem?_eq_some_iff.mp hk
  obtain ⟨hj', rfl⟩ := List.getElem?_eq_some_iff.mp hj
  have hascending : [(⟨i, hi'⟩ : Fin l.length), ⟨k, hk'⟩, ⟨j, hj'⟩].Pairwise (· < ·) := by
    simpa using ⟨⟨hik, Nat.lt_trans hik hkj⟩, hkj⟩
  exact map_getElem_sublist hascending

lemma sublist_front {front back : List OpId}
    (hsub : (l ++ [c]).Sublist (front ++ back)) (hc : c ∉ back) : (l ++ [c]).Sublist front := by
  obtain ⟨l₁, l₂, hsplit, hfront, hback⟩ := sublist_append_iff.mp hsub
  rcases eq_nil_or_concat' l₂ with rfl | ⟨init, last, rfl⟩
  · rw [hsplit, append_nil]
    exact hfront
  · have hlast := congrArg List.getLast? hsplit
    rw [← append_assoc, getLast?_concat, getLast?_concat] at hlast
    cases hlast
    exact absurd (hback.subset (by simp)) hc

section Region

lemma mem_bodyOps_of_sameComponent (hsame : SameComponent p r a c) (hne : a ≠ c) :
    c ∈ bodyOps p r := by
  rcases Relation.ReflTransGen.cases_tail hsame.1 with heq | ⟨b, -, hstep⟩
  · exact absurd heq.symm hne
  · exact hstep.2.1

variable (h : p.Consistent) (hr : p.Attached r)

include h hr

lemma together_newOrder {new : Option (List OpId)} (hok : newOrder p r = .ok new) :
    Together p r (new.getD (p.opsIn r)) := by
  have hnodup := (sorted_newOrder h hr hok).perm.nodup_iff.mpr (h.placed.once r)
  rw [getD_newOrder h hr hok] at hnodup ⊢
  intro a b c hsub hsame
  have hne : a ≠ c := by
    rintro rfl
    exact nodup_iff_sublist.mp hnodup a (.trans (by simp) hsub)
  have hc := mem_bodyOps_of_sameComponent hsame hne
  have hend : c ∉ (p.terminator? r).toList := fun hlast ↦
    (mem_bodyOps.mp hc).2 (mem_toList.mp hlast)
  have hbody : [a, b, c].Sublist (sortedBody p r) := sublist_front (l := [a, b]) hsub hend
  have hmem : ∀ {o}, o ∈ sortedBody p r → o ∈ bodyOps p r := fun ho ↦ by
    obtain ⟨i, -, hi⟩ := mem_filterMap.mp ho
    exact mem_of_getElem? hi
  have ha := getElem?_place (hmem (hbody.subset (by simp : a ∈ [a, b, c])))
  have hb := getElem?_place (hmem (hbody.subset (by simp : b ∈ [a, b, c])))
  have hplaces := hbody.map (place p r)
  rw [map_place_sortedBody h] at hplaces
  exact sameComponent_of_connected h hr ha hb (connected_of_between hplaces
    (connected_of_sameComponent h hr ha (getElem?_place hc) hsame))

lemma sortedBody_of_together (hsorted : Sorted p r (p.opsIn r))
    (htogether : Together p r (p.opsIn r)) : sortedBody p r = bodyOps p r := by
  have hfront : (bodyOps p r).Sublist (p.opsIn r) := filter_sublist
  have hpair : ∀ {i j}, i < j → j < (bodyOps p r).length → ∃ c a, (bodyOps p r)[i]? = some c ∧
      (bodyOps p r)[j]? = some a ∧ c ≠ a ∧ ¬ [a, c].Sublist (p.opsIn r) := by
    intro i j hlt hj
    have hc := getElem?_eq_getElem (Nat.lt_trans hlt hj)
    have ha := getElem?_eq_getElem hj
    refine ⟨_, _, hc, ha, fun heq ↦ ?_, ?_⟩
    · exact Nat.ne_of_lt hlt (place_unique h hc (heq ▸ ha))
    · exact not_sublist_swap (h.placed.once r) ((sublist_of_lt hc ha hlt).trans hfront)
  unfold sortedBody
  rw [sortPlaces_eq_range, filterMap_range_getElem?]
  · intro i j hlt hj hedge
    obtain ⟨c, a, hc, ha, hne, hback⟩ := hpair hlt hj
    obtain ⟨a', c', ha', hc', hdata⟩ := dataEdge_of_mem h hr hedge
    cases ha.symm.trans ha'
    cases hc.symm.trans hc'
    exact hback (hsorted.data a (mem_of_getElem? ha) c (mem_of_getElem? hc) hne.symm hdata)
  · intro i j hlt hj hedge
    obtain ⟨c, a, hc, ha, hne, hback⟩ := hpair hlt hj
    obtain ⟨a', c', ha', hc', hcontrol⟩ := controlEdge_of_mem h hr hedge
    cases ha.symm.trans ha'
    cases hc.symm.trans hc'
    have hsame :=
      (hsorted.control a (mem_of_getElem? ha) c (mem_of_getElem? hc) hne.symm hcontrol).resolve_left
      hback
    exact (connected_of_sameComponent h hr ha hc hsame).symm
  · intro i k j hik hkj hj hconn
    have ha := getElem?_eq_getElem (Nat.lt_trans (Nat.lt_trans hik hkj) hj)
    have hb := getElem?_eq_getElem (Nat.lt_trans hkj hj)
    have hc := getElem?_eq_getElem hj
    exact connected_of_sameComponent h hr ha hb
      (htogether _ _ _ ((sublist_of_lt_of_lt ha hb hc hik hkj).trans hfront)
      (sameComponent_of_connected h hr ha hc hconn))

lemma newOrder_eq_none_iff : newOrder p r = .ok none ↔
    ¬ Refused p r ∧ Sorted p r (p.opsIn r) ∧ Together p r (p.opsIn r) := by
  constructor
  · intro hok
    refine ⟨fun hrefused ↦ ?_, sorted_newOrder h hr hok, together_newOrder h hr hok⟩
    cases hok.symm.trans ((newOrder_eq_error_iff h hr).mpr ⟨hrefused, rfl⟩)
  · rintro ⟨hrefused, hsorted, htogether⟩
    rcases hok : newOrder p r with err | _ | order
    · exact absurd ((newOrder_eq_error_iff h hr).mp hok).1 hrefused
    · rfl
    · have hsame : order = p.opsIn r := by
        have hops := getD_newOrder h hr hok
        rwa [sortedBody_of_together h hr hsorted htogether, bodyOps_append h] at hops
      exact absurd hsame (order_ne_of_newOrder hok)

end Region

/-! ### After a sort -/

lemma ancestorIn_of_places {q : Program} (hparent : ∀ o, q.parentOf? o = p.parentOf? o)
    (howner : ∀ r, q.parentOp? r = p.parentOp? r) (hanc : AncestorIn p r o a) :
    AncestorIn q r o a := by
  induction hanc with
  | here hhere => exact .here ((hparent _).trans hhere)
  | up hup hown _ ih => exact .up ((hparent _).trans hup) ((howner _).trans hown) ih

namespace SameButOrder

variable {q : Program} (hsame : SameButOrder p q)

include hsame

lemma op? (o : OpId) : q.op? o = p.op? o := by
  rw [hsame.rest]
  rfl

lemma value? (v : ValueId) : q.value? v = p.value? v := by
  rw [hsame.rest]
  rfl

lemma parentOp? (r : RegionId) : q.parentOp? r = p.parentOp? r := by
  refine parentOp?_congr ?_
  unfold ownerOf?
  rw [hsame.region?, Option.map_map]
  rfl

lemma isEnd (o : OpId) : q.isEnd o = p.isEnd o := by
  rw [Program.isEnd, Program.isEnd, hsame.op?]

lemma ancestorIn : AncestorIn q r o a ↔ AncestorIn p r o a := by
  have hparent : ∀ o, q.parentOf? o = p.parentOf? o := fun o ↦ by
    rw [parentOf?, parentOf?, hsame.op?]
  exact ⟨ancestorIn_of_places (fun o ↦ (hparent o).symm) fun r ↦ (hsame.parentOp? r).symm,
    ancestorIn_of_places hparent hsame.parentOp?⟩

lemma uses {user producer : OpId} : Uses q user producer ↔ Uses p user producer := by
  unfold Uses operandsOf originOf?
  simp only [hsame.op?, hsame.value?]

lemma dataEdge : DataEdge q r a c ↔ DataEdge p r a c := by
  unfold DataEdge EdgeBy
  simp only [hsame.ancestorIn, hsame.uses]

lemma controlEdge : ControlEdge q r a c ↔ ControlEdge p r a c := by
  unfold ControlEdge EdgeBy Awaits controlOf
  simp only [hsame.ancestorIn, hsame.op?]

lemma attachedAt {n : Nat} (hp : p.Consistent) (hq : q.Consistent) : AttachedAt q n r ↔
    AttachedAt p n r := by
  have hroots : q.roots = p.roots := by
    rw [hsame.rest]
    rfl
  have hops : ∀ {o home}, o ∈ q.opsIn home ↔ o ∈ p.opsIn home := by
    intro o home
    rw [hq.mem_opsIn, hp.mem_opsIn, parentOf?, parentOf?, hsame.op?]
  have hregions : ∀ o, q.regionsOf o = p.regionsOf o := fun o ↦ by
    rw [regionsOf, regionsOf, hsame.op?]
  constructor
  · intro hat
    induction hat with
    | root hroot => exact .root (hroots ▸ hroot)
    | nested _ ho hinner ih => exact .nested ih (hops.mp ho) (hregions _ ▸ hinner)
  · intro hat
    induction hat with
    | root hroot => exact .root (hroots ▸ hroot)
    | nested _ ho hinner ih => exact .nested ih (hops.mpr ho) (hregions _ ▸ hinner)

lemma terminator?_of_old (hsorted : Sorted p r (q.opsIn r)) (hold : p.terminator? r = some o) :
    q.terminator? r = some o := by
  refine terminator?_eq_some.mpr ⟨hsorted.last o hold, ?_⟩
  rw [hsame.isEnd]
  exact (terminator?_eq_some.mp hold).2

lemma bodyOps_subset (hsorted : Sorted p r (q.opsIn r)) : bodyOps q r ⊆ bodyOps p r := by
  intro o ho
  obtain ⟨hmem, hlast⟩ := mem_bodyOps.mp ho
  exact mem_bodyOps.mpr
    ⟨hsorted.perm.subset hmem, fun hold ↦ hlast (hsame.terminator?_of_old hsorted hold)⟩

lemma refused (hq : q.Consistent) (hsorted : Sorted p r (q.opsIn r)) (hrefused : Refused q r) :
    Refused p r := by
  have hsub := hsame.bodyOps_subset hsorted
  obtain ⟨hcount, o, hloop⟩ := hrefused
  refine ⟨Nat.le_trans hcount ((nodup_bodyOps hq).subperm hsub).length_le, o, ?_⟩
  refine (Relation.TransGen.mono fun a c hlink ↦ ?_) o o hloop
  obtain ⟨ha, hc, producer, user, hproducer, huser, huses, hself⟩ := hlink
  exact ⟨hsub ha, hsub hc, producer, user, hsame.ancestorIn.mp hproducer, hsame.ancestorIn.mp huser,
    hsame.uses.mp huses, hself⟩

lemma terminator? (hterminated : Terminated p) (hr : p.Attached r)
    (hsorted : Sorted p r (q.opsIn r)) : q.terminator? r = p.terminator? r := by
  refine Option.ext fun t ↦ ⟨fun hnew ↦ ?_, hsame.terminator?_of_old hsorted⟩
  obtain ⟨hlast, hend⟩ := terminator?_eq_some.mp hnew
  rw [hsame.isEnd] at hend
  exact hterminated.last r hr t (hsorted.perm.subset (mem_of_getLast? hlast)) hend

lemma sorted_and_together (hterminator : q.terminator? r = p.terminator? r)
    (hsorted : Sorted p r (q.opsIn r)) (htogether : Together p r (q.opsIn r)) :
    Sorted q r (q.opsIn r) ∧ Together q r (q.opsIn r) := by
  have hbody : ∀ {o}, o ∈ bodyOps q r ↔ o ∈ bodyOps p r := by
    intro o
    rw [mem_bodyOps, mem_bodyOps, hterminator, hsorted.perm.mem_iff]
  have hdepends : Dependency q r = Dependency p r := by
    funext a c
    unfold Dependency
    rw [hbody, hbody, hsame.dataEdge, hsame.controlEdge]
  have hcomponent : SameComponent q r = SameComponent p r := by
    unfold SameComponent
    rw [hdepends]
  refine ⟨⟨.refl _, fun t ht ↦ (terminator?_eq_some.mp ht).1, ?_, ?_⟩, ?_⟩
  · intro a ha c hc hne hdata
    exact hsorted.data a (hbody.mp ha) c (hbody.mp hc) hne (hsame.dataEdge.mp hdata)
  · intro a ha c hc hne hcontrol
    rw [hcomponent]
    exact hsorted.control a (hbody.mp ha) c (hbody.mp hc) hne (hsame.controlEdge.mp hcontrol)
  · unfold Together
    rw [hcomponent]
    exact htogether

end SameButOrder

/-! ### The pass -/

lemma keeps_reachable_run : Edit.Keeps Reachable run := by
  refine .bind (.read _) fun orders ↦ .bind (.forM (fun entry ↦ ?_) orders) fun _ ↦ .pure _
  exact .reachable (.reorder entry.1 entry.2) rfl

lemma run_eq_unchanged_iff (h : p.Consistent) :
    run.exec p = (.ok false, p) ↔ ∀ r, p.Attached r → newOrder p r = .ok none := by
  constructor
  · intro hrun r hr
    obtain ⟨orders, hplan, hempty, -⟩ := exists_plan_of_run h hrun
    obtain rfl : orders = [] := by simpa using hempty
    obtain ⟨_ | order, hnew, hlisted⟩ := (plan_ok h hplan).1 r hr
    · exact hnew
    · exact absurd (hlisted order rfl) not_mem_nil
  · intro hstays
    rcases hplan : plan p with err | orders
    · obtain ⟨r, hr, hfails⟩ := plan_error h hplan
      cases hfails.symm.trans (hstays r hr)
    · rcases orders with _ | ⟨⟨r, order⟩, rest⟩
      · exact exec_run_of_plan h hplan
      · obtain ⟨hr, hnew⟩ := (plan_ok h hplan).2 r order mem_cons_self
        cases hnew.symm.trans (hstays r hr)

/-- A second sort changes nothing exactly if all regions that got a terminator by the first one are
sorted and have their components together without it. In a verified program there are no such
regions. -/
theorem sorts_again_iff (registry : Registry) {p q : Program} (hp : Reachable p) {changed : Bool}
    (hrun : (pass.run registry).exec p = (.ok changed, q)) :
    ((pass.run registry).exec q = (.ok false, q) ↔ ∀ r, p.Attached r →
      q.terminator? r ≠ p.terminator? r → Sorted q r (q.opsIn r) ∧ Together q r (q.opsIn r)) ∧
    (p.verify = .ok () → (pass.run registry).exec q = (.ok false, q)) := by
  have h := hp.consistent
  have hq : q.Consistent := (keeps_reachable_run.of_ok hp hrun).consistent
  obtain ⟨orders, hplan, -, rfl⟩ := exists_plan_of_run h hrun
  have hsame := sameButOrder_reordered p orders
  have hattached : ∀ {r}, (reordered p orders).Attached r ↔ p.Attached r := exists_congr fun n ↦
    hsame.attachedAt h hq
  have hsorted : ∀ {r}, p.Attached r → Sorted p r ((reordered p orders).opsIn r) ∧
      Together p r ((reordered p orders).opsIn r) ∧ ¬ Refused p r := by
    intro r hr
    obtain ⟨new, hnew, hops⟩ := opsIn_of_plan h hplan hr
    rw [hops]
    refine ⟨sorted_newOrder h hr hnew, together_newOrder h hr hnew, fun hrefused ↦ ?_⟩
    cases hnew.symm.trans ((newOrder_eq_error_iff h hr).mpr ⟨hrefused, rfl⟩)
  have hagain : (pass.run registry).exec (reordered p orders) = (.ok false, reordered p orders) ↔
      ∀ r, p.Attached r → (reordered p orders).terminator? r ≠ p.terminator? r →
      Sorted (reordered p orders) r ((reordered p orders).opsIn r) ∧
      Together (reordered p orders) r ((reordered p orders).opsIn r) := by
    refine (run_eq_unchanged_iff hq).trans ?_
    constructor
    · intro hstays r hr _
      exact ((newOrder_eq_none_iff hq (hattached.mpr hr)).mp (hstays r (hattached.mpr hr))).2
    · intro hnew r hr
      obtain ⟨hsort, htogether, hrefused⟩ := hsorted (hattached.mp hr)
      refine (newOrder_eq_none_iff hq hr).mpr
        ⟨fun hagain ↦ hrefused (hsame.refused hq hsort hagain), ?_⟩
      by_cases hterminator : (reordered p orders).terminator? r = p.terminator? r
      · exact hsame.sorted_and_together hterminator hsort htogether
      · exact hnew r (hattached.mp hr) hterminator
  refine ⟨hagain, fun hverified ↦ hagain.mpr fun r hr hne ↦ absurd ?_ hne⟩
  exact hsame.terminator? (terminated_of_verify h hverified) hr (hsorted hr).1

/-- A program where a value is used in a branch in front of its source, and two operations in
between wait for each other. -/
def knotted : Program :=
  .built [
    .node 0 "ping", .node 0 "choose", .addRegion ⟨1⟩ .once, .node 0 "source" [] 1,
    .node 1 yieldKind [0], .node 0 "pong" [] 0 [0], .addControl ⟨0⟩ ⟨4⟩]

/-- The operations that wait for each other are brought together, and stay there. -/
theorem sorts_again_knotted :
    let registry : Registry := NameMap.empty
    let q := ((pass.run registry).exec knotted).2
    Reachable knotted ∧ knotted.verify = .ok () ∧ (pass.run registry).exec knotted = (.ok true, q) ∧
      q.opsIn ⟨0⟩ = [⟨0⟩, ⟨4⟩, ⟨2⟩, ⟨1⟩] ∧ (pass.run registry).exec q = (.ok false, q) := by
  intro registry q
  have hp : Reachable knotted := reachable_built _
  have hrun : (pass.run registry).exec knotted = (.ok true, q) :=
    Edit.exec_eq_ok (by decide +kernel)
  have hverified : knotted.verify = .ok () := rfl
  exact ⟨hp, hverified, hrun, by decide +kernel, (sorts_again_iff registry hp hrun).2 hverified⟩

/-- Three operations wait for each other, and the one that becomes the terminator uses a value of
the last. -/
def lateTerminator : Program :=
  .built [
    .node 0 "first", .node 0 "source" [] 1, .node 0 yieldKind [0], .addControl ⟨0⟩ ⟨1⟩,
    .addControl ⟨1⟩ ⟨2⟩, .addControl ⟨2⟩ ⟨0⟩, .reorder ⟨0⟩ [⟨0⟩, ⟨2⟩, ⟨1⟩]]

/-- The first sort makes a terminator of the one that links the other two, so the second sort turns
these around. -/
theorem lateTerminator_sorted_twice :
    let registry : Registry := NameMap.empty
    let q := ((pass.run registry).exec lateTerminator).2
    Reachable lateTerminator ∧ (pass.run registry).exec lateTerminator = (.ok true, q) ∧
      q.opsIn ⟨0⟩ = [⟨0⟩, ⟨1⟩, ⟨2⟩] ∧ ((pass.run registry).exec q).1 = .ok true ∧
      ((pass.run registry).exec q).2.opsIn ⟨0⟩ = [⟨1⟩, ⟨0⟩, ⟨2⟩] := by
  intro registry q
  exact ⟨reachable_built _, Edit.exec_eq_ok (by decide +kernel), by decide +kernel,
    Edit.eq_ok_of_toOption (by decide +kernel), by decide +kernel⟩

end TopologicalOrder

end TensorGraph
