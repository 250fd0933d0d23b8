import Mathlib.Data.List.Lex
import TensorGraph.Proofs.DataCycles

/-!
The order that the sort chooses. Taking the first ready element again and again gives the
lexicographically least of all orders that follow the edges.
-/

namespace TensorGraph

open List

variable {count : Nat} {nodes other : List Nat} {order : List OpId} {new : Option (List OpId)}
  {a c : OpId}

/-! ### Taking what is ready -/

section PickOrder

variable {α : Type} {ready : List α → α → Bool} {rest : List α}

lemma pickOrder_eq_self (hcount : rest.length ≤ count)
    (hready : ∀ x back, (x :: back).IsSuffix rest → ready (x :: back) x = true) :
    pickOrder ready count rest = rest := by
  induction count generalizing rest with
  | zero => exact (length_eq_zero_iff.mp (Nat.le_zero.mp hcount)).symm
  | succ count ih =>
    rcases rest with _ | ⟨x, back⟩
    · rfl
    · have hx := hready x back suffix_rfl
      rw [pickOrder, find?_cons_of_pos hx, eraseP_cons_of_pos hx]
      refine congrArg (x :: ·) (ih (Nat.le_of_succ_le_succ hcount) fun y last hsuffix ↦ ?_)
      exact hready y last (hsuffix.trans (suffix_cons x back))

lemma pickOrder_map {β : Type} (f : α → β) (ready : List β → β → Bool) (count : Nat)
    (rest : List α) : pickOrder ready count (rest.map f) =
    (pickOrder (fun left x ↦ ready (left.map f) (f x)) count rest).map f := by
  induction count generalizing rest with
  | zero => rfl
  | succ count ih =>
    have hcomp : ready (rest.map f) ∘ f = fun x ↦ ready (rest.map f) (f x) := rfl
    rw [pickOrder, pickOrder, find?_map, eraseP_map, hcomp]
    rcases rest.find? fun x ↦ ready (rest.map f) (f x) with _ | x
    · rfl
    · exact congrArg (f x :: ·) (ih _)

lemma pickOrder_least {ready : List Nat → Nat → Bool} (precedes : Nat → Nat → Prop)
    (hready : ∀ part, ∀ x ∈ part, (∀ y ∈ part, y ≠ x → ¬ precedes y x) → ready part x = true)
    {rest : List Nat} (hcount : rest.length ≤ count) (hascending : rest.Pairwise (· < ·))
    (hperm : other.Perm rest) (hforward : other.Pairwise fun x y ↦ ¬ precedes y x) :
    other = pickOrder ready count rest ∨ List.Lex (· < ·) (pickOrder ready count rest) other := by
  induction count generalizing rest other with
  | zero =>
    obtain rfl : rest = [] := length_eq_zero_iff.mp (Nat.le_zero.mp hcount)
    exact .inl (perm_nil.mp hperm)
  | succ count ih =>
    rcases other with _ | ⟨y, other⟩
    · rw [nil_perm.mp hperm]
      exact .inl rfl
    · obtain ⟨hfirst, htail⟩ := pairwise_cons.mp hforward
      have hy : y ∈ rest := hperm.subset mem_cons_self
      -- Nothing that is left precedes the first of the other order, so it is ready as well.
      have hyready : ready rest y = true := by
        refine hready rest y hy fun z hz hne ↦ hfirst z ?_
        exact (mem_cons.mp (hperm.symm.subset hz)).resolve_left hne
      obtain ⟨x, hx⟩ := Option.isSome_iff_exists.mp (find?_isSome.mpr ⟨y, hy, hyready⟩)
      obtain ⟨front, back, hrest, herase, -, hfront⟩ := exists_of_find?_eq_some hx
      rw [pickOrder, hx]
      dsimp only
      rw [herase]
      rw [hrest] at hcount hascending hperm hy
      by_cases hxy : x = y
      · subst hxy
        have hpart : (front ++ back).Sublist (front ++ x :: back) :=
          (sublist_cons_self x back).append_left front
        have hlength : (front ++ back).length ≤ count := by
          simp only [length_append, length_cons] at hcount ⊢
          omega
        rcases ih hlength (hascending.sublist hpart) ((perm_cons x).mp (hperm.trans perm_middle))
          htail with heq | hless
        · exact .inl (congrArg (x :: ·) heq)
        · exact .inr (.cons hless)
      · have hback : y ∈ back := by
          rcases mem_append.mp hy with hmem | hmem
          · exact absurd hyready (hfront y hmem)
          · exact (mem_cons.mp hmem).resolve_left (Ne.symm hxy)
        exact .inr (.rel ((pairwise_cons.mp (pairwise_append.mp hascending).2.1).1 y hback))

end PickOrder

/-! ### Edges that lead forward -/

namespace Edges

variable {edges : Edges}

lemma orderNodes_eq_self (hforward : nodes.Pairwise fun x y ↦ (y, x) ∉ edges) :
    edges.orderNodes nodes = nodes := by
  refine pickOrder_eq_self (Nat.le_refl _) fun x back hsuffix ↦
    nodeReady_iff.mpr fun m hm hedge ↦ ?_
  have hhere := pairwise_cons.mp (hforward.sublist hsuffix.sublist)
  exact (mem_cons.mp hm).resolve_right fun hback ↦ hhere.1 m hback hedge

lemma orderComponents_eq_self {components : List (List Nat)}
    (hforward : components.Pairwise fun front back ↦ ∀ x ∈ front, ∀ y ∈ back, (y, x) ∉ edges) :
    edges.orderComponents components = components := by
  refine pickOrder_eq_self (Nat.le_refl _) fun component back hsuffix ↦
    componentReady_iff.mpr fun other hother m hm n hn hedge ↦ ?_
  have hhere := pairwise_cons.mp (hforward.sublist hsuffix.sublist)
  rcases mem_cons.mp hother with rfl | hback
  · exact hm
  · exact absurd hedge (hhere.1 other hback n hn m hm)

lemma flatten_components_eq_range
    (htogether : ∀ i k j, i < k → k < j → j < count → edges.Connected i j → edges.Connected i k) :
    (edges.components count).flatten = List.range count := by
  refine Perm.eq_of_pairwise (fun a b _ _ hab hba ↦ absurd hba (Nat.lt_asymm hab)) ?_
    pairwise_lt_range (flatten_components_perm edges count)
  rw [components_eq, pairwise_flatten, pairwise_map]
  constructor
  · rintro component hmem
    obtain ⟨n, -, rfl⟩ := mem_map.mp hmem
    refine pairwise_cons.mpr ⟨fun m hm ↦ ?_, pairwise_lt_range.filter _⟩
    have hlater := (mem_filter.mp hm).2
    rw [Bool.and_eq_true, decide_eq_true_eq] at hlater
    exact hlater.1
  · have hascending : (edges.leaders count).Pairwise (· < ·) := pairwise_lt_range.filter _
    refine hascending.imp_of_mem fun {n m} hn hm hlt x hx y hy ↦ ?_
    obtain ⟨hxcount, hnx⟩ := (mem_classOf hn).mp hx
    obtain ⟨-, hmy⟩ := (mem_classOf hm).mp hy
    have hapart : ¬ edges.Connected n m :=
      fun hconn ↦ absurd (eq_of_mem_leaders hn hm hconn) (Nat.ne_of_lt hlt)
    have hmle : m ≤ y := Nat.le_of_not_lt fun hless ↦ (mem_leaders.mp hm).2 y hless hmy.symm
    -- Otherwise the least node of the later component lies between two nodes of the earlier one.
    by_contra hge
    rcases Nat.lt_or_eq_of_le (Nat.le_of_not_lt hge) with hless | rfl
    · exact hapart
        ((htogether n y x (Nat.lt_of_lt_of_le hlt hmle) hless hxcount hnx).trans hmy.symm)
    · exact hapart (hnx.trans hmy.symm)

lemma components_eq_map (hapart : ∀ i < count, ∀ j < count, edges.Connected i j → i = j) :
    edges.components count = (List.range count).map fun n ↦ [n] := by
  have hleaders : edges.leaders count = List.range count := by
    refine filter_eq_self.mpr fun n hn ↦ ?_
    have hn' := mem_range.mp hn
    have hmem : n ∈ edges.leaders count := mem_leaders.mpr ⟨hn', fun m hm hconn ↦
      Nat.ne_of_lt hm (hapart m (Nat.lt_trans hm hn') n hn' hconn)⟩
    exact (mem_filter.mp hmem).2
  rw [components_eq, hleaders]
  refine map_congr_left fun n hn ↦ ?_
  have hnone : (List.range count).filter (fun m ↦ n < m && edges.connected n m) = [] := by
    refine filter_eq_nil_iff.mpr fun m hm hconn ↦ ?_
    rw [Bool.and_eq_true, decide_eq_true_eq, connected_iff] at hconn
    exact Nat.ne_of_lt hconn.1 (hapart n (mem_range.mp hn) m (mem_range.mp hm) hconn.2)
  rw [classOf, hnone]

lemma orderNodes_least (hascending : nodes.Pairwise (· < ·)) (hperm : other.Perm nodes)
    (hforward : other.Pairwise fun x y ↦ (y, x) ∉ edges) :
    other = edges.orderNodes nodes ∨ List.Lex (· < ·) (edges.orderNodes nodes) other := by
  refine pickOrder_least (fun y x ↦ (y, x) ∈ edges) (fun part x _ hfirst ↦ ?_)
    (Nat.le_refl _) hascending hperm hforward
  refine nodeReady_iff.mpr fun m hm hedge ↦ ?_
  by_contra hne
  exact hfirst m hm hne hedge

end Edges

namespace TopologicalOrder

open Program

section Places

variable {data control : Edges}

lemma lt_of_mem_sortPlaces {i : Nat} (hi : i ∈ sortPlaces data control count) : i < count := by
  obtain ⟨component, hcomponent, hi⟩ := mem_flatMap.mp hi
  have hmem := pickOrder_subset _ _ _ hcomponent
  have hflat : i ∈ ((data ++ control).components count).flatten :=
    mem_flatten.mpr ⟨component, hmem, pickOrder_subset _ _ _ hi⟩
  exact mem_range.mp ((Edges.flatten_components_perm _ count).subset hflat)

/-- Places stay where they are if data leads forward, control as well outside of the components, and
the components stand together. -/
theorem sortPlaces_eq_range (hdata : ∀ i j, i < j → j < count → (j, i) ∉ data)
    (hcontrol : ∀ i j, i < j → j < count → (j, i) ∈ control → (data ++ control).Connected i j)
    (htogether : ∀ i k j, i < k → k < j → j < count → (data ++ control).Connected i j →
      (data ++ control).Connected i k) : sortPlaces data control count = List.range count := by
  have hflat := Edges.flatten_components_eq_range htogether
  have hascending : ((data ++ control).components count).flatten.Pairwise fun i j ↦
      i < j ∧ j < count := by
    rw [hflat]
    refine pairwise_lt_range.imp_of_mem fun {i j} _ hj hlt ↦ ⟨hlt, mem_range.mp hj⟩
  obtain ⟨hinside, hacross⟩ := pairwise_flatten.mp hascending
  unfold sortPlaces
  dsimp only
  rw [Edges.orderComponents_eq_self, ← hflat, flatten_eq_flatMap]
  · refine flatMap_congr fun component hcomponent ↦ Edges.orderNodes_eq_self ?_
    exact (hinside component hcomponent).imp fun {i j} hlt ↦ hdata i j hlt.1 hlt.2
  · refine ((Edges.nodup_components _ count).and hacross).imp_of_mem
      fun {front back} hfront hback hpair i hi j hj hedge ↦ ?_
    have hlt := hpair.2 i hi j hj
    rcases mem_append.mp hedge with hedge | hedge
    · exact hdata i j hlt.1 hlt.2 hedge
    · have hconn := hcontrol i j hlt.1 hlt.2 hedge
      have hshared := (Edges.mem_component hfront hi).mpr ⟨hlt.2, hconn⟩
      exact hpair.1 (Edges.eq_of_mem_components hfront hback hshared hj)

lemma sortPlaces_of_apart (hapart : ∀ i < count, ∀ j < count, (data ++ control).Connected i j →
    i = j) : sortPlaces data control count = (data ++ control).orderNodes (List.range count) := by
  have hready : (fun (left : List Nat) (n : Nat) ↦
      (data ++ control).componentReady (left.map fun n ↦ [n]) [n]) =
      (data ++ control).nodeReady := by
    funext left n
    rw [Bool.eq_iff_iff, Edges.componentReady_iff, Edges.nodeReady_iff]
    simp
  have hsingle : ∀ n, data.orderNodes [n] = [n] :=
    fun n ↦ Edges.orderNodes_eq_self (pairwise_singleton _ n)
  unfold sortPlaces Edges.orderComponents Edges.orderNodes
  dsimp only
  rw [Edges.components_eq_map hapart, pickOrder_map, hready, length_map, flatMap_map]
  exact (flatMap_congr fun n _ ↦ hsingle n).trans (flatMap_singleton' _)

end Places

/-! ### Orders of a region -/

/-- The order holds the operations other than the terminator, and each comes after what it depends
on. -/
structure Legal (p : Program) (r : RegionId) (order : List OpId) : Prop where
  perm : order.Perm (bodyOps p r)
  follows : ∀ a ∈ bodyOps p r, ∀ c ∈ bodyOps p r, a ≠ c → DataEdge p r a c ∨ ControlEdge p r a c →
    [a, c].Sublist order

/-- No operation depends on itself by way of others. -/
def Acyclic (p : Program) (r : RegionId) : Prop :=
  ∀ o, ¬ Relation.TransGen (fun a c ↦ a ≠ c ∧ Dependency p r a c) o o

/-- The place of an operation in the body of its region. -/
def place (p : Program) (r : RegionId) (o : OpId) : Nat :=
  (bodyOps p r).idxOf o

lemma not_sublist_swap {l : List OpId} (hnodup : l.Nodup) (hac : [a, c].Sublist l) :
    ¬ [c, a].Sublist l := by
  induction l with
  | nil => cases hac
  | cons x l ih =>
    intro hca
    obtain ⟨hx, hl⟩ := nodup_cons.mp hnodup
    rcases sublist_cons_iff.mp hac with hin | ⟨back, heq, hback⟩
    · rcases sublist_cons_iff.mp hca with hin' | ⟨back, heq, -⟩
      · exact ih hl hin hin'
      · obtain ⟨rfl, -⟩ := List.cons.inj heq
        exact hx (hin.subset (by simp))
    · obtain ⟨rfl, rfl⟩ := List.cons.inj heq
      rcases sublist_cons_iff.mp hca with hin' | ⟨back, heq, -⟩
      · exact hx (hin'.subset (by simp))
      · obtain ⟨rfl, -⟩ := List.cons.inj heq
        exact hx (hback.subset (by simp))

section Region

variable {p : Program} {r : RegionId}

lemma Acyclic.eq_of_sameComponent (hacyclic : Acyclic p r)
    (hsame : SameComponent p r a c) : a = c := by
  have hproper : Relation.ReflTransGen (Dependency p r) ≤
      Relation.ReflTransGen fun a c ↦ a ≠ c ∧ Dependency p r a c := by
    refine Relation.reflTransGen_closed fun x y hstep ↦ ?_
    by_cases hxy : x = y
    · rw [hxy]
    · exact .single ⟨hxy, hstep⟩
  by_contra hne
  rcases Relation.reflTransGen_iff_eq_or_transGen.mp (hproper a c hsame.1) with heq | hpath
  · exact hne heq.symm
  · exact hacyclic a (hpath.trans_left (hproper c a hsame.2))

lemma getElem?_place {o : OpId} (ho : o ∈ bodyOps p r) : (bodyOps p r)[place p r o]? = some o :=
  getElem?_idxOf ho

lemma filterMap_map_place (horder : order ⊆ bodyOps p r) :
    (order.map (place p r)).filterMap ((bodyOps p r)[·]?) = order := by
  rw [filterMap_map]
  exact (filterMap_congr fun o ho ↦ getElem?_place (horder ho)).trans filterMap_some

section Consistent

variable (h : p.Consistent)

include h

lemma map_place_filterMap {places : List Nat} (hplaces : ∀ i ∈ places, i < (bodyOps p r).length) :
    (places.filterMap ((bodyOps p r)[·]?)).map (place p r) = places := by
  rw [map_filterMap]
  refine (filterMap_congr fun i hi ↦ ?_).trans filterMap_some
  rw [getElem?_eq_getElem (hplaces i hi)]
  exact congrArg some ((nodup_bodyOps h).idxOf_getElem i (hplaces i hi))

lemma map_place_sortedBody : (sortedBody p r).map (place p r) =
    sortPlaces (dataEdges p r (bodyOps p r)) (controlEdges p r (bodyOps p r))
    (bodyOps p r).length :=
  map_place_filterMap h fun _ hi ↦ lt_of_mem_sortPlaces hi

lemma map_place_bodyOps : (bodyOps p r).map (place p r) = List.range (bodyOps p r).length := by
  have hrange : ((List.range (bodyOps p r).length).filterMap ((bodyOps p r)[·]?)).map (place p r) =
      List.range (bodyOps p r).length := map_place_filterMap h fun i hi ↦ mem_range.mp hi
  rwa [filterMap_range_getElem?] at hrange

end Consistent

variable (h : p.Consistent) (hr : p.Attached r)

include h hr

lemma Legal.places_pairwise (hlegal : Legal p r order) : (order.map (place p r)).Pairwise fun i j ↦
    (j, i) ∉ dataEdges p r (bodyOps p r) ++ controlEdges p r (bodyOps p r) := by
  have hnodup := hlegal.perm.nodup_iff.mpr (nodup_bodyOps h)
  refine pairwise_map.mpr (pairwise_iff_forall_sublist.mpr fun {c a} hsub hedge ↦ ?_)
  have hc : c ∈ bodyOps p r := hlegal.perm.subset (hsub.subset (by simp))
  have ha : a ∈ bodyOps p r := hlegal.perm.subset (hsub.subset (by simp))
  obtain ⟨a', c', ha', hc', hdepends⟩ := dependency_of_mem h hr hedge
  cases (getElem?_place ha).symm.trans ha'
  cases (getElem?_place hc).symm.trans hc'
  have hne : a ≠ c := by
    rintro rfl
    exact nodup_iff_sublist.mp hnodup a hsub
  exact not_sublist_swap hnodup hsub (hlegal.follows a ha c hc hne hdepends)

lemma sortedBody_of_legal (hlegal : Legal p r (bodyOps p r)) : sortedBody p r = bodyOps p r := by
  have hpairwise := hlegal.places_pairwise h hr
  rw [map_place_bodyOps h, pairwise_iff_getElem] at hpairwise
  have hforward : ∀ i j, i < j → j < (bodyOps p r).length → (j, i) ∉ allEdges p r := by
    intro i j hlt hj
    have hedge := hpairwise i j (by simpa using Nat.lt_trans hlt hj) (by simpa using hj) hlt
    rwa [getElem_range, getElem_range] at hedge
  have hascending : ∀ i j, (allEdges p r).Reaches j i → j ≤ i := by
    intro i j hpath
    induction hpath with
    | refl => exact Nat.le_refl j
    | @tail k i _ hedge ih =>
      obtain ⟨a, c, hk, -, -⟩ := dependency_of_mem h hr hedge
      refine Nat.le_trans ih (Nat.le_of_not_lt fun hback ↦ ?_)
      exact hforward i k hback (List.getElem?_eq_some_iff.mp hk).1 hedge
  unfold sortedBody
  rw [sortPlaces_eq_range, filterMap_range_getElem?]
  · intro i j hlt hj hedge
    exact hforward i j hlt hj (mem_append_left _ hedge)
  · intro i j hlt hj hedge
    exact absurd (mem_append_right _ hedge) (hforward i j hlt hj)
  · intro i k j hik hkj hj hconn
    exact absurd (hascending i j hconn.2) (Nat.not_le_of_lt (Nat.lt_trans hik hkj))

lemma getD_newOrder (hok : newOrder p r = .ok new) :
    new.getD (p.opsIn r) = sortedBody p r ++ (p.terminator? r).toList := by
  unfold newOrder at hok
  dsimp only at hok
  by_cases hshort : (bodyOps p r).length < 2
  · rw [if_pos hshort] at hok
    cases hok
    have hlegal : Legal p r (bodyOps p r) := by
      refine ⟨.refl _, fun a ha c hc hne ↦ absurd hshort (Nat.not_lt_of_le ?_)⟩
      exact two_le_length ha hc hne
    rw [sortedBody_of_legal h hr hlegal, bodyOps_append h]
    rfl
  · rw [if_neg hshort] at hok
    split_ifs at hok with hcycle hsame
    · cases hok
      exact hsame.symm
    · cases hok
      rfl

lemma legal_sortedBody (hacyclic : Acyclic p r) (hok : newOrder p r = .ok new) :
    Legal p r (sortedBody p r) := by
  have hsorted := sorted_newOrder h hr hok
  rw [getD_newOrder h hr hok] at hsorted
  have hnodup := hsorted.perm.nodup_iff.mpr (h.placed.once r)
  have hperm : (sortedBody p r).Perm (bodyOps p r) := by
    have hall := hsorted.perm
    rwa [← bodyOps_append h, perm_append_right_iff] at hall
  refine ⟨hperm, fun a ha c hc hne hdepends ↦ ?_⟩
  have hbefore : [a, c].Sublist (sortedBody p r ++ (p.terminator? r).toList) := by
    rcases hdepends with hdata | hcontrol
    · exact hsorted.data a ha c hc hne hdata
    · exact (hsorted.control a ha c hc hne hcontrol).resolve_right fun hsame ↦
        hne (hacyclic.eq_of_sameComponent hsame)
  refine (sublist_or_sublist (hperm.symm.subset ha) (hperm.symm.subset hc) hne).resolve_right
    fun hafter ↦ ?_
  exact not_sublist_swap hnodup hbefore (hafter.trans (sublist_append_left _ _))

lemma acyclic_of_hasCycle_eq_false (hnone : (allEdges p r).hasCycle = false) :
    Acyclic p r := by
  intro o hloop
  obtain ⟨c, ⟨hne, hstep⟩, hback⟩ := Relation.TransGen.head'_iff.mp hloop
  have ho := getElem?_place hstep.1
  have hc := getElem?_place hstep.2.1
  have hpath := Relation.ReflTransGen.mono (fun _ _ hdepends ↦ hdepends.2) c o hback
  exact Edges.acyclic_of_hasCycle_eq_false hnone (place p r o)
    (.head' (mem_of_dependency h hr ho hc hne hstep.2.2) (reaches_of_path h hr hc ho hpath))

lemma lex_sortedBody (hacyclic : Acyclic p r) {other : List OpId} (hlegal : Legal p r other)
    (hother : other ≠ sortedBody p r) :
    List.Lex (· < ·) ((sortedBody p r).map (place p r)) (other.map (place p r)) := by
  have hapart : ∀ i < (bodyOps p r).length, ∀ j < (bodyOps p r).length,
      (allEdges p r).Connected i j → i = j := by
    intro i hi j hj hconn
    have ha := getElem?_eq_getElem hi
    have hc := getElem?_eq_getElem hj
    have hsame := hacyclic.eq_of_sameComponent (sameComponent_of_connected h hr ha hc hconn)
    exact place_unique h ha (hsame ▸ hc)
  have hperm : (other.map (place p r)).Perm (List.range (bodyOps p r).length) := by
    rw [← map_place_bodyOps h]
    exact hlegal.perm.map _
  rw [map_place_sortedBody h, sortPlaces_of_apart hapart]
  refine (Edges.orderNodes_least pairwise_lt_range hperm
    (hlegal.places_pairwise h hr)).resolve_left fun hsame ↦ hother ?_
  rw [← sortPlaces_of_apart hapart, ← map_place_sortedBody h] at hsame
  rw [← filterMap_map_place hlegal.perm.subset, hsame, map_place_sortedBody h]
  rfl

end Region

/-! ### The pass -/

/-- A region where no operation depends on itself by way of others is sorted into the
lexicographically least of its legal orders, by the places of its operations before. If it was in a
legal order, it has not changed. -/
theorem least_legal_order (registry : Registry) {p q : Program} (hp : Reachable p) {changed : Bool}
    (hrun : (pass.run registry).exec p = (.ok changed, q)) {r : RegionId} (hr : p.Attached r)
    (hacyclic : Acyclic p r) :
    ∃ order, q.opsIn r = order ++ (p.terminator? r).toList ∧ Legal p r order ∧
      (∀ other, Legal p r other → other ≠ order →
        List.Lex (· < ·) (order.map (place p r)) (other.map (place p r))) ∧
      (Legal p r (bodyOps p r) → q.opsIn r = p.opsIn r) := by
  have h := hp.consistent
  obtain ⟨orders, hplan, -, rfl⟩ := exists_plan_of_run h hrun
  obtain ⟨new, hnew, hops⟩ := opsIn_of_plan h hplan hr
  rw [getD_newOrder h hr hnew] at hops
  refine ⟨sortedBody p r, hops, legal_sortedBody h hr hacyclic hnew,
    fun other hlegal hother ↦ lex_sortedBody h hr hacyclic hlegal hother, fun hlegal ↦ ?_⟩
  rw [hops, sortedBody_of_legal h hr hlegal, bodyOps_append h]

/-- A program where an operation waits for a branch that uses a value whose source comes last. -/
def scattered : Program :=
  .built [
    .node 0 "source" [] 1, .node 0 "choose", .addRegion ⟨1⟩ .once, .node 1 yieldKind [0],
    .node 0 "free", .node 0 "log" [] 0 [1], .node 0 yieldKind,
    .reorder ⟨0⟩ [⟨4⟩, ⟨1⟩, ⟨3⟩, ⟨0⟩, ⟨5⟩]]

/-- What depends on nothing comes first although the source could. -/
theorem least_order_scattered :
    let registry : Registry := NameMap.empty
    let q := ((pass.run registry).exec scattered).2
    Reachable scattered ∧ (pass.run registry).exec scattered = (.ok true, q) ∧
      scattered.Attached ⟨0⟩ ∧ Acyclic scattered ⟨0⟩ ∧ q.opsIn ⟨0⟩ = [⟨3⟩, ⟨0⟩, ⟨1⟩, ⟨4⟩, ⟨5⟩] ∧
      ∀ other, Legal scattered ⟨0⟩ other → other ≠ [⟨3⟩, ⟨0⟩, ⟨1⟩, ⟨4⟩] →
      List.Lex (· < ·) [2, 3, 1, 0] (other.map (place scattered ⟨0⟩)) := by
  intro registry q
  have hp : Reachable scattered := reachable_built _
  have hrun : (pass.run registry).exec scattered = (.ok true, q) :=
    Edit.exec_eq_ok (by decide +kernel)
  have hroot : scattered.Attached ⟨0⟩ := ⟨0, .root mem_cons_self⟩
  have hacyclic : Acyclic scattered ⟨0⟩ := acyclic_of_hasCycle_eq_false hp.consistent hroot
    (by decide +kernel)
  have hops : q.opsIn ⟨0⟩ = [⟨3⟩, ⟨0⟩, ⟨1⟩, ⟨4⟩, ⟨5⟩] := by decide +kernel
  obtain ⟨order, horder, -, hleast, -⟩ := least_legal_order registry hp hrun hroot hacyclic
  obtain rfl : order = [⟨3⟩, ⟨0⟩, ⟨1⟩, ⟨4⟩] :=
    append_cancel_right (horder.symm.trans hops : order ++ [⟨5⟩] = [⟨3⟩, ⟨0⟩, ⟨1⟩, ⟨4⟩] ++ [⟨5⟩])
  exact ⟨hp, hrun, hroot, hacyclic, hops, hleast⟩

end TopologicalOrder

end TensorGraph
