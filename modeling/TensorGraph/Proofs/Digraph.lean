import Mathlib.Data.List.Nodup
import Mathlib.Data.List.Perm.Basic
import Mathlib.Logic.Relation
import TensorGraph.Digraph

/-!
What the searches and orders of directed graphs compute. The search finds exactly what a path leads
to, so the test for cycles finds every cycle, and the components are the classes of mutually
reachable nodes.
-/

namespace TensorGraph

open List

/-- Whatever the relation leads to from a node that has been seen has been seen or waits on the
stack. -/
def Covers (R : α → α → Prop) (seen stack : List α) : Prop :=
  ∀ a ∈ seen, ∀ b, R a b → b ∈ seen ∨ b ∈ stack

namespace Covers

variable {α : Type} {R : α → α → Prop} {seen stack next : List α} {n : α} {α : Type}

lemma closed (h : Covers R seen []) : ∀ a ∈ seen, ∀ b, R a b → b ∈ seen := by
  intro a ha b hb
  exact (h a ha b hb).resolve_right not_mem_nil

lemma drop (h : Covers R seen (n :: stack)) (hn : n ∈ seen) : Covers R seen stack := by
  intro a ha b hb
  rcases h a ha b hb with hb | hb
  · exact .inl hb
  · rcases mem_cons.mp hb with rfl | hb
    · exact .inl hn
    · exact .inr hb

lemma push (h : Covers R seen (n :: stack)) (hnext : ∀ b, R n b → b ∈ next) :
    Covers R (n :: seen) (next ++ stack) := by
  intro a ha b hb
  rcases mem_cons.mp ha with rfl | ha
  · exact .inr (mem_append_left _ (hnext b hb))
  · rcases h a ha b hb with hb | hb
    · exact .inl (mem_cons_of_mem _ hb)
    · rcases mem_cons.mp hb with rfl | hb
      · exact .inl mem_cons_self
      · exact .inr (mem_append_right _ hb)

end Covers

variable {component seen : List Nat} {a b n count x : Nat}

namespace Edges

variable {edges : Edges}

def Reaches (edges : Edges) : Nat → Nat → Prop :=
  Relation.ReflTransGen fun a b ↦ (a, b) ∈ edges

def Connected (edges : Edges) (a b : Nat) : Prop :=
  edges.Reaches a b ∧ edges.Reaches b a

/-! ### Search -/

lemma mem_successors : b ∈ edges.successors a ↔ (a, b) ∈ edges := by
  unfold successors
  rw [mem_filterMap]
  constructor
  · rintro ⟨⟨x, y⟩, hedge, hsome⟩
    split_ifs at hsome with hx
    cases hsome
    exact hx ▸ hedge
  · intro hedge
    exact ⟨(a, b), hedge, if_pos rfl⟩

def pending (edges : Edges) (seen : List Nat) : Nat :=
  (edges.filter fun edge ↦ !seen.contains edge.1).length

lemma pending_cons (hn : n ∉ seen) (edges : Edges) :
    edges.pending (n :: seen) + (edges.successors n).length = edges.pending seen := by
  induction edges with
  | nil => rfl
  | cons edge rest ih =>
    unfold pending successors at ih ⊢
    simp only [contains_cons] at ih ⊢
    by_cases hedge : edge.1 = n
    · have hunseen : seen.contains edge.1 = false := by simpa [hedge] using hn
      simp only [filter_cons, filterMap_cons, hedge, if_true]
      rw [hedge] at hunseen
      simp only [beq_self_eq_true, Bool.true_or, hunseen, Bool.not_true, Bool.not_false,
        Bool.false_eq_true, if_false, if_true, length_cons]
      omega
    · have hother : (edge.1 == n) = false := by simpa using hedge
      simp only [filter_cons, filterMap_cons, if_neg hedge, hother, Bool.false_or]
      split_ifs
      · rw [length_cons, length_cons]
        omega
      · exact ih

lemma visit_closed (steps : Nat) (stack seen : List Nat)
    (hsteps : stack.length + edges.pending seen ≤ steps)
    (hclosed : Covers (fun a b ↦ (a, b) ∈ edges) seen stack) : seen ⊆ edges.visit steps stack seen ∧
    stack ⊆ edges.visit steps stack seen ∧ ∀ a ∈ edges.visit steps stack seen, ∀ b, (a, b) ∈ edges →
    b ∈ edges.visit steps stack seen := by
  induction steps generalizing stack seen with
  | zero =>
    obtain rfl : stack = [] := length_eq_zero_iff.mp (by omega)
    exact ⟨Subset.refl _, nil_subset _, hclosed.closed⟩
  | succ steps ih =>
    rcases stack with _ | ⟨n, stack⟩
    · exact ⟨Subset.refl _, nil_subset _, hclosed.closed⟩
    rw [length_cons] at hsteps
    rw [visit]
    split_ifs with hn
    · have hmem : n ∈ seen := contains_iff_mem.mp hn
      obtain ⟨hseen, hstack, hend⟩ := ih stack seen (by omega) (hclosed.drop hmem)
      exact ⟨hseen, cons_subset.mpr ⟨hseen hmem, hstack⟩, hend⟩
    · have hfresh : n ∉ seen := fun hmem ↦ hn (contains_iff_mem.mpr hmem)
      -- The edges from `n` are no longer pending but on the stack, so the bound still holds.
      have hcount := pending_cons hfresh edges
      obtain ⟨hseen, hstack, hend⟩ := ih (edges.successors n ++ stack) (n :: seen)
        (by rw [length_append]; omega) (hclosed.push fun b ↦ mem_successors.mpr)
      rw [cons_subset] at hseen
      rw [append_subset] at hstack
      exact ⟨hseen.2, cons_subset.mpr ⟨hseen.1, hstack.2⟩, hend⟩

lemma visit_sound {start steps : Nat} {stack : List Nat}
    (hstack : ∀ x ∈ stack, edges.Reaches start x) (hseen : ∀ x ∈ seen, edges.Reaches start x) :
    ∀ x ∈ edges.visit steps stack seen, edges.Reaches start x := by
  induction steps generalizing stack seen with
  | zero => exact hseen
  | succ steps ih =>
    rcases stack with _ | ⟨n, stack⟩
    · exact hseen
    rw [forall_mem_cons] at hstack
    rw [visit]
    split_ifs
    · exact ih hstack.2 hseen
    · refine ih (fun x hx ↦ ?_) (forall_mem_cons.mpr ⟨hstack.1, hseen⟩)
      rcases mem_append.mp hx with hx | hx
      · exact hstack.1.tail (mem_successors.mp hx)
      · exact hstack.2 x hx

lemma mem_reach : b ∈ edges.reach a ↔ edges.Reaches a b := by
  constructor
  · intro hb
    refine visit_sound (fun x hx ↦ ?_) (fun x hx ↦ absurd hx not_mem_nil) b hb
    rw [mem_singleton.mp hx]
    exact .refl
  · intro hpath
    have hall : edges.pending [] = edges.length := by
      unfold pending
      simp
    obtain ⟨-, hstart, hend⟩ := visit_closed (edges.length + 1) [a] []
      (by rw [hall, length_singleton]; omega) fun x hx ↦ absurd hx not_mem_nil
    induction hpath with
    | refl => exact hstart mem_cons_self
    | tail _ hedge ih => exact hend _ ih _ hedge

lemma acyclic_of_hasCycle_eq_false (h : edges.hasCycle = false) (a : Nat) :
    ¬ Relation.TransGen (fun x y ↦ (x, y) ∈ edges) a a := by
  intro hloop
  obtain ⟨b, hedge, hback⟩ := Relation.TransGen.head'_iff.mp hloop
  have hcycle : edges.hasCycle = true := by
    refine any_eq_true.mpr ⟨(a, b), hedge, ?_⟩
    exact contains_iff_mem.mpr (mem_reach.mpr hback)
  exact Bool.false_ne_true (h.symm.trans hcycle)

/-! ### Components -/

lemma Connected.refl (edges : Edges) (a : Nat) : edges.Connected a a :=
  ⟨.refl, .refl⟩

lemma Connected.symm (h : edges.Connected a b) : edges.Connected b a :=
  ⟨h.2, h.1⟩

lemma Connected.trans {c : Nat} (hab : edges.Connected a b) (hbc : edges.Connected b c) :
    edges.Connected a c :=
  ⟨hab.1.trans hbc.1, hbc.2.trans hab.2⟩

def connected (edges : Edges) (a b : Nat) : Bool :=
  (edges.reach a).contains b && (edges.reach b).contains a

def leaders (edges : Edges) (count : Nat) : List Nat :=
  (List.range count).filter fun n ↦ (List.range n).all fun m ↦ !edges.connected m n

def classOf (edges : Edges) (count n : Nat) : List Nat :=
  n :: (List.range count).filter fun m ↦ n < m && edges.connected n m

lemma connected_iff : edges.connected a b = true ↔ edges.Connected a b := by
  unfold connected
  rw [Bool.and_eq_true, contains_iff_mem, contains_iff_mem, mem_reach, mem_reach]
  exact Iff.rfl

lemma components_eq (edges : Edges) (count : Nat) :
    edges.components count = (edges.leaders count).map (edges.classOf count) := by
  have hreached : ∀ a < count,
      ((List.range count).map edges.reach)[a]?.getD [] = edges.reach a := by
    intro a ha
    rw [getElem?_map, getElem?_range ha]
    rfl
  unfold components leaders
  dsimp only
  have hleaders : ∀ n ∈ List.range count, ((List.range n).all fun m ↦
      !((((List.range count).map edges.reach)[m]?.getD []).contains n &&
      (((List.range count).map edges.reach)[n]?.getD []).contains m)) = (List.range n).all fun m ↦
      !edges.connected m
      n := by
    intro n hn
    rw [mem_range] at hn
    rw [Bool.eq_iff_iff, all_eq_true, all_eq_true]
    refine forall₂_congr fun m hm ↦ ?_
    rw [hreached n hn, hreached m (Nat.lt_trans (mem_range.mp hm) hn)]
    exact Iff.rfl
  rw [filter_congr hleaders]
  refine map_congr_left fun n hn ↦ ?_
  have hbound : n < count := mem_range.mp (mem_filter.mp hn).1
  unfold classOf
  congr 1
  refine filter_congr fun m hm ↦ ?_
  rw [hreached n hbound, hreached m (mem_range.mp hm)]
  rfl

lemma mem_leaders : n ∈ edges.leaders count ↔ n < count ∧ ∀ m < n, ¬ edges.Connected m n := by
  unfold leaders
  simp only [mem_filter, mem_range, all_eq_true, Bool.not_eq_true',
    ← connected_iff, Bool.not_eq_true]

lemma mem_classOf (hn : n ∈ edges.leaders count) : x ∈ edges.classOf count n ↔ x < count ∧
    edges.Connected n x := by
  obtain ⟨hbound, hleast⟩ := mem_leaders.mp hn
  unfold classOf
  simp only [mem_cons, mem_filter, mem_range, Bool.and_eq_true, decide_eq_true_eq, connected_iff]
  constructor
  · rintro (rfl | ⟨hx, -, hconn⟩)
    · exact ⟨hbound, .refl edges x⟩
    · exact ⟨hx, hconn⟩
  · rintro ⟨hx, hconn⟩
    rcases Nat.lt_trichotomy x n with hlt | heq | hgt
    · exact absurd hconn.symm (hleast x hlt)
    · exact .inl heq
    · exact .inr ⟨hx, hgt, hconn⟩

lemma eq_of_mem_leaders {m : Nat} (hn : n ∈ edges.leaders count)
    (hm : m ∈ edges.leaders count) (hconn : edges.Connected n m) : n = m := by
  rcases Nat.lt_trichotomy n m with hlt | heq | hgt
  · exact absurd hconn ((mem_leaders.mp hm).2 n hlt)
  · exact heq
  · exact absurd hconn.symm ((mem_leaders.mp hn).2 m hgt)

lemma exists_leader (ha : a < count) : ∃ n ∈ edges.leaders count, edges.Connected n a := by
  induction a using Nat.strongRecOn with
  | _ a ih =>
    by_cases hleast : ∀ m < a, ¬ edges.Connected m a
    · exact ⟨a, mem_leaders.mpr ⟨ha, hleast⟩, .refl edges a⟩
    · push Not at hleast
      obtain ⟨m, hm, hconn⟩ := hleast
      obtain ⟨n, hn, hleads⟩ := ih m hm (Nat.lt_trans hm ha)
      exact ⟨n, hn, hleads.trans hconn⟩

lemma mem_component (h : component ∈ edges.components count) (ha : a ∈ component) :
    b ∈ component ↔ b < count ∧ edges.Connected a b := by
  rw [components_eq] at h
  obtain ⟨n, hn, rfl⟩ := mem_map.mp h
  obtain ⟨-, hconn⟩ := (mem_classOf hn).mp ha
  rw [mem_classOf hn]
  constructor
  · rintro ⟨hb, hother⟩
    exact ⟨hb, hconn.symm.trans hother⟩
  · rintro ⟨hb, hother⟩
    exact ⟨hb, hconn.trans hother⟩

lemma eq_of_mem_components {front back : List Nat} (hfront : front ∈ edges.components count)
    (hback : back ∈ edges.components count) (hx : x ∈ front) (hx' : x ∈ back) : front = back := by
  rw [components_eq] at hfront hback
  obtain ⟨n, hn, rfl⟩ := mem_map.mp hfront
  obtain ⟨m, hm, rfl⟩ := mem_map.mp hback
  have hconn : edges.Connected n m :=
    ((mem_classOf hn).mp hx).2.trans ((mem_classOf hm).mp hx').2.symm
  rw [eq_of_mem_leaders hn hm hconn]

lemma component_ne_nil (h : component ∈ edges.components count) : component ≠ [] := by
  rw [components_eq] at h
  obtain ⟨n, -, rfl⟩ := mem_map.mp h
  exact cons_ne_nil _ _

lemma nodup_component (h : component ∈ edges.components count) : component.Nodup := by
  rw [components_eq] at h
  obtain ⟨n, -, rfl⟩ := mem_map.mp h
  refine nodup_cons.mpr ⟨fun hmem ↦ ?_, nodup_range.filter _⟩
  have hlt := (mem_filter.mp hmem).2
  simp at hlt

lemma nodup_components (edges : Edges) (count : Nat) : (edges.components count).Nodup := by
  rw [components_eq]
  refine (nodup_range.filter _).map_on fun n _ m _ heq ↦ ?_
  exact (List.cons.inj heq).1

lemma flatten_components_perm (edges : Edges) (count : Nat) :
    (edges.components count).flatten.Perm (List.range count) := by
  refine (perm_ext_iff_of_nodup ?_ nodup_range).mpr fun x ↦ ?_
  · refine nodup_flatten.mpr ⟨fun component h ↦ nodup_component h, ?_⟩
    refine (nodup_components edges count).pairwise_of_forall_ne
      fun front hfront back hback hne x hx hx' ↦ hne ?_
    exact eq_of_mem_components hfront hback hx hx'
  · rw [mem_flatten, mem_range, components_eq]
    constructor
    · rintro ⟨component, hcomponent, hx⟩
      obtain ⟨n, hn, rfl⟩ := mem_map.mp hcomponent
      exact ((mem_classOf hn).mp hx).1
    · intro hx
      obtain ⟨n, hn, hconn⟩ := exists_leader hx
      exact ⟨_, mem_map_of_mem hn, (mem_classOf hn).mpr ⟨hx, hconn⟩⟩

end Edges

/-! ### Taking what is ready -/

section PickOrder

variable {α : Type} {ready : List α → α → Bool} {rest : List α}

lemma exists_of_find?_eq_some {x : α} {ready : α → Bool} (h : rest.find? ready = some x) :
    ∃ front back, rest = front ++ x :: back ∧ rest.eraseP ready = front ++ back ∧ ready x = true ∧
    ∀ y ∈ front, ready y ≠ true := by
  obtain ⟨hx, front, back, rfl, hfront⟩ := find?_eq_some_iff_append.mp h
  refine ⟨front, back, rfl, ?_, hx, fun y hy ↦ by simpa using hfront y hy⟩
  rw [eraseP_append_right _ fun y hy ↦ by simpa using hfront y hy, eraseP_cons_of_pos hx]

lemma pickOrder_subset (ready : List α → α → Bool) (count : Nat) (rest : List α) :
    pickOrder ready count rest ⊆ rest := by
  induction count generalizing rest with
  | zero => exact nil_subset _
  | succ count ih =>
    rw [pickOrder]
    split
    · exact nil_subset _
    next x hx =>
      refine cons_subset.mpr ⟨mem_of_find?_eq_some hx, ?_⟩
      exact Subset.trans (ih _) eraseP_subset

lemma pickOrder_perm (hcount : rest.length ≤ count)
    (hprogress : ∀ part, part.Sublist rest → part ≠ [] → ∃ x ∈ part, ready part x = true) :
    (pickOrder ready count rest).Perm rest := by
  induction count generalizing rest with
  | zero =>
    obtain rfl : rest = [] := length_eq_zero_iff.mp (Nat.le_zero.mp hcount)
    exact .refl _
  | succ count ih =>
    rw [pickOrder]
    split
    next hnone =>
      by_cases hrest : rest = []
      · rw [hrest]
      · obtain ⟨x, hx, hready⟩ := hprogress rest (.refl _) hrest
        exact absurd hready (find?_eq_none.mp hnone x hx)
    next x hx =>
      obtain ⟨front, back, rfl, herase, -⟩ := exists_of_find?_eq_some hx
      rw [herase]
      have hpart : (front ++ back).Sublist (front ++ x :: back) :=
        (sublist_cons_self x back).append_left front
      have hperm : (pickOrder ready count (front ++ back)).Perm (front ++ back) := by
        refine ih ?_ fun part hsub ↦ hprogress part (hsub.trans hpart)
        simp only [length_append, length_cons] at hcount ⊢
        omega
      exact (hperm.cons x).trans perm_middle.symm

lemma pickOrder_pairwise (precedes : α → α → Prop) (hnodup : rest.Nodup)
    (hready : ∀ part, part.Sublist rest → ∀ x ∈ part, ready part x = true → ∀ y ∈ part, y ≠ x →
    ¬ precedes y x) : (pickOrder ready count rest).Pairwise fun x y ↦ ¬ precedes y x := by
  induction count generalizing rest with
  | zero => exact .nil
  | succ count ih =>
    rw [pickOrder]
    split
    · exact .nil
    next x hx =>
      obtain ⟨front, back, hrest, herase, htaken, -⟩ := exists_of_find?_eq_some hx
      rw [herase]
      have hpart :
          (front ++ back).Sublist rest := hrest ▸ (sublist_cons_self x back).append_left front
      refine pairwise_cons.mpr ⟨fun y hy ↦ ?_, ?_⟩
      · have hleft : y ∈ front ++ back := pickOrder_subset _ _ _ hy
        have hfresh : x ∉ front ++ back := by
          have hcons : (x :: (front ++ back)).Nodup :=
            (hrest ▸ hnodup : (front ++ x :: back).Nodup).perm perm_middle
          exact (nodup_cons.mp hcons).1
        refine hready rest (.refl _) x (mem_of_find?_eq_some hx) htaken y (hpart.subset hleft) ?_
        rintro rfl
        exact hfresh hleft
      · exact ih (hnodup.sublist hpart) fun part hsub ↦ hready part (hsub.trans hpart)

end PickOrder

lemma exists_minimal (below : α → α → Prop) (htrans : ∀ a b c, below a b → below b c → below a c)
    (hirrefl : ∀ a, ¬ below a a) {l : List α} (hl : l ≠ []) : ∃ x ∈ l, ∀ y ∈ l, ¬ below y x := by
  induction l with
  | nil => exact absurd rfl hl
  | cons a rest ih =>
    by_cases hrest : rest = []
    · subst hrest
      refine ⟨a, mem_cons_self, fun y hy ↦ ?_⟩
      rw [mem_singleton.mp hy]
      exact hirrefl a
    · obtain ⟨x, hx, hleast⟩ := ih hrest
      by_cases hbelow : below a x
      · refine ⟨a, mem_cons_self, fun y hy hya ↦ ?_⟩
        rcases mem_cons.mp hy with rfl | hy
        · exact hirrefl y hya
        · exact hleast y hy (htrans y a x hya hbelow)
      · refine ⟨x, mem_cons_of_mem a hx, fun y hy ↦ ?_⟩
        rcases mem_cons.mp hy with rfl | hy
        · exact hbelow
        · exact hleast y hy

namespace Edges

variable {edges : Edges}

lemma nodeReady_iff {rest : List Nat} : edges.nodeReady rest n = true ↔ ∀ m ∈ rest,
    (m, n) ∈ edges → m = n := by
  unfold nodeReady
  simp only [all_eq_true, Bool.or_eq_true, bne_iff_ne, beq_iff_eq, Bool.not_eq_true',
    contains_eq_mem, decide_eq_false_iff_not]
  constructor
  · intro h m hm hedge
    rcases h (m, n) hedge with (hne | heq) | hout
    · exact absurd rfl hne
    · exact heq
    · exact absurd hm hout
  · rintro h ⟨a, b⟩ hedge
    by_cases hb : b = n
    · subst hb
      by_cases ha : a ∈ rest
      · exact .inl (.inr (h a ha hedge))
      · exact .inr ha
    · exact .inl (.inl hb)

lemma orderNodes_perm (hacyclic : edges.hasCycle = false) (nodes : List Nat) :
    (edges.orderNodes nodes).Perm nodes := by
  refine pickOrder_perm (Nat.le_refl _) fun part _ hpart ↦ ?_
  obtain ⟨x, hx, hleast⟩ := exists_minimal (Relation.TransGen fun a b ↦ (a, b) ∈ edges)
    (fun _ _ _ hab hbc ↦ hab.trans hbc) (acyclic_of_hasCycle_eq_false hacyclic) hpart
  exact ⟨x, hx, nodeReady_iff.mpr fun m hm hedge ↦ absurd (.single hedge) (hleast m hm)⟩

lemma orderNodes_pairwise {nodes : List Nat} (hnodup : nodes.Nodup) :
    (edges.orderNodes nodes).Pairwise fun x y ↦ (y, x) ∉ edges := by
  refine pickOrder_pairwise (fun y x ↦ (y, x) ∈ edges) hnodup fun part _ x _ hready y hy hne hedge ↦
    hne ?_
  exact nodeReady_iff.mp hready y hy hedge

lemma componentReady_iff {rest : List (List Nat)} : edges.componentReady rest component = true ↔
    ∀ other ∈ rest, ∀ m ∈ other, ∀ n ∈ component, (m, n) ∈ edges → m ∈ component := by
  unfold componentReady
  simp only [all_eq_true, Bool.or_eq_true, Bool.not_eq_true', contains_eq_mem,
    decide_eq_false_iff_not, decide_eq_true_eq, any_eq_false]
  constructor
  · intro h other hother m hm n hn hedge
    rcases h (m, n) hedge with (hout | hin) | hnone
    · exact absurd hn hout
    · exact hin
    · exact absurd hm (hnone other hother)
  · rintro h ⟨a, b⟩ hedge
    by_cases hb : b ∈ component
    · by_cases ha : ∃ other ∈ rest, a ∈ other
      · obtain ⟨other, hother, hmem⟩ := ha
        exact .inl (.inr (h other hother a hmem b hb hedge))
      · exact .inr fun other hother hmem ↦ ha ⟨other, hother, hmem⟩
    · exact .inl (.inl hb)

lemma orderComponents_perm (edges : Edges) (count : Nat) :
    (edges.orderComponents (edges.components count)).Perm (edges.components count) := by
  refine pickOrder_perm (Nat.le_refl _) fun part hsub hpart ↦ ?_
  have hflat : part.flatten ≠ [] := by
    intro hnil
    obtain ⟨component, hmem⟩ := exists_mem_of_ne_nil part hpart
    exact component_ne_nil (hsub.subset hmem) (flatten_eq_nil_iff.mp hnil component hmem)
  -- Whatever is left and reaches the minimal node is reached back, so it is in the same component.
  obtain ⟨x, hx, hleast⟩ := exists_minimal (fun a b ↦ edges.Reaches a b ∧ ¬ edges.Reaches b a)
    (fun a b c hab hbc ↦ ⟨hab.1.trans hbc.1, fun hback ↦ hbc.2 (hback.trans hab.1)⟩)
    (fun a h ↦ h.2 h.1) hflat
  obtain ⟨component, hmem, hx⟩ := mem_flatten.mp hx
  refine ⟨component, hmem, componentReady_iff.mpr fun other hother m hm n hn hedge ↦ ?_⟩
  have hcomponent := hsub.subset hmem
  have hreach : edges.Reaches m x :=
    (Relation.ReflTransGen.single hedge).trans ((mem_component hcomponent hn).mp hx).2.1
  have hback : edges.Reaches x m := by
    by_contra hno
    exact hleast m (mem_flatten.mpr ⟨other, hother, hm⟩) ⟨hreach, hno⟩
  have hbound : m < count := ((mem_component (hsub.subset hother) hm).mp hm).1
  exact (mem_component hcomponent hx).mpr ⟨hbound, hback, hreach⟩

lemma orderComponents_pairwise (edges : Edges) (count : Nat) :
    (edges.orderComponents (edges.components count)).Pairwise fun front back ↦
      ∀ x ∈ front, ∀ y ∈ back, (y, x) ∉ edges := by
  refine (pickOrder_pairwise (fun back front ↦ ∃ x ∈ front, ∃ y ∈ back, (y, x) ∈ edges)
    (nodup_components edges count) ?_).imp fun hnone x hx y hy hedge ↦ hnone ⟨x, hx, y, hy, hedge⟩
  -- An edge from `back` into the ready `front` starts in `front`, and components share no node.
  rintro part hsub front hfront hready back hback hne ⟨x, hx, y, hy, hedge⟩
  have hshared : y ∈ front := componentReady_iff.mp hready back hback y hy x hx hedge
  exact hne (eq_of_mem_components (hsub.subset hback) (hsub.subset hfront) hy hshared)

end Edges

end TensorGraph
