import Mathlib.Algebra.Order.BigOperators.Group.Finset
import TensorGraph.Proofs.NameMaps
import TensorGraph.Proofs.TypePropagation
import TensorGraph.Registry.Standard

/-!
The propagation of types comes to an end. Each look at an operation uses up one of the looks that
the limit allows, and between two looks the queue only gets shorter.
-/

namespace TensorGraph.TypePropagation

open Program Edit List Option

variable {p q : Program} {o : OpId} {visited : List OpId} {agenda : Agenda}
    {outcome : Except Error (Agenda × Bool) × Program}

/-! ### The work that is left -/

structure Agenda.Sound (p : Program) (agenda : Agenda) : Prop where
  nodup : agenda.queue.Nodup
  live : ∀ o ∈ agenda.queue, (p.op? o).isSome

lemma Agenda.Sound.tail {queue : List OpId} (h : (Agenda.mk (o :: queue) visited).Sound p)
    (visited' : List OpId) : (Agenda.mk queue visited').Sound p :=
  ⟨(nodup_cons.mp h.nodup).2, fun x hx ↦ h.live x (mem_cons_of_mem o hx)⟩

lemma sound_start (hp : p.Consistent) : (p.allOps.foldl Agenda.push (Agenda.mk [] [])).Sound p := by
  refine ⟨nodup_foldl_push nodup_nil, fun o ho ↦ ?_⟩
  rcases mem_foldl_push.mp ho with ho | ho
  · cases ho
  · exact hp.isSome_of_mem_allOps ho

lemma Agenda.Sound.length_le (h : agenda.Sound p) : agenda.queue.length ≤ p.slots.length := by
  have hinjective : Function.Injective OpId.index := by
    rintro ⟨i⟩ ⟨j⟩ (rfl : i = j)
    rfl
  have hsub : agenda.queue.map OpId.index ⊆ List.range p.slots.length := by
    intro i hi
    obtain ⟨o, ho, rfl⟩ := mem_map.mp hi
    exact mem_range.mpr (index_lt_of_isSome (h.live o ho))
  have hle := (subperm_of_subset (h.nodup.map hinjective) hsub).length_le
  rwa [length_map, length_range] at hle

def remaining (p : Program) (limit : Nat) (visited : List OpId) : Nat :=
  ∑ i ∈ Finset.range p.slots.length, (limit - visited.count ⟨i⟩)

lemma remaining_cons_le (p : Program) (limit : Nat) (o : OpId) (visited : List OpId) :
    remaining p limit (o :: visited) ≤ remaining p limit visited :=
  Finset.sum_le_sum fun _ _ ↦ Nat.sub_le_sub_left count_le_count_cons limit

lemma remaining_cons_lt {limit : Nat} (ho : o.index < p.slots.length)
    (hlimit : (o :: visited).count o ≤ limit) :
    remaining p limit (o :: visited) < remaining p limit visited := by
  refine Finset.sum_lt_sum (fun _ _ ↦ Nat.sub_le_sub_left count_le_count_cons limit)
    ⟨o.index, Finset.mem_range.mpr ho, ?_⟩
  rw [count_cons_self] at hlimit ⊢
  show limit - (visited.count o + 1) < limit - visited.count o
  omega

def work (p : Program) (limit : Nat) (agenda : Agenda) : Nat :=
  agenda.queue.length + p.slots.length * remaining p limit agenda.visited

lemma isSome_of_mem_affected (hp : p.Consistent) {values : List ValueId}
    (ho : o ∈ affected p values) : (p.op? o).isSome := by
  obtain ⟨v, -, ho⟩ := mem_flatMap.mp ho
  obtain ⟨user, -, ho⟩ := mem_filterMap.mp ho
  unfold affectedBy at ho
  split at ho
  case h_1 => cases ho
  case h_2 node hnode =>
    split_ifs at ho
    · exact hp.isSome_of_parentOp? ho
    · cases ho
      rw [hnode]
      rfl

lemma Agenda.Sound.pushAffected (hp : p.Consistent) (h : agenda.Sound p) (values : List ValueId) :
    ((affected p values).foldl Agenda.push agenda).Sound p := by
  refine ⟨nodup_foldl_push h.nodup, fun o ho ↦ ?_⟩
  rcases mem_foldl_push.mp ho with ho | ho
  · exact h.live o ho
  · exact isSome_of_mem_affected hp ho

lemma Agenda.Sound.refined (h : agenda.Sound p) (hq : p.Refined q) : agenda.Sound q :=
  ⟨h.nodup, fun o ho ↦ hq.op? o ▸ h.live o ho⟩

lemma work_refined (h : p.Refined q) (limit : Nat) (agenda : Agenda) :
    work q limit agenda = work p limit agenda := by
  unfold work remaining
  rw [h.slots]

/-! ### Steps -/

section Step

variable {registry : Registry} {settings : Settings} {queue : List OpId}

lemma propagate_nil (steps : Nat) : (propagate registry settings (steps + 1) ⟨[], visited⟩).exec p =
    (.ok (⟨[], visited⟩, false), p) := rfl

lemma propagate_skip (ho : (p.op? o).isSome)
    (hlimit : settings.maxIterations < (o :: visited).count o) (steps : Nat) :
    (propagate registry settings (steps + 1) ⟨o :: queue, visited⟩).exec p =
    (propagate registry settings steps ⟨queue, o :: visited⟩).exec p := by
  rw [propagate]
  dsimp only
  rw [exec_get_bind, if_neg (by simp [isLive, ho]), if_pos hlimit]

lemma propagate_look (ho : (p.op? o).isSome)
    (hlimit : (o :: visited).count o ≤ settings.maxIterations) (steps : Nat) :
    (propagate registry settings (steps + 1) ⟨o :: queue, visited⟩).exec p = (do
      let (agenda, changed) ← lookAt registry settings.graphVersion o ⟨queue, o :: visited⟩
      let (agenda, later) ← propagate registry settings steps agenda
      return (agenda, changed || later)).exec p := by
  rw [propagate]
  dsimp only
  rw [exec_get_bind, if_neg (by simp [isLive, ho]), if_neg (Nat.not_lt.mpr hlimit)]

end Step

/-! ### Runs -/

/-- How a run ends: with an empty queue, or at a reshape to too many dimensions. Either way all that
has happened is that types were refined. -/
inductive Ends (registry : Registry) (version : Nat) (p : Program) :
    Except Error (Agenda × Bool) × Program → Prop where
  | finished {agenda : Agenda} {changed : Bool} {q : Program} (hrefined : p.Refined q)
      (hqueue : agenda.queue = []) : Ends registry version p (.ok (agenda, changed), q)
  | overlong {rank : UInt64} {q : Program} {o : OpId} {node : Operation} (hrefined : p.Refined q)
      (ho : q.op? o = some node) (hrule : registry.shapeRule? node.kind = some ShapeRule.reshape)
      (hlong : ShapeRule.Overlong ⟨q, node, version⟩ rank) :
      Ends registry version p (.error (.aborted (.rankTooLarge rank)), q)

lemma Ends.of_refined {registry : Registry} {version : Nat} {m : Program} (h : p.Refined m)
    (hends : Ends registry version m outcome) : Ends registry version p outcome := by
  cases hends with
  | finished hrefined hqueue => exact .finished (h.trans hrefined) hqueue
  | overlong hrefined ho hrule hlong => exact .overlong (h.trans hrefined) ho hrule hlong

section Run

variable {registry : Registry} (hrules : registry.OnlyBuiltIn) {settings : Settings}

include hrules

lemma ends_propagate {steps : Nat} (hp : p.Consistent) (hagenda : agenda.Sound p)
    (hsteps : work p settings.maxIterations agenda < steps) :
    Ends registry settings.graphVersion p ((propagate registry settings steps agenda).exec p) := by
  induction steps generalizing p agenda with
  | zero => exact absurd hsteps (Nat.not_lt_zero _)
  | succ steps ih =>
    obtain ⟨queue, visited⟩ := agenda
    cases queue with
    | nil => exact .finished (.refl p) rfl
    | cons o queue =>
      have hlive := hagenda.live o mem_cons_self
      obtain ⟨node, ho⟩ := isSome_iff_exists.mp hlive
      have hrest := hagenda.tail (o :: visited)
      simp only [work, length_cons] at hsteps
      rcases Nat.lt_or_ge settings.maxIterations ((o :: visited).count o) with hlimit | hlimit
      · rw [propagate_skip hlive hlimit]
        refine ih hp hrest ?_
        have hle := Nat.mul_le_mul_left p.slots.length
          (remaining_cons_le p settings.maxIterations o visited)
        simp only [work]
        omega
      · rw [propagate_look hlive hlimit, exec_bind, lookAt_exec hp ho]
        cases htypes : resultTypes registry settings.graphVersion
          (p.tell (argSlots p node)) node with
        | error err =>
          have hrefined := Refined.tell p (argSlots p node)
          have ho' : (p.tell (argSlots p node)).op? o = some node := (hrefined.op? o).trans ho
          obtain ⟨hrule, rank, rfl, hlong⟩ :=
            resultTypes_eq_error hrules (hrefined.consistent hp) ho' htypes
          exact .overlong hrefined ho' hrule hlong
        | ok types =>
          have hrefined := Refined.tell p (lookSlots p node types)
          have hnext :=
            (hrest.pushAffected hp (learners p (lookSlots p node types))).refined hrefined
          have hbound := hnext.length_le
          have hless := remaining_cons_lt (index_lt_of_isSome hlive) hlimit
          have hmul := Nat.mul_le_mul_left p.slots.length (Nat.succ_le_of_lt hless)
          rw [Nat.mul_succ] at hmul
          have hends := Ends.of_refined hrefined (ih (hrefined.consistent hp) hnext (by
            rw [hrefined.slots] at hbound
            rw [work_refined hrefined]
            simp only [work, visited_foldl_push]
            omega))
          dsimp only
          rw [exec_bind]
          revert hends
          rcases (propagate registry settings steps _).exec _ with ⟨_ | ⟨agenda, changed⟩, q⟩
          · exact id
          · rintro (⟨hrefined, hqueue⟩)
            exact .finished hrefined hqueue

lemma ends_explore (hp : p.Consistent) :
    Ends registry settings.graphVersion p ((explore settings registry).exec p) := by
  unfold explore
  rw [exec_get_bind]
  refine ends_propagate hrules hp (sound_start hp) ?_
  have hall : remaining p settings.maxIterations [] = p.slots.length * settings.maxIterations := by
    simp [remaining]
  simp only [work, visited_foldl_push, hall]
  rw [Nat.mul_comm p.slots.length (p.slots.length * _)]
  omega

end Run

/-- A run on a reachable program refines types and changes nothing else. It empties the queue and
succeeds, unless it comes to a reshape whose target is unknown and has more entries than a shape can
have dimensions. -/
theorem refined_of_run {p : Program} (hp : Reachable p)
    {registry : Registry} (hrules : registry.OnlyBuiltIn) (settings : Settings) : ∃ q, p.Refined q ∧
      ((∃ agenda changed, (explore settings registry).exec p = (.ok (agenda, changed), q) ∧
        agenda.queue = [] ∧ (run settings registry).exec p = (.ok changed, q)) ∨
      ∃ rank o node, (run settings registry).exec p = (.error (.aborted (.rankTooLarge rank)), q) ∧
        q.op? o = some node ∧ registry.shapeRule? node.kind = some ShapeRule.reshape ∧
        ShapeRule.Overlong ⟨q, node, settings.graphVersion⟩ rank) := by
  have hends : Ends registry settings.graphVersion p ((explore settings registry).exec p) :=
    ends_explore hrules hp.consistent
  unfold run
  rcases hexplore : (explore settings registry).exec p with ⟨answer, q⟩
  rw [hexplore] at hends
  cases hends with
  | @finished agenda changed _ hrefined hqueue =>
    exact ⟨q, hrefined, .inl ⟨agenda, changed, rfl, hqueue, exec_bind_of_ok hexplore _⟩⟩
  | @overlong rank _ o node hrefined ho hrule hlong =>
    exact ⟨q, hrefined, .inr ⟨rank, o, node, exec_bind_of_error hexplore _, ho, hrule, hlong⟩⟩

lemma onlyBuiltIn_standard : Registry.standard.OnlyBuiltIn := by
  have hall : ∀ entry ∈ Registry.standardKinds, ∀ rule, entry.2.shapeRule = some rule →
      rule.BuiltIn := by
    intro entry hentry rule hrule
    simp only [Registry.standardKinds, mem_append, List.mem_map] at hentry
    rcases hentry with (((⟨kind, -, rfl⟩ | ⟨kind, -, rfl⟩) | hentry) | ⟨kind, -, rfl⟩) |
      ⟨kind, -, rfl⟩
    · exact some.inj hrule ▸ .unary
    · exact some.inj hrule ▸ .binary
    · simp only [mem_cons, not_mem_nil, or_false] at hentry
      rcases hentry with rfl | rfl | rfl | rfl | rfl | rfl | rfl | rfl | rfl | rfl | rfl | rfl
      · exact some.inj hrule ▸ .const
      · exact some.inj hrule ▸ .cast
      · exact some.inj hrule ▸ .shapeOf
      · exact some.inj hrule ▸ .reshape
      · exact some.inj hrule ▸ .matmul
      · exact some.inj hrule ▸ .matmul
      · cases hrule
      · cases hrule
      · exact some.inj hrule ▸ .placeholder
      · cases hrule
      · cases hrule
      · cases hrule
    · cases hrule
    · cases hrule
  intro kind rule hrule
  obtain ⟨descriptor, hkind, hrule⟩ := bind_eq_some_iff.mp hrule
  exact hall _ (NameMap.mem_of_get?_ofList hkind) rule hrule

/-- A chain of a declared shape, a negation and a reshape to one open dimension. -/
def reshapedInput : Program :=
  .built [
    .append ⟨0⟩
      { kind := "Placeholder", resultTypes := [.unknown],
        attrs := .ofList [("shape", .shape (.fixed [2, 3]))] },
    .node 0 "Neg" [0] 1,
    .append ⟨0⟩
      { kind := "Const", resultTypes := [.unknown],
        attrs := .ofList [("value", .tensor (.vector (.i64 [-1])))] },
    .node 0 "Reshape" [1, 2] 1]

/-- Types reach the end of the chain. -/
theorem refined_reshapedInput : Reachable reshapedInput ∧ Registry.standard.OnlyBuiltIn ∧
    ∃ q, (run {} .standard).exec reshapedInput = (.ok true, q) ∧ reshapedInput.Refined q ∧
      q.typeOf? ⟨3⟩ = some (.ofShape (.fixed [6])) := by
  have hp : Reachable reshapedInput := reachable_built _
  have hok : ((run {} .standard).exec reshapedInput).1.toOption = some true := by decide +kernel
  have htype :
      (((run {} .standard).exec reshapedInput).2.typeOf? ⟨3⟩) = some (.ofShape (.fixed [6])) := by
    decide +kernel
  obtain ⟨q, hrefined, hrun⟩ := refined_of_run hp onlyBuiltIn_standard {}
  obtain rfl : ((run {} .standard).exec reshapedInput).2 = q := by
    rcases hrun with ⟨_, _, _, _, hrun⟩ | ⟨_, _, _, hrun, _⟩ <;> rw [hrun]
  exact ⟨hp, onlyBuiltIn_standard, _, exec_eq_ok hok, hrefined, htype⟩

/-- A reshape to an unknown target with more entries than a shape can have dimensions ends the run
without an answer. -/
theorem aborted_at_overlong_target :
    let p : Program := .built [
      .append ⟨0⟩ { kind := "source", resultTypes :=
        [⟨some .f32, .unranked⟩, .fixed .i64 [4611686018427387904]] },
      .append ⟨0⟩ { kind := "Reshape", operands := [⟨0⟩, ⟨1⟩], resultTypes :=
        [⟨some .f32, .unranked⟩] }]
    Reachable p ∧
      ((run {} .standard).exec p).1 = .error (.aborted (.rankTooLarge 4611686018427387904)) :=
  ⟨reachable_built _, rfl⟩

end TensorGraph.TypePropagation
