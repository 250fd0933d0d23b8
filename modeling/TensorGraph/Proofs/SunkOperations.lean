import TensorGraph.Proofs.Relocation
import TensorGraph.Proofs.SinkingRounds

/-!
What sinking comes to. Operations that have moved are plain and stand further down, and those that
have not are in their old order, so the program runs as it did.
-/

namespace TensorGraph

open Program Edit

namespace BranchSinking

variable {p q : Program} {registry : Registry}

lemma Sinks.relocates (h : Sinks registry p q) : Relocates (fun o ↦ stays p q o = false) p q := by
  refine ⟨h.same, fun o ho node hnode ↦ ?_, fun r ↦ .of_filter_eq (h.order r).symm⟩
  obtain ⟨⟨node', hnode', -, hform, hend, -, -⟩, -⟩ := h.sunk o ho
  cases hnode.symm.trans hnode'
  exact ⟨hform, hend⟩

/-- The pass succeeds on an ordered program whose nesting has no cycles, makes none, and leaves
nothing that could move. It changes places only, and leaves the operations that keep their region in
their order. What it moves is stateless and plain, has no part in control dependencies, and goes
down through regions that run at most once. Whatever plain operations compute, and whatever other
operations make of their regions and functions, every root runs as before, and so does every region
inside: it fails if it failed, and else has the same outputs and the same values for all that has
not moved. -/
theorem runs_alike_after_sinking (registry : Registry) {p : Program} (hp : Reachable p)
    (hforest : p.Forested) (hordered : Ordered p) :
    ∃ changed q, (pass.run registry).exec p = (.ok changed, q) ∧ q.Forested ∧
      (round registry).exec q = (.ok false, q) ∧ q.unplaced = p.unplaced ∧
      (∀ r, (q.opsIn r).filter (stays p q) = (p.opsIn r).filter (stays p q)) ∧
      (∀ o, stays p q o = false → Sunk registry p q o) ∧
      ∀ (α : Type) (S : Semantics α) (depth : Nat), ∀ root ∈ p.roots, ∀ args path,
      Option.Rel (fun ended ended' ↦ ended.2 = ended'.2 ∧
          ∀ o, stays p q o = true → ∀ v ∈ p.resultsOf o, ended.1 v = ended'.1 v)
        (S.runAlong p depth root .empty args path) (S.runAlong q depth root .empty args path) := by
  have h := hordered.wellOrdered hp.consistent
  obtain ⟨n, q, hrounds, -, hok⟩ := run_exec registry hp.consistent
  have hreport := reports_descends hp.consistent hok
  have hq := wellOrdered_of_reports hreport h
  have hsinks := (sinks_of_reports hreport hp.consistent).2
  refine ⟨_, q, hok, forested_run hp.consistent hforest hok, hrounds.last hp.consistent,
    hsinks.same, hsinks.order, hsinks.sunk, fun α S depth root hroot args path ↦ ?_⟩
  have hroots : ClosedRoots p := fun r hr ↦ h.scoping.closed_root h.consistent hr
  have hroots' : ClosedRoots q := fun r hr ↦ hq.scoping.closed_root hq.consistent hr
  have henter := hsinks.relocates.entering_root hroots hroots' (S := S) hroot
  refine rel_mono (hsinks.relocates.runAlong h.consistent hroots hroots' path henter args)
    fun ended ended' hsame ↦ ?_
  refine ⟨hsame.1, fun o ho v hv ↦ hsame.2 v fun x hx hmem ↦ ?_⟩
  obtain rfl := h.consistent.eq_of_mem_resultsOf hv hmem
  cases ho.symm.trans hx

/-- Integers, with a choice of the first branch. -/
def arithmetic : Semantics Int where
  plain _ kind _ inputs _ :=
    if kind = "source" then 3
    else if kind = "negate" then -inputs.headD 0
    else 2 * inputs.headD 0
  regions _ _ _ branches _ := (branches.headD fun _ ↦ none) []
  functions _ _ _ _ _ := none

/-- Both operations go down two levels, and the graph gives what it gave. -/
theorem runs_alike_nestedUse :
    let registry : Registry :=
      (NameMap.empty.insert "negate" { stateless := true }).insert "double" { stateless := true }
    let q := ((pass.run registry).exec nestedUse).2
    Reachable nestedUse ∧ nestedUse.Forested ∧ Ordered nestedUse ∧
      (pass.run registry).exec nestedUse = (.ok true, q) ∧ q.opsIn ⟨3⟩ = [⟨1⟩, ⟨2⟩, ⟨5⟩] ∧
      Sunk registry nestedUse q ⟨1⟩ ∧
      (arithmetic.runAlong q 4 ⟨0⟩ .empty [] []).map (·.2) = some [-6] := by
  intro registry q
  have hp : Reachable nestedUse := reachable_built _
  have hordered : Ordered nestedUse := ordered_of_isScoped hp.consistent (by decide +kernel)
    (by decide +kernel)
  have hok : (pass.run registry).exec nestedUse = (.ok true, q) := exec_eq_ok (by decide +kernel)
  have hroot : ⟨0⟩ ∈ nestedUse.roots := by decide +kernel
  have hbefore :
      (arithmetic.runAlong nestedUse 4 ⟨0⟩ .empty [] []).map (·.2) = some [-6] := by decide +kernel
  have hmoved : stays nestedUse q ⟨1⟩ = false := by decide +kernel
  have hforest : nestedUse.Forested := (AcyclicallyBuilt.of_still rfl).forested
  obtain ⟨changed, q', hok', -, -, -, -, hsunk, hsame⟩ :=
    runs_alike_after_sinking registry hp hforest hordered
  obtain rfl : q = q' := (Prod.mk.inj (hok.symm.trans hok')).2
  have hrel := hsame Int arithmetic 4 ⟨0⟩ hroot [] []
  refine ⟨hp, hforest, hordered, hok, by decide +kernel, hsunk ⟨1⟩ hmoved, ?_⟩
  generalize arithmetic.runAlong nestedUse 4 ⟨0⟩ .empty [] [] = ended at hbefore hrel
  generalize arithmetic.runAlong q 4 ⟨0⟩ .empty [] [] = ended' at hrel ⊢
  cases hrel with
  | some hends => exact hbefore ▸ congrArg some hends.1.symm
  | none => cases hbefore

/-- A use of the second operation lies in a region of an operation that has been moved into this
very region. -/
def ownRegion : Program :=
  .built [
    .node 0 "source" [] 1, .node 0 "negate" [0] 1, .node 0 "choose" [0], .addRegion ⟨2⟩ .once,
    .node 1 yieldKind [0], .node 0 "holder", .addRegion ⟨4⟩ .once, .node 2 "use" [1],
    .move ⟨4⟩ ⟨2⟩ 0]

/-- The program is in order, since the use is not attached. The pass asks which operation of the
graph holds this use, the first of a movable operation, and that climb does not end, however many
steps it is given. -/
theorem endless_climb_ownRegion :
    let registry : Registry := NameMap.empty.insert "negate" { stateless := true }
    Reachable ownRegion ∧ Ordered ownRegion ∧ ¬ ownRegion.Forested ∧
      ⟨1⟩ ∈ ownRegion.opsIn ⟨0⟩ ∧ isMovable ownRegion registry ⟨1⟩ = true ∧
      ((ownRegion.opsIn ⟨0⟩).filter fun o ↦ !(ownRegion.regionsOf o).isEmpty) = [⟨2⟩] ∧
      usersOf ownRegion ⟨1⟩ = [⟨5⟩] ∧ ∀ steps, ownRegion.ancestorWithin ⟨0⟩ steps ⟨5⟩ = none := by
  intro registry
  have hp : Reachable ownRegion := reachable_built _
  have hordered : Ordered ownRegion := ordered_of_isScoped hp.consistent (by decide +kernel)
    (by decide +kernel)
  have hparent : ownRegion.parentOf? ⟨4⟩ = some ⟨2⟩ := by decide +kernel
  have howner : ownRegion.parentOp? ⟨2⟩ = some ⟨4⟩ := by decide +kernel
  refine ⟨hp, hordered, fun hforest ↦ ?_, by decide +kernel, by decide +kernel, by decide +kernel,
    by decide +kernel, fun steps ↦ ?_⟩
  · obtain ⟨top, n, hbelow⟩ := hforest.grounded ⟨2⟩
    exact AncestorIn.not_of_below hbelow howner (.here hparent)
  · have hcircle : ∀ o, ownRegion.parentOf? o = some ⟨2⟩ →
        ∀ steps, ownRegion.ancestorWithin ⟨0⟩ steps o = none := by
      intro o ho steps
      induction steps generalizing o with
      | zero => rfl
      | succ steps ih =>
        obtain ⟨node, hnode, hhome⟩ := exists_op_of_parentOf? ho
        rw [ancestorWithin, hnode]
        dsimp only
        rw [if_neg (by rw [hhome]; decide), hhome, howner]
        exact ih ⟨4⟩ hparent
    exact hcircle ⟨5⟩ (by decide +kernel) steps

end BranchSinking

end TensorGraph
