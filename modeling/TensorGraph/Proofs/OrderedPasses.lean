import TensorGraph.Proofs.BranchSinking
import TensorGraph.Proofs.ConstantMerging
import TensorGraph.Proofs.Fusion
import TensorGraph.Proofs.LoopSlots

/-!
Rewrites keep programs in order. Each of the passes that rewrite a program is made of commands, so
it leads to reachable programs, and if it succeeds on an ordered program, the program it leaves is
ordered.
-/

namespace TensorGraph

open Program Edit List

/-- The passes that rewrite operations and values. -/
inductive RewritePass : Pass → Prop where
  | mergeConstants (settings : ConstantMerging.Settings) :
    RewritePass (ConstantMerging.pass settings)
  | sinkIntoBranches : RewritePass BranchSinking.pass
  | fuse (settings : Fusion.Settings) : RewritePass (Fusion.pass settings)
  | dropLoopSlots : RewritePass LoopSlots.pass

namespace RewritePass

section Run

variable {pass : Pass} (h : RewritePass pass) (registry : Registry)

include h

lemma wellOrdered {p q : Program} (hp : WellOrdered p) {changed : Bool}
    (hok : (pass.run registry).exec p = (.ok changed, q)) : WellOrdered q := by
  cases h with
  | mergeConstants settings => exact ConstantMerging.wellOrdered_run hp hok
  | sinkIntoBranches => exact BranchSinking.wellOrdered_run hp hok
  | fuse settings => exact Fusion.wellOrdered_run hp hok
  | dropLoopSlots => exact LoopSlots.wellOrdered_run hp hok

lemma keeps_reachable : Keeps Reachable (pass.run registry) := by
  cases h with
  | mergeConstants settings => exact ConstantMerging.keeps_reachable_run settings registry
  | sinkIntoBranches => exact BranchSinking.keeps_reachable_run registry
  | fuse settings => exact Fusion.keeps_reachable_run settings _
  | dropLoopSlots => exact LoopSlots.keeps_reachable_run

/-- A rewrite that succeeds on an ordered program leaves an ordered program. -/
theorem ordered_of_run_ok {p q : Program} (hp : Reachable p) (hordered : Ordered p) {changed : Bool}
    (hok : (pass.run registry).exec p = (.ok changed, q)) : Reachable q ∧ Ordered q := by
  have hreachable : Reachable q := by
    have hkept := h.keeps_reachable registry p hp
    rw [hok] at hkept
    exact hkept
  have hq := h.wellOrdered registry (hordered.wellOrdered hp.consistent) hok
  exact ⟨hreachable, hq.scoping, verify_of_terminated hq.consistent hq.scoping hq.terminated⟩

end Run

/-- A program with an operation whose only use is in a branch. -/
def branchUse : Program :=
  .built [
    .node 0 "source" [] 1, .node 0 "negate" [0] 1, .node 0 "choose" [] 0 [0], .addRegion ⟨2⟩ .once,
    .node 1 "consume" [1], .node 1 yieldKind]

/-- The operation moves into the branch. -/
theorem ordered_after_sinking :
    let registry : Registry := NameMap.empty.insert "negate" { stateless := true }
    let q := ((BranchSinking.pass.run registry).exec branchUse).2
    Reachable branchUse ∧ Ordered branchUse ∧ (BranchSinking.pass.run registry).exec branchUse =
      (.ok true, q) ∧ q.opsIn ⟨1⟩ = [⟨1⟩, ⟨3⟩, ⟨4⟩] ∧ Reachable q ∧ Ordered q := by
  intro registry q
  have hp : Reachable branchUse := reachable_built _
  have hordered : Ordered branchUse := ordered_of_isScoped hp.consistent (by decide +kernel) rfl
  have hanswer : ((BranchSinking.pass.run registry).exec branchUse).1 = .ok true := by rfl
  have hok : (BranchSinking.pass.run registry).exec branchUse = (.ok true, q) :=
    Prod.ext hanswer rfl
  exact ⟨hp, hordered, hok, rfl, sinkIntoBranches.ordered_of_run_ok registry hp hordered hok⟩

end RewritePass

end TensorGraph
