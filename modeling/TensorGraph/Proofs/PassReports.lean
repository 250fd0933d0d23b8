import TensorGraph.Pass.Catalog
import TensorGraph.Proofs.AnnotationChanges
import TensorGraph.Proofs.StructureChanges

/-!
What a pass reports is true.
-/

namespace TensorGraph

open Program Edit List

variable {pass made : Pass} {options : Options}

namespace Catalog

/-- The passes the catalog can make, each with all its settings. -/
inductive BuiltIn : Pass → Prop where
  | sort : BuiltIn TopologicalOrder.pass
  | mergeConstants (settings : ConstantMerging.Settings) : BuiltIn (ConstantMerging.pass settings)
  | dropShapes (skipped : List String) : BuiltIn (OutputShapes.pass skipped)
  | makeFunction (settings : GraphFunction.Settings) : BuiltIn (GraphFunction.pass settings)
  | inlineBranches : BuiltIn RegionForm.pass
  | sinkIntoBranches : BuiltIn BranchSinking.pass
  | fuse (settings : Fusion.Settings) : BuiltIn (Fusion.pass settings)
  | consolidateAttributes : BuiltIn TypeAttributes.consolidatePass
  | exportAttributes : BuiltIn TypeAttributes.exportPass
  | dropLoopSlots : BuiltIn LoopSlots.pass
  | inferShapes (settings : TypePropagation.Settings) : BuiltIn (TypePropagation.pass settings)
  | shard : BuiltIn Sharding.pass

lemma eq_of_plain (hmade : plain pass options = .ok made) : made = pass := by
  unfold plain at hmade
  cases hoptions : options.expectOnly pass.name [] with
  | error err =>
    rw [hoptions] at hmade
    cases hmade
  | ok =>
    rw [hoptions] at hmade
    exact (Except.ok.inj hmade).symm

lemma exists_of_map {α : Type} {settings : Except Error α} {make : α → Pass}
    (hmade : settings.map make = .ok made) : ∃ found, made = make found := by
  cases settings with
  | error err => cases hmade
  | ok found => exact ⟨found, (Except.ok.inj hmade).symm⟩

lemma builtIn_of_make {name : String} (hmade : make name options = .ok pass) : BuiltIn pass := by
  unfold make at hmade
  split at hmade
  · next maker hmaker =>
    obtain ⟨front, back, hsplit, -⟩ := lookup_eq_some_iff.mp hmaker
    have hmem : (name, maker) ∈ makers := by simp [hsplit]
    simp only [makers, mem_cons, Prod.mk.injEq, not_mem_nil, or_false] at hmem
    rcases hmem with ⟨-, rfl⟩ | ⟨-, rfl⟩ | ⟨-, rfl⟩ | ⟨-, rfl⟩ | ⟨-, rfl⟩ | ⟨-, rfl⟩ | ⟨-, rfl⟩ |
      ⟨-, rfl⟩ | ⟨-, rfl⟩ | ⟨-, rfl⟩ | ⟨-, rfl⟩ | ⟨-, rfl⟩
    · exact eq_of_plain hmade ▸ .sort
    · obtain ⟨settings, rfl⟩ := exists_of_map hmade
      exact .mergeConstants settings
    · obtain ⟨skipped, rfl⟩ := exists_of_map hmade
      exact .dropShapes skipped
    · obtain ⟨settings, rfl⟩ := exists_of_map hmade
      exact .makeFunction settings
    · exact eq_of_plain hmade ▸ .inlineBranches
    · exact eq_of_plain hmade ▸ .sinkIntoBranches
    · obtain ⟨settings, rfl⟩ := exists_of_map hmade
      exact .fuse settings
    · exact eq_of_plain hmade ▸ .consolidateAttributes
    · exact eq_of_plain hmade ▸ .exportAttributes
    · exact eq_of_plain hmade ▸ .dropLoopSlots
    · obtain ⟨settings, rfl⟩ := exists_of_map hmade
      exact .inferShapes settings
    · exact eq_of_plain hmade ▸ .shard
  · cases hmade

lemma BuiltIn.reports (hpass : BuiltIn pass) {p q : Program} (hp : Reachable p) {changed : Bool}
    (hok : (pass.run .standard).exec p = (.ok changed, q)) : Reports Differs p changed q := by
  have hnodup := nodup_allOps hp.consistent hp.nodup_roots
  cases hpass with
  | sort => exact TopologicalOrder.reports_run hp.consistent hok
  | mergeConstants settings => exact ConstantMerging.reports_run hp hok
  | dropShapes skipped => exact OutputShapes.reports_run hnodup hok
  | makeFunction settings => exact GraphFunction.reports_run hp.consistent hok
  | inlineBranches => exact RegionForm.reports_sweep hp.consistent hp.nodup_roots hok
  | sinkIntoBranches => exact BranchSinking.reports_run hp.consistent hok
  | fuse settings => exact Fusion.reports_run hp.consistent hok
  | consolidateAttributes => exact TypeAttributes.reports_consolidate hnodup hok
  | exportAttributes =>
    exact TypeAttributes.reports_exportAttributes TypeAttributes.apart_standard
      hp.consistent hnodup hok
  | dropLoopSlots => exact LoopSlots.reports_run hp hok
  | inferShapes settings => exact TypePropagation.reports_run hok
  | shard => exact Sharding.reports_solve hok

/-- A pass of the catalog that succeeds reports no change exactly if nothing in the program has
changed. -/
theorem changed_eq_false_iff {name : String} {options : Options} {pass : Pass}
    (hpass : make name options = .ok pass) {p q : Program} (hp : Reachable p) {changed : Bool}
    (hok : (pass.run .standard).exec p = (.ok changed, q)) :
    (changed = false ↔ q = p) ∧ (changed = false ↔ SameContents p q) :=
  ((builtIn_of_make hpass).reports hp hok).eq_false_iff

/-- A negation moves into the branch that uses it, and the change is reported. -/
theorem sinking_reported :
    let p : Program := .built [
      .node 0 "Placeholder" [] 1, .node 0 "Neg" [0] 1, .node 0 "IfRegion" [0], .addRegion ⟨2⟩ .once,
      .node 1 "Neg" [1] 1, .node 1 yieldKind]
    let q := ((BranchSinking.pass.run .standard).exec p).2
    Reachable p ∧ make "control-flow-sink" .empty = .ok BranchSinking.pass ∧
      (BranchSinking.pass.run .standard).exec p = (.ok true, q) ∧ q ≠ p ∧ ¬ SameContents p q := by
  intro p q
  have hp : Reachable p := reachable_built _
  have hpass : make "control-flow-sink" .empty = .ok BranchSinking.pass := rfl
  have hok : (BranchSinking.pass.run .standard).exec p = (.ok true, q) :=
    exec_eq_ok (by decide +kernel)
  obtain ⟨hsame, hcontents⟩ := changed_eq_false_iff hpass hp hok
  exact ⟨hp, hpass, hok, mt hsame.mpr Bool.noConfusion, mt hcontents.mpr Bool.noConfusion⟩

end Catalog

end TensorGraph
