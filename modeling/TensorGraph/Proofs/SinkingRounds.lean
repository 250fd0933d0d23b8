import Mathlib.Algebra.Order.BigOperators.Group.Finset
import TensorGraph.Proofs.BranchSinking

/-!
The end of sinking. A round that moves something puts an operation into a region further down and
leaves the tree of regions as it is, and regions do not lie deeper than there are regions.
-/

namespace TensorGraph.BranchSinking

open Program Edit List Option

variable {p m q : Program} {o : OpId} {r branch : RegionId} {n : Nat} {registry : Registry}

/-! ### Levels -/

open Classical in
/-- How far down an operation lies; zero if it is not attached. -/
noncomputable def levelOf (p : Program) (o : OpId) : Nat :=
  if h : ∃ n r, p.parentOf? o = some r ∧ AttachedAt p n r then h.choose else 0

/-- The levels of all operations together. -/
noncomputable def sunkBy (p : Program) : Nat :=
  ∑ i ∈ Finset.range p.slots.length, levelOf p ⟨i⟩

section Consistent

variable (hp : p.Consistent)

include hp

lemma levelOf_eq (ho : p.parentOf? o = some r) (hr : AttachedAt p n r) : levelOf p o = n := by
  have hexists : ∃ n r, p.parentOf? o = some r ∧ AttachedAt p n r := ⟨n, r, ho, hr⟩
  rw [levelOf, dif_pos hexists]
  obtain ⟨r', ho', hr'⟩ := hexists.choose_spec
  obtain rfl := some.inj (ho.symm.trans ho')
  exact hr'.unique hp hr

lemma levelOf_le (o : OpId) : levelOf p o ≤ p.regions.length := by
  by_cases hexists : ∃ n r, p.parentOf? o = some r ∧ AttachedAt p n r
  · obtain ⟨n, r, ho, hr⟩ := hexists
    rw [levelOf_eq hp ho hr]
    exact (hr.lt_length hp).le
  · rw [levelOf, dif_neg hexists]
    exact Nat.zero_le _

lemma sunkBy_le : sunkBy p ≤ p.slots.length * p.regions.length := by
  have hsum := Finset.sum_le_card_nsmul (Finset.range p.slots.length)
    (fun i ↦ levelOf p ⟨i⟩) p.regions.length fun i _ ↦ levelOf_le hp ⟨i⟩
  rwa [Finset.card_range, Nat.nsmul_eq_mul] at hsum

lemma levelOf_of_sunk (hq : q.Consistent) (h : Sinks registry p q) (ho : stays p q o = false) :
    levelOf p o < levelOf q o := by
  obtain ⟨-, home, target, hhome, htarget, ⟨n, hat⟩, hdown⟩ := h.sunk o ho
  obtain ⟨n', hlt, hat'⟩ := hat.lt_of_entersOnce hdown
  rw [levelOf_eq hp hhome hat, levelOf_eq hq htarget ((h.attachedAt_iff hp hq).mpr hat')]
  exact hlt

lemma levelOf_le_of_sinks (hq : q.Consistent) (h : Sinks registry p q) (o : OpId) :
    levelOf p o ≤ levelOf q o := by
  cases hstays : stays p q o with
  | false => exact (levelOf_of_sunk hp hq h hstays).le
  | true =>
    rw [stays_eq_true] at hstays
    by_cases hexists : ∃ n r, p.parentOf? o = some r ∧ AttachedAt p n r
    · obtain ⟨n, r, ho, hr⟩ := hexists
      rw [levelOf_eq hp ho hr, levelOf_eq hq (hstays.trans ho) ((h.attachedAt_iff hp hq).mpr hr)]
    · rw [levelOf, dif_neg hexists]
      exact Nat.zero_le _

lemma sunkBy_lt (h : Descends registry p q) : sunkBy p < sunkBy q := by
  obtain ⟨hq, hsinks, o, ho⟩ := h.sinks hp
  obtain ⟨-, home, -, hhome, -⟩ := hsinks.sunk o ho
  have hindex := index_lt_of_isSome (isSome_of_parentOf? hhome)
  rw [sunkBy, sunkBy, hsinks.same.length_slots]
  exact Finset.sum_lt_sum (fun i _ ↦ levelOf_le_of_sinks hp hq hsinks ⟨i⟩)
    ⟨o.index, Finset.mem_range.mpr hindex, levelOf_of_sunk hp hq hsinks ho⟩

end Consistent

/-! ### Rounds without a bound -/

/-- The loop that makes rounds as long as they move something, with the number of those that do. -/
inductive Rounds (registry : Registry) : Nat → Program → Program → Prop where
  | stop {p q : Program} (hround : (round registry).exec p = (.ok false, q)) : Rounds registry 0 p q
  | again {n : Nat} {p m q : Program} (hround : (round registry).exec p = (.ok true, m))
      (hrest : Rounds registry n m q) : Rounds registry (n + 1) p q

/-- Rounds come to an end, since each one but the last takes an operation further down. -/
theorem exists_rounds (registry : Registry) (hp : p.Consistent) :
    ∃ n q, Rounds registry n p q ∧ sunkBy p + n ≤ p.slots.length * p.regions.length := by
  -- By induction on what is left to the bound.
  induction hleft :
    p.slots.length * p.regions.length - sunkBy p using Nat.strong_induction_on generalizing p with
  | _ left ih =>
    subst hleft
    have hle := sunkBy_le hp
    obtain ⟨moved, m, hround, hreport⟩ := succeeds_round registry hp
    cases moved with
    | false => exact ⟨0, m, .stop hround, hle⟩
    | true =>
      obtain ⟨hm, hsinks, -⟩ := Descends.sinks hreport hp
      have hlt := sunkBy_lt hp hreport
      have hle' := sunkBy_le hm
      rw [hsinks.same.length_slots, hsinks.same.length_regions] at hle'
      obtain ⟨n, q, hrest, hbound⟩ :=
        ih _ (by rw [hsinks.same.length_slots, hsinks.same.length_regions]; omega) hm rfl
      rw [hsinks.same.length_slots, hsinks.same.length_regions] at hbound
      exact ⟨n + 1, q, .again hround hrest, by omega⟩

namespace Rounds

lemma exec (h : Rounds registry n p q) {count : Nat} (hcount : n < count) :
    (rounds registry count).exec p = (.ok (n != 0), q) := by
  induction h generalizing count with
  | stop hround =>
    obtain ⟨count, rfl⟩ := Nat.exists_eq_add_of_lt hcount
    exact exec_bind_of_ok hround _
  | @again n p m q hround _ ih =>
    obtain ⟨count, rfl⟩ := Nat.exists_eq_add_of_lt hcount
    have hrest : (rounds registry (n + 1 + count)).exec m = _ := ih (by omega)
    rw [rounds, exec_bind_of_ok hround, if_pos rfl, exec_bind_of_ok hrest]
    rfl

lemma last (h : Rounds registry n p q) (hp : p.Consistent) :
    (round registry).exec q = (.ok false, q) := by
  induction h with
  | @stop p q hround =>
    obtain ⟨_, _, hround', hreport⟩ := succeeds_round registry hp
    obtain ⟨hchanged, rfl⟩ := Prod.mk.inj (hround.symm.trans hround')
    obtain rfl := Except.ok.inj hchanged
    obtain rfl : q = p := hreport
    exact hround
  | @again n p m q hround _ ih =>
    obtain ⟨_, _, hround', hreport⟩ := succeeds_round registry hp
    obtain ⟨-, rfl⟩ := Prod.mk.inj (hround.symm.trans hround')
    exact ih (sinks_of_reports hreport hp).1

end Rounds

lemma run_exec (registry : Registry) (hp : p.Consistent) : ∃ n q, Rounds registry n p q ∧
      n ≤ p.slots.length * p.regions.length ∧ (run registry).exec p = (.ok (n != 0), q) := by
  obtain ⟨n, q, hrounds, hbound⟩ := exists_rounds registry hp
  exact ⟨n, q, hrounds, by omega, hrounds.exec (by omega)⟩

/-- The pass leaves nesting without cycles as it is. -/
theorem forested_run (hp : p.Consistent) (hforest : p.Forested) {changed : Bool}
    (hok : (run registry).exec p = (.ok changed, q)) : q.Forested := by
  obtain ⟨hq, hsinks⟩ := sinks_of_reports (reports_descends hp hok) hp
  exact hsinks.forested hp hq hforest

/-- The operation has gone from an attached region into one nested in it, which lies deeper. -/
def Lowered (p q : Program) (o : OpId) : Prop :=
  ∃ home target n n', p.parentOf? o = some home ∧ q.parentOf? o = some target ∧
    Relation.TransGen p.Encloses home target ∧ AttachedAt p n home ∧ AttachedAt q n' target ∧ n < n'

/-- The tree of regions is the same, no operation lies elsewhere than deeper in it, and one lies
deeper. -/
structure Deepens (p q : Program) : Prop where
  roots : q.roots = p.roots
  owners : ∀ o, q.regionsOf o = p.regionsOf o
  encloses : ∀ outer inner, q.Encloses outer inner ↔ p.Encloses outer inner
  ops : ∀ o, q.parentOf? o = p.parentOf? o ∨ Lowered p q o
  deeper : ∃ o, Lowered p q o

lemma Descends.deepens (h : Descends registry p q) (hp : p.Consistent) : Deepens p q := by
  obtain ⟨hq, hsinks, o, ho⟩ := h.sinks hp
  have hlowered : ∀ x, stays p q x = false → Lowered p q x := by
    intro x hx
    obtain ⟨-, home, target, hhome, htarget, ⟨n, hat⟩, hdown⟩ := hsinks.sunk x hx
    obtain ⟨n', hlt, hat'⟩ := hat.lt_of_entersOnce hdown
    exact ⟨home, target, n, n', hhome, htarget, Relation.TransGen.mono (fun _ _ ↦ And.left)
      _ _ hdown, hat, (hsinks.attachedAt_iff hp hq).mpr hat', hlt⟩
  refine ⟨hsinks.same.roots, hsinks.same.regionsOf, fun _ _ ↦ hsinks.encloses_iff hp hq, fun x ↦
    ?_, o, hlowered o ho⟩
  cases hx : stays p q x with
  | true => exact .inl (stays_eq_true.mp hx)
  | false => exact .inr (hlowered x hx)

/-- In a program whose nesting has no cycles every round succeeds and leaves none, so that no climb
of a round runs on for ever. A round that reports a change puts operations deeper into the same tree
of regions, and one that does not changes nothing. The loop without a bound comes to an end, and the
pass gives what it gives: it reports whether there was a round that moved something. -/
theorem sinking_terminates (registry : Registry) {p : Program} (hp : Reachable p)
    (hforest : p.Forested) :
    (∀ a, Reachable a → a.Forested →
      Succeeds (round registry) a fun changed b ↦ b.Forested ∧ Reports Deepens a changed b) ∧
    ∃ n q, Rounds registry n p q ∧ q.Forested ∧ n ≤ p.slots.length * p.regions.length ∧
      (pass.run registry).exec p = (.ok (n != 0), q) := by
  constructor
  · intro a ha hacyclic
    refine (succeeds_round registry ha.consistent).imp fun _ b hreport ↦ ⟨?_, ?_⟩
    · obtain ⟨hb, hsinks⟩ := sinks_of_reports hreport ha.consistent
      exact hsinks.forested ha.consistent hb hacyclic
    · exact hreport.imp fun hdescends ↦ Descends.deepens hdescends ha.consistent
  · obtain ⟨n, q, hrounds, hbound, hok⟩ := run_exec registry hp.consistent
    exact ⟨n, q, hrounds, forested_run hp.consistent hforest hok, hbound, hok⟩

/-- Two operations, the second of which uses the first, and a use of the second in a branch of a
branch. -/
def nestedUse : Program :=
  .built [
    .node 0 "source" [] 1, .node 0 "negate" [0] 1, .node 0 "double" [1] 1, .node 0 "choose" [0] 1,
    .addRegion ⟨3⟩ .once, .addRegion ⟨3⟩ .once, .node 1 "choose" [0] 1, .addRegion ⟨4⟩ .once,
    .node 3 yieldKind [2], .node 1 yieldKind [4], .node 2 yieldKind [0], .node 0 returnKind [3]]

/-- One round takes both operations down to the use, and the next one finds nothing to do. -/
theorem sinking_terminates_nestedUse :
    let registry : Registry :=
      (NameMap.empty.insert "negate" { stateless := true }).insert "double" { stateless := true }
    Reachable nestedUse ∧ nestedUse.Forested ∧ ∃ n q, Rounds registry n nestedUse q ∧ 0 < n ∧
      q.opsIn ⟨3⟩ = [⟨1⟩, ⟨2⟩, ⟨5⟩] ∧ Deepens nestedUse ((round registry).exec nestedUse).2 := by
  intro registry
  have hp : Reachable nestedUse := reachable_built _
  have hforest : nestedUse.Forested := (AcyclicallyBuilt.of_still rfl).forested
  have hok :
      (pass.run registry).exec nestedUse = (.ok true, ((pass.run registry).exec nestedUse).2) :=
    exec_eq_ok (by decide +kernel)
  obtain ⟨hrounds, n, q, hloop, -, -, hrun⟩ := sinking_terminates registry hp hforest
  obtain ⟨hchanged, rfl⟩ := Prod.mk.inj (hok.symm.trans hrun)
  have hround : (round registry).exec nestedUse = (.ok true, ((round registry).exec nestedUse).2) :=
    exec_eq_ok (by decide +kernel)
  obtain ⟨moved, m, hround', -, hreport⟩ := hrounds nestedUse hp hforest
  obtain ⟨hmoved, rfl⟩ := Prod.mk.inj (hround.symm.trans hround')
  obtain rfl := Except.ok.inj hmoved
  refine ⟨hp, hforest, n, _, hloop, Nat.pos_of_ne_zero fun hzero ↦ ?_, by decide +kernel, hreport⟩
  rw [hzero] at hchanged
  cases hchanged

/-! ### What is left -/

/-- The operation could go into the branch: it is movable and attached, all regions of the operation
in its region that the branch belongs to run at most once, and all uses of all its results lie in
the branch. -/
structure MaySink (registry : Registry) (p : Program) (o : OpId) (branch : RegionId) : Prop where
  movable : Movable registry p o
  place : ∃ r holder, p.Attached r ∧ p.parentOf? o = some r ∧ p.parentOf? holder = some r ∧
    branch ∈ p.regionsOf holder ∧ ∀ x ∈ p.regionsOf holder, (p.region? x).any (·.isOnce) = true
  uses : ∀ v ∈ p.resultsOf o, ∀ x, v ∈ p.operandsOf x → ∃ a, AncestorIn p branch x a

section Found

variable (hp : p.Consistent)

include hp

lemma branchOf_eq {holder x a : OpId} (hr : AttachedAt p n r) (hholder : holder ∈ p.opsIn r)
    (hbranch : branch ∈ p.regionsOf holder) (hanc : AncestorIn p branch x a) :
    branchOf p (p.regionsOf holder) x = some branch := by
  have hat : ∀ b ∈ p.regionsOf holder, AttachedAt p (n + 1) b := fun b hb ↦ .nested hr hholder hb
  obtain ⟨home, hparent, hhome⟩ := hanc.exists_home hp ⟨_, hat branch hbranch⟩
  obtain ⟨node, hnode, rfl⟩ := exists_op_of_parentOf? hparent
  rw [branchOf, hnode, bind_some]
  have hwithin := isWithin_of_ancestorIn hp hanc hparent hhome
  obtain ⟨found, hfound⟩ := isSome_iff_exists.mp (find?_isSome.mpr ⟨branch, hbranch, hwithin⟩)
  obtain ⟨a', hanc'⟩ := exists_ancestorIn_of_isWithin hparent (find?_some hfound)
  rw [hfound, (hat branch hbranch).eq_of_ancestorIn hp
    (hat found (mem_of_find?_eq_some hfound)) hanc hanc']

lemma exists_anchor {holder user : OpId} (hr : p.Attached r) (hholder : holder ∈ p.opsIn r)
    (honce : ∀ b ∈ p.regionsOf holder, (p.region? b).any (·.isOnce) = true)
    (hbranch : branch ∈ p.regionsOf holder)
    (huses : ∀ x ∈ usersOf p o, ∃ a, AncestorIn p branch x a) (huser : user ∈ usersOf p o) :
    ∃ anchor, anchor? p o holder = some anchor := by
  obtain ⟨n, hat⟩ := hr
  have hcommon : commonBranch p (p.regionsOf holder) (usersOf p o) = some branch := by
    have hbranchOf : ∀ x ∈ usersOf p o, branchOf p (p.regionsOf holder) x = some branch := by
      intro x hx
      obtain ⟨a, hanc⟩ := huses x hx
      exact branchOf_eq hp hat hholder hbranch hanc
    cases husers : usersOf p o with
    | nil =>
      rw [husers] at huser
      cases huser
    | cons first rest =>
      rw [husers, forall_mem_cons] at hbranchOf
      rw [commonBranch, hbranchOf.1]
      exact if_pos (all_eq_true.mpr fun x hx ↦ beq_iff_eq.mpr (hbranchOf.2 x hx))
  obtain ⟨a, hanc⟩ := huses user huser
  obtain ⟨home, hparent, hhome⟩ := hanc.exists_home hp ⟨_, .nested hat hholder hbranch⟩
  have hfind : ((p.opsIn branch).find? fun candidate ↦
      (usersOf p o).any fun user ↦ p.ancestorIn? branch user == some candidate).isSome := by
    refine find?_isSome.mpr ⟨a, hp.mem_opsIn.mpr hanc.parentOf?, any_eq_true.mpr ⟨user, huser, ?_⟩⟩
    exact beq_iff_eq.mpr (hanc.ancestorIn? hp hparent hhome)
  obtain ⟨anchor, hanchor⟩ := isSome_iff_exists.mp hfind
  refine ⟨anchor, ?_⟩
  rw [anchor?, if_pos (all_eq_true.mpr honce)]
  dsimp only
  rw [hcommon]
  exact hanchor

lemma MaySink.exists_destination (h : MaySink registry p o branch)
    {v : ValueId} (hv : (p.resultsOf o).head? = some v) {x : OpId} (hx : v ∈ p.operandsOf x) :
    ∃ r anchor, p.Attached r ∧ o ∈ p.opsIn r ∧
    destination? p registry r ((p.opsIn r).filter fun o ↦ !(p.regionsOf o).isEmpty)
    o = some anchor := by
  obtain ⟨r, holder, hr, ho, hholder, hbranch, honce⟩ := h.place
  obtain ⟨node, hnode, hstateless, hform, hend, hcontrol, hwaits⟩ := h.movable
  have huses : ∀ x ∈ usersOf p o, ∃ a, AncestorIn p branch x a := by
    intro x hx
    obtain ⟨u, hu, hxu⟩ := mem_flatMap.mp hx
    refine h.uses u hu x ?_
    rw [← count_pos_iff, ← hp.uses.counts]
    exact count_pos_iff.mpr hxu
  have hused : p.usersOf v ≠ [] := fun hnone ↦ hp.uses.not_mem_operandsOf hnone x hx
  obtain ⟨first, hfirst⟩ := isSome_iff_exists.mp (isSome_head?.mpr hused)
  have hmem : v ∈ p.resultsOf o := mem_of_head? hv
  have huser : first ∈ usersOf p o := by
    exact mem_flatMap.mpr ⟨v, hmem, mem_of_head? hfirst⟩
  obtain ⟨a, hanc⟩ := huses first huser
  have habove : AncestorIn p r first holder := hanc.of_inner hp hbranch (.here hholder)
  obtain ⟨home, hparent, hhome⟩ := habove.exists_home hp hr
  obtain ⟨anchor, hanchor⟩ := exists_anchor hp hr (hp.mem_opsIn.mpr hholder)
    honce hbranch huses huser
  refine ⟨r, anchor, hr, hp.mem_opsIn.mpr ho, ?_⟩
  have hmovable : isMovable p registry o = true := by
    rw [resultsOf_eq hnode] at hmem
    have hresults : node.results ≠ [] := ne_nil_of_mem hmem
    simp [isMovable, hnode, hstateless, hend, Operation.isPlain, hform, hcontrol, hresults, hwaits]
  have hheld : holder? p r ((p.opsIn r).filter fun o ↦ !(p.regionsOf o).isEmpty)
      o = some holder := by
    rw [resultsOf_eq hnode] at hv
    have hholds : holder ∈ (p.opsIn r).filter fun o ↦ !(p.regionsOf o).isEmpty := by
      refine mem_filter.mpr ⟨hp.mem_opsIn.mpr hholder, ?_⟩
      simpa using ne_nil_of_mem hbranch
    obtain ⟨value, hvalue, hfirst⟩ : ∃ value, p.value? v = some value ∧
        value.users.head? = some first := by
      unfold Program.usersOf at hfirst
      cases hvalue : p.value? v with
      | none =>
        rw [hvalue] at hfirst
        cases hfirst
      | some value =>
        rw [hvalue] at hfirst
        exact ⟨value, rfl, hfirst⟩
    simp only [holder?, hnode, hv, hvalue, hfirst, habove.ancestorIn? hp hparent hhome,
      bind_eq_bind, bind_some, contains_iff_mem.mpr hholds, if_true]
  rw [destination?, if_pos hmovable, hheld]
  exact hanchor

lemma destination?_eq_none (hround : (round registry).exec p = (.ok false, p)) (hr : p.Attached r)
    (ho : o ∈ p.opsIn r) :
    destination? p registry r ((p.opsIn r).filter fun o ↦ !(p.regionsOf o).isEmpty) o = none := by
  rw [round, exec_get_bind] at hround
  have hregion : (sinkRegion registry r).exec p = (.ok false, p) := by
    refine anyChange_eq_false (fun x hx q hok ↦ ?_) hround r ((mem_allRegions hp).mpr hr)
    obtain ⟨_, _, hok', hreport⟩ := succeeds_sinkRegion registry hp ((mem_allRegions hp).mp hx)
    obtain ⟨hchanged, rfl⟩ := Prod.mk.inj (hok.symm.trans hok')
    obtain rfl := Except.ok.inj hchanged
    exact hreport
  rw [sinkRegion, exec_get_bind] at hregion
  dsimp only at hregion
  split_ifs at hregion with hempty
  · rw [destination?, isEmpty_iff.mp hempty]
    simp [holder?]
  have hop := anyChange_eq_false (fun x _ q hok ↦ ?_) hregion o (mem_reverse.mpr ho)
  · cases hfound :
      destination? p registry r ((p.opsIn r).filter fun o ↦ !(p.regionsOf o).isEmpty) o with
    | none => rfl
    | some anchor =>
      rw [exec_get_bind, hfound, exec_bind_ok] at hop
      obtain ⟨_, _, -, hreturn⟩ := hop
      cases hreturn
  · rw [exec_get_bind] at hok
    split at hok
    · exact (Prod.mk.inj hok).2.symm
    · obtain ⟨_, _, -, hreturn⟩ := exec_bind_ok.mp hok
      cases hreturn

end Found

/-- In a program whose nesting has no cycles the pass succeeds, and what it leaves that could still
go into a branch has no use of its first result. -/
theorem first_unused_of_maySink (registry : Registry) {p : Program} (hp : Reachable p)
    (hforest : p.Forested) :
    ∃ changed q, (pass.run registry).exec p = (.ok changed, q) ∧ q.Forested ∧
      ∀ o branch, MaySink registry q o branch →
        ∀ v, (q.resultsOf o).head? = some v → ∀ x, v ∉ q.operandsOf x := by
  obtain ⟨n, q, hrounds, -, hok⟩ := run_exec registry hp.consistent
  have hq := (sinks_of_reports (reports_descends hp.consistent hok) hp.consistent).1
  refine ⟨_, q, hok, forested_run hp.consistent hforest hok, fun o branch hsink v hv x hx ↦ ?_⟩
  obtain ⟨r, anchor, hr, ho, hfound⟩ := hsink.exists_destination hq hv hx
  cases hfound.symm.trans (destination?_eq_none hq (hrounds.last hp.consistent) hr ho)

/-- An operation with two results, one of which is used, in a branch. -/
def oneOfTwo (used : ValueId) : Program :=
  .built [
    .node 0 "source" [] 1, .node 0 "split" [0] 2, .node 0 "choose" [0] 1, .addRegion ⟨2⟩ .once,
    .append ⟨1⟩ { kind := yieldKind, operands := [used] }, .node 0 returnKind [3]]

lemma maySink_oneOfTwo {used : ValueId} (hused : used = ⟨1⟩ ∨ used = ⟨2⟩) :
    MaySink (NameMap.empty.insert "split" { stateless := true }) (oneOfTwo used) ⟨1⟩ ⟨1⟩ := by
  have hp : (oneOfTwo used).Consistent := (reachable_built _).consistent
  refine ⟨?_, ⟨⟨0⟩, ⟨2⟩, (mem_allRegions hp).mp ?_, ?_⟩, fun v hv x hx ↦ ⟨x, .here ?_⟩⟩
  · rcases hused with rfl | rfl <;> exact movable_of_isMovable (by decide +kernel)
  · rcases hused with rfl | rfl <;> decide +kernel
  · rcases hused with rfl | rfl <;> decide +kernel
  · have husers : ∀ v ∈ (oneOfTwo used).resultsOf ⟨1⟩, ∀ x ∈ (oneOfTwo used).usersOf v,
        (oneOfTwo used).parentOf? x = some ⟨1⟩ := by
      rcases hused with rfl | rfl <;> decide +kernel
    refine husers v hv x (count_pos_iff.mp ?_)
    rw [hp.uses.counts]
    exact count_pos_iff.mpr hx

/-- If it is the first result, the operation goes to its use, and nothing is left that could
move. -/
theorem first_unused_after_oneOfTwo :
    let registry : Registry := NameMap.empty.insert "split" { stateless := true }
    let q := ((pass.run registry).exec (oneOfTwo ⟨1⟩)).2
    Reachable (oneOfTwo ⟨1⟩) ∧ (oneOfTwo ⟨1⟩).Forested ∧
      MaySink registry (oneOfTwo ⟨1⟩) ⟨1⟩ ⟨1⟩ ∧
      (pass.run registry).exec (oneOfTwo ⟨1⟩) = (.ok true, q) ∧ q.opsIn ⟨1⟩ = [⟨1⟩, ⟨3⟩] ∧
      ∀ o branch, MaySink registry q o branch → ∀ v, (q.resultsOf o).head? = some v →
      ∀ x, v ∉ q.operandsOf x := by
  intro registry q
  have hp : Reachable (oneOfTwo ⟨1⟩) := reachable_built _
  have hok : (pass.run registry).exec (oneOfTwo ⟨1⟩) = (.ok true, q) :=
    exec_eq_ok (by decide +kernel)
  have hforest : (oneOfTwo ⟨1⟩).Forested := (AcyclicallyBuilt.of_still rfl).forested
  obtain ⟨_, q', hok', -, hleft⟩ := first_unused_of_maySink registry hp hforest
  obtain rfl : q = q' := (Prod.mk.inj (hok.symm.trans hok')).2
  exact ⟨hp, hforest, maySink_oneOfTwo (.inl rfl), hok, by decide +kernel, hleft⟩

/-- If it is the second one, the program is in order and the operation stays where it is, although
it could move. -/
theorem second_result_not_sunk :
    let registry : Registry := NameMap.empty.insert "split" { stateless := true }
    Reachable (oneOfTwo ⟨2⟩) ∧ (oneOfTwo ⟨2⟩).Forested ∧ Ordered (oneOfTwo ⟨2⟩) ∧
      (pass.run registry).exec (oneOfTwo ⟨2⟩) = (.ok false, oneOfTwo ⟨2⟩) ∧
      MaySink registry (oneOfTwo ⟨2⟩) ⟨1⟩ ⟨1⟩ ∧ ⟨2⟩ ∈ (oneOfTwo ⟨2⟩).resultsOf ⟨1⟩ ∧
      ⟨2⟩ ∈ (oneOfTwo ⟨2⟩).operandsOf ⟨3⟩ := by
  intro registry
  have hp : Reachable (oneOfTwo ⟨2⟩) := reachable_built _
  have hordered : Ordered (oneOfTwo ⟨2⟩) := ordered_of_isScoped hp.consistent (by decide +kernel)
    (by decide +kernel)
  have hok : (pass.run registry).exec (oneOfTwo ⟨2⟩) =
      (.ok false, ((pass.run registry).exec (oneOfTwo ⟨2⟩)).2) :=
    exec_eq_ok (by decide +kernel)
  have hsame := reports_descends hp.consistent hok
  have hforest : (oneOfTwo ⟨2⟩).Forested := (AcyclicallyBuilt.of_still rfl).forested
  exact ⟨hp, hforest, hordered, hok.trans (congrArg _ hsame), maySink_oneOfTwo
    (.inr rfl), by decide +kernel⟩

end TensorGraph.BranchSinking
