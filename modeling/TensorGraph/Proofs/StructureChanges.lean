import Mathlib.Order.Basic
import TensorGraph.Proofs.BranchSinking
import TensorGraph.Proofs.ConstantReads
import TensorGraph.Proofs.Fusion
import TensorGraph.Proofs.GraphFunction
import TensorGraph.Proofs.RegionForm
import TensorGraph.Proofs.SlotRemoval
import TensorGraph.Proofs.TopologicalOrder

/-!
What the passes that change the structure of a program report.
-/

namespace TensorGraph

open Program Edit List Option

variable {m p q : Program} {o root anchor : OpId} {r : RegionId} {changed : Bool}
  {registry : Registry} {operands : List ValueId} {sweeps : Nat} {settings : Settings}
  {conversion : Conversion} {new : OpId} {s : Slot}

namespace Program

lemma SameContents.opsIn (h : SameContents p q) (r : RegionId) : q.opsIn r = p.opsIn r := by
  unfold Program.opsIn Program.region?
  rw [h.regions]

end Program

/-! ### Sorting -/

namespace TopologicalOrder

lemma reports_run (hp : p.Consistent) (hok : run.exec p = (.ok changed, q)) :
    Reports Differs p changed q := by
  obtain ⟨orders, hplan, rfl, rfl⟩ := exists_plan_of_run hp hok
  cases orders with
  | nil => exact .unchanged
  | cons entry rest =>
    obtain ⟨r, order⟩ := entry
    obtain ⟨hr, hlisted⟩ := (plan_ok hp hplan).2 r order mem_cons_self
    obtain ⟨new, hnew, horder⟩ := opsIn_of_plan hp hplan hr
    cases hnew.symm.trans hlisted
    intro hsame
    exact order_ne_of_newOrder hnew (horder.symm.trans (hsame.opsIn r))

end TopologicalOrder

/-! ### Making the graph a function -/

namespace GraphFunction

lemma reports_run (hp : p.Consistent)
    (hok : (run settings).exec p = (.ok changed, q)) : Reports Differs p changed q := by
  obtain ⟨found, hplan, -⟩ := bind_read_ok.mp hok
  obtain ⟨_, q', hok', rfl, replaced, erased, func, last, node, b, m, h⟩ := succeeds_run hp hplan
  obtain ⟨hchanged, rfl⟩ := Prod.mk.inj (hok.symm.trans hok')
  cases hchanged
  intro hsame
  have hlength := congrArg List.length (h.closes.funcs.symm.trans hsame.funcs)
  rw [h.trimmed.funcs, h.fed.funcs, length_append] at hlength
  simp at hlength

end GraphFunction

/-! ### Conversion to regions -/

namespace RegionForm

/-- The function's body can be copied into a region of the operation, which is not inside of it. -/
structure Apart (o : OpId) (start : Nat) (p : Program) (body : RegionId) : Prop where
  consistent : p.Consistent
  regions : start ≤ p.regions.length
  root : body ∈ p.roots
  live : (p.op? o).isSome
  outside : ∀ a, ¬ AncestorIn p body o a

lemma Apart.rework {start : Nat} {body : RegionId} (h : Apart o start p body)
    (hreworks : Reworks o p q) : Apart o start q body where
  consistent := hreworks.after
  regions := h.regions.trans hreworks.grows.regions
  root := hreworks.grows.roots ▸ h.root
  live := hreworks.live
  outside a hanc := h.outside a (hanc.of_grows h.consistent hreworks.grows
    (forall_mem_singleton.mpr (hreworks.parentOf? h.live)) h.live)

lemma inlines_apart (conversion : Conversion) (operands : List ValueId) (start : Nat) :
    Inlines conversion operands (Apart conversion.op start) fun _ _ r ↦ start ≤ r.index where
  region h := (AttachedAt.root h.root).isSome_region? h.consistent
  ready hreworks h := h.rework hreworks
  made _ _ _ h := h
  step {p q node name func} hp ho hfunc h _ hok := by
    obtain ⟨r, inputs, p₁, table, p₂, last, hopen, hcopy, hlast, hq⟩ :=
      inlineCallee_steps hp ho hfunc ((AttachedAt.root h.root).isSome_region? hp) hok
    obtain ⟨hp₁, hg₁, hfresh, ho₁, -⟩ := openRegion_ok hp ho hopen
    have hapart := h.rework (.of_op? hp hp₁ hg₁ ho ho₁ rfl)
    have hr : r ∈ p₁.regionsOf conversion.op := by
      rw [regionsOf_eq ho₁]
      simp [Operation.regions]
    have hc : p₁.Copyable func.body r := .of_root hp₁ hapart.root hr fun hmem ↦
      ((op_mem_tour.trans (mem_walk hp₁ ⟨0, .root hapart.root⟩)).mp hmem).elim hapart.outside
    obtain ⟨m, image, hcopied⟩ := hc.of_copyRegion hcopy
    obtain ⟨hconsistent, hgrows, -, ho₃⟩ :=
      inlineCallee_done hp ho hg₁ hfresh ho₁ hcopied.consistent hcopied.grows hlast hq
    exact ⟨hconsistent, hgrows, r, ho₃, h.regions.trans (getElem?_eq_none_iff.mp hfresh)⟩

lemma convert_expands {node : Operation} (hp : p.Consistent) (h : Convertible conversion node p)
    (hok : (convert conversion).exec p = (.ok ⟨⟩, q)) :
    Reworks conversion.op p q ∧ p.regions.length < q.regions.length := by
  obtain ⟨hq, hg, rs, ho, hlength, hfresh⟩ :=
    convert_made (inlines_apart conversion node.operands p.regions.length)
    hp h.live h.regions rfl h.callees (fun name hname ↦ by
      obtain ⟨func, hfunc, -, houtside⟩ := h.bodies name hname
      exact ⟨func, hfunc, hp, Nat.le_refl _, body_mem_roots hfunc,
        isSome_of_eq_some h.live, houtside⟩) hok
  have hsome : rs ≠ [] := fun hnil ↦ h.callees (length_eq_zero_iff.mp (by simp [← hlength, hnil]))
  obtain ⟨r, hr⟩ := exists_mem_of_ne_nil rs hsome
  obtain ⟨name, hmem⟩ := exists_mem_zip hlength hr
  obtain ⟨-, -, hnew⟩ := hfresh name r hmem
  obtain ⟨region, hregion⟩ := isSome_iff_exists.mp
    (hq.isSome_region?_of_mem_regionsOf (o := conversion.op) (by rw [regionsOf_eq ho]; exact hr))
  exact ⟨.of_op? hp hq hg h.live ho rfl, hnew.trans_lt (List.getElem?_eq_some_iff.mp hregion).1⟩

/-- What is left to convert in a program that has grown out of another one. -/
structure Expanding (p : Program) (conversions : List Conversion) (q : Program) : Prop where
  consistent : q.Consistent
  roots : q.roots = p.roots
  regions : p.regions.length ≤ q.regions.length
  ops : (conversions.map (·.op)).Nodup
  convertible : ∀ conversion ∈ conversions, ∃ node, Convertible conversion node q

lemma Expanding.step {rest : List Conversion} (h : Expanding p (conversion :: rest) m)
    (hok : (convert conversion).exec m = (.ok ⟨⟩, q)) : m.regions.length < q.regions.length ∧
    Expanding p rest q := by
  obtain ⟨⟨node, hfirst⟩, hothers⟩ := forall_mem_cons.mp h.convertible
  obtain ⟨hself, hrest⟩ := nodup_cons.mp h.ops
  obtain ⟨hreworks, hlt⟩ := convert_expands h.consistent hfirst hok
  exact ⟨hlt, hreworks.after, hreworks.grows.roots.trans h.roots, h.regions.trans hlt.le, hrest,
    hreworks.convertible (isSome_of_eq_some hfirst.live) hself hothers⟩

lemma Swept.regions (h : Swept p changed q) (hp : p.Consistent) (hroots : p.roots.Nodup) :
    p.regions.length + changed.toNat ≤ q.regions.length := by
  induction h with
  | done => exact Nat.le_refl _
  | step hplan hsome hconverted _ ih =>
    obtain ⟨conversion, rest, rfl⟩ := exists_cons_of_ne_nil hsome
    obtain ⟨hops, hall⟩ := plan_eq_ok hp hroots hplan
    rw [exec_forM_cons] at hconverted
    obtain ⟨_, m, hfirst, hrest⟩ := exec_bind_ok.mp hconverted
    obtain ⟨hlt, hm⟩ := Expanding.step ⟨hp, rfl, Nat.le_refl _, hops, hall⟩ hfirst
    have hdone := forM_ok (I := Expanding m) (fun _ _ _ _ hstep hrun ↦ (hstep.step hrun).2)
      ⟨hm.consistent, rfl, Nat.le_refl _, hm.ops, hm.convertible⟩ hrest
    have hle := ih hdone.consistent (by rwa [hdone.roots, hm.roots])
    exact hlt.trans_le (hdone.regions.trans (Nat.le_of_add_right_le hle))

lemma reports_sweep (hp : p.Consistent) (hroots : p.roots.Nodup)
    (hok : (sweep sweeps).exec p = (.ok changed, q)) : Reports Differs p changed q := by
  have hswept := swept_of_ok hok
  have hle := hswept.regions hp hroots
  cases hswept with
  | done => exact .unchanged
  | step =>
    intro hsame
    rw [hsame.regions] at hle
    exact Nat.not_succ_le_self _ hle

end RegionForm

/-! ### Live operations -/

section LiveOperations

lemma liveCount_le_of_parentOf? (h : ∀ o, q.parentOf? o = p.parentOf? o) :
    q.liveCount ≤ p.liveCount := by
  refine liveCount_le_of_live fun o ho ↦ ?_
  rwa [Fusion.isSome_op?_iff, ← h, ← Fusion.isSome_op?_iff]

lemma liveCount_replaceUses (hp : p.Consistent) {old new : ValueId}
    (hok : (replaceUses old new).exec p = (.ok ⟨⟩, q)) : q.liveCount ≤ p.liveCount := by
  obtain ⟨-, ⟨-, rfl⟩ | ⟨-, hne, rfl⟩⟩ := does_replaceUses.of_ok hok
  · exact Nat.le_refl _
  · exact liveCount_le_of_parentOf? (Redirects.redirected hp.uses hne).tree.parent

lemma liveCount_replaceControl {old : OpId} (hok : (replaceControl old new).exec p = (.ok ⟨⟩, q)) :
    q.liveCount ≤ p.liveCount := by
  obtain ⟨hsame, -⟩ := replaceControl_ok hok
  refine liveCount_le_of_live fun o ho ↦ ?_
  rwa [hsame.op?, isSome_map] at ho

lemma liveCount_eraseOp (hp : p.Consistent) (hok : (eraseOp o).exec p = (.ok ⟨⟩, q)) :
    q.liveCount < p.liveCount := by
  have hlive : (p.op? o).isSome := by
    obtain ⟨node, hnode, -⟩ := bind_read_ok.mp hok
    rw [op_eq_ok.mp hnode]
    rfl
  have herased := eraseOp_op? hp hok
  refine liveCount_lt_of_live (fun x hx ↦ ?_) hlive ((herased o).1 .self)
  by_cases hholds : Holds p o x
  · rw [(herased x).1 hholds] at hx
    cases hx
  · rwa [(herased x).2 hholds, isSome_map] at hx

lemma liveCount_insertOpBefore (hp : p.Consistent) {description : NewOp}
    (hok : (insertOpBefore anchor description).exec p = (.ok new, q)) :
    q.liveCount ≤ p.liveCount + 1 := by
  obtain ⟨r, -, -, -, -, -, rfl⟩ := does_insertOpBefore.of_ok hok
  have hop := hp.uses.free.op?_withOp r ((p.opsIn r).idxOf anchor) description
  have hrelease := liveCount_release (p := p.withOp r ((p.opsIn r).idxOf anchor) description)
    (o := p.nextOp) (by rw [hop, if_pos rfl]; rfl)
  have hle : ((p.withOp r ((p.opsIn r).idxOf anchor) description).release p.nextOp).liveCount ≤
      p.liveCount := by
    refine liveCount_le_of_live fun x hx ↦ ?_
    rw [op?_release, hop] at hx
    split_ifs at hx
    · cases hx
    · exact hx
  omega

end LiveOperations

/-! ### Fusion -/

namespace Fusion

lemma liveCount_fuse (hp : p.Consistent) {chain : Match} (hinterior : chain.interior ≠ [])
    (hok : (fuse chain).exec p = (.ok ⟨⟩, q)) : q.Consistent ∧ q.liveCount < p.liveCount := by
  obtain ⟨node, p₁, p₂, p₃, -, -, hinsert, htake, hcontrol, herase⟩ := fuse_ok hp hok
  have hp₁ := (makes_insertOpBefore _ _).keeps.of_ok hp hinsert
  have hle₁ := liveCount_insertOpBefore hp hinsert
  obtain ⟨hp₂, hle₂⟩ := forM_ok (I := fun _ m ↦ m.Consistent ∧ m.liveCount ≤ p₁.liveCount)
    (fun pair rest m m' hm hrun ↦ by
      obtain ⟨new, -, hrun⟩ := bind_read_ok.mp hrun
      exact ⟨(makes_replaceUses _ _).keeps.of_ok hm.1 hrun,
        (liveCount_replaceUses hm.1 hrun).trans hm.2⟩)
    ⟨hp₁, Nat.le_refl _⟩ htake
  have hp₃ := (through_replaceControl _ _).keeps.of_ok hp₂ hcontrol
  have hle₃ := liveCount_replaceControl hcontrol
  obtain ⟨hq, hle⟩ := forM_ok (I := fun rest m ↦ m.Consistent ∧ m.liveCount +
    (chain.root :: chain.interior.reverse).length ≤ p₃.liveCount + rest.length)
    (fun o rest m m' hm hrun ↦ by
      have hlt := liveCount_eraseOp hm.1 hrun
      have hle := hm.2
      simp only [length_cons] at hle ⊢
      exact ⟨(keeps_eraseOp o).of_ok hm.1 hrun, by omega⟩)
    ⟨hp₃, Nat.le_refl _⟩ herase
  have hpos := length_pos_iff.mpr hinterior
  rw [length_cons, length_reverse, length_nil] at hle
  exact ⟨hq, by omega⟩

lemma reports_fuseAt (hp : p.Consistent) {rules : List Rule} (hrules : rules ⊆ builtinRules)
    (hok : (fuseAt rules root).exec p = (.ok changed, q)) :
    q.Consistent ∧ Reports (fun p q ↦ q.liveCount < p.liveCount) p changed q := by
  unfold fuseAt at hok
  rw [exec_get_bind] at hok
  split_ifs at hok
  · cases hok
    exact ⟨hp, .unchanged⟩
  split at hok
  · cases hok
    exact ⟨hp, .unchanged⟩
  · next chain hfound =>
    obtain ⟨rule, hrule, hfind⟩ := exists_of_findSome?_eq_some hfound
    obtain ⟨_, m, hfuse, hdone⟩ := exec_bind_ok.mp hok
    cases hdone
    exact liveCount_fuse hp (found_of_builtinRules (hrules hrule) hfind).2.nonempty hfuse

lemma reports_run (hp : p.Consistent) (hok : (run settings builtinRules).exec p = (.ok changed, q))
    : Reports Differs p changed q := by
  unfold run at hok
  dsimp only at hok
  rw [exec_get_bind] at hok
  obtain ⟨-, hreports⟩ := anyChange_progress (I := fun _ m ↦ m.Consistent)
    (R := fun p q ↦ q.liveCount < p.liveCount) (fun h h' ↦ h'.trans h)
    (fun root rest m n here hm hrun ↦
    reports_fuseAt hm (fun rule hrule ↦ (mem_filter.mp hrule).1) hrun) hp hok
  exact hreports.imp fun hlt hsame ↦ absurd hsame.liveCount hlt.ne

end Fusion

/-! ### Removal of slots -/

namespace LoopSlots

def resultCounts (p : Program) (o : OpId) : Nat :=
  (p.resultsOf o).length

lemma Slot.Removed.resultCounts_le (h : s.Removed p q) : resultCounts q ≤ resultCounts p := by
  intro o
  unfold resultCounts
  rw [h.resultsOf, eraseAt]
  split_ifs
  · exact length_eraseIdx_le _ _
  · exact Nat.le_refl _

lemma Slot.Removed.resultCounts_lt (hs : s.LiesIn p)
    (h : s.Removed p q) : resultCounts q < resultCounts p := by
  refine Pi.lt_def.mpr ⟨h.resultCounts_le, s.op, ?_⟩
  have hlt := (List.getElem?_eq_some_iff.mp hs.result).1
  unfold resultCounts
  rw [h.resultsOf, eraseAt, if_pos rfl, length_eraseIdx_of_lt hlt]
  omega

lemma reports_simplifyLoop (hp : Reachable p) (hok : (simplifyLoop o).exec p = (.ok changed, q)) :
    Reachable q ∧ Reports (fun p q ↦ resultCounts q < resultCounts p) p changed q := by
  unfold simplifyLoop at hok
  rw [bind_read_ok] at hok
  obtain ⟨node, hnode, hok⟩ := hok
  replace hnode := op_eq_ok.mp hnode
  split_ifs at hok with hkind
  · cases hok
    exact ⟨hp, .unchanged⟩
  rw [exec_get_bind, exec_bind_ok] at hok
  obtain ⟨_, m, hloop, hdone⟩ := hok
  cases hdone
  cases hslots : passthroughSlots p node with
  | nil =>
    rw [hslots] at hloop
    cases hloop
    exact ⟨hp, .unchanged⟩
  | cons first rest =>
    rw [hslots, exec_forM_cons, exec_bind_ok] at hloop
    obtain ⟨_, n, hfirst, hrest⟩ := hloop
    obtain ⟨s, rfl, rfl, hs⟩ : ∃ s : Slot, s.op = o ∧ s.index = first ∧ s.LiesIn p := by
      have hmem : first ∈ passthroughSlots p node := by simp [hslots]
      unfold passthroughSlots at hmem
      split at hmem
      · cases hmem
      · next loop hisLoop =>
        obtain ⟨last, hisLoop, -⟩ := (loopOf?_eq_some_iff hp.consistent hnode _).mp hisLoop
        have hlt : first < node.operands.length :=
          mem_range.mp (mem_reverse.mp (mem_of_mem_filter hmem))
        obtain ⟨s, hs, hop, hindex, -⟩ := exists_slot hisLoop (operandsOf_eq hnode ▸ hlt)
        exact ⟨s, hop, hindex, hs⟩
    have hlt := (Slot.removed_of_removeSlot hp.consistent hs hfirst).resultCounts_lt hs
    have hn := (keeps_reachable_removeSlot _ _).of_ok hp hfirst
    have hall := forM_ok (I := fun _ k ↦ Reachable k ∧ resultCounts k ≤ resultCounts n)
      (fun slot _ k l hk hstep ↦ ?_) ⟨hn, le_rfl⟩ hrest
    · exact ⟨hall.1, lt_of_le_of_lt hall.2 hlt⟩
    · refine ⟨(keeps_reachable_removeSlot _ _).of_ok hk.1 hstep, ?_⟩
      rcases removeSlot_ok hk.1.consistent hstep with rfl | ⟨s', -, -, -, hremoved⟩
      · exact hk.2
      · exact hremoved.resultCounts_le.trans hk.2

lemma reports_run (hp : Reachable p) (hok : run.exec p = (.ok changed, q)) :
    Reports Differs p changed q := by
  have hloop : (anyChange p.allOps simplifyLoop).exec p = (.ok changed, q) := hok
  obtain ⟨-, hreports⟩ := anyChange_progress (I := fun _ ↦ Reachable)
    (R := fun p q ↦ resultCounts q < resultCounts p) (fun h h' ↦ lt_trans h' h)
    (fun o _ m n here hm hstep ↦ reports_simplifyLoop hm hstep) hp hloop
  refine hreports.imp fun hlt hsame ↦ ?_
  have heq : resultCounts q = resultCounts p := funext fun o ↦ by
    unfold resultCounts resultsOf
    rw [hsame.op?]
  exact absurd hlt (heq ▸ lt_irrefl _)

end LoopSlots

/-! ### Merging of constants -/

namespace ConstantMerging

lemma liveCount_attach (p : Program) (o : OpId) (home r : RegionId) (index : Nat) :
    (p.movedOp o home r index).liveCount = p.liveCount := by
  have hlive : ∀ x, ((p.movedOp o home r index).op? x).isSome = (p.op? x).isSome :=
    fun x ↦ by rw [op?_attach, isSome_map]
  apply Nat.le_antisymm
  · exact liveCount_le_of_live fun x hx ↦ (hlive x).symm.trans hx
  · exact liveCount_le_of_live fun x hx ↦ (hlive x).trans hx

lemma liveCount_hoist {place : Nat}
    (hok : (hoist r o place).exec p = (.ok changed, q)) : q.liveCount = p.liveCount := by
  rcases hoist_cases hok with rfl | ⟨home, index, rfl⟩
  · rfl
  · exact liveCount_attach ..

lemma liveCount_mergeInto (hp : p.Consistent) {duplicate kept : OpId}
    (hok : (mergeInto duplicate kept).exec p = (.ok ⟨⟩, q)) : q.Consistent ∧
    q.liveCount < p.liveCount := by
  obtain ⟨old, new, m, n, -, -, huses, hcontrol, herase⟩ := mergeInto_ok hok
  have hm := (makes_replaceUses _ _).keeps.of_ok hp huses
  have hn := (through_replaceControl _ _).keeps.of_ok hm hcontrol
  refine ⟨(keeps_eraseOp _).of_ok hn herase, ?_⟩
  calc q.liveCount < n.liveCount := liveCount_eraseOp hn herase
    _ ≤ m.liveCount := liveCount_replaceControl hcontrol
    _ ≤ p.liveCount := liveCount_replaceUses hp huses

/-- The operations that shall stand in front stand there in the end, and moves are reported only if
they did not stand there before. -/
theorem reports_hoists {l tail : List OpId} (hp : p.Consistent) (front : List OpId)
    (hsplit : p.opsIn r = front ++ tail) (hsub : l.Sublist tail)
    (hok : (anyChange (l.zipIdx front.length) fun (o, place) ↦ hoist r o place).exec p =
    (.ok changed, q)) : (front ++ l) <+: q.opsIn r ∧ (∀ x, x ≠ r → q.opsIn x = p.opsIn x) ∧
    Reports (fun p _ ↦ ¬ (front ++ l) <+: p.opsIn r) p changed q := by
  induction l generalizing front tail p changed with
  | nil =>
    cases hok
    rw [append_nil, hsplit]
    exact ⟨prefix_append _ _, fun _ _ ↦ rfl, .unchanged⟩
  | cons o l ih =>
    rw [zipIdx_cons] at hok
    obtain ⟨here, m, later, hhere, hlater, rfl⟩ := anyChange_cons_ok hok
    have hlonger : (front ++ [o]).length = front.length + 1 := length_append
    rw [← hlonger] at hlater
    have happend : front ++ o :: l = front ++ [o] ++ l := by simp
    rcases hoist_ok hp hsplit (hsub.subset mem_cons_self) hhere with
      ⟨rfl, rfl, back, rfl⟩ | ⟨rfl, rfl, a, middle, back, rfl, ho⟩
    · rw [happend]
      exact ih hp _ (by rw [hsplit]; simp) (cons_sublist_cons.mp hsub) hlater
    · have hops := opsIn_hoist hp hsplit
      have hm := (keeps_hoist r o front.length).of_ok hp hhere
      obtain ⟨hdone, hother, -⟩ := ih hm _ (by rw [hops]; simp)
        (sublist_of_cons_sublist ho hsub) hlater
      refine ⟨happend ▸ hdone, fun x hx ↦ ?_, fun hfront ↦ ho ?_⟩
      · have hanchor : ((p.detached o r).opsIn r)[front.length]? = some a := by
          rw [opsIn_detached_of_split hp hsplit]
          simp
        obtain ⟨_, _, -, -, hall⟩ := opsIn_attach (r := r) hanchor
        rw [hother x hx, hall, if_neg hx, opsIn_detached, if_neg hx]
      · rw [hsplit, prefix_append_right_inj, cons_prefix_cons] at hfront
        exact hfront.1 ▸ mem_cons_self

def Rearranges (keys : List RegionId) (p q : Program) : Prop :=
  q.liveCount < p.liveCount ∨ q.liveCount = p.liveCount ∧ Marks opsIn keys p q

lemma Rearranges.differs {keys : List RegionId} (h : Rearranges keys p q) :
    Differs p q := by
  rcases h with hlt | ⟨-, hmarks⟩
  · exact fun hsame ↦ absurd hsame.liveCount hlt.ne
  · exact hmarks.differs fun r hsame ↦ hsame.opsIn r

lemma reports_rearranges_cons {rest : List RegionId} (hr : r ∉ rest)
    {here later : Bool} (h : Reports (Rearranges [r]) p here m)
    (h' : Reports (Rearranges rest) m later q) : Reports (Rearranges (r :: rest)) p
    (here || later) q := by
  have hdisjoint : [r].Disjoint rest := singleton_disjoint.mpr hr
  have hmarks : ∀ here later : Bool, Reports (Marks opsIn [r]) p here m →
      Reports (Marks opsIn rest) m later q → Reports (Marks opsIn (r :: rest)) p (here || later)
      q := fun _ _ ↦ Reports.marks_append hdisjoint
  cases here
  · obtain rfl : m = p := h
    refine h'.imp fun h' ↦ h'.imp_right fun hmarked ↦ ⟨hmarked.1, ?_⟩
    exact hmarks false true .unchanged hmarked.2
  · cases later
    · obtain rfl : q = m := h'
      refine Or.imp_right (fun hmarked ↦ ⟨hmarked.1, ?_⟩) h
      exact hmarks true false hmarked.2 .unchanged
    · rcases h, h' with ⟨hlt | ⟨heq, hmarked⟩, hlt' | ⟨heq', hmarked'⟩⟩
      · exact .inl (hlt'.trans hlt)
      · exact .inl (heq' ▸ hlt)
      · exact .inl (heq ▸ hlt')
      · exact .inr ⟨heq'.trans heq, hmarks true true hmarked hmarked'⟩

lemma reports_mergeRegion (hp : p.Consistent) {gated : Bool}
    (hok : (mergeRegion settings registry gated r).exec p = (.ok changed, q)) :
    q.Consistent ∧ Reports (Rearranges [r]) p changed q := by
  obtain ⟨m, moved, hmerge, hhoists, rfl⟩ := mergeRegion_ok hok
  have hsound := sound_mergeOf p (candidates settings registry gated p r)
  generalize mergeOf p (candidates settings registry gated p r) = merge at *
  obtain ⟨hm, hle⟩ := forM_ok
    (I := fun rest k ↦ k.Consistent ∧ k.liveCount + merge.merged.length ≤ p.liveCount + rest.length)
    (fun pair rest k l hk hstep ↦ by
      obtain ⟨hl, hlt⟩ := liveCount_mergeInto hk.1 hstep
      have hle := hk.2
      rw [length_cons] at hle
      exact ⟨hl, by omega⟩)
    ⟨hp, Nat.le_refl _⟩ hmerge
  obtain ⟨hn, hcount⟩ := anyChange_ok (I := fun _ k ↦ k.Consistent ∧ k.liveCount = m.liveCount)
    (fun step _ k l _ hk hstep ↦
    ⟨(keeps_hoist _ _ _).of_ok hk.1 hstep, (liveCount_hoist hstep).trans hk.2⟩) ⟨hm, rfl⟩ hhoists
  refine ⟨hn, ?_⟩
  cases hmerged : merge.merged with
  | nil =>
    rw [hmerged] at hmerge
    cases hmerge
    have hsub : merge.kept.Sublist (p.opsIn r) := hsound.kept.trans filter_sublist
    obtain ⟨hfront, hother, hreports⟩ := reports_hoists hp [] rfl hsub hhoists
    refine Reports.imp (R := fun p _ ↦ ¬ ([] ++ merge.kept) <+: p.opsIn r) hreports fun hnot ↦ ?_
    refine .inr ⟨hcount, ⟨r, mem_singleton_self r, fun heq ↦ hnot (heq ▸ hfront)⟩, ?_⟩
    exact fun x hx ↦ hother x fun heq ↦ hx (mem_singleton.mpr heq)
  | cons pair rest =>
    rw [hmerged, length_cons, length_nil] at hle
    exact .inl (by omega)

lemma reports_run (hp : Reachable p) (hok : (run settings registry).exec p = (.ok changed, q)) :
    Reports Differs p changed q := by
  rw [exec_run] at hok
  have hloop := anyChange_reports (I := fun rest k ↦ rest.Nodup ∧ k.Consistent) (R := Rearranges)
    (fun r rest k l here hk hstep ↦ ?_) (fun r rest k l n here later hk hhere hlater ↦ ?_)
    ⟨nodup_allRegions hp.consistent hp.nodup_roots, hp.consistent⟩ hok
  · exact hloop.2.imp Rearranges.differs
  · rcases visit_ok hstep with ⟨-, rfl, rfl⟩ | ⟨-, hmerge⟩
    · exact ⟨⟨hk.1.of_cons, hk.2⟩, .unchanged⟩
    · obtain ⟨hl, hreport⟩ := reports_mergeRegion hk.2 hmerge
      exact ⟨⟨hk.1.of_cons, hl⟩, hreport⟩
  · exact reports_rearranges_cons (nodup_cons.mp hk.1).1 hhere hlater

end ConstantMerging

/-! ### Sinking -/

namespace BranchSinking

lemma reports_run (hp : p.Consistent)
    (hok : (run registry).exec p = (.ok changed, q)) : Reports Differs p changed q := by
  refine (reports_descends hp hok).imp fun hdescends hsame ↦ ?_
  obtain ⟨-, -, o, hmoved⟩ := Descends.sinks hdescends hp
  exact stays_eq_false.mp hmoved (congrArg (Option.map Operation.parent) (hsame.op? o))

end BranchSinking

end TensorGraph
