import TensorGraph.Pass.ConstantMerging
import TensorGraph.Proofs.Rewriting

/-!
Merging constants. A constant refers to nothing. One that is merged stands behind the one it is
merged into, so whatever sees it sees the other.
-/

namespace TensorGraph

open List

variable {p q : Program} {o : OpId} {r : RegionId} {changed gated : Bool} {registry : Registry}
  {place : Nat} {duplicate : OpId} {settings : Settings}
  {front middle back : List OpId} {kept : OpId}

namespace Program

/-! ### Operations without regions -/

lemma destroy_leaf (hleaf : p.regionsOf o = []) : (∀ x, (p.destroy o).region? x = p.region? x) ∧
      ∀ x, x ≠ o → (p.destroy o).op? x = p.op? x := by
  unfold destroy
  rcases p.slots.length with _ | depth
  · exact ⟨fun _ ↦ rfl, fun _ _ ↦ rfl⟩
  rcases hnode : p.op? o with _ | node
  · rw [destroyToDepth, hnode]
    exact ⟨fun _ ↦ rfl, fun _ _ ↦ rfl⟩
  rw [regionsOf_eq hnode] at hleaf
  have hsame := SameButUsers.dropUses o node.operands (p.release o)
  rw [destroyToDepth, hnode]
  dsimp only
  rw [hleaf, foldl_nil]
  refine ⟨hsame.region?, fun x hx ↦ ?_⟩
  rw [hsame.op?, op?_release, if_neg hx]

/-- The operation refers to nothing, has no regions and is no terminator. -/
structure IsConstant (p : Program) (o : OpId) : Prop where
  leaf : p.regionsOf o = []
  body : p.isEnd o = false
  operands : p.operandsOf o = []
  control : p.controlOf o = []

namespace IsConstant

variable (h : IsConstant p o)

include h

lemma of_op? (hop : q.op? o = p.op? o) : IsConstant q o := by
  refine ⟨?_, ?_, ?_, ?_⟩
  · rw [regionsOf, hop]
    exact h.leaf
  · rw [isEnd, hop]
    exact h.body
  · rw [operandsOf, hop]
    exact h.operands
  · rw [controlOf, hop]
    exact h.control

lemma of_redirects {old new : ValueId} (hr : Redirects old new p q) : IsConstant q o := by
  refine ⟨(hr.tree.regions o).trans h.leaf, (hr.tree.ends o).trans h.body, ?_,
    (hr.control o).trans h.control⟩
  rw [hr.operands, h.operands]
  rfl

lemma of_sameButControl (hsame : SameButControl p q)
    (hcontrol : ∀ d ∈ q.controlOf o, ∃ d', d' ∈ p.controlOf o) : IsConstant q o := by
  refine ⟨(hsame.sameTree.regions o).trans h.leaf, (hsame.sameTree.ends o).trans h.body,
    (hsame.operandsOf o).trans h.operands, eq_nil_iff_forall_not_mem.mpr fun d hd ↦ ?_⟩
  obtain ⟨d', hd'⟩ := hcontrol d hd
  rw [h.control] at hd'
  cases hd'

end IsConstant

lemma SameTree.attached (h : SameTree p q) (hp : p.Consistent)
    (hq : q.Consistent) (hr : p.Attached r) : q.Attached r :=
  h.symm.frame.attached hp hq hr

end Program

namespace Edit

open Program

lemma wellOrdered_eraseConstant (h : WellOrdered p) (hr : p.Attached r)
    (ho : p.parentOf? o = some r) (hconstant : IsConstant p o)
    (hok : (eraseOp o).exec p = (.ok ⟨⟩, q)) : WellOrdered q ∧
    (∀ x, p.Attached x → q.Attached x) ∧ q.opsIn r = (p.opsIn r).erase o ∧ ∀ x, x ≠ o →
    IsConstant p x → IsConstant q x := by
  have hp := h.consistent
  have hq := wellOrdered_eraseOp h ((mem_allOps hp).mpr ⟨r, hr, ho⟩) hconstant.body hok
  obtain ⟨-, m, home, hsame, hcontrol, hparent, rfl⟩ := eraseOp_ok hok
  have hm := hsame.consistent hp
  have hkept : ∀ x, IsConstant p x → IsConstant m x := by
    intro x hx
    refine hx.of_sameButControl hsame fun d hd ↦ ?_
    rw [hcontrol] at hd
    split_ifs at hd with hwaits
    · exact ⟨o, hwaits⟩
    · exact ⟨d, hd⟩
  obtain rfl : home = r := Option.some.inj (hparent.symm.trans ((hsame.parentOf? o).trans ho))
  have hleaf : (m.detached o home).regionsOf o = [] := (hkept o hconstant).leaf
  obtain ⟨hregion, hop⟩ := destroy_leaf hleaf
  have hf := Frame.discard hm hparent hq.consistent (hkept o hconstant).body
  refine ⟨hq, fun x hx ↦ ?_, ?_, fun x hx hxconstant ↦ ?_⟩
  · have hx' := hsame.sameTree.attached hp hm hx
    refine hf.attached_of_parentOp? hq.consistent hm hx' (parentOp?_congr ?_)
    rw [ownerOf?, hregion]
    exact ownerOf?_modifyRegion m home (fun _ ↦ by rfl) x
  · rw [opsIn, hregion]
    refine (opsIn_detached m o home home).trans ?_
    rw [if_pos rfl, hsame.sameTree.ops]
  · exact (hkept x hxconstant).of_op? (hop x hx)

end Edit

namespace ConstantMerging

open Program Edit

/-! ### The steps of the pass -/

section Steps

lemma mergeInto_ok (hok : (mergeInto duplicate kept).exec p = (.ok ⟨⟩, q)) : ∃ old new m n,
    p.result duplicate 0 = .ok old ∧ p.result kept 0 = .ok new ∧
    (replaceUses old new).exec p = (.ok ⟨⟩, m) ∧ (replaceControl duplicate kept).exec m =
    (.ok ⟨⟩, n) ∧ (eraseOp duplicate).exec n = (.ok ⟨⟩, q) := by
  unfold mergeInto at hok
  obtain ⟨old, hold, hok⟩ := bind_read_ok.mp hok
  obtain ⟨new, hnew, hok⟩ := bind_read_ok.mp hok
  obtain ⟨_, m, hreplace, hok⟩ := exec_bind_ok.mp hok
  obtain ⟨_, n, hcontrol, herase⟩ := exec_bind_ok.mp hok
  exact ⟨old, new, m, n, hold, hnew, hreplace, hcontrol, herase⟩

lemma hoist_cases (hok : (hoist r o place).exec p = (.ok changed, q)) :
    q = p ∨ ∃ home index, q = p.movedOp o home r index := by
  unfold hoist at hok
  obtain ⟨_, -, hok⟩ := bind_read_ok.mp hok
  split_ifs at hok
  · exact .inl (Prod.mk.inj hok).2.symm
  · obtain ⟨_, m, hmove, hdone⟩ := exec_bind_ok.mp hok
    cases hdone
    obtain ⟨home, -, -, -, hmoved⟩ := does_moveOp.of_ok hmove
    exact .inr ⟨home, _, hmoved⟩

lemma mergeRegion_ok (hok : (mergeRegion settings registry gated r).exec p = (.ok changed, q)) :
    ∃ m moved,
      ((mergeOf p (candidates settings registry gated p r)).merged.forM fun (duplicate, kept) ↦
        mergeInto duplicate kept).exec p = (.ok ⟨⟩, m) ∧
      (anyChange (mergeOf p (candidates settings registry gated p r)).kept.zipIdx fun (o, place) ↦
        hoist r o place).exec m = (.ok moved, q) ∧
      changed = (!(mergeOf p (candidates settings registry gated p r)).merged.isEmpty ||
        moved) := by
  unfold mergeRegion at hok
  rw [exec_get_bind] at hok
  obtain ⟨_, m, hmerge, hok⟩ := exec_bind_ok.mp hok
  obtain ⟨moved, n, hhoist, hdone⟩ := exec_bind_ok.mp hok
  obtain ⟨hchanged, rfl⟩ := Prod.mk.inj hdone
  exact ⟨m, moved, hmerge, hhoist, (Except.ok.inj hchanged).symm⟩

section

variable (settings : Settings) (registry : Registry) (p : Program)

/-- There are calls, and they are not taken to be strict. -/
def isGated : Bool :=
  p.allOps.any (isCall p registry) && !settings.strictCalls

/-- The bodies of the functions that calls name, unless all calls are taken to be strict. -/
def skippedBodies : List RegionId :=
  if isGated settings registry p then calleeBodies p registry else []

/-- What the pass does with one region of a program. -/
def visit (r : RegionId) : Edit Bool := do
  let now ← get
  if (skippedBodies settings registry p).any (now.isWithin r) then return false
  mergeRegion settings registry (isGated settings registry p) r

lemma exec_run :
    (run settings registry).exec p = (anyChange p.allRegions (visit settings registry p)).exec p :=
  rfl

end

lemma visit_ok {s t : Program} (hok : (visit settings registry p r).exec s = (.ok changed, t)) :
    (skippedBodies settings registry p).any (s.isWithin r) = true ∧ changed = false ∧ t = s ∨
    (skippedBodies settings registry p).any (s.isWithin r) = false ∧
    (mergeRegion settings registry (isGated settings registry p) r).exec s = (.ok changed, t) := by
  unfold visit at hok
  rw [exec_get_bind] at hok
  split_ifs at hok with hskip
  · obtain ⟨hchanged, rfl⟩ := Prod.mk.inj hok
    exact .inl ⟨hskip, (Except.ok.inj hchanged).symm, rfl⟩
  · exact .inr ⟨Bool.not_eq_true _ ▸ hskip, hok⟩

end Steps

/-! ### What is merged into what -/

/-- Those that stay and those that are merged make up the constants, and each that is merged comes
after the one it is merged into. -/
structure Merge.Sound (constants : List OpId) (merge : Merge) : Prop where
  kept : merge.kept.Sublist constants
  earlier : ∀ pair ∈ merge.merged, pair.2 ∈ merge.kept ∧ [pair.2, pair.1].Sublist constants
  all : (merge.kept ++ merge.merged.map Prod.fst).Perm constants

lemma sound_foldl (p : Program) (rest done : List OpId) (merge : Merge) (h : merge.Sound done) :
    Merge.Sound (done ++ rest) (rest.foldl (fun merge o ↦
        match merge.kept.find? (identical p · o) with
        | some kept => { merge with merged := merge.merged ++ [(o, kept)] }
        | none => { merge with kept := merge.kept ++ [o] }) merge) := by
  induction rest generalizing done merge with
  | nil =>
    rw [append_nil]
    exact h
  | cons o rest ih =>
    rw [foldl_cons, ← singleton_append, ← append_assoc]
    refine ih _ _ ?_
    have hlonger : done.Sublist (done ++ [o]) := sublist_append_left done [o]
    rcases hfind : merge.kept.find? (identical p · o) with _ | kept
    · refine ⟨h.kept.append (Sublist.refl _), fun pair hpair ↦ ?_, ?_⟩
      · obtain ⟨hkept, hbehind⟩ := h.earlier pair hpair
        exact ⟨mem_append_left _ hkept, hbehind.trans hlonger⟩
      · dsimp only
        rw [append_assoc]
        exact (perm_append_comm.append_left merge.kept).trans
          (append_assoc .. ▸ h.all.append_right [o])
    · have hkept := mem_of_find?_eq_some hfind
      refine ⟨h.kept.trans hlonger, fun pair hpair ↦ ?_, ?_⟩
      · rcases mem_append.mp hpair with hpair | hpair
        · obtain ⟨hkept', hbehind⟩ := h.earlier pair hpair
          exact ⟨hkept', hbehind.trans hlonger⟩
        · obtain rfl := mem_singleton.mp hpair
          exact ⟨hkept, (singleton_sublist.mpr (h.kept.subset hkept)).append (Sublist.refl [o])⟩
      · dsimp only
        rw [map_append, ← append_assoc]
        exact h.all.append_right [o]

lemma sound_mergeOf (p : Program) (constants : List OpId) : (mergeOf p constants).Sound constants :=
  sound_foldl p constants [] {} ⟨Sublist.refl _, fun _ hpair ↦
    (not_mem_nil hpair).elim, Perm.refl _⟩

lemma isConstant_of_isCandidate
    (hcandidate : isCandidate settings p o = true) : IsConstant p o := by
  unfold isCandidate at hcandidate
  rcases hnode : p.op? o with _ | node
  · rw [hnode] at hcandidate
    cases hcandidate
  rw [hnode] at hcandidate
  simp only [Bool.and_eq_true, beq_iff_eq, List.isEmpty_iff] at hcandidate
  obtain ⟨⟨⟨⟨⟨hkind, hoperands⟩, hcontrol⟩, -⟩, hplain⟩, -⟩ := hcandidate
  refine ⟨?_, ?_, ?_, ?_⟩
  · have hform : node.form = .plain := by simpa [Operation.isPlain] using hplain
    rw [regionsOf_eq hnode, Operation.regions, hform]
  · rw [isEnd, hnode]
    simp [Operation.isTerminator, hkind, returnKind, yieldKind]
  · rw [operandsOf_eq hnode]
    exact hoperands
  · rw [controlOf_eq hnode]
    exact hcontrol

lemma isConstant_of_mem_candidates (ho : o ∈ candidates settings registry gated p r) :
    IsConstant p o :=
  isConstant_of_isCandidate (Bool.and_eq_true_iff.mp (mem_filter.mp ho).2).1

/-! ### Merging -/

lemma wellOrdered_mergeInto (h : WellOrdered p) (hr : p.Attached r)
    (hbefore : Before p r kept duplicate) (hconstant : IsConstant p duplicate)
    (hok : (mergeInto duplicate kept).exec p = (.ok ⟨⟩, q)) : WellOrdered q ∧
    (∀ x, p.Attached x → q.Attached x) ∧ q.opsIn r = (p.opsIn r).erase duplicate ∧
    ∀ x, x ≠ duplicate → IsConstant p x → IsConstant q x := by
  have hp := h.consistent
  have hparent := hp.mem_opsIn.mp hbefore.mem_right
  have hahead : Sees p duplicate kept := ⟨r, duplicate, .here hparent, hbefore⟩
  obtain ⟨old, new, m, n, hold, hnew, hreplace, hcontrol, herase⟩ := mergeInto_ok hok
  have hresult := mem_of_getElem? (result_eq_ok.mp hold)
  have hresult' := mem_of_getElem? (result_eq_ok.mp hnew)
  obtain ⟨hm, hpm⟩ := wellOrdered_replaceUses h hreplace fun x hx huse ↦ .inr ⟨kept, hresult',
    ((h.scoping.operands x hx old huse).sees_of_mem_results hp hresult).trans hp hahead⟩
  have hattached : duplicate ∈ p.allOps := (mem_allOps hp).mpr ⟨r, hr, hparent⟩
  have haheadm := hpm.tree.sees hp hm.consistent hattached hahead
  have hn := wellOrdered_replaceControl hm hcontrol fun x hx hwaits ↦
    (hm.scoping.control x hx duplicate hwaits).trans hm.consistent haheadm
  obtain ⟨hmn, hdeps⟩ := replaceControl_ok hcontrol
  have htree := hpm.tree.trans hmn.sameTree
  have hkept : ∀ x, IsConstant p x → IsConstant n x := by
    intro x hx
    refine (hx.of_redirects hpm).of_sameButControl hmn fun d hd ↦ ?_
    rcases hdeps x d hd with hd | ⟨-, hd⟩
    · exact ⟨d, hd⟩
    · exact ⟨duplicate, hd⟩
  obtain ⟨hq, hregions, hops, hconstants⟩ :=
    wellOrdered_eraseConstant hn (htree.attached hp hn.consistent hr)
    ((htree.parent duplicate).trans hparent) (hkept duplicate hconstant) herase
  refine ⟨hq, fun x hx ↦ hregions x (htree.attached hp hn.consistent hx), ?_, fun x hx hconst ↦ ?_⟩
  · rw [hops, htree.ops]
  · exact hconstants x hx (hkept x hconst)

structure InPlace (r : RegionId) (kept : List OpId) (pairs : List (OpId × OpId)) (p : Program) :
    Prop where
  ordered : WellOrdered p
  attached : p.Attached r
  listed : kept.Sublist (p.opsIn r)
  earlier : ∀ pair ∈ pairs, pair.2 ∈ kept ∧ Before p r pair.2 pair.1
  apart : (kept ++ pairs.map Prod.fst).Nodup
  constants : ∀ o ∈ kept ++ pairs.map Prod.fst, IsConstant p o

lemma inPlace_mergeOf (h : WellOrdered p) (hr : p.Attached r) (settings : Settings)
    (registry : Registry) (gated : Bool) :
    InPlace r (mergeOf p (candidates settings registry gated p r)).kept
    (mergeOf p (candidates settings registry gated p r)).merged p := by
  have hsound := sound_mergeOf p (candidates settings registry gated p r)
  have hlisted : (candidates settings registry gated p r).Sublist (p.opsIn r) := filter_sublist
  refine ⟨h, hr, hsound.kept.trans hlisted, fun pair hpair ↦ ?_, ?_, fun o ho ↦ ?_⟩
  · obtain ⟨hkept, hbehind⟩ := hsound.earlier pair hpair
    exact ⟨hkept, hbehind.trans hlisted⟩
  · exact hsound.all.nodup_iff.mpr (hlisted.nodup (h.consistent.placed.once r))
  · exact isConstant_of_mem_candidates (hsound.all.mem_iff.mp ho)

lemma InPlace.step {kept : List OpId} {pair : OpId × OpId} {pairs : List (OpId × OpId)}
    (h : InPlace r kept (pair :: pairs) p) (hok : (mergeInto pair.1 pair.2).exec p = (.ok ⟨⟩, q)) :
    InPlace r kept pairs q ∧ ∀ x, p.Attached x → q.Attached x := by
  obtain ⟨hpair, hbefore⟩ := h.earlier pair mem_cons_self
  have hmiddle : (pair.1 :: (kept ++ pairs.map Prod.fst)).Nodup := nodup_middle.mp h.apart
  obtain ⟨hout, hapart⟩ := nodup_cons.mp hmiddle
  obtain ⟨hq, hregions, hops, hconstants⟩ := wellOrdered_mergeInto h.ordered h.attached hbefore
    (h.constants pair.1 (by simp)) hok
  have hne : ∀ o ∈ kept ++ pairs.map Prod.fst, o ≠ pair.1 := by
    rintro o ho rfl
    exact hout ho
  refine ⟨⟨hq, hregions r h.attached, ?_, fun other hother ↦ ?_, hapart, fun o ho ↦ ?_⟩, hregions⟩
  · have hkept : pair.1 ∉ kept := fun hmem ↦ hout (mem_append_left _ hmem)
    rw [hops]
    exact sublist_erase h.listed hkept
  · obtain ⟨hkept, hbehind⟩ := h.earlier other (mem_cons_of_mem _ hother)
    have hfirst := hne other.2 (mem_append_left _ hkept)
    have hsecond := hne other.1 (mem_append_right _ (mem_map_of_mem hother))
    refine ⟨hkept, ?_⟩
    rw [Before, hops]
    exact sublist_erase hbehind (by simp [Ne.symm hfirst, Ne.symm hsecond])
  · refine hconstants o (hne o ho) (h.constants o ?_)
    rcases mem_append.mp ho with hkept | hpairs
    · exact mem_append_left _ hkept
    · exact mem_append_right _ (mem_cons_of_mem _ hpairs)

/-! ### Moving forward -/

lemma hoist_ok (hp : p.Consistent) {tail : List OpId} (hsplit : p.opsIn r = front ++ tail)
    (ho : o ∈ tail) (hok : (hoist r o front.length).exec p = (.ok changed, q)) :
    (changed = false ∧ q = p ∧ ∃ back, tail = o :: back) ∨ changed = true ∧
    q = p.movedOp o r r front.length ∧ ∃ anchor middle back, tail = anchor ::
    (middle ++ o :: back) ∧ o ∉ anchor :: middle := by
  have hnodup := hp.placed.once r
  rw [hsplit, nodup_append] at hnodup
  have hparent := hp.mem_opsIn.mp (hsplit ▸ mem_append_right front ho)
  unfold hoist at hok
  rw [bind_read_ok] at hok
  obtain ⟨index, hindex, hok⟩ := hok
  obtain ⟨home, hhome, hmem, rfl⟩ := position_eq_ok.mp hindex
  cases hparent.symm.trans hhome
  rcases tail with _ | ⟨a, tail⟩
  · cases ho
  have hfront : o ∉ front := fun hin ↦ hnodup.2.2 o hin o ho rfl
  split_ifs at hok with hplace
  · obtain ⟨hchanged, rfl⟩ := Prod.mk.inj hok
    have hfirst := getElem?_idxOf hmem
    rw [hplace, hsplit, getElem?_append_right (Nat.le_refl _), Nat.sub_self] at hfirst
    cases hfirst
    exact .inl ⟨(Except.ok.inj hchanged).symm, rfl, tail, rfl⟩
  · have hne : a ≠ o := by
      rintro rfl
      refine hplace ?_
      rw [hsplit, idxOf_append_of_notMem hfront, idxOf_cons_self, Nat.add_zero]
    have htail : o ∈ tail := (mem_cons.mp ho).resolve_left (Ne.symm hne)
    obtain ⟨middle, back, rfl⟩ := append_of_mem htail
    obtain ⟨_, m, hmove, hdone⟩ := exec_bind_ok.mp hok
    obtain ⟨hchanged, rfl⟩ := Prod.mk.inj hdone
    refine .inr ⟨(Except.ok.inj hchanged).symm, ?_, a, middle, back, rfl, fun hin ↦ ?_⟩
    · obtain ⟨home, hhome, -, -, hmoved⟩ := does_moveOp.of_ok hmove
      cases hparent.symm.trans hhome
      have hindex : min front.length ((p.detached o r).opsIn r).length = front.length := by
        rw [opsIn_detached_of_split hp hsplit, length_append]
        omega
      rwa [hindex] at hmoved
    · have hwhole : (a :: middle ++ o :: back).Nodup := hnodup.2.1
      exact (nodup_append.mp hwhole).2.2 o hin o mem_cons_self rfl

/-- What comes behind the first of a list of operations, wherever that stands, comes behind it when
it has moved. -/
theorem sublist_of_cons_sublist {a : OpId} {l : List OpId} (ho : o ∉ a :: middle)
    (hsub : (o :: l).Sublist (a :: (middle ++ o :: back))) : l.Sublist (a :: (middle ++ back)) := by
  have herased := hsub.erase o
  rwa [erase_cons_head, ← cons_append, erase_append_right _ ho, erase_cons_head] at herased

lemma wellOrdered_moveForward (h : WellOrdered p) {anchor : OpId}
    (hsplit : p.opsIn r = front ++ anchor :: (middle ++ o :: back)) (hconstant : IsConstant p o) :
    WellOrdered (p.movedOp o r r front.length) ∧
    (∀ x, p.Attached x → (p.movedOp o r r front.length).Attached x) ∧
    ∀ x, IsConstant p x → IsConstant (p.movedOp o r r front.length) x := by
  have hp := h.consistent
  have hparent : p.parentOf? o = some r := hp.mem_opsIn.mp (by rw [hsplit]; simp)
  have hanchor : ((p.detached o r).opsIn r)[front.length]? = some anchor := by
    rw [opsIn_detached_of_split hp hsplit]
    simp
  have hf := Frame.attach hp hparent hanchor hconstant.leaf hconstant.body
  have hq := h.hoist hsplit hconstant.leaf hconstant.body hconstant.operands hconstant.control
  refine ⟨hq, fun x hx ↦ ?_, fun x hx ↦ ?_⟩
  · exact hf.attached_of_parentOp? hq.consistent hp hx
      (parentOp?_congr (ownerOf?_attach p o r r _ x))
  · obtain ⟨hoperands, -, hcontrol, hregions, hend⟩ := views_attach p o r r front.length x
    exact ⟨hregions.trans hx.leaf, hend.trans hx.body, hoperands.trans hx.operands,
      hcontrol.trans hx.control⟩

/-- The region begins with the constants that have moved. Those that still have to move, each with
the place it shall have, come behind them in order. -/
structure LinedUp (r : RegionId) (steps : List (OpId × Nat)) (p : Program) : Prop where
  ordered : WellOrdered p
  split : ∃ front tail : List OpId, ∃ l : List OpId, steps = l.zipIdx front.length ∧
    p.opsIn r = front ++ tail ∧ l.Sublist tail ∧ ∀ o ∈ l, IsConstant p o

lemma LinedUp.step {steps : List (OpId × Nat)} (h : LinedUp r ((o, place) :: steps) p)
    (hok : (hoist r o place).exec p = (.ok changed, q)) : LinedUp r steps q ∧ ∀ x, p.Attached x →
    q.Attached x := by
  obtain ⟨front, tail, l, hsteps, hsplit, hsub, hconstants⟩ := h.split
  rcases l with _ | ⟨o', l⟩
  · cases hsteps
  rw [zipIdx_cons, List.cons.injEq, Prod.mk.injEq] at hsteps
  obtain ⟨⟨rfl, rfl⟩, hsteps⟩ := hsteps
  have hlonger : steps = l.zipIdx (front ++ [o]).length := by
    rw [hsteps, length_append]
    rfl
  have hrest : ∀ x ∈ l, IsConstant p x := fun x hx ↦ hconstants x (mem_cons_of_mem _ hx)
  rcases hoist_ok h.ordered.consistent hsplit (hsub.subset mem_cons_self) hok with
    ⟨-, rfl, back, rfl⟩ | ⟨-, rfl, a, middle, back, rfl, ho⟩
  · refine ⟨⟨h.ordered, front ++ [o], back, l, hlonger, ?_, ?_, hrest⟩, fun _ hx ↦ hx⟩
    · rw [hsplit, append_assoc]
      rfl
    · exact cons_sublist_cons.mp hsub
  · obtain ⟨hm, hattached, hkept⟩ := wellOrdered_moveForward h.ordered hsplit
      (hconstants o mem_cons_self)
    refine ⟨⟨hm, front ++ [o], a :: (middle ++ back), l, hlonger, ?_,
      sublist_of_cons_sublist ho hsub, fun x hx ↦ hkept x (hrest x hx)⟩, hattached⟩
    rw [opsIn_hoist h.ordered.consistent hsplit, append_assoc]
    rfl

/-! ### The pass -/

lemma wellOrdered_mergeRegion (h : WellOrdered p) (hr : p.Attached r)
    (hok : (mergeRegion settings registry gated r).exec p = (.ok changed, q)) :
    WellOrdered q ∧ ∀ x, p.Attached x → q.Attached x := by
  obtain ⟨m, _, hmerge, hhoist, -⟩ := mergeRegion_ok hok
  obtain ⟨hm, hattached⟩ := forM_ok
    (I := fun pairs m ↦ InPlace r (mergeOf p (candidates settings registry gated p r)).kept pairs
    m ∧ ∀ x, p.Attached x → m.Attached x) (fun pair pairs m n hm hstep ↦ by
        obtain ⟨hn, hkept⟩ := hm.1.step hstep
        exact ⟨hn, fun x hx ↦ hkept x (hm.2 x hx)⟩)
    ⟨inPlace_mergeOf h hr settings registry gated, fun _ hx ↦ hx⟩ hmerge
  have hstart : LinedUp r (mergeOf p (candidates settings registry gated p r)).kept.zipIdx m :=
    ⟨hm.ordered, [], m.opsIn r, _, rfl, rfl, hm.listed, fun o ho ↦
    hm.constants o (mem_append_left _ ho)⟩
  have hlined := anyChange_ok (I := fun steps n ↦ LinedUp r steps n ∧
    ∀ x, p.Attached x → n.Attached x) (fun step steps l n _ hl hstep ↦ by
      obtain ⟨hn, hkept⟩ := hl.1.step hstep
      exact ⟨hn, fun x hx ↦ hkept x (hl.2 x hx)⟩) ⟨hstart, hattached⟩ hhoist
  exact ⟨hlined.1.ordered, hlined.2⟩

lemma wellOrdered_run (h : WellOrdered p)
    (hok : (run settings registry).exec p = (.ok changed, q)) : WellOrdered q := by
  rw [exec_run] at hok
  refine (anyChange_ok (I := fun rest m ↦ WellOrdered m ∧ ∀ r ∈ rest, m.Attached r)
    (fun r rest m n _ hm hstep ↦ ?_) ⟨h, fun r hr ↦ (mem_allRegions h.consistent).mp hr⟩ hok).1
  have hrest : ∀ x ∈ rest, m.Attached x := fun x hx ↦ hm.2 x (mem_cons_of_mem _ hx)
  rcases visit_ok hstep with ⟨-, -, rfl⟩ | ⟨-, hmerge⟩
  · exact ⟨hm.1, hrest⟩
  · obtain ⟨hn, hkept⟩ := wellOrdered_mergeRegion hm.1 (hm.2 r mem_cons_self) hmerge
    exact ⟨hn, fun x hx ↦ hkept x (hrest x hx)⟩

lemma keeps_reachable_run (settings : Settings) (registry : Registry) :
    Keeps Reachable (run settings registry) := by
  refine .bind .get fun p ↦ .anyChange (fun r ↦ .bind .get fun m ↦ ?_) _
  generalize (p.allOps.any (isCall p registry) && !settings.strictCalls) = gated
  generalize (if gated = true then calleeBodies p registry else []) = skipped
  split_ifs
  · exact .pure _
  · refine .bind .get fun n ↦ .bind (.forM (fun pair ↦ ?_) _) fun _ ↦
      .bind (.anyChange (fun step ↦ ?_) _) fun _ ↦ .pure _
    · exact .bind (.read _) fun old ↦ .bind (.read _) fun new ↦
        .bind (.reachable (.replaceUses old new) rfl) fun _ ↦
        .bind (.reachable (.replaceControl _ _) rfl) fun _ ↦ .reachable (.erase _) rfl
    · refine .bind (.read _) fun index ↦ ?_
      split_ifs
      · exact .pure _
      · exact .bind (.reachable (.move _ _ _) rfl) fun _ ↦ .pure _

end ConstantMerging

end TensorGraph
