import Mathlib.Data.List.Find
import TensorGraph.Proofs.SparedOperations
import TensorGraph.Proofs.StructureChanges

/-!
Regions after the merging of constants. Of the constants of a region that may be merged and moved,
the pass keeps those that no earlier one equals, in front of the region and in the order they had.
-/

namespace TensorGraph

open List Option

variable {p q s : Program} {o b : OpId} {r : RegionId} {constants : List OpId} {changed : Bool}
  {registry : Registry} {x y : Operation} {e a : OpId} {settings : Settings}

namespace Program

lemma Consistent.op?_eq_none_of_not_listed (hp : p.Consistent) (ho : ∀ r, o ∉ p.opsIn r) :
    p.op? o = none := by
  cases hnode : p.op? o with
  | none => rfl
  | some node => exact absurd (hp.mem_opsIn.mpr (parentOf?_eq hnode)) (ho _)

lemma AttachedAt.of_owners (hp : p.Consistent) (hq : q.Consistent) (hroots : q.roots = p.roots)
    (howner : ∀ x a, p.parentOp? x = some a → q.parentOp? x = some a ∧
    q.parentOf? a = p.parentOf? a) {n : Nat} (hr : AttachedAt p n r) : AttachedAt q n r := by
  induction hr with
  | root hroot => exact .root (hroots ▸ hroot)
  | nested _ ho hinner ih =>
    obtain ⟨hinner', hparent⟩ := howner _ _ (hp.mem_regionsOf.mp hinner)
    exact .nested ih (hq.mem_opsIn.mpr (hparent.trans (hp.mem_opsIn.mp ho)))
      (hq.mem_regionsOf.mpr hinner')

end Program

namespace Edit

open Program

lemma eraseOp_leaf (hleaf : p.regionsOf o = []) (ho : p.parentOf? o = some r)
    (hok : (eraseOp o).exec p = (.ok ⟨⟩, q)) :
    (∀ x, q.opsIn x = if x = r then (p.opsIn r).erase o else p.opsIn x) ∧ ∀ x, x ≠ o →
    o ∉ p.controlOf x → q.controlOf x = p.controlOf x := by
  obtain ⟨-, m, home, hsame, hcontrol, hparent, rfl⟩ := eraseOp_ok hok
  obtain rfl : home = r := some.inj (hparent.symm.trans ((hsame.parentOf? o).trans ho))
  obtain ⟨hregion, hop⟩ := destroy_leaf (p := m.detached o home)
    ((hsame.sameTree.regions o).trans hleaf)
  refine ⟨fun x ↦ ?_, fun x hx hwaits ↦ ?_⟩
  · rw [opsIn, hregion]
    refine (opsIn_detached m o home x).trans ?_
    rw [hsame.sameTree.ops, hsame.sameTree.ops]
  · rw [controlOf_congr (hop x hx)]
    refine (hcontrol x).trans ?_
    rw [if_neg hwaits]

end Edit

namespace ConstantMerging

open Program Edit

/-! ### Which constants stay -/

section Comparing

variable {c : OpId}

lemma identical_iff {u v : ValueId} (ha : p.op? a = some x) (hb : p.op? b = some y)
    (hu : x.results = [u]) (hv : y.results = [v]) :
    identical p a b = true ↔ x.kind = y.kind ∧ x.attrs.equal y.attrs = true ∧
    p.typeOf? u = p.typeOf? v := by
  unfold identical
  rw [ha, hb]
  simp [hu, hv, typeOf?, and_assoc]

variable (ha : isCandidate settings p a = true) (hb : isCandidate settings p b = true)

include ha hb

lemma identical_comm : identical p a b = identical p b a := by
  obtain ⟨x, u, -, hx, -, hu, -⟩ := exists_of_isCandidate ha
  obtain ⟨y, v, -, hy, -, hv, -⟩ := exists_of_isCandidate hb
  rw [Bool.eq_iff_iff, identical_iff hx hy hu hv, identical_iff hy hx hv hu]
  constructor
  · rintro ⟨hkind, hattrs, htype⟩
    exact ⟨hkind.symm, AttributeSet.equal_symm hattrs, htype.symm⟩
  · rintro ⟨hkind, hattrs, htype⟩
    exact ⟨hkind.symm, AttributeSet.equal_symm hattrs, htype.symm⟩

lemma identical_trans (hc : isCandidate settings p c = true) (hab : identical p a b = true)
    (hbc : identical p b c = true) : identical p a c = true := by
  obtain ⟨x, u, -, hx, -, hu, -⟩ := exists_of_isCandidate ha
  obtain ⟨y, v, -, hy, -, hv, -⟩ := exists_of_isCandidate hb
  obtain ⟨z, w, -, hz, -, hw, -⟩ := exists_of_isCandidate hc
  rw [identical_iff hx hy hu hv] at hab
  rw [identical_iff hy hz hv hw] at hbc
  rw [identical_iff hx hz hu hw]
  exact ⟨hab.1.trans hbc.1, AttributeSet.equal_trans hab.2.1 hbc.2.1, hab.2.2.trans hbc.2.2⟩

end Comparing

section Plan

lemma mergeOf_concat (p : Program) (front : List OpId) (o : OpId) :
    (∃ k, k ∈ (mergeOf p front).kept ∧ identical p k o = true ∧
      (mergeOf p (front ++ [o])) = ⟨(mergeOf p front).kept, (mergeOf p front).merged ++ [(o, k)]⟩) ∨
    (∀ k ∈ (mergeOf p front).kept, identical p k o = false) ∧
    mergeOf p (front ++ [o]) = ⟨(mergeOf p front).kept ++ [o], (mergeOf p front).merged⟩ := by
  cases hfind : (mergeOf p front).kept.find? (identical p · o) with
  | some k =>
    have hidentical := find?_some hfind
    refine .inl ⟨k, mem_of_find?_eq_some hfind, hidentical, ?_⟩
    rw [mergeOf, foldl_concat, ← mergeOf, hfind]
  | none =>
    refine .inr ⟨fun k hk ↦ Bool.eq_false_iff.mpr (find?_eq_none.mp hfind k hk), ?_⟩
    rw [mergeOf, foldl_concat, ← mergeOf, hfind]

lemma pairwise_kept (p : Program) (constants : List OpId) :
    (mergeOf p constants).kept.Pairwise fun a b ↦ identical p a b = false := by
  induction constants using List.reverseRecOn with
  | nil => exact .nil
  | append_singleton front o ih =>
    rcases mergeOf_concat p front o with ⟨k, -, -, hmerge⟩ | ⟨hnone, hmerge⟩
    · rw [hmerge]
      exact ih
    · rw [hmerge]
      exact pairwise_append.mpr
        ⟨ih, pairwise_singleton _ _, fun k hk o' ho' ↦ mem_singleton.mp ho' ▸ hnone k hk⟩

lemma exists_kept (he : e ∈ constants) :
    ∃ k ∈ (mergeOf p constants).kept, k = e ∨ identical p k e = true := by
  have hsound := sound_mergeOf p constants
  rcases mem_append.mp (hsound.all.mem_iff.mpr he) with hkept | hmerged
  · exact ⟨e, hkept, .inl rfl⟩
  · obtain ⟨pair, hpair, rfl⟩ := mem_map.mp hmerged
    exact ⟨pair.2, (hsound.earlier pair hpair).1, .inr (identical_of_mem_merged hpair)⟩

lemma sublist_concat_cases {x : OpId} {front : List OpId} (h : [e, o].Sublist (front ++ [x])) :
    [e, o].Sublist front ∨ o = x ∧ e ∈ front := by
  obtain ⟨l₁, l₂, hsplit, hfront, hlast⟩ := sublist_append_iff.mp h
  rcases sublist_singleton.mp hlast with rfl | rfl
  · rw [append_nil] at hsplit
    exact .inl (hsplit ▸ hfront)
  · have hsplit' : [e] ++ [o] = l₁ ++ [x] := hsplit
    obtain ⟨rfl, hlast⟩ := append_inj' hsplit' rfl
    exact .inr ⟨singleton_inj.mp hlast, singleton_sublist.mp hfront⟩

lemma not_mem_kept_iff (hnodup : constants.Nodup)
    (hall : ∀ o ∈ constants, isCandidate settings p o = true) (ho : o ∈ constants) :
    o ∉ (mergeOf p constants).kept ↔ ∃ e, [e, o].Sublist constants ∧ identical p e o = true := by
  constructor
  · intro hgone
    have hsound := sound_mergeOf p constants
    obtain ⟨pair, hpair, rfl⟩ :=
      mem_map.mp ((mem_append.mp (hsound.all.mem_iff.mpr ho)).resolve_left hgone)
    exact ⟨pair.2, (hsound.earlier pair hpair).2, identical_of_mem_merged hpair⟩
  · rintro ⟨e, hsub, hidentical⟩
    clear ho
    induction constants using List.reverseRecOn with
    | nil => cases hsub
    | append_singleton front x ih =>
      have hsound := sound_mergeOf p front
      obtain ⟨hfront, -, hapart⟩ := nodup_append.mp hnodup
      have hkept : ∀ k ∈ (mergeOf p front).kept, k ∈ front := fun k hk ↦ hsound.kept.subset hk
      rcases sublist_concat_cases hsub with hsub | ⟨rfl, he⟩
      · have hin : o ∈ front := hsub.subset (by simp)
        have hold := ih hfront (fun o ho ↦ hall o (mem_append_left _ ho)) hsub
        rcases mergeOf_concat p front x with ⟨k, -, -, hmerge⟩ | ⟨-, hmerge⟩
        · rw [hmerge]
          exact hold
        · rw [hmerge, mem_append, mem_singleton, not_or]
          exact ⟨hold, hapart o hin x mem_cons_self⟩
      · -- The last constant equals one that stays, by way of the earlier one.
        obtain ⟨k, hk, hke⟩ := exists_kept (p := p) he
        have hko : identical p k o = true := by
          rcases hke with rfl | hke
          · exact hidentical
          · exact identical_trans (hall k (mem_append_left _ (hkept k hk)))
              (hall e (mem_append_left _ he)) (hall o (by simp)) hke hidentical
        rcases mergeOf_concat p front o with ⟨k', -, -, hmerge⟩ | ⟨hnone, -⟩
        · rw [hmerge]
          exact fun hmem ↦ hapart o (hkept o hmem) o mem_cons_self rfl
        · rw [hnone k hk] at hko
          cases hko

lemma mergeOf_of_pairwise (h : constants.Pairwise fun a b ↦ identical p a b = false)
    : mergeOf p constants = ⟨constants, []⟩ := by
  induction constants using List.reverseRecOn with
  | nil => rfl
  | append_singleton front o ih =>
    obtain ⟨hfront, -, hlast⟩ := pairwise_append.mp h
    rcases mergeOf_concat p front o with ⟨k, hk, hidentical, -⟩ | ⟨-, hmerge⟩
    · rw [ih hfront] at hk
      rw [hlast k hk o mem_cons_self] at hidentical
      cases hidentical
    · rw [hmerge, ih hfront]

lemma mergeOf_congr (h : ∀ a ∈ constants, ∀ b ∈ constants, identical q a b = identical p a b) :
    mergeOf q constants = mergeOf p constants := by
  induction constants using List.reverseRecOn with
  | nil => rfl
  | append_singleton front o ih =>
    have hfront := ih fun a ha b hb ↦ h a (mem_append_left _ ha) b (mem_append_left _ hb)
    have hfind : (mergeOf p front).kept.find? (identical q · o) =
        (mergeOf p front).kept.find? (identical p · o) := by
      refine find?_congr fun k hk ↦ h k ?_ o (by simp)
      exact mem_append_left _ ((sound_mergeOf p front).kept.subset hk)
    rw [mergeOf, foldl_concat, ← mergeOf, hfront, hfind]
    conv_rhs => rw [mergeOf, foldl_concat, ← mergeOf]

end Plan

/-! ### Merging and moving -/

/-- A merge takes the duplicate out of its region. What waited for nothing waits for nothing, and
what waited for something still does. -/
theorem mergeInto_lists (hp : p.Consistent)
    {duplicate kept : OpId} (hleaf : p.regionsOf duplicate = [])
    (hparent : p.parentOf? duplicate = some r) (hapart : duplicate ≠ kept)
    (hkept : p.controlOf kept = []) (hok : (mergeInto duplicate kept).exec p = (.ok ⟨⟩, q)) :
    (∀ x, q.opsIn x = if x = r then (p.opsIn r).erase duplicate else p.opsIn x) ∧
    ∀ x, x ≠ duplicate → (q.controlOf x = [] ↔ p.controlOf x = []) := by
  obtain ⟨old, new, m, n, -, -, hreplace, hcontrol, herase⟩ := mergeInto_ok hok
  have hpm : Redirects old new p m := redirects_of_replaceUses hp.uses hreplace
  have hmn := (replaceControl_ok hcontrol).1
  have hwaits :=
    mem_controlOf_replaceControl (by rw [hpm.control, hkept]; exact not_mem_nil) hcontrol
  have htree := hpm.tree.trans hmn.sameTree
  obtain ⟨hops, hcontrols⟩ := eraseOp_leaf ((htree.regions duplicate).trans hleaf)
    ((htree.parent duplicate).trans hparent) herase
  refine ⟨fun x ↦ ?_, fun x hx ↦ ?_⟩
  · rw [hops, htree.ops, htree.ops]
  · have hfree : duplicate ∉ n.controlOf x := by
      rw [hwaits]
      rintro ⟨e, -, he⟩
      split_ifs at he with hold'
      · exact hapart he.symm
      · exact hold' he
    rw [hcontrols x hx hfree]
    simp only [eq_nil_iff_forall_not_mem, hwaits, hpm.control]
    constructor
    · exact fun hnone e he ↦ hnone _ ⟨e, he, rfl⟩
    · rintro hnone d ⟨e, he, -⟩
      exact hnone e he

lemma op?_hoist {place : Nat} (hparent : p.parentOf? o = some r)
    (hok : (hoist r o place).exec p = (.ok changed, q)) (x : OpId) : q.op? x = p.op? x := by
  rcases hoist_cases hok with rfl | ⟨home, index, rfl⟩
  · rfl
  · rw [op?_attach]
    cases hnode : p.op? x with
    | none => rfl
    | some node =>
      rw [map_some]
      split_ifs with hx
      · subst hx
        rw [parentOf?_eq hnode] at hparent
        rw [← some.inj hparent]
      · rfl

/-! ### What stays the same throughout -/

def eligible (settings : Settings) (registry : Registry) (gated : Bool) (p : Program)
    (o : OpId) : Bool :=
  isCandidate settings p o && !(gated && feedsCall p registry o)

lemma mem_candidates {gated : Bool} : o ∈ candidates settings registry gated p r ↔
      o ∈ p.opsIn r ∧ eligible settings registry gated p o = true :=
  mem_filter

section Eligible

variable {gated : Bool} (ho : eligible settings registry gated p o = true)

include ho

lemma isCandidate_of_eligible : isCandidate settings p o = true :=
  (Bool.and_eq_true_iff.mp ho).1

lemma isConstant_of_eligible : IsConstant p o :=
  isConstant_of_isCandidate (isCandidate_of_eligible ho)

end Eligible

lemma bare_eligible (settings : Settings) (registry : Registry) (gated : Bool) (p : Program) :
    Bare (eligible settings registry gated p) p := fun _ ho ↦
  ⟨(isConstant_of_eligible ho).operands, (isConstant_of_eligible ho).leaf⟩

/-- A state of the pass. Only constants that may be merged and moved have been changed, and what
waits for something does so still. -/
structure Condensed (settings : Settings) (registry : Registry) (gated : Bool) (p s : Program) :
    Prop extends Underway (eligible settings registry gated p) p s where
  values : SameValues p s
  waits : ∀ o, (s.op? o).isSome → (s.controlOf o = [] ↔ p.controlOf o = [])

namespace Condensed

variable {gated : Bool}

lemma refl (hp : p.Consistent) : Condensed settings registry gated p p :=
  ⟨⟨hp, .refl _ p⟩, .refl p, fun _ _ ↦ Iff.rfl⟩

section Reading

variable (h : Condensed settings registry gated p s) (ho : (s.op? o).isSome)

include h ho

lemma isCandidate_eq : isCandidate settings s o = isCandidate settings p o := by
  obtain ⟨node, hnode⟩ := isSome_iff_exists.mp ho
  obtain ⟨before, hbefore, rfl⟩ := h.spares.exists_before hnode
  have hoperands : (s.operandsOf o).isEmpty = before.operands.isEmpty := by
    have hlength := (h.spares.operands o).length_eq
    rw [operandsOf_eq hbefore] at hlength
    rw [Bool.eq_iff_iff, isEmpty_iff_length_eq_zero, isEmpty_iff_length_eq_zero, hlength]
  have hcontrol : (s.controlOf o).isEmpty = before.control.isEmpty := by
    rw [Bool.eq_iff_iff, List.isEmpty_iff, List.isEmpty_iff, h.waits o ho, controlOf_eq hbefore]
  unfold isCandidate
  rw [hnode, hbefore]
  dsimp only
  rw [hoperands, hcontrol]
  rfl

lemma identical_eq (hb : (s.op? b).isSome) : identical s o b = identical p o b := by
  obtain ⟨x, hx⟩ := isSome_iff_exists.mp ho
  obtain ⟨y, hy⟩ := isSome_iff_exists.mp hb
  obtain ⟨before, hbefore, rfl⟩ := h.spares.exists_before hx
  obtain ⟨before', hbefore', rfl⟩ := h.spares.exists_before hy
  unfold identical
  rw [hx, hy, hbefore, hbefore']
  have htypes : ∀ v, (s.value? v).map (·.type) = (p.value? v).map (·.type) := h.values.typeOf?
  simp only [htypes]

end Reading

end Condensed

lemma feedsCall_of_eligible (hp : p.Consistent)
    (h : Underway (eligible settings registry true p) p s)
    (ho : eligible settings registry true p o = true) : feedsCall s registry o = false := by
  have hbare := bare_eligible settings registry true p
  by_contra hfeeds
  rw [Bool.not_eq_false, feedsCall_iff h.consistent] at hfeeds
  obtain ⟨x, hpath, hne, hcall⟩ := hfeeds
  rcases hpath.cases_head with rfl | ⟨b, hstep, hrest⟩
  · exact hne rfl
  obtain ⟨w, hw, hused⟩ := (leads_iff h.consistent).mp hstep
  have hmade : p.MadeByFree (eligible settings registry true p) w := by
    rw [outflow, if_neg fun hend ↦ ?_, append_nil] at hw
    · exact ⟨o, ho, h.spares.resultsOf_subset o hw⟩
    · cases (h.spares.isEnd_of_isEnd hend).symm.trans (isConstant_of_eligible ho).body
  obtain ⟨v, hv, hslot⟩ := exists_of_mem_right (h.spares.operands b) hused
  obtain ⟨o', ho', hresult⟩ : p.MadeByFree (eligible settings registry true p) v := by
    rcases hslot with rfl | ⟨hfrom, -⟩
    · exact hmade
    · exact hfrom
  have hstep' : Leads p o' b := (leads_iff hp).mpr ⟨v, mem_append_left _ hresult, hv⟩
  obtain ⟨hsame, hspared⟩ := reach_of_spares hp hbare h.spares h.consistent (x := x)
    (not_free_of_leads hp hbare hstep')
  have hreach := hsame.mp hrest
  have hx := hspared hreach
  have hne' : x ≠ o' := by
    rintro rfl
    cases hx.symm.trans ho'
  have hcall' : isCall p registry x = true :=
    (isCall_of_op? h.spares (h.spares.op?_of_not_free hx)).symm.trans hcall
  have hfeeds : feedsCall p registry o' = true :=
    (feedsCall_iff hp).mpr ⟨x, .head hstep' hreach, hne', hcall'⟩
  rw [eligible, hfeeds, Bool.and_true, Bool.not_true, Bool.and_false] at ho'
  cases ho'

section Region

variable {gated : Bool} (hp : p.Consistent) (h : Condensed settings registry gated p s)

include hp h

lemma Condensed.eligible_eq (ho : (s.op? o).isSome) :
    eligible settings registry gated s o = eligible settings registry gated p o := by
  rw [eligible, h.isCandidate_eq ho]
  by_cases hfree : eligible settings registry gated p o = true
  · rw [hfree, Bool.and_eq_true]
    refine ⟨isCandidate_of_eligible hfree, ?_⟩
    cases gated with
    | false => rfl
    | true => rw [feedsCall_of_eligible hp h.toUnderway hfree]; rfl
  · rw [Bool.not_eq_true] at hfree
    rw [feedsCall_of_spares hp (bare_eligible settings registry gated p)
      h.spares h.consistent hfree, eligible]

lemma Condensed.candidates_eq (hr : s.opsIn r = p.opsIn r) :
    candidates settings registry gated s r = candidates settings registry gated p r := by
  change (s.opsIn r).filter (eligible settings registry gated s) = _
  rw [hr]
  exact filter_congr fun o ho ↦ h.eligible_eq hp (h.consistent.isSome_of_mem_opsIn (hr ▸ ho))

lemma Condensed.mergeOf_eq (hr : s.opsIn r = p.opsIn r) :
    mergeOf s (candidates settings registry gated s r) = mergeOf p
    (candidates settings registry gated p r) := by
  rw [h.candidates_eq hp hr]
  refine mergeOf_congr fun a ha b hb ↦ h.identical_eq ?_ ?_
  · exact h.consistent.isSome_of_mem_opsIn (hr ▸ (mem_candidates.mp ha).1)
  · exact h.consistent.isSome_of_mem_opsIn (hr ▸ (mem_candidates.mp hb).1)

end Region

/-! ### One region -/

def arranged (settings : Settings) (registry : Registry) (gated : Bool)
    (p : Program) (r : RegionId) :
    List OpId :=
  (mergeOf p (candidates settings registry gated p r)).kept ++
    (p.opsIn r).filter (!eligible settings registry gated p ·)

structure Merging (settings : Settings) (registry : Registry) (gated : Bool) (p s : Program)
    (r : RegionId) (merge : Merge) (rest : List (OpId × OpId)) (k : Program) : Prop where
  condensed : Condensed settings registry gated p k
  ready : Ready merge.kept rest k
  others : ∀ x, x ≠ r → k.opsIn x = s.opsIn x
  listed : merge.kept.Sublist (k.opsIn r)
  left : ∀ pair ∈ rest, pair.1 ∈ k.opsIn r
  gone : ∀ o ∈ k.opsIn r, o ∈ merge.merged.map Prod.fst → o ∈ rest.map Prod.fst
  free : ∀ pair ∈ rest, ∀ o ∈ [pair.2, pair.1], eligible settings registry gated p o = true

section Merging

variable {gated : Bool} {k : Program} {merge : Merge}

lemma Merging.step {pair : OpId × OpId} {rest : List (OpId × OpId)} {l : Program}
    (h : Merging settings registry gated p s r merge (pair :: rest) k)
    (hok : (mergeInto pair.1 pair.2).exec k = (.ok ⟨⟩, l)) :
    Merging settings registry gated p s r merge rest l := by
  have hk := h.condensed.consistent
  have hkept := h.free pair mem_cons_self pair.2 (by simp)
  have hduplicate := h.free pair mem_cons_self pair.1 (by simp)
  obtain ⟨hready, hreads⟩ := h.ready.step hok
  obtain ⟨hmem, hmergeable⟩ := h.ready.mergeable pair mem_cons_self
  have hmiddle : (pair.1 :: (merge.kept ++ rest.map Prod.fst)).Nodup :=
    nodup_middle.mp h.ready.apart
  obtain ⟨hout, -⟩ := nodup_cons.mp hmiddle
  rw [mem_append, not_or] at hout
  have hparent := hk.mem_opsIn.mp (h.left pair mem_cons_self)
  have hlive : (k.op? pair.2).isSome := hk.isSome_of_mem_opsIn (h.listed.subset hmem)
  obtain ⟨hops, hcontrol⟩ := mergeInto_lists hk hmergeable.leaf hparent hmergeable.apart
    ((h.condensed.waits pair.2 hlive).mpr (isConstant_of_eligible hkept).control) hok
  have hnodup := hk.placed.once r
  have hdead : l.op? pair.1 = none := by
    refine hready.consistent.op?_eq_none_of_not_listed fun x hx ↦ ?_
    rw [hops] at hx
    split_ifs at hx with heq
    · exact hnodup.not_mem_erase hx
    · exact heq (some.inj ((hk.mem_opsIn.mp hx).symm.trans hparent))
  refine ⟨⟨?_, h.condensed.values.trans hreads.values, fun o ho ↦ ?_⟩, hready, fun x hx ↦ ?_, ?_,
    fun other hother ↦ ?_, fun o ho hmerged ↦ ?_, fun other hother ↦
    h.free other (mem_cons_of_mem _ hother)⟩
  · exact (underway_mergeInto (bare_eligible settings registry gated p) hduplicate hkept).of_ok
      h.condensed.toUnderway hok
  · have hne : o ≠ pair.1 := by
      rintro rfl
      rw [hdead] at ho
      cases ho
    obtain ⟨after, hafter⟩ := isSome_iff_exists.mp ho
    obtain ⟨before, hbefore, -⟩ := hreads.op? o after hafter
    rw [hcontrol o hne, h.condensed.waits o (isSome_of_eq_some hbefore)]
  · rw [hops, if_neg hx, h.others x hx]
  · rw [hops, if_pos rfl]
    exact sublist_erase h.listed hout.1
  · rw [hops, if_pos rfl]
    refine (mem_erase_of_ne ?_).mpr (h.left other (mem_cons_of_mem _ hother))
    rintro heq
    exact hout.2 (heq ▸ mem_map_of_mem hother)
  · rw [hops, if_pos rfl] at ho
    obtain ⟨hne, ho⟩ := hnodup.mem_erase_iff.mp ho
    exact (mem_cons.mp (h.gone o ho hmerged)).resolve_left hne

lemma merging_done (hp : p.Consistent) (h : Condensed settings registry gated p s)
    (hr : s.opsIn r = p.opsIn r)
    (hmerge : merge = mergeOf p (candidates settings registry gated p r))
    (hok : (merge.merged.forM fun (duplicate, kept) ↦ mergeInto duplicate kept).exec s =
    (.ok ⟨⟩, k)) : Merging settings registry gated p s r merge [] k := by
  have hsound := sound_mergeOf p (candidates settings registry gated p r)
  have hready := ready_mergeOf h.consistent settings registry gated r
  rw [h.mergeOf_eq hp hr] at hready
  rw [← hmerge] at hsound hready
  have hlisted : (candidates settings registry gated p r).Sublist (s.opsIn r) := hr ▸ filter_sublist
  refine forM_ok (I := Merging settings registry gated p s r merge)
    (fun pair rest k l hk hstep ↦ hk.step hstep)
    ⟨h, hready, fun _ _ ↦ rfl, hsound.kept.trans hlisted, fun pair hpair ↦ ?_, fun o _ ho ↦ ho,
    fun pair hpair o ho ↦ ?_⟩ hok
  · exact hlisted.subset ((hsound.earlier pair hpair).2.subset (by simp))
  · exact (mem_candidates.mp ((hsound.earlier pair hpair).2.subset ho)).2

lemma Merging.hoisted {moved : Bool} (hp : p.Consistent)
    (h : Merging settings registry gated p s r merge [] k)
    (hkept : ∀ o ∈ merge.kept, o ∈ candidates settings registry gated p r)
    (hok : (anyChange merge.kept.zipIdx fun (o, place) ↦ hoist r o place).exec k = (.ok moved, q)) :
    Condensed settings registry gated p q ∧ ∀ x, q.op? x = k.op? x := by
  have hhome : ∀ o ∈ merge.kept, k.parentOf? o = some r := fun o ho ↦
    h.condensed.consistent.mem_opsIn.mp (h.listed.subset ho)
  have hdone := anyChange_ok (I := fun steps n ↦ Condensed settings registry gated p n ∧ (∀ x,
    n.op? x = k.op? x) ∧ ∀ step ∈ steps, step.1 ∈ merge.kept) (fun step steps n l _ hn hstep ↦ ?_)
    ⟨h.condensed, fun _ ↦ rfl, fun step hstep ↦ fst_mem_of_mem_zipIdx hstep⟩ hok
  · exact ⟨hdone.1, hdone.2.1⟩
  · obtain ⟨hn, hsame, hsteps⟩ := hn
    have hstays := hsteps step mem_cons_self
    obtain ⟨hlisted, hfree⟩ := mem_candidates.mp (hkept step.1 hstays)
    have hop := op?_hoist ((parentOf?_congr (hsame step.1)).trans (hhome step.1 hstays)) hstep
    refine ⟨⟨?_, hn.values.trans (rereads_hoist hstep).values, fun x hx ↦ ?_⟩,
      fun x ↦ (hop x).trans (hsame x), fun other hother ↦ hsteps other (mem_cons_of_mem _ hother)⟩
    · exact (underway_hoist hfree (hp.mem_opsIn.mp hlisted) step.2).of_ok hn.toUnderway hstep
    · rw [controlOf_congr (hop x)]
      exact hn.waits x (hop x ▸ hx)

lemma Condensed.of_mergeRegion (hp : p.Consistent) (h : Condensed settings registry gated p s)
    (hr : s.opsIn r = p.opsIn r)
    (hok : (mergeRegion settings registry gated r).exec s = (.ok changed, q)) :
    Condensed settings registry gated p q ∧
    (∀ x, x ≠ r → q.opsIn x = s.opsIn x) ∧ q.opsIn r = arranged settings registry gated p r := by
  obtain ⟨m, moved, hmerge, hhoist, -⟩ := mergeRegion_ok hok
  rw [h.mergeOf_eq hp hr] at hmerge hhoist
  have hsound := sound_mergeOf p (candidates settings registry gated p r)
  have hm := merging_done hp h hr rfl hmerge
  obtain ⟨hq, hsame⟩ := hm.hoisted hp (fun o ho ↦ hsound.kept.subset ho) hhoist
  obtain ⟨⟨back, hback⟩, hothers, -⟩ :=
    reports_hoists hm.condensed.consistent [] rfl hm.listed hhoist
  rw [nil_append] at hback
  refine ⟨hq, fun x hx ↦ (hothers x hx).trans (hm.others x hx), ?_⟩
  -- Behind the constants that stay there is none that may be moved, so the order is that of the
  -- other operations.
  have hspared : ∀ o ∈ back, eligible settings registry gated p o = false := by
    intro o ho
    by_contra hfree
    have hparent : q.parentOf? o = some r :=
      hq.consistent.mem_opsIn.mp (hback ▸ mem_append_right _ ho)
    have hin : o ∈ m.opsIn r := hm.condensed.consistent.mem_opsIn.mpr
      ((parentOf?_congr (hsame o)).symm.trans hparent)
    have hcandidate : o ∈ candidates settings registry gated p r :=
      mem_candidates.mpr
        ⟨hp.mem_opsIn.mpr (hq.spares.parentOf?_of_parentOf? hparent), Bool.not_eq_false _ ▸ hfree⟩
    rcases mem_append.mp (hsound.all.mem_iff.mpr hcandidate) with hstays | hmerged
    · have hnodup := hq.consistent.placed.once r
      rw [← hback] at hnodup
      exact (nodup_append.mp hnodup).2.2 o hstays o ho rfl
    · cases hm.gone o hin hmerged
  have horder := hq.spares.order r
  rw [← hback, filter_append, filter_eq_nil_iff.mpr fun o ho ↦ by
      simp [(mem_candidates.mp (hsound.kept.subset ho)).2],
    nil_append, filter_eq_self.mpr fun o ho ↦ by simp [hspared o ho]] at horder
  rw [← hback, arranged, horder]

end Merging

/-! ### All regions -/

section

variable (settings : Settings) (registry : Registry) (p : Program)

/-- The pass leaves the region alone. -/
def isSkipped (r : RegionId) : Bool :=
  (skippedBodies settings registry p).any (p.isWithin r)

/-- The constants of a region that a run on the program looks at. -/
abbrev constantsIn (r : RegionId) : List OpId :=
  candidates settings registry (isGated settings registry p) p r

end

structure Finished (settings : Settings) (registry : Registry) (p q : Program) : Prop where
  condensed : Condensed settings registry (isGated settings registry p) p q
  arranged : ∀ r ∈ p.allRegions, isSkipped settings registry p r = false →
    q.opsIn r = arranged settings registry (isGated settings registry p) p r
  others : ∀ r, ¬ (r ∈ p.allRegions ∧ isSkipped settings registry p r = false) →
    q.opsIn r = p.opsIn r

section Run

lemma finished_run (hp : Reachable p) (hok : (run settings registry).exec p = (.ok changed, q)) :
    Finished settings registry p q := by
  rw [exec_run] at hok
  have hnodup := nodup_allRegions hp.consistent hp.nodup_roots
  -- A region is done if it is not among the ones to come.
  have hdone :=
    anyChange_ok (I := fun rest s ↦ Condensed settings registry (isGated settings registry p) p s ∧
    rest <:+ p.allRegions ∧ ∀ x, s.opsIn x =
      if x ∈ p.allRegions ∧ x ∉ rest ∧ isSkipped settings registry p x = false
      then arranged settings registry (isGated settings registry p) p x else p.opsIn x)
    (fun r rest s t here hs hstep ↦ ?_)
    ⟨.refl hp.consistent, suffix_refl _, fun x ↦ (if_neg fun h ↦ h.2.1 h.1).symm⟩ hok
  · obtain ⟨hcondensed, -, hlists⟩ := hdone
    refine ⟨hcondensed, fun r hr hskip ↦ ?_, fun r hr ↦ ?_⟩
    · rw [hlists, if_pos ⟨hr, not_mem_nil, hskip⟩]
    · rw [hlists, if_neg fun h ↦ hr ⟨h.1, h.2.2⟩]
  · obtain ⟨hs, hsuffix, hlists⟩ := hs
    have hrest : rest <:+ p.allRegions := (suffix_cons r rest).trans hsuffix
    have hmem : r ∈ p.allRegions := hsuffix.subset mem_cons_self
    have hfresh : r ∉ rest := (nodup_cons.mp (hsuffix.sublist.nodup hnodup)).1
    have hhere : s.opsIn r = p.opsIn r := by rw [hlists, if_neg fun h ↦ h.2.1 mem_cons_self]
    have hwithin : ∀ x, s.isWithin r x = p.isWithin r x :=
      isWithin_of_spares hp.consistent (bare_eligible settings registry _ p) hs.spares r
    have hother : ∀ x, x ≠ r → (x ∉ r :: rest ↔ x ∉ rest) := fun x hx ↦ by simp [hx]
    rcases visit_ok hstep with ⟨hskip, -, rfl⟩ | ⟨hskip, hmerge⟩
    · rw [funext hwithin] at hskip
      refine ⟨hs, hrest, fun x ↦ ?_⟩
      rcases eq_or_ne x r with rfl | hx
      · rw [hhere, if_neg fun h ↦ ?_]
        cases h.2.2.symm.trans hskip
      · rw [hlists]
        simp only [hother x hx]
    · rw [funext hwithin] at hskip
      obtain ⟨ht, hothers, harranged⟩ := hs.of_mergeRegion hp.consistent hhere hmerge
      refine ⟨ht, hrest, fun x ↦ ?_⟩
      rcases eq_or_ne x r with rfl | hx
      · rw [harranged, if_pos ⟨hmem, hfresh, hskip⟩]
      · rw [hothers x hx, hlists]
        simp only [hother x hx]

lemma calls_congr (registry : Registry) (hfuncs : s.funcs = q.funcs) (ha : q.op? a = some x)
    (hb : s.op? b = some y) (hkind : y.kind = x.kind) (hrefs : y.funcRefs = x.funcRefs) :
    isCall s registry b = isCall q registry a ∧
    calleesOf s registry b = calleesOf q registry a := by
  have hfunc : ∀ name, s.func? name = q.func? name := fun name ↦ by rw [func?, hfuncs, func?]
  have hcall : isCall s registry b = isCall q registry a := by
    unfold isCall
    rw [ha, hb]
    dsimp only
    rw [hkind, hrefs, hfunc]
  refine ⟨hcall, ?_⟩
  unfold calleesOf
  rw [ha, hb]
  dsimp only
  rw [hcall, hkind, hrefs, hfunc]

lemma funcRefs_of_isCandidate {node : Operation} (ho : isCandidate settings p o = true)
    (hnode : p.op? o = some node) : node.funcRefs = [] := by
  unfold isCandidate at ho
  rw [hnode] at ho
  simp only [Bool.and_eq_true, Operation.isPlain, beq_iff_eq] at ho
  rw [Operation.funcRefs, ho.1.2]

variable (hp : p.Consistent) (h : Finished settings registry p q)

include hp h

lemma Finished.attached_iff : q.Attached r ↔ p.Attached r := by
  have hspares := h.condensed.spares
  have howner : ∀ x a, p.parentOp? x = some a → q.parentOf? a = p.parentOf? a := fun x a hx ↦
    hspares.parentOf?_of_not_free (owner_not_free hp (bare_eligible settings registry _ p) hx)
  have hroots : q.roots = p.roots := by rw [roots, roots, hspares.graph, hspares.funcs]
  constructor
  · rintro ⟨n, hr⟩
    refine ⟨n, hr.of_owners h.condensed.consistent hp hroots.symm fun x a hx ↦ ?_⟩
    rw [hspares.parentOp?] at hx
    exact ⟨hx, (howner x a hx).symm⟩
  · rintro ⟨n, hr⟩
    exact ⟨n, hr.of_owners hp h.condensed.consistent hroots fun x a hx ↦
      ⟨(hspares.parentOp? x).trans hx, howner x a hx⟩⟩

lemma Finished.exists_twin (ho : p.parentOf? o = some r) (hgone : q.op? o = none) :
    r ∈ p.allRegions ∧ isSkipped settings registry p r = false ∧
    o ∈ constantsIn settings registry p r ∧ ∃ e ∈ q.opsIn r,
    [e, o].Sublist (constantsIn settings registry p r) ∧ identical p e o = true := by
  have hq := h.condensed.consistent
  have hlost : o ∉ q.opsIn r := fun hin ↦ by
    have hlive := hq.isSome_of_mem_opsIn hin
    rw [hgone] at hlive
    cases hlive
  have hvisited : r ∈ p.allRegions ∧ isSkipped settings registry p r = false := by
    by_contra hnot
    exact hlost (h.others r hnot ▸ hp.mem_opsIn.mpr ho)
  have hfree : eligible settings registry (isGated settings registry p) p o = true := by
    rcases h.condensed.spares.op? o with ⟨hfree, -⟩ | hsame
    · exact hfree
    · obtain ⟨node, hnode, -⟩ := exists_op_of_parentOf? ho
      rw [hgone, hnode] at hsame
      cases hsame
  have hcandidate := mem_candidates.mpr ⟨hp.mem_opsIn.mpr ho, hfree⟩
  have hlist := h.arranged r hvisited.1 hvisited.2
  rw [ConstantMerging.arranged] at hlist
  have hsound := sound_mergeOf p (constantsIn settings registry p r)
  have hmerged := (mem_append.mp (hsound.all.mem_iff.mpr hcandidate)).resolve_left fun hkept ↦
    hlost (hlist ▸ mem_append_left _ hkept)
  obtain ⟨pair, hpair, rfl⟩ := mem_map.mp hmerged
  obtain ⟨hkept, hbehind⟩ := hsound.earlier pair hpair
  exact ⟨hvisited.1, hvisited.2, hcandidate, pair.2, hlist ▸ mem_append_left _ hkept, hbehind,
    identical_of_mem_merged hpair⟩

lemma Finished.exists_call_iff {call : Bool} {callees : List String} :
    (∃ o ∈ q.allOps, isCall q registry o = call ∧ calleesOf q registry o = callees) ↔
    ∃ o ∈ p.allOps, isCall p registry o = call ∧ calleesOf p registry o = callees := by
  have hq := h.condensed.consistent
  have hspares := h.condensed.spares
  have hlive : ∀ {o node}, q.op? o = some node → ∃ before, p.op? o = some before ∧
      isCall q registry o = isCall p registry o ∧
      calleesOf q registry o = calleesOf p registry o := by
    intro o node hnode
    obtain ⟨before, hbefore, rfl⟩ := hspares.exists_before hnode
    exact ⟨before, hbefore, calls_congr registry hspares.funcs hbefore hnode rfl rfl⟩
  simp only [mem_allOps hp, mem_allOps hq, h.attached_iff hp]
  constructor
  · rintro ⟨o, ⟨r, hr, ho⟩, hcall, hcallees⟩
    obtain ⟨node, hnode, -⟩ := exists_op_of_parentOf? ho
    obtain ⟨-, -, hcall', hcallees'⟩ := hlive hnode
    exact ⟨o, ⟨r, hr, hspares.parentOf?_of_parentOf? ho⟩, hcall' ▸ hcall, hcallees' ▸ hcallees⟩
  · rintro ⟨o, ⟨r, hr, ho⟩, hcall, hcallees⟩
    cases hnode : q.op? o with
    | some node =>
      obtain ⟨before, hbefore, hcall', hcallees'⟩ := hlive hnode
      refine ⟨o, ⟨r, hr, ?_⟩, hcall'.trans hcall, hcallees'.trans hcallees⟩
      rw [parentOf?, hspares.op?_of_live (isSome_of_eq_some hnode), Option.map_map]
      exact ho
    | none =>
      -- What is gone was no other call than the constant it was merged into.
      obtain ⟨-, -, hcandidate, e, he, hbehind, hidentical⟩ := h.exists_twin hp ho hnode
      have hparent := hq.mem_opsIn.mp he
      obtain ⟨kept, hkept, -⟩ := exists_op_of_parentOf? hparent
      obtain ⟨twin, htwin, hcall', hcallees'⟩ := hlive hkept
      have hfirst := isCandidate_of_eligible (mem_candidates.mp hcandidate).2
      have hsecond :=
        isCandidate_of_eligible (mem_candidates.mp (hbehind.subset (a := e) (by simp))).2
      obtain ⟨x, u, -, hx, hkind, -⟩ := exists_of_isCandidate hfirst
      obtain ⟨y, v, -, hy, hkind', -⟩ := exists_of_isCandidate hsecond
      obtain ⟨hsame, hsame'⟩ := calls_congr registry rfl hx hy (hkind'.trans hkind.symm)
        ((funcRefs_of_isCandidate hsecond hy).trans (funcRefs_of_isCandidate hfirst hx).symm)
      exact ⟨e, ⟨r, hr, hparent⟩, hcall'.trans (hsame.trans hcall), hcallees'.trans
        (hsame'.trans hcallees)⟩

lemma Finished.isGated_eq : isGated settings registry q = isGated settings registry p := by
  unfold isGated
  congr 1
  rw [Bool.eq_iff_iff, List.any_eq_true, List.any_eq_true]
  constructor
  · rintro ⟨o, ho, hcall⟩
    obtain ⟨o', ho', hcall', -⟩ := (h.exists_call_iff hp).mp ⟨o, ho, hcall, rfl⟩
    exact ⟨o', ho', hcall'⟩
  · rintro ⟨o, ho, hcall⟩
    obtain ⟨o', ho', hcall', -⟩ := (h.exists_call_iff hp).mpr ⟨o, ho, hcall, rfl⟩
    exact ⟨o', ho', hcall'⟩

lemma Finished.calleeBodies_eq : calleeBodies q registry = calleeBodies p registry := by
  unfold calleeBodies
  dsimp only
  rw [h.condensed.spares.funcs]
  congr 1
  refine filter_congr fun func _ ↦ ?_
  rw [Bool.eq_iff_iff, contains_iff_mem, contains_iff_mem, mem_flatMap, mem_flatMap]
  constructor
  · rintro ⟨o, ho, hname⟩
    obtain ⟨o', ho', -, hcallees⟩ := (h.exists_call_iff hp).mp ⟨o, ho, rfl, rfl⟩
    exact ⟨o', ho', hcallees ▸ hname⟩
  · rintro ⟨o, ho, hname⟩
    obtain ⟨o', ho', -, hcallees⟩ := (h.exists_call_iff hp).mpr ⟨o, ho, rfl, rfl⟩
    exact ⟨o', ho', hcallees ▸ hname⟩

lemma Finished.skippedBodies_eq :
    skippedBodies settings registry q = skippedBodies settings registry p := by
  rw [skippedBodies, h.isGated_eq hp, h.calleeBodies_eq hp, skippedBodies]

lemma Finished.isSkipped_eq (r : RegionId) :
    isSkipped settings registry q r = isSkipped settings registry p r := by
  rw [isSkipped, h.skippedBodies_eq hp, funext
    (isWithin_of_spares hp (bare_eligible settings registry _ p) h.condensed.spares r), isSkipped]

/-! ### The second run -/

section Second

variable (hr : r ∈ p.allRegions) (hskip : isSkipped settings registry p r = false)

include hr hskip

lemma Finished.candidates_eq : constantsIn settings registry q r =
    (mergeOf p (constantsIn settings registry p r)).kept := by
  have hlist := h.arranged r hr hskip
  have hkept := (sound_mergeOf p (constantsIn settings registry p r)).kept
  rw [constantsIn, h.isGated_eq hp]
  change (q.opsIn r).filter (eligible settings registry _ q) = _
  rw [filter_congr fun o ho ↦
    h.condensed.eligible_eq hp (h.condensed.consistent.isSome_of_mem_opsIn ho), hlist,
    ConstantMerging.arranged, filter_append, List.filter_filter, filter_eq_self.mpr fun o ho ↦
    (mem_candidates.mp (hkept.subset ho)).2]
  simp

lemma Finished.pairwise_candidates :
    (constantsIn settings registry q r).Pairwise fun a b ↦ identical q a b = false := by
  have hq := h.condensed.consistent
  have hlive : ∀ o ∈ constantsIn settings registry q r, (q.op? o).isSome :=
    fun o ho ↦ hq.isSome_of_mem_opsIn (mem_candidates.mp ho).1
  rw [h.candidates_eq hp hr hskip] at hlive ⊢
  exact (pairwise_kept p _).imp_of_mem fun ha hb hab ↦
    (h.condensed.identical_eq (hlive _ ha) (hlive _ hb)).trans hab

lemma Finished.identical_eq_false (ha : a ∈ constantsIn settings registry q r)
    (hb : b ∈ constantsIn settings registry q r) (hne : a ≠ b) : identical q a b = false := by
  have hcandidate : ∀ o ∈ constantsIn settings registry q r,
      isCandidate settings q o = true := fun o ho ↦ isCandidate_of_eligible (mem_candidates.mp ho).2
  have hboth := (h.pairwise_candidates hp hr hskip).imp_of_mem
    (S := fun a b ↦ identical q a b = false ∧ identical q b a = false) fun ha hb hab ↦ ⟨hab,
    (identical_comm (hcandidate _ hb) (hcandidate _ ha)).trans hab⟩
  have : Std.Symm fun a b ↦ identical q a b = false ∧ identical q b a = false :=
    ⟨fun _ _ ↦ And.symm⟩
  exact (hboth.forall ha hb hne).1

lemma Finished.op?_eq_none (ho : o ∈ constantsIn settings registry p r)
    (hout : o ∉ (mergeOf p (constantsIn settings registry p r)).kept) : q.op? o = none := by
  obtain ⟨hlisted, hfree⟩ := mem_candidates.mp ho
  refine h.condensed.consistent.op?_eq_none_of_not_listed fun x hx ↦ ?_
  have hparent := h.condensed.spares.parentOf?_of_parentOf? (h.condensed.consistent.mem_opsIn.mp hx)
  obtain rfl := some.inj (hparent.symm.trans (hp.mem_opsIn.mp hlisted))
  rw [h.arranged x hr hskip, ConstantMerging.arranged, mem_append] at hx
  rcases hx with hkept | hother
  · exact hout hkept
  · simp [hfree] at hother

lemma Finished.mergeRegion_unchanged :
    (mergeRegion settings registry (isGated settings registry q) r).exec q = (.ok false, q) := by
  have hq := h.condensed.consistent
  have hlist := h.arranged r hr hskip
  rw [ConstantMerging.arranged, ← h.candidates_eq hp hr hskip] at hlist
  have hnodup := hq.placed.once r
  rw [hlist] at hnodup
  have hmerge := mergeOf_of_pairwise (h.pairwise_candidates hp hr hskip)
  have hhoists : (anyChange (constantsIn settings registry q r).zipIdx fun (o, place) ↦
      hoist r o place).exec q = (.ok false, q) := by
    refine anyChange_unchanged fun step hstep ↦ ?_
    have hplace := mem_zipIdx_iff_getElem?.mp hstep
    have hmem := mem_of_getElem? hplace
    have hposition : q.position step.1 = .ok step.2 := by
      refine position_eq_ok.mpr
        ⟨r, hq.mem_opsIn.mp (mem_candidates.mp hmem).1, (mem_candidates.mp hmem).1, ?_⟩
      rw [hlist, idxOf_append_of_mem hmem]
      obtain ⟨hlt, hget⟩ := List.getElem?_eq_some_iff.mp hplace
      rw [← hget]
      exact (nodup_append.mp hnodup).1.idxOf_getElem _ hlt
    change (hoist r step.1 step.2).exec q = _
    unfold hoist
    exact bind_read_ok.mpr ⟨step.2, hposition, by rw [if_pos rfl]; rfl⟩
  unfold mergeRegion
  rw [exec_get_bind]
  dsimp only
  rw [hmerge]
  change (anyChange _ _ >>= _).exec q = _
  rw [exec_bind_of_ok hhoists]
  rfl

end Second

lemma Finished.run_unchanged : (run settings registry).exec q = (.ok false, q) := by
  rw [exec_run]
  refine anyChange_unchanged fun r hr ↦ ?_
  have hr' : r ∈ p.allRegions :=
    (mem_allRegions hp).mpr ((h.attached_iff hp).mp ((mem_allRegions h.condensed.consistent).mp hr))
  unfold visit
  rw [exec_get_bind]
  split_ifs with hskip
  · rfl
  · exact h.mergeRegion_unchanged hp hr'
      ((h.isSkipped_eq hp r).symm.trans (Bool.not_eq_true _ ▸ hskip))

end Run

/-- What the pass leaves. In each region that it does not skip, the constants which may be merged
and moved come first, in the order they had. No two of them are equal, and everything else follows
in the order it had. Gone are exactly the constants that equal an earlier one of their region. A
second run does nothing. -/
theorem regions_condensed_of_run_ok {p q : Program} (hp : Reachable p)
    {settings : Settings} {registry : Registry} {changed : Bool}
    (hok : (run settings registry).exec p = (.ok changed, q)) :
    let constants := candidates settings registry (isGated settings registry p) p
    let isRepeated := fun r o ↦ o ∈ constants r ∧ ∃ e, [e, o].Sublist (constants r) ∧
      identical p e o = true
    (∀ r ∈ p.allRegions, isSkipped settings registry p r = false →
        ∃ kept, kept.Sublist (constants r) ∧ (∀ o ∈ constants r, o ∉ kept ↔ isRepeated r o) ∧
        q.opsIn r = kept ++ (p.opsIn r).filter (· ∉ constants r) ∧
        candidates settings registry (isGated settings registry q) q r = kept ∧
      ∀ a ∈ kept, ∀ b ∈ kept, a ≠ b → identical q a b = false) ∧ (∀ o, (p.op? o).isSome →
        (q.op? o = none ↔ ∃ r ∈ p.allRegions, isSkipped settings registry p r = false ∧
      isRepeated r o)) ∧
      (∀ r, (r ∈ q.allRegions ↔ r ∈ p.allRegions) ∧
      isSkipped settings registry q r = isSkipped settings registry p r) ∧
      (run settings registry).exec q = (.ok false, q) := by
  intro constants isRepeated
  have hc := hp.consistent
  have h := finished_run hp hok
  have hq := h.condensed.consistent
  have hnodup : ∀ r, (constants r).Nodup := fun r ↦ (hc.placed.once r).filter _
  have hcandidate : ∀ r, ∀ o ∈ constants r, isCandidate settings p o = true := fun r o ho ↦
    isCandidate_of_eligible (mem_candidates.mp ho).2
  have hkept : ∀ r, ∀ o ∈ constants r, o ∉ (mergeOf p (constants r)).kept ↔ isRepeated r o :=
    fun r o ho ↦ (not_mem_kept_iff (hnodup r) (hcandidate r) ho).trans (and_iff_right ho).symm
  refine ⟨fun r hr hskip ↦ ?_, fun o ho ↦ ⟨fun hgone ↦ ?_, ?_⟩, fun r ↦
    ⟨?_, h.isSkipped_eq hc r⟩, h.run_unchanged hc⟩
  · refine ⟨_, (sound_mergeOf p (constants r)).kept, hkept r, ?_, h.candidates_eq hc hr hskip,
      fun a ha b hb hne ↦ ?_⟩
    · rw [h.arranged r hr hskip, arranged]
      refine congrArg _ (filter_congr fun o ho ↦ ?_)
      rw [Bool.eq_iff_iff, Bool.not_eq_true', decide_eq_true_iff, mem_candidates,
        ← Bool.not_eq_true]
      simp [ho]
    · rw [← h.candidates_eq hc hr hskip] at ha hb
      exact h.identical_eq_false hc hr hskip ha hb hne
  · obtain ⟨node, hnode⟩ := isSome_iff_exists.mp ho
    obtain ⟨hr, hskip, hin, e, -, hbehind, hidentical⟩ :=
      h.exists_twin hc (parentOf?_eq hnode) hgone
    exact ⟨node.parent, hr, hskip, hin, e, hbehind, hidentical⟩
  · rintro ⟨r, hr, hskip, hrepeated⟩
    exact h.op?_eq_none hc hr hskip hrepeated.1 ((hkept r o hrepeated.1).mpr hrepeated)
  · rw [mem_allRegions hq, mem_allRegions hc, h.attached_iff hc]

/-- A graph with constants between other operations, two of them equal to the first, and a function
that is called and has two equal constants. -/
def scattered : Program :=
  .built [ .addFunction "f" [] [], .constant 1 1, .constant 1 1, .node 1 returnKind,
    .node 0 "f", .constant 0 1,
    .node 0 "user" [2], .constant 0 2, .constant 0 1, .node 0 "user" [3, 4], .constant 0 1]

/-- Of the four constants of the graph two stay, in front of the call and the users. -/
theorem regions_condensed_scattered :
    let q := ((run {} .empty).exec scattered).2
    Reachable scattered ∧ (run {} .empty).exec scattered = (.ok true, q) ∧
      isSkipped {} .empty scattered ⟨1⟩ = true ∧ isSkipped {} .empty scattered ⟨0⟩ = false ∧
      scattered.opsIn ⟨0⟩ = [⟨3⟩, ⟨4⟩, ⟨5⟩, ⟨6⟩, ⟨7⟩, ⟨8⟩, ⟨9⟩] ∧
      q.opsIn ⟨0⟩ = [⟨4⟩, ⟨6⟩, ⟨3⟩, ⟨5⟩, ⟨8⟩] ∧ q.opsIn ⟨1⟩ = [⟨0⟩, ⟨1⟩, ⟨2⟩] ∧ identical q ⟨4⟩
      ⟨6⟩ = false ∧ q.op? ⟨7⟩ = none ∧ (run {} .empty).exec q = (.ok false, q) := by
  intro q
  have hp : Reachable scattered := reachable_built _
  have hok : (run {} .empty).exec scattered = (.ok true, q) := exec_eq_ok (by decide +kernel)
  have hskip : isSkipped {} .empty scattered ⟨0⟩ = false := by decide +kernel
  obtain ⟨hregions, hgone, -, hagain⟩ := regions_condensed_of_run_ok hp hok
  obtain ⟨kept, -, -, -, hkept, hapart⟩ := hregions ⟨0⟩ (by decide +kernel) hskip
  have hlist : candidates {} .empty (isGated {} .empty q) q ⟨0⟩ = [⟨4⟩, ⟨6⟩] := by decide +kernel
  rw [hlist] at hkept
  subst hkept
  refine ⟨hp, hok, by decide +kernel,
    hskip, by decide +kernel, by decide +kernel, by decide +kernel, hapart ⟨4⟩ (by simp) ⟨6⟩
    (by simp) (by decide), ?_, hagain⟩
  refine (hgone ⟨7⟩ (by decide +kernel)).mpr
    ⟨⟨0⟩, by decide +kernel, hskip, by decide +kernel, ⟨4⟩, ?_, ?_⟩
  · decide +kernel
  · decide +kernel

end ConstantMerging

end TensorGraph
