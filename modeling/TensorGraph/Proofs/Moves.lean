import TensorGraph.Proofs.ControlEdits

/-!
Putting an operation somewhere. A new operation may stand in front of another if all that it refers
to is available there. An operation that refers to nothing may move forward in its region.
-/

namespace TensorGraph

open List Option

variable {p : Program} {a d o anchor x : OpId} {r : RegionId} {l : List OpId} {index : Nat}
  {β : Type} {front back : List OpId}

/-! ### Lists -/

lemma insertIdx_split (hanchor : l[index]? = some anchor) (o : OpId) :
    ∃ front back, l = front ++ anchor :: back ∧ front.length = index ∧
    l.insertIdx index o = front ++ o :: anchor :: back := by
  induction l generalizing index with
  | nil => cases hanchor
  | cons a rest ih =>
    cases index with
    | zero =>
      cases hanchor
      exact ⟨[], rest, rfl, rfl, rfl⟩
    | succ index =>
      rw [getElem?_cons_succ] at hanchor
      obtain ⟨front, back, hsplit, hlength, hinsert⟩ := ih hanchor
      refine ⟨a :: front, back, by rw [hsplit]; rfl, by rw [length_cons, hlength], ?_⟩
      rw [insertIdx_succ_cons, hinsert]
      rfl

lemma erase_insertIdx (ho : o ∉ l) (index : Nat) : (l.insertIdx index o).erase o = l := by
  induction l generalizing index with
  | nil => cases index <;> simp
  | cons a rest ih =>
    rw [mem_cons, not_or] at ho
    cases index with
    | zero => simp
    | succ index =>
      rw [insertIdx_succ_cons, erase_cons_tail (by simpa using Ne.symm ho.1), ih ho.2]

namespace Program

lemma before_of_split (front back : List OpId)
    (hsplit : p.opsIn r = front ++ back) (hd : d ∈ front) (ha : a ∈ back) : Before p r d a :=
  before_iff.mpr ⟨front, back, hsplit, hd, ha⟩

section Next

variable (h : p.Consistent) (hsplit : p.opsIn r = front ++ o :: anchor :: back)

include h hsplit

omit h in
lemma before_next : Before p r o anchor :=
  before_of_split (front ++ [o]) (anchor :: back) (by rw [hsplit]; simp) (by simp) mem_cons_self

lemma parentOf?_next : p.parentOf? o = some r ∧ p.parentOf? anchor = some r :=
  ⟨h.mem_opsIn.mp (before_next hsplit).mem_left, h.mem_opsIn.mp (before_next hsplit).mem_right⟩

lemma AncestorIn.exists_of_next {x : RegionId} (hanc : AncestorIn p x anchor a) :
    ∃ b, AncestorIn p x o b := by
  obtain ⟨ho, hanchor⟩ := parentOf?_next h hsplit
  rcases hanc with hparent | ⟨hparent, howner, habove⟩
  · cases hparent.symm.trans hanchor
    exact ⟨o, .here ho⟩
  · cases hparent.symm.trans hanchor
    exact ⟨a, .up ho howner habove⟩

lemma Sees.of_next (hd : d ≠ o) (hsees : Sees p anchor d) : Sees p o d := by
  obtain ⟨ho, hanchor⟩ := parentOf?_next h hsplit
  obtain ⟨x, a, hanc, hbefore⟩ := hsees
  rcases hanc with hparent | ⟨hparent, howner, habove⟩
  · obtain rfl := some.inj (hparent.symm.trans hanchor)
    refine ⟨x, o, .here ho, ?_⟩
    have hmem := hbefore.mem_left
    rw [hsplit, mem_append, mem_cons, mem_cons] at hmem
    rcases hmem with hfront | heq | rfl | hback
    · exact before_of_split front _ hsplit hfront mem_cons_self
    · exact absurd heq hd
    · exact absurd hbefore (Before.irrefl h)
    · have hafter : Before p x anchor d :=
        before_of_split (front ++ [o, anchor]) back (by rw [hsplit]; simp) (by simp) hback
      exact absurd (hbefore.trans h hafter) (Before.irrefl h)
  · cases hparent.symm.trans hanchor
    exact ⟨x, a, .up ho howner habove, hbefore⟩

end Next

lemma Sees.isSome_op? (h : p.Consistent) (hsees : Sees p o d) : (p.op? d).isSome := by
  obtain ⟨r, a, -, hbefore⟩ := hsees
  exact h.isSome_of_mem_opsIn hbefore.mem_left

/-! ### An operation in another place -/

section Leaf

variable {q : Program} (hf : Frame [o] p q) (hq : q.Consistent)

include hf hq

lemma Frame.available_of_next
    (hsplit : q.opsIn r = front ++ o :: anchor :: back) (hanchor : anchor ∈ q.allOps)
    (hargs : ∀ x, q.argsOf x = p.argsOf x) (hresults : ∀ d, d ≠ o → q.resultsOf d = p.resultsOf d)
    {v : ValueId} (hown : v ∉ p.resultsOf o) (hv : Available p anchor v) : Available q o v := by
  have hmoved : anchor ∉ [o] := by
    intro hmem
    obtain rfl := mem_singleton.mp hmem
    exact Before.irrefl hq (before_next hsplit)
  rcases hv with ⟨x, a, hanc, harg⟩ | ⟨d, hresult, hsees⟩
  · obtain ⟨hanc', -⟩ := hf.ancestorIn hq hmoved hanchor hanc
    obtain ⟨b, hb⟩ := hanc'.exists_of_next hq hsplit
    exact .inl ⟨x, b, hb, hargs x ▸ harg⟩
  · have hd : d ≠ o := by
      rintro rfl
      exact hown hresult
    have hsees' := hf.sees hq hmoved hanchor (fun hmem ↦ hd (mem_singleton.mp hmem)) hsees
    exact .inr ⟨d, hresults d hd ▸ hresult, hsees'.of_next hq hsplit hd⟩

/-- One operation without regions may get another place. What it refers to has to be available
there, and it has to be seen from wherever it is referred to. -/
theorem WellOrdered.of_leaf (h : WellOrdered p) (hargs : ∀ r, q.argsOf r = p.argsOf r)
    (hother : ∀ x, x ≠ o → q.operandsOf x = p.operandsOf x ∧ q.resultsOf x = p.resultsOf x ∧
    q.controlOf x = p.controlOf x) (hresults : p.resultsOf o ⊆ q.resultsOf o)
    (hoperands : ∀ v ∈ q.operandsOf o, Available q o v) (hcontrol : ∀ d ∈ q.controlOf o, Sees q o d)
    (huses : ∀ x ∈ q.allOps, x ≠ o → ∀ v ∈ p.resultsOf o, v ∈ p.operandsOf x → Sees q x o)
    (hwaits : ∀ x ∈ q.allOps, x ≠ o → o ∈ p.controlOf x → Sees q x o) : WellOrdered q := by
  have hp := h.consistent
  refine ⟨hq, ⟨fun x hx v hv ↦ ?_, fun x hx d hd ↦ ?_⟩,
    hf.terminated hq hp h.terminated (fun func _ ↦ by rw [hargs]) fun func hfunc t ht ↦ ?_⟩
  · by_cases hxo : x = o
    · subst hxo
      exact hoperands v hv
    · have hmoved : x ∉ [o] := fun hmem ↦ hxo (mem_singleton.mp hmem)
      rw [(hother x hxo).1] at hv
      by_cases hown : v ∈ p.resultsOf o
      · exact .inr ⟨o, hresults hown, huses x hx hxo v hown hv⟩
      · refine hf.available hq hmoved hx (fun r hr ↦ hargs r ▸ hr) (fun d hd ↦ ?_)
          (h.scoping.operands x (hf.mem_allOps hq hp hmoved hx) v hv)
        have hdo : d ≠ o := by
          rintro rfl
          exact hown hd
        exact ⟨fun hmem ↦ hdo (mem_singleton.mp hmem), fun _ ↦ (hother d hdo).2.1 ▸ hd⟩
  · by_cases hxo : x = o
    · subst hxo
      exact hcontrol d hd
    · have hmoved : x ∉ [o] := fun hmem ↦ hxo (mem_singleton.mp hmem)
      rw [(hother x hxo).2.2] at hd
      by_cases hdo : d = o
      · subst hdo
        exact hwaits x hx hxo hd
      · exact hf.sees hq hmoved hx (fun hmem ↦ hdo (mem_singleton.mp hmem))
          (h.scoping.control x (hf.mem_allOps hq hp hmoved hx) d hd)
  · have hbody : q.Attached func.body :=
      ⟨0, .root (hf.roots ▸ mem_cons_of_mem _ (mem_map_of_mem hfunc))⟩
    have hne : t ≠ o := by
      rintro rfl
      have hend := (terminator?_eq_some.mp (hf.last func.body hbody t ht)).2
      cases hend.symm.trans (hf.leaf t (mem_singleton.mpr rfl)).2
    rw [(hother t hne).1]

end Leaf

/-! ### New operations -/

section Insertion

variable (new : NewOp)

lemma argsOf_withOp (index : Nat) (x : RegionId) :
    (p.withOp r index new).argsOf x = p.argsOf x := by
  rw [argsOf, region?_withOp]
  exact argsOf_modifyRegion p r (fun _ ↦ by rfl) x

lemma ownerOf?_withOp (index : Nat) (x : RegionId) :
    (p.withOp r index new).ownerOf? x = p.ownerOf? x := by
  rw [ownerOf?, region?_withOp]
  exact ownerOf?_modifyRegion p r (fun _ ↦ by rfl) x

lemma opsIn_withOp (hr : (p.region? r).isSome) (index : Nat) (x : RegionId) :
    (p.withOp r index new).opsIn x = if x = r then
    (p.opsIn r).insertIdx index p.nextOp else p.opsIn x := by
  rw [opsIn, region?_withOp]
  exact opsIn_insertIdx p hr index p.nextOp x

variable (hp : p.Consistent) (hanchor : p.parentOf? anchor = some r)

include hp hanchor

lemma opsIn_withOp_split : ∃ front back, p.opsIn r = front ++ anchor :: back ∧
    (p.withOp r ((p.opsIn r).idxOf anchor) new).opsIn r = front ++ p.nextOp :: anchor :: back := by
  have hlisted := hp.mem_opsIn.mpr hanchor
  obtain ⟨front, back, hsplit, -, hinsert⟩ := insertIdx_split (getElem?_idxOf hlisted) p.nextOp
  refine ⟨front, back, hsplit, ?_⟩
  rw [opsIn_withOp new (isSome_region?_of_mem_opsIn hlisted), if_pos rfl, hinsert]

lemma Frame.withOp (hend : (p.nodeOf r new).isTerminator = false) :
    Frame [p.nextOp] p (p.withOp r ((p.opsIn r).idxOf anchor) new) := by
  have hop := hp.uses.free.op?_withOp r ((p.opsIn r).idxOf anchor) new
  have hdead := hp.uses.free.op?_nextOp
  have hr := isSome_region?_of_mem_opsIn (hp.mem_opsIn.mpr hanchor)
  have hops := opsIn_withOp new hr ((p.opsIn r).idxOf anchor)
  have hfresh : ∀ x, p.nextOp ∉ p.opsIn x := by
    intro x hmem
    obtain ⟨node, hnode, -⟩ := exists_op_of_parentOf? (hp.mem_opsIn.mp hmem)
    cases hdead.symm.trans hnode
  have hself := (hop p.nextOp).trans (if_pos rfl)
  refine .of_leaf (fun x ↦ ?_) (fun x hx ↦ ?_) ?_ ?_ (ownerOf?_withOp new _) (funcs_withOp ..)
    (graph_withOp ..) fun x t ht ↦ ?_
  · rw [hops, erase_of_not_mem (hfresh x)]
    split_ifs with hxr
    · rw [hxr, erase_insertIdx (hfresh r)]
    · exact erase_of_not_mem (hfresh x)
  · rw [Program.parentOf?, regionsOf, isEnd, hop, if_neg hx]
    exact ⟨rfl, rfl, rfl⟩
  · rw [regionsOf_eq hself, regions_nodeOf]
  · rw [isEnd, hself]
    exact hend
  · obtain ⟨hlast, hend'⟩ := terminator?_eq_some.mp ht
    have hne : t ≠ p.nextOp := by
      rintro rfl
      exact hfresh x (mem_of_getLast? hlast)
    refine terminator?_eq_some.mpr ⟨?_, ?_⟩
    · by_cases hxr : x = r
      · subst hxr
        obtain ⟨front, back, hsplit, hinsert⟩ := opsIn_withOp_split new hp hanchor
        rw [hsplit] at hlast
        rw [hinsert]
        simpa using hlast
      · rw [hops, if_neg hxr]
        exact hlast
    · rw [isEnd, hop, if_neg hne]
      exact hend'

lemma mem_allOps_withOp (hend : (p.nodeOf r new).isTerminator = false)
    (hq : (p.withOp r ((p.opsIn r).idxOf anchor) new).Consistent) (hx : x ∈ p.allOps) :
    x ∈ (p.withOp r ((p.opsIn r).idxOf anchor) new).allOps := by
  obtain ⟨home, -, hhome⟩ := (mem_allOps hp).mp hx
  obtain ⟨node, hnode, -⟩ := exists_op_of_parentOf? hhome
  have hne : x ≠ p.nextOp := by
    rintro rfl
    cases hp.uses.free.op?_nextOp.symm.trans hnode
  refine (Frame.withOp new hp hanchor hend).mem_allOps_of_live hq hp
    (fun hmem ↦ hne (mem_singleton.mp hmem)) hx ?_
  rw [hp.uses.free.op?_withOp, if_neg hne, hnode]
  rfl

end Insertion

lemma WellOrdered.withOp (h : WellOrdered p) (hanchor : anchor ∈ p.allOps)
    (hparent : p.parentOf? anchor = some r)
    {new : NewOp} (hq : (p.withOp r ((p.opsIn r).idxOf anchor) new).Consistent)
    (hend : (p.nodeOf r new).isTerminator = false)
    (hoperands : ∀ v ∈ new.operands, Available p anchor v)
    (hcontrol : ∀ d ∈ new.control, Sees p anchor d) :
    WellOrdered (p.withOp r ((p.opsIn r).idxOf anchor) new) := by
  have hp := h.consistent
  have hf := Frame.withOp new hp hparent hend
  have hop := hp.uses.free.op?_withOp r ((p.opsIn r).idxOf anchor) new
  have hdead := hp.uses.free.op?_nextOp
  obtain ⟨front, back, -, hsplit⟩ := opsIn_withOp_split new hp hparent
  have hself := (hop p.nextOp).trans (if_pos rfl)
  have hlive : ∀ x, (p.op? x).isSome → x ≠ p.nextOp := by
    intro x hx hxo
    rw [hxo, hdead] at hx
    cases hx
  have hne : anchor ≠ p.nextOp := hlive anchor (isSome_of_parentOf? hparent)
  have hmoved : anchor ∉ [p.nextOp] := fun hmem ↦ hne (mem_singleton.mp hmem)
  have hanchor' := mem_allOps_withOp new hp hparent hend hq hanchor
  have hnone : p.resultsOf p.nextOp = [] := by rw [resultsOf, hdead]; rfl
  have hother : ∀ x, x ≠ p.nextOp →
      (p.withOp r ((p.opsIn r).idxOf anchor) new).op? x = p.op? x := by
    intro x hx
    rw [hop, if_neg hx]
  refine h.of_leaf hf hq (argsOf_withOp new _) (fun x hx ↦ ?_) ?_ (fun v hv ↦ ?_) (fun d hd ↦ ?_)
    (fun x hx hxo v hv ↦ ?_) fun x hx hxo hwaits ↦ ?_
  · rw [operandsOf, resultsOf, controlOf, hother x hx]
    exact ⟨rfl, rfl, rfl⟩
  · rw [hnone]
    exact nil_subset _
  · rw [operandsOf_eq hself] at hv
    refine hf.available_of_next hq hsplit hanchor' (argsOf_withOp new _)
      (fun d hd ↦ ?_) ?_ (hoperands v hv)
    · rw [resultsOf, hother d hd, resultsOf]
    · rw [hnone]
      exact not_mem_nil
  · rw [controlOf_eq hself] at hd
    have hsees := hcontrol d (mem_eraseDups.mp hd)
    have hdo := hlive d (hsees.isSome_op? hp)
    exact (hf.sees hq hmoved hanchor' (fun hmem ↦ hdo (mem_singleton.mp hmem)) hsees).of_next
      hq hsplit hdo
  · rw [hnone] at hv
    cases hv
  · have hx' := hf.mem_allOps hq hp (fun hmem ↦ hxo (mem_singleton.mp hmem)) hx
    exact absurd rfl (hlive _ ((h.scoping.control x hx' _ hwaits).isSome_op? hp))

/-! ### Moves -/

section Attach

variable (p : Program) (o : OpId) (home r : RegionId) (index : Nat)

lemma op?_attach (x : OpId) : (p.movedOp o home r index).op? x =
    (p.op? x).map fun node ↦ if x = o then { node with parent := r } else node :=
  op?_modifyOp_eq_map _ o _ x

lemma argsOf_attach (x : RegionId) : (p.movedOp o home r index).argsOf x = p.argsOf x :=
  (argsOf_modifyRegion (p.detached o home) r (fun _ ↦ by rfl) x).trans
    (argsOf_modifyRegion p home (fun _ ↦ by rfl) x)

lemma ownerOf?_attach (x : RegionId) : (p.movedOp o home r index).ownerOf? x = p.ownerOf? x :=
  (ownerOf?_modifyRegion (p.detached o home) r (fun _ ↦ by rfl) x).trans
    (ownerOf?_modifyRegion p home (fun _ ↦ by rfl) x)

lemma parentOf?_attach (hx : x ≠ o) : (p.movedOp o home r index).parentOf? x = p.parentOf? x := by
  rw [parentOf?, op?_attach, Option.map_map, parentOf?]
  simp only [if_neg hx, Function.comp_def]

lemma views_attach (x : OpId) : (p.movedOp o home r index).operandsOf x = p.operandsOf x ∧
    (p.movedOp o home r index).resultsOf x = p.resultsOf x ∧
    (p.movedOp o home r index).controlOf x = p.controlOf x ∧
    (p.movedOp o home r index).regionsOf x = p.regionsOf x ∧
    (p.movedOp o home r index).isEnd x = p.isEnd x := by
  refine ⟨operandsOf_modifyOp _ o (fun _ ↦ by rfl) x, resultsOf_modifyOp _ o (fun _ ↦ by rfl) x,
    controlOf_modifyOp _ o (fun _ ↦ by rfl) x, regionsOf_modifyOp _ o (fun _ ↦ by rfl) x, ?_⟩
  rw [isEnd, op?_attach, Option.any_map, isEnd]
  refine congrArg (fun f ↦ (p.op? x).any f) (funext fun node ↦ ?_)
  by_cases hx : x = o
  · simp only [hx, if_true]
    rfl
  · simp only [if_neg hx]

variable {p o home r index}

lemma mem_opsIn_of_detached (hx : x ∈ (p.detached o home).opsIn r) : x ∈ p.opsIn r := by
  rw [opsIn_detached] at hx
  split_ifs at hx with heq
  · exact heq ▸ mem_of_mem_erase hx
  · exact hx

variable (hp : p.Consistent) (hparent : p.parentOf? o = some home)
  (hanchor : ((p.detached o home).opsIn r)[index]? = some anchor)

include hanchor

lemma opsIn_attach : ∃ front back, (p.detached o home).opsIn r = front ++ anchor :: back ∧
    front.length = index ∧ ∀ x, (p.movedOp o home r index).opsIn x =
      if x = r then front ++ o :: anchor :: back else (p.detached o home).opsIn x := by
  obtain ⟨front, back, hsplit, hlength, hinsert⟩ := insertIdx_split hanchor o
  refine ⟨front, back, hsplit, hlength, fun x ↦ ?_⟩
  rw [← hinsert]
  exact opsIn_insertIdx _ (isSome_region?_of_mem_opsIn (mem_of_getElem? hanchor)) index o x

include hp hparent

omit hanchor in
lemma not_mem_opsIn_detached (x : RegionId) : o ∉ (p.detached o home).opsIn x := by
  intro hmem
  rw [opsIn_detached] at hmem
  split_ifs at hmem with hx
  · exact (hp.placed.once home).not_mem_erase hmem
  · exact hx (some.inj ((hp.mem_opsIn.mp hmem).symm.trans hparent))

lemma Frame.attach (hleaf : p.regionsOf o = []) (hend : p.isEnd o = false) :
    Frame [o] p (p.movedOp o home r index) := by
  obtain ⟨front, back, hsplit, -, hops⟩ := opsIn_attach hanchor
  have hout := not_mem_opsIn_detached hp hparent
  have herase : ∀ x, (p.detached o home).opsIn x = (p.opsIn x).erase o := by
    intro x
    rw [opsIn_detached]
    split_ifs with hx
    · rw [hx]
    · refine (erase_of_not_mem fun hmem ↦ ?_).symm
      exact hx (some.inj ((hp.mem_opsIn.mp hmem).symm.trans hparent))
  refine .of_leaf (fun x ↦ ?_) (fun x hx ↦ ?_) ?_ ?_ (ownerOf?_attach p o home r index)
    rfl rfl fun x t ht ↦ ?_
  · rw [hops, ← herase]
    split_ifs with hx
    · rw [hx, hsplit]
      have hfront : o ∉ front := by
        intro hmem
        exact hout r (hsplit ▸ mem_append_left _ hmem)
      rw [erase_append_right _ hfront, erase_cons_head]
    · exact erase_of_not_mem (hout x)
  · obtain ⟨-, -, -, hregions, hend'⟩ := views_attach p o home r index x
    exact ⟨parentOf?_attach p o home r index hx, hregions, hend'⟩
  · rw [(views_attach p o home r index o).2.2.2.1]
    exact hleaf
  · rw [(views_attach p o home r index o).2.2.2.2]
    exact hend
  · obtain ⟨hlast, hend'⟩ := terminator?_eq_some.mp ht
    have hne : t ≠ o := by
      rintro rfl
      cases hend'.symm.trans hend
    have hlast' : ((p.detached o home).opsIn x).getLast? = some t := by
      rw [herase]
      exact getLast?_erase hlast hne
    refine terminator?_eq_some.mpr ⟨?_, ?_⟩
    · rw [hops]
      split_ifs with hx
      · rw [hx, hsplit] at hlast'
        simpa using hlast'
      · exact hlast'
    · rw [(views_attach p o home r index t).2.2.2.2]
      exact hend'

end Attach

section Hoist

variable (hp : p.Consistent)
  {middle : List OpId} (hsplit : p.opsIn r = front ++ anchor :: (middle ++ o :: back))

include hp hsplit

lemma opsIn_detached_of_split : (p.detached o r).opsIn r = front ++ anchor :: (middle ++ back) := by
  have hfront : o ∉ front ++ anchor :: middle := by
    intro hmem
    refine Before.irrefl hp
      (before_of_split (r := r) (front ++ anchor :: middle) (o :: back) ?_ hmem mem_cons_self)
    rw [hsplit]
    simp
  rw [opsIn_detached, if_pos rfl, hsplit, ← cons_append, ← append_assoc,
    erase_append_right _ hfront, erase_cons_head]
  simp

lemma opsIn_hoist : (p.movedOp o r r front.length).opsIn r = front ++ o :: anchor ::
    (middle ++ back) := by
  have hout := opsIn_detached_of_split hp hsplit
  have hanchor : ((p.detached o r).opsIn r)[front.length]? = some anchor := by
    rw [hout]
    simp
  obtain ⟨front', back', hsplit', hlength, hops⟩ := opsIn_attach hanchor
  rw [hout] at hsplit'
  obtain ⟨rfl, hback⟩ := append_inj hsplit' hlength.symm
  rw [hops, if_pos rfl, ← hback]

lemma before_hoist (hbefore : Before p r o a) : Before (p.movedOp o r r front.length) r o a := by
  have hops := opsIn_hoist hp hsplit
  refine before_of_split (front ++ [o]) (anchor :: (middle ++ back))
    (by rw [hops]; simp) (by simp) ?_
  have hmem := hbefore.mem_right
  rw [hsplit, mem_append] at hmem
  rcases hmem with hfront | hmem
  · have hahead : Before p r a o := before_of_split front _ hsplit hfront (by simp)
    exact absurd (hbefore.trans hp hahead) (Before.irrefl hp)
  · have hao : a ≠ o := by
      rintro rfl
      exact Before.irrefl hp hbefore
    simpa [hao] using hmem

end Hoist

lemma WellOrdered.hoist (h : WellOrdered p) {middle : List OpId}
    (hsplit : p.opsIn r = front ++ anchor :: (middle ++ o :: back)) (hleaf : p.regionsOf o = [])
    (hend : p.isEnd o = false) (hoperands : p.operandsOf o = []) (hcontrol : p.controlOf o = []) :
    WellOrdered (p.movedOp o r r front.length) := by
  have hp := h.consistent
  have hparent : p.parentOf? o = some r := hp.mem_opsIn.mp (by rw [hsplit]; simp)
  have hanchor : ((p.detached o r).opsIn r)[front.length]? = some anchor := by
    rw [opsIn_detached_of_split hp hsplit]
    simp
  have hf := Frame.attach hp hparent hanchor hleaf hend
  have hq : (p.movedOp o r r front.length).Consistent := hp.attach hparent
    (isSome_region?_of_mem_opsIn (hp.mem_opsIn.mpr hparent))
    (Nat.le_of_lt (List.getElem?_eq_some_iff.mp hanchor).1)
  have hsees : ∀ x ∈ (p.movedOp o r r front.length).allOps, x ≠ o →
      Sees p x o → Sees (p.movedOp o r r front.length) x o := by
    rintro x hx hxo ⟨r', a, hanc, hbefore⟩
    cases hparent.symm.trans (hp.mem_opsIn.mp hbefore.mem_left)
    have hmoved : x ∉ [o] := fun hmem ↦ hxo (mem_singleton.mp hmem)
    exact ⟨r, a, (hf.ancestorIn hq hmoved hx hanc).1, before_hoist hp hsplit hbefore⟩
  have hviews := views_attach p o r r front.length
  refine h.of_leaf hf hq (argsOf_attach p o r r front.length) (fun x _ ↦ ?_) ?_ (fun v hv ↦ ?_)
    (fun d hd ↦ ?_) (fun x hx hxo v hv huse ↦ ?_) fun x hx hxo hwaits ↦ ?_
  · exact ⟨(hviews x).1, (hviews x).2.1, (hviews x).2.2.1⟩
  · rw [(hviews o).2.1]
    exact Subset.refl _
  · rw [(hviews o).1, hoperands] at hv
    cases hv
  · rw [(hviews o).2.2.1, hcontrol] at hd
    cases hd
  · have hx' := hf.mem_allOps hq hp (fun hmem ↦ hxo (mem_singleton.mp hmem)) hx
    exact hsees x hx hxo ((h.scoping.operands x hx' v huse).sees_of_mem_results hp hv)
  · have hx' := hf.mem_allOps hq hp (fun hmem ↦ hxo (mem_singleton.mp hmem)) hx
    exact hsees x hx hxo (h.scoping.control x hx' o hwaits)

/-- An operation that nothing waits for may move into a region of an operation behind it, in front
of one that contains or precedes all uses of its results. -/
theorem WellOrdered.sink (h : WellOrdered p) {holder : OpId} {home branch : RegionId}
    (ho : o ∈ p.allOps) (hleaf : p.regionsOf o = []) (hend : p.isEnd o = false)
    (hcontrol : p.controlOf o = []) (hwaits : ∀ x, o ∉ p.controlOf x)
    (hbefore : Before p home o holder) (hbranch : branch ∈ p.regionsOf holder)
    (hplace : ((p.detached o home).opsIn branch)[index]? = some anchor)
    (husers : ∀ x ∈ p.allOps, ∀ v ∈ p.resultsOf o, v ∈ p.operandsOf x →
    AncestorIn p branch x anchor ∨ Sees p x anchor) :
    WellOrdered (p.movedOp o home branch index) := by
  have hp := h.consistent
  have hparent := hp.mem_opsIn.mp hbefore.mem_left
  have hanchor := mem_of_getElem? hplace
  have hlisted := mem_opsIn_of_detached hanchor
  have hmoved : anchor ∉ [o] := by
    intro hmem
    rw [mem_singleton.mp hmem] at hanchor
    exact not_mem_opsIn_detached hp hparent branch hanchor
  have hinside : AncestorIn p home anchor holder := .up (hp.mem_opsIn.mp hlisted)
    (hp.mem_regionsOf.mp hbranch) (.here (hp.mem_opsIn.mp hbefore.mem_right))
  have hf := Frame.attach hp hparent hplace hleaf hend
  have hq := hp.attach hparent (isSome_region?_of_mem_opsIn hlisted)
    (Nat.le_of_lt (List.getElem?_eq_some_iff.mp hplace).1)
  obtain ⟨front, back, -, -, hops⟩ := opsIn_attach hplace
  have hsplit := (hops branch).trans (if_pos rfl)
  have hseen : Sees (p.movedOp o home branch index) anchor o :=
    ⟨branch, anchor, .here (parentOf?_next hq hsplit).2, before_next hsplit⟩
  have hattached : anchor ∈ (p.movedOp o home branch index).allOps := by
    obtain ⟨home', hhome, hparent'⟩ := (mem_allOps hp).mp ho
    cases hparent.symm.trans hparent'
    obtain ⟨node, hnode, -⟩ := exists_op_of_parentOf? (hp.mem_opsIn.mp hlisted)
    refine hf.mem_allOps_of_live hq hp hmoved ((mem_allOps hp).mpr
      ⟨branch, hhome.nested hbefore.mem_right hbranch, hp.mem_opsIn.mp hlisted⟩) ?_
    rw [op?_attach, hnode]
    rfl
  have hviews := views_attach p o home branch index
  refine h.of_leaf hf hq (argsOf_attach p o home branch _) (fun x _ ↦ ?_) ?_ (fun v hv ↦ ?_)
    (fun d hd ↦ ?_) (fun x hx hxo v hv huse ↦ ?_) fun x _ _ hwait ↦ absurd hwait (hwaits x)
  · exact ⟨(hviews x).1, (hviews x).2.1, (hviews x).2.2.1⟩
  · rw [(hviews o).2.1]
    exact Subset.refl _
  · rw [(hviews o).1] at hv
    have havailable := h.scoping.operands o ho v hv
    refine hf.available_of_next hq hsplit hattached (argsOf_attach p o home branch _)
      (fun d _ ↦ (hviews d).2.1) (fun hown ↦ ?_) (.of_ancestor hinside ?_)
    · exact Sees.irrefl hp ho (havailable.sees_of_mem_results hp hown)
    · exact havailable.of_before hp hbefore
  · rw [(hviews o).2.2.1, hcontrol] at hd
    cases hd
  · have hxmoved : x ∉ [o] := fun hmem ↦ hxo (mem_singleton.mp hmem)
    rcases husers x (hf.mem_allOps hq hp hxmoved hx) v hv huse with hanc | hsees
    · exact .of_ancestor (hf.ancestorIn hq hxmoved hx hanc).1 hseen
    · exact (hf.sees hq hxmoved hx hmoved hsees).trans hq hseen

/-! ### All but the places -/

end Program

/-- The operation without its place. -/
def Operation.unplaced (node : Operation) : Operation :=
  { node with parent := ⟨0⟩ }

namespace Program

/-- The program without the places of its operations. -/
def unplaced (p : Program) : Program :=
  { p with
    slots := p.slots.map (Option.map Operation.unplaced)
    regions := p.regions.map fun region ↦ { region with ops := [] } }

def SameButPlaces (p q : Program) : Prop :=
  q.unplaced = p.unplaced

namespace SameButPlaces

lemma map_modify_of_eq {γ : Type} {f : β → β} {g : β → γ} (hf : ∀ b, g (f b) = g b) (l : List β)
    (i : Nat) : (l.modify i f).map g = l.map g := by
  ext1 j
  rw [getElem?_map, getElem?_modify, getElem?_map]
  cases l[j]? with
  | none => rfl
  | some b =>
    by_cases hij : i = j
    · simp [hij, hf]
    · simp [hij]

lemma attach (p : Program) (o : OpId) (home r : RegionId) (index : Nat) :
    SameButPlaces p (p.movedOp o home r index) := by
  have hregions : ∀ (s : Program) (x : RegionId) (f : List OpId → List OpId),
      (s.modifyRegion x fun region ↦ { region with ops := f region.ops }).unplaced =
      s.unplaced := by
    intro s x f
    refine congrArg (fun regions ↦ { s.unplaced with regions })
      (map_modify_of_eq (fun _ ↦ ?_) s.regions x.index)
    rfl
  have hops : ∀ s : Program,
      (s.modifyOp o fun node ↦ { node with parent := r }).unplaced = s.unplaced := by
    intro s
    refine congrArg (fun slots ↦ { s.unplaced with slots })
      (map_modify_of_eq (fun slot ↦ ?_) s.slots o.index)
    cases slot <;> rfl
  exact (hops _).trans ((hregions (p.detached o home) r (·.insertIdx index o)).trans
    (hregions p home (·.eraseIdx ((p.opsIn home).idxOf o))))

variable {q : Program} {node : Operation} (h : SameButPlaces p q)

include h

lemma view {f : Operation → β} (hf : ∀ node, f node.unplaced = f node) (o : OpId) :
    (q.op? o).map f = (p.op? o).map f := by
  have hunplaced : ∀ s : Program, (s.unplaced.op? o).map f = (s.op? o).map f := by
    intro s
    have hop : s.unplaced.op? o = (s.op? o).map Operation.unplaced := by
      rw [op?, op?, unplaced, getElem?_map]
      cases s.slots[o.index]? <;> rfl
    rw [hop, Option.map_map]
    exact congrArg (fun g ↦ (s.op? o).map g) (funext hf)
  rw [← hunplaced q, ← hunplaced p, h]

lemma regionView {f : Region → β} (hf : ∀ region, f { region with ops := [] } = f region)
    (r : RegionId) : (q.region? r).map f = (p.region? r).map f := by
  have hunplaced : ∀ s : Program, (s.unplaced.region? r).map f = (s.region? r).map f := by
    intro s
    rw [region?, region?, unplaced, getElem?_map, Option.map_map]
    exact congrArg (fun g ↦ s.regions[r.index]?.map g) (funext hf)
  rw [← hunplaced q, ← hunplaced p, h]

lemma op?_eq (ho : p.op? o = some node) : ∃ r, q.op? o = some { node with parent := r } := by
  have hsame := h.view (f := Operation.unplaced) (fun _ ↦ rfl) o
  rw [ho, map_some, map_eq_some_iff] at hsame
  obtain ⟨node', ho', hsame⟩ := hsame
  refine ⟨node'.parent, ho'.trans (congrArg some ?_)⟩
  unfold Operation.unplaced at hsame
  obtain ⟨hname, hkind, hattrs, hoperands, hresults, hcontrol, hform, -⟩ := Operation.mk.inj hsame
  cases node'
  simp only at hname hkind hattrs hoperands hresults hcontrol hform
  subst hname hkind hattrs hoperands hresults hcontrol hform
  rfl

lemma symm : SameButPlaces q p :=
  Eq.symm h

lemma regionsOf (o : OpId) : q.regionsOf o = p.regionsOf o := by
  rw [Program.regionsOf, h.view (f := Operation.regions) (fun _ ↦ rfl) o, Program.regionsOf]

lemma controlOf (o : OpId) : q.controlOf o = p.controlOf o := by
  rw [Program.controlOf, h.view (f := Operation.control) (fun _ ↦ rfl) o, Program.controlOf]

lemma argsOf (r : RegionId) : q.argsOf r = p.argsOf r := by
  rw [Program.argsOf, h.regionView (f := Region.args) (fun _ ↦ rfl) r, Program.argsOf]

lemma length_slots : q.slots.length = p.slots.length := by
  have hlength : ∀ s : Program, s.unplaced.slots.length = s.slots.length := fun s ↦ length_map _
  rw [← hlength q, h, hlength p]

lemma length_regions : q.regions.length = p.regions.length := by
  have hlength : ∀ s : Program, s.unplaced.regions.length = s.regions.length := fun s ↦ length_map _
  rw [← hlength q, h, hlength p]

lemma funcs : q.funcs = p.funcs := by
  change q.unplaced.funcs = p.unplaced.funcs
  rw [h]

lemma roots : q.roots = p.roots := by
  change q.unplaced.roots = p.unplaced.roots
  rw [h]

end SameButPlaces

end Program

end TensorGraph
