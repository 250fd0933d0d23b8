import TensorGraph.Proofs.OrderedEdits

/-!
Edits of control dependencies, and erasure, which hands them on. A loop over the dependents of an
operation gives each of them its new dependencies and changes nothing else.
-/

namespace TensorGraph

open List Option

variable {p q m : Program} {o new old x : OpId} {l : List OpId} {g : OpId → List OpId → List OpId}
    {f : Program → OpId → Program}

namespace Program

structure SameButControl (p q : Program) : Prop where
  rest : q = { p with slots := q.slots }
  length : q.slots.length = p.slots.length
  op? : ∀ x, q.op? x = (p.op? x).map fun node ↦ { node with control := q.controlOf x }

namespace SameButControl

lemma refl (p : Program) : SameButControl p p := by
  refine ⟨rfl, rfl, fun x ↦ ?_⟩
  rcases hx : p.op? x with _ | node
  · rfl
  · rw [controlOf_eq hx]
    rfl

lemma trans (h : SameButControl p m) (h' : SameButControl m q) : SameButControl p q := by
  refine ⟨h'.rest.trans ?_, h'.length.trans h.length, fun x ↦ ?_⟩
  · rw [h.rest]
  · rw [h'.op?, h.op?, Option.map_map]
    rfl

lemma setControl (p : Program) (o : OpId) (deps : List OpId) :
    SameButControl p (p.modifyOp o fun node ↦ { node with control := deps }) := by
  refine ⟨rfl, length_modify .., fun x ↦ ?_⟩
  rcases hx : p.op? x with _ | node
  · rw [op?_modifyOp, hx, map_none, ite_self]
    rfl
  · have hop := op?_modifyOp_eq_map p o (fun node ↦ { node with control := deps }) x
    rw [hx] at hop
    rw [controlOf_eq hop, hop]
    by_cases hxo : x = o
    · simp [hxo]
    · simp [hxo]

variable (h : SameButControl p q)

include h

lemma region? (r : RegionId) : q.region? r = p.region? r := by
  rw [h.rest]
  rfl

lemma value? (v : ValueId) : q.value? v = p.value? v := by
  rw [h.rest]
  rfl

lemma operandsOf (x : OpId) : q.operandsOf x = p.operandsOf x := by
  rw [Program.operandsOf, h.op?, Option.map_map, Program.operandsOf]
  rfl

lemma resultsOf (x : OpId) : q.resultsOf x = p.resultsOf x := by
  rw [Program.resultsOf, h.op?, Option.map_map, Program.resultsOf]
  rfl

lemma argsOf (r : RegionId) : q.argsOf r = p.argsOf r := by
  rw [Program.argsOf, h.region?, Program.argsOf]

lemma usersOf (v : ValueId) : q.usersOf v = p.usersOf v := by
  rw [Program.usersOf, h.value?, Program.usersOf]

lemma parentOf? (x : OpId) : q.parentOf? x = p.parentOf? x := by
  rw [Program.parentOf?, h.op?, Option.map_map, Program.parentOf?]
  rfl

lemma consistent (hp : p.Consistent) : q.Consistent := by
  have hregions : ∀ x, q.regionsOf x = p.regionsOf x := by
    intro x
    rw [regionsOf, h.op?, Option.map_map, regionsOf]
    rfl
  have hfree : q.free = p.free := by rw [h.rest]
  have hfuncs : q.funcs = p.funcs := by rw [h.rest]
  have hgraph : q.graph = p.graph := by rw [h.rest]
  refine ⟨hp.uses.of_same hfree h.length (fun x hx ↦ ?_) h.operandsOf h.usersOf,
    hp.placed.of_same h.resultsOf (fun v ↦ ?_) h.argsOf (fun r ↦ ?_) hregions hfuncs hgraph
    (fun r ↦ ?_) h.parentOf?⟩
  · rw [h.op?, hx]
    rfl
  · rw [originOf?, h.value?, originOf?]
  · rw [ownerOf?, h.region?, ownerOf?]
  · rw [opsIn, h.region?, opsIn]

lemma sameTree : SameTree p q := by
  refine .of_ops h.op? (fun _ _ ↦ rfl) (fun _ _ ↦ rfl) (fun _ _ ↦ rfl)
    (fun r ↦ ?_) (fun r ↦ ?_) ?_ ?_
  · rw [opsIn, h.region?, opsIn]
  · rw [ownerOf?, h.region?, ownerOf?]
  · rw [h.rest]
  · rw [h.rest]

lemma wellOrdered (hp : WellOrdered p)
    (hcontrol : ∀ x ∈ p.allOps, ∀ d ∈ q.controlOf x, Sees p x d) : WellOrdered q := by
  refine hp.of_sameTree (h.consistent hp.consistent) h.sameTree
    (fun x hx v hv ↦ ⟨?_, fun r hr ↦ ?_, fun d hd ↦ ?_⟩) hcontrol (fun func _ ↦ by rw [h.argsOf])
    fun func _ t _ ↦ by rw [h.operandsOf]
  · exact hp.scoping.operands x hx v (h.operandsOf x ▸ hv)
  · rw [h.argsOf]
    exact hr
  · rw [h.resultsOf]
    exact hd

end SameButControl

lemma mem_controlDependents : x ∈ p.controlDependents o ↔ o ∈ p.controlOf x := by
  unfold controlDependents controlOf
  rw [mem_filter]
  rcases hx : p.op? x with _ | node
  · simp
  · have hlt := index_lt_of_isSome (isSome_of_eq_some hx)
    have hmem : x ∈ p.opIds := mem_map.mpr ⟨x.index, mem_range.mpr hlt, rfl⟩
    simp [hmem]

lemma isSome_of_mem_controlDependents (hx : x ∈ p.controlDependents o) : (p.op? x).isSome := by
  have hwaits := mem_controlDependents.mp hx
  rw [controlOf] at hwaits
  cases hnode : p.op? x with
  | none => simp [hnode] at hwaits
  | some node => rfl

lemma controlDependents_nodup (p : Program) (o : OpId) : (p.controlDependents o).Nodup := by
  refine Nodup.filter _ (Nodup.map ?_ nodup_range)
  exact fun _ _ heq ↦ congrArg OpId.index heq

end Program

namespace Edit

open Program

lemma setControls_ok (hl : l.Nodup)
    (hok : (l.forM fun x ↦ read (·.op x) >>= fun node ↦ setControl x (g x node.control)).exec p =
    (.ok ⟨⟩, q)) : SameButControl p q ∧ ∀ x, q.controlOf x = if x ∈ l then
    (g x (p.controlOf x)).eraseDups else p.controlOf x := by
  induction l generalizing p with
  | nil =>
    obtain rfl : p = q := (Prod.mk.inj hok).2
    exact ⟨.refl p, fun x ↦ by simp⟩
  | cons a rest ih =>
    rw [nodup_cons] at hl
    rw [exec_forM_cons, exec_bind_ok] at hok
    obtain ⟨_, m, hhead, htail⟩ := hok
    obtain ⟨node, ha, hhead⟩ := bind_read_ok.mp hhead
    rw [op_eq_ok] at ha
    obtain ⟨-, -, rfl⟩ := does_setControl.of_ok hhead
    obtain ⟨hsame, hcontrol⟩ := ih hl.2 htail
    refine ⟨(SameButControl.setControl p a _).trans hsame, fun x ↦ ?_⟩
    have hmiddle : (p.modifyOp a fun node_1 ↦
        { node_1 with control := (g a node.control).eraseDups }).controlOf x =
          if x = a then (g a node.control).eraseDups else p.controlOf x := by
      rw [controlOf, op?_modifyOp]
      split_ifs with hxa
      · rw [hxa, ha]
        rfl
      · rfl
    rw [hcontrol, hmiddle]
    by_cases hxa : x = a
    · rw [if_neg (hxa ▸ hl.1), if_pos hxa, if_pos (by simp [hxa]), hxa, controlOf_eq ha]
    · simp [hxa]

lemma controlOf_replaceControl (hok : (replaceControl old new).exec p = (.ok ⟨⟩, q)) :
    SameButControl p q ∧ ∀ x, q.controlOf x = if old ∈ p.controlOf x then
      (if x = new then ((p.controlOf x).map fun d ↦ if d = old then new else d).filter (· ≠ new)
        else (p.controlOf x).map fun d ↦ if d = old then new else d).eraseDups
          else p.controlOf x := by
  unfold replaceControl at hok
  rw [bind_read_ok] at hok
  obtain ⟨_, -, hok⟩ := hok
  rw [exec_get_bind] at hok
  obtain ⟨hsame, hcontrol⟩ := setControls_ok (g := fun x control ↦
    if x = new then (control.map fun d ↦ if d = old then new else d).filter (· ≠ new)
    else control.map fun d ↦ if d = old then new else d) (controlDependents_nodup p old) hok
  refine ⟨hsame, fun x ↦ ?_⟩
  rw [hcontrol]
  simp only [mem_controlDependents]

lemma replaceControl_ok (hok : (replaceControl old new).exec p = (.ok ⟨⟩, q)) :
    SameButControl p q ∧ ∀ x, ∀ d ∈ q.controlOf x, d ∈ p.controlOf x ∨ d = new ∧
    old ∈ p.controlOf x := by
  obtain ⟨hsame, hcontrol⟩ := controlOf_replaceControl hok
  refine ⟨hsame, fun x d hd ↦ ?_⟩
  rw [hcontrol] at hd
  split_ifs at hd with hdependent hnew
  · obtain ⟨hd, hne⟩ := mem_filter.mp (mem_eraseDups.mp hd)
    obtain ⟨e, he, rfl⟩ := mem_map.mp hd
    split_ifs at hne ⊢ with heq
    · simp at hne
    · exact .inl he
  · obtain ⟨e, he, rfl⟩ := mem_map.mp (mem_eraseDups.mp hd)
    split_ifs with heq
    · exact .inr ⟨rfl, heq ▸ he⟩
    · exact .inl he
  · exact .inl hd

lemma exists_replaced_iff (hold : old ∉ l) (new d : OpId) :
    (∃ e ∈ l, (if e = old then new else e) = d) ↔ d ∈ l := by
  have hother : ∀ e ∈ l, (if e = old then new else e) = e := by
    intro e he
    exact if_neg fun heq : e = old ↦ hold (heq ▸ he)
  constructor
  · rintro ⟨e, he, rfl⟩
    rwa [hother e he]
  · exact fun hd ↦ ⟨d, hd, hother d hd⟩

lemma mem_controlOf_replaceControl (hfree : old ∉ p.controlOf new)
    (hok : (replaceControl old new).exec p = (.ok ⟨⟩, q)) (x d : OpId) :
    d ∈ q.controlOf x ↔ ∃ e ∈ p.controlOf x, (if e = old then new else e) = d := by
  rw [(controlOf_replaceControl hok).2]
  by_cases hwaits : old ∈ p.controlOf x
  · have hx : x ≠ new := fun heq ↦ hfree (heq ▸ hwaits)
    rw [if_pos hwaits, if_neg hx, mem_eraseDups, List.mem_map]
  · rw [if_neg hwaits]
    exact (exists_replaced_iff hwaits new d).symm

lemma wellOrdered_replaceControl (h : WellOrdered p)
    (hok : (replaceControl old new).exec p = (.ok ⟨⟩, q))
    (hsees : ∀ x ∈ p.allOps, old ∈ p.controlOf x → Sees p x new) : WellOrdered q := by
  obtain ⟨hsame, hcontrol⟩ := replaceControl_ok hok
  refine hsame.wellOrdered h fun x hx d hd ↦ ?_
  rcases hcontrol x d hd with hd | ⟨rfl, hold⟩
  · exact h.scoping.control x hx d hd
  · exact hsees x hx hold

end Edit

/-! ### Destruction -/

namespace Program

/-- Operations have vanished at most, and regions have been emptied and cut off. -/
structure Prunes (p q : Program) : Prop where
  op? : ∀ x, q.op? x = p.op? x ∨ q.op? x = none
  region? : ∀ r, q.region? r = p.region? r ∨
    q.opsIn r = [] ∧ q.ownerOf? r = some .detached ∧ q.argsOf r = p.argsOf r
  funcs : q.funcs = p.funcs
  graph : q.graph = p.graph

namespace Prunes

lemma refl (p : Program) : Prunes p p :=
  ⟨fun _ ↦ .inl rfl, fun _ ↦ .inl rfl, rfl, rfl⟩

lemma argsOf (h : Prunes p q) (r : RegionId) : q.argsOf r = p.argsOf r := by
  rcases h.region? r with hsame | ⟨-, -, hargs⟩
  · rw [Program.argsOf, hsame, Program.argsOf]
  · exact hargs

lemma trans (h : Prunes p m) (h' : Prunes m q) : Prunes p q := by
  refine ⟨fun x ↦ ?_, fun r ↦ ?_, h'.funcs.trans h.funcs, h'.graph.trans h.graph⟩
  · rcases h'.op? x with hsame' | hgone
    · rw [hsame']
      exact h.op? x
    · exact .inr hgone
  · rcases h'.region? r with hsame' | ⟨hempty, howner, hargs⟩
    · rcases h.region? r with hsame | ⟨hempty, howner, hargs⟩
      · exact .inl (hsame'.trans hsame)
      · refine .inr ⟨?_, ?_, ?_⟩
        · rw [opsIn, hsame']
          exact hempty
        · rw [ownerOf?, hsame']
          exact howner
        · rw [Program.argsOf, hsame']
          exact hargs
    · exact .inr ⟨hempty, howner, hargs.trans (h.argsOf r)⟩

lemma foldl {α : Type} {f : Program → α → Program} (hf : ∀ p a, Prunes p (f p a)) (l : List α)
    (p : Program) : Prunes p (l.foldl f p) :=
  foldl_keeps (fun q a hq ↦ hq.trans (hf q a)) l (refl p)

lemma release (p : Program) (o : OpId) (l : List ValueId) :
    Prunes p (l.foldl (fun q v ↦ q.dropUse o v) (p.release o)) := by
  have hsame := SameButUsers.dropUses o l (p.release o)
  refine ⟨fun x ↦ ?_, fun r ↦ .inl (hsame.region? r), hsame.funcs, hsame.graph⟩
  rw [hsame.op?, op?_release]
  split_ifs
  · exact .inr rfl
  · exact .inl rfl

lemma dropRegion (hf : ∀ p o, Prunes p (f p o)) (l : List OpId) (p : Program) (r : RegionId) :
    Prunes p ((l.foldl f (p.setOps r [])).modifyRegion r
      fun region ↦ { region with owner := .detached }) := by
  have hfold := foldl hf l (p.setOps r [])
  generalize l.foldl f (p.setOps r []) = m at hfold
  have hargs : m.argsOf r = p.argsOf r :=
    (hfold.argsOf r).trans (argsOf_modifyRegion p r (fun _ ↦ by rfl) r)
  have hempty : m.opsIn r = [] := by
    rcases hfold.region? r with hsame | ⟨hempty, -⟩
    · rw [opsIn, hsame]
      exact (opsIn_setOps p r [] (.inr rfl) r).trans (if_pos rfl)
    · exact hempty
  refine ⟨fun x ↦ hfold.op? x, fun x ↦ ?_, hfold.funcs, hfold.graph⟩
  by_cases hx : x = r
  · subst hx
    rcases hregion : m.region? x with _ | region
    · rcases hfold.region? x with hsame | ⟨-, howner, -⟩
      · rw [hregion, setOps, region?_modifyRegion, if_pos rfl] at hsame
        rw [region?_modifyRegion, if_pos rfl, hregion, map_eq_none_iff.mp hsame.symm]
        exact .inl rfl
      · rw [ownerOf?, hregion] at howner
        cases howner
    · refine .inr ⟨?_, ?_, ?_⟩
      · rw [opsIn_modifyRegion m x fun _ ↦ by rfl]
        exact hempty
      · rw [ownerOf?, region?_modifyRegion, if_pos rfl, hregion]
        rfl
      · rw [argsOf_modifyRegion m x fun _ ↦ by rfl]
        exact hargs
  · have hother : (m.modifyRegion r fun region ↦ { region with owner := .detached }).region? x =
        m.region? x := by rw [region?_modifyRegion, if_neg hx]
    have hcleared : (p.setOps r []).region? x = p.region? x := by
      rw [setOps, region?_modifyRegion, if_neg hx]
    rw [hother, opsIn, ownerOf?, Program.argsOf, hother, ← hcleared]
    rcases hfold.region? x with hsame | ⟨hops, howner, hargs'⟩
    · exact .inl hsame
    · refine .inr ⟨hops, howner, hargs'.trans ?_⟩
      rw [Program.argsOf, hcleared, Program.argsOf]

lemma destroyToDepth (depth : Nat) (p : Program) (o : OpId) :
    Prunes p (destroyToDepth depth p o) := by
  induction depth generalizing p o with
  | zero => exact refl p
  | succ depth ih =>
    unfold Program.destroyToDepth
    split
    · exact refl p
    · next node _ =>
      exact (release p o node.operands).trans (foldl (fun m r ↦ dropRegion ih _ m r) _ _)

end Prunes

lemma getLast?_erase {t : OpId} (hlast : l.getLast? = some t) (hne : t ≠ o) :
    (l.erase o).getLast? = some t := by
  obtain ⟨front, rfl⟩ := getLast?_eq_some_iff.mp hlast
  have hsingle : [t].erase o = [t] := erase_of_not_mem (by simpa using Ne.symm hne)
  rw [erase_append, hsingle]
  split_ifs <;> simp

section Discard

variable {r : RegionId} (hp : p.Consistent) (hparent : p.parentOf? o = some r)
  (hq : (p.discarded o r).Consistent)

section

variable (p : Program) (o : OpId)

lemma op?_discard (r : RegionId) (x : OpId) :
    (p.discarded o r).op? x = p.op? x ∨ (p.discarded o r).op? x = none :=
  (Prunes.destroyToDepth _ (p.detached o r) o).op? x

lemma argsOf_discard (r x : RegionId) : (p.discarded o r).argsOf x = p.argsOf x :=
  ((Prunes.destroyToDepth _ (p.detached o r) o).argsOf x).trans
    (argsOf_modifyRegion p r (fun _ ↦ by rfl) x)

lemma region_discard (r x : RegionId) : ((p.discarded o r).ownerOf? x = p.ownerOf? x ∧
      (p.discarded o r).opsIn x = if x = r then (p.opsIn r).erase o else p.opsIn x) ∨
    ((p.discarded o r).opsIn x = [] ∧ (p.discarded o r).ownerOf? x = some .detached) := by
  rcases (Prunes.destroyToDepth _ (p.detached o r) o).region? x with hsame | ⟨hempty, howner, -⟩
  · refine .inl ⟨?_, ?_⟩
    · refine (congrArg (Option.map Region.owner) hsame).trans ?_
      exact ownerOf?_modifyRegion p r (fun _ ↦ by rfl) x
    · refine (congrArg (fun region ↦ (Option.map Region.ops region).getD []) hsame).trans ?_
      exact opsIn_detached p o r x
  · exact .inr ⟨hempty, howner⟩

end

include hp hparent hq

lemma op?_discard_self : (p.discarded o r).op? o = none := by
  rcases op?_discard p o r o with hsame | hgone
  · have hlisted : o ∈ (p.discarded o r).opsIn r :=
      hq.mem_opsIn.mpr ((congrArg (Option.map Operation.parent) hsame).trans hparent)
    rcases region_discard p o r r with ⟨-, hops⟩ | ⟨hempty, -⟩
    · rw [hops, if_pos rfl] at hlisted
      exact absurd hlisted (hp.placed.once r).not_mem_erase
    · rw [hempty] at hlisted
      cases hlisted
  · exact hgone

lemma Frame.discard (hend : p.isEnd o = false) : Frame [o] p (p.discarded o r) := by
  have hself := op?_discard_self hp hparent hq
  have hkept : ∀ x, ((p.discarded o r).op? x).isSome → (p.discarded o r).op? x = p.op? x := by
    intro x hlive
    rcases op?_discard p o r x with hsame | hgone
    · exact hsame
    · rw [hgone] at hlive
      cases hlive
  have hattached : ∀ x, (p.discarded o r).Attached x →
      (p.discarded o r).opsIn x = if x = r then (p.opsIn r).erase o else p.opsIn x := by
    rintro x ⟨n, hat⟩
    obtain ⟨owner, howner, hne⟩ := hat.ownerOf? hq
    rcases region_discard p o r x with ⟨-, hops⟩ | ⟨-, hdetached⟩
    · exact hops
    · exact absurd (some.inj (howner.symm.trans hdetached)) hne
  have hprunes := Prunes.destroyToDepth (p.detached o r).slots.length (p.detached o r) o
  refine ⟨hprunes.funcs, hprunes.graph, fun x _ hlive ↦ ?_, fun x hx ↦ ?_, fun x ↦ ?_,
    fun x hx d hd a ha hmem hbefore ↦ ?_, fun x hx t ht ↦ ?_⟩
  · rw [Program.parentOf?, regionsOf, isEnd, hkept x hlive]
    exact ⟨rfl, rfl, rfl⟩
  · rw [mem_singleton.mp hx, regionsOf, isEnd, hself]
    exact ⟨rfl, rfl⟩
  · rcases region_discard p o r x with ⟨howner, -⟩ | hcut
    · exact .inl (parentOp?_congr howner)
    · exact .inr hcut
  · rw [Before, hattached x hx]
    split_ifs with hxr
    · subst hxr
      simp only [mem_singleton] at hd ha
      exact sublist_erase hbefore (by simp [Ne.symm hd, Ne.symm ha])
    · exact hbefore
  · obtain ⟨hlast, hend'⟩ := terminator?_eq_some.mp ht
    have hne : t ≠ o := by
      rintro rfl
      cases hend'.symm.trans hend
    have hlast' : ((p.discarded o r).opsIn x).getLast? = some t := by
      rw [hattached x hx]
      split_ifs with hxr
      · subst hxr
        exact getLast?_erase hlast hne
      · exact hlast
    have hparent' := hq.mem_opsIn.mp (mem_of_getLast? hlast')
    refine terminator?_eq_some.mpr ⟨hlast', ?_⟩
    rw [isEnd, hkept t (isSome_of_parentOf? hparent')]
    exact hend'

end Discard

/-- An operation may go with all that is nested in it if no result of it is used and nothing waits
for it. -/
theorem WellOrdered.discard {r : RegionId} (h : WellOrdered p) (hparent : p.parentOf? o = some r)
    (hq : (p.discarded o r).Consistent) (hend : p.isEnd o = false)
    (hunused : ∀ v ∈ p.resultsOf o, p.usersOf v = []) (hfree : ∀ x, o ∉ p.controlOf x) :
    WellOrdered (p.discarded o r) := by
  have hp := h.consistent
  have hf := Frame.discard hp hparent hq hend
  have hself := op?_discard_self hp hparent hq
  have hsame : ∀ x ∈ (p.discarded o r).allOps, x ∉ [o] ∧ (p.discarded o r).op? x = p.op? x := by
    intro x hx
    obtain ⟨home, -, hhome⟩ := (mem_allOps hq).mp hx
    obtain ⟨node, hnode, -⟩ := exists_op_of_parentOf? hhome
    constructor
    · intro hmem
      rw [mem_singleton.mp hmem, hself] at hnode
      cases hnode
    · rcases op?_discard p o r x with hsame | hgone
      · exact hsame
      · cases hgone.symm.trans hnode
  refine ⟨hq, ⟨fun x hx v hv ↦ ?_, fun x hx d hd ↦ ?_⟩, hf.terminated hq hp h.terminated ?_ ?_⟩
  · obtain ⟨hmoved, hop⟩ := hsame x hx
    rw [operandsOf, hop] at hv
    refine hf.available hq hmoved hx (fun x' hx' ↦ ?_) (fun d hd ↦ ⟨?_, fun hlive ↦ ?_⟩)
      (h.scoping.operands x (hf.mem_allOps hq hp hmoved hx) v hv)
    · rw [argsOf_discard]
      exact hx'
    · intro hmem
      rw [mem_singleton.mp hmem] at hd
      exact hp.uses.not_mem_operandsOf (hunused v hd) x hv
    · rcases op?_discard p o r d with hsame | hgone
      · rw [resultsOf, hsame]
        exact hd
      · rw [hgone] at hlive
        cases hlive
  · obtain ⟨hmoved, hop⟩ := hsame x hx
    rw [controlOf, hop] at hd
    have hne : d ∉ [o] := by
      intro hmem
      rw [mem_singleton.mp hmem] at hd
      exact hfree x hd
    exact hf.sees hq hmoved hx hne (h.scoping.control x (hf.mem_allOps hq hp hmoved hx) d hd)
  · intro func _
    rw [argsOf_discard]
  · intro func hfunc t ht
    have ht' :=
      hf.last func.body ⟨0, .root (hf.roots ▸ mem_cons_of_mem _ (mem_map_of_mem hfunc))⟩ t ht
    obtain ⟨node, hnode, -⟩ := (any_eq_true _ _).mp (terminator?_eq_some.mp ht').2
    rcases op?_discard p o r t with hsame | hgone
    · rw [operandsOf, hsame, operandsOf]
    · cases hgone.symm.trans hnode

end Program

namespace Edit

open Program

lemma eraseOp_ok (hok : (eraseOp o).exec p = (.ok ⟨⟩, q)) :
    (∀ v ∈ p.resultsOf o, p.usersOf v = []) ∧ ∃ m r, SameButControl p m ∧
    (∀ x, m.controlOf x = if o ∈ p.controlOf x
        then ((p.controlOf x).filter (· ≠ o) ++ (p.controlOf o).filter (· ≠ x)).eraseDups
          else p.controlOf x) ∧
      m.parentOf? o = some r ∧ q = m.discarded o r := by
  unfold eraseOp at hok
  rcases ho : p.op? o with _ | node
  · rw [bind_readOp_none ho] at hok
    cases hok
  · rw [bind_readOp ho, exec_get_bind] at hok
    rcases hused : firstUsed p node with _ | index
    · rw [hused] at hok
      rw [exec_get_bind, exec_bind_ok] at hok
      obtain ⟨_, m, hloop, hok⟩ := hok
      obtain ⟨hsame, hcontrol⟩ := setControls_ok (g := fun x control ↦
        control.filter (· ≠ o) ++ node.control.filter (· ≠ x)) (controlDependents_nodup p o) hloop
      refine ⟨fun v hv ↦ ?_, m, ?_⟩
      · rw [resultsOf_eq ho] at hv
        have hnone := findIdx?_eq_none_iff.mp hused v hv
        rcases hvalue : p.value? v with _ | value
        · simp [usersOf, hvalue]
        · rw [usersOf_eq hvalue]
          simpa [hvalue, Value.hasUses] using hnone
      · obtain ⟨_, _, hdetach, hok⟩ := exec_bind_ok.mp hok
        obtain ⟨r, hparent, -, rfl⟩ := does_detach.of_ok hdetach
        refine ⟨r, hsame, fun x ↦ ?_, hparent, (Prod.mk.inj hok).2.symm⟩
        rw [hcontrol, controlOf_eq ho]
        exact if_congr mem_controlDependents rfl rfl
    · rw [hused] at hok
      cases hok

lemma wellOrdered_eraseOp (h : WellOrdered p) (ho : o ∈ p.allOps)
    (hend : p.isEnd o = false) (hok : (eraseOp o).exec p = (.ok ⟨⟩, q)) : WellOrdered q := by
  have hq := (keeps_eraseOp o).of_ok h.consistent hok
  obtain ⟨hunused, m, r, hsame, hcontrol, hparent, rfl⟩ := eraseOp_ok hok
  -- An attached operation does not wait for itself, so what it hands on does not name it.
  have hself : o ∉ p.controlOf o :=
    fun hmem ↦ Sees.irrefl h.consistent ho (h.scoping.control o ho o hmem)
  have hm : WellOrdered m := by
    refine hsame.wellOrdered h fun x hx d hd ↦ ?_
    rw [hcontrol] at hd
    split_ifs at hd with hwaits
    · rcases mem_append.mp (mem_eraseDups.mp hd) with hd | hd
      · exact h.scoping.control x hx d (mem_filter.mp hd).1
      · exact (h.scoping.control x hx o hwaits).trans h.consistent
          (h.scoping.control o ho d (mem_filter.mp hd).1)
    · exact h.scoping.control x hx d hd
  have hend' : m.isEnd o = false := by
    rw [isEnd, hsame.op?, Option.any_map]
    exact hend
  refine hm.discard hparent hq hend' (fun v hv ↦ ?_) fun x hmem ↦ ?_
  · rw [hsame.resultsOf] at hv
    rw [hsame.usersOf]
    exact hunused v hv
  · rw [hcontrol] at hmem
    split_ifs at hmem with hwaits
    · rcases mem_append.mp (mem_eraseDups.mp hmem) with hd | hd
      · simpa using (mem_filter.mp hd).2
      · exact hself (mem_filter.mp hd).1
    · exact hwaits hmem

end Edit

end TensorGraph
