import TensorGraph.Proofs.Placement

/-!
New operations, regions, arguments and functions, and values that move to new places when one before
them is removed. All of these leave the operations, values and regions of a program where they say
they are.
-/

namespace TensorGraph.Program

open List Option

variable {p q : Program} {r : RegionId} {v : ValueId} {loose : List OpId} {cut : List RegionId}
    {origin : Origin} {f : Func → Func}

/-! ### New entries -/

lemma lt_of_originOf? (h : p.originOf? v = some origin) : v.index < p.values.length := by
  by_contra hge
  simp [originOf?, value?, getElem?_eq_none (Nat.le_of_not_lt hge)] at h

lemma lt_of_typeOf? {type : TensorType} (h : p.typeOf? v = some type) :
    v.index < p.values.length := by
  by_contra hge
  simp [typeOf?, value?, getElem?_eq_none (Nat.le_of_not_lt hge)] at h

lemma values_length_pushOp (p : Program) (node : Operation) :
    (p.pushOp node).values = p.values := by
  unfold pushOp
  split <;> rfl

section WithOp

variable (r : RegionId) (index : Nat) (new : NewOp)

lemma region?_withOp (x : RegionId) :
    (p.withOp r index new).region? x = (p.modifyRegion r fun region ↦
        { region with ops := region.ops.insertIdx index p.nextOp }).region? x := by
  have hsame := p.sameButUsers_recordUses r new
  have hregion : ∀ x, (p.pushNode r new).region? x = p.region? x := fun x ↦ by
    rw [pushNode, pushResults_eq]
    exact region?_pushOp p _ x
  unfold withOp
  rw [region?_modifyRegion, region?_modifyRegion, hsame.region?, hregion]

lemma originOf?_withOp (v : ValueId) : (p.withOp r index new).originOf? v =
      if v.index < p.values.length then p.originOf? v
      else new.resultTypes[v.index - p.values.length]?.map fun _ ↦
        .result p.nextOp (v.index - p.values.length) := by
  have hsame := p.sameButUsers_recordUses r new
  refine (hsame.origins v).trans ?_
  rw [originOf?, value?_pushResults, values_length_pushOp, value?_pushOp]
  split_ifs with hlt
  · rfl
  · rw [Option.map_map]
    rfl

lemma funcs_withOp : (p.withOp r index new).funcs = p.funcs := by
  have hsame := p.sameButUsers_recordUses r new
  refine hsame.funcs.trans ?_
  rw [pushNode, pushResults_eq]
  unfold pushOp
  split <;> rfl

lemma graph_withOp : (p.withOp r index new).graph = p.graph := by
  have hsame := p.sameButUsers_recordUses r new
  refine hsame.graph.trans ?_
  rw [pushNode, pushResults_eq]
  unfold pushOp
  split <;> rfl

lemma regions_nodeOf : (p.nodeOf r new).regions = [] := by
  unfold nodeOf Operation.regions
  dsimp only
  split_ifs <;> rfl

end WithOp

lemma Placed.withOp (h : Placed [] cut p) (hfree : FreeHandles p) (hr : (p.region? r).isSome)
    {index : Nat} (hindex : index ≤ (p.opsIn r).length) (new : NewOp) :
    Placed [] cut (p.withOp r index new) := by
  have hop := hfree.op?_withOp r index new
  have hdead := hfree.op?_nextOp
  have hregion := region?_withOp (p := p) r index new
  have hops : ∀ x, (p.withOp r index new).opsIn x =
      if x = r then (p.opsIn r).insertIdx index p.nextOp else p.opsIn x := fun x ↦ by
    rw [← opsIn_insertIdx p hr, opsIn, hregion, opsIn]
  have hargs : ∀ x, (p.withOp r index new).argsOf x = p.argsOf x := fun x ↦ by
    rw [argsOf, hregion]
    exact argsOf_modifyRegion p r (fun _ ↦ by rfl) x
  have howner : ∀ x, (p.withOp r index new).ownerOf? x = p.ownerOf? x := fun x ↦ by
    rw [ownerOf?, hregion]
    exact ownerOf?_modifyRegion p r (fun _ ↦ by rfl) x
  have horigin : ∀ v origin, p.originOf? v = some origin →
      (p.withOp r index new).originOf? v = some origin := fun v origin hv ↦ by
    rw [originOf?_withOp, if_pos (lt_of_originOf? hv), hv]
  have hparent : ∀ x, (p.withOp r index new).parentOf? x =
      if x = p.nextOp then some r else p.parentOf? x := fun x ↦ by
    rw [parentOf?, hop]
    split_ifs <;> rfl
  have hfresh : ∀ x, p.nextOp ∉ p.opsIn x := fun x hmem ↦ by
    have := ((h.listed x p.nextOp).mp hmem).1
    simp [parentOf?, hdead] at this
  exact {
    listed := fun x y ↦ by
      rw [hops, hparent]
      split_ifs with hx hy hy
      · subst hx hy
        simp [mem_insertIdx hindex]
      · subst hx
        rw [mem_insertIdx hindex, h.listed]
        simp [hy]
      · subst hy
        simpa [hfresh x] using fun heq ↦ hx heq.symm
      · exact h.listed x y
    once := fun x ↦ by
      rw [hops]
      split_ifs
      · rw [(perm_insertIdx _ _ hindex).nodup_iff, nodup_cons]
        exact ⟨hfresh r, h.once r⟩
      · exact h.once x
    results := fun x i v hv ↦ by
      rw [resultsOf, hop] at hv
      split_ifs at hv with hx
      · subst hx
        simp only [map_some, getD_some, nodeOf, getElem?_map, map_eq_some_iff] at hv
        obtain ⟨j, hj, rfl⟩ := hv
        obtain ⟨hlt, rfl⟩ := List.getElem?_eq_some_iff.mp hj
        rw [length_range] at hlt
        have hnew : ¬ p.values.length + i < p.values.length := by omega
        rw [originOf?_withOp, getElem_range, if_neg hnew]
        simp [hlt]
      · exact horigin v _ (h.results x i v hv)
    args := fun x i v hv ↦ by
      rw [hargs] at hv
      exact horigin v _ (h.args x i v hv)
    owned := fun x y ↦ by
      rw [howner, ← h.owned, regionsOf, hop]
      split_ifs with hy
      · subst hy
        simp [regions_nodeOf, regionsOf, hdead]
      · rfl
    ownedOnce := fun y ↦ by
      rw [regionsOf, hop]
      split_ifs with hy
      · simp [regions_nodeOf]
      · exact h.ownedOnce y
    names := by rw [funcs_withOp]; exact h.names
    graph := by rw [graph_withOp, howner]; exact h.graph
    bodies := fun func hfunc ↦ by
      rw [funcs_withOp] at hfunc
      rw [howner]
      exact h.bodies func hfunc
    cutOwner := fun x hx ↦ by rw [howner]; exact h.cutOwner x hx }

lemma ownerOf?_pushRegion (p : Program) (owner : Owner) (execution : Execution) (x : RegionId) :
    (p.pushRegion owner execution).ownerOf? x = if x =
    p.nextRegion then some owner else p.ownerOf? x := by
  unfold ownerOf?
  rw [region?_pushRegion]
  split_ifs <;> rfl

lemma ownerOf?_nextRegion (p : Program) : p.ownerOf? p.nextRegion = none := by
  rw [ownerOf?, region?_nextRegion]
  rfl

section

variable (p : Program) (owner : Owner) (execution : Execution)

lemma opsIn_pushRegion (x : RegionId) : (p.pushRegion owner execution).opsIn x = p.opsIn x := by
  unfold opsIn
  rw [region?_pushRegion]
  split_ifs with hx
  · rw [hx, region?_nextRegion]
    rfl
  · rfl

lemma argsOf_pushRegion (x : RegionId) : (p.pushRegion owner execution).argsOf x = p.argsOf x := by
  unfold argsOf
  rw [region?_pushRegion]
  split_ifs with hx
  · rw [hx, region?_nextRegion]
    rfl
  · rfl

end

lemma Placed.withRegion (h : Placed loose [] p) {o : OpId} (ho : (p.op? o).isSome)
    (execution : Execution) : Placed loose [] (p.withRegion o execution) := by
  obtain ⟨node, hnode⟩ := isSome_iff_exists.mp ho
  have hregions : ∀ x, (p.withRegion o execution).regionsOf x =
      if x = o then p.regionsOf o ++ [p.nextRegion] else p.regionsOf x := fun x ↦ by
    have hop : (p.withRegion o execution).op? x = if x = o then (p.op? x).map fun node ↦
        { node with form := .nested (node.regions ++ [p.nextRegion]) } else p.op? x :=
      op?_modifyOp _ o _ x
    rw [regionsOf, hop]
    split_ifs with hx
    · rw [hx, hnode, regionsOf_eq hnode]
      rfl
    · rfl
  have howner : ∀ x, (p.withRegion o execution).ownerOf? x =
      if x = p.nextRegion then some (.op o) else p.ownerOf? x :=
    ownerOf?_pushRegion p (.op o) execution
  have hnew : ∀ x owner, p.ownerOf? x = some owner →
      (p.withRegion o execution).ownerOf? x = some owner := fun x owner hx ↦ by
    rw [howner, if_neg, hx]
    rintro rfl
    simp [ownerOf?_nextRegion] at hx
  have hfresh : ∀ y, p.nextRegion ∉ p.regionsOf y := fun y hmem ↦ by
    have := ((h.owned _ y).mp hmem).1
    simp [ownerOf?_nextRegion] at this
  have hops := opsIn_pushRegion p (.op o) execution
  exact {
    listed := fun x y ↦ by
      unfold Program.withRegion
      rw [parentOf?_modifyOp _ _ fun _ ↦ by rfl]
      change y ∈ (p.pushRegion (.op o) execution).opsIn x ↔ _
      rw [hops]
      exact h.listed x y
    once := fun x ↦ by
      change ((p.pushRegion (.op o) execution).opsIn x).Nodup
      rw [hops]
      exact h.once x
    results := fun y i v hv ↦ by
      unfold Program.withRegion at hv
      rw [resultsOf_modifyOp _ _ fun _ ↦ by rfl] at hv
      exact h.results y i v hv
    args := fun x i v hv ↦ by
      change ((p.pushRegion (.op o) execution).argsOf x)[i]? = some v at hv
      rw [argsOf_pushRegion] at hv
      exact h.args x i v hv
    owned := fun x y ↦ by
      rw [howner, hregions]
      split_ifs with hy hx hx
      · subst hx hy
        simp
      · subst hy
        rw [mem_append, h.owned]
        simp [hx]
      · subst hx
        simpa [hfresh y] using fun heq ↦ hy heq.symm
      · exact h.owned x y
    ownedOnce := fun y ↦ by
      rw [hregions]
      split_ifs
      · exact nodup_append.mpr ⟨h.ownedOnce o, by simp, fun x hx z hz heq ↦ by
          rw [mem_singleton.mp hz] at heq
          exact hfresh o (heq ▸ hx)⟩
      · exact h.ownedOnce y
    names := h.names
    graph := hnew p.graph .graph h.graph
    bodies := fun func hfunc ↦ hnew func.body .function (h.bodies func hfunc)
    cutOwner := by simp }

lemma originOf?_withArg (p : Program) (r : RegionId) (type : TensorType) (v : ValueId) :
    (p.withArg r type).originOf? v =
      if v = p.nextValue then some (.argument r (p.argsOf r).length) else p.originOf? v := by
  change ((p.pushValue type (.argument r (p.argsOf r).length)).value? v).map _ = _
  rw [value?_pushValue]
  split_ifs <;> rfl

lemma originOf?_withArg_of_some (hv : p.originOf? v = some origin) (r : RegionId)
    (type : TensorType) : (p.withArg r type).originOf? v = some origin := by
  rw [originOf?_withArg, if_neg, hv]
  rintro rfl
  simp [originOf?, value?_nextValue] at hv

lemma Placed.withArg (h : Placed loose cut p) (hr : (p.region? r).isSome) (type : TensorType) :
    Placed loose cut (p.withArg r type) := by
  have horigin := originOf?_withArg p r type
  have hold : ∀ v origin, p.originOf? v = some origin →
      (p.withArg r type).originOf? v = some origin :=
    fun v origin hv ↦ originOf?_withArg_of_some hv r type
  have hargs : ∀ x, (p.withArg r type).argsOf x =
      if x = r then p.argsOf r ++ [p.nextValue] else p.argsOf x := fun x ↦ by
    have hregion : (p.withArg r type).region? x = if x = r then (p.region? x).map fun region ↦
        { region with args := region.args ++ [p.nextValue] } else p.region? x :=
      region?_modifyRegion (p.pushValue type _) r _ x
    rw [argsOf, hregion]
    split_ifs with hx
    · obtain ⟨region, hregion⟩ := isSome_iff_exists.mp hr
      rw [hx, hregion, argsOf_eq hregion]
      rfl
    · rfl
  have hops : ∀ x, (p.withArg r type).opsIn x = p.opsIn x :=
    opsIn_modifyRegion (p.pushValue type _) r fun _ ↦ by rfl
  have howner : ∀ x, (p.withArg r type).ownerOf? x = p.ownerOf? x :=
    ownerOf?_modifyRegion (p.pushValue type _) r fun _ ↦ by rfl
  exact {
    listed := fun x y ↦ by rw [hops]; exact h.listed x y
    once := fun x ↦ by rw [hops]; exact h.once x
    results := fun y i v hv ↦ hold v _ (h.results y i v hv)
    args := fun x i v hv ↦ by
      rw [hargs] at hv
      split_ifs at hv with hx
      · subst hx
        rw [getElem?_append] at hv
        split_ifs at hv with hi
        · exact hold v _ (h.args x i v hv)
        · have hi' : i = (p.argsOf x).length := by
            have := (List.getElem?_eq_some_iff.mp hv).1
            simp only [length_singleton] at this
            omega
          subst hi'
          have hv' : p.nextValue = v := by simpa using hv
          rw [horigin, if_pos hv'.symm]
      · exact hold v _ (h.args x i v hv)
    owned := fun x y ↦ by rw [howner]; exact h.owned x y
    ownedOnce := h.ownedOnce
    names := h.names
    graph := (howner _).trans h.graph
    bodies := fun func hfunc ↦ (howner _).trans (h.bodies func hfunc)
    cutOwner := fun x hx ↦ by rw [howner]; exact h.cutOwner x hx }

/-! ### New places -/

lemma originOf?_setOrigin (p : Program) (v : ValueId) (origin : Origin) (x : ValueId) :
    (p.setOrigin v origin).originOf? x = if x = v then (p.originOf? x).map fun _ ↦
    origin else p.originOf? x := by
  unfold setOrigin originOf?
  rw [value?_modifyValue]
  split_ifs
  · rw [Option.map_map, Option.map_map]
    rfl
  · rfl

def renumber (place : Nat → Origin) (l : List ValueId) (start : Nat) (p : Program) : Program :=
  (l.zipIdx start).foldl (fun p entry ↦ p.setOrigin entry.1 (place entry.2)) p

section Renumber

variable (place : Nat → Origin)

private lemma drop_zipIdx {α : Type} (l : List α) (index : Nat) :
    l.zipIdx.drop index = (l.drop index).zipIdx index := by
  refine ext_getElem? fun i ↦ ?_
  simp [getElem?_zipIdx, getElem?_drop]

lemma renumberResults_eq (o : OpId) (l : List ValueId) (index : Nat) (p : Program) :
    Edit.renumberResults o l index p = renumber (.result o) (l.drop index) index p := by
  unfold Edit.renumberResults renumber
  rw [drop_zipIdx]

lemma renumberArgs_eq (r : RegionId) (l : List ValueId) (index : Nat) (p : Program) :
    Edit.renumberArgs r l index p = renumber (.argument r) (l.drop index) index p := by
  unfold Edit.renumberArgs renumber
  rw [drop_zipIdx]

lemma renumber_rest (l : List ValueId) (start : Nat) (p : Program) :
    renumber place l start p = { p with values := (renumber place l start p).values } := by
  induction l generalizing start p with
  | nil => rfl
  | cons a rest ih => exact (ih (start + 1) (p.setOrigin a (place start))).trans rfl

lemma UsesRecorded.renumber (h : UsesRecorded p) (l : List ValueId)
    (start : Nat) : UsesRecorded (renumber place l start p) :=
  foldl_keeps (I := UsesRecorded)
    (f := fun q (entry : ValueId × Nat) ↦ q.setOrigin entry.1 (place entry.2))
    (fun _ _ hq ↦ hq.modifyValue _ fun _ ↦ rfl) _ h

lemma originOf?_renumber_of_not_mem (l : List ValueId) (start : Nat) (p : Program)
    (hv : v ∉ l) : (renumber place l start p).originOf? v = p.originOf? v := by
  induction l generalizing start p with
  | nil => rfl
  | cons a rest ih =>
    rw [mem_cons, not_or] at hv
    refine (ih (start + 1) (p.setOrigin a (place start)) hv.2).trans ?_
    rw [originOf?_setOrigin, if_neg hv.1]

lemma originOf?_renumber {l : List ValueId} (hl : l.Nodup) (start : Nat) (p : Program)
    {i : Nat} (hv : l[i]? = some v) (hexists : (p.originOf? v).isSome) :
    (renumber place l start p).originOf? v = some (place (start + i)) := by
  induction l generalizing start i p with
  | nil => simp at hv
  | cons a rest ih =>
    rw [nodup_cons] at hl
    cases i with
    | zero =>
      obtain rfl : a = v := by simpa using hv
      refine (originOf?_renumber_of_not_mem place rest (start + 1) _ hl.1).trans ?_
      obtain ⟨origin, horigin⟩ := isSome_iff_exists.mp hexists
      rw [originOf?_setOrigin, if_pos rfl, horigin]
      rfl
    | succ i =>
      have hrest : rest[i]? = some v := by simpa using hv
      have hne : v ≠ a := fun heq ↦ hl.1 (heq ▸ mem_of_getElem? hrest)
      have hstep : ((p.setOrigin a (place start)).originOf? v).isSome := by
        rw [originOf?_setOrigin, if_neg hne]
        exact hexists
      refine (ih hl.2 (start + 1) _ hrest hstep).trans ?_
      rw [Nat.add_assoc, Nat.add_comm 1]

section Removal

variable {place} {l : List ValueId} (hl : ∀ i v, l[i]? = some v → p.originOf? v = some (place i))

include hl

lemma originOf?_renumber_eraseIdx (hplace : ∀ i j, place i = place j → i = j) {index i : Nat}
    (hv : (l.eraseIdx index)[i]? = some v) :
    (renumber place ((l.eraseIdx index).drop index) index p).originOf? v = some (place i) := by
  have hnodup : (l.eraseIdx index).Nodup := (nodup_of_origins place hplace hl).eraseIdx index
  by_cases hi : i < index
  · have hbehind : v ∉ (l.eraseIdx index).drop index := fun hmem ↦ by
      obtain ⟨j, hj⟩ := mem_iff_getElem?.mp hmem
      rw [getElem?_drop] at hj
      have hlt := (List.getElem?_eq_some_iff.mp hv).1
      have := (getElem?_inj hlt hnodup).mp (hv.trans hj.symm)
      omega
    rw [originOf?_renumber_of_not_mem place _ _ _ hbehind]
    rw [getElem?_eraseIdx, if_pos hi] at hv
    exact hl i v hv
  · have hback : ((l.eraseIdx index).drop index)[i - index]? = some v := by
      rw [getElem?_drop, Nat.add_sub_cancel' (by omega)]
      exact hv
    have hexists : (p.originOf? v).isSome := by
      rw [getElem?_eraseIdx, if_neg hi] at hv
      rw [hl _ v hv]
      rfl
    rw [originOf?_renumber place (hnodup.sublist (drop_sublist ..)) index p hback hexists]
    rw [Nat.add_sub_cancel' (by omega)]

lemma originOf?_renumber_of_elsewhere (hv : ∀ i, p.originOf? v ≠ some (place i)) (index : Nat) :
    (renumber place ((l.eraseIdx index).drop index) index p).originOf? v = p.originOf? v := by
  refine originOf?_renumber_of_not_mem place _ _ _ fun hmem ↦ ?_
  obtain ⟨i, hi⟩ := mem_iff_getElem?.mp (mem_of_mem_eraseIdx (mem_of_mem_drop hmem))
  exact hv i (hl i v hi)

end Removal

end Renumber

lemma Placed.of_places (h : Placed loose cut p) (hops : ∀ r, q.opsIn r = p.opsIn r)
    (hparent : ∀ o, q.parentOf? o = p.parentOf? o) (howner : ∀ r, q.ownerOf? r = p.ownerOf? r)
    (hregions : ∀ o, q.regionsOf o = p.regionsOf o) (hfuncs : q.funcs = p.funcs)
    (hgraph : q.graph = p.graph)
    (hresults : ∀ (o : OpId) (i : Nat) (v : ValueId), (q.resultsOf o)[i]? = some v →
      q.originOf? v = some (.result o i))
    (hargs : ∀ (r : RegionId) (i : Nat) (v : ValueId), (q.argsOf r)[i]? = some v →
    q.originOf? v = some (.argument r i)) : Placed loose cut q where
  listed r o := by rw [hops, hparent, h.listed]
  once r := hops r ▸ h.once r
  results := hresults
  args := hargs
  owned r o := by rw [hregions, howner, h.owned]
  ownedOnce o := hregions o ▸ h.ownedOnce o
  names := hfuncs ▸ h.names
  graph := by rw [hgraph, howner, h.graph]
  bodies func hfunc := by rw [howner, h.bodies func (hfuncs ▸ hfunc)]
  cutOwner r hr := by rw [howner]; exact h.cutOwner r hr

lemma withoutResult_rest (p : Program) (o : OpId) (index : Nat) : p.withoutResult o index =
      { p.modifyOp o fun node ↦ { node with results := (p.resultsOf o).eraseIdx index } with
        values := (p.withoutResult o index).values } := by
  unfold withoutResult
  rw [renumberResults_eq]
  exact renumber_rest _ _ _ _

lemma withoutArg_rest (p : Program) (r : RegionId) (index : Nat) : p.withoutArg r index =
      { p.modifyRegion r fun region ↦ { region with args := (p.argsOf r).eraseIdx index } with
        values := (p.withoutArg r index).values } := by
  unfold withoutArg
  rw [renumberArgs_eq]
  exact renumber_rest _ _ _ _

lemma resultsOf_withoutResult (p : Program) (o : OpId) (index : Nat) (x : OpId) :
    (p.withoutResult o index).resultsOf x = if x = o then
    (p.resultsOf o).eraseIdx index else p.resultsOf x := by
  rw [withoutResult_rest]
  change (p.modifyOp o _).resultsOf x = _
  rw [resultsOf, op?_modifyOp]
  split_ifs with hx
  · subst hx
    rcases hop : p.op? x with _ | node
    · simp [resultsOf, hop]
    · rfl
  · rfl

lemma argsOf_withoutArg (p : Program) (r : RegionId) (index : Nat) (x : RegionId) :
    (p.withoutArg r index).argsOf x = if x = r then
    (p.argsOf r).eraseIdx index else p.argsOf x := by
  rw [withoutArg_rest]
  change (p.modifyRegion r _).argsOf x = _
  rw [argsOf, region?_modifyRegion]
  split_ifs with hx
  · subst hx
    rcases hregion : p.region? x with _ | region
    · simp [argsOf, hregion]
    · rfl
  · rfl

section Moved

variable (h : Placed loose cut p)

include h

lemma Placed.originOf?_withoutResult (o : OpId) (index : Nat) : (∀ i v,
    ((p.resultsOf o).eraseIdx index)[i]? = some v →
    (p.withoutResult o index).originOf? v = some (.result o i)) ∧ ∀ v,
    (∀ i, p.originOf? v ≠ some (.result o i)) →
    (p.withoutResult o index).originOf? v = p.originOf? v := by
  unfold withoutResult
  rw [renumberResults_eq]
  refine ⟨fun i v hv ↦ ?_, fun v hv ↦ ?_⟩
  · exact originOf?_renumber_eraseIdx (p := p.modifyOp _ _) (h.results o)
      (fun _ _ heq ↦ (Origin.result.inj heq).2) hv
  · exact originOf?_renumber_of_elsewhere (p := p.modifyOp _ _) (h.results o) hv index

lemma Placed.originOf?_withoutArg (r : RegionId) (index : Nat) :
    (∀ i v, ((p.argsOf r).eraseIdx index)[i]? = some v →
    (p.withoutArg r index).originOf? v = some (.argument r i)) ∧ ∀ v,
    (∀ i, p.originOf? v ≠ some (.argument r i)) →
    (p.withoutArg r index).originOf? v = p.originOf? v := by
  unfold withoutArg
  rw [renumberArgs_eq]
  refine ⟨fun i v hv ↦ ?_, fun v hv ↦ ?_⟩
  · exact originOf?_renumber_eraseIdx (p := p.modifyRegion _ _) (h.args r)
      (fun _ _ heq ↦ (Origin.argument.inj heq).2) hv
  · exact originOf?_renumber_of_elsewhere (p := p.modifyRegion _ _) (h.args r) hv index

lemma Placed.withoutResult (o : OpId) (index : Nat) :
    Placed loose cut (p.withoutResult o index) := by
  obtain ⟨hmoved, helsewhere⟩ := h.originOf?_withoutResult o index
  have hkept : ∀ {v origin}, p.originOf? v = some origin → (∀ i, origin ≠ .result o i) →
      (p.withoutResult o index).originOf? v = some origin := by
    intro v origin horigin hne
    rw [helsewhere v fun i hi ↦ hne i (some.inj (horigin.symm.trans hi)), horigin]
  have hrest := withoutResult_rest p o index
  rw [hrest]
  refine h.of_places (fun _ ↦ rfl) (parentOf?_modifyOp p o fun _ ↦ by rfl) (fun _ ↦ rfl)
    (regionsOf_modifyOp p o fun _ ↦ by rfl) rfl rfl (fun x i v hv ↦ ?_) fun r i v hv ↦ ?_
  · rw [← hrest, resultsOf_withoutResult] at hv
    split_ifs at hv with hx
    · rw [hx]
      exact hmoved i v hv
    · exact hkept (h.results x i v hv) fun j heq ↦ hx (Origin.result.inj heq).1
  · exact hkept (h.args r i v hv) nofun

lemma Placed.withoutArg (r : RegionId) (index : Nat) : Placed loose cut (p.withoutArg r index) := by
  obtain ⟨hmoved, helsewhere⟩ := h.originOf?_withoutArg r index
  have hkept : ∀ {v origin}, p.originOf? v = some origin → (∀ i, origin ≠ .argument r i) →
      (p.withoutArg r index).originOf? v = some origin := by
    intro v origin horigin hne
    rw [helsewhere v fun i hi ↦ hne i (some.inj (horigin.symm.trans hi)), horigin]
  have hrest := withoutArg_rest p r index
  rw [hrest]
  refine h.of_places (opsIn_modifyRegion p r fun _ ↦ by rfl) (fun _ ↦ rfl)
    (ownerOf?_modifyRegion p r fun _ ↦ by rfl) (fun _ ↦ rfl) rfl rfl (fun o i v hv ↦ ?_)
    fun x i v hv ↦ ?_
  · exact hkept (h.results o i v hv) nofun
  · rw [← hrest, argsOf_withoutArg] at hv
    split_ifs at hv with hx
    · rw [hx]
      exact hmoved i v hv
    · exact hkept (h.args x i v hv) fun j heq ↦ hx (Origin.argument.inj heq).1

end Moved

lemma UsesRecorded.withoutResult (h : UsesRecorded p) (o : OpId) (index : Nat) :
    UsesRecorded (p.withoutResult o index) := by
  unfold Program.withoutResult
  rw [renumberResults_eq]
  exact (h.modifyOp o fun _ ↦ by rfl).renumber _ _ _

lemma UsesRecorded.withoutArg (h : UsesRecorded p) (r : RegionId) (index : Nat) :
    UsesRecorded (p.withoutArg r index) := by
  unfold Program.withoutArg
  rw [renumberArgs_eq]
  exact (h.modifyRegion r _).renumber _ _ _

/-! ### Functions -/

/-- Owners may change where no operation is concerned, as long as the graph and the bodies of
functions keep theirs. -/
theorem Placed.of_owners (h : Placed loose [] p) (hslots : q.slots = p.slots)
    (hvalues : q.values = p.values) (hops : ∀ r, q.opsIn r = p.opsIn r)
    (hargs : ∀ r, q.argsOf r = p.argsOf r)
    (howner : ∀ r o, q.ownerOf? r = some (.op o) ↔ p.ownerOf? r = some (.op o))
    (hnames : (q.funcs.map (·.name)).Nodup) (hgraph : q.ownerOf? q.graph = some .graph)
    (hbodies : ∀ func ∈ q.funcs, q.ownerOf? func.body = some .function) : Placed loose [] q := by
  have hop : ∀ o, q.op? o = p.op? o := fun o ↦ by rw [op?, hslots, op?]
  have hvalue : ∀ v, q.originOf? v = p.originOf? v := fun v ↦ by
    rw [originOf?, value?, hvalues, originOf?, value?]
  refine ⟨fun r o ↦ ?_, fun r ↦ hops r ▸ h.once r, fun o i v hv ↦ ?_, fun r i v hv ↦ ?_,
    fun r o ↦ ?_, fun o ↦ ?_, hnames, hgraph, hbodies, by simp⟩
  · rw [hops, h.listed, parentOf?, parentOf?, hop]
  · rw [resultsOf, hop] at hv
    rw [hvalue]
    exact h.results o i v hv
  · rw [hargs] at hv
    rw [hvalue]
    exact h.args r i v hv
  · rw [howner, ← h.owned, regionsOf, hop, regionsOf]
  · rw [regionsOf, hop]
    exact h.ownedOnce o

lemma ne_nextRegion_of_ownerOf? {owner : Owner} (h : p.ownerOf? r = some owner) :
    r ≠ p.nextRegion := fun heq ↦ by
  rw [heq, ownerOf?_nextRegion] at h
  cases h

lemma Placed.pushBody (h : Placed loose [] p)
    (execution : Execution) : Placed loose [] (p.pushRegion .function execution) := by
  have howner := ownerOf?_pushRegion p .function execution
  have hkept : ∀ {r owner}, p.ownerOf? r = some owner →
      (p.pushRegion .function execution).ownerOf? r = some owner := fun {r _} hr ↦ by
    rw [howner, if_neg (ne_nextRegion_of_ownerOf? hr), hr]
  refine h.of_owners rfl rfl (opsIn_pushRegion p _ _) (argsOf_pushRegion p _ _) (fun r o ↦ ?_)
    h.names (hkept h.graph) fun func hfunc ↦ hkept (h.bodies func hfunc)
  rw [howner]
  split_ifs with hr
  · simp [hr, ownerOf?_nextRegion]
  · rfl

lemma Placed.withFunc (h : Placed loose [] p) {name : String}
    (hname : p.func? name = none) {body : RegionId} (hbody : p.ownerOf? body = some .function)
    (resultTypes : List TensorType) : Placed loose [] (p.withFunc name body resultTypes) := by
  refine h.of_owners rfl rfl (fun _ ↦ rfl) (fun _ ↦ rfl)
    (fun _ _ ↦ Iff.rfl) ?_ h.graph fun func hfunc ↦ ?_
  · have hnew : ∀ func ∈ p.funcs, func.name ≠ name := by simpa [func?] using hname
    simpa [Program.withFunc, nodup_append, h.names] using hnew
  · rcases mem_append.mp hfunc with hold | hlast
    · exact h.bodies func hold
    · obtain rfl := mem_singleton.mp hlast
      exact hbody

lemma Placed.ownerOf?_withNewGraph (h : Placed loose cut p) (x : RegionId) :
    p.withNewGraph.ownerOf? x = if x = p.nextRegion then some .graph else if x =
    p.graph then some .function else p.ownerOf? x := by
  have hnext : (p.modifyRegion p.graph fun region ↦
      { region with owner := .function }).nextRegion = p.nextRegion := by
    simp [nextRegion, modifyRegion]
  refine (ownerOf?_pushRegion (p.modifyRegion p.graph _) .graph .once x).trans ?_
  rw [hnext, ownerOf?, region?_modifyRegion]
  split_ifs with hx hgraph
  · rfl
  · obtain ⟨region, hregion, -⟩ := map_eq_some_iff.mp h.graph
    rw [hgraph, hregion]
    rfl
  · rfl

lemma Placed.graph_withNewGraph (h : Placed loose cut p) :
    p.withNewGraph.ownerOf? p.graph = some .function := by
  rw [h.ownerOf?_withNewGraph, if_neg (ne_nextRegion_of_ownerOf? h.graph), if_pos rfl]

lemma Placed.isSome_graph_withNewGraph (h : Placed loose cut p) :
    (p.withNewGraph.region? p.graph).isSome :=
  isSome_region?_of_ownerOf? h.graph_withNewGraph

lemma opsIn_withNewGraph (p : Program) (r : RegionId) : p.withNewGraph.opsIn r = p.opsIn r :=
  (opsIn_pushRegion (p.modifyRegion p.graph _) .graph .once r).trans
    (opsIn_modifyRegion p p.graph (fun _ ↦ by rfl) r)

lemma argsOf_withNewGraph (p : Program) (r : RegionId) : p.withNewGraph.argsOf r = p.argsOf r :=
  (argsOf_pushRegion (p.modifyRegion p.graph _) .graph .once r).trans
    (argsOf_modifyRegion p p.graph (fun _ ↦ by rfl) r)

lemma Placed.withNewGraph (h : Placed loose [] p) : Placed loose [] p.withNewGraph := by
  have howner := h.ownerOf?_withNewGraph
  refine h.of_owners rfl rfl (opsIn_withNewGraph p) (argsOf_withNewGraph p)
    (fun r o ↦ ?_) h.names ?_ fun func hfunc ↦ ?_
  · rw [howner]
    split_ifs with hnext hgraph
    · simp [hnext, ownerOf?_nextRegion]
    · simp [hgraph, h.graph]
    · rfl
  · exact (howner p.nextRegion).trans (if_pos rfl)
  · have hbody := h.bodies func hfunc
    rw [howner, if_neg (ne_nextRegion_of_ownerOf? hbody), hbody, ite_self]

lemma map_funcs_modifyFunc {β : Type} (p : Program) (name : String) (g : Func → β)
    (h : ∀ func, g (f func) = g func) : (p.modifyFunc name f).funcs.map g = p.funcs.map g := by
  refine ext_getElem? fun i ↦ ?_
  simp only [modifyFunc, getElem?_map, getElem?_modify]
  split_ifs
  · rw [Option.map_eq_map, Option.map_map]
    exact congrArg (Option.map · _) (funext h)
  · simp

lemma Placed.modifyFunc (h : Placed loose [] p) (name : String)
    (hname : ∀ func, (f func).name = func.name) (hbody : ∀ func, (f func).body = func.body) :
    Placed loose [] (p.modifyFunc name f) := by
  refine h.of_owners rfl rfl (fun _ ↦ rfl) (fun _ ↦ rfl)
    (fun _ _ ↦ Iff.rfl) ?_ h.graph fun func hfunc ↦ ?_
  · rw [map_funcs_modifyFunc p name (·.name) hname]
    exact h.names
  · obtain ⟨i, hi⟩ := mem_iff_getElem?.mp hfunc
    simp only [Program.modifyFunc, getElem?_modify] at hi
    split_ifs at hi
    · obtain ⟨old, hold, rfl⟩ := map_eq_some_iff.mp hi
      rw [hbody]
      exact h.bodies old (mem_of_getElem? hold)
    · exact h.bodies func (mem_of_getElem? (by simpa using hi))

end TensorGraph.Program
