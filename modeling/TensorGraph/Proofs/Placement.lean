import TensorGraph.Proofs.UseRecords

/-!
Where the operations, values and regions of a program are. A live operation is listed once, in the
region it lies in; results and arguments know their place; an operation and the regions it owns name
each other.
-/

namespace TensorGraph.Program

open List Option

variable {p : Program} {o : OpId} {r : RegionId} {loose loose' : List OpId} {cut : List RegionId}
    {f : Operation → Operation} {form : Form}

/-- Operations, values and regions are where they say they are, up to loose operations and cut
regions. -/
structure Placed (loose : List OpId) (cut : List RegionId) (p : Program) : Prop where
  listed : ∀ r o, o ∈ p.opsIn r ↔ p.parentOf? o = some r ∧ o ∉ loose
  once : ∀ r, (p.opsIn r).Nodup
  results : ∀ o i v, (p.resultsOf o)[i]? = some v → p.originOf? v = some (.result o i)
  args : ∀ r i v, (p.argsOf r)[i]? = some v → p.originOf? v = some (.argument r i)
  owned : ∀ r o, r ∈ p.regionsOf o ↔ p.ownerOf? r = some (.op o) ∧ r ∉ cut
  ownedOnce : ∀ o, (p.regionsOf o).Nodup
  names : (p.funcs.map (·.name)).Nodup
  graph : p.ownerOf? p.graph = some .graph
  bodies : ∀ func ∈ p.funcs, p.ownerOf? func.body = some .function
  cutOwner : ∀ r ∈ cut, p.ownerOf? r ≠ some .graph ∧ p.ownerOf? r ≠ some .function

lemma nodup_of_origins {l : List ValueId} (place : Nat → Origin)
    (hplace : ∀ i j, place i = place j → i = j)
    (hl : ∀ i v, l[i]? = some v → p.originOf? v = some (place i)) : l.Nodup := by
  rw [nodup_iff_injective_get]
  intro i j hij
  have hi := hl i _ (getElem?_eq_getElem i.isLt)
  have hj := hl j _ (getElem?_eq_getElem j.isLt)
  have hsame : l[i.val] = l[j.val] := hij
  rw [hsame, hj] at hi
  exact Fin.ext (hplace _ _ (some.inj hi)).symm

namespace Placed

variable {q : Program}

lemma empty : Placed [] [] .empty := by
  have hop : ∀ o, Program.empty.op? o = none := fun o ↦ rfl
  have hops : ∀ r, Program.empty.opsIn r = [] := fun r ↦ by
    rcases r with ⟨_ | index⟩ <;> rfl
  have hargs : ∀ r, Program.empty.argsOf r = [] := fun r ↦ by
    rcases r with ⟨_ | index⟩ <;> rfl
  have howner : ∀ r o, Program.empty.ownerOf? r ≠ some (.op o) := fun r o ↦ by
    rcases r with ⟨_ | index⟩ <;> simp [ownerOf?, region?, Program.empty]
  exact {
    listed := fun r o ↦ by simp [hops, parentOf?, hop]
    once := fun r ↦ by simp [hops]
    results := fun o i v ↦ by simp [resultsOf, hop]
    args := fun r i v ↦ by simp [hargs]
    owned := fun r o ↦ by simp [regionsOf, hop, howner]
    ownedOnce := fun o ↦ by simp [regionsOf, hop]
    names := by simp [Program.empty]
    graph := rfl
    bodies := by simp [Program.empty]
    cutOwner := by simp }

section SameLists

variable (h : Placed loose cut p) (hresults : ∀ o, q.resultsOf o = p.resultsOf o)
  (horigin : ∀ v, q.originOf? v = p.originOf? v) (hargs : ∀ r, q.argsOf r = p.argsOf r)
  (howner : ∀ r, q.ownerOf? r = p.ownerOf? r) (hregions : ∀ o, q.regionsOf o = p.regionsOf o)
  (hfuncs : q.funcs = p.funcs) (hgraph : q.graph = p.graph)

include h hresults horigin hargs howner hregions hfuncs hgraph

lemma of_lists (hlisted : ∀ r o, o ∈ q.opsIn r ↔ q.parentOf? o = some r ∧ o ∉ loose')
    (honce : ∀ r, (q.opsIn r).Nodup) : Placed loose' cut q where
  listed := hlisted
  once := honce
  results o i v hv := by rw [horigin]; exact h.results o i v (hresults o ▸ hv)
  args r i v hv := by rw [horigin]; exact h.args r i v (hargs r ▸ hv)
  owned r o := by rw [hregions, howner, h.owned]
  ownedOnce o := by rw [hregions]; exact h.ownedOnce o
  names := by rw [hfuncs]; exact h.names
  graph := by rw [hgraph, howner]; exact h.graph
  bodies func hfunc := by rw [howner]; exact h.bodies func (hfuncs ▸ hfunc)
  cutOwner r hr := by rw [howner]; exact h.cutOwner r hr

lemma of_same (hops : ∀ r, q.opsIn r = p.opsIn r) (hparent : ∀ o, q.parentOf? o = p.parentOf? o) :
    Placed loose cut q :=
  h.of_lists hresults horigin hargs howner hregions hfuncs hgraph
    (fun r o ↦ by rw [hops, hparent, h.listed]) fun r ↦ by rw [hops]; exact h.once r

end SameLists

lemma of_sameButUsers (h : Placed loose cut p) (hsame : SameButUsers p q) :
    Placed loose cut q := by
  refine h.of_same (fun o ↦ ?_) hsame.origins (fun r ↦ ?_) (fun r ↦ ?_)
    (fun o ↦ ?_) hsame.funcs hsame.graph (fun r ↦ ?_) fun o ↦ ?_
  · rw [resultsOf, hsame.op?, resultsOf]
  · rw [argsOf, hsame.region?, argsOf]
  · rw [ownerOf?, hsame.region?, ownerOf?]
  · rw [regionsOf, hsame.op?, regionsOf]
  · rw [opsIn, hsame.region?, opsIn]
  · rw [parentOf?, hsame.op?, parentOf?]

lemma modifyOp (h : Placed loose cut p) (o : OpId) (hparent : ∀ node, (f node).parent = node.parent)
    (hresults : ∀ node, (f node).results = node.results)
    (hregions : ∀ node, (f node).regions = node.regions) : Placed loose cut (p.modifyOp o f) :=
  h.of_same (resultsOf_modifyOp p o hresults) (fun _ ↦ rfl) (fun _ ↦ rfl) (fun _ ↦ rfl)
    (regionsOf_modifyOp p o hregions) rfl rfl (fun _ ↦ rfl) (parentOf?_modifyOp p o hparent)

lemma of_dead (h : Placed (o :: loose) cut p) (ho : p.op? o = none) :
    Placed loose cut p := by
  refine { h with listed := fun r x ↦ ?_ }
  rw [h.listed, mem_cons, not_or]
  refine ⟨fun hx ↦ ⟨hx.1, hx.2.2⟩, fun hx ↦ ⟨hx.1, ?_, hx.2⟩⟩
  rintro rfl
  simp [parentOf?, ho] at hx

end Placed

lemma Placed.redirected (h : Placed loose cut p) (huses : UsesRecorded p)
    {old new : ValueId} (hne : old ≠ new) : Placed loose cut (p.redirected old new) := by
  have hop := op?_redirected huses hne
  have hrest := redirected_rest p old new
  have hparts : ∀ {β : Type} (g : Operation → β),
      (∀ node operands, g { node with operands := operands } = g node) → ∀ o,
      ((p.redirected old new).op? o).map g = (p.op? o).map g := by
    intro β g hg o
    rw [hop, Option.map_map]
    exact congrArg (Option.map · _) (funext fun node ↦ hg node _)
  have horigin : ∀ v, (p.redirected old new).originOf? v = p.originOf? v := by
    intro v
    rw [hrest]
    exact ((SameButUsers.modifyValue p old fun _ ↦ by rfl).trans
      (SameButUsers.modifyValue _ new fun _ ↦ by rfl)).origins v
  have hregion : ∀ r, (p.redirected old new).region? r = p.region? r := by
    intro r
    rw [hrest]
    rfl
  refine h.of_same (fun o ↦ congrArg (·.getD []) (hparts (·.results) (fun _ _ ↦ rfl) o)) horigin
    (fun r ↦ by rw [argsOf, hregion, argsOf]) (fun r ↦ by rw [ownerOf?, hregion, ownerOf?])
    (fun o ↦ congrArg (·.getD []) (hparts (·.regions) (fun _ _ ↦ rfl) o)) ?_ ?_
    (fun r ↦ by rw [opsIn, hregion, opsIn]) (hparts _ fun _ _ ↦ rfl)
  · rw [hrest]
    rfl
  · rw [hrest]
    rfl

/-! ### Loose operations -/

lemma opsIn_detached (p : Program) (o : OpId) (r x : RegionId) :
    (p.detached o r).opsIn x = if x = r then (p.opsIn r).erase o else p.opsIn x := by
  unfold detached opsIn
  rw [region?_modifyRegion]
  by_cases hx : x = r
  · subst hx
    rcases p.region? x with _ | region
    · simp
    · simp [eraseIdx_idxOf_eq_erase]
  · simp [hx]

lemma Placed.detached (h : Placed [] cut p) (ho : p.parentOf? o = some r) :
    Placed [o] cut (p.detached o r) := by
  refine h.of_lists (fun _ ↦ rfl) (fun _ ↦ rfl) (argsOf_modifyRegion p r fun _ ↦ rfl)
    (ownerOf?_modifyRegion p r fun _ ↦ rfl) (fun _ ↦ rfl) rfl rfl (fun x y ↦ ?_) fun x ↦ ?_
  · change _ ↔ p.parentOf? y = some x ∧ y ∉ [o]
    rw [opsIn_detached, mem_singleton]
    split_ifs with hx
    · subst hx
      rw [(h.once x).mem_erase_iff, h.listed]
      simp [and_comm]
    · rw [h.listed]
      refine ⟨fun hy ↦ ⟨hy.1, ?_⟩, fun hy ↦ ⟨hy.1, by simp⟩⟩
      rintro rfl
      exact hx (some.inj (hy.1.symm.trans ho))
  · rw [opsIn_detached]
    split_ifs
    · exact (h.once r).erase o
    · exact h.once x

lemma opsIn_insertIdx (p : Program) (hr : (p.region? r).isSome) (index : Nat) (o : OpId)
    (x : RegionId) :
    (p.modifyRegion r fun region ↦ { region with ops := region.ops.insertIdx index o }).opsIn x =
      if x = r then (p.opsIn r).insertIdx index o else p.opsIn x := by
  unfold opsIn
  rw [region?_modifyRegion]
  by_cases hx : x = r
  · subst hx
    obtain ⟨region, hregion⟩ := isSome_iff_exists.mp hr
    simp [hregion]
  · simp [hx]

lemma Placed.attach (h : Placed [o] cut p) (ho : (p.op? o).isSome) (hr : (p.region? r).isSome)
    {index : Nat} (hindex : index ≤ (p.opsIn r).length) :
    Placed [] cut (Edit.attach o r index p) := by
  obtain ⟨node, hnode⟩ := isSome_iff_exists.mp ho
  have hops : ∀ x, (Edit.attach o r index p).opsIn x =
      if x = r then (p.opsIn r).insertIdx index o else p.opsIn x := opsIn_insertIdx p hr index o
  have hop : ∀ x, (Edit.attach o r index p).op? x =
      if x = o then (p.op? x).map fun node ↦ { node with parent := r } else p.op? x :=
    fun x ↦ op?_modifyOp _ o _ x
  have hparent : ∀ x, (Edit.attach o r index p).parentOf? x =
      if x = o then some r else p.parentOf? x := fun x ↦ by
    rw [parentOf?, hop]
    split_ifs with hx
    · rw [hx, hnode]
      rfl
    · rfl
  have hloose : ∀ x, o ∉ p.opsIn x := fun x hmem ↦ ((h.listed x o).mp hmem).2 (by simp)
  refine h.of_lists (fun x ↦ ?_) (fun _ ↦ rfl) (argsOf_modifyRegion p r fun _ ↦ rfl)
    (ownerOf?_modifyRegion p r fun _ ↦ rfl) (fun x ↦ ?_) rfl rfl (fun x y ↦ ?_) fun x ↦ ?_
  · unfold Edit.attach
    rw [resultsOf_modifyOp _ _ fun _ ↦ by rfl]
    rfl
  · unfold Edit.attach
    rw [regionsOf_modifyOp _ _ fun _ ↦ by rfl]
    rfl
  · rw [hops, hparent]
    split_ifs with hx hy hy
    · subst hx hy
      simp [mem_insertIdx hindex]
    · subst hx
      rw [mem_insertIdx hindex, h.listed]
      simp [hy]
    · subst hy
      simpa [hloose x] using fun heq ↦ hx heq.symm
    · rw [h.listed]
      simp [hy]
  · rw [hops]
    split_ifs
    · rw [(perm_insertIdx o _ hindex).nodup_iff, nodup_cons]
      exact ⟨hloose r, h.once r⟩
    · exact h.once x

lemma Placed.setOps (h : Placed [] cut p) {order : List OpId} (hr : (p.region? r).isSome)
    (horder : order.Nodup) (hsame : ∀ o, o ∈ p.opsIn r ↔ o ∈ order) :
    Placed [] cut (p.setOps r order) := by
  have hops := opsIn_setOps p r order (.inl hr)
  refine h.of_lists (fun _ ↦ rfl) (fun _ ↦ rfl) (argsOf_modifyRegion p r fun _ ↦ rfl)
    (ownerOf?_modifyRegion p r fun _ ↦ rfl) (fun _ ↦ rfl) rfl rfl (fun x y ↦ ?_) fun x ↦ ?_
  · rw [hops]
    split_ifs with hx
    · subst hx
      rw [← hsame]
      exact h.listed x y
    · exact h.listed x y
  · rw [hops]
    split_ifs
    · exact horder
    · exact h.once x

lemma Placed.clear (h : Placed loose cut p) (r : RegionId) :
    Placed ((p.opsIn r).reverse ++ loose) cut (p.setOps r []) := by
  have hops := opsIn_setOps p r [] (.inr rfl)
  refine h.of_lists (fun _ ↦ rfl) (fun _ ↦ rfl) (argsOf_modifyRegion p r fun _ ↦ rfl)
    (ownerOf?_modifyRegion p r fun _ ↦ rfl) (fun _ ↦ rfl) rfl rfl (fun x y ↦ ?_) fun x ↦ ?_
  · change _ ↔ p.parentOf? y = some x ∧ _
    rw [hops, mem_append, mem_reverse, h.listed]
    split_ifs with hx
    · subst hx
      simp only [not_mem_nil, false_iff]
      tauto
    · rw [h.listed]
      constructor
      · rintro ⟨hparent, hy⟩
        refine ⟨hparent, ?_⟩
        rintro (⟨hother, -⟩ | hmem)
        · exact hx (some.inj (hparent.symm.trans hother))
        · exact hy hmem
      · rintro ⟨hparent, hy⟩
        exact ⟨hparent, fun hmem ↦ hy (.inr hmem)⟩
  · rw [hops]
    split_ifs
    · exact nodup_nil
    · exact h.once x

/-! ### Cut regions -/

lemma Placed.disown (h : Placed loose (r :: cut) p) :
    Placed loose cut (p.modifyRegion r fun region ↦ { region with owner := .detached }) := by
  have howner : ∀ x, (p.modifyRegion r fun region ↦ { region with owner := .detached }).ownerOf? x =
      if x = r then (p.ownerOf? x).map fun _ ↦ .detached else p.ownerOf? x := fun x ↦ by
    unfold ownerOf?
    rw [region?_modifyRegion]
    split_ifs
    · rw [Option.map_map, Option.map_map]
      rfl
    · rfl
  have hcut := h.cutOwner r mem_cons_self
  have hrest : ∀ r' owner, p.ownerOf? r' = some owner → owner = .graph ∨ owner = .function →
      (p.modifyRegion r fun region ↦ { region with owner := .detached }).ownerOf? r' =
        some owner := fun r' owner hr' hroot ↦ by
    rw [howner, if_neg, hr']
    rintro rfl
    rcases hroot with rfl | rfl
    · exact hcut.1 hr'
    · exact hcut.2 hr'
  exact {
    listed := fun x o ↦ by
      rw [opsIn_modifyRegion _ _ fun _ ↦ by rfl]
      exact h.listed x o
    once := fun x ↦ by
      rw [opsIn_modifyRegion _ _ fun _ ↦ by rfl]
      exact h.once x
    results := h.results
    args := fun x i v hv ↦ by
      rw [argsOf_modifyRegion _ _ fun _ ↦ by rfl] at hv
      exact h.args x i v hv
    owned := fun x o ↦ by
      change x ∈ p.regionsOf o ↔ _
      rw [howner, h.owned, mem_cons]
      by_cases hx : x = r
      · rcases p.ownerOf? x <;> simp [hx]
      · simp [hx]
    ownedOnce := h.ownedOnce
    names := h.names
    graph := hrest p.graph .graph h.graph (.inl rfl)
    bodies := fun func hfunc ↦ hrest func.body .function (h.bodies func hfunc) (.inr rfl)
    cutOwner := fun x hx ↦ by
      have hp := h.cutOwner x (mem_cons_of_mem r hx)
      rw [howner]
      split_ifs
      · rcases p.ownerOf? x <;> simp
      · exact hp }

lemma Placed.cutRegions {q : Program} (h : Placed loose cut p)
    (hregion : ∀ r, q.region? r = p.region? r) (horigin : ∀ v, q.originOf? v = p.originOf? v)
    (hfuncs : q.funcs = p.funcs) (hgraph : q.graph = p.graph)
    (hresults : ∀ (x : OpId) (i : Nat) (v : ValueId), (q.resultsOf x)[i]? = some v →
    (p.resultsOf x)[i]? = some v)
    (hregions : ∀ x, q.regionsOf x = if x = o then [] else p.regionsOf x)
    (hlisted : ∀ r x, x ∈ p.opsIn r ↔ q.parentOf? x = some r ∧ x ∉ loose') :
    Placed loose' (p.regionsOf o ++ cut) q := by
  have hops : ∀ r, q.opsIn r = p.opsIn r := fun r ↦ by rw [opsIn, hregion, opsIn]
  have hargs : ∀ r, q.argsOf r = p.argsOf r := fun r ↦ by rw [argsOf, hregion, argsOf]
  have howner : ∀ r, q.ownerOf? r = p.ownerOf? r := fun r ↦ by rw [ownerOf?, hregion, ownerOf?]
  exact {
    listed := fun r x ↦ by rw [hops]; exact hlisted r x
    once := fun r ↦ by rw [hops]; exact h.once r
    results := fun x i v hv ↦ by rw [horigin]; exact h.results x i v (hresults x i v hv)
    args := fun r i v hv ↦ by rw [horigin]; exact h.args r i v (hargs r ▸ hv)
    owned := fun r x ↦ by
      rw [hregions, howner, mem_append, not_or]
      split_ifs with hx
      · subst hx
        simp only [not_mem_nil, false_iff]
        rintro ⟨hr, hnot, hcut⟩
        exact hnot ((h.owned r x).mpr ⟨hr, hcut⟩)
      · rw [h.owned]
        refine ⟨fun hr ↦ ⟨hr.1, fun hmem ↦ ?_, hr.2⟩, fun hr ↦ ⟨hr.1, hr.2.2⟩⟩
        have hother := ((h.owned r o).mp hmem).1
        rw [hr.1] at hother
        exact hx (Owner.op.inj (some.inj hother))
    ownedOnce := fun x ↦ by
      rw [hregions]
      split_ifs
      · exact nodup_nil
      · exact h.ownedOnce x
    names := by rw [hfuncs]; exact h.names
    graph := by rw [hgraph, howner]; exact h.graph
    bodies := fun func hfunc ↦ by rw [howner]; exact h.bodies func (hfuncs ▸ hfunc)
    cutOwner := fun r hr ↦ by
      rw [howner]
      rcases mem_append.mp hr with hr | hr
      · rw [((h.owned r o).mp hr).1]
        simp
      · exact h.cutOwner r hr }

lemma Placed.release (h : Placed (o :: loose) cut p) (l : List ValueId) :
    Placed loose (p.regionsOf o ++ cut) (l.foldl (fun q v ↦ q.dropUse o v) (p.release o)) := by
  have hsame := SameButUsers.dropUses o l (p.release o)
  have hop : ∀ x, (l.foldl (fun q v ↦ q.dropUse o v) (p.release o)).op? x =
      if x = o then none else p.op? x := fun x ↦ (hsame.op? x).trans (op?_release p o x)
  refine h.cutRegions hsame.region? hsame.origins hsame.funcs hsame.graph (fun x i v hv ↦ ?_)
    (fun x ↦ ?_) fun r x ↦ ?_
  · rw [resultsOf, hop] at hv
    split_ifs at hv with hx
    · simp at hv
    · exact hv
  · rw [regionsOf, hop]
    split_ifs <;> rfl
  · rw [h.listed, parentOf?, parentOf?, hop, mem_cons, not_or]
    by_cases hx : x = o
    · simp [hx]
    · simp [hx]

lemma regionsOf_setForm (p : Program) (o : OpId) (hform : ∀ regions, form ≠ .nested regions)
    (x : OpId) : (p.withForm o form).regionsOf x = if x = o then [] else p.regionsOf x := by
  rw [regionsOf, op?_modifyOp]
  split_ifs with hx
  · rcases p.op? x with _ | node
    · rfl
    · cases form with
      | plain => rfl
      | functional refs => rfl
      | nested regions => exact absurd rfl (hform regions)
  · rfl

lemma Placed.setForm (h : Placed loose cut p) (o : OpId) (hform : ∀ regions, form ≠ .nested regions)
    : Placed loose (p.regionsOf o ++ cut) (p.withForm o form) := by
  refine h.cutRegions (fun _ ↦ rfl) (fun _ ↦ rfl) rfl rfl (fun x i v hv ↦ ?_)
    (regionsOf_setForm p o hform) fun r x ↦ ?_
  · rwa [resultsOf_modifyOp _ _ fun _ ↦ by rfl] at hv
  · rw [parentOf?_modifyOp _ _ fun _ ↦ by rfl]
    exact h.listed r x

/-! ### Destruction -/

/-- The number of live operations. -/
def liveCount (p : Program) : Nat :=
  p.slots.countP (·.isSome)

lemma liveCount_le (p : Program) : p.liveCount ≤ p.slots.length :=
  countP_le_length

lemma liveCount_release (ho : (p.op? o).isSome) : (p.release o).liveCount + 1 = p.liveCount := by
  have hlt := index_lt_of_isSome ho
  have hslot : p.slots[o.index].isSome := by
    simpa [op?, getElem?_eq_getElem hlt] using ho
  have hpos : 0 < p.liveCount := countP_pos_iff.mpr ⟨p.slots[o.index], getElem_mem hlt, hslot⟩
  change (p.slots.set o.index none).countP _ + 1 = p.liveCount
  rw [countP_set hlt, if_pos hslot]
  simp only [isSome_none, Bool.false_eq_true, if_false]
  unfold liveCount at hpos ⊢
  omega

lemma op?_eq_none_of_liveCount (h : p.liveCount = 0) (o : OpId) : p.op? o = none := by
  by_contra hne
  have hsome : (p.op? o).isSome := isSome_iff_ne_none.mpr hne
  have := liveCount_release hsome
  omega

structure Destroys (bound : Nat) (f : Program → OpId → Program) : Prop where
  placed : ∀ {q o loose cut}, q.liveCount ≤ bound → Placed (o :: loose) cut q →
    Placed loose cut (f q o)
  shrinks : ∀ q o, (f q o).liveCount ≤ q.liveCount

namespace Destroys

variable {bound : Nat} {f : Program → OpId → Program} (hf : Destroys bound f)

include hf

lemma shrinks_foldl (l : List OpId) (p : Program) : (l.foldl f p).liveCount ≤ p.liveCount := by
  induction l generalizing p with
  | nil => exact Nat.le_refl _
  | cons o rest ih => exact Nat.le_trans (ih (f p o)) (hf.shrinks p o)

lemma placed_foldl (l : List OpId) (hbound : p.liveCount ≤ bound) (h : Placed (l ++ loose) cut p) :
    Placed loose cut (l.foldl f p) := by
  induction l generalizing p with
  | nil => exact h
  | cons o rest ih =>
    exact ih (Nat.le_trans (hf.shrinks p o) hbound) (hf.placed hbound h)

lemma placed_drop (hbound : p.liveCount ≤ bound) (h : Placed loose (r :: cut) p) :
    Placed loose cut (((p.opsIn r).reverse.foldl f (p.setOps r [])).modifyRegion r
      fun region ↦ { region with owner := .detached }) :=
  (hf.placed_foldl _ (p := p.setOps r []) hbound (h.clear r)).disown

lemma placed_dropAll (l : List RegionId) (hbound : p.liveCount ≤ bound)
    (h : Placed loose (l ++ cut) p) : Placed loose cut (l.foldl (fun p r ↦
      ((p.opsIn r).reverse.foldl f (p.setOps r [])).modifyRegion r
        fun region ↦ { region with owner := .detached }) p) := by
  induction l generalizing p with
  | nil => exact h
  | cons r rest ih =>
    refine ih ?_ (hf.placed_drop hbound h)
    exact Nat.le_trans (hf.shrinks_foldl (p.opsIn r).reverse (p.setOps r [])) hbound

end Destroys

lemma liveCount_dropUses (p : Program) (o : OpId) (l : List ValueId) :
    (l.foldl (fun q v ↦ q.dropUse o v) p).liveCount = p.liveCount := by
  rw [liveCount, (SameButUsers.dropUses o l p).slots, liveCount]

lemma liveCount_destroyToDepth_le (depth : Nat) (p : Program) (o : OpId) :
    (destroyToDepth depth p o).liveCount ≤ p.liveCount := by
  refine destroyToDepth_keeps (I := fun q ↦ q.liveCount ≤ p.liveCount) (fun q o node ho hq ↦ ?_)
    (fun _ _ _ hq ↦ hq) depth (Nat.le_refl _) o
  have hrelease := liveCount_release (isSome_of_eq_some ho)
  rw [liveCount_dropUses]
  omega

lemma destroys_destroyToDepth (depth : Nat) : Destroys depth (destroyToDepth depth) := by
  refine ⟨fun {p o loose cut} hbound h ↦ ?_, liveCount_destroyToDepth_le depth⟩
  induction depth generalizing p o loose cut with
  | zero => exact h.of_dead (op?_eq_none_of_liveCount (by omega) o)
  | succ depth ih =>
    unfold destroyToDepth
    rcases ho : p.op? o with _ | node
    · exact h.of_dead ho
    · have hrelease := liveCount_release (isSome_of_eq_some ho)
      have hdrop := liveCount_dropUses (p.release o) o node.operands
      have hplaced := h.release node.operands
      rw [regionsOf_eq ho] at hplaced
      have hdestroys : Destroys depth (destroyToDepth depth) :=
        ⟨fun hq hx ↦ ih hq hx, liveCount_destroyToDepth_le depth⟩
      exact hdestroys.placed_dropAll node.regions (by omega) hplaced

lemma Placed.destroy (h : Placed (o :: loose) cut p) : Placed loose cut (p.destroy o) :=
  (destroys_destroyToDepth _).placed p.liveCount_le h

lemma Placed.dropRegions (l : List RegionId) (h : Placed loose (l ++ cut) p) :
    Placed loose cut (l.foldl dropRegion p) := by
  have hdestroys : Destroys p.liveCount Program.destroy :=
    ⟨fun _ hq ↦ hq.destroy, fun q o ↦ liveCount_destroyToDepth_le _ q o⟩
  exact hdestroys.placed_dropAll l (Nat.le_refl _) h

end TensorGraph.Program
