import Mathlib.Data.List.Perm.Subperm
import Mathlib.Logic.Relation
import TensorGraph.Proofs.NewPlaces

/-!
Programs stay consistent. `Consistent` joins the two halves of the bookkeeping: the users that
values have on record, and the places of operations, values and regions.
-/

namespace TensorGraph

open List Option

variable {p : Program} {o : OpId} {r home : RegionId} {f : Operation → Operation} {index : Nat}
    {old : ValueId}

lemma eraseDups_of_nodup {l : List OpId} (h : l.Nodup) : l.eraseDups = l := by
  induction l with
  | nil => rfl
  | cons a rest ih =>
    rw [nodup_cons] at h
    have hfilter : (rest.filter fun b ↦ !b == a) = rest := by
      rw [filter_eq_self]
      intro b hb
      have hne : b ≠ a := fun heq ↦ h.1 (heq ▸ hb)
      simpa using hne
    rw [eraseDups_cons, hfilter, ih h.2]

lemma nodup_eraseDups (l : List OpId) : l.eraseDups.Nodup := by
  -- The head is taken out of the rest, which gets shorter by that.
  induction hlength : l.length using Nat.strongRecOn generalizing l with
  | _ n ih =>
    subst hlength
    cases l with
    | nil => simp
    | cons a l =>
      rw [eraseDups_cons, nodup_cons]
      refine ⟨fun ha ↦ ?_, ih _ (Nat.lt_succ_of_le (length_filter_le ..)) _ rfl⟩
      simp at ha

/-- Uses are on record, and everything is where it says it is. -/
structure Program.Consistent (p : Program) : Prop where
  uses : p.UsesRecorded
  placed : p.Placed [] []

namespace Program.Consistent

variable (h : p.Consistent)

lemma empty : empty.Consistent := ⟨.empty, .empty⟩

include h

lemma modifyOp (o : OpId) (hf : KeepsLinks f) : (p.modifyOp o f).Consistent :=
  ⟨h.uses.modifyOp o hf.operands, h.placed.modifyOp o hf.parent hf.results hf.regions⟩

lemma modifyFunc (name : String) {f : Func → Func} (hname : ∀ func, (f func).name = func.name)
    (hbody : ∀ func, (f func).body = func.body) : (p.modifyFunc name f).Consistent :=
  ⟨h.uses.of_same rfl rfl (fun _ ho ↦ ho) (fun _ ↦ rfl) fun _ ↦
    rfl, h.placed.modifyFunc name hname hbody⟩

lemma withFunc {name : String} (hname : p.func? name = none) {body : RegionId}
    (hbody : p.ownerOf? body = some .function) (resultTypes : List TensorType) :
    (p.withFunc name body resultTypes).Consistent :=
  ⟨h.uses.of_same rfl rfl (fun _ ho ↦ ho) (fun _ ↦ rfl) fun _ ↦
    rfl, h.placed.withFunc hname hbody resultTypes⟩

lemma withArg (hr : (p.region? r).isSome) (type : TensorType) : (p.withArg r type).Consistent :=
  ⟨(h.uses.pushValue type _).modifyRegion r _, h.placed.withArg hr type⟩

lemma withoutOperand (hold : (p.operandsOf o)[index]? = some old) :
    (p.withoutOperand o index old).Consistent :=
  ⟨h.uses.removeOperand hold, (h.placed.modifyOp o (fun _ ↦ by rfl) (fun _ ↦ by rfl)
    fun _ ↦ by rfl).of_sameButUsers (.dropUse _ o old)⟩

lemma redirected {new : ValueId} (hnew : (p.value? new).isSome) (hne : old ≠ new) :
    (p.redirected old new).Consistent :=
  ⟨h.uses.redirected hnew hne, h.placed.redirected h.uses hne⟩

lemma attach (ho : p.parentOf? o = some home) (hr : (p.region? r).isSome)
    (hindex : index ≤ ((p.detached o home).opsIn r).length) :
    (p.movedOp o home r index).Consistent := by
  have hlive : ((p.detached o home).op? o).isSome := by
    obtain ⟨node, hnode, -⟩ := exists_op_of_parentOf? ho
    rw [show (p.detached o home).op? o = p.op? o from rfl, hnode]
    rfl
  have hregion : ((p.detached o home).region? r).isSome := by
    rw [detached, region?_modifyRegion]
    split_ifs <;> simpa using hr
  exact ⟨((h.uses.modifyRegion home _).modifyRegion r _).modifyOp o fun _ ↦ rfl,
    (h.placed.detached ho).attach hlive hregion hindex⟩

lemma discard (hparent : p.parentOf? o = some r) : (p.discarded o r).Consistent :=
  ⟨(h.uses.modifyRegion r _).destroyToDepth _ o, (h.placed.detached hparent).destroy⟩

/-- The operations of a region are as many as the distinct ones, so an order of the same operations
with that length is a permutation. -/
theorem perm_of_reorder {order : List OpId} (hsame : ∀ o, o ∈ p.opsIn r ↔ o ∈ order)
    (hlength : order.length = (p.opsIn r).eraseDups.length) : (p.opsIn r).Perm order := by
  have hnodup := h.placed.once r
  have hsubperm := subperm_of_subset hnodup fun o ho ↦ (hsame o).mp ho
  refine hsubperm.perm_of_length_le (Nat.le_of_eq ?_)
  rw [hlength, eraseDups_of_nodup hnodup]

lemma position_detached {anchor : OpId} (ho : p.parentOf? o = some home) (hne : o ≠ anchor)
    (hanchor : p.parentOf? anchor = some r) : ∃ index,
    (p.detached o home).position anchor = .ok index := by
  have hlisted : anchor ∈ (p.detached o home).opsIn r :=
    ((h.placed.detached ho).listed r anchor).mpr
    ⟨hanchor, fun hmem ↦ hne (mem_singleton.mp hmem).symm⟩
  exact ⟨_, position_eq_ok.mpr ⟨r, hanchor, hlisted, rfl⟩⟩

variable {v : ValueId}

lemma origin_of_mem_resultsOf (hv : v ∈ p.resultsOf o) :
    ∃ i, p.originOf? v = some (.result o i) := by
  obtain ⟨i, hi⟩ := mem_iff_getElem?.mp hv
  exact ⟨i, h.placed.results o i v hi⟩

lemma origin_of_mem_argsOf (hv : v ∈ p.argsOf r) : ∃ i, p.originOf? v = some (.argument r i) := by
  obtain ⟨i, hi⟩ := mem_iff_getElem?.mp hv
  exact ⟨i, h.placed.args r i v hi⟩

lemma eq_of_mem_resultsOf {o' : OpId} (hv : v ∈ p.resultsOf o)
    (hv' : v ∈ p.resultsOf o') : o = o' := by
  obtain ⟨i, hi⟩ := h.origin_of_mem_resultsOf hv
  obtain ⟨j, hj⟩ := h.origin_of_mem_resultsOf hv'
  cases hi.symm.trans hj
  rfl

lemma eq_of_mem_argsOf {r' : RegionId} (hv : v ∈ p.argsOf r) (hv' : v ∈ p.argsOf r') : r = r' := by
  obtain ⟨i, hi⟩ := h.origin_of_mem_argsOf hv
  obtain ⟨j, hj⟩ := h.origin_of_mem_argsOf hv'
  cases hi.symm.trans hj
  rfl

lemma not_mem_argsOf (hv : v ∈ p.resultsOf o) : v ∉ p.argsOf r := by
  intro hv'
  obtain ⟨i, hi⟩ := h.origin_of_mem_resultsOf hv
  obtain ⟨j, hj⟩ := h.origin_of_mem_argsOf hv'
  cases hi.symm.trans hj

end Program.Consistent

namespace Program

/-! ### Changes -/

/-- One change to a program, under the conditions that edits check before they make it. Only changes
with the first mark move an operation, and only those with the second one bring values into use or
take them from their places. -/
inductive Change (p : Program) : Bool → Bool → Program → Prop where
  | modify {moves rewires : Bool} (o : OpId) {f : Operation → Operation}
      (hoperands : ∀ node, (f node).operands = node.operands)
      (hparent : ∀ node, (f node).parent = node.parent)
      (hresults : ∀ node, (f node).results = node.results)
      (hregions : ∀ node, (f node).regions = node.regions)
      (hnodup : (p.controlOf o).Nodup → ∀ node, p.op? o = some node → (f node).control.Nodup)
      (hwaits : ∀ node, p.op? o = some node → ∀ d ∈ (f node).control, d ∈ node.control ∨
      (p.op? d).isSome) : Change p moves rewires (p.modifyOp o f)
  | reorder {moves rewires : Bool} {r : RegionId} {order : List OpId} (hr : (p.region? r).isSome)
      (hsame : ∀ o, o ∈ p.opsIn r ↔ o ∈ order)
      (hlength : order.length = (p.opsIn r).eraseDups.length) :
      Change p moves rewires (p.setOps r order)
  | retype {moves rewires : Bool} (v : ValueId) (type : TensorType) :
      Change p moves rewires (p.setType v type)
  | dropOperand {moves rewires : Bool} (o : OpId) (index : Nat) (old : ValueId)
      (hold : (p.operandsOf o)[index]? = some old) :
      Change p moves rewires (p.withoutOperand o index old)
  | addArg {moves rewires : Bool} (r : RegionId) (type : TensorType) (hr : (p.region? r).isSome) :
      Change p moves rewires (p.withArg r type)
  | addRegion {moves rewires : Bool} (o : OpId) (execution : Execution) (ho : (p.op? o).isSome) :
      Change p moves rewires (p.withRegion o execution)
  | addBody {moves rewires : Bool} : Change p moves rewires (p.pushRegion .function .once)
  | addFunc {moves rewires : Bool} (name : String) (body : RegionId) (resultTypes : List TensorType)
      (hname : p.func? name = none) (howner : p.ownerOf? body = some .function)
      (hfresh : body ∉ p.funcs.map (·.body)) : Change p moves rewires
      (p.withFunc name body resultTypes)
  | newGraph {moves rewires : Bool} : Change p moves rewires p.withNewGraph
  | modifyFunc {moves rewires : Bool} (name : String) {f : Func → Func}
      (hname : ∀ func, (f func).name = func.name) (hbody : ∀ func, (f func).body = func.body) :
      Change p moves rewires (p.modifyFunc name f)
  | move {rewires : Bool} (o : OpId) (home r : RegionId) (index : Nat)
      (ho : p.parentOf? o = some home) (hr : (p.region? r).isSome)
      (hindex : index ≤ ((p.detached o home).opsIn r).length) :
      Change p true rewires (p.movedOp o home r index)
  | insert {moves : Bool} (r : RegionId) (index : Nat) (new : NewOp) (hr : (p.region? r).isSome)
      (hindex : index ≤ (p.opsIn r).length) (hoperands : ∀ v ∈ new.operands, (p.value? v).isSome)
      (hcontrol : ∀ d ∈ new.control, (p.op? d).isSome) : Change p moves true (p.withOp r index new)
  | redirect {moves : Bool} {old new : ValueId} (hnew : (p.value? new).isSome) (hne : old ≠ new) :
      Change p moves true (p.redirected old new)
  | setOperand {moves : Bool} (o : OpId) (index : Nat) (v old : ValueId) (hv : (p.value? v).isSome)
      (hold : (p.operandsOf o)[index]? = some old) : Change p moves true (((p.modifyOp o fun node ↦
        { node with operands := node.operands.set index v }).dropUse o old).addUse o v)
  | setOperands {moves : Bool} (o : OpId) (operands : List ValueId) (ho : (p.op? o).isSome)
      (hoperands : ∀ v ∈ operands, (p.value? v).isSome) :
      Change p moves true (p.withOperands o operands)
  | dropResult {moves : Bool} (o : OpId) (index : Nat) :
      Change p moves true (p.withoutResult o index)
  | dropArg {moves : Bool} (r : RegionId) (index : Nat) : Change p moves true (p.withoutArg r index)

namespace Change

variable {q : Program} {moves rewires : Bool}

lemma describe (o : OpId) (hf : KeepsLinks f) (hcontrol : ∀ node, (f node).control = node.control) :
    Change p moves rewires (p.modifyOp o f) := by
  refine .modify o hf.operands hf.parent hf.results hf.regions (fun h node ho ↦ ?_)
    fun node _ d hd ↦ ?_
  · rwa [hcontrol, ← controlOf_eq ho]
  · exact .inl (hcontrol node ▸ hd)

lemma consistent (h : Change p moves rewires q) (hp : p.Consistent) : q.Consistent := by
  cases h with
  | modify o hoperands hparent hresults hregions =>
    exact hp.modifyOp o ⟨hoperands, hparent, hresults, hregions⟩
  | @reorder _ _ r order hr hsame hlength =>
    have hperm := hp.perm_of_reorder hsame hlength
    exact ⟨hp.uses.modifyRegion r _, hp.placed.setOps hr (hperm.nodup (hp.placed.once r)) hsame⟩
  | retype v type =>
    exact ⟨hp.uses.modifyValue v fun _ ↦ rfl, hp.placed.of_sameButUsers
      (.modifyValue p v fun _ ↦ rfl)⟩
  | dropOperand o index old hold => exact hp.withoutOperand hold
  | addArg r type hr => exact hp.withArg hr type
  | addRegion o execution ho =>
    exact ⟨(hp.uses.pushRegion _ _).modifyOp o fun _ ↦ rfl, hp.placed.withRegion ho execution⟩
  | addBody => exact ⟨hp.uses.pushRegion _ _, hp.placed.pushBody .once⟩
  | addFunc name body resultTypes hname howner => exact hp.withFunc hname howner resultTypes
  | newGraph =>
    exact ⟨hp.uses.of_same rfl rfl (fun _ ho ↦ ho) (fun _ ↦ rfl) fun _ ↦
      rfl, hp.placed.withNewGraph⟩
  | modifyFunc name hname hbody => exact hp.modifyFunc name hname hbody
  | move o home r index ho hr hindex => exact hp.attach ho hr hindex
  | insert r index new hr hindex hoperands =>
    exact ⟨hp.uses.withOp r index hoperands, hp.placed.withOp hp.uses.free hr hindex new⟩
  | redirect hnew hne => exact hp.redirected hnew hne
  | setOperand o index v old hv hold =>
    refine ⟨hp.uses.setOperand hv hold, ?_⟩
    exact ((hp.placed.modifyOp o (fun _ ↦ by rfl) (fun _ ↦ by rfl) fun _ ↦ by rfl).of_sameButUsers
      (.dropUse _ o old)).of_sameButUsers (.addUse _ o v)
  | setOperands o operands ho hoperands =>
    refine ⟨hp.uses.withOperands ho hoperands, ?_⟩
    exact ((hp.placed.modifyOp o (fun _ ↦ by rfl) (fun _ ↦ by rfl) fun _ ↦ by rfl).of_sameButUsers
      (.dropUses o _ _)).of_sameButUsers (.addUses o _ _)
  | dropResult o index => exact ⟨hp.uses.withoutResult o index, hp.placed.withoutResult o index⟩
  | dropArg r index => exact ⟨hp.uses.withoutArg r index, hp.placed.withoutArg r index⟩

end Change

end Program

namespace Edit

open Program

variable {α β : Type} {moves rewires : Bool} {e : Edit α}

def Makes (moves rewires : Bool) (e : Edit α) : Prop :=
  ∀ p, p.Consistent → (∃ answer, e.exec p = (answer, p)) ∨
    ∃ a q, e.exec p = (.ok a, q) ∧ Change p moves rewires q

structure Changed (moves rewires : Bool) (p q : Program) : Prop where
  consistent : q.Consistent
  path : Relation.ReflTransGen (fun a b ↦ a.Consistent ∧ Change a moves rewires b) p q

def Through (moves rewires : Bool) (e : Edit α) : Prop :=
  ∀ p, Keeps (Changed moves rewires p) e

lemma Changed.step {s q : Program} (h : Changed moves rewires p s)
    (hchange : Change s moves rewires q) :
    Changed moves rewires p q :=
  ⟨hchange.consistent h.consistent, h.path.tail ⟨h.consistent, hchange⟩⟩

lemma Through.keeps_of (h : Through moves rewires e) {I : Program → Prop}
    (hI : ∀ {a b}, a.Consistent → Change a moves rewires b → I a → I b) (hp : p.Consistent)
    (hstart : I p) : I (e.exec p).2 := by
  obtain ⟨-, hpath⟩ := h p p ⟨hp, .refl⟩
  generalize (e.exec p).2 = q at hpath
  induction hpath with
  | refl => exact hstart
  | tail _ hchange ih => exact hI hchange.1 hchange.2 ih

lemma Through.keeps (h : Through true true e) : Keeps Consistent e := fun p hp ↦
  (h p p ⟨hp, .refl⟩).consistent

lemma Through.bind_pure (h : Through moves rewires e) (f : α → β) :
    Through moves rewires (e >>= fun a ↦ pure (f a)) := fun p ↦ .bind (h p) fun _ ↦ .pure _

lemma Makes.through (h : Makes moves rewires e) : Through moves rewires e := by
  intro p q hq
  rcases h q hq.consistent with ⟨answer, hsame⟩ | ⟨a, m, hok, hchange⟩
  · rw [hsame]
    exact hq
  · rw [hok]
    exact hq.step hchange

lemma Makes.keeps (h : Makes true true e) : Keeps Consistent e :=
  h.through.keeps

lemma Makes.bind_pure (h : Makes moves rewires e) (f : α → β) :
    Makes moves rewires (e >>= fun a ↦ pure (f a)) := by
  intro p hp
  rcases h p hp with ⟨answer, hsame⟩ | ⟨a, q, hok, hchange⟩
  · cases answer with
    | error err => exact .inl ⟨_, exec_bind_of_error hsame _⟩
    | ok a => exact .inl ⟨_, exec_bind_of_ok hsame _⟩
  · exact .inr ⟨_, q, exec_bind_of_ok hok _, hchange⟩

lemma Makes.of_does {R : Program → α → Program → Prop} (h : ∀ p, Does e p (R p))
    (hR : ∀ p a q, R p a q → Change p moves rewires q) : Makes moves rewires e := by
  intro p _
  rcases h p with ⟨err, herr, -⟩ | ⟨a, q, hok, hdoes⟩
  · exact .inl ⟨_, herr⟩
  · exact .inr ⟨a, q, hok, hR p a q hdoes⟩

/-! ### Operations -/

lemma makes_insertOp (r : RegionId) (index : Nat) (new : NewOp) :
    Makes moves true (insertOp r index new) := by
  refine .of_does (fun _ ↦ does_insertOp) ?_
  rintro p _ _ ⟨hr, hindex, hoperands, hcontrol, -, rfl⟩
  exact .insert r index new hr hindex hoperands hcontrol

lemma makes_appendOp (r : RegionId) (new : NewOp) : Makes moves true (appendOp r new) := by
  refine .of_does (fun _ ↦ does_appendOp) ?_
  rintro p _ _ ⟨hr, hoperands, hcontrol, -, rfl⟩
  exact .insert r _ new hr (Nat.le_refl _) hoperands hcontrol

lemma makes_insertOpBefore (anchor : OpId) (new : NewOp) :
    Makes moves true (insertOpBefore anchor new) := by
  refine .of_does (fun _ ↦ does_insertOpBefore) ?_
  rintro p _ _ ⟨r, -, hmem, hoperands, hcontrol, -, rfl⟩
  exact .insert r _ new (isSome_region?_of_mem_opsIn hmem) idxOf_le_length hoperands hcontrol

lemma makes_addControl (o dep : OpId) : Makes moves rewires (addControl o dep) := by
  intro p _
  rcases does_addControl (o := o) (p := p) with ⟨err, herr, -⟩ | ⟨_, q, hok, hdep, -, hq⟩
  · exact .inl ⟨_, herr⟩
  split_ifs at hq with hold <;> subst hq
  · exact .inl ⟨_, hok⟩
  · refine .inr ⟨_, _, hok, .modify o (fun _ ↦ rfl) (fun _ ↦ rfl) (fun _ ↦ rfl) (fun _ ↦ rfl)
      (fun hnodup node ho ↦ ?_) fun node ho d hd ↦ ?_⟩
    · rw [controlOf_eq ho] at hnodup hold
      exact nodup_append'.mpr ⟨hnodup, nodup_singleton _, by simpa using hold⟩
    · rcases mem_append.mp hd with hd | hd
      · exact .inl hd
      · exact .inr (mem_singleton.mp hd ▸ hdep)

lemma makes_setControl (o : OpId) (deps : List OpId) : Makes moves rewires (setControl o deps) := by
  refine .of_does (fun _ ↦ does_setControl) ?_
  rintro p _ _ ⟨hdeps, -, rfl⟩
  refine .modify o (fun _ ↦ rfl) (fun _ ↦ rfl) (fun _ ↦ rfl) (fun _ ↦ rfl)
    (fun _ _ _ ↦ nodup_eraseDups deps) ?_
  exact fun _ _ d hd ↦ .inr (hdeps d (mem_eraseDups.mp hd))

lemma through_replaceControl (old new : OpId) : Through moves rewires (replaceControl old new) :=
  fun p ↦ .bind (.read _) fun _ ↦ .bind .get fun _ ↦
  .forM (fun _ ↦ .bind (.read _) fun _ ↦ (makes_setControl _ _).through p) _

lemma makes_moveOp (o : OpId) (r : RegionId) (index : Nat) :
    Makes true rewires (moveOp o r index) := by
  refine .of_does (fun _ ↦ does_moveOp) ?_
  rintro p _ _ ⟨home, hparent, -, hr, rfl⟩
  exact .move o home r _ hparent hr (Nat.min_le_right ..)

lemma makes_moveOpBefore (o anchor : OpId) : Makes true rewires (moveOpBefore o anchor) := by
  intro p hp
  rcases moveOpBefore_cases o anchor p with
    hsame | ⟨home, r, hparent, -, hne, hanchor, ⟨err, herr, -⟩ | ⟨hlisted, hok⟩⟩
  · exact .inl hsame
  · obtain ⟨index, hindex⟩ := hp.position_detached hparent hne hanchor
    cases herr.symm.trans hindex
  · have hmem : anchor ∈ p.opsIn r := (hp.placed.listed r anchor).mpr ⟨hanchor, by simp⟩
    exact .inr
      ⟨_, _, hok, .move o home r _ hparent (isSome_region?_of_mem_opsIn hmem) idxOf_le_length⟩

lemma makes_reorder (r : RegionId) (order : List OpId) : Makes moves rewires (reorder r order) := by
  refine .of_does (fun _ ↦ does_reorder) ?_
  rintro p _ _ ⟨hr, hsame, hlength, rfl⟩
  exact .reorder hr hsame hlength

lemma makes_updateOp (o : OpId) (hf : KeepsLinks f)
    (hcontrol : ∀ node, (f node).control = node.control) : Makes moves rewires (updateOp o f) := by
  refine .of_does (fun _ ↦ does_updateOp) ?_
  rintro p _ _ ⟨-, rfl⟩
  exact .describe o hf hcontrol

lemma makes_setName (o : OpId) (name : String) : Makes moves rewires (setName o name) :=
  makes_updateOp o {} fun _ ↦ rfl

lemma makes_setKind (o : OpId) (kind : String) : Makes moves rewires (setKind o kind) :=
  makes_updateOp o {} fun _ ↦ rfl

lemma makes_setAttr (o : OpId) (name : String) (value : Attribute) :
    Makes moves rewires (setAttr o name value) := by
  refine .of_does (fun _ ↦ does_setAttr) ?_
  rintro p _ _ ⟨-, rfl⟩
  exact .describe o {} fun _ ↦ rfl

lemma makes_removeAttr (o : OpId) (name : String) : Makes moves rewires (removeAttr o name) := by
  refine .of_does (fun _ ↦ does_removeAttr) ?_
  rintro p _ _ ⟨-, rfl⟩
  exact .describe o {} fun _ ↦ rfl

/-! ### Values and operands -/

lemma makes_setType (v : ValueId) (type : TensorType) : Makes moves rewires (setType v type) := by
  refine .of_does (fun _ ↦ does_setType) ?_
  rintro p _ _ ⟨-, rfl⟩
  exact .retype v type

lemma makes_replaceUses (old new : ValueId) : Makes moves true (replaceUses old new) := by
  intro p _
  rcases does_replaceUses (p := p) with ⟨err, herr, -⟩ | ⟨_, _, hok, hnew, ⟨-, rfl⟩ | ⟨-, hne, rfl⟩⟩
  · exact .inl ⟨_, herr⟩
  · exact .inl ⟨_, hok⟩
  · exact .inr ⟨_, _, hok, .redirect hnew hne⟩

lemma makes_setOperand (o : OpId) (index : Nat) (v : ValueId) :
    Makes moves true (setOperand o index v) := by
  refine .of_does (fun _ ↦ does_setOperand) ?_
  rintro p _ _ ⟨hv, old, hold, rfl⟩
  exact .setOperand o index v old hv hold

lemma makes_setOperands (o : OpId) (operands : List ValueId) :
    Makes moves true (setOperands o operands) := by
  refine .of_does (fun _ ↦ does_setOperands) ?_
  rintro p _ _ ⟨hoperands, ho, rfl⟩
  exact .setOperands o operands ho hoperands

lemma makes_removeOperand (o : OpId) (index : Nat) :
    Makes moves rewires (removeOperand o index) := by
  refine .of_does (fun _ ↦ does_removeOperand) ?_
  rintro p _ _ ⟨old, hold, rfl⟩
  exact .dropOperand o index old hold

lemma makes_removeResult (o : OpId) (index : Nat) : Makes moves true (removeResult o index) := by
  refine .of_does (fun _ ↦ does_removeResult) ?_
  rintro p _ _ ⟨v, -, -, -, rfl⟩
  exact .dropResult o index

/-! ### Regions and functions -/

lemma makes_addArg (r : RegionId) (type : TensorType) : Makes moves rewires (addArg r type) := by
  refine .of_does (fun _ ↦ does_addArg) ?_
  rintro p _ _ ⟨hr, -, rfl⟩
  exact .addArg r type hr

lemma makes_removeArg (r : RegionId) (index : Nat) : Makes moves true (removeArg r index) := by
  refine .of_does (fun _ ↦ does_removeArg) ?_
  rintro p _ _ ⟨v, -, -, -, rfl⟩
  exact .dropArg r index

lemma makes_addRegion (o : OpId) (execution : Execution) :
    Makes moves rewires (addRegion o execution) := by
  refine .of_does (fun _ ↦ does_addRegion) ?_
  rintro p _ _ ⟨⟨node, ho, -⟩, -, rfl⟩
  exact .addRegion o execution (isSome_of_eq_some ho)

structure Declares (moves rewires : Bool) (start : Program) (name : String) (body : RegionId)
    (p : Program) : Prop where
  changed : Changed moves rewires start p
  free : p.func? name = none
  fresh : body ∉ p.funcs.map (·.body)
  owner : p.ownerOf? body = some .function

namespace Declares

variable {start : Program} {name : String} {body : RegionId}

lemma pushFunc (h : Declares moves rewires start name body p) (resultTypes : List TensorType) :
    Changed moves rewires start ((pushFunc name body resultTypes).exec p).2 := by
  refine does_pushFunc.leaves h.changed ?_
  rintro _ _ - ⟨-, rfl⟩
  exact h.changed.step (.addFunc name body resultTypes h.free h.owner h.fresh)

lemma addArg (r : RegionId) (type : TensorType) : Keeps (Declares moves rewires start name body)
    (addArg r type) := by
  intro p hp
  refine does_addArg.leaves hp ?_
  rintro _ _ - ⟨hr, -, rfl⟩
  refine ⟨hp.changed.step (.addArg r type hr), hp.free, hp.fresh, ?_⟩
  exact (ownerOf?_modifyRegion (p.pushValue type _) r (fun _ ↦ by rfl) body).trans hp.owner

end Declares

lemma not_mem_bodies (hp : p.Consistent) (hr : p.ownerOf? r ≠ some .function) :
    r ∉ p.funcs.map (·.body) := by
  intro hmem
  obtain ⟨func, hfunc, rfl⟩ := mem_map.mp hmem
  exact hr (hp.placed.bodies func hfunc)

lemma through_addFunction (name : String) (argTypes resultTypes : List TensorType) :
    Through moves rewires (addFunction name argTypes resultTypes) := by
  intro start p hp
  unfold addFunction
  rcases does_checkFunctionName (p := p) with ⟨err, herr, -⟩ | ⟨_, p, hok, hname, rfl⟩
  · rw [exec_bind_of_error herr]
    exact hp
  · rw [exec_bind_of_ok hok, exec_get_bind, exec_bind_of_ok (exec_modify _ _)]
    have hbody : (p.pushRegion .function .once).ownerOf? p.nextRegion = some .function := by
      rw [ownerOf?_pushRegion, if_pos rfl]
    have hfresh : p.nextRegion ∉ p.funcs.map (·.body) :=
      not_mem_bodies hp.consistent (by simp [ownerOf?, region?_nextRegion])
    have hargs := Keeps.forM (fun type ↦ Keeps.bind (Declares.addArg p.nextRegion type)
      fun _ ↦ .pure PUnit.unit) argTypes _ ⟨hp.step .addBody, hname, hfresh, hbody⟩
    refine Keeps.of_bind (J := Declares moves rewires start name p.nextRegion) hargs
      (fun _ hq ↦ hq.changed) ?_
    intro _ q hq
    exact Keeps.of_bind (hq.pushFunc resultTypes) (fun _ h ↦ h) fun _ _ h ↦ h

lemma through_graphIntoFunction (name : String) (resultTypes : List TensorType) :
    Through moves rewires (graphIntoFunction name resultTypes) := by
  intro start p hp
  have hplaced := hp.consistent.placed
  unfold graphIntoFunction
  rcases does_checkFunctionName (p := p) with ⟨err, herr, -⟩ | ⟨_, p, hok, hname, rfl⟩
  · rw [exec_bind_of_error herr]
    exact hp
  · obtain ⟨region, hregion, -⟩ := map_eq_some_iff.mp hplaced.graph
    rw [exec_bind_of_ok hok, exec_get_bind, bind_readRegion hregion, exec_get_bind, exec_bind_of_ok
      (exec_modify _ _)]
    have hfresh : p.graph ∉ p.funcs.map (·.body) :=
      not_mem_bodies hp.consistent (by simp [hplaced.graph])
    have hdeclares : Declares moves rewires start name p.graph p.withNewGraph :=
      ⟨hp.step .newGraph, hname, hfresh, hplaced.graph_withNewGraph⟩
    exact Keeps.of_bind (hdeclares.pushFunc resultTypes) (fun _ h ↦ h) fun _ _ h ↦ h

lemma readFunc_cases (name : String) (p : Program) :
    (∃ err, (readFunc name).exec p = (.error err, p)) ∨ ∃ func, (readFunc name).exec p =
    (.ok func, p) := by
  unfold readFunc
  rw [exec_get_bind]
  cases p.func? name with
  | none => exact .inl ⟨_, rfl⟩
  | some func => exact .inr ⟨func, rfl⟩

lemma makes_setFuncAttr (func : String) (slot : FuncSlot) (name : String) (value : Attribute) :
    Makes moves rewires (setFuncAttr func slot name value) := by
  intro p _
  unfold setFuncAttr
  rcases readFunc_cases func p with ⟨err, herr⟩ | ⟨old, hok⟩
  · exact .inl ⟨_, exec_bind_of_error herr _⟩
  · exact .inr ⟨_, _, exec_bind_of_ok hok _,
      .modifyFunc func (fun _ ↦ by cases slot <;> rfl) fun _ ↦ by cases slot <;> rfl⟩

lemma makes_setFuncResults (func : String) (resultTypes : List TensorType) :
    Makes moves rewires (setFuncResults func resultTypes) := by
  intro p _
  unfold setFuncResults
  rcases readFunc_cases func p with ⟨err, herr⟩ | ⟨old, hok⟩
  · exact .inl ⟨_, exec_bind_of_error herr _⟩
  · exact .inr ⟨_, _, exec_bind_of_ok hok _, .modifyFunc func (fun _ ↦ rfl) fun _ ↦ rfl⟩

/-! ### Copies -/

section Copies

variable {I : Program → Prop} (harg : ∀ r type, Keeps I (addArg r type))

include harg

lemma Keeps.copyArgs (source target : RegionId) (m : CopyMap) :
    Keeps I (copyArgs source target m) :=
  .bind (.read _) fun _ ↦
    .foldlM (fun _ _ ↦ .bind (.read _) fun _ ↦ .bind (harg _ _) fun _ ↦ .pure _) _ _

variable (hop : ∀ r new, Keeps I (appendOp r new))
  (hregion : ∀ o execution, Keeps I (addRegion o execution))

include hop hregion

lemma Keeps.copyToDepth (depth : Nat) (source target : RegionId) (m : CopyMap) :
    Keeps I (copyToDepth depth source target m) := by
  induction depth generalizing source target m with
  | zero => exact .pure _
  | succ depth ih =>
    refine .bind (.read _) fun region ↦ .foldlM (fun m old ↦ ?_) _ _
    refine .bind (.read _) fun node ↦ .bind (.mapM (fun _ ↦ .read _) _) fun types ↦
      .bind (hop _ _) fun new ↦ .bind (.read _) fun copy ↦ .foldlM (fun m nested ↦ ?_) _ _
    exact .bind (.read _) fun _ ↦ .bind (hregion _ _) fun _ ↦ .bind (.copyArgs harg _ _ _)
      fun _ ↦ ih _ _ _

lemma Keeps.copyRegion (source target : RegionId) (seed : List (ValueId × ValueId)) :
    Keeps I (copyRegion source target seed) :=
  .bind .get fun _ ↦ .bind (.copyToDepth harg hop hregion _ _ _ _) fun _ ↦ .pure _

end Copies

lemma through_copyRegion (source target : RegionId) (seed : List (ValueId × ValueId)) :
    Through moves true (copyRegion source target seed) := fun p ↦
  .copyRegion (fun r type ↦ (makes_addArg r type).through p)
    (fun r new ↦ (makes_appendOp r new).through p)
    (fun o execution ↦ (makes_addRegion o execution).through p) source target seed

/-! ### Edits that destroy -/

lemma keeps_setForm (o : OpId) (form : Form) : Keeps Consistent (setForm o form) := by
  intro p hp
  refine does_setForm.leaves hp ?_
  rintro _ _ - ⟨hform, -, rfl⟩
  refine ⟨?_, (hp.placed.setForm o hform).dropRegions _⟩
  exact foldl_keeps (I := UsesRecorded) (fun _ r hq ↦ hq.dropRegion r) _
    (hp.uses.modifyOp o fun _ ↦ rfl)

lemma keeps_eraseOp (o : OpId) : Keeps Consistent (eraseOp o) :=
  .eraseOp (fun _ _ x _ deps ↦ (makes_setControl x deps).keeps) fun _ _ hq hparent ↦
    hq.discard hparent

end Edit

/-! ### Reachable programs -/

def Command.isSparing : Command → Bool
  | .erase _ => false
  | .setForm _ _ => false
  | _ => true

def Command.isMove : Command → Bool
  | .move _ _ _ => true
  | .moveBefore _ _ => true
  | _ => false

def Command.isRewiring : Command → Bool
  | .append _ _ | .insert _ _ _ | .insertBefore _ _ | .replaceUses _ _ | .setOperand _ _ _ |
      .setOperands _ _ => true
  | .removeResult _ _ | .removeArg _ _ | .copyRegion _ _ _ => true
  | _ => false

def Command.isElementary : Command → Bool
  | .erase _ | .setForm _ _ | .replaceControl _ _ | .copyRegion _ _ _ => false
  | .addFunction _ _ _ | .graphIntoFunction _ _ => false
  | _ => true

section Commands

open Edit

variable {moves rewires : Bool} {command : Command}

lemma Command.makes_run (h : command.isElementary = true)
    (hmoves : command.isMove = true → moves = true)
    (hrewires : command.isRewiring = true → rewires = true) : Makes moves rewires command.run := by
  cases command with
  | append r new =>
    obtain rfl := hrewires rfl
    exact (makes_appendOp r new).bind_pure _
  | insert r index new =>
    obtain rfl := hrewires rfl
    exact (makes_insertOp r index new).bind_pure _
  | insertBefore anchor new =>
    obtain rfl := hrewires rfl
    exact (makes_insertOpBefore anchor new).bind_pure _
  | addFunction name argTypes resultTypes => cases h
  | graphIntoFunction name resultTypes => cases h
  | addRegion o execution => exact (makes_addRegion o execution).bind_pure _
  | addArg r type => exact (makes_addArg r type).bind_pure _
  | removeArg r index =>
    obtain rfl := hrewires rfl
    exact (makes_removeArg r index).bind_pure _
  | setType v type => exact (makes_setType v type).bind_pure _
  | replaceUses old new =>
    obtain rfl := hrewires rfl
    exact (makes_replaceUses old new).bind_pure _
  | addControl o dep => exact (makes_addControl o dep).bind_pure _
  | setControl o deps => exact (makes_setControl o deps).bind_pure _
  | replaceControl old new => cases h
  | setOperand o index v =>
    obtain rfl := hrewires rfl
    exact (makes_setOperand o index v).bind_pure _
  | setOperands o operands =>
    obtain rfl := hrewires rfl
    exact (makes_setOperands o operands).bind_pure _
  | removeOperand o index => exact (makes_removeOperand o index).bind_pure _
  | removeResult o index =>
    obtain rfl := hrewires rfl
    exact (makes_removeResult o index).bind_pure _
  | setForm o form => cases h
  | erase o => cases h
  | move o r index =>
    obtain rfl := hmoves rfl
    exact (makes_moveOp o r index).bind_pure _
  | moveBefore o anchor =>
    obtain rfl := hmoves rfl
    exact (makes_moveOpBefore o anchor).bind_pure _
  | reorder r order => exact (makes_reorder r order).bind_pure _
  | copyRegion source target seed => cases h
  | setAttr o name value => exact (makes_setAttr o name value).bind_pure _
  | removeAttr o name => exact (makes_removeAttr o name).bind_pure _
  | setName o name => exact (makes_setName o name).bind_pure _
  | setKind o kind => exact (makes_setKind o kind).bind_pure _
  | setFuncAttr func slot name value => exact (makes_setFuncAttr func slot name value).bind_pure _
  | setFuncResults func resultTypes => exact (makes_setFuncResults func resultTypes).bind_pure _

lemma Command.through_run (h : command.isSparing = true)
    (hmoves : command.isMove = true → moves = true)
    (hrewires : command.isRewiring = true → rewires = true) :
    Through moves rewires command.run := by
  by_cases helementary : command.isElementary = true
  · exact (command.makes_run helementary hmoves hrewires).through
  · cases command with
    | addFunction name argTypes resultTypes =>
      exact (through_addFunction name argTypes resultTypes).bind_pure _
    | graphIntoFunction name resultTypes =>
      exact (through_graphIntoFunction name resultTypes).bind_pure _
    | replaceControl old new => exact (through_replaceControl old new).bind_pure _
    | copyRegion source target seed =>
      obtain rfl := hrewires rfl
      exact (through_copyRegion source target seed).bind_pure _
    | erase o => cases h
    | setForm o form => cases h
    | _ => exact absurd rfl helementary

lemma Command.keeps_run (command : Command) : Keeps Program.Consistent command.run := by
  by_cases hsparing : command.isSparing = true
  · exact (command.through_run hsparing (fun _ ↦ rfl) fun _ ↦ rfl).keeps
  · cases command with
    | erase o => exact .bind (keeps_eraseOp o) fun _ ↦ .pure _
    | setForm o form => exact .bind (keeps_setForm o form) fun _ ↦ .pure _
    | _ => exact absurd rfl hsparing

end Commands

lemma Reachable.consistent (h : Reachable p) : p.Consistent := by
  induction h with
  | empty => exact .empty
  | step command _ ih => exact command.keeps_run _ ih

/-- Append to a region an operation with values to read, a number of results of unknown type and
operations to wait for. -/
def Command.node (region : Nat) (kind : String) (operands : List Nat := []) (results : Nat := 0)
    (control : List Nat := []) : Command :=
  .append ⟨region⟩ {
    kind
    operands := operands.map .mk
    resultTypes := List.replicate results .unknown
    control := control.map .mk }

/-- Append to a region a constant whose value is a single number with the given bits. -/
def Command.constant (region : Nat) (word : UInt32) : Command :=
  .append ⟨region⟩ {
    kind := "Const"
    resultTypes := [.fixed .f32 []]
    attrs := .ofList [("value", .tensor { data := .f32 [⟨word⟩], sizes := [] })] }

/-- The program that commands build from the empty one. -/
def Program.built (commands : List Command) : Program :=
  commands.foldl (fun p command ↦ command.apply p) .empty

lemma reachable_built (commands : List Command) : Reachable (.built commands) :=
  Program.foldl_keeps (I := Reachable) (fun _ command hp ↦ hp.step command) commands .empty

/-- A value has an operation on record as often as operand slots of the operation hold it, and an
operation that is not live not at all. -/
theorem Reachable.count_users {p : Program} (h : Reachable p) {v : ValueId} {value : Value}
    (hv : p.value? v = some value) (o : OpId) : value.users.count o =
      match p.op? o with
      | some node => node.operands.count v
      | none => 0 := by
  have hcount := h.consistent.uses.counts v o
  rw [Program.usersOf_eq hv] at hcount
  rw [hcount]
  rcases ho : p.op? o with _ | node
  · simp [Program.operandsOf, ho]
  · rw [Program.operandsOf_eq ho]

/-- The handle of an erased operation is given to one that uses the value twice. -/
theorem count_users_of_reused_handle :
    let p := Program.built [
      .node 0 "source" [] 1, .node 0 "once" [0], .erase ⟨1⟩, .node 0 "twice" [0, 0]]
    let value : Value := { type := .unknown, origin := .result ⟨0⟩ 0, users := [⟨1⟩, ⟨1⟩] }
    Reachable p ∧ p.value? ⟨0⟩ = some value ∧ value.users.count ⟨1⟩ = 2 := by
  intro p value
  have hp : Reachable p := reachable_built _
  have hv : p.value? ⟨0⟩ = some value := rfl
  exact ⟨hp, hv, Reachable.count_users hp hv ⟨1⟩⟩

/-- The value at a place among results or arguments. -/
def Program.valueAt? (p : Program) : Origin → Option ValueId
  | .result o index => (p.resultsOf o)[index]?
  | .argument r index => (p.argsOf r)[index]?

/-- A live operation is listed once, in the region it lies in, and nothing else is listed. The value
at a place among results or arguments knows that place and is at no other. A region is listed once
by the operation that owns it and by no other. The names of functions are distinct. -/
theorem Reachable.everything_in_place {p : Program} (h : Reachable p) :
    (∀ o r, (p.opsIn r).count o = if p.parentOf? o = some r then 1 else 0) ∧
    (∀ place v, p.valueAt? place = some v → p.originOf? v = some place) ∧
    (∀ place other v, p.valueAt? place = some v → p.valueAt? other = some v → place = other) ∧
    (∀ o r, (p.regionsOf o).count r = if p.ownerOf? r = some (.op o) then 1 else 0) ∧
    (p.funcs.map (·.name)).Nodup := by
  obtain ⟨-, hplaced⟩ := h.consistent
  have horigin : ∀ place v, p.valueAt? place = some v → p.originOf? v = some place := by
    intro place v hv
    rcases place with ⟨o, index⟩ | ⟨r, index⟩
    · exact hplaced.results o index v hv
    · exact hplaced.args r index v hv
  refine ⟨fun o r ↦ ?_, horigin, fun place other v hplace hother ↦ ?_, fun o r ↦ ?_, hplaced.names⟩
  · rw [(hplaced.once r).count]
    exact if_congr ((hplaced.listed r o).trans (and_iff_left not_mem_nil)) rfl rfl
  · exact some.inj ((horigin place v hplace).symm.trans (horigin other v hother))
  · rw [(hplaced.ownedOnce o).count]
    exact if_congr ((hplaced.owned r o).trans (and_iff_left not_mem_nil)) rfl rfl

/-- An operation has been moved into a region of another that has lost its first result. -/
theorem everything_in_place_after_move :
    let p := Program.built [
      .node 0 "outer" [] 2, .addRegion ⟨0⟩ .once, .node 0 "inner", .move ⟨1⟩ ⟨1⟩ 0,
      .removeResult ⟨0⟩ 0]
    Reachable p ∧ (p.opsIn ⟨1⟩).count ⟨1⟩ = 1 ∧ (p.opsIn ⟨0⟩).count ⟨1⟩ = 0 ∧
      p.originOf? ⟨1⟩ = some (.result ⟨0⟩ 0) ∧ (p.regionsOf ⟨0⟩).count ⟨1⟩ = 1 := by
  intro p
  have hp : Reachable p := reachable_built _
  obtain ⟨hlisted, horigin, -, howned, -⟩ := Reachable.everything_in_place hp
  exact ⟨hp, hlisted ⟨1⟩ ⟨1⟩, hlisted ⟨1⟩ ⟨0⟩, horigin (.result ⟨0⟩ 0) ⟨1⟩ rfl, howned ⟨0⟩ ⟨1⟩⟩

end TensorGraph
