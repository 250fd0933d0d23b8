import TensorGraph.Proofs.ControlEdits

/-!
What an edit carries on. Edits list no dependency twice and leave every function a body of its own.
-/

namespace TensorGraph

open List Option

variable {p q : Program} {f : Operation → Operation}

namespace Program

structure Distinct (p : Program) : Prop where
  bodies : (p.funcs.map (·.body)).Nodup
  control : ∀ x, (p.controlOf x).Nodup

/-- `q` carries on from `p`: what was live is live, and a new dependency is on a live operation. -/
structure Continues (p q : Program) : Prop where
  distinct : p.Distinct → q.Distinct
  live : ∀ x, (p.op? x).isSome → (q.op? x).isSome
  waits : ∀ x, ∀ d ∈ q.controlOf x, d ∈ p.controlOf x ∨ (q.op? d).isSome

namespace Continues

lemma refl (p : Program) : Continues p p :=
  ⟨id, fun _ ↦ id, fun _ _ hd ↦ .inl hd⟩

lemma trans {m : Program} (h : Continues p m) (h' : Continues m q) : Continues p q where
  distinct := h'.distinct ∘ h.distinct
  live x := h'.live x ∘ h.live x
  waits x d hd := by
    rcases h'.waits x d hd with hd | hlive
    · exact (h.waits x d hd).imp id (h'.live d)
    · exact .inr hlive

lemma of_control (hcontrol : ∀ x, (q.op? x).map (·.control) = (p.op? x).map (·.control))
    (hbodies : q.funcs.map (·.body) = p.funcs.map (·.body)) : Continues p q where
  distinct h := ⟨hbodies ▸ h.bodies, fun x ↦ by
    rw [controlOf, hcontrol]
    exact h.control x⟩
  live x hx := by
    rw [← isSome_map (f := (·.control)), hcontrol, isSome_map]
    exact hx
  waits x d hd := by
    rw [controlOf, hcontrol] at hd
    exact .inl hd

lemma of_op? (hop : ∀ x, q.op? x = p.op? x) (hfuncs : q.funcs = p.funcs) :
    Continues p q :=
  of_control (fun x ↦ by rw [hop]) (by rw [hfuncs])

lemma modifyOp (p : Program) (o : OpId) (hf : ∀ node, (f node).control = node.control) :
    Continues p (p.modifyOp o f) :=
  of_control (map_op?_modifyOp p o (·.control) hf) rfl

lemma of_sameButUsers (h : SameButUsers p q) : Continues p q :=
  of_op? h.op? h.funcs

lemma setControl (p : Program) (o : OpId)
    (hnodup : (p.controlOf o).Nodup → ∀ node, p.op? o = some node → (f node).control.Nodup)
    (hwaits : ∀ node, p.op? o = some node → ∀ d ∈ (f node).control, d ∈ node.control ∨
    (p.op? d).isSome) : Continues p (p.modifyOp o f) where
  distinct h := by
    refine ⟨h.bodies, fun x ↦ ?_⟩
    rw [controlOf, op?_modifyOp]
    split_ifs with hx
    · subst hx
      cases ho : p.op? x with
      | none => simp
      | some node => exact hnodup (h.control x) node ho
    · exact h.control x
  live x hx := by
    rw [op?_modifyOp]
    split_ifs
    · rwa [isSome_map]
    · exact hx
  waits x d hd := by
    have hlive : (p.op? d).isSome → ((p.modifyOp o f).op? d).isSome := by
      intro h
      rw [op?_modifyOp]
      split_ifs
      · rwa [isSome_map]
      · exact h
    rw [controlOf, op?_modifyOp] at hd
    split_ifs at hd with hx
    · subst hx
      cases ho : p.op? x with
      | none => simp [ho] at hd
      | some node =>
        rw [ho] at hd
        rw [controlOf_eq ho]
        exact (hwaits node ho d hd).imp id hlive
    · exact .inl hd

lemma withOp (hp : p.Consistent) (r : RegionId) (index : Nat) {new : NewOp}
    (hcontrol : ∀ d ∈ new.control, (p.op? d).isSome) : Continues p (p.withOp r index new) where
  distinct h := by
    refine ⟨(funcs_withOp r index new).symm ▸ h.bodies, fun x ↦ ?_⟩
    rw [controlOf, hp.uses.free.op?_withOp]
    split_ifs
    · exact nodup_eraseDups _
    · exact h.control x
  live x hx := by
    rw [hp.uses.free.op?_withOp]
    split_ifs
    · rfl
    · exact hx
  waits x d hd := by
    rw [controlOf, hp.uses.free.op?_withOp] at hd
    split_ifs at hd
    · right
      have hlive := hcontrol d (mem_eraseDups.mp hd)
      rw [hp.uses.free.op?_withOp]
      split_ifs
      · rfl
      · exact hlive
    · exact .inl hd

lemma withFunc (p : Program) (name : String) {body : RegionId} (hbody : body ∉ p.funcs.map (·.body))
    (resultTypes : List TensorType) : Continues p (p.withFunc name body resultTypes) where
  distinct h := by
    refine ⟨?_, h.control⟩
    rw [Program.withFunc, map_append]
    exact nodup_append'.mpr ⟨h.bodies, nodup_singleton _, by
      simpa using hbody⟩
  live _ := id
  waits _ _ hd := .inl hd

end Continues

lemma Prunes.distinct (h : Prunes p q) (hp : p.Distinct) : q.Distinct := by
  refine ⟨h.funcs ▸ hp.bodies, fun x ↦ ?_⟩
  rcases h.op? x with hx | hx
  · rw [controlOf, hx]
    exact hp.control x
  · simp [controlOf, hx]

lemma Prunes.dropRegions (l : List RegionId) (p : Program) :
    Prunes p (l.foldl Program.dropRegion p) :=
  .foldl (fun p r ↦ .dropRegion (fun p o ↦ .destroyToDepth p.slots.length p o) _ p r) l p

lemma Change.continues {moves rewires : Bool} (h : Change p moves rewires q) (hp : p.Consistent) :
    Continues p q := by
  cases h with
  | modify o _ _ _ _ hnodup hwaits => exact .setControl p o hnodup hwaits
  | reorder => exact .of_op? (fun _ ↦ rfl) rfl
  | retype => exact .of_op? (fun _ ↦ rfl) rfl
  | dropOperand o index old =>
    exact (Continues.modifyOp p o fun _ ↦ by rfl).trans (.of_sameButUsers (.dropUse _ o old))
  | addArg => exact .of_op? (fun _ ↦ rfl) rfl
  | addRegion o execution =>
    exact .of_control
      (map_op?_modifyOp (p.pushRegion (.op o) execution) o (·.control) fun _ ↦ by rfl) rfl
  | addBody => exact .of_op? (fun _ ↦ rfl) rfl
  | addFunc name body resultTypes _ _ hfresh => exact .withFunc p name hfresh resultTypes
  | newGraph => exact .of_op? (fun _ ↦ rfl) rfl
  | modifyFunc name _ hbody =>
    exact .of_control (fun _ ↦ rfl) (map_funcs_modifyFunc p name (·.body) hbody)
  | move o home r =>
    exact .of_control
      (map_op?_modifyOp ((p.detached o home).modifyRegion r _) o (·.control) fun _ ↦ by rfl) rfl
  | insert r index new _ _ _ hcontrol => exact .withOp hp r index hcontrol
  | redirect _ hne =>
    refine .of_control (fun x ↦ ?_) (by rw [redirected_rest]; rfl)
    rw [op?_redirected hp.uses hne, Option.map_map]
    rfl
  | setOperand o index v old =>
    exact ((Continues.modifyOp p o fun _ ↦ by rfl).trans
      (.of_sameButUsers (.dropUse _ o old))).trans (.of_sameButUsers (.addUse _ o v))
  | setOperands o =>
    exact ((Continues.modifyOp p o fun _ ↦ by rfl).trans (.of_sameButUsers (.dropUses o _ _))).trans
      (.of_sameButUsers (.addUses o _ _))
  | dropResult o =>
    rw [withoutResult, renumberResults_eq, renumber_rest]
    exact .of_control (map_op?_modifyOp p o (·.control) fun _ ↦ by rfl) rfl
  | dropArg =>
    rw [withoutArg, renumberArgs_eq, renumber_rest]
    exact .of_op? (fun _ ↦ rfl) rfl

end Program

namespace Edit

open Program

lemma Through.continues {α : Type} {e : Edit α} (h : Through true true e) (hp : p.Consistent) :
    Continues p (e.exec p).2 :=
  h.keeps_of (I := Continues p)
    (fun ha hchange hcontinues ↦ hcontinues.trans (hchange.continues ha)) hp (.refl p)

/-! ### Edits that destroy -/

lemma keeps_distinct_setControl (o : OpId) (deps : List OpId) :
    Keeps Distinct (setControl o deps) := by
  intro p hp
  refine does_setControl.leaves hp ?_
  rintro _ _ - ⟨hdeps, -, rfl⟩
  refine (Continues.setControl p o (fun _ _ _ ↦ nodup_eraseDups deps) fun _ _ d hd ↦ ?_).distinct hp
  exact .inr (hdeps d (mem_eraseDups.mp hd))

lemma keeps_distinct_setForm (o : OpId) (form : Form) : Keeps Distinct (setForm o form) := by
  intro p hp
  refine does_setForm.leaves hp ?_
  rintro _ _ - ⟨-, -, rfl⟩
  have hform :=
    (Continues.modifyOp p o (f := fun node ↦ { node with form }) fun _ ↦ rfl).distinct hp
  exact (Prunes.dropRegions (p.regionsOf o) _).distinct hform

lemma keeps_distinct_eraseOp (o : OpId) : Keeps Distinct (eraseOp o) := by
  refine .eraseOp (fun _ _ x _ deps ↦ keeps_distinct_setControl x deps) fun p r hp _ ↦ ?_
  exact (Prunes.destroyToDepth _ (p.detached o r) o).distinct ⟨hp.bodies, hp.control⟩

end Edit

/-! ### Commands -/

lemma Command.continues_run {command : Command} (h : command.isSparing = true) (hp : p.Consistent) :
    Program.Continues p (command.run.exec p).2 :=
  (command.through_run h (fun _ ↦ rfl) fun _ ↦ rfl).continues hp

open Edit in
lemma Reachable.distinct (h : Reachable p) : p.Distinct := by
  induction h with
  | empty => exact ⟨.nil, fun _ ↦ .nil⟩
  | @step command p hp ih =>
    by_cases hsparing : command.isSparing = true
    · exact (command.continues_run hsparing hp.consistent).distinct ih
    · cases command with
      | setForm op form => exact Keeps.bind (keeps_distinct_setForm op form) (fun _ ↦ .pure _) p ih
      | erase op => exact Keeps.bind (keeps_distinct_eraseOp op) (fun _ ↦ .pure _) p ih
      | _ => exact (hsparing rfl).elim

end TensorGraph
