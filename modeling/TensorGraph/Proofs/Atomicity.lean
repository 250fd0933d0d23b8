import TensorGraph.Proofs.ControlEdges
import TensorGraph.Proofs.Successes

/-!
Commands that fail. Most edits make all their checks before they change anything.
-/

namespace TensorGraph

open List Option

variable {p : Program} {o : OpId}

namespace Edit

open Program

variable {α β : Type}

def Atomic (e : Edit α) (p : Program) : Prop :=
  Leads e p (fun _ _ ↦ True) (· = p)

namespace Atomic

variable {e : Edit α}

lemma of_unchanged {answer : Except Error α} (h : e.exec p = (answer, p)) : Atomic e p := by
  unfold Atomic Leads
  rw [h]
  cases answer <;> trivial

lemma of_ok {a : α} {q : Program} (h : e.exec p = (.ok a, q)) : Atomic e p := by
  unfold Atomic Leads
  rw [h]
  trivial

lemma of_succeeds (h : Succeeds e p fun _ _ ↦ True) : Atomic e p := by
  obtain ⟨a, q, hok, -⟩ := h
  exact of_ok hok

lemma congr {e' : Edit α} (h : Atomic e' p) (hrun : e.exec p = e'.exec p) : Atomic e p := by
  unfold Atomic Leads at h ⊢
  rw [hrun]
  exact h

lemma read_bind {query : Program → Except Error β} {f : β → Edit α}
    (h : ∀ b, query p = .ok b → Atomic (f b) p) : Atomic (read query >>= f) p :=
  Leads.read_bind rfl h

lemma bind_pure (h : Atomic e p) (f : α → β) : Atomic (e >>= fun a ↦ pure (f a)) p :=
  h.bind fun _ _ _ ↦ .pure trivial

end Atomic

/-! ### Edits that check first -/

lemma Makes.atomic {e : Edit α} (h : Makes true true e) (hp : p.Consistent) : Atomic e p := by
  rcases h p hp with ⟨answer, hsame⟩ | ⟨a, q, hok, -⟩
  · exact .of_unchanged hsame
  · exact .of_ok hok

lemma atomic_setForm (o : OpId) (form : Form) (p : Program) : Atomic (setForm o form) p := by
  rcases does_setForm (o := o) (p := p) with ⟨err, herr, -⟩ | ⟨_, _, hok, -⟩
  · exact .of_unchanged herr
  · exact .of_ok hok

/-! ### Edits that change something before the last check -/

lemma setControl_exec {deps : List OpId} (ho : (p.op? o).isSome)
    (hdeps : ∀ d ∈ deps, (p.op? d).isSome) : (setControl o deps).exec p =
      (.ok ⟨⟩, p.modifyOp o fun node ↦ { node with control := deps.eraseDups }) :=
  does_setControl.exec ⟨hdeps, ho, rfl⟩ fun _ _ h ↦ ⟨rfl, h.2.2⟩

lemma succeeds_setControls {g : OpId → List OpId → List OpId} (hp : p.Consistent)
    (hlive : p.LiveControl)
    (hg : ∀ x control, (∀ d ∈ control, (p.op? d).isSome) → ∀ d ∈ g x control, (p.op? d).isSome)
    {l : List OpId} (hl : ∀ x ∈ l, (p.op? x).isSome) :
    Succeeds (l.forM fun x ↦ read (·.op x) >>= fun node ↦ setControl x (g x node.control)) p
    fun _ q ↦ SameButControl p q := by
  refine Succeeds.imp
    (Q := fun _ q ↦ (∀ x ∈ [], (p.op? x).isSome) ∧ SameButControl p q ∧ q.LiveControl)
      (.forM (R := fun rest q ↦ (∀ x ∈ rest, (p.op? x).isSome) ∧ SameButControl p q ∧ q.LiveControl)
      (fun x rest q hq ↦ ?_) ⟨hl, .refl p, hlive⟩) fun _ _ h ↦ h.2.1
  obtain ⟨hrest, hsame, hdeps⟩ := hq
  have hstill : ∀ y, (q.op? y).isSome = (p.op? y).isSome := fun y ↦ by
    rw [hsame.op?, isSome_map]
  have hx : (q.op? x).isSome := (hstill x).trans (hrest x mem_cons_self)
  obtain ⟨node, hnode⟩ := isSome_iff_exists.mp hx
  have hnew : ∀ d ∈ g x node.control, (q.op? d).isSome := by
    intro d hd
    rw [hstill]
    refine hg x node.control (fun e he ↦ ?_) d hd
    rw [← hstill]
    exact hdeps x e (by rwa [controlOf_eq hnode])
  have hset := setControl_exec hx hnew
  refine .read_bind (by rw [op, hnode]) (.of_ok hset ⟨fun y hy ↦ hrest y
    (mem_cons_of_mem _ hy), hsame.trans (.setControl q x _), fun y d hd ↦ ?_⟩)
  have hcontinues := (makes_setControl x (g x node.control)).through.continues (hsame.consistent hp)
  rw [hset] at hcontinues
  rcases hcontinues.waits y d hd with hold | hnow
  · exact hcontinues.live d (hdeps y d hold)
  · exact hnow

section

variable (hp : p.Consistent) (hlive : p.LiveControl)

include hp hlive

lemma succeeds_replaceControl (old : OpId) {new : OpId}
    (hnew : (p.op? new).isSome) : Succeeds (replaceControl old new) p fun _ _ ↦ True := by
  obtain ⟨node, hnode⟩ := isSome_iff_exists.mp hnew
  have hloop := succeeds_setControls (g := fun x control ↦
    if x = new then (control.map fun d ↦ if d = old then new else d).filter (· ≠ new)
    else control.map fun d ↦ if d = old then new else d) hp hlive (fun x control hcontrol d hd ↦ ?_)
    fun x hx ↦ isSome_of_mem_controlDependents (o := old) hx
  · exact .read_bind (op_eq_ok.mpr hnode) (.get_bind (hloop.imp fun _ _ _ ↦ trivial))
  have hmapped : d ∈ control.map fun d ↦ if d = old then new else d := by
    split_ifs at hd
    · exact mem_of_mem_filter hd
    · exact hd
  obtain ⟨e, he, rfl⟩ := mem_map.mp hmapped
  split_ifs
  · exact hnew
  · exact hcontrol e he

lemma atomic_replaceControl (old new : OpId) : Atomic (replaceControl old new) p := by
  cases hnew : p.op? new with
  | none => exact .read_bind fun node hnode ↦ absurd (op_eq_ok.mp hnode) (by simp [hnew])
  | some node => exact .of_succeeds (succeeds_replaceControl hp hlive old (isSome_of_eq_some hnew))

lemma atomic_eraseOp (o : OpId) : Atomic (eraseOp o) p := by
  unfold eraseOp
  cases ho : p.op? o with
  | none => exact .of_unchanged (bind_readOp_none ho _)
  | some node =>
    refine .congr ?_ (bind_readOp ho _)
    refine .congr ?_ (exec_get_bind _ _)
    cases firstUsed p node with
    | some index => exact .of_unchanged rfl
    | none =>
      refine .of_succeeds (.get_bind (.bind (succeeds_setControls (g := fun x control ↦
        control.filter (· ≠ o) ++ node.control.filter (· ≠ x)) hp hlive
        (fun x control hcontrol d hd ↦ ?_) fun x hx ↦ isSome_of_mem_controlDependents hx)
        fun _ q hsame ↦ ?_))
      · rcases mem_append.mp hd with hd | hd
        · exact hcontrol d (mem_of_mem_filter hd)
        · exact hlive o d (by rw [controlOf_eq ho]; exact mem_of_mem_filter hd)
      · have hq : (q.op? o).isSome := by rw [hsame.op?, ho]; rfl
        exact .bind (succeeds_detach (hsame.consistent hp) hq) fun _ m _ ↦
          .of_ok (exec_modify _ m) trivial

end

/-! ### Functions -/

lemma succeeds_addArgs {r : RegionId} (hr : (p.region? r).isSome) (types : List TensorType) :
    Succeeds (types.forM fun type ↦ addArg r type >>= fun _ ↦ pure ⟨⟩) p fun _ q ↦
    (q.region? r).isSome := by
  refine .forM (R := fun _ q ↦ (q.region? r).isSome) (fun type _ q hq ↦ ?_) hr
  refine .bind_of_ok (addArg_exec hq type) (.of_ok rfl ?_)
  rw [withArg, region?_modifyRegion, if_pos rfl, isSome_map]
  exact hq

lemma atomic_addFunction (name : String) (argTypes resultTypes : List TensorType) (p : Program) :
    Atomic (addFunction name argTypes resultTypes) p := by
  unfold addFunction
  rcases does_checkFunctionName (p := p) with ⟨err, herr, -⟩ | ⟨_, p, hok, _, rfl⟩
  · exact .of_unchanged (exec_bind_of_error herr _)
  · refine .of_succeeds (.bind_of_ok hok (.get_bind (.bind_of_ok (exec_modify _ p) ?_)))
    have hbody : ((p.pushRegion .function .once).region? p.nextRegion).isSome := by
      rw [region?_pushRegion, if_pos rfl]
      rfl
    refine .bind (succeeds_addArgs hbody argTypes) fun _ q hq ↦ ?_
    exact .bind_of_ok (pushFunc_exec hq name resultTypes) (.of_ok rfl trivial)

lemma atomic_graphIntoFunction (hp : p.Consistent) (name : String)
    (resultTypes : List TensorType) : Atomic (graphIntoFunction name resultTypes) p := by
  unfold graphIntoFunction
  rcases (does_checkFunctionName : Does (checkFunctionName name) p _) with ⟨err, herr, -⟩ |
    ⟨_, p, hok, _, rfl⟩
  · exact .of_unchanged (exec_bind_of_error herr _)
  · obtain ⟨region, hregion, -⟩ := map_eq_some_iff.mp hp.placed.graph
    exact .of_succeeds (.bind_of_ok hok (.get_bind (.read_bind (by rw [Program.region, hregion])
      (.get_bind (.bind_of_ok (exec_modify _ p)
        (.bind_of_ok (pushFunc_exec hp.placed.isSome_graph_withNewGraph name resultTypes)
        (.of_ok rfl trivial)))))))

end Edit

/-- The command makes copies of operations. -/
def Command.isCopy : Command → Bool
  | .copyRegion _ _ _ => true
  | _ => false

open Edit in
lemma Command.atomic_run {command : Command} (hcopy : command.isCopy = false)
    (hp : p.Consistent) (hlive : p.LiveControl) : Atomic command.run p := by
  by_cases helementary : command.isElementary = true
  · exact (command.makes_run helementary (fun _ ↦ rfl) fun _ ↦ rfl).atomic hp
  · cases command with
    | addFunction name argTypes resultTypes =>
      exact (atomic_addFunction name argTypes resultTypes p).bind_pure _
    | graphIntoFunction name resultTypes =>
      exact (atomic_graphIntoFunction hp name resultTypes).bind_pure _
    | replaceControl old new => exact (atomic_replaceControl hp hlive old new).bind_pure _
    | setForm op form => exact (atomic_setForm op form p).bind_pure _
    | erase op => exact (atomic_eraseOp hp hlive op).bind_pure _
    | copyRegion source target seed => cases hcopy
    | _ => exact absurd rfl helementary

/-- As long as all control dependencies are live, a command that fails, other than a copy, leaves
the program exactly as it was. -/
theorem Reachable.apply_eq_of_error {p : Program} (h : Reachable p) (hlive : p.LiveControl)
    {command : Command} (hcopy : command.isCopy = false) {err : Error}
    (herr : (command.run.exec p).1 = .error err) : command.apply p = p := by
  have hatomic := command.atomic_run hcopy h.consistent hlive
  unfold Edit.Atomic Edit.Leads at hatomic
  rw [Edit.exec_eq_error herr] at hatomic
  exact hatomic

/-- An operation that others wait for, and that waits itself, cannot be erased while its result is
used. -/
theorem apply_eq_of_refused_erasure :
    let p := Program.built [
      .node 0 "first", .node 0 "source" [] 1 [0], .node 0 "waits" [] 0 [1], .node 0 "uses" [0]]
    Reachable p ∧ p.LiveControl ∧ (Command.erase ⟨1⟩).isCopy = false ∧
      ((Command.erase ⟨1⟩).run.exec p).1 = .error
      (.structural (.eraseInUse "<unnamed>" "source" 0)) ∧ (Command.erase ⟨1⟩).apply p = p := by
  intro p
  have hp : TidilyBuilt p := .of_sparing rfl (by decide +kernel)
  have herr : ((Command.erase ⟨1⟩).run.exec p).1 = .error
      (.structural (.eraseInUse "<unnamed>" "source" 0)) := by rfl
  exact ⟨hp.reachable, hp.liveControl, rfl, herr, hp.reachable.apply_eq_of_error
    hp.liveControl rfl herr⟩

end TensorGraph
