import TensorGraph.Proofs.Destruction

/-!
Control dependencies on operations that are gone. No dependency is ever listed twice.
-/

namespace TensorGraph

open Program List Option

variable {p q : Program} {a b o : OpId} {command : Command}

/-- Nothing waits for an operation that is not live. -/
def Program.LiveControl (p : Program) : Prop :=
  ∀ x, ∀ d ∈ p.controlOf x, (p.op? d).isSome

/-- What stays waits for nothing that goes, apart from the erased operation itself, and is not
handed any dependency on what goes. -/
def Command.Tidy (p : Program) : Command → Prop
  | .erase o => ∀ x, ¬ Holds p o x → (∀ d ∈ p.controlOf x, Holds p o d → d = o) ∧
      (o ∈ p.controlOf x → ∀ d ∈ p.controlOf o, ¬ Holds p o d)
  | .setForm o _ => ∀ x, ¬ HoldsWithin p o x → ∀ d ∈ p.controlOf x, ¬ HoldsWithin p o d
  | _ => True

lemma Command.tidy_of_isSparing (h : command.isSparing = true) (p : Program) : command.Tidy p := by
  cases command with
  | erase o => cases h
  | setForm o form => cases h
  | _ => trivial

namespace Edit

lemma mem_controlOf_eraseOp (hp : p.Consistent) (hok : (eraseOp o).exec p = (.ok ⟨⟩, q))
    {x d : OpId} (hx : ¬ Holds p o x) : d ∈ q.controlOf x ↔ (d ∈ p.controlOf x ∧ d ≠ o) ∨
    (o ∈ p.controlOf x ∧ d ∈ p.controlOf o ∧ d ≠ x) := by
  cases hnode : p.op? x with
  | none => simp [controlOf, (eraseOp_op? hp hok x).2 hx, hnode]
  | some node =>
    have hq := (eraseOp_op? hp hok x).2 hx
    rw [hnode, map_some] at hq
    rw [controlOf_eq hq, controlOf_eq hnode]
    by_cases hwaits : o ∈ node.control
    · simp [hwaits, mem_eraseDups, mem_append, mem_filter]
    · have hne : d ∈ node.control → d ≠ o := fun hd heq ↦ hwaits (heq ▸ hd)
      simpa [hwaits] using hne

lemma liveControl_eraseOp_iff (hp : p.Consistent) (hlive : p.LiveControl)
    (hok : (eraseOp o).exec p = (.ok ⟨⟩, q)) : q.LiveControl ↔ Command.Tidy p (.erase o) := by
  constructor
  · intro hq x hx
    -- A dependency that stays in the list is live afterwards, so it is not one of those that go.
    have hkept : ∀ d ∈ q.controlOf x, ¬ Holds p o d := by
      intro d hd hheld
      have hnone := (eraseOp_op? hp hok d).1 hheld
      simpa [hnone] using hq x d hd
    constructor
    · intro d hd hheld
      by_contra hne
      exact hkept d ((mem_controlOf_eraseOp hp hok hx).mpr (.inl ⟨hd, hne⟩)) hheld
    · intro hwaits d hd hheld
      have hne : d ≠ x := fun heq ↦ hx (heq ▸ hheld)
      exact hkept d ((mem_controlOf_eraseOp hp hok hx).mpr (.inr ⟨hwaits, hd, hne⟩)) hheld
  · intro htidy x d hd
    have hx : ¬ Holds p o x := by
      intro hheld
      simp [controlOf, (eraseOp_op? hp hok x).1 hheld] at hd
    obtain ⟨hown, hhanded⟩ := htidy x hx
    obtain ⟨hd', hheld⟩ : (p.op? d).isSome ∧ ¬ Holds p o d := by
      rcases (mem_controlOf_eraseOp hp hok hx).mp hd with ⟨hd, hne⟩ | ⟨hwaits, hd, -⟩
      · exact ⟨hlive x d hd, fun hheld ↦ hne (hown d hd hheld)⟩
      · exact ⟨hlive o d hd, hhanded hwaits d hd⟩
    rw [(eraseOp_op? hp hok d).2 hheld, isSome_map]
    exact hd'

lemma liveControl_setForm_iff {form : Form} (hp : p.Consistent) (hlive : p.LiveControl)
    (hok : (setForm o form).exec p = (.ok ⟨⟩, q)) : q.LiveControl ↔
    Command.Tidy p (.setForm o form) := by
  have hcontrol : ∀ x, ¬ HoldsWithin p o x → q.controlOf x = p.controlOf x := by
    intro x hx
    rw [controlOf, (setForm_op? hp hok x).2 hx]
    exact controlOf_modifyOp p o (fun _ ↦ by rfl) x
  constructor
  · intro hq x hx d hd hheld
    have hnone := (setForm_op? hp hok d).1 hheld
    simpa [hnone] using hq x d (hcontrol x hx ▸ hd)
  · intro htidy x d hd
    have hx : ¬ HoldsWithin p o x := by
      intro hheld
      simp [controlOf, (setForm_op? hp hok x).1 hheld] at hd
    rw [hcontrol x hx] at hd
    rw [(setForm_op? hp hok d).2 (htidy x hx d hd), op?_modifyOp_eq_map, isSome_map]
    exact hlive x d hd

end Edit

open Edit in
lemma Command.liveControl_iff {outcome : Outcome} (hp : p.Consistent) (hlive : p.LiveControl)
    (hok : command.run.exec p = (.ok outcome, q)) : q.LiveControl ↔ command.Tidy p := by
  by_cases hsparing : command.isSparing = true
  · have hcontinues : Continues p q := by
      have hrun := command.continues_run hsparing hp
      rwa [hok] at hrun
    refine iff_of_true (fun x d hd ↦ ?_) (Command.tidy_of_isSparing hsparing p)
    rcases hcontinues.waits x d hd with hold | hnew
    · exact hcontinues.live d (hlive x d hold)
    · exact hnew
  · cases command with
    | erase o =>
      obtain ⟨_, m, herase, hdone⟩ := exec_bind_ok.mp hok
      cases hdone
      exact liveControl_eraseOp_iff hp hlive herase
    | setForm o form =>
      obtain ⟨_, m, hset, hdone⟩ := exec_bind_ok.mp hok
      cases hdone
      exact liveControl_setForm_iff hp hlive hset
    | _ => exact (hsparing rfl).elim

def Command.succeed : Program → List Command → Bool
  | _, [] => true
  | p, command :: rest =>
    (command.run.exec p).1.toOption.isSome && Command.succeed (command.apply p) rest

/-- Built by commands that succeed and are tidy. -/
inductive TidilyBuilt : Program → Prop where
  | empty : TidilyBuilt .empty
  | step {p q : Program} {command : Command} {outcome : Outcome} (h : TidilyBuilt p)
      (hok : command.run.exec p = (.ok outcome, q)) (htidy : command.Tidy p) : TidilyBuilt q

lemma Reachable.of_run {answer : Except Error Outcome} (h : Reachable p)
    (hrun : command.run.exec p = (answer, q)) : Reachable q := by
  have hstep := Reachable.step command h
  rwa [show command.apply p = q from congrArg Prod.snd hrun] at hstep

namespace TidilyBuilt

lemma reachable (h : TidilyBuilt p) : Reachable p := by
  induction h with
  | empty => exact .empty
  | step _ hok _ ih => exact ih.of_run hok

lemma liveControl (h : TidilyBuilt p) : p.LiveControl := by
  induction h with
  | empty => exact fun x d hd ↦ absurd hd not_mem_nil
  | step hp hok htidy ih => exact (Command.liveControl_iff hp.reachable.consistent ih hok).mpr htidy

lemma of_sparing {commands : List Command} (hsparing : commands.all (·.isSparing) = true)
    (hok : Command.succeed .empty commands = true) : TidilyBuilt (.built commands) := by
  suffices hfold : ∀ {p}, TidilyBuilt p → Command.succeed p commands = true →
      TidilyBuilt (commands.foldl (fun p command ↦ command.apply p) p) from hfold .empty hok
  clear hok
  induction commands with
  | nil => exact fun h _ ↦ h
  | cons command rest ih =>
    intro p h hok
    rw [all_cons, Bool.and_eq_true] at hsparing
    rw [Command.succeed, Bool.and_eq_true] at hok
    obtain ⟨outcome, houtcome⟩ := isSome_iff_exists.mp hok.1
    exact ih hsparing.2
      (.step h (Edit.exec_eq_ok houtcome) (Command.tidy_of_isSparing hsparing.1 p)) hok.2

end TidilyBuilt

/-- In a program that is built tidily, every list of dependencies is without repetition and names
live operations, and the commands after which this still holds are the tidy ones. -/
theorem TidilyBuilt.control_edges {p : Program} (h : TidilyBuilt p) :
    (∀ x, (p.controlOf x).Nodup ∧ ∀ d ∈ p.controlOf x, (p.op? d).isSome) ∧
    ∀ (command : Command) (outcome : Outcome) (q : Program), command.run.exec p = (.ok outcome, q) →
      (∀ x, (q.controlOf x).Nodup) ∧
      ((∀ x, ∀ d ∈ q.controlOf x, (q.op? d).isSome) ↔ command.Tidy p) := by
  have hp := h.reachable
  refine ⟨fun x ↦ ⟨hp.distinct.control x, h.liveControl x⟩, fun command outcome q hok ↦ ?_⟩
  exact ⟨(hp.of_run hok).distinct.control, Command.liveControl_iff hp.consistent h.liveControl hok⟩

/-- An operation with another one nested in it, both waiting for a first operation, and one behind
them that waits for the outer one. -/
def handingOn : Program :=
  .built [
    .node 0 "first", .node 0 "outer" [] 0 [0], .addRegion ⟨1⟩ .once, .node 1 "inner" [] 0 [0],
    .node 0 "last" [] 0 [1]]

/-- The outer operation goes with the one nested in it, and the last one comes to wait for the
first. -/
theorem control_edges_handed_on :
    let q := (Command.erase ⟨1⟩).apply handingOn
    TidilyBuilt handingOn ∧ (Command.erase ⟨1⟩).run.exec handingOn = (.ok .done, q) ∧
      Command.Tidy handingOn (.erase ⟨1⟩) ∧ q.op? ⟨2⟩ = none ∧ q.controlOf ⟨3⟩ = [⟨0⟩] ∧
      ∀ x, ∀ d ∈ q.controlOf x, (q.op? d).isSome := by
  intro q
  have hbuilt : TidilyBuilt handingOn := .of_sparing rfl (by decide +kernel)
  have hok : (Command.erase ⟨1⟩).run.exec handingOn = (.ok .done, q) := Prod.ext (by rfl) rfl
  have hheld : ∀ x, Holds handingOn ⟨1⟩ x → x = ⟨1⟩ ∨ x = ⟨2⟩ := by
    intro x hx
    induction hx with
    | self => exact .inl rfl
    | inner _ hr hx ih =>
      rcases ih with rfl | rfl
      · obtain rfl := mem_singleton.mp hr
        exact .inr (mem_singleton.mp hx)
      · cases hr
  have hwaits : ∀ x d, d ∈ handingOn.controlOf x → Holds handingOn ⟨1⟩ x ∨ d = ⟨1⟩ := by
    rintro ⟨_ | _ | _ | _ | n⟩ d hd
    · cases hd
    · exact .inl .self
    · exact .inl (Holds.self.inner mem_cons_self mem_cons_self)
    · exact .inr (mem_singleton.mp hd)
    · cases hd
  have htidy : Command.Tidy handingOn (.erase ⟨1⟩) := by
    intro x hx
    refine ⟨fun d hd _ ↦ (hwaits x d hd).resolve_left hx, fun _ d hd hheld' ↦ ?_⟩
    obtain rfl := mem_singleton.mp hd
    rcases hheld _ hheld' with heq | heq <;> cases heq
  exact ⟨hbuilt, hok, htidy, rfl, rfl, ((hbuilt.control_edges.2 _ _ q hok).2).mpr htidy⟩

/-- An operation is erased while another one waits for what is nested in it, and that one is left
waiting for a handle that is free. -/
theorem left_waiting_for_nested :
    let p := built [
      .node 0 "outer", .addRegion ⟨0⟩ .once, .node 1 "inner", .node 0 "waiter" [] 0 [1]]
    let q := (Command.erase ⟨0⟩).apply p
    TidilyBuilt p ∧ (Command.erase ⟨0⟩).run.exec p = (.ok .done, q) ∧ q.controlOf ⟨2⟩ = [⟨1⟩] ∧
      q.op? ⟨1⟩ = none := by
  intro p q
  exact ⟨.of_sparing rfl (by decide +kernel), Prod.ext (by rfl) rfl, rfl, rfl⟩

/-! ### Paths of dependencies -/

/-- `a` waits for `b`, and both are live. -/
def Program.WaitsFor (p : Program) (a b : OpId) : Prop :=
  b ∈ p.controlOf a ∧ (p.op? b).isSome

section Paths

open Relation

variable {x : OpId} (hp : p.Consistent) (hleaf : p.regionsOf x = [])
  (hok : (Edit.eraseOp x).exec p = (.ok ⟨⟩, q))

include hp hleaf hok

lemma op?_of_erase (a : OpId) : q.op? a =
    if a = x then none else (p.op? a).map fun node ↦ { node with control := q.controlOf a } := by
  have herase := Edit.eraseOp_op? hp hok a
  split_ifs with ha
  · exact herase.1 (ha ▸ .self)
  · have hq := herase.2 fun hheld ↦ ha (hheld.eq_of_leaf hleaf)
    cases hnode : p.op? a with
    | none => rw [hq, hnode, map_none, map_none]
    | some node =>
      rw [hnode, map_some] at hq
      rw [hq, controlOf_eq hq, map_some]

/-- An operation that stays waits for what it waited for, and for what the erased one did if it
waited for that. -/
theorem waitsFor_of_erase : q.WaitsFor a b ↔ (a ≠ x ∧ b ≠ x) ∧
    (p.WaitsFor a b ∨ p.WaitsFor a x ∧ p.WaitsFor x b ∧ a ≠ b) := by
  have hlive : (p.op? x).isSome := by
    obtain ⟨-, m, r, hsame, -, hparent, -⟩ := Edit.eraseOp_ok hok
    rw [hsame.parentOf?] at hparent
    exact isSome_of_parentOf? hparent
  have hlive' : (q.op? b).isSome ↔ b ≠ x ∧ (p.op? b).isSome := by
    rw [op?_of_erase hp hleaf hok]
    split_ifs with hb <;> simp [hb]
  by_cases ha : a = x
  · have hgone : q.controlOf a = [] := by
      rw [controlOf, op?_of_erase hp hleaf hok, if_pos ha]
      rfl
    refine iff_of_false (fun hwaits ↦ ?_) fun hright ↦ hright.1.1 ha
    rw [WaitsFor, hgone] at hwaits
    cases hwaits.1
  · have hmem := Edit.mem_controlOf_eraseOp hp hok (d := b)
      (fun hheld : Holds p x a ↦ ha (hheld.eq_of_leaf hleaf))
    simp only [WaitsFor, hlive', hmem, hlive, and_true]
    grind

lemma transGen_of_erase (hpath : TransGen q.WaitsFor a b) : TransGen p.WaitsFor a b := by
  refine TransGen.closed (fun c d hstep ↦ ?_) a b hpath
  rcases ((waitsFor_of_erase hp hleaf hok).mp hstep).2 with hkept | ⟨hto, hfrom, -⟩
  · exact .single hkept
  · exact .tail (.single hto) hfrom

/-- No path is lost. The induction is on the path, from its end `b`: from an operation that stays
the rest of the path leads to `b`, and from the erased one some dependency of it does. -/
theorem reflTransGen_erase (hb : b ≠ x) (hpath : ReflTransGen p.WaitsFor a b) :
    (a ≠ x → ReflTransGen q.WaitsFor a b) ∧
    (a = x → ∃ d, d ≠ x ∧ p.WaitsFor x d ∧ ReflTransGen q.WaitsFor d b) := by
  induction hpath using ReflTransGen.head_induction_on with
  | refl => exact ⟨fun _ ↦ .refl, fun heq ↦ absurd heq hb⟩
  | @head a c hstep _ ih =>
    by_cases hc : c = x
    · obtain ⟨d, hd, hfrom, hrest⟩ := ih.2 hc
      refine ⟨fun ha ↦ ?_, fun _ ↦ ⟨d, hd, hfrom, hrest⟩⟩
      -- A path that comes back to where it was before it met the erased operation is cut short.
      by_cases had : a = d
      · exact had ▸ hrest
      · exact .head ((waitsFor_of_erase hp hleaf hok).mpr ⟨⟨ha, hd⟩, .inr ⟨hc ▸ hstep, hfrom, had⟩⟩)
          hrest
    · have hrest := ih.1 hc
      refine ⟨fun ha ↦ ?_, fun ha ↦ ⟨c, hc, ha ▸ hstep, hrest⟩⟩
      exact .head ((waitsFor_of_erase hp hleaf hok).mpr ⟨⟨ha, hc⟩, .inl hstep⟩) hrest

end Paths

/-- Erasing an operation without regions leaves all others as they were up to their control
dependencies, and one of them leads to another along control dependencies exactly if it did
before. -/
theorem Reachable.waiting_paths_of_erase {p q : Program} (h : Reachable p) {x : OpId}
    (hleaf : p.regionsOf x = []) (hok : (Edit.eraseOp x).exec p = (.ok ⟨⟩, q)) : q.op? x = none ∧
      (∀ a, a ≠ x → q.op? a = (p.op? a).map fun node ↦ { node with control := q.controlOf a }) ∧
      ∀ a b, a ≠ b → (q.op? a).isSome → (q.op? b).isSome →
        (Relation.TransGen q.WaitsFor a b ↔ Relation.TransGen p.WaitsFor a b) := by
  have hp := h.consistent
  have hop := op?_of_erase hp hleaf hok
  refine ⟨(hop x).trans (if_pos rfl), fun a ha ↦ (hop a).trans (if_neg ha), fun a b hne ha hb ↦ ?_⟩
  have hstays : ∀ {c}, (q.op? c).isSome → c ≠ x := by
    rintro c hc rfl
    rw [hop, if_pos rfl] at hc
    cases hc
  refine ⟨transGen_of_erase hp hleaf hok, fun hpath ↦ ?_⟩
  have hkept := (reflTransGen_erase hp hleaf hok (hstays hb) hpath.to_reflTransGen).1 (hstays ha)
  exact (Relation.reflTransGen_iff_eq_or_transGen.mp hkept).resolve_left (Ne.symm hne)

/-- An operation that waits for itself, for one before it and for one behind it, which waits for it
as well. -/
def waitingInCircles : Program :=
  .built [
    .node 0 "first", .node 0 "knot" [] 0 [0], .node 0 "last" [] 0 [1], .addControl ⟨1⟩ ⟨1⟩,
    .addControl ⟨1⟩ ⟨2⟩]

/-- The last operation waits for the first after the one between them is gone, as it did before
through that one. The first still does not wait for the last. -/
theorem waiting_paths_around_knot :
    let q := (Command.erase ⟨1⟩).apply waitingInCircles
    Reachable waitingInCircles ∧ waitingInCircles.regionsOf ⟨1⟩ = [] ∧
      (Edit.eraseOp ⟨1⟩).exec waitingInCircles = (.ok ⟨⟩, q) ∧ q.controlOf ⟨2⟩ = [⟨0⟩, ⟨1⟩] ∧
      Relation.TransGen q.WaitsFor ⟨2⟩ ⟨0⟩ ∧ ¬ Relation.TransGen q.WaitsFor ⟨0⟩ ⟨2⟩ := by
  intro q
  have hbuilt : Reachable waitingInCircles := reachable_built _
  have hok : (Edit.eraseOp ⟨1⟩).exec waitingInCircles = (.ok ⟨⟩, q) := Prod.ext (by rfl) rfl
  have hpaths := (hbuilt.waiting_paths_of_erase (by rfl) hok).2.2
  refine ⟨hbuilt, rfl, hok, rfl, (hpaths ⟨2⟩ ⟨0⟩ (by decide) rfl rfl).mpr ?_, fun hpath ↦ ?_⟩
  · have hlast : waitingInCircles.WaitsFor ⟨2⟩ ⟨1⟩ := ⟨mem_singleton.mpr rfl, rfl⟩
    have hknot : waitingInCircles.WaitsFor ⟨1⟩ ⟨0⟩ := ⟨mem_cons_self, rfl⟩
    exact .tail (.single hlast) hknot
  · obtain ⟨d, ⟨hd, -⟩, -⟩ := Relation.TransGen.head'_iff.mp
      ((hpaths ⟨0⟩ ⟨2⟩ (by decide) rfl rfl).mp hpath)
    cases hd

end TensorGraph
