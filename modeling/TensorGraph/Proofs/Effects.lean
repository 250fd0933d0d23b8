import TensorGraph.Proofs.Runs

/-!
What each edit can do. `Does edit p R` says that the edit fails on `p` and leaves it as it was, or
succeeds with an answer and a program of which `R` holds.
-/

namespace TensorGraph

open List

variable {o : OpId} {p : Program} {index : Nat} {I : Program → Prop}

namespace Program

section

variable (p)

def nodeOf (r : RegionId) (new : NewOp) : Operation where
  name := new.name
  kind := new.kind
  attrs := new.attrs
  operands := new.operands
  results := (List.range new.resultTypes.length).map fun i ↦ ValueId.mk (p.values.length + i)
  control := new.control.eraseDups
  form := if new.funcRefs.isEmpty then .plain else .functional new.funcRefs
  parent := r

/-- The program with the entries of a new operation and its results in the tables. -/
abbrev pushNode (r : RegionId) (new : NewOp) : Program :=
  Edit.pushResults p.nextOp new.resultTypes (p.pushOp (p.nodeOf r new))

/-- The program with a new operation at a place of a region. -/
def withOp (r : RegionId) (index : Nat) (new : NewOp) : Program :=
  (new.operands.foldl (fun q v ↦ q.addUse p.nextOp v)
    (p.pushNode r new)).modifyRegion r
      fun region ↦ { region with ops := region.ops.insertIdx index p.nextOp }

/-- The program with one more region of an operation. -/
def withRegion (o : OpId) (execution : Execution) : Program :=
  (p.pushRegion (.op o) execution).modifyOp o
    fun node ↦ { node with form := .nested (node.regions ++ [p.nextRegion]) }

/-- The program with one more argument of a region. -/
def withArg (r : RegionId) (type : TensorType) : Program :=
  (p.pushValue type (.argument r (p.argsOf r).length)).modifyRegion r
    fun region ↦ { region with args := region.args ++ [p.nextValue] }

/-- The program with every use of one value redirected to another. -/
def redirected (old new : ValueId) : Program :=
  ((p.usersOf old).eraseDups.foldl (Edit.redirectOperands old new)
    (p.modifyValue old fun value ↦ { value with users := [] })).modifyValue new
      fun target ↦ { target with users := target.users ++ p.usersOf old }

abbrev withForm (o : OpId) (form : Form) : Program :=
  p.modifyOp o fun node ↦ { node with form }

def withOperands (o : OpId) (operands : List ValueId) : Program :=
  operands.foldl (fun q v ↦ q.addUse o v)
    ((p.operandsOf o).foldl (fun q v ↦ q.dropUse o v)
      (p.modifyOp o fun node ↦ { node with operands }))

def withoutOperand (o : OpId) (index : Nat) (old : ValueId) : Program :=
  (p.modifyOp o fun node ↦ { node with operands := node.operands.eraseIdx index }).dropUse o old

def withoutResult (o : OpId) (index : Nat) : Program :=
  Edit.renumberResults o ((p.resultsOf o).eraseIdx index) index
    (p.modifyOp o fun node ↦ { node with results := (p.resultsOf o).eraseIdx index })

def withoutArg (r : RegionId) (index : Nat) : Program :=
  Edit.renumberArgs r ((p.argsOf r).eraseIdx index) index
    (p.modifyRegion r fun region ↦ { region with args := (p.argsOf r).eraseIdx index })

/-- The program with an operation taken out of the list of its region. -/
def detached (o : OpId) (r : RegionId) : Program :=
  p.modifyRegion r
    fun region ↦ { region with ops := region.ops.eraseIdx ((p.opsIn r).idxOf o) }

/-- The program without an operation of a region and all that is nested in it. -/
abbrev discarded (o : OpId) (r : RegionId) : Program :=
  (p.detached o r).destroy o

/-- The program with an operation taken from one region to a place of another. -/
abbrev movedOp (o : OpId) (home r : RegionId) (index : Nat) : Program :=
  Edit.attach o r index (p.detached o home)

def withFunc (name : String) (body : RegionId) (resultTypes : List TensorType) :
    Program :=
  { p with funcs := p.funcs ++ [{
      name
      body
      resultTypes
      argAttrs := List.replicate (p.argsOf body).length .empty
      resultAttrs := List.replicate resultTypes.length .empty
      attrs := .empty }] }

def withNewGraph : Program :=
  { (p.modifyRegion p.graph fun region ↦ { region with owner := .function }).pushRegion
      .graph .once with graph := p.nextRegion }

end

lemma result_eq_ok {v : ValueId} : p.result o index = .ok v ↔ (p.resultsOf o)[index]? = some v := by
  unfold result op resultsOf
  cases p.op? o with
  | none => simp [bind, Except.bind]
  | some node =>
    cases hv : node.results[index]? <;> simp [bind, Except.bind, hv, pure, Except.pure]

lemma position_eq_ok : p.position o = .ok index ↔ ∃ r, p.parentOf? o = some r ∧ o ∈ p.opsIn r ∧
    (p.opsIn r).idxOf o = index := by
  unfold position parentOf?
  cases ho : p.op? o with
  | none => simp [op, ho, bind, Except.bind]
  | some node =>
    cases hr : p.region? node.parent with
    | none => simp [op, region, ho, hr, bind, Except.bind, opsIn]
    | some region =>
      have hops := opsIn_eq hr
      cases hindex : region.ops.idxOf? o with
      | none =>
        have habsent : o ∉ region.ops := idxOf?_eq_none_iff.mp hindex
        simp [op, Program.region, ho, hr, hops, hindex, bind, Except.bind, habsent, throw,
          throwThe, MonadExceptOf.throw]
      | some found =>
        obtain ⟨-, hfound⟩ := findIdx?_eq_some_iff_findIdx_eq.mp hindex
        have hmem : o ∈ region.ops := isSome_idxOf?.mp (by rw [hindex]; rfl)
        have hidx : region.ops.idxOf o = found := hfound
        simp [op, Program.region, ho, hr, hops, hindex, bind, Except.bind, hmem,
          hidx, pure, Except.pure]

end Program

namespace Edit

open Program

variable {α β : Type} {e : Edit α} {R : α → Program → Prop} {a : α} {q : Program} {r : RegionId}
  {v old : ValueId} {dep anchor : OpId} {new : NewOp} {ops order : List OpId}
  {values : List ValueId} {form : Form} {name : String} {value : Attribute} {type : TensorType}
  {execution : Execution} {body : RegionId} {resultTypes : List TensorType}

/-- The edit succeeds, and `R` holds of its answer and of the program it leaves, or it fails and
leaves the program as it was. It fails only if `R` holds of nothing. -/
def Does (e : Edit α) (p : Program) (R : α → Program → Prop) : Prop :=
  (∃ err, e.exec p = (.error err, p) ∧ ∀ a q, ¬ R a q) ∨ ∃ a q, e.exec p = (.ok a, q) ∧ R a q

namespace Does

lemma of_ok (h : Does e p R) (hok : e.exec p = (.ok a, q)) : R a q := by
  rcases h with ⟨err, herr, -⟩ | ⟨b, m, hdone, hR⟩
  · cases hok.symm.trans herr
  · cases hok.symm.trans hdone
    exact hR

lemma exec (h : Does e p R) (hR : R a q) (hunique : ∀ b m, R b m → b = a ∧ m = q) :
    e.exec p = (.ok a, q) := by
  rcases h with ⟨err, -, hnone⟩ | ⟨b, m, hdone, hdoes⟩
  · exact absurd hR (hnone a q)
  · obtain ⟨rfl, rfl⟩ := hunique b m hdoes
    exact hdone

lemma exists_done {e : Edit PUnit} {R : PUnit → Program → Prop} (h : Does e p R) (hR : R ⟨⟩ q) :
    ∃ m, e.exec p = (.ok ⟨⟩, m) := by
  rcases h with ⟨err, -, hnone⟩ | ⟨_, m, hdone, -⟩
  · exact absurd hR (hnone ⟨⟩ q)
  · exact ⟨m, hdone⟩

lemma leads (h : Does e p R) {Q : α → Program → Prop} {E : Program → Prop} (hp : E p)
    (hq : ∀ a q, e.exec p = (.ok a, q) → R a q → Q a q) : Leads e p Q E := by
  unfold Leads
  rcases h with ⟨err, herr, -⟩ | ⟨a, q, hok, hR⟩
  · rwa [herr]
  · rw [hok]
    exact hq a q hok hR

lemma leaves (h : Does e p R) (hp : I p) (hq : ∀ a q, e.exec p = (.ok a, q) → R a q → I q) :
    I (e.exec p).2 :=
  (h.leads hp hq).keeps

lemma congr {S : α → Program → Prop} (h : Does e p R) (hsame : ∀ a q, R a q ↔ S a q) :
    Does e p S := by
  obtain rfl : R = S := funext fun a ↦ funext fun q ↦ propext (hsame a q)
  exact h

variable {S : β → Program → Prop} {query : Program → Except Error α} {f : α → Edit β}
  {entry : Option α}

section

variable (hentry : ∀ {a}, query p = .ok a ↔ entry = some a)
  (hf : ∀ a, entry = some a → Does (f a) p S)

include hentry hf

lemma of_read (hnone : entry = none → ∀ b q, ¬ S b q) : Does (read query >>= f) p S := by
  unfold Does
  cases hquery : query p with
  | ok a =>
    rw [exec_bind_of_ok (by rw [exec_read, hquery])]
    exact hf a (hentry.mp hquery)
  | error err =>
    refine .inl ⟨err, exec_bind_of_error (by rw [exec_read, hquery]) f, hnone ?_⟩
    refine Option.eq_none_iff_forall_ne_some.mpr fun a ha ↦ ?_
    cases hquery.symm.trans (hentry.mpr ha)

lemma read : Does (read query >>= f) p fun b q ↦ entry.isSome ∧ S b q :=
  of_read hentry (fun a ha ↦ (hf a ha).congr fun _ _ ↦ by simp [ha]) fun hnone ↦ by simp [hnone]

end

lemma check {f : PUnit → Edit β} {check : Edit PUnit} {C : Prop}
    (hcheck : Does check p fun _ q ↦ C ∧ q = p) (hf : C → Does (f ⟨⟩) p S) :
    Does (check >>= f) p fun b q ↦ C ∧ S b q := by
  unfold Does
  rcases hcheck with ⟨err, herr, hnone⟩ | ⟨_, _, hok, hC, rfl⟩
  · exact .inl ⟨err, exec_bind_of_error herr f, fun b q h ↦ hnone ⟨⟩ p ⟨h.1, rfl⟩⟩
  · rw [exec_bind_of_ok hok f]
    exact (hf hC).congr fun _ _ ↦ (and_iff_right hC).symm

lemma readPosition {f : Nat → Edit β} {S : RegionId → β → Program → Prop}
    (hf : ∀ r, p.parentOf? o = some r → o ∈ p.opsIn r → Does (f ((p.opsIn r).idxOf o)) p (S r)) :
    Does (Edit.read (·.position o) >>= f) p fun b q ↦ ∃ r, p.parentOf? o = some r ∧
    o ∈ p.opsIn r ∧ S r b q := by
  unfold Does
  cases hindex : p.position o with
  | error err =>
    refine .inl ⟨err, exec_bind_of_error (by rw [exec_read, hindex]) f, ?_⟩
    rintro _ _ ⟨r, hr, hmem, -⟩
    cases hindex.symm.trans (position_eq_ok.mpr ⟨r, hr, hmem, rfl⟩)
  | ok index =>
    obtain ⟨r, hr, hmem, rfl⟩ := position_eq_ok.mp hindex
    rw [exec_bind_of_ok (by rw [exec_read, hindex])]
    exact (hf r hr hmem).congr fun _ _ ↦ by simp [hr, hmem]

end Does

/-! ### Checks -/

lemma does_checkValues : Does (checkValues values) p fun _ q ↦
    (∀ v ∈ values, (p.value? v).isSome) ∧ q = p := by
  induction values with
  | nil => exact .inr ⟨_, _, rfl, by simp, rfl⟩
  | cons v rest ih =>
    refine Does.congr (.check (.read value_eq_ok fun _ _ ↦ .inr ⟨_, _, rfl, rfl⟩) fun _ ↦ ih)
      fun _ q ↦ ?_
    simp [and_assoc]

lemma does_checkOps : Does (checkOps ops) p fun _ q ↦ (∀ o ∈ ops, (p.op? o).isSome) ∧ q = p := by
  induction ops with
  | nil => exact .inr ⟨_, _, rfl, by simp, rfl⟩
  | cons o rest ih =>
    refine Does.congr (.check (.read op_eq_ok fun _ _ ↦ .inr ⟨_, _, rfl, rfl⟩) fun _ ↦ ih)
      fun _ q ↦ ?_
    simp [and_assoc]

/-! ### Operations -/

lemma does_insertOp : Does (insertOp r index new) p fun o q ↦
    (p.region? r).isSome ∧ index ≤ (p.opsIn r).length ∧ (∀ v ∈ new.operands, (p.value? v).isSome) ∧
    (∀ d ∈ new.control, (p.op? d).isSome) ∧ o = p.nextOp ∧ q = p.withOp r index new := by
  refine .read region_eq_ok fun region hr ↦ ?_
  rw [opsIn_eq hr]
  by_cases hindex : index > region.ops.length
  · exact .inl ⟨_, by rw [if_pos hindex]; rfl, fun _ _ h ↦ absurd h.1 (Nat.not_le.mpr hindex)⟩
  · rw [if_neg hindex]
    simp only [Nat.not_lt.mp hindex, true_and]
    exact .check does_checkValues fun _ ↦ .check does_checkOps fun _ ↦ .inr ⟨_, _, rfl, rfl, rfl⟩

lemma does_appendOp : Does (appendOp r new) p fun o q ↦ (p.region? r).isSome ∧
    (∀ v ∈ new.operands, (p.value? v).isSome) ∧ (∀ d ∈ new.control, (p.op? d).isSome) ∧
    o = p.nextOp ∧ q = p.withOp r (p.opsIn r).length new := by
  refine .of_read region_eq_ok (fun region hr ↦ ?_) fun hr ↦ by simp [hr]
  rw [opsIn_eq hr]
  exact does_insertOp.congr fun _ _ ↦ by simp [opsIn_eq hr]

lemma does_insertOpBefore : Does (insertOpBefore anchor new) p fun o q ↦
    ∃ r, p.parentOf? anchor = some r ∧ anchor ∈ p.opsIn r ∧
    (∀ v ∈ new.operands, (p.value? v).isSome) ∧ (∀ d ∈ new.control, (p.op? d).isSome) ∧
    o = p.nextOp ∧ q = p.withOp r ((p.opsIn r).idxOf anchor) new := by
  refine .of_read op_eq_ok (fun node ho ↦ ?_) fun ho ↦ by simp [parentOf?, ho]
  refine .readPosition fun r hr hmem ↦ ?_
  cases (parentOf?_eq ho).symm.trans hr
  have hregion := isSome_region?_of_mem_opsIn hmem
  exact does_insertOp.congr fun _ _ ↦ by simp [hregion, idxOf_le_length]

lemma does_addControl : Does (addControl o dep) p fun _ q ↦ (p.op? dep).isSome ∧ (p.op? o).isSome ∧
    if dep ∈ p.controlOf o then q = p else q = p.modifyOp o fun node ↦
      { node with control := node.control ++ [dep] } := by
  refine .read op_eq_ok fun _ _ ↦ .read op_eq_ok fun node ho ↦ ?_
  simp only [controlOf_eq ho, ← contains_iff_mem]
  split_ifs <;> exact .inr ⟨_, _, rfl, rfl⟩

lemma does_setControl : Does (setControl o ops) p fun _ q ↦ (∀ d ∈ ops, (p.op? d).isSome) ∧
    (p.op? o).isSome ∧ q = p.modifyOp o fun node ↦ { node with control := ops.eraseDups } :=
  .check does_checkOps fun _ ↦ .read op_eq_ok fun _ _ ↦ .inr ⟨_, _, rfl, rfl⟩

lemma does_setForm : Does (setForm o form) p fun _ q ↦ (∀ regions, form ≠ .nested regions) ∧
    (p.op? o).isSome ∧ q = (p.regionsOf o).foldl dropRegion (p.withForm o form) := by
  cases form with
  | nested regions => exact .inl ⟨_, rfl, by simp⟩
  | _ =>
    simp only [ne_eq, reduceCtorEq, not_false_eq_true, implies_true, true_and]
    exact .read op_eq_ok fun _ ho ↦ .inr ⟨_, _, rfl, by rw [regionsOf_eq ho]⟩

lemma does_detach : Does (detach o) p fun _ q ↦ ∃ r, p.parentOf? o = some r ∧ o ∈ p.opsIn r ∧
    q = p.detached o r := by
  refine .readPosition fun r hr hmem ↦ .of_read op_eq_ok (fun node ho ↦ ?_)
    fun ho ↦ by simp [parentOf?, ho] at hr
  cases (parentOf?_eq ho).symm.trans hr
  exact .inr ⟨_, _, rfl, rfl⟩

lemma Keeps.eraseOp
    (hcontrol : ∀ q, I q → ∀ x ∈ q.controlDependents o, ∀ deps, Keeps I (setControl x deps))
    (hdiscard : ∀ q r, I q → q.parentOf? o = some r → I (q.discarded o r)) :
    Keeps I (eraseOp o) := by
  refine .bind (.read _) fun node ↦ .bind .get fun _ ↦ ?_
  split
  · exact .throw _
  refine fun q hq ↦
    Keeps.bind (.forM_of_mem fun x hx ↦ .bind (.read _) fun _ ↦ hcontrol q hq x hx _)
    (fun _ s hs ↦ ?_) q hq
  rcases does_detach (o := o) (p := s) with ⟨err, herr, -⟩ | ⟨_, _, hok, r, hparent, -, rfl⟩
  · rw [exec_bind_of_error herr]
    exact hs
  · rw [exec_bind_of_ok hok, exec_modify]
    exact hdiscard s r hs hparent

lemma does_moveOp : Does (moveOp o r index) p fun _ q ↦ ∃ home, p.parentOf? o = some home ∧
    o ∈ p.opsIn home ∧
    (p.region? r).isSome ∧ q = attach o r (min index ((p.detached o home).opsIn r).length)
    (p.detached o home) := by
  refine .of_read region_eq_ok (fun region hr ↦ ?_) fun hr ↦ by simp [hr]
  unfold Does
  rcases does_detach with ⟨err, herr, hnone⟩ | ⟨_, _, hok, home, hhome, hmem, rfl⟩
  · refine .inl ⟨err, exec_bind_of_error herr _, ?_⟩
    rintro _ _ ⟨home, hhome, hmem, -⟩
    exact hnone ⟨⟩ _ ⟨home, hhome, hmem, rfl⟩
  · obtain ⟨left, hleft⟩ : ∃ left, (p.detached o home).region? r = some left := by
      rw [detached, region?_modifyRegion, hr]
      split_ifs <;> exact ⟨_, rfl⟩
    rw [exec_bind_of_ok hok, bind_readRegion hleft, ← opsIn_eq hleft]
    exact .inr ⟨_, _, rfl, home, hhome, hmem, Option.isSome_of_eq_some hr, rfl⟩

/-- Only the last failure changes anything: the operation has been taken out of its region when the
other turns out to have no place. -/
theorem moveOpBefore_cases (o anchor : OpId) (p : Program) :
    (∃ answer, (moveOpBefore o anchor).exec p = (answer, p)) ∨
    ∃ home r, p.parentOf? o = some home ∧ o ∈ p.opsIn home ∧ o ≠ anchor ∧
      p.parentOf? anchor = some r ∧ ((∃ err, (p.detached o home).position anchor = .error err ∧
        (moveOpBefore o anchor).exec p = (.error err, p.detached o home)) ∨
      anchor ∈ (p.detached o home).opsIn r ∧ (moveOpBefore o anchor).exec p =
        (.ok ⟨⟩, p.movedOp o home r (((p.detached o home).opsIn r).idxOf anchor))) := by
  unfold moveOpBefore
  by_cases hsame : o = anchor
  · exact .inl ⟨.ok ⟨⟩, by rw [if_pos hsame]; rfl⟩
  · rw [if_neg hsame]
    cases hanchor : p.op? anchor with
    | none => exact .inl ⟨_, bind_readOp_none hanchor _⟩
    | some node =>
      rw [bind_readOp hanchor]
      rcases does_detach with ⟨err, herr, -⟩ | ⟨_, _, hok, home, hparent, hmem, rfl⟩
      · exact .inl ⟨_, exec_bind_of_error herr _⟩
      · rw [exec_bind_of_ok hok]
        refine .inr ⟨home, node.parent, hparent, hmem, hsame, parentOf?_eq hanchor, ?_⟩
        cases hindex : (p.detached o home).position anchor with
        | error err =>
          exact .inl ⟨err, rfl, exec_bind_of_error (by rw [exec_read, hindex]) _⟩
        | ok index =>
          rw [exec_bind_of_ok (by rw [exec_read, hindex])]
          obtain ⟨r, hr, hlisted, rfl⟩ := position_eq_ok.mp hindex
          have hsome : some node.parent = some r := (parentOf?_eq hanchor).symm.trans hr
          cases hsome
          exact .inr ⟨hlisted, rfl⟩

lemma does_reorder : Does (reorder r order) p fun _ q ↦ (p.region? r).isSome ∧
    (∀ o, o ∈ p.opsIn r ↔ o ∈ order) ∧ order.length = (p.opsIn r).eraseDups.length ∧
    q = p.setOps r order := by
  refine .read region_eq_ok fun region hr ↦ ?_
  rw [opsIn_eq hr]
  dsimp only
  split_ifs with hcheck
  · simp only [Bool.and_eq_true, all_eq_true, contains_iff_mem, beq_iff_eq] at hcheck
    exact .inr ⟨_, _, rfl, fun o ↦ ⟨hcheck.1.1 o, hcheck.1.2 o⟩, hcheck.2, rfl⟩
  · refine .inl ⟨_, rfl, fun _ _ h ↦ hcheck ?_⟩
    simpa [h.2.1] using ⟨fun o ↦ (h.1 o).mp, fun o ↦ (h.1 o).mpr⟩

lemma does_updateOp {f : Operation → Operation} :
    Does (updateOp o f) p fun _ q ↦ (p.op? o).isSome ∧ q = p.modifyOp o f :=
  .read op_eq_ok fun _ _ ↦ .inr ⟨_, _, rfl, rfl⟩

lemma updateOp_exec (ho : (p.op? o).isSome) (f : Operation → Operation) :
    (updateOp o f).exec p = (.ok ⟨⟩, p.modifyOp o f) :=
  does_updateOp.exec ⟨ho, rfl⟩ fun _ _ h ↦ ⟨rfl, h.2⟩

lemma does_setAttr : Does (setAttr o name value) p fun _ q ↦ (p.op? o).isSome ∧
    q = p.modifyOp o fun node ↦ { node with attrs := node.attrs.insert name value } :=
  .read op_eq_ok fun _ _ ↦ .inr ⟨_, _, rfl, rfl⟩

lemma does_removeAttr : Does (removeAttr o name) p fun _ q ↦ (p.op? o).isSome ∧
    q = p.modifyOp o fun node ↦ { node with attrs := node.attrs.erase name } :=
  .read op_eq_ok fun _ _ ↦ .inr ⟨_, _, rfl, rfl⟩

/-! ### Regions and functions -/

lemma does_addArg : Does (addArg r type) p fun v q ↦ (p.region? r).isSome ∧ v = p.nextValue ∧
    q = p.withArg r type :=
  .read region_eq_ok fun _ hr ↦ .inr ⟨_, _, rfl, rfl, by rw [withArg, argsOf_eq hr]⟩

lemma does_removeArg : Does (removeArg r index) p fun _ q ↦ ∃ v, (p.argsOf r)[index]? = some v ∧
    (p.value? v).isSome ∧ p.usersOf v = [] ∧ q = p.withoutArg r index := by
  refine .of_read region_eq_ok (fun region hr ↦ ?_) fun hr ↦ by simp [argsOf, hr]
  rw [withoutArg, argsOf_eq hr]
  cases hv : region.args[index]? with
  | none => exact .inl ⟨_, rfl, by simp⟩
  | some v =>
    simp only [Option.some_inj, exists_eq_left']
    refine .read value_eq_ok fun value hvalue ↦ ?_
    rw [usersOf_eq hvalue]
    cases huses : value.hasUses with
    | true => exact .inl ⟨_, rfl, by simp_all [Value.hasUses]⟩
    | false => exact .inr ⟨_, _, rfl, by simpa [Value.hasUses] using huses, rfl⟩

lemma does_addRegion : Does (addRegion o execution) p fun r q ↦
    (∃ node, p.op? o = some node ∧ ∀ refs, node.form ≠ .functional refs) ∧ r = p.nextRegion ∧
    q = p.withRegion o execution := by
  refine .of_read op_eq_ok (fun node ho ↦ ?_) fun ho ↦ by simp [ho]
  simp only [ho, Option.some_inj, exists_eq_left']
  cases node.form with
  | functional refs => exact .inl ⟨_, rfl, by simp⟩
  | plain => exact .inr ⟨_, _, rfl, by simp, rfl, rfl⟩
  | nested regions => exact .inr ⟨_, _, rfl, by simp, rfl, rfl⟩

lemma does_checkFunctionName : Does (checkFunctionName name) p fun _ q ↦
    p.func? name = none ∧ q = p := by
  unfold Does checkFunctionName
  rw [exec_get_bind]
  cases p.func? name with
  | none => exact .inr ⟨_, _, rfl, rfl, rfl⟩
  | some func => exact .inl ⟨_, rfl, by simp⟩

lemma does_pushFunc : Does (pushFunc name body resultTypes) p fun _ q ↦ (p.region? body).isSome ∧
    q = p.withFunc name body resultTypes :=
  .read region_eq_ok fun _ hr ↦ .inr ⟨_, _, rfl, by rw [withFunc, argsOf_eq hr]⟩

/-! ### Values and operands -/

lemma does_setType : Does (setType v type) p fun _ q ↦ (p.value? v).isSome ∧ q = p.setType v type :=
  .read value_eq_ok fun _ _ ↦ .inr ⟨_, _, rfl, rfl⟩

lemma does_replaceUses : Does (replaceUses old v) p fun _ q ↦ (p.value? v).isSome ∧
    (old = v ∧ q = p ∨ (p.value? old).isSome ∧ old ≠ v ∧ q = p.redirected old v) := by
  refine .read value_eq_ok fun _ _ ↦ ?_
  by_cases hsame : old = v
  · rw [if_pos hsame]
    exact .inr ⟨_, _, rfl, .inl ⟨hsame, rfl⟩⟩
  · rw [if_neg hsame]
    unfold Does
    rw [exec_get_bind]
    cases hold : p.value? old with
    | none => exact .inl ⟨_, rfl, by simp [hsame]⟩
    | some value => exact .inr ⟨_, _, rfl, .inr ⟨rfl, hsame, by rw [redirected, usersOf_eq hold]⟩⟩

lemma does_setOperand : Does (setOperand o index v) p fun _ q ↦ (p.value? v).isSome ∧ ∃ old,
    (p.operandsOf o)[index]? = some old ∧ q = ((p.modifyOp o fun node ↦
      { node with operands := node.operands.set index v }).dropUse o old).addUse o v := by
  refine .read value_eq_ok fun _ _ ↦ .of_read op_eq_ok (fun node ho ↦ ?_)
    fun ho ↦ by simp [operandsOf, ho]
  rw [operandsOf_eq ho]
  cases hold : node.operands[index]? with
  | none => exact .inl ⟨_, rfl, by simp⟩
  | some old => exact .inr ⟨_, _, rfl, old, rfl, rfl⟩

lemma does_setOperands : Does (setOperands o values) p fun _ q ↦
    (∀ v ∈ values, (p.value? v).isSome) ∧ (p.op? o).isSome ∧ q = p.withOperands o values :=
  .check does_checkValues fun _ ↦ .read op_eq_ok fun _ ho ↦
    .inr ⟨_, _, rfl, by rw [withOperands, operandsOf_eq ho]⟩

lemma does_removeOperand : Does (removeOperand o index) p fun _ q ↦ ∃ old,
    (p.operandsOf o)[index]? = some old ∧ q = p.withoutOperand o index old := by
  refine .of_read op_eq_ok (fun node ho ↦ ?_) fun ho ↦ by simp [operandsOf, ho]
  rw [operandsOf_eq ho]
  cases hold : node.operands[index]? with
  | none => exact .inl ⟨_, rfl, by simp⟩
  | some old => exact .inr ⟨_, _, rfl, old, rfl, rfl⟩

lemma does_removeResult : Does (removeResult o index) p fun _ q ↦ ∃ v,
    (p.resultsOf o)[index]? = some v ∧ (p.value? v).isSome ∧ p.usersOf v = [] ∧
    q = p.withoutResult o index := by
  refine .of_read result_eq_ok (fun v hv ↦ .of_read op_eq_ok (fun node ho ↦ ?_) fun ho ↦ ?_)
    fun hv ↦ by simp [hv]
  · rw [withoutResult, resultsOf_eq ho]
    simp only [← resultsOf_eq ho, hv, Option.some_inj, exists_eq_left']
    refine .read value_eq_ok fun value hvalue ↦ ?_
    rw [usersOf_eq hvalue]
    cases huses : value.hasUses with
    | true => exact .inl ⟨_, rfl, by simp_all [Value.hasUses]⟩
    | false => exact .inr ⟨_, _, rfl, by simpa [Value.hasUses] using huses, rfl⟩
  · simp [resultsOf, ho]

end Edit

end TensorGraph
