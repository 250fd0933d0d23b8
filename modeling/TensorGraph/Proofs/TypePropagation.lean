import TensorGraph.Pass.TypePropagation
import TensorGraph.Proofs.ShapeRules
import TensorGraph.Proofs.Rewriting

/-!
One look at an operation, written out.
-/

namespace TensorGraph.TypePropagation

open Program Edit List

variable {p q : Program} {o : OpId} {r : RegionId} {v : ValueId} {node : Operation}
    {regions : List RegionId} {types : List TensorType} {slots rest : List (ValueId × TensorType)}
    {slot : ValueId × TensorType} {values : List ValueId} {registry : Registry} {version : Nat}

/-! ### Values that learn -/

def learners (p : Program) (slots : List (ValueId × TensorType)) : List ValueId :=
  (slots.filter fun slot ↦ (p.typeAt slot.1).hear slot.2 ≠ p.typeAt slot.1).map (·.1)

lemma learners_cons (p : Program) (slot : ValueId × TensorType)
    (rest : List (ValueId × TensorType)) : learners p (slot :: rest) =
    (if (p.typeAt slot.1).hear slot.2 ≠ p.typeAt slot.1 then [slot.1] else []) ++
    learners p rest := by
  unfold learners
  rw [filter_cons]
  split_ifs with hpos hneg hneg
  · rfl
  · exact absurd (of_decide_eq_true hpos) hneg
  · exact absurd (decide_eq_true hneg) hpos
  · rfl

lemma learners_append (p : Program) (front back : List (ValueId × TensorType)) :
    learners p (front ++ back) = learners p front ++ learners p back := by
  unfold learners
  rw [filter_append, map_append]

lemma learners_congr (h : ∀ slot ∈ slots, q.typeAt slot.1 = p.typeAt slot.1) :
    learners q slots = learners p slots := by
  unfold learners
  rw [filter_congr fun slot hslot ↦ by rw [h slot hslot]]

lemma learners_eq_nil_iff : learners p slots = [] ↔ Silent p slots := by
  simp [learners, Silent]

lemma not_mem_learners (hnodup : (slots.map (·.1)).Nodup) (hv : v.index < p.values.length)
    (hlearns : v ∉ learners p slots) : (p.tell slots).typeAt v = p.typeAt v := by
  by_cases hmem : v ∈ slots.map (·.1)
  · obtain ⟨⟨v, type⟩, hslot, rfl⟩ := mem_map.mp hmem
    rw [typeAt_tell hnodup hv hslot]
    by_contra hne
    exact hlearns (mem_map.mpr ⟨(v, type), mem_filter.mpr ⟨hslot, decide_eq_true hne⟩, rfl⟩)
  · exact typeAt_tell_of_not_mem p hmem

lemma tell_append (p : Program) (front back : List (ValueId × TensorType)) :
    p.tell (front ++ back) = (p.tell front).tell back :=
  foldl_append

/-! ### Refining -/

lemma refine_exec (hv : v.index < p.values.length) (type : TensorType) : (refine v type).exec p =
    (.ok (decide ((p.typeAt v).hear type ≠ p.typeAt v)), p.setType v ((p.typeAt v).hear type)) := by
  have hsame : p.setType v (p.typeAt v) = p := setType_eq_self (typeOf?_eq_typeAt hv)
  unfold refine
  rw [exec_bind_of_ok (by rw [exec_read, valueType_eq_ok hv])]
  unfold TensorType.hear
  cases hmeet : (p.typeAt v).meet type with
  | none =>
    rw [Option.getD_none, hsame, decide_eq_false (not_not.mpr rfl)]
    rfl
  | some refined =>
    rw [Option.getD_some]
    dsimp only
    split_ifs with heq
    · rw [heq, hsame, decide_eq_false (not_not.mpr rfl)]
      rfl
    · rw [decide_eq_true heq]
      obtain ⟨value, hvalue⟩ : ∃ value, p.value? v = some value := ⟨_, getElem?_eq_getElem hv⟩
      rw [exec_bind_of_ok (bind_readValue hvalue _)]
      rfl

/-! ### The queue -/

def affected (p : Program) (values : List ValueId) : List OpId :=
  values.flatMap fun v ↦ (p.usersOf v).filterMap (affectedBy p)

lemma pushUsers_eq (agenda : Agenda) (p : Program) (v : ValueId) :
    agenda.pushUsers p v = (affected p [v]).foldl Agenda.push agenda := by
  rw [affected, flatMap_singleton]
  rfl

lemma affected_append (p : Program) (front back : List ValueId) :
    affected p (front ++ back) = affected p front ++ affected p back :=
  flatMap_append

lemma foldl_pushUsers (agenda : Agenda) (p : Program) (values : List ValueId) :
    values.foldl (fun agenda v ↦ agenda.pushUsers p v) agenda =
    (affected p values).foldl Agenda.push agenda := by
  induction values generalizing agenda with
  | nil => rfl
  | cons v rest ih =>
    rw [foldl_cons, ih, pushUsers_eq, ← foldl_append, ← affected_append]
    rfl

lemma affectedBy_refined (h : p.Refined q) : affectedBy q = affectedBy p := by
  funext user
  unfold affectedBy
  rw [h.op?]
  split
  · rfl
  · rw [h.parentOp?]

lemma affected_refined (h : p.Refined q) (values : List ValueId) :
    affected q values = affected p values := by
  have husers : ∀ v, q.usersOf v = p.usersOf v := fun v ↦
    congrArg (·.getD []) (h.map_value? Value.users (fun _ _ ↦ rfl) v)
  unfold affected
  rw [affectedBy_refined h]
  simp only [husers]

section Slots

variable (hnodup : (slots.map (·.1)).Nodup) (hlt : ∀ slot ∈ slots, slot.1.index < p.values.length)

include hnodup hlt

lemma learners_setType (hslots : slots = slot :: rest) (type : TensorType) :
    learners (p.setType slot.1 type) rest = learners p rest := by
  subst hslots
  rw [map_cons, nodup_cons] at hnodup
  refine learners_congr fun other hother ↦ ?_
  have hne : other.1 ≠ slot.1 := fun heq ↦ hnodup.1 (heq ▸ mem_map_of_mem hother)
  rw [typeAt_setType (hlt slot mem_cons_self), if_neg hne]

lemma refineArgs_exec (before : List ValueId) : (slots.foldlM (fun changed (arg, type) ↦ do
      if ← refine arg type then return changed ++ [arg] else return changed) before :
        Edit (List ValueId)).exec p = (.ok (before ++ learners p slots), p.tell slots) := by
  induction slots generalizing p before with
  | nil => exact congrArg (fun l ↦ (Except.ok l, p)) (append_nil before).symm
  | cons slot rest ih =>
    have hrest := learners_setType hnodup hlt rfl ((p.typeAt slot.1).hear slot.2)
    have hhead := refine_exec (hlt slot mem_cons_self) slot.2
    have hlength :
        (p.setType slot.1 ((p.typeAt slot.1).hear slot.2)).values.length = p.values.length :=
      length_modify ..
    rw [map_cons, nodup_cons] at hnodup
    have hnext :=
      fun before ↦
      ih hnodup.2 (fun other hother ↦ hlength ▸ hlt other (mem_cons_of_mem _ hother)) before
    rw [exec_foldlM_cons, exec_bind_of_ok (q := p.setType slot.1 ((p.typeAt slot.1).hear slot.2))
      (a := before ++ if (p.typeAt slot.1).hear slot.2 ≠ p.typeAt slot.1 then [slot.1] else []),
      hnext, hrest, append_assoc, ← learners_cons]
    · rfl
    · refine (exec_bind_of_ok hhead _).trans ?_
      by_cases hlearns : (p.typeAt slot.1).hear slot.2 ≠ p.typeAt slot.1
      · rw [if_pos hlearns, if_pos (decide_eq_true hlearns)]
        rfl
      · rw [if_neg hlearns, if_neg (by simpa using hlearns), append_nil]
        rfl

lemma refineAll_exec (agenda : Agenda) : (refineAll slots agenda).exec p =
    (.ok ((affected p (learners p slots)).foldl Agenda.push agenda, !(learners p slots).isEmpty),
    p.tell slots) := by
  obtain ⟨step, hall, hstep⟩ : ∃ step : Agenda × Bool → ValueId × TensorType →
      Edit (Agenda × Bool), refineAll slots agenda = slots.foldlM step (agenda, false) ∧
      ∀ agenda changed slot, step (agenda, changed) slot = do
        if ← refine slot.1 slot.2 then return (agenda.pushUsers (← get) slot.1, true)
        else return (agenda, changed) := ⟨_, rfl, fun _ _ _ ↦ rfl⟩
  have hfold : ∀ changed, (slots.foldlM step (agenda, changed)).exec p =
      (.ok ((affected p (learners p slots)).foldl Agenda.push agenda,
        changed || !(learners p slots).isEmpty), p.tell slots) := by
    intro changed
    clear hall
    induction slots generalizing p agenda changed with
    | nil => exact congrArg (fun b ↦ (Except.ok (agenda, b), p)) (Bool.or_false changed).symm
    | cons slot rest ih =>
      have hrest := learners_setType hnodup hlt rfl ((p.typeAt slot.1).hear slot.2)
      have hhead := refine_exec (hlt slot mem_cons_self) slot.2
      have hrefined := Refined.setType p slot.1 (TensorType.hear_refines (p.typeAt slot.1) slot.2)
      rw [map_cons, nodup_cons] at hnodup
      have hnext := ih hnodup.2 fun other hother ↦
        hrefined.length ▸ hlt other (mem_cons_of_mem _ hother)
      rw [exec_foldlM_cons, learners_cons, hstep]
      by_cases hlearns : (p.typeAt slot.1).hear slot.2 ≠ p.typeAt slot.1
      · rw [if_pos hlearns, exec_bind_of_ok (a := (agenda.pushUsers p slot.1, true))
          (q := p.setType slot.1 ((p.typeAt slot.1).hear slot.2)), hnext, hrest,
          affected_refined hrefined, pushUsers_eq, ← foldl_append, ← affected_append]
        · simp [Program.tell]
        · rw [decide_eq_true hlearns] at hhead
          refine (exec_bind_of_ok hhead _).trans ?_
          rw [if_pos rfl, exec_get_bind, pushUsers_eq, pushUsers_eq, affected_refined hrefined]
          rfl
      · rw [if_neg hlearns, exec_bind_of_ok (a := (agenda, changed))
          (q := p.setType slot.1 ((p.typeAt slot.1).hear slot.2)), hnext, hrest,
          affected_refined hrefined]
        · rfl
        · rw [decide_eq_false hlearns] at hhead
          exact exec_bind_of_ok hhead _
  rw [hall]
  exact hfold false

end Slots

/-! ### What is read -/

/-- The values whose types tell something of the results: the operands, unless the operation ends a
region, and the values that its regions end with. -/
def inputs (p : Program) (node : Operation) : List ValueId :=
  (if node.isTerminator then [] else node.operands) ++
    node.regions.flatMap fun r ↦ ((p.terminator? r).map p.operandsOf).getD []

lemma mem_inputs_of_yielded (hr : r ∈ node.regions)
    {last : OpId} (hlast : p.terminator? r = some last) (hv : v ∈ p.operandsOf last) :
    v ∈ inputs p node := by
  refine mem_append_right _ (mem_flatMap.mpr ⟨r, hr, ?_⟩)
  rw [hlast]
  exact hv

lemma mem_inputs_of_operand (hend : node.isTerminator = false) (hv : v ∈ node.operands) :
    v ∈ inputs p node := by
  refine mem_append_left _ ?_
  rw [hend]
  exact hv

lemma mem_affected_of_mem_inputs (hp : p.Consistent) (ho : p.op? o = some node)
    (hv : v ∈ inputs p node) (hmem : v ∈ values) : o ∈ affected p values := by
  have hcase : ∃ user, v ∈ p.operandsOf user ∧ affectedBy p user = some o := by
    rcases mem_append.mp hv with hown | hinner
    · split_ifs at hown with hend
      · cases hown
      · refine ⟨o, operandsOf_eq ho ▸ hown, ?_⟩
        simp [affectedBy, ho, hend]
    · obtain ⟨r, hr, hv⟩ := mem_flatMap.mp hinner
      cases hlast : p.terminator? r with
      | none =>
        rw [hlast] at hv
        cases hv
      | some last =>
        rw [hlast] at hv
        refine ⟨last, hv, ?_⟩
        obtain ⟨hin, hend⟩ := terminator?_eq_some.mp hlast
        obtain ⟨inner, hinner, rfl⟩ :=
          exists_op_of_parentOf? (hp.mem_opsIn.mp (mem_of_getLast? hin))
        have howner := hp.mem_regionsOf.mp (regionsOf_eq ho ▸ hr)
        rw [isEnd, hinner] at hend
        have hterminator : inner.isTerminator = true := hend
        simp [affectedBy, hinner, hterminator, howner]
  obtain ⟨user, huser, haffected⟩ := hcase
  have hrecorded : user ∈ p.usersOf v := by
    rw [← count_pos_iff, hp.uses.counts]
    exact count_pos_iff.mpr huser
  exact mem_flatMap.mpr ⟨v, hmem, mem_filterMap.mpr ⟨user, hrecorded, haffected⟩⟩

section Reading

lemma typesOf_eq_ok (hlt : ∀ v ∈ values, v.index < p.values.length) :
    typesOf p values = .ok (values.map p.typeAt) := by
  unfold typesOf
  induction values with
  | nil => rfl
  | cons v rest ih =>
    rw [mapM_cons, valueType_eq_ok (hlt v mem_cons_self), ih fun x hx ↦
      hlt x (mem_cons_of_mem _ hx)]
    rfl

/-- The types that a region ends with, if there are as many as expected. -/
def yields (p : Program) (r : RegionId) (expected : Nat) : Option (List TensorType) :=
  (p.terminator? r).bind fun last ↦
    if (p.operandsOf last).length = expected then some ((p.operandsOf last).map p.typeAt) else none

lemma yieldedTypes_eq_ok (hp : p.Consistent) (r : RegionId) (expected : Nat) :
    yieldedTypes p r expected = .ok (yields p r expected) := by
  unfold yieldedTypes yields
  cases hlast : p.terminator? r with
  | none => rfl
  | some last =>
    obtain ⟨node, hnode⟩ : ∃ node, p.op? last = some node := by
      obtain ⟨hin, -⟩ := terminator?_eq_some.mp hlast
      obtain ⟨node, hnode, -⟩ := exists_op_of_parentOf? (hp.mem_opsIn.mp (mem_of_getLast? hin))
      exact ⟨node, hnode⟩
    have hlt : ∀ v ∈ node.operands, v.index < p.values.length := fun v hv ↦
      hp.lt_of_mem_operandsOf (operandsOf_eq hnode ▸ hv)
    have hread : p.op last = .ok node := op_eq_ok.mpr hnode
    simp only [hread, Option.bind_some, operandsOf_eq hnode]
    change (if node.operands.length = expected then _ else _) = _
    split_ifs
    · rw [typesOf_eq_ok hlt]
      rfl
    · rfl

def branches (p : Program) (expected : Nat) : List RegionId → Option (List TensorType)
  | [] => none
  | r :: rest => (yields p r expected).bind fun types ↦
    rest.foldlM (fun joined r ↦ (yields p r expected).map (List.zipWith TensorType.join joined))
    types

lemma exists_branchTypes_eq (hp : p.Consistent) (expected : Nat) (first : RegionId)
    (rest : List RegionId) :
    ∃ step : Option (List TensorType) → RegionId → Except Error (Option (List TensorType)),
      (∀ types, yields p first expected = some types →
        branchTypes p expected (first :: rest) = rest.foldlM step (some types)) ∧
      (∀ r, step none r = .ok none) ∧ ∀ joined r, step (some joined) r =
        .ok ((yields p r expected).map (List.zipWith TensorType.join joined)) := by
  refine ⟨_, fun types htypes ↦ by rw [branchTypes, yieldedTypes_eq_ok hp, htypes]; rfl, fun _ ↦
    rfl, fun joined r ↦ ?_⟩
  dsimp only
  rw [yieldedTypes_eq_ok hp r]
  cases yields p r expected <;> rfl

lemma branchTypes_eq_ok (hp : p.Consistent) (expected : Nat) (regions : List RegionId) :
    branchTypes p expected regions = .ok (branches p expected regions) := by
  cases regions with
  | nil => rfl
  | cons first rest =>
    cases hfirst : yields p first expected with
    | none =>
      rw [branchTypes, branches, yieldedTypes_eq_ok hp, hfirst]
      rfl
    | some types =>
      obtain ⟨step, hsteps, hnone, hsome⟩ := exists_branchTypes_eq hp expected first rest
      have hfold : ∀ joined : Option (List TensorType), rest.foldlM step joined = .ok
          (joined.bind fun types ↦ rest.foldlM
          (fun joined r ↦ (yields p r expected).map (List.zipWith TensorType.join joined))
          types) := by
        clear hsteps
        induction rest with
        | nil =>
          intro joined
          cases joined <;> rfl
        | cons r rest ih =>
          intro joined
          rw [foldlM_cons]
          cases joined with
          | none =>
            rw [hnone]
            exact ih none
          | some joined =>
            rw [hsome]
            simp only [Option.bind_some, foldlM_cons]
            cases yields p r expected with
            | none => exact ih none
            | some types => exact ih _
      rw [hsteps types hfirst, hfold, branches, hfirst]

/-- What the operands of a loop and the values handed on by its body both say. -/
def carried (p : Program) (node : Operation) : Option (List TensorType) :=
  match node.regions with
  | [_, body] => (yields p body node.operands.length).map
    (List.zipWith TensorType.join (node.operands.map p.typeAt))
  | _ => none

lemma loopTypes_eq_ok (hp : p.Consistent) (ho : p.op? o = some node) :
    loopTypes p node = .ok (carried p node) := by
  have hlt : ∀ v ∈ node.operands, v.index < p.values.length := fun v hv ↦
    hp.lt_of_mem_operandsOf (operandsOf_eq ho ▸ hv)
  unfold loopTypes carried
  rcases node.regions with _ | ⟨cond, _ | ⟨body, _ | ⟨other, rest⟩⟩⟩
  · rfl
  · rfl
  · simp only [yieldedTypes_eq_ok hp, typesOf_eq_ok hlt]
    cases yields p body node.operands.length with
    | none => rfl
    | some types => rfl
  · rfl

lemma resultTypes_eq_error (hrules : registry.OnlyBuiltIn) (hp : p.Consistent)
    (ho : p.op? o = some node)
    {err : Error} (herr : resultTypes registry version p node = .error err) :
    registry.shapeRule? node.kind = some ShapeRule.reshape ∧
    ∃ rank, err = .aborted (.rankTooLarge rank) ∧
      ShapeRule.Overlong ⟨p, node, version⟩ rank := by
  unfold resultTypes at herr
  split_ifs at herr
  · cases herr
  rcases bind_eq_error.mp herr with herr | ⟨answer, -, herr⟩
  · unfold inferTypes at herr
    split_ifs at herr
    · cases (branchTypes_eq_ok hp _ _).symm.trans herr
    · cases (loopTypes_eq_ok hp ho).symm.trans herr
    · unfold ruleTypes at herr
      split at herr
      case h_1 => cases herr
      case h_2 rule hrule =>
        split at herr
        case h_1 => cases herr
        case h_2 cause hcause =>
          split_ifs at herr with habort
          obtain rfl := Except.error.inj herr
          obtain ⟨rfl, hoverlong⟩ := (hrules _ _ hrule).of_isAbort hcause habort
          exact ⟨hrule, hoverlong⟩
  · split at herr
    · cases herr
    · cases herr

end Reading

/-! ### What is read again -/

section Again

variable (h : p.Refined q)

include h

lemma yields_congr
    (hsame : ∀ last, p.terminator? r = some last → ∀ v ∈ p.operandsOf last, q.typeAt v = p.typeAt v)
    (expected : Nat) : yields q r expected = yields p r expected := by
  unfold yields
  rw [h.terminator?]
  cases hlast : p.terminator? r with
  | none => rfl
  | some last =>
    rw [Option.bind_some, Option.bind_some, operandsOf_congr (h.op? last),
      map_congr_left fun v hv ↦ hsame last hlast v hv]

omit h in
lemma branches_congr {expected : Nat}
    (hsame : ∀ r ∈ regions, yields q r expected = yields p r expected) :
    branches q expected regions = branches p expected regions := by
  cases regions with
  | nil => rfl
  | cons first rest =>
    rw [branches, branches, hsame first mem_cons_self]
    refine congrArg (Option.bind _) (funext fun types ↦ ?_)
    have hrest : ∀ r ∈ rest, yields q r expected = yields p r expected :=
      fun r hr ↦ hsame r (mem_cons_of_mem _ hr)
    clear hsame
    induction rest generalizing types with
    | nil => rfl
    | cons r rest ih =>
      rw [foldlM_cons, foldlM_cons, hrest r mem_cons_self]
      refine congrArg (Option.bind _) (funext fun joined ↦ ?_)
      exact ih joined fun r hr ↦ hrest r (mem_cons_of_mem _ hr)

variable (hsame : ∀ v ∈ inputs p node, q.typeAt v = p.typeAt v)

include hsame

lemma yields_congr_of_inputs (hr : r ∈ node.regions) (expected : Nat) :
    yields q r expected = yields p r expected :=
  yields_congr h (fun _ hlast _ hv ↦ hsame _ (mem_inputs_of_yielded hr hlast hv)) expected

lemma carried_congr (hend : node.isTerminator = false) : carried q node = carried p node := by
  unfold carried
  split
  case h_1 cond body hregions =>
    have hbody : body ∈ node.regions := by simp [hregions]
    rw [yields_congr_of_inputs h hsame hbody, map_congr_left fun v hv ↦
      hsame v (mem_inputs_of_operand hend hv)]
  case h_2 => rfl

lemma typeOf?_congr_of_inputs (hend : node.isTerminator = false) (hv : v ∈ node.operands) :
    q.typeOf? v = p.typeOf? v := by
  cases hold : p.value? v with
  | none => rw [typeOf?, typeOf?, hold, h.value?_eq_none_iff.mpr hold]
  | some old =>
    have hlt : v.index < p.values.length := (List.getElem?_eq_some_iff.mp hold).1
    rw [typeOf?_eq_typeAt hlt, typeOf?_eq_typeAt (h.length ▸ hlt), hsame v
      (mem_inputs_of_operand hend hv)]

lemma resultTypes_congr (hp : p.Consistent) (ho : p.op? o = some node)
    (hrules : registry.OnlyBuiltIn)
    (hend : node.isTerminator = true → registry.shapeRule? node.kind = none)
    (hvalue : registry.shapeRule? node.kind = some ShapeRule.reshape →
    InferenceContext.operandValue? ⟨q, node, version⟩ 1 = InferenceContext.operandValue?
    ⟨p, node, version⟩ 1) :
    resultTypes registry version q node = resultTypes registry version p node := by
  have hq := h.consistent hp
  have ho' : q.op? o = some node := (h.op? o).trans ho
  have hinfer : inferTypes registry version q node = inferTypes registry version p node := by
    unfold inferTypes
    rw [h.func?]
    split_ifs with hbranch hloop hcall
    · rw [branchTypes_eq_ok hp, branchTypes_eq_ok hq, branches_congr fun r hr ↦
        yields_congr_of_inputs h hsame hr _]
    · have hnotEnd : node.isTerminator = false := by
        rw [Operation.isTerminator, hloop]
        rfl
      rw [loopTypes_eq_ok hp ho, loopTypes_eq_ok hq ho', carried_congr h hsame hnotEnd]
    · unfold callTypes
      simp only [h.func?]
    · unfold ruleTypes
      cases hrule : registry.shapeRule? node.kind with
      | none => rfl
      | some rule =>
        have hnotEnd : node.isTerminator = false := by
          by_contra hterminator
          cases hrule.symm.trans (hend (Bool.not_eq_false _ ▸ hterminator))
        have hanswer : rule ⟨q, node, version⟩ = rule ⟨p, node, version⟩ := (hrules _ _ hrule).congr
          (fun v hv ↦ typeOf?_congr_of_inputs h hsame hnotEnd hv) fun heq ↦ hvalue (heq ▸ hrule)
        simp only [hanswer]
  unfold resultTypes
  rw [hinfer]

end Again

/-! ### Looks -/

/-- The arguments of those of the regions that have as many of them as there are types, with the
types. -/
def regionSlots (p : Program) (types : List TensorType) (regions : List RegionId) :
    List (ValueId × TensorType) :=
  regions.flatMap fun r ↦ if (p.argsOf r).length = types.length then (p.argsOf r).zip types else []

/-- What a look at an operation lets the arguments of its regions hear. -/
def argSlots (p : Program) (node : Operation) : List (ValueId × TensorType) :=
  if node.kind = "WhileRegion" then
    ((carried p node).map (regionSlots p · node.regions)).getD [] else []

/-- What a look at an operation lets values hear. -/
def lookSlots (p : Program) (node : Operation) (types : List TensorType) :
    List (ValueId × TensorType) :=
  argSlots p node ++ node.results.zip types

lemma regionSlots_refined (h : p.Refined q) (types : List TensorType)
    (regions : List RegionId) : regionSlots q types regions = regionSlots p types regions :=
  flatMap_congr fun r _ ↦ by rw [argsOf_congr (h.region? r)]

lemma map_regionSlots (p : Program) (types : List TensorType) (regions : List RegionId) :
    (regionSlots p types regions).map (·.1) =
      regions.flatMap fun r ↦ if (p.argsOf r).length = types.length then p.argsOf r else [] := by
  unfold regionSlots
  rw [map_flatMap]
  refine flatMap_congr fun r _ ↦ ?_
  split_ifs with hlength
  · exact map_fst_zip (Nat.le_of_eq hlength)
  · rfl

lemma exists_region_of_mem_argSlots (hslot : slot ∈ argSlots p node) :
    ∃ r ∈ node.regions, slot.1 ∈ p.argsOf r := by
  unfold argSlots at hslot
  split_ifs at hslot
  · cases hcarried : carried p node with
    | none =>
      rw [hcarried] at hslot
      cases hslot
    | some types =>
      rw [hcarried] at hslot
      obtain ⟨r, hr, hslot⟩ := mem_flatMap.mp hslot
      split_ifs at hslot
      · exact ⟨r, hr, (of_mem_zip hslot).1⟩
      · cases hslot
  · cases hslot

lemma map_fst_zip_sublist (values : List ValueId) (types : List TensorType) :
    ((values.zip types).map (·.1)).Sublist values := by
  induction values generalizing types with
  | nil => exact nil_sublist _
  | cons v rest ih =>
    cases types with
    | nil => exact nil_sublist _
    | cons type types => exact (ih types).cons_cons v

lemma mem_results_of_mem_zip (hslot : slot ∈ node.results.zip types) : slot.1 ∈ node.results :=
  (of_mem_zip hslot).1

section Look

variable (hp : p.Consistent)

include hp

lemma nodup_regionSlots (types : List TensorType) (hregions : regions.Nodup) :
    ((regionSlots p types regions).map (·.1)).Nodup := by
  rw [map_regionSlots, nodup_flatMap]
  refine ⟨fun r _ ↦ ?_, hregions.imp fun hne ↦ ?_⟩
  · split_ifs
    · exact hp.nodup_argsOf r
    · exact nodup_nil
  · have hargs : ∀ r v, v ∈ (if (p.argsOf r).length = types.length then p.argsOf r else []) →
      v ∈ p.argsOf r := by
      intro r v hv
      split_ifs at hv
      · exact hv
      · cases hv
    exact fun v hv hv' ↦ hne (hp.eq_of_mem_argsOf (hargs _ v hv) (hargs _ v hv'))

lemma lt_of_mem_regionSlots (hslot : slot ∈ regionSlots p types regions) :
    slot.1.index < p.values.length := by
  obtain ⟨r, -, hslot⟩ := mem_flatMap.mp hslot
  split_ifs at hslot
  · exact hp.lt_of_mem_argsOf (of_mem_zip hslot).1
  · cases hslot

lemma lt_of_mem_argSlots (hslot : slot ∈ argSlots p node) : slot.1.index < p.values.length := by
  obtain ⟨r, -, hv⟩ := exists_region_of_mem_argSlots hslot
  exact hp.lt_of_mem_argsOf hv

variable (ho : p.op? o = some node)

include ho

lemma nodup_argSlots : ((argSlots p node).map (·.1)).Nodup := by
  unfold argSlots
  split_ifs
  · cases carried p node with
    | none => exact nodup_nil
    | some types => exact nodup_regionSlots hp types (regionsOf_eq ho ▸ hp.placed.ownedOnce o)
  · exact nodup_nil

lemma nodup_results : node.results.Nodup :=
  resultsOf_eq ho ▸ hp.nodup_resultsOf o

lemma nodup_lookSlots (types : List TensorType) : ((lookSlots p node types).map (·.1)).Nodup := by
  rw [lookSlots, map_append, nodup_append']
  refine ⟨nodup_argSlots hp ho, ?_, fun v hv hv' ↦ ?_⟩
  · exact (nodup_results hp ho).sublist (map_fst_zip_sublist ..)
  · obtain ⟨slot, hslot, rfl⟩ := mem_map.mp hv
    obtain ⟨slot', hslot', heq⟩ := mem_map.mp hv'
    obtain ⟨r, -, harg⟩ := exists_region_of_mem_argSlots hslot
    have hresult : slot.1 ∈ p.resultsOf o := by
      rw [resultsOf_eq ho, ← heq]
      exact mem_results_of_mem_zip hslot'
    exact hp.not_mem_argsOf hresult harg

lemma lt_of_mem_lookSlots (hslot : slot ∈ lookSlots p node types) :
    slot.1.index < p.values.length := by
  rcases mem_append.mp hslot with hslot | hslot
  · exact lt_of_mem_argSlots hp hslot
  · exact hp.lt_of_mem_results ho (mem_results_of_mem_zip hslot)

omit ho in
lemma refineRegions_exec (types : List TensorType) (hregions : regions.Nodup)
    (hlive : ∀ r ∈ regions, (p.region? r).isSome) (before : List ValueId) :
    (regions.foldlM (fun changed r ↦ do
      let region ← read (·.region r)
      if region.args.length ≠ types.length then return changed
      (region.args.zip types).foldlM (fun changed (arg, type) ↦ do
          if ← refine arg type then return changed ++ [arg] else return changed)
        changed) before : Edit (List ValueId)).exec p =
      (.ok (before ++ learners p (regionSlots p types regions)), p.tell
        (regionSlots p types regions)) := by
  induction regions generalizing p before with
  | nil => exact congrArg (fun l ↦ (Except.ok l, p)) (append_nil before).symm
  | cons r rest ih =>
    have hall := nodup_regionSlots hp types hregions
    have hsplit :
        regionSlots p types ([r] ++ rest) = regionSlots p types [r] ++ regionSlots p types rest :=
      flatMap_append
    rw [singleton_append] at hsplit
    rw [hsplit] at hall ⊢
    rw [map_append, nodup_append'] at hall
    obtain ⟨region, hregion⟩ := Option.isSome_iff_exists.mp (hlive r mem_cons_self)
    have hrefined := Refined.tell p (regionSlots p types [r])
    have hslots := regionSlots_refined hrefined types rest
    have hlearners : learners (p.tell (regionSlots p types [r])) (regionSlots p types rest) =
        learners p (regionSlots p types rest) :=
      learners_congr fun slot hslot ↦ typeAt_tell_of_not_mem p fun hmem ↦
        hall.2.2 hmem (mem_map_of_mem hslot)
    have hnext := ih (hrefined.consistent hp) (nodup_cons.mp hregions).2
      fun x hx ↦ hrefined.region? x ▸ hlive x (mem_cons_of_mem _ hx)
    rw [exec_foldlM_cons, exec_bind_of_ok (a := before ++ learners p (regionSlots p types [r]))
      (q := p.tell (regionSlots p types [r])), hnext, hslots, hlearners, append_assoc,
      ← learners_append, ← tell_append]
    rw [bind_readRegion hregion]
    have hfirst : regionSlots p types [r] =
        if region.args.length = types.length then region.args.zip types else [] := by
      rw [regionSlots, flatMap_singleton, argsOf_eq hregion]
    split_ifs with hlength
    · rw [hfirst, if_neg hlength]
      exact congrArg (fun l ↦ (Except.ok l, p)) (append_nil before).symm
    · rw [if_pos (not_not.mp hlength)] at hfirst
      rw [← hfirst]
      exact refineArgs_exec hall.1 (fun slot hslot ↦ lt_of_mem_regionSlots hp hslot) before

lemma refineLoopArgs_exec (hkind : node.kind = "WhileRegion") : (refineLoopArgs node).exec p =
    (.ok (learners p (argSlots p node)), p.tell (argSlots p node)) := by
  unfold refineLoopArgs argSlots
  rw [if_pos hkind, exec_bind_of_ok (by rw [exec_read, loopTypes_eq_ok hp ho])]
  cases carried p node with
  | none => rfl
  | some types =>
    exact refineRegions_exec hp types (regionsOf_eq ho ▸ hp.placed.ownedOnce o)
      (fun r hr ↦ hp.isSome_region?_of_mem_regionsOf (regionsOf_eq ho ▸ hr)) []

/-- A look lets values hear types and queues what depends on those that learn something. It fails if
the result types cannot be told, after the arguments have heard theirs. -/
theorem lookAt_exec (registry : Registry) (version : Nat) (agenda : Agenda) :
    (lookAt registry version o agenda).exec p =
      match resultTypes registry version (p.tell (argSlots p node)) node with
      | .error err => (.error err, p.tell (argSlots p node))
      | .ok types =>
        (.ok ((affected p (learners p (lookSlots p node types))).foldl Agenda.push agenda,
          !(learners p (lookSlots p node types)).isEmpty), p.tell (lookSlots p node types)) := by
  have hargs : ∀ next : List ValueId → Edit (Agenda × Bool), (if node.kind = "WhileRegion" then do
      let args ← refineLoopArgs node
      next args
    else do
      let args ← pure []
      next args).exec p = (next (learners p (argSlots p node))).exec
        (p.tell (argSlots p node)) := by
    intro next
    split_ifs with hkind
    · exact exec_bind_of_ok (refineLoopArgs_exec hp ho hkind) next
    · rw [argSlots, if_neg hkind]
      rfl
  have hrefined := Refined.tell p (argSlots p node)
  unfold lookAt
  rw [bind_readOp ho]
  refine (hargs _).trans ?_
  rw [exec_get_bind, foldl_pushUsers, affected_refined hrefined]
  cases htypes : resultTypes registry version (p.tell (argSlots p node)) node with
  | error err => rw [exec_bind_of_error (by rw [exec_read, htypes])]
  | ok types =>
    have hnodup := nodup_lookSlots hp ho types
    rw [lookSlots, map_append, nodup_append'] at hnodup
    have hlt : ∀ slot ∈ node.results.zip types, slot.1.index <
      (p.tell (argSlots p node)).values.length :=
      fun slot hslot ↦ hrefined.length ▸ hp.lt_of_mem_results ho (mem_results_of_mem_zip hslot)
    have hlearners : learners (p.tell (argSlots p node)) (node.results.zip types) = learners p
        (node.results.zip types) :=
      learners_congr fun slot hslot ↦ typeAt_tell_of_not_mem p fun hmem ↦
        hnodup.2.2 hmem (mem_map_of_mem hslot)
    rw [exec_bind_of_ok (by rw [exec_read, htypes]), exec_bind_of_ok
      (refineAll_exec hnodup.2.1 hlt _), hlearners, affected_refined hrefined, ← foldl_append,
      ← affected_append, ← learners_append, ← tell_append]
    refine congrArg (fun changed ↦ (Except.ok (_, changed), _)) ?_
    rw [lookSlots, learners_append]
    cases learners p (argSlots p node) <;> simp

end Look

/-! ### Queues -/

section Queue

variable {agenda : Agenda} {ops : List OpId}

lemma push_eq (agenda : Agenda) (o : OpId) : agenda.push o =
    { agenda with queue := if o ∈ agenda.queue then agenda.queue else agenda.queue ++ [o] } := by
  unfold Agenda.push
  split_ifs with hcontains hmem hmem
  · rfl
  · exact absurd (contains_iff_mem.mp hcontains) hmem
  · exact absurd (contains_iff_mem.mpr hmem) hcontains
  · rfl

lemma visited_foldl_push (ops : List OpId) (agenda : Agenda) :
    (ops.foldl Agenda.push agenda).visited = agenda.visited := by
  induction ops generalizing agenda with
  | nil => rfl
  | cons o rest ih => rw [foldl_cons, ih, push_eq]

lemma mem_foldl_push {x : OpId} : x ∈ (ops.foldl Agenda.push agenda).queue ↔
    x ∈ agenda.queue ∨ x ∈ ops := by
  induction ops generalizing agenda with
  | nil => simp
  | cons o rest ih =>
    rw [foldl_cons, ih, push_eq, mem_cons]
    dsimp only
    split_ifs with hmem
    · constructor
      · exact Or.imp_right .inr
      · rintro (hx | rfl | hx)
        · exact .inl hx
        · exact .inl hmem
        · exact .inr hx
    · rw [mem_append, mem_singleton, or_assoc]

lemma nodup_foldl_push (h : agenda.queue.Nodup) : (ops.foldl Agenda.push agenda).queue.Nodup := by
  induction ops generalizing agenda with
  | nil => exact h
  | cons o rest ih =>
    refine ih ?_
    rw [push_eq]
    dsimp only
    split_ifs with hmem
    · exact h
    · exact nodup_append'.mpr
        ⟨h, nodup_singleton o, fun x hx hx' ↦ hmem (mem_singleton.mp hx' ▸ hx)⟩

end Queue

end TensorGraph.TypePropagation
