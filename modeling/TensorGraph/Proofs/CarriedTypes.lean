import TensorGraph.Pass.TypeAttributes
import TensorGraph.Proofs.Annotations
import TensorGraph.Proofs.NameMaps
import TensorGraph.Proofs.Types

/-!
What attributes carry. Each attribute that tells something of a type gives rise to notes, a slot
with a type that is carried for it, and is malformed if it gives none.
-/

namespace TensorGraph.TypeAttributes

open List Option

variable {p : Program} {found found' : Refinements} {carrier : Carrier} {v : ValueId}
  {carried type : TensorType} {attrs : AttributeSet} {registry : Registry} {l : List Note}
  {slot : Slot} {α : Type} {α β : Type}

/-! ### Notes -/

/-- What has a type: a value, or a result of a function, given by the places of both. -/
inductive Slot where
  | value (v : ValueId)
  | result (place index : Nat)
  deriving DecidableEq

/-- The type of a slot. -/
def slotType? (p : Program) : Slot → Option TensorType
  | .value v => p.typeOf? v
  | .result place index => p.funcs[place]?.bind (·.resultTypes[index]?)

/-- A type that is carried for a slot. -/
abbrev Note := Slot × TensorType

/-- The shapes that an attribute holds, if it holds shapes. -/
def shapesIn : Attribute → Option (List Shape)
  | .shapes shapes => some shapes
  | .shape shape => some [shape]
  | _ => none

/-- The notes of an attribute that has to list one shape for each value. -/
def listedNotes (name : String) (attrs : AttributeSet) (values : List ValueId) :
    Option (List Note) :=
  match attrs.get? name with
  | none => some []
  | some value => (shapesIn value).bind fun shapes ↦
    if shapes.length = values.length then
      some ((values.zip shapes).map fun entry ↦ (.value entry.1, .ofShape entry.2))
    else none

/-- The notes of an attribute that may hold any number of shapes for one slot. -/
def attachedNotes (attrs : AttributeSet) (slot : Slot) : Option (List Note) :=
  match attrs.get? outputShapesName with
  | none => some []
  | some value => (shapesIn value).map (·.map fun shape ↦ (slot, .ofShape shape))

/-- The shape that an attribute holds, if it holds just that. -/
def shapeIn : Attribute → Option Shape
  | .shape shape => some shape
  | _ => none

/-- The element type that an attribute holds, as such or by its name. -/
def elementIn : Attribute → Option ElementType
  | .type element => some element
  | .string text => ElementType.ofName? text
  | _ => none

/-- What is read under a name, where there is an attribute of that name; none if it is malformed. -/
def under (attrs : AttributeSet) (name : Option String) (read : Attribute → Option α) :
    Option (Option α) :=
  ((name.bind attrs.get?).map read).elim (some none) (·.map some)

/-- The type that the attributes named by a descriptor declare; none if one of them is malformed. -/
def declaredIn (descriptor : Descriptor) (attrs : AttributeSet) : Option TensorType :=
  (under attrs descriptor.shapeAttr shapeIn).bind fun shape ↦
    (under attrs descriptor.elementAttr elementIn).map fun element ↦ ⟨element, shape.getD .unranked⟩

/-- The note of the attributes that declare the type of a single result. -/
def declaredNotes (registry : Registry) (node : Operation) : Option (List Note) :=
  match registry.get? node.kind, node.results with
  | some descriptor, [v] => (declaredIn descriptor node.attrs).map fun type ↦ [(.value v, type)]
  | _, _ => some []

/-- The notes of two sources; none if one of them is malformed. -/
def both (first second : Option (List Note)) : Option (List Note) :=
  first.bind fun l ↦ second.map (l ++ ·)

/-- The notes of all sources of a list; none if one of them is malformed. -/
def ofAll (l : List α) (g : α → Option (List Note)) : Option (List Note) :=
  (l.mapM g).map flatten

def opNotes (registry : Registry) (p : Program) (o : OpId) : Option (List Note) :=
  (p.op? o).bind fun node ↦ both (listedNotes outputShapesName node.attrs node.results)
    (declaredNotes registry node)

def funcNotes (p : Program) (func : Func × Nat) : Option (List Note) :=
  (p.region? func.1.body).bind fun body ↦ both (listedNotes inputShapesName func.1.attrs body.args)
    (both (ofAll (body.args.zip func.1.argAttrs) fun arg ↦ attachedNotes arg.2 (.value arg.1))
      (ofAll (func.1.resultTypes.zip func.1.resultAttrs).zipIdx fun result ↦
        attachedNotes result.1.2 (.result func.2 result.2)))

/-- All that attributes carry; none if one of them is malformed. -/
def notes (registry : Registry) (p : Program) : Option (List Note) :=
  both (ofAll p.allOps (opNotes registry p)) (ofAll p.funcs.zipIdx (funcNotes p))

lemma ofAll_cons (a : α) (l : List α) (g : α → Option (List Note)) :
    ofAll (a :: l) g = both (g a) (ofAll l g) := by
  rw [ofAll, ofAll, mapM_cons, both]
  cases g a <;> cases l.mapM g <;> simp

/-! ### Taking notes in -/

namespace Refinements

/-- The type of a slot as far as it has been found. -/
def typeAt? (p : Program) (found : Refinements) : Slot → Option TensorType
  | .value v => (found.values.lookup v).or (slotType? p (.value v))
  | .result place index =>
    (found.results.lookup (place, index)).or (slotType? p (.result place index))

/-- The types with that of one slot replaced. -/
def put (found : Refinements) (type : TensorType) : Slot → Refinements
  | .value v => { found with values := (v, type) :: found.values.filter (·.1 ≠ v) }
  | .result place index =>
    { found with results := ((place, index), type) :: found.results.filter (·.1 ≠ (place, index)) }

/-- Takes a note in, unless it contradicts what has been found. -/
def take (p : Program) (found : Refinements) (note : Note) : Option Refinements :=
  (found.typeAt? p note.1).bind fun current ↦ (current.meet note.2).map (found.put · note.1)

end Refinements

lemma lookup_cons_filter {κ : Type} [BEq κ] [LawfulBEq κ] [DecidableEq κ]
    (entries : List (κ × TensorType)) (key x : κ) (type : TensorType) :
    ((key, type) :: entries.filter (·.1 ≠ key)).lookup x = if x =
    key then some type else entries.lookup x := by
  rw [lookup_cons_eq_ite]
  split_ifs with hx
  · rfl
  · induction entries with
    | nil => rfl
    | cons entry rest ih =>
      by_cases hentry : entry.1 = key
      · rw [filter_cons_of_neg (by simp [hentry]), ih, lookup_cons_eq_ite entry.1 entry.2,
          hentry, if_neg hx]
      · rw [filter_cons_of_pos (by simp [hentry]), lookup_cons_eq_ite entry.1 entry.2, ih,
          lookup_cons_eq_ite entry.1 entry.2]

lemma typeAt?_put (found : Refinements) (type : TensorType) (slot x : Slot) :
    (found.put type slot).typeAt? p x = if x = slot then some type else found.typeAt? p x := by
  cases slot <;> cases x <;> simp only [Refinements.put, Refinements.typeAt?, lookup_cons_filter]
  · split_ifs <;> simp_all
  · simp
  · simp
  · split_ifs <;> simp_all

lemma take_eq_some_iff {note : Note} : found.take p note = some found' ↔ ∃ current refined,
    found.typeAt? p note.1 = some current ∧ current.meet note.2 = some refined ∧
    found' = found.put refined note.1 := by
  simp only [Refinements.take, bind_eq_some_iff, map_eq_some_iff]
  grind

def Takes (p : Program) (step : Refinements → Except Error Refinements)
    (notes : Option (List Note)) : Prop :=
  ∀ found, (step found).toOption = notes.bind fun l ↦ l.foldlM (Refinements.take p) found

lemma toOption_bind (first : Except Error α) (next : α → Except Error β) :
    (first >>= next).toOption = first.toOption.bind fun a ↦ (next a).toOption := by
  cases first <;> rfl

lemma toOption_foldlM {f : β → α → Except Error β} {g : β → α → Option β} {l : List α} (h : ∀ b,
    ∀ a ∈ l, (f b a).toOption = g b a) (b : β) : (l.foldlM f b).toOption = l.foldlM g b := by
  induction l generalizing b with
  | nil => rfl
  | cons a rest ih =>
    rw [foldlM_cons, foldlM_cons, toOption_bind, h b a mem_cons_self]
    exact congrArg _ (funext fun c ↦ ih (fun b x hx ↦ h b x (mem_cons_of_mem _ hx)) c)

namespace Takes

variable {step next : Refinements → Except Error Refinements} {ns ms : Option (List Note)}

lemma pure (p : Program) : Takes p .ok (some []) :=
  fun _ ↦ rfl

lemma bind (h : Takes p step ns) (h' : Takes p next ms) : Takes p (fun found ↦ step found >>= next)
    (both ns ms) := by
  intro found
  rw [toOption_bind, h, both]
  cases ns with
  | none => rfl
  | some l =>
    simp only [bind_some, h' _]
    cases ms with
    | none => simp
    | some m => simp [foldlM_append]

lemma foldlM {f : Refinements → α → Except Error Refinements} {g : α → Option (List Note)}
    {l : List α} (h : ∀ a ∈ l, Takes p (f · a) (g a)) : Takes p (fun found ↦ l.foldlM f found)
    (ofAll l g) := by
  induction l with
  | nil => exact pure p
  | cons a rest ih =>
    have hall := (h a mem_cons_self).bind (ih fun x hx ↦ h x (mem_cons_of_mem _ hx))
    rw [ofAll_cons]
    exact fun found ↦ (congrArg Except.toOption (foldlM_cons ..)).trans (hall found)

end Takes

lemma toOption_addValue (p : Program) (carrier : Carrier) (found : Refinements) (v : ValueId)
    (carried : TensorType) :
    (found.addValue p carrier v carried).toOption = found.take p (.value v, carried) := by
  have hcurrent : (found.currentType p v).toOption = found.typeAt? p (.value v) := by
    rw [Refinements.typeAt?, slotType?]
    unfold Refinements.currentType
    cases found.values.lookup v with
    | none => exact p.toOption_valueType v
    | some type => rfl
  unfold Refinements.addValue Refinements.take refineType
  rw [toOption_bind, hcurrent]
  refine congrArg _ (funext fun current ↦ ?_)
  dsimp only
  cases current.meet carried <;> rfl

lemma toOption_addResult {place index : Nat}
    (hdeclared : slotType? p (.result place index) = some type) (carrier : Carrier)
    (found : Refinements) (carried : TensorType) :
    (found.addResult carrier type (place, index) carried).toOption = found.take p
    (.result place index, carried) := by
  have hcurrent : found.typeAt? p (.result place index) = some
      ((found.results.lookup (place, index)).getD type) := by
    rw [Refinements.typeAt?, hdeclared]
    cases found.results.lookup (place, index) <;> rfl
  unfold Refinements.addResult Refinements.take refineType
  rw [hcurrent, bind_some]
  cases ((found.results.lookup (place, index)).getD type).meet carried <;> rfl

lemma toOption_shapesOf (carrier : Carrier) (place : String) (value : Attribute) :
    (shapesOf carrier place value).toOption = shapesIn value := by
  cases value <;> rfl

lemma getType_of_get? {name : String} {value : Attribute} (h : attrs.get? name = some value) :
    (attrs.getType name).toOption = elementIn value := by
  rw [AttributeSet.getType, AttributeSet.require, h]
  cases value with
  | string text =>
    dsimp only [bind, Except.bind, elementIn]
    cases ElementType.ofName? text <;> rfl
  | _ => rfl

lemma toOption_declaredType (carrier : Carrier) (descriptor : Descriptor) (attrs : AttributeSet) :
    (declaredType carrier descriptor attrs).toOption = declaredIn descriptor attrs := by
  have hshape : (shapeUnder carrier attrs descriptor.shapeAttr).toOption =
      (under attrs descriptor.shapeAttr shapeIn).map (·.getD .unranked) := by
    unfold shapeUnder under
    rcases descriptor.shapeAttr with _ | name
    · rfl
    · dsimp only [bind_some]
      rcases attrs.get? name with _ | value
      · rfl
      · cases value <;> rfl
  have helement : (elementUnder carrier attrs descriptor.elementAttr).toOption =
      under attrs descriptor.elementAttr elementIn := by
    unfold elementUnder under
    rcases descriptor.elementAttr with _ | name
    · rfl
    · dsimp only [bind_some]
      rcases eq_none_or_eq_some (attrs.get? name) with hvalue | ⟨value, hvalue⟩
      · rw [if_neg (by simp [NameMap.contains, hvalue]), hvalue]
        rfl
      · rw [if_pos (by simp [NameMap.contains, hvalue]), hvalue, map_some, elim_some,
          ← getType_of_get? hvalue]
        cases attrs.getType name <;> rfl
  unfold declaredType declaredIn
  rw [toOption_bind, hshape, bind_map]
  refine congrArg _ (funext fun shape ↦ ?_)
  rw [Function.comp_apply, toOption_bind, helement]
  cases under attrs descriptor.elementAttr elementIn <;> rfl

lemma takes_collectListed (p : Program) (carrier : Carrier) (name : String)
    (fault : Nat → Nat → StructureError) (attrs : AttributeSet) (values : List ValueId) :
    Takes p (collectListed p carrier name fault attrs values) (listedNotes name attrs values) := by
  intro found
  unfold collectListed listedNotes
  cases attrs.get? name with
  | none => rfl
  | some value =>
    dsimp only
    rw [toOption_bind, toOption_shapesOf, bind_assoc]
    refine congrArg _ (funext fun shapes ↦ ?_)
    by_cases hlength : shapes.length = values.length
    · rw [if_pos hlength, if_neg (not_not_intro hlength), bind_some, foldlM_map]
      exact toOption_foldlM (fun found entry _ ↦ toOption_addValue p carrier found entry.1 _) found
    · rw [if_neg hlength, if_pos hlength]
      rfl

lemma takes_attached {step : Refinements → Shape → Except Error Refinements} {place : String}
    (hstep : ∀ found shape, (step found shape).toOption = found.take p (slot, .ofShape shape)) :
    Takes p (fun found ↦ match attrs.get? outputShapesName with
      | none => .ok found
      | some value => do
        let shapes ← shapesOf carrier place value
        shapes.foldlM step found) (attachedNotes attrs slot) := by
  intro found
  unfold attachedNotes
  cases attrs.get? outputShapesName with
  | none => rfl
  | some value =>
    dsimp only
    rw [toOption_bind, toOption_shapesOf, bind_map]
    refine congrArg _ (funext fun shapes ↦ ?_)
    rw [Function.comp_apply, foldlM_map]
    exact toOption_foldlM (fun found shape _ ↦ hstep found shape) found

lemma takes_collectOp (p : Program) (registry : Registry) (o : OpId) :
    Takes p (fun found ↦ collectOp p registry found o) (opNotes registry p o) := by
  intro found
  unfold collectOp opNotes Program.op
  cases p.op? o with
  | none => rfl
  | some node =>
    refine (takes_collectListed p _ _ _ _ _).bind (fun found ↦ ?_) found
    unfold declaredNotes
    rcases registry.get? node.kind with _ | descriptor
    · rfl
    · rcases node.results with _ | ⟨v, _ | _⟩
      · rfl
      · dsimp only
        rw [toOption_bind, toOption_declaredType]
        cases declaredIn descriptor node.attrs with
        | none => rfl
        | some type => simpa using toOption_addValue p _ found v type
      · rfl

lemma takes_collectFunc {func : Func} {place : Nat} (hfunc : p.funcs[place]? = some func) :
    Takes p (fun found ↦ collectFunc p found (func, place)) (funcNotes p (func, place)) := by
  intro found
  unfold collectFunc funcNotes Program.region
  cases p.region? func.body with
  | none => rfl
  | some body => ?_
  refine (takes_collectListed p _ _ _ _ _).bind
    (.bind (.foldlM fun arg _ ↦ ?_) (.foldlM fun result hresult ↦ ?_)) found
  · exact takes_attached fun found shape ↦ toOption_addValue p _ found arg.1 _
  · obtain ⟨⟨type, attrs⟩, index⟩ := result
    have htype := (getElem?_zip_eq_some.mp (mem_zipIdx_iff_getElem?.mp hresult)).1
    refine takes_attached fun found shape ↦ toOption_addResult ?_ _ found _
    rw [slotType?, hfunc]
    exact htype

lemma toOption_collect (registry : Registry) (p : Program) :
    (collect registry p).toOption = (notes registry p).bind fun l ↦
    l.foldlM (Refinements.take p) {} := by
  refine Takes.bind (.foldlM fun o _ ↦ takes_collectOp p registry o)
    (.foldlM fun func hfunc ↦ ?_) {}
  exact takes_collectFunc (mem_zipIdx_iff_getElem?.mp hfunc)

lemma collect_eq_ok_iff : collect registry p = .ok found ↔
    ∃ l, notes registry p = some l ∧ l.foldlM (Refinements.take p) {} = some found := by
  rw [← bind_eq_some_iff, ← toOption_collect]
  cases collect registry p <;> simp [Except.toOption]

lemma take_induction {I : Refinements → Prop}
    (htake : ∀ found note found', I found → found.take p note = some found' → I found')
    (h : l.foldlM (Refinements.take p) found = some found') (hstart : I found) : I found' := by
  induction l generalizing found with
  | nil => exact some.inj h ▸ hstart
  | cons note rest ih =>
    rw [foldlM_cons] at h
    obtain ⟨next, hnext, hrest⟩ := bind_eq_some_iff.mp h
    exact ih hrest (htake _ _ _ hstart hnext)

lemma values_of_collect (hok : collect registry p = .ok found) :
    (∀ entry ∈ found.values, entry.1.index < p.values.length) ∧ (found.values.map (·.1)).Nodup := by
  obtain ⟨l, -, hfold⟩ := collect_eq_ok_iff.mp hok
  refine take_induction
    (I := fun found ↦ (∀ entry ∈ found.values, entry.1.index < p.values.length) ∧
    (found.values.map (·.1)).Nodup) ?_ hfold ⟨fun _ hentry ↦ absurd hentry not_mem_nil, nodup_nil⟩
  rintro found ⟨slot, carried⟩ found' ⟨hlt, hnodup⟩ htake
  obtain ⟨current, refined, hcurrent, -, rfl⟩ := take_eq_some_iff.mp htake
  cases slot with
  | result place index => exact ⟨hlt, hnodup⟩
  | value v =>
    refine ⟨fun entry hentry ↦
      ?_, nodup_cons.mpr ⟨fun hmem ↦ ?_, hnodup.sublist (filter_sublist.map _)⟩⟩
    · rcases mem_cons.mp hentry with rfl | hmem
      · rcases or_eq_some_iff.mp hcurrent with hlookup | ⟨-, htype⟩
        · exact hlt (v, current) (mem_of_lookup_eq_some hlookup)
        · obtain ⟨value, hvalue, -⟩ := map_eq_some_iff.mp htype
          exact (List.getElem?_eq_some_iff.mp hvalue).1
      · exact hlt entry (mem_filter.mp hmem).1
    · obtain ⟨entry, hentry, hv⟩ := mem_map.mp hmem
      simp [hv] at hentry

/-! ### What is found -/

lemma typeAt?_of_foldlM (h : l.foldlM (Refinements.take p) found = some found')
    (htype : found.typeAt? p slot = some type) : ∃ refined, found'.typeAt? p slot = some refined ∧
    ∀ c : TensorType, c.refines refined = true ↔ c.refines type = true ∧ ∀ note ∈ l, note.1 = slot →
    c.refines note.2 = true := by
  induction l generalizing found type with
  | nil =>
    cases h
    exact ⟨type, htype, fun c ↦ by simp⟩
  | cons note rest ih =>
    rw [foldlM_cons] at h
    obtain ⟨next, hnext, hrest⟩ := bind_eq_some_iff.mp h
    obtain ⟨current, met, hcurrent, hmet, rfl⟩ := take_eq_some_iff.mp hnext
    by_cases hslot : slot = note.1
    · subst hslot
      cases hcurrent.symm.trans htype
      obtain ⟨refined, hrefined, hgreatest⟩ := ih hrest ((typeAt?_put _ _ _ _).trans (if_pos rfl))
      refine ⟨refined, hrefined, fun c ↦ ?_⟩
      have hmeet := TensorType.partialLattice.greatest hmet c
      rw [← TensorType.refines_iff, ← TensorType.refines_iff, ← TensorType.refines_iff] at hmeet
      rw [hgreatest, hmeet, and_assoc, forall_mem_cons]
      simp
    · obtain ⟨refined, hrefined, hgreatest⟩ :=
        ih hrest ((typeAt?_put _ _ _ _).trans ((if_neg hslot).trans htype))
      refine ⟨refined, hrefined, fun c ↦ ?_⟩
      rw [hgreatest, forall_mem_cons]
      simp [Ne.symm hslot]

/-- There is a type that refines the type of the slot and all its notes. -/
def Reconcilable (l : List Note) (slot : Slot) (type : TensorType) : Prop :=
  ∃ c : TensorType, c.refines type = true ∧ ∀ note ∈ l, note.1 = slot → c.refines note.2 = true

lemma isSome_foldlM_take (hslots : ∀ note ∈ l, (slotType? p note.1).isSome)
    (h : ∀ slot type, found.typeAt? p slot = some type → Reconcilable l slot type) :
    (l.foldlM (Refinements.take p) found).isSome := by
  induction l generalizing found with
  | nil => rfl
  | cons note rest ih =>
    have hsome : (found.typeAt? p note.1).isSome := by
      have hslot := hslots note mem_cons_self
      cases hnote : note.1 <;> rw [hnote] at hslot <;> simp [Refinements.typeAt?, hslot]
    obtain ⟨current, hcurrent⟩ := isSome_iff_exists.mp hsome
    obtain ⟨c, hc, hnotes⟩ := h _ _ hcurrent
    obtain ⟨met, hmet⟩ :=
      isSome_iff_exists.mp
      (TensorType.partialLattice.bounded (TensorType.refines_iff.mp hc)
      (TensorType.refines_iff.mp (hnotes note mem_cons_self rfl)))
    have hnext : found.take p note = some (found.put met note.1) :=
      take_eq_some_iff.mpr ⟨current, met, hcurrent, hmet, rfl⟩
    rw [foldlM_cons, hnext]
    refine ih (fun other hother ↦ hslots other (mem_cons_of_mem _ hother)) fun slot type htype ↦ ?_
    rw [typeAt?_put] at htype
    split_ifs at htype with hslot
    · cases htype
      refine ⟨c, ?_, fun other hother heq ↦ hnotes other (mem_cons_of_mem _ hother)
        (heq.trans hslot)⟩
      exact TensorType.refines_iff.mpr ((TensorType.partialLattice.greatest hmet c).mpr
        ⟨TensorType.refines_iff.mp hc, TensorType.refines_iff.mp (hnotes note mem_cons_self rfl)⟩)
    · obtain ⟨d, hd, hall⟩ := h slot type htype
      exact ⟨d, hd, fun other hother ↦ hall other (mem_cons_of_mem _ hother)⟩

/-! ### Notes of a kind -/

def Yields (ns : Option (List Note)) (P : Note → Prop) : Prop :=
  ∃ l, ns = some l ∧ ∀ note ∈ l, P note

def Only (ns : Option (List Note)) (P : Note → Prop) : Prop :=
  ∀ l, ns = some l → ∀ note ∈ l, P note

section Kinds

variable {α : Type} {P : Note → Prop} {ns ms : Option (List Note)} {l : List α}
  {g : α → Option (List Note)}

lemma Yields.both (h : Yields ns P) (h' : Yields ms P) : Yields (both ns ms) P := by
  obtain ⟨l, rfl, hl⟩ := h
  obtain ⟨m, rfl, hm⟩ := h'
  exact ⟨l ++ m, rfl, forall_mem_append.mpr ⟨hl, hm⟩⟩

lemma Yields.ofAll (h : ∀ a ∈ l, Yields (g a) P) : Yields (ofAll l g) P := by
  induction l with
  | nil => exact ⟨[], rfl, fun _ hnote ↦ absurd hnote not_mem_nil⟩
  | cons a rest ih =>
    have hall := (h a mem_cons_self).both (ih fun x hx ↦ h x (mem_cons_of_mem _ hx))
    rwa [← ofAll_cons] at hall

lemma Only.both (h : Only ns P) (h' : Only ms P) : Only (both ns ms) P := by
  intro l hl
  obtain ⟨first, hfirst, hmap⟩ := bind_eq_some_iff.mp hl
  obtain ⟨second, hsecond, rfl⟩ := map_eq_some_iff.mp hmap
  exact forall_mem_append.mpr ⟨h first hfirst, h' second hsecond⟩

lemma Only.ofAll (h : ∀ a ∈ l, Only (g a) P) : Only (ofAll l g) P := by
  induction l with
  | nil =>
    rintro _ ⟨⟩ note hnote
    cases hnote
  | cons a rest ih =>
    have hall := (h a mem_cons_self).both (ih fun x hx ↦ h x (mem_cons_of_mem _ hx))
    rwa [← ofAll_cons] at hall

end Kinds

lemma only_notes (hp : p.Consistent) (registry : Registry) :
    Only (notes registry p) fun note ↦ (slotType? p note.1).isSome := by
  have hvalue : ∀ {v : ValueId}, v.index < p.values.length → (slotType? p (.value v)).isSome :=
    fun hv ↦ isSome_of_eq_some (Program.typeOf?_eq_typeAt hv)
  have hlisted : ∀ (name : String) (attrs : AttributeSet) {values : List ValueId},
      (∀ v ∈ values, v.index < p.values.length) → Only (listedNotes name attrs values) fun note ↦
      (slotType? p note.1).isSome := by
    intro name attrs values hvalues l hl note hnote
    unfold listedNotes at hl
    split at hl
    · cases hl
      cases hnote
    · obtain ⟨shapes, -, hl⟩ := bind_eq_some_iff.mp hl
      split_ifs at hl
      cases hl
      obtain ⟨entry, hentry, rfl⟩ := mem_map.mp hnote
      exact hvalue (hvalues entry.1 (of_mem_zip hentry).1)
  have hattached : ∀ (attrs : AttributeSet) {slot : Slot}, (slotType? p slot).isSome →
      Only (attachedNotes attrs slot) fun note ↦ (slotType? p note.1).isSome := by
    intro attrs slot hslot l hl note hnote
    unfold attachedNotes at hl
    split at hl
    · cases hl
      cases hnote
    · obtain ⟨shapes, -, rfl⟩ := map_eq_some_iff.mp hl
      obtain ⟨shape, -, rfl⟩ := mem_map.mp hnote
      exact hslot
  refine .both (.ofAll fun o _ l hl ↦ ?_) (.ofAll fun func hfunc l hl ↦ ?_)
  · obtain ⟨node, hnode, hl⟩ := bind_eq_some_iff.mp hl
    have hresults : ∀ v ∈ node.results, v.index < p.values.length := fun v hv ↦
      hp.lt_of_mem_results hnode hv
    refine Only.both (hlisted _ _ hresults) (fun l hl note hnote ↦ ?_) l hl
    unfold declaredNotes at hl
    split at hl
    case h_1 descriptor v _ hv =>
      obtain ⟨type, -, rfl⟩ := map_eq_some_iff.mp hl
      obtain rfl := mem_singleton.mp hnote
      exact hvalue (hresults v (hv ▸ mem_cons_self))
    case h_2 =>
      cases hl
      cases hnote
  · obtain ⟨body, hbody, hl⟩ := bind_eq_some_iff.mp hl
    have hargs : ∀ v ∈ body.args, v.index < p.values.length := fun v hv ↦
      hp.lt_of_mem_argsOf (Program.argsOf_eq hbody ▸ hv)
    refine Only.both (hlisted _ _ hargs)
      (.both (.ofAll fun arg harg ↦ hattached _ (hvalue (hargs _ (of_mem_zip harg).1)))
      (.ofAll fun result hresult ↦ hattached _ ?_)) l hl
    have htype := (getElem?_zip_eq_some.mp (mem_zipIdx_iff_getElem?.mp hresult)).1
    rw [slotType?, mem_zipIdx_iff_getElem?.mp hfunc]
    exact isSome_of_eq_some htype

end TensorGraph.TypeAttributes
