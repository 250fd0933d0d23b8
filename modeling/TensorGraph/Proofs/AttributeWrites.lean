import Mathlib.Data.List.Nodup
import TensorGraph.Pass.TypeAttributes
import TensorGraph.Proofs.NameMaps
import TensorGraph.Proofs.Types
import TensorGraph.Registry.Standard

/-!
Attributes that are written and erased again. Attributes that were not there before are read back as
they were written, and erasing their names restores the attributes from before.
-/

namespace TensorGraph.TypeAttributes

open List Option

variable {name key : String} {descriptor : Descriptor} {source : Option String}

variable {attrs : AttributeSet} {writes : List (String × Attribute)} {names : List String}

/-! ### Lists of writes -/

lemma get?_eraseAll (attrs : AttributeSet) (names : List String) (key : String) :
    (eraseAll attrs names).get? key = if key ∈ names then none else attrs.get? key := by
  induction names generalizing attrs with
  | nil => exact (if_neg not_mem_nil).symm
  | cons name rest ih =>
    change (eraseAll (attrs.erase name) rest).get? key = _
    rw [ih, NameMap.get?_erase]
    by_cases hrest : key ∈ rest
    · rw [if_pos hrest, if_pos (mem_cons_of_mem _ hrest)]
    · rw [if_neg hrest]
      by_cases hkey : key = name
      · rw [if_pos hkey, if_pos (hkey ▸ mem_cons_self)]
      · rw [if_neg hkey, if_neg fun h ↦ (mem_cons.mp h).elim hkey hrest]

lemma get?_write_of_ne (attrs : AttributeSet) (hkey : key ≠ name) (value : Attribute) :
    (write attrs name value).1.get? key = attrs.get? key := by
  unfold write
  split
  · split_ifs
    · rfl
    · rw [NameMap.get?_insert, if_neg hkey]
  · rw [NameMap.get?_insert, if_neg hkey]

lemma write_of_absent (h : attrs.get? name = none) (value : Attribute) :
    write attrs name value = (attrs.insert name value, true) := by
  unfold write
  rw [h]

lemma get?_writeAll_of_not_mem (hkey : key ∉ writes.map (·.1)) :
    (writeAll attrs writes).1.get? key = attrs.get? key := by
  induction writes generalizing attrs with
  | nil => rfl
  | cons entry rest ih =>
    rw [map_cons, mem_cons, not_or] at hkey
    exact (ih hkey.2).trans (get?_write_of_ne attrs hkey.1 entry.2)

lemma get?_writeAll (hnodup : (writes.map (·.1)).Nodup)
    (habsent : ∀ name ∈ writes.map (·.1), attrs.get? name = none) (key : String) :
    (writeAll attrs writes).1.get? key = (writes.lookup key).or (attrs.get? key) := by
  induction writes generalizing attrs with
  | nil => rfl
  | cons entry rest ih =>
    obtain ⟨name, value⟩ := entry
    obtain ⟨hname, hrest⟩ := nodup_cons.mp hnodup
    have hwrite := write_of_absent (habsent name mem_cons_self) value
    change (writeAll (write attrs name value).1 rest).1.get? key = _
    rw [hwrite, ih hrest fun other hother ↦ ?_, NameMap.get?_insert, lookup_cons_eq_ite]
    · by_cases hkey : key = name
      · rw [if_pos hkey, if_pos hkey, hkey, lookup_eq_none_of_not_mem hname, none_or, some_or]
      · rw [if_neg hkey, if_neg hkey]
    · rw [NameMap.get?_insert, if_neg fun h : other = name ↦ hname (h ▸ hother)]
      exact habsent other (mem_cons_of_mem _ hother)

lemma eraseAll_writeAll (hnames : ∀ name ∈ writes.map (·.1), name ∈ names)
    (habsent : ∀ name ∈ names, attrs.get? name = none) :
    eraseAll (writeAll attrs writes).1 names = attrs := by
  refine NameMap.eq_of_get?_eq fun key ↦ ?_
  rw [get?_eraseAll]
  by_cases hkey : key ∈ names
  · rw [if_pos hkey, habsent key hkey]
  · rw [if_neg hkey, get?_writeAll_of_not_mem fun h ↦ hkey (hnames key h)]

lemma eraseAll_of_absent (habsent : ∀ name ∈ names, attrs.get? name = none) :
    eraseAll attrs names = attrs :=
  @eraseAll_writeAll attrs [] names (fun _ h ↦ by cases h) habsent

/-! ### What is written for an operation -/

/-- The names under which an operation and its single result declare things are distinct. -/
def Apart (registry : Registry) : Prop :=
  ∀ kind descriptor, registry.get? kind = some descriptor →
    (outputShapesName :: descriptor.shapeAttr.toList ++ descriptor.elementAttr.toList).Nodup

lemma apart_standard : Apart .standard := by
  intro kind descriptor hkind
  have hall : ∀ entry ∈ Registry.standardKinds,
      (outputShapesName :: entry.2.shapeAttr.toList ++ entry.2.elementAttr.toList).Nodup := by
    decide +kernel
  exact hall _ (NameMap.mem_of_get?_ofList hkind)

lemma nodup_consumedNames {registry : Registry} (hapart : Apart registry) (node : Operation) :
    (consumedNames registry node).Nodup := by
  unfold consumedNames
  split
  case h_1 descriptor _ hkind _ => exact hapart node.kind descriptor hkind
  case h_2 => exact nodup_singleton _

lemma lookup_declaredShape (hname : descriptor.shapeAttr = some name) (type : TensorType) :
    (declaredShape descriptor type).lookup name = if type.shape.isRanked then some
    (.shape type.shape) else none := by
  unfold declaredShape
  split_ifs
  · simp [hname]
  · rfl

lemma lookup_declaredElement (hname : descriptor.elementAttr = some name) (type : TensorType) :
    (declaredElement descriptor type).lookup name = type.element.map Attribute.type := by
  unfold declaredElement
  rw [hname]
  cases type.element with
  | none => rfl
  | some element => simp

lemma map_declaredShape_sublist (descriptor : Descriptor) (type : TensorType) :
    ((declaredShape descriptor type).map (·.1)).Sublist descriptor.shapeAttr.toList := by
  unfold declaredShape
  split_ifs
  · simp [Function.comp_def]
  · exact nil_sublist _

lemma map_declaredElement_sublist (descriptor : Descriptor) (type : TensorType) :
    ((declaredElement descriptor type).map (·.1)).Sublist descriptor.elementAttr.toList := by
  unfold declaredElement
  split
  case h_1 name element hname _ => simp [hname]
  case h_2 => exact nil_sublist _

/-- The list of shapes that tells of types, none if nothing is known of them. -/
def listing (types : List TensorType) : Option Attribute :=
  if types.any (·.shape.isRanked) then some (.shapes (types.map (·.shape))) else none

lemma lookup_listedShapes (name : String) (types : List TensorType) :
    (listedShapes name types).lookup name = listing types := by
  unfold listedShapes listing
  split_ifs
  · exact lookup_cons_self
  · rfl

lemma map_listedShapes_sublist (name : String) (types : List TensorType) :
    ((listedShapes name types).map (·.1)).Sublist [name] := by
  unfold listedShapes
  split_ifs
  · exact .refl _
  · exact nil_sublist _

section ListedShapes

variable (h : attrs.get? name = none) (types : List TensorType)

include h

lemma erase_writeAll_listedShapes :
    (writeAll attrs (listedShapes name types)).1.erase name = attrs := by
  refine eraseAll_writeAll (fun _ hmem ↦ (map_listedShapes_sublist name types).subset hmem)
    fun other hother ↦ ?_
  rwa [mem_singleton.mp hother]

lemma get?_writeAll_listedShapes :
    (writeAll attrs (listedShapes name types)).1.get? name = listing types := by
  have hsublist := map_listedShapes_sublist name types
  rw [get?_writeAll ((nodup_singleton name).sublist hsublist) fun other hother ↦
    ?_, h, or_none, lookup_listedShapes]
  rwa [mem_singleton.mp (hsublist.subset hother)]

end ListedShapes

section

variable (registry : Registry) (node : Operation) (type : ValueId → TensorType)

lemma exists_declarations :
    ∃ names writes, consumedNames registry node = outputShapesName :: names ∧
      opWrites (registry.get? node.kind) (node.results.map type) =
      listedShapes outputShapesName (node.results.map type) ++ writes ∧
      (writes.map (·.1)).Sublist names := by
  unfold consumedNames opWrites
  cases registry.get? node.kind with
  | none => exact ⟨[], [], rfl, rfl, .slnil⟩
  | some descriptor =>
    rcases node.results with _ | ⟨v, _ | ⟨w, rest⟩⟩
    · exact ⟨[], [], rfl, rfl, .slnil⟩
    · refine ⟨descriptor.shapeAttr.toList ++ descriptor.elementAttr.toList,
        declaredShape descriptor (type v) ++ declaredElement descriptor (type v), rfl, rfl, ?_⟩
      rw [map_append]
      exact (map_declaredShape_sublist descriptor _).append
        (map_declaredElement_sublist descriptor _)
    · exact ⟨[], [], rfl, rfl, .slnil⟩

lemma map_opWrites_sublist :
    ((opWrites (registry.get? node.kind) (node.results.map type)).map (·.1)).Sublist
    (consumedNames registry node) := by
  obtain ⟨names, writes, hnames, hwrites, hsublist⟩ := exists_declarations registry node type
  rw [hnames, hwrites, map_append]
  exact (map_listedShapes_sublist outputShapesName _).append hsublist

end

/-! ### Reading back -/

lemma shapeUnder_eq_ok (carrier : Carrier) {shape : Shape} (hread : ∀ name,
    source = some name → attrs.get? name = if shape.isRanked then some (.shape shape) else none) :
    ∃ found, shapeUnder carrier attrs source = .ok found ∧ (found = .unranked ∨ found = shape) := by
  cases source with
  | none => exact ⟨_, rfl, .inl rfl⟩
  | some name =>
    unfold shapeUnder
    simp only [hread name rfl]
    by_cases hranked : shape.isRanked
    · rw [if_pos hranked]
      exact ⟨_, rfl, .inr rfl⟩
    · rw [if_neg hranked]
      exact ⟨_, rfl, .inl rfl⟩

lemma elementUnder_eq_ok (carrier : Carrier) {element : Option ElementType}
    (hread : ∀ name, source = some name → attrs.get? name = element.map Attribute.type) :
    ∃ found, elementUnder carrier attrs source = .ok found ∧ (found = none ∨ found = element) := by
  cases source with
  | none => exact ⟨_, rfl, .inl rfl⟩
  | some name =>
    have hget := hread name rfl
    unfold elementUnder
    cases element with
    | none =>
      have hcontains : ¬ attrs.contains name := by simp [NameMap.contains, hget]
      exact ⟨none, if_neg hcontains, .inl rfl⟩
    | some element =>
      have hcontains : attrs.contains name := by simp [NameMap.contains, hget]
      have htype : attrs.getType name = .ok element := by
        unfold AttributeSet.getType AttributeSet.require
        rw [hget]
        rfl
      refine ⟨some element, ?_, .inr rfl⟩
      simp only [if_pos hcontains, htype]

lemma exists_declaredType {type : TensorType}
    (hshape : ∀ name, descriptor.shapeAttr = some name → attrs.get? name =
      if type.shape.isRanked then some (.shape type.shape) else none)
    (helement : ∀ name, descriptor.elementAttr = some name →
      attrs.get? name = type.element.map Attribute.type) (carrier : Carrier) :
    ∃ declared, declaredType carrier descriptor attrs = .ok declared ∧
      type.meet declared = some type := by
  obtain ⟨shape, hshape, hrepeated⟩ := shapeUnder_eq_ok carrier hshape
  obtain ⟨element, helement, hrepeated'⟩ := elementUnder_eq_ok carrier helement
  refine ⟨⟨element, shape⟩, ?_, TensorType.meet_of_repeated hrepeated' hrepeated⟩
  unfold declaredType
  rw [hshape, helement]
  rfl

section ReadBack

variable {registry : Registry} (hapart : Apart registry) {node : Operation}
  (habsent : ∀ name ∈ consumedNames registry node, node.attrs.get? name = none)
  (type : ValueId → TensorType)

def writtenAttrs (registry : Registry) (node : Operation) (type : ValueId → TensorType) :
    AttributeSet :=
  (writeAll node.attrs (opWrites (registry.get? node.kind) (node.results.map type))).1

include habsent in
lemma eraseAll_writtenAttrs : eraseAll (writtenAttrs registry node type)
    (consumedNames registry node) = node.attrs :=
  eraseAll_writeAll (fun _ hname ↦ (map_opWrites_sublist registry node type).subset hname) habsent

include hapart habsent

lemma get?_writtenAttrs (hname : name ∈ consumedNames registry node) :
    (writtenAttrs registry node type).get? name =
    (opWrites (registry.get? node.kind) (node.results.map type)).lookup name := by
  have hsublist := map_opWrites_sublist registry node type
  unfold writtenAttrs
  rw [get?_writeAll ((nodup_consumedNames hapart node).sublist hsublist)
    fun other hother ↦ habsent other (hsublist.subset hother), habsent name hname, or_none]

lemma get?_outputShapes :
    (writtenAttrs registry node type).get? outputShapesName = listing (node.results.map type) := by
  obtain ⟨names, writes, hnames, hwrites, hsublist⟩ := exists_declarations registry node type
  have hnodup := nodup_consumedNames hapart node
  rw [hnames, nodup_cons] at hnodup
  rw [get?_writtenAttrs hapart habsent type (hnames ▸ mem_cons_self), hwrites, lookup_append,
    lookup_eq_none_of_not_mem fun h ↦ hnodup.1 (hsublist.subset h), or_none, lookup_listedShapes]

/-- Under the names of the descriptor stand the shape, if it is ranked, and the element type, if it
is known. -/
theorem get?_declared (hkind : registry.get? node.kind = some descriptor) {v : ValueId}
    (hresults : node.results = [v]) :
    (∀ name, descriptor.shapeAttr = some name → (writtenAttrs registry node type).get? name =
      if (type v).shape.isRanked then some (.shape (type v).shape) else none) ∧
    ∀ name, descriptor.elementAttr = some name →
      (writtenAttrs registry node type).get? name = (type v).element.map Attribute.type := by
  have hnames : consumedNames registry node =
      outputShapesName :: descriptor.shapeAttr.toList ++ descriptor.elementAttr.toList := by
    unfold consumedNames
    rw [hkind, hresults]
  have hnodup := hapart node.kind descriptor hkind
  have hdisjoint : List.Disjoint descriptor.shapeAttr.toList descriptor.elementAttr.toList :=
    (nodup_append'.mp (nodup_cons.mp hnodup).2).2.2
  have hread {name : String}
      (hname : name ∈ descriptor.shapeAttr.toList ++ descriptor.elementAttr.toList) :
      (writtenAttrs registry node type).get? name =
      ((declaredShape descriptor (type v)).lookup name).or
      ((declaredElement descriptor (type v)).lookup name) := by
    rw [get?_writtenAttrs hapart habsent type (hnames ▸ mem_cons_of_mem _ hname), hkind, hresults]
    change (listedShapes outputShapesName [type v] ++ (declaredShape descriptor (type v) ++
      declaredElement descriptor (type v))).lookup name = _
    have hne : name ≠ outputShapesName := by
      rintro rfl
      exact (nodup_cons.mp hnodup).1 hname
    rw [lookup_append, lookup_eq_none_of_not_mem fun h ↦ hne (mem_singleton.mp
      ((map_listedShapes_sublist _ _).subset h)), none_or, lookup_append]
  constructor
  · intro name hname
    rw [hread (by simp [hname]), lookup_declaredShape hname, lookup_eq_none_of_not_mem fun h ↦
      hdisjoint (by simp [hname]) ((map_declaredElement_sublist descriptor _).subset h), or_none]
  · intro name hname
    rw [hread (by simp [hname]), lookup_declaredElement hname, lookup_eq_none_of_not_mem fun h ↦
      hdisjoint ((map_declaredShape_sublist descriptor _).subset h) (by simp [hname]), none_or]

end ReadBack

end TensorGraph.TypeAttributes
