import TensorGraph.Proofs.Annotations
import TensorGraph.Proofs.Types

/-!
Types that are refined. `TensorType.hear` is what a type becomes when another is heard of: their
meet, or the type itself if the two contradict each other.
-/

namespace TensorGraph

open List Option

variable {p q : Program} {v : ValueId} {a c type : TensorType}

/-! ### Hearing of types -/

namespace TensorType

/-- What a type becomes when another is heard of; what contradicts it is ignored. -/
def hear (a heard : TensorType) : TensorType :=
  (a.meet heard).getD a

lemma hear_refines (a heard : TensorType) : (a.hear heard).refines a = true := by
  unfold hear
  cases hmeet : a.meet heard with
  | none => exact a.refines_refl
  | some c => exact refines_iff.mpr (partialLattice.absorb hmeet).1

lemma hear_hear (a heard : TensorType) : (a.hear heard).hear heard = a.hear heard := by
  have hagain : ∀ c, a.meet heard = some c → c.hear heard = c := by
    intro c hmeet
    rw [hear, (partialLattice.absorb hmeet).2]
    rfl
  cases hmeet : a.meet heard with
  | none =>
    have hsame : a.hear heard = a := by rw [hear, hmeet]; rfl
    rw [hsame, hsame]
  | some c =>
    have hnew : a.hear heard = c := by rw [hear, hmeet]; rfl
    rw [hnew, hagain c hmeet]

end TensorType

/-! ### Refined programs -/

/-- The values differ at most in their types, and the new type refines the old one. -/
def Value.Refined (old new : Value) : Prop :=
  new = { old with type := new.type } ∧ new.type.refines old.type = true

namespace Program

/-- Nothing but types of values has changed, and every type refines the one it was. -/
structure Refined (p q : Program) : Prop where
  rest : q = { p with values := q.values }
  length : q.values.length = p.values.length
  values : ∀ v old new, p.value? v = some old → q.value? v = some new → old.Refined new

namespace Refined

lemma refl (p : Program) : Refined p p := by
  refine ⟨rfl, rfl, fun v old new hold hnew ↦ ?_⟩
  cases hold.symm.trans hnew
  exact ⟨rfl, old.type.refines_refl⟩

section Reading

variable (h : Refined p q)

include h

lemma op? (o : OpId) : q.op? o = p.op? o := by
  rw [h.rest]
  rfl

lemma region? (r : RegionId) : q.region? r = p.region? r := by
  rw [h.rest]
  rfl

lemma func? (name : String) : q.func? name = p.func? name := by
  rw [h.rest]
  rfl

lemma terminator? (r : RegionId) : q.terminator? r = p.terminator? r := by
  rw [h.rest]
  rfl

lemma parentOp? (r : RegionId) : q.parentOp? r = p.parentOp? r := by
  rw [h.rest]
  rfl

lemma slots : q.slots = p.slots := by
  rw [h.rest]

lemma value?_eq_none_iff : q.value? v = none ↔ p.value? v = none := by
  unfold value?
  rw [getElem?_eq_none_iff, getElem?_eq_none_iff, h.length]

lemma exists_value {old : Value} (hold : p.value? v = some old) : ∃ new, q.value? v = some new ∧
    old.Refined new := by
  cases hnew : q.value? v with
  | none => cases hold.symm.trans (h.value?_eq_none_iff.mp hnew)
  | some new => exact ⟨new, rfl, h.values v old new hold hnew⟩

lemma map_value? {β : Type} (g : Value → β) (hg : ∀ value type, g { value with type } = g value)
    (v : ValueId) : (q.value? v).map g = (p.value? v).map g := by
  cases hold : p.value? v with
  | none =>
    rw [h.value?_eq_none_iff.mpr hold]
  | some old =>
    obtain ⟨new, hnew, heq, -⟩ := h.exists_value hold
    rw [hnew, map_some, map_some, heq, hg]

lemma annotated : Annotated p q where
  length := congrArg List.length h.slots
  ops o := congrArg (Option.map Operation.bare) (h.op? o)
  free := by rw [h.rest]
  values := h.map_value? _ fun _ _ ↦ rfl
  regions := by rw [h.rest]
  funcs := by rw [h.rest]
  graph := by rw [h.rest]

lemma consistent (hp : p.Consistent) : q.Consistent :=
  h.annotated.consistent hp

end Reading

lemma trans {m : Program} (h : Refined p m) (h' : Refined m q) : Refined p q := by
  refine ⟨h'.rest.trans ?_, h'.length.trans h.length, fun v old new hold hnew ↦ ?_⟩
  · rw [h.rest]
  · obtain ⟨middle, hmiddle, heq, hrefines⟩ := h.exists_value hold
    obtain ⟨heq', hrefines'⟩ := h'.values v middle new hmiddle hnew
    refine ⟨?_, TensorType.refines_trans hrefines' hrefines⟩
    rw [heq', heq]

lemma setType (p : Program) (v : ValueId) (htype : type.refines (p.typeAt v) = true) :
    Refined p (p.setType v type) := by
  refine ⟨rfl, length_modify .., fun x old new hold hnew ↦ ?_⟩
  rw [Program.setType, value?_modifyValue, hold] at hnew
  split_ifs at hnew with hx
  · cases hnew
    refine ⟨rfl, ?_⟩
    rwa [← hx, typeAt, typeOf?, hold] at htype
  · cases hnew
    exact ⟨rfl, old.type.refines_refl⟩

end Refined

/-! ### Programs that hear types -/

section

variable (p : Program) (slots : List (ValueId × TensorType))

/-- Lets the values hear the types, one after the other. -/
def tell : Program :=
  slots.foldl (fun p slot ↦ p.setType slot.1 ((p.typeAt slot.1).hear slot.2)) p

lemma Refined.tell : Refined p (p.tell slots) := by
  induction slots generalizing p with
  | nil => exact .refl p
  | cons slot rest ih => exact (Refined.setType p slot.1 (TensorType.hear_refines _ _)).trans (ih _)

end

variable {slots : List (ValueId × TensorType)}

lemma typeAt_setType (hv : v.index < p.values.length) (type : TensorType)
    (x : ValueId) : (p.setType v type).typeAt x = if x = v then type else p.typeAt x := by
  rw [typeAt, typeOf?_setType]
  split_ifs with hx
  · rw [hx, typeOf?_eq_typeAt hv]
    rfl
  · rfl

lemma typeAt_tell_of_not_mem (p : Program) (hv : v ∉ slots.map (·.1)) :
    (p.tell slots).typeAt v = p.typeAt v := by
  induction slots generalizing p with
  | nil => rfl
  | cons slot rest ih =>
    rw [map_cons, mem_cons, not_or] at hv
    refine (ih (p.setType slot.1 ((p.typeAt slot.1).hear slot.2)) hv.2).trans ?_
    rw [typeAt, typeOf?_setType, if_neg hv.1]
    rfl

lemma typeAt_tell (hnodup : (slots.map (·.1)).Nodup) (hv : v.index < p.values.length)
    (hmem : (v, type) ∈ slots) : (p.tell slots).typeAt v = (p.typeAt v).hear type := by
  induction slots generalizing p with
  | nil => cases hmem
  | cons slot rest ih =>
    rw [map_cons, nodup_cons] at hnodup
    have hlength :
        (p.setType slot.1 ((p.typeAt slot.1).hear slot.2)).values.length = p.values.length :=
      length_modify ..
    rcases mem_cons.mp hmem with rfl | hrest
    · refine (typeAt_tell_of_not_mem _ hnodup.1).trans ?_
      rw [typeAt_setType hv, if_pos rfl]
    · refine (ih hnodup.2 (hlength ▸ hv) hrest).trans ?_
      have hne : v ≠ slot.1 := by
        rintro rfl
        exact hnodup.1 (mem_map_of_mem (f := (·.1)) hrest)
      rw [typeAt, typeOf?_setType, if_neg hne]
      rfl

/-- The types tell the values nothing new. -/
def Silent (p : Program) (slots : List (ValueId × TensorType)) : Prop :=
  ∀ slot ∈ slots, (p.typeAt slot.1).hear slot.2 = p.typeAt slot.1

lemma tell_of_silent (h : Silent p slots)
    (hlt : ∀ slot ∈ slots, slot.1.index < p.values.length) : p.tell slots = p := by
  induction slots with
  | nil => rfl
  | cons slot rest ih =>
    have hsame : p.setType slot.1 ((p.typeAt slot.1).hear slot.2) = p := by
      rw [h slot mem_cons_self]
      exact setType_eq_self (typeOf?_eq_typeAt (hlt slot mem_cons_self))
    rw [tell, foldl_cons, hsame]
    exact ih (fun other hother ↦ h other (mem_cons_of_mem _ hother))
      fun other hother ↦ hlt other (mem_cons_of_mem _ hother)

lemma silent_tell (hnodup : (slots.map (·.1)).Nodup)
    (hlt : ∀ slot ∈ slots, slot.1.index < p.values.length) : Silent (p.tell slots) slots := by
  intro slot hslot
  rw [typeAt_tell hnodup (hlt slot hslot) hslot, TensorType.hear_hear]

lemma Silent.congr (h : Silent p slots)
    (htypes : ∀ slot ∈ slots, q.typeAt slot.1 = p.typeAt slot.1) : Silent q slots := by
  intro slot hslot
  rw [htypes slot hslot]
  exact h slot hslot

end Program

end TensorGraph
