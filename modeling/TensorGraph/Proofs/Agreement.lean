import Mathlib.Data.List.Forall2
import TensorGraph.AttributeSet

/-!
Values that compare as equal. Comparison is finer than identity at a floating-point "not a number"
and coarser at the two zeros.
-/

namespace TensorGraph

open List

variable {a b : AttributeSet} {x y z : Binary32} {xs ys : List Binary32}

namespace Binary32

/-- The same word, or two zeros. -/
def SameNumber (x y : Binary32) : Prop :=
  x = y ∨ x.isZero = true ∧ y.isZero = true

lemma SameNumber.symm (h : SameNumber x y) : SameNumber y x :=
  h.imp Eq.symm And.symm

lemma SameNumber.trans (h : SameNumber x y) (h' : SameNumber y z) : SameNumber x z := by
  rcases h with rfl | ⟨hx, hy⟩
  · exact h'
  · rcases h' with rfl | ⟨-, hz⟩
    · exact .inr ⟨hx, hy⟩
    · exact .inr ⟨hx, hz⟩

lemma sameNumber_of_beq (h : (x == y) = true) : SameNumber x y := by
  change x.equal y = true at h
  unfold equal at h
  simp only [Bool.and_eq_true, Bool.or_eq_true, beq_iff_eq] at h
  rcases h.2 with hbits | hzeros
  · left
    cases x
    cases y
    exact congrArg Binary32.mk hbits
  · exact .inr hzeros

lemma equal_symm (h : x.equal y = true) : y.equal x = true := by
  unfold equal at h ⊢
  simp only [Bool.and_eq_true, Bool.or_eq_true, beq_iff_eq] at h ⊢
  exact ⟨h.1.symm, h.2.imp Eq.symm And.symm⟩

lemma equal_trans (h : x.equal y = true) (h' : y.equal z = true) : x.equal z = true := by
  have hsame := (sameNumber_of_beq h).trans (sameNumber_of_beq h')
  unfold equal at h h' ⊢
  simp only [Bool.and_eq_true, Bool.or_eq_true, beq_iff_eq] at h h' ⊢
  exact ⟨⟨h.1.1, h'.1.2⟩, hsame.imp (congrArg bits) id⟩

end Binary32

lemma forall₂_trans {α : Type} {R S T : α → α → Prop} (hcomp : ∀ x y z, R x y → S y z → T x z)
    {xs ys zs : List α} (h : List.Forall₂ R xs ys) (h' : List.Forall₂ S ys zs) :
    List.Forall₂ T xs zs := by
  induction h generalizing zs with
  | nil =>
    cases h'
    exact .nil
  | cons hxy _ ih =>
    cases h' with
    | cons hyz hrest => exact .cons (hcomp _ _ _ hxy hyz) (ih hrest)

lemma exists_of_mem_right {α β : Type} {R : α → β → Prop} {l : List α} {l' : List β}
    (h : List.Forall₂ R l l') {b : β} (hb : b ∈ l') : ∃ a ∈ l, R a b := by
  induction h with
  | nil => cases hb
  | cons hab _ ih =>
    rcases mem_cons.mp hb with rfl | hb
    · exact ⟨_, mem_cons_self, hab⟩
    · obtain ⟨a, ha, hR⟩ := ih hb
      exact ⟨a, mem_cons_of_mem _ ha, hR⟩

namespace TensorData

variable {a b c : TensorData}

/-- The same elements, up to the sign of floating-point zeros. -/
inductive Agrees : TensorData → TensorData → Prop where
  | refl (a : TensorData) : Agrees a a
  | floats {xs ys : List Binary32} (h : List.Forall₂ Binary32.SameNumber xs ys) :
      Agrees (.f32 xs) (.f32 ys)

/-- One of the elements is a floating-point zero. -/
def hasZero : TensorData → Bool
  | .f32 xs => xs.any (·.isZero)
  | _ => false

lemma Agrees.symm (h : Agrees a b) : Agrees b a := by
  cases h with
  | refl => exact .refl a
  | floats h => exact .floats (Forall₂.imp (fun _ _ hxy ↦ Binary32.SameNumber.symm hxy) h.flip)

lemma Agrees.trans (h : Agrees a b) (h' : Agrees b c) : Agrees a c := by
  cases h with
  | refl => exact h'
  | floats h =>
    cases h' with
    | refl => exact .floats h
    | floats h' => exact .floats (forall₂_trans (fun _ _ _ hxy hyz ↦ hxy.trans hyz) h h')

lemma beq_iff_forall₂ : List.beq xs ys = true ↔ List.Forall₂ (fun x y ↦ (x == y) = true) xs ys := by
  induction xs generalizing ys with
  | nil => cases ys <;> simp [List.beq]
  | cons x xs ih => cases ys <;> simp [List.beq, ih]

lemma agrees_of_equal (h : a.equal b = true) : Agrees a b := by
  unfold equal at h
  split at h
  case h_3 => exact .floats ((beq_iff_forall₂.mp h).imp fun _ _ ↦ Binary32.sameNumber_of_beq)
  case h_6 => cases h
  all_goals
    rw [eq_of_beq h]
    exact .refl _

lemma beq_symm (h : List.beq xs ys = true) : List.beq ys xs = true :=
  beq_iff_forall₂.mpr
    (Forall₂.imp (fun _ _ hxy ↦ Binary32.equal_symm hxy) (beq_iff_forall₂.mp h).flip)

lemma beq_trans {zs : List Binary32} (h : List.beq xs ys = true) (h' : List.beq ys zs = true) :
    List.beq xs zs = true := by
  have htrans : ∀ x y z : Binary32, (x == y) = true → (y == z) = true → (x == z) = true :=
    fun _ _ _ ↦ Binary32.equal_trans
  rw [beq_iff_forall₂] at h h' ⊢
  exact forall₂_trans htrans h h'

lemma eq_or_floats_of_equal (h : a.equal b = true) :
    a = b ∨ ∃ xs ys, a = .f32 xs ∧ b = .f32 ys ∧ List.beq xs ys = true := by
  unfold equal at h
  split at h
  case h_3 xs ys => exact .inr ⟨xs, ys, rfl, rfl, h⟩
  case h_6 => cases h
  all_goals exact .inl (congrArg _ (eq_of_beq h))

lemma equal_symm (h : a.equal b = true) : b.equal a = true := by
  rcases eq_or_floats_of_equal h with rfl | ⟨xs, ys, rfl, rfl, hfloats⟩
  · exact h
  · exact beq_symm hfloats

lemma equal_trans (h : a.equal b = true) (h' : b.equal c = true) : a.equal c = true := by
  rcases eq_or_floats_of_equal h with rfl | ⟨xs, ys, rfl, rfl, hfloats⟩
  · exact h'
  · rcases eq_or_floats_of_equal h' with rfl | ⟨ys', zs, hys, rfl, hfloats'⟩
    · exact h
    · obtain rfl := f32.inj hys
      exact beq_trans hfloats hfloats'

lemma Agrees.eq (h : Agrees a b) (hzero : a.hasZero = false) : a = b := by
  cases h with
  | refl => rfl
  | @floats xs ys h =>
    have hnone : ∀ x ∈ xs, x.isZero = false := by simpa [hasZero] using hzero
    clear hzero
    refine congrArg f32 ?_
    induction h with
    | nil => rfl
    | @cons x y xs ys hxy _ ih =>
      have hx := hnone x mem_cons_self
      rcases hxy with rfl | ⟨hzero, -⟩
      · rw [ih fun z hz ↦ hnone z (mem_cons_of_mem _ hz)]
      · rw [hx] at hzero
        cases hzero

end TensorData

namespace Tensor

variable {a b c : Tensor}

/-- The same sizes, and the same elements up to the sign of floating-point zeros. -/
structure Agrees (a b : Tensor) : Prop where
  data : a.data.Agrees b.data
  sizes : a.sizes = b.sizes

namespace Agrees

lemma symm (h : Agrees a b) : Agrees b a := ⟨h.data.symm, h.sizes.symm⟩

lemma trans (h : Agrees a b) (h' : Agrees b c) : Agrees a c :=
  ⟨h.data.trans h'.data, h.sizes.trans h'.sizes⟩

lemma eq (h : Agrees a b) (hzero : a.data.hasZero = false) : a = b := by
  cases a
  cases b
  exact mk.injEq .. ▸ ⟨h.data.eq hzero, h.sizes⟩

end Agrees

lemma agrees_of_equal (h : a.equal b = true) : Agrees a b := by
  unfold equal at h
  rw [Bool.and_eq_true] at h
  exact ⟨TensorData.agrees_of_equal h.1, eq_of_beq h.2⟩

lemma equal_symm (h : a.equal b = true) : b.equal a = true := by
  unfold equal at h ⊢
  rw [Bool.and_eq_true] at h ⊢
  exact ⟨TensorData.equal_symm h.1, beq_iff_eq.mpr (eq_of_beq h.2).symm⟩

lemma equal_trans (h : a.equal b = true) (h' : b.equal c = true) : a.equal c = true := by
  unfold equal at h h' ⊢
  rw [Bool.and_eq_true] at h h' ⊢
  exact ⟨TensorData.equal_trans h.1 h'.1, beq_iff_eq.mpr ((eq_of_beq h.2).trans (eq_of_beq h'.2))⟩

end Tensor

namespace Attribute

lemma cases_of_equal {a b : Attribute} (h : a.equal b = true) :
    a = b ∨ (∃ x y, a = .float x ∧ b = .float y ∧ x.equal y = true) ∨
      (∃ x y, a = .tensor x ∧ b = .tensor y ∧ x.equal y = true) ∨ ∃ xs ys, a = .list xs ∧
      b = .list ys ∧ equalLists xs ys = true := by
  unfold equal at h
  split at h
  case h_3 x y => exact .inr (.inl ⟨x, y, rfl, rfl, h⟩)
  case h_8 x y => exact .inr (.inr (.inl ⟨x, y, rfl, rfl, h⟩))
  case h_11 xs ys => exact .inr (.inr (.inr ⟨xs, ys, rfl, rfl, h⟩))
  case h_12 => cases h
  all_goals exact .inl (congrArg _ (eq_of_beq h))

mutual

lemma equal_symm (a b : Attribute) (h : a.equal b = true) : b.equal a = true := by
  rcases cases_of_equal h with rfl | ⟨x, y, rfl, rfl, hfloats⟩ | ⟨x, y, rfl, rfl, htensors⟩ |
    ⟨xs, ys, rfl, rfl, hlists⟩
  · exact h
  · exact Binary32.equal_symm hfloats
  · exact Tensor.equal_symm htensors
  · rw [equal]
    exact equalLists_symm xs ys hlists
termination_by sizeOf a

lemma equalLists_symm (xs ys : List Attribute) (h : equalLists xs ys = true) :
    equalLists ys xs = true := by
  match xs, ys, h with
  | [], [], _ => rfl
  | x :: xs, y :: ys, h =>
    rw [equalLists, Bool.and_eq_true] at h ⊢
    exact ⟨equal_symm x y h.1, equalLists_symm xs ys h.2⟩
termination_by sizeOf xs

end

mutual

lemma equal_trans (a b c : Attribute) (h : a.equal b = true) (h' : b.equal c = true) :
    a.equal c = true := by
  rcases cases_of_equal h with rfl | ⟨x, y, rfl, rfl, hfloats⟩ | ⟨x, y, rfl, rfl, htensors⟩ |
    ⟨xs, ys, rfl, rfl, hlists⟩
  · exact h'
  · cases c with
    | float z => exact Binary32.equal_trans hfloats h'
    | _ => cases h'
  · cases c with
    | tensor z => exact Tensor.equal_trans htensors h'
    | _ => cases h'
  · cases c with
    | list zs =>
      rw [equal] at h' ⊢
      exact equalLists_trans xs ys zs hlists h'
    | _ => cases h'
termination_by sizeOf a

lemma equalLists_trans (xs ys zs : List Attribute) (h : equalLists xs ys = true)
    (h' : equalLists ys zs = true) : equalLists xs zs = true := by
  match xs, ys, zs, h, h' with
  | [], [], [], _, _ => rfl
  | x :: xs, y :: ys, z :: zs, h, h' =>
    rw [equalLists, Bool.and_eq_true] at h h' ⊢
    exact ⟨equal_trans x y z h.1 h'.1, equalLists_trans xs ys zs h.2 h'.2⟩
termination_by sizeOf xs

end

end Attribute

namespace AttributeSet

lemma lookup_of_equalLists {xs ys : List (String × Attribute)}
    (hnames : xs.map (·.1) = ys.map (·.1))
    (hvalues : Attribute.equalLists (xs.map (·.2)) (ys.map (·.2)) = true)
    {value : Attribute} (h : ys.lookup name = some value) : ∃ found, xs.lookup name = some found ∧
    found.equal value = true := by
  induction xs generalizing ys with
  | nil =>
    cases ys with
    | nil => cases h
    | cons y ys => cases hnames
  | cons x xs ih =>
    cases ys with
    | nil => cases h
    | cons y ys =>
      obtain ⟨key, held⟩ := x
      obtain ⟨key', held'⟩ := y
      obtain ⟨rfl, hrest⟩ : key = key' ∧ xs.map (·.1) = ys.map (·.1) := List.cons.inj hnames
      rw [map_cons, map_cons, Attribute.equalLists, Bool.and_eq_true] at hvalues
      rw [lookup_cons] at h ⊢
      by_cases hkey : (name == key) = true
      · rw [hkey] at h ⊢
        obtain rfl := Option.some.inj h
        exact ⟨held, rfl, hvalues.1⟩
      · rw [Bool.eq_false_iff.mpr hkey] at h ⊢
        exact ih hrest hvalues.2 h

lemma getTensor_eq_ok {s : AttributeSet} : s.getTensor name = .ok t ↔
    s.get? name = some (.tensor t) := by
  unfold getTensor require
  rcases s.get? name with _ | value
  · simp [bind, Except.bind]
  · cases value <;>
      simp [bind, Except.bind, pure, Except.pure, throw, throwThe, MonadExceptOf.throw]

lemma getTensor_of_equal (h : a.equal b = true) (ht : b.getTensor name = .ok t) :
    ∃ u, a.getTensor name = .ok u ∧ t.Agrees u := by
  unfold equal at h
  rw [Bool.and_eq_true] at h
  obtain ⟨found, hfound, hequal⟩ := lookup_of_equalLists (eq_of_beq h.1) h.2 (getTensor_eq_ok.mp ht)
  unfold Attribute.equal at hequal
  cases found with
  | tensor u => exact ⟨u, getTensor_eq_ok.mpr hfound, (Tensor.agrees_of_equal hequal).symm⟩
  | _ => cases hequal

lemma equal_symm (h : a.equal b = true) : b.equal a = true := by
  unfold equal at h ⊢
  rw [Bool.and_eq_true] at h ⊢
  exact ⟨beq_iff_eq.mpr (eq_of_beq h.1).symm, Attribute.equalLists_symm _ _ h.2⟩

lemma equal_trans {c : AttributeSet} (h : a.equal b = true) (h' : b.equal c = true) :
    a.equal c = true := by
  unfold equal at h h' ⊢
  rw [Bool.and_eq_true] at h h' ⊢
  exact ⟨beq_iff_eq.mpr ((eq_of_beq h.1).trans (eq_of_beq h'.1)),
    Attribute.equalLists_trans _ _ _ h.2 h'.2⟩

end AttributeSet

end TensorGraph
