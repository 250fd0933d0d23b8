import Mathlib.Data.List.Perm.Basic
import Mathlib.Tactic.SplitIfs
import TensorGraph.Tensor

/-!
Numbers of elements. The sizes of a shape are multiplied one after the other, and the count is given
up at the first product that is no size.
-/

namespace TensorGraph

open List Option

variable {a b p : UInt64} {sizes : List UInt64}

/-- The product of sizes as a number. -/
def sizeProduct (sizes : List UInt64) : Nat :=
  sizes.foldr (fun n product ↦ n.toNat * product) 1

/-- The sizes in front of the first zero. -/
def beforeZero (sizes : List UInt64) : List UInt64 :=
  sizes.takeWhile (· != 0)

lemma sizeProduct_cons (n : UInt64) (sizes : List UInt64) :
    sizeProduct (n :: sizes) = n.toNat * sizeProduct sizes :=
  rfl

lemma beforeZero_cons (n : UInt64) (sizes : List UInt64) :
    beforeZero (n :: sizes) = if n = 0 then [] else n :: beforeZero sizes := by
  by_cases hn : n = 0 <;> simp [beforeZero, hn]

lemma sizeProduct_perm {other : List UInt64} (h : other ~ sizes) :
    sizeProduct other = sizeProduct sizes :=
  haveI : LeftCommutative fun (n : UInt64) (product : Nat) ↦ n.toNat * product :=
    ⟨fun _ _ _ ↦ Nat.mul_left_comm _ _ _⟩
  h.foldr_eq 1

lemma sizeProduct_eq_zero (h : 0 ∈ sizes) : sizeProduct sizes = 0 := by
  induction sizes with
  | nil => cases h
  | cons n rest ih =>
    rw [sizeProduct_cons]
    rcases mem_cons.mp h with rfl | h
    · exact Nat.zero_mul _
    · rw [ih h, Nat.mul_zero]

lemma beforeZero_eq_self (h : 0 ∉ sizes) : beforeZero sizes = sizes := by
  induction sizes with
  | nil => rfl
  | cons n rest ih =>
    obtain ⟨hn, hrest⟩ := not_or.mp (mt mem_cons.mpr h)
    rw [beforeZero_cons, if_neg (Ne.symm hn), ih hrest]

lemma sizeProduct_beforeZero_pos (sizes : List UInt64) : 0 < sizeProduct (beforeZero sizes) := by
  induction sizes with
  | nil => exact Nat.zero_lt_one
  | cons n rest ih =>
    rw [beforeZero_cons]
    split_ifs with hn
    · exact Nat.zero_lt_one
    · exact Nat.mul_pos (Nat.pos_of_ne_zero fun h ↦ hn (UInt64.toNat_inj.mp h)) ih

lemma checkedMul_eq_some_iff {c : UInt64} : checkedMul a b = some c ↔
    c.toNat = a.toNat * b.toNat := by
  unfold checkedMul
  split_ifs with h
  · rw [some.injEq, ← UInt64.toNat_inj, UInt64.toNat_mul, Nat.mod_eq_of_lt h, eq_comm]
  · have hlt : c.toNat < UInt64.size := c.toNat_lt
    constructor
    · rintro ⟨⟩
    · omega

lemma foldlM_checkedMul_eq_some_iff (sizes : List UInt64) (acc : UInt64) :
    sizes.foldlM checkedMul acc = some p ↔ p.toNat = acc.toNat * sizeProduct sizes ∧
    acc.toNat * sizeProduct (beforeZero sizes) < UInt64.size := by
  induction sizes generalizing acc with
  | nil =>
    have hlt : acc.toNat < UInt64.size := acc.toNat_lt
    simp only [foldlM_nil, Option.pure_def, Option.some.injEq, sizeProduct, beforeZero,
      takeWhile_nil, foldr_nil, Nat.mul_one, ← UInt64.toNat_inj, hlt, and_true]
    exact eq_comm
  | cons n rest ih =>
    rw [foldlM_cons, bind_eq_bind, bind_eq_some_iff, sizeProduct_cons, ← Nat.mul_assoc]
    rw [beforeZero_cons]
    split_ifs with hn
    · -- From a zero on the product stays zero.
      subst hn
      have hzero : checkedMul acc 0 = some 0 := checkedMul_eq_some_iff.mpr (Nat.mul_zero _).symm
      have hlt : acc.toNat < UInt64.size := acc.toNat_lt
      simp [hzero, ih, sizeProduct, hlt]
    · rw [sizeProduct_cons, ← Nat.mul_assoc]
      constructor
      · rintro ⟨next, hnext, hrest⟩
        rw [checkedMul_eq_some_iff] at hnext
        rwa [ih, hnext] at hrest
      · rintro ⟨hp, hlt⟩
        have hfits : acc.toNat * n.toNat < UInt64.size :=
          Nat.lt_of_le_of_lt (Nat.le_mul_of_pos_right _ (sizeProduct_beforeZero_pos rest)) hlt
        have hnext : (UInt64.ofNat (acc.toNat * n.toNat)).toNat = acc.toNat * n.toNat :=
          UInt64.toNat_ofNat_of_lt hfits
        refine ⟨_, checkedMul_eq_some_iff.mpr hnext, (ih _).mpr ?_⟩
        rw [hnext]
        exact ⟨hp, hlt⟩

lemma checkedProduct_eq_some_iff : checkedProduct sizes = some p ↔
    p.toNat = sizeProduct sizes ∧ sizeProduct (beforeZero sizes) < UInt64.size := by
  have h := foldlM_checkedMul_eq_some_iff (p := p) sizes 1
  rwa [UInt64.toNat_one, Nat.one_mul, Nat.one_mul] at h

lemma elementCount?_fixed (sizes : List UInt64) :
    (Shape.fixed sizes).elementCount? = checkedProduct sizes := by
  have hsizes : (sizes.map Dim.known).mapM Dim.size? = some sizes := by
    induction sizes with
    | nil => rfl
    | cons n rest ih => simp [mapM_cons, Dim.size?, ih]
  simp [Shape.elementCount?, Shape.sizes?, Shape.fixed, Shape.dims?, hsizes]

lemma exists_create_eq_ok_iff {data : TensorData} :
    (∃ tensor, Tensor.create data sizes = .ok tensor) ↔ ∃ p, checkedProduct sizes = some p ∧
    data.length = p.toNat := by
  unfold Tensor.create
  cases checkedProduct sizes with
  | none => simp
  | some p => by_cases hlength : data.length = p.toNat <;> simp [hlength]

/-- The number of elements is the product of the sizes wherever that is a size, and data make a
tensor if there are as many of them. -/
structure CountedExactly (sizes : List UInt64) : Prop where
  count : ∀ p, (Shape.fixed sizes).elementCount? = some p ↔ p.toNat = sizeProduct sizes
  tensor : ∀ data : TensorData, data.length < UInt64.size →
    ((∃ tensor, Tensor.create data sizes = .ok tensor) ↔ data.length = sizeProduct sizes)

lemma CountedExactly.of_fits (hfits : 0 ∈ sizes → sizeProduct (beforeZero sizes) < UInt64.size) :
    CountedExactly sizes := by
  have hcount : ∀ p, checkedProduct sizes = some p ↔ p.toNat = sizeProduct sizes := by
    intro p
    rw [checkedProduct_eq_some_iff, and_iff_left_iff_imp]
    intro hp
    by_cases hzero : 0 ∈ sizes
    · exact hfits hzero
    · rw [beforeZero_eq_self hzero, ← hp]
      exact p.toNat_lt
  refine ⟨fun p ↦ elementCount?_fixed sizes ▸ hcount p, fun data hdata ↦ ?_⟩
  have hlength : (UInt64.ofNat data.length).toNat = data.length := UInt64.toNat_ofNat_of_lt hdata
  rw [exists_create_eq_ok_iff]
  constructor
  · rintro ⟨p, hp, hdata⟩
    exact hdata.trans ((hcount p).mp hp)
  · intro hproduct
    exact ⟨_, (hcount _).mpr (hlength.trans hproduct), hlength.symm⟩

lemma CountedExactly.fits (h : CountedExactly sizes) (hzero : 0 ∈ sizes) :
    sizeProduct (beforeZero sizes) < UInt64.size := by
  have hcount := (h.count 0).mpr (sizeProduct_eq_zero hzero).symm
  rw [elementCount?_fixed] at hcount
  exact (checkedProduct_eq_some_iff.mp hcount).2

/-- Counts are exact unless the sizes in front of a zero are too large together. Then there is no
count and no tensor, although the product is zero. Where both counts are exact, sizes in another
order have the same count. -/
theorem counted_exactly_iff (sizes : List UInt64) :
    (CountedExactly sizes ↔ (0 ∈ sizes → sizeProduct (beforeZero sizes) < UInt64.size)) ∧
    (∀ other, other ~ sizes → CountedExactly other → CountedExactly sizes →
      (Shape.fixed other).elementCount? = (Shape.fixed sizes).elementCount?) ∧
    (¬ CountedExactly sizes → sizeProduct sizes = 0 ∧ (Shape.fixed sizes).elementCount? = none ∧
      ∀ data, Tensor.create data sizes = .error (.tooLarge sizes)) := by
  refine ⟨⟨CountedExactly.fits, .of_fits⟩, fun other hperm hother hsizes ↦ ?_, fun h ↦ ?_⟩
  · refine Option.ext fun p ↦ ?_
    rw [hother.count, hsizes.count, sizeProduct_perm hperm]
  · obtain ⟨hzero, hlarge⟩ := Classical.not_imp.mp (mt CountedExactly.of_fits h)
    have hnone : checkedProduct sizes = none := by
      refine eq_none_iff_forall_ne_some.mpr fun p hp ↦ hlarge ?_
      exact (checkedProduct_eq_some_iff.mp hp).2
    refine ⟨sizeProduct_eq_zero hzero, (elementCount?_fixed sizes).trans hnone, fun data ↦ ?_⟩
    rw [Tensor.create, hnone]

/-- A zero in front of large sizes is counted in every order that has it before they are too
large. -/
theorem counted_exactly_zero_first : (Shape.fixed [0, 4294967296, 4294967296]).elementCount? =
    (Shape.fixed [4294967296, 0, 4294967296]).elementCount? ∧
    ¬ CountedExactly [4294967296, 4294967296, 0] :=
  ⟨(counted_exactly_iff _).2.1 _ (.swap ..) ((counted_exactly_iff _).1.mpr fun _ ↦ by decide)
    ((counted_exactly_iff _).1.mpr fun _ ↦ by decide), fun h ↦
    absurd ((counted_exactly_iff _).1.mp h (by decide)) (by decide)⟩

/-- Two large sizes in front of a zero: no elements at all, but too many to be counted. -/
theorem no_count_of_zero_last : sizeProduct [4294967296, 4294967296, 0] = 0 ∧
    (Shape.fixed [4294967296, 4294967296, 0]).elementCount? = none ∧
    (Shape.fixed [0, 4294967296, 4294967296]).elementCount? = some 0 ∧ Tensor.create (.i64 [])
    [4294967296, 4294967296, 0] = .error (.tooLarge [4294967296, 4294967296, 0]) := by
  decide

end TensorGraph
