import TensorGraph.Proofs.ElementCounts
import TensorGraph.Proofs.ShapeRules

/-!
Reshapes in plain numbers. What the rule answers is said without machine arithmetic: every size that
it puts into a shape is the number asked for, and an open dimension is the one number that makes the
product right.
-/

namespace TensorGraph

open List

variable {target front back : List Int64} {sizes : List UInt64} {total n : UInt64}
  {operand shape : Shape} {c : InferenceContext} {data : TensorData}

def numbers (sizes : List UInt64) : List Int :=
  sizes.map fun n ↦ (n.toNat : Int)

/-- The elements of integer data as numbers. -/
def TensorData.numbers? : TensorData → Option (List Int)
  | .i64 xs => some (xs.map Int64.toInt)
  | .i32 xs => some (xs.map Int32.toInt)
  | .u8 xs => some (xs.map fun x ↦ (x.toNat : Int))
  | .f32 _ => none
  | .bool _ => none

lemma sizeProduct_append (front back : List UInt64) :
    sizeProduct (front ++ back) = sizeProduct front * sizeProduct back := by
  induction front with
  | nil => exact (Nat.one_mul _).symm
  | cons n front ih => rw [cons_append, sizeProduct_cons, ih, sizeProduct_cons, Nat.mul_assoc]

lemma toNat_toUInt64 {d : Int64} (h : 0 ≤ d) : (d.toUInt64.toNat : Int) = d.toInt := by
  have hpos : 0 ≤ d.toInt := Int64.le_iff_toInt_le.mp h
  rw [← d.toInt_toBitVec] at hpos ⊢
  exact (BitVec.toInt_eq_toNat_of_lt (BitVec.toInt_pos_iff.mp hpos)).symm

lemma toInt_of_byte (x : UInt8) : x.toUInt64.toInt64.toInt = x.toNat := by
  have hlt := x.toNat_lt
  rw [← Int64.toInt_toBitVec, BitVec.toInt_eq_toNat_of_lt]
  · simp
  · simp
    omega

lemma TensorData.numbers?_eq (data : TensorData) : data.numbers? = data.integers?.map
    (·.map Int64.toInt) := by
  cases data with
  | i64 xs => rfl
  | i32 xs => simp [numbers?, integers?]
  | u8 xs => simp [numbers?, integers?, toInt_of_byte]
  | f32 xs => rfl
  | bool xs => rfl

lemma numbers_of_mapM {α : Type} {convert : UInt64 → Option α} {number : α → Int}
    (hexact : ∀ n x, convert n = some x → number x = n.toNat)
    {xs : List α} (h : sizes.mapM convert = some xs) : xs.map number = numbers sizes := by
  induction sizes generalizing xs with
  | nil =>
    cases h
    rfl
  | cons n rest ih =>
    rw [mapM_cons, Option.bind_eq_bind, Option.bind_eq_some_iff] at h
    obtain ⟨x, hx, h⟩ := h
    obtain ⟨others, hothers, h⟩ := Option.bind_eq_some_iff.mp h
    cases h
    exact congrArg₂ cons (hexact n x hx) (ih hothers)

lemma numbers?_of_sizesAsI32 (h : sizesAsI32 sizes = some data) :
    data.numbers? = some (numbers sizes) := by
  obtain ⟨xs, hxs, rfl⟩ := Option.map_eq_some_iff.mp h
  refine congrArg some (numbers_of_mapM (fun n x hx ↦ ?_) hxs)
  split_ifs at hx with hfits
  cases hx
  exact Int32.toInt_ofNat_of_lt hfits

lemma numbers?_of_sizesAsI64 (h : sizesAsI64 sizes = some data) :
    data.numbers? = some (numbers sizes) := by
  obtain ⟨xs, hxs, rfl⟩ := Option.map_eq_some_iff.mp h
  refine congrArg some (numbers_of_mapM (fun n x hx ↦ ?_) hxs)
  split_ifs at hx with hfits
  cases hx
  exact Int64.toInt_ofNat_of_lt hfits

lemma numbers_toUInt64 (h : ∀ d ∈ target, 0 ≤ d) :
    numbers (target.map Int64.toUInt64) = target.map Int64.toInt := by
  unfold numbers
  rw [map_map]
  exact map_congr_left fun d hd ↦ toNat_toUInt64 (h d hd)

lemma map_toInt_eq_numbers_iff : target.map Int64.toInt = numbers sizes ↔
    (∀ d ∈ target, 0 ≤ d) ∧ sizes = target.map Int64.toUInt64 := by
  constructor
  · intro h
    have hnonneg : ∀ d ∈ target, 0 ≤ d := by
      intro d hd
      obtain ⟨n, -, hn⟩ := mem_map.mp (h ▸ mem_map_of_mem (f := Int64.toInt) hd)
      exact Int64.le_iff_toInt_le.mpr (hn ▸ Int.natCast_nonneg _)
    rw [← numbers_toUInt64 hnonneg] at h
    have hinjective : Function.Injective fun n : UInt64 ↦ (n.toNat : Int) := fun a b hab ↦
      UInt64.toNat_inj.mp (Int.ofNat.inj hab)
    exact ⟨hnonneg, (map_injective_iff.mpr hinjective h).symm⟩
  · rintro ⟨hnonneg, rfl⟩
    exact (numbers_toUInt64 hnonneg).symm

lemma exists_open_of_map_toInt {front back : List UInt64}
    (h : target.map Int64.toInt = numbers front ++ -1 :: numbers back) :
    ∃ f b : List Int64, (∀ d ∈ f ++ b, 0 ≤ d) ∧ target = f ++ -1 :: b ∧
      front = f.map Int64.toUInt64 ∧ back = b.map Int64.toUInt64 := by
  obtain ⟨f, rest, rfl, hf, hrest⟩ := map_eq_append_iff.mp h
  obtain ⟨d, b, rfl, hd, hb⟩ := map_eq_cons_iff.mp hrest
  obtain ⟨hfront, rfl⟩ := map_toInt_eq_numbers_iff.mp hf
  obtain ⟨hback, rfl⟩ := map_toInt_eq_numbers_iff.mp hb
  obtain rfl : d = -1 := Int64.toInt_inj.mp hd
  exact ⟨f, b, forall_mem_append.mpr ⟨hfront, hback⟩, rfl, rfl, rfl⟩

namespace ShapeRule

open InferenceContext

def dimOf (d : Int64) : Dim :=
  if d = -1 then .unknown else .known d.toUInt64

lemma targetDims_eq_ok_iff {dims : List Dim} :
    targetDims target = .ok dims ↔ (∀ d ∈ target, d = -1 ∨ 0 ≤ d) ∧ dims = target.map dimOf := by
  have hentry : ∀ (d : Int64) (dim : Dim),
      ((if d = -1 then .ok .unknown else if 0 ≤ d then .ok (.known d.toUInt64)
      else .error (.inference (.targetInvalid d)) : Except Error Dim) = .ok dim) ↔
        (d = -1 ∨ 0 ≤ d) ∧ dimOf d = dim := by
    intro d dim
    unfold dimOf
    by_cases hopen : d = -1
    · simp [hopen]
    · by_cases hsize : 0 ≤ d <;> simp [hopen, hsize]
  unfold targetDims
  rw [Program.check_mapM_eq_ok]
  simp only [hentry, forall₂_and_left]
  rw [← forall₂_map_left_iff (f := dimOf), forall₂_eq_eq_eq, eq_comm (a := dims)]

lemma map_dimOf (h : ∀ d ∈ target, 0 ≤ d) : target.map dimOf =
    (target.map Int64.toUInt64).map .known := by
  rw [map_map]
  refine map_congr_left fun d hd ↦ if_neg ?_
  rintro rfl
  exact absurd (h _ hd) (by decide)

lemma not_mem_of_nonneg (h : ∀ d ∈ target, 0 ≤ d) : -1 ∉ target :=
    fun hopen ↦ absurd (h _ hopen) (by decide)

/-- A target that is accepted has sizes only, or sizes and one open entry. -/
theorem target_cases (hcount : target.count (-1) ≤ 1) (hvalid : ∀ d ∈ target, d = -1 ∨ 0 ≤ d) :
    (∀ d ∈ target, 0 ≤ d) ∨ ∃ front back, (∀ d ∈ front ++ back, 0 ≤ d) ∧
    target = front ++ -1 :: back := by
  by_cases hopen : -1 ∈ target
  · obtain ⟨front, back, rfl⟩ := append_of_mem hopen
    rw [count_append, count_cons_self] at hcount
    have hrest : -1 ∉ front ++ back := by
      rw [← count_eq_zero, count_append]
      omega
    refine .inr ⟨front, back, fun d hd ↦ (hvalid d ?_).resolve_left ?_, rfl⟩
    · rcases mem_append.mp hd with hd | hd
      · exact mem_append_left _ hd
      · exact mem_append_right _ (mem_cons_of_mem _ hd)
    · rintro rfl
      exact hrest hd
  · exact .inl fun d hd ↦ (hvalid d hd).resolve_left fun heq ↦ hopen (heq ▸ hd)

lemma targetShape_of_nonneg (h : ∀ d ∈ target, 0 ≤ d) :
    targetShape operand target = .ok (.fixed (target.map Int64.toUInt64)) := by
  have hopen := not_mem_of_nonneg h
  have hdims : targetDims target = .ok (target.map dimOf) :=
    targetDims_eq_ok_iff.mpr ⟨fun d hd ↦ .inr (h d hd), rfl⟩
  unfold targetShape
  rw [if_neg (by rw [count_eq_zero.mpr hopen]; decide), hdims,
    idxOf?_eq_none_iff.mpr hopen, map_dimOf h]
  rfl

lemma openSize_eq_ok_iff (h : ∀ d ∈ front ++ back, 0 ≤ d) :
    openSize total (front ++ -1 :: back) = .ok n ↔
      0 < sizeProduct ((front ++ back).map Int64.toUInt64) ∧
      sizeProduct ((front ++ back).map Int64.toUInt64) < UInt64.size ∧
      n.toNat * sizeProduct ((front ++ back).map Int64.toUInt64) = total.toNat := by
  have hgiven : (front ++ -1 :: back).filter (0 ≤ ·) = front ++ back := by
    rw [filter_append, filter_cons_of_neg (by decide), ← filter_append]
    exact filter_eq_self.mpr fun d hd ↦ decide_eq_true (h d hd)
  unfold openSize
  rw [hgiven]
  generalize (front ++ back).map Int64.toUInt64 = given
  constructor
  · intro hok
    cases hproduct : checkedProduct given with
    | none =>
      rw [hproduct] at hok
      cases hok
    | some product =>
      rw [hproduct] at hok
      dsimp only at hok
      split_ifs at hok with hrefused
      obtain ⟨hzero, hdivides⟩ := not_or.mp hrefused
      cases hok
      rw [← (checkedProduct_eq_some_iff.mp hproduct).1, UInt64.toNat_div]
      have hmod : total.toNat % product.toNat = 0 := by
        rw [← UInt64.toNat_mod, not_not.mp hdivides]
        rfl
      exact ⟨Nat.pos_of_ne_zero fun hp ↦ hzero (UInt64.toNat_inj.mp hp), product.toNat_lt,
        Nat.div_mul_cancel (Nat.dvd_of_mod_eq_zero hmod)⟩
  · rintro ⟨hpos, hfits, hquotient⟩
    have hproduct : checkedProduct given = some (UInt64.ofNat (sizeProduct given)) := by
      have hnonzero : 0 ∉ given := fun hzero ↦ Nat.ne_of_gt hpos (sizeProduct_eq_zero hzero)
      rw [checkedProduct_eq_some_iff, beforeZero_eq_self hnonzero]
      exact ⟨UInt64.toNat_ofNat_of_lt hfits, hfits⟩
    have hvalue : (UInt64.ofNat (sizeProduct given)).toNat = sizeProduct given :=
      UInt64.toNat_ofNat_of_lt hfits
    rw [hproduct]
    dsimp only
    rw [if_neg]
    · refine congrArg Except.ok (UInt64.toNat_inj.mp ?_)
      rw [UInt64.toNat_div, hvalue, ← hquotient, Nat.mul_div_cancel _ hpos]
    · rintro (hzero | hmod)
      · rw [hzero] at hvalue
        exact Nat.ne_of_gt hpos hvalue.symm
      · refine hmod (UInt64.toNat_inj.mp ?_)
        rw [UInt64.toNat_mod, hvalue, ← hquotient, Nat.mul_mod_left]
        rfl

lemma targetShape_of_open (h : ∀ d ∈ front ++ back, 0 ≤ d) :
    targetShape operand (front ++ -1 :: back) = .ok shape ↔ (operand.elementCount? = none ∧
      shape = .ranked ((front.map Int64.toUInt64).map .known ++ .unknown ::
        (back.map Int64.toUInt64).map .known)) ∨ ∃ total, operand.elementCount? = some total ∧
      ∃ n, openSize total (front ++ -1 :: back) = .ok n ∧
      shape = .fixed (front.map Int64.toUInt64 ++ n :: back.map Int64.toUInt64) := by
  obtain ⟨hfront, hback⟩ := forall_mem_append.mp h
  have hopen := not_mem_of_nonneg hfront
  have hcount : (front ++ -1 :: back).count (-1) = 1 := by
    rw [count_append, count_cons_self, count_eq_zero.mpr hopen, count_eq_zero.mpr
      (not_mem_of_nonneg hback)]
  have hindex : (front ++ -1 :: back).idxOf? (-1) = some front.length := by
    rw [idxOf?_eq_some_iff]
    refine ⟨by simp, by simp, fun j hj ↦ ?_⟩
    rw [getElem_append_left hj]
    exact fun heq ↦ hopen (heq ▸ getElem_mem hj)
  have hdims : targetDims (front ++ -1 :: back) =
      .ok ((front.map Int64.toUInt64).map .known ++ .unknown ::
      (back.map Int64.toUInt64).map .known) := by
    refine targetDims_eq_ok_iff.mpr ⟨?_, ?_⟩
    · rw [forall_mem_append, forall_mem_cons]
      exact ⟨fun d hd ↦ .inr (hfront d hd), .inl rfl, fun d hd ↦ .inr (hback d hd)⟩
    · rw [map_append, map_cons, map_dimOf hfront, map_dimOf hback]
      rfl
  have hset : ∀ n, ((front.map Int64.toUInt64).map Dim.known ++ Dim.unknown ::
      (back.map Int64.toUInt64).map .known).set front.length (.known n) =
      (front.map Int64.toUInt64 ++ n :: back.map Int64.toUInt64).map .known := by
    intro n
    rw [set_append_right _ _ (by simp)]
    simp
  unfold targetShape
  rw [if_neg (by rw [hcount]; decide), hdims, hindex]
  cases operand.elementCount? with
  | none => simp [bind, Except.bind, pure, Except.pure, eq_comm]
  | some total =>
    simp only [reduceCtorEq, false_and, false_or, Option.some.injEq, exists_eq_left',
      bind, Except.bind]
    cases openSize total (front ++ -1 :: back) with
    | error err => simp
    | ok n =>
      simp only [hset, Except.ok.injEq, exists_eq_left', pure, Except.pure, Shape.fixed, eq_comm]

/-- The shape that a target asks for when there are `total` elements. An open entry becomes the
number of elements divided by what the sizes around it make. -/
inductive Reshapes (total : Option UInt64) : List Int → Shape → Prop where
  | sizes (sizes : List UInt64) : Reshapes total (numbers sizes) (.fixed sizes)
  | unsolved (front back : List UInt64) (htotal : total = none) :
      Reshapes total (numbers front ++ -1 :: numbers back)
      (.ranked (front.map .known ++ .unknown :: back.map .known))
  | solved (front back : List UInt64) (n elements : UInt64) (htotal : total = some elements)
      (hpos : 0 < sizeProduct (front ++ back)) (hfits : sizeProduct (front ++ back) < UInt64.size)
      (hquotient : n.toNat * sizeProduct (front ++ back) = elements.toNat) :
      Reshapes total (numbers front ++ -1 :: numbers back) (.fixed (front ++ n :: back))

lemma targetShape_eq_ok_iff :
    targetShape operand target = .ok shape ↔ Reshapes operand.elementCount?
    (target.map Int64.toInt) shape := by
  constructor
  · intro hok
    have hcount : target.count (-1) ≤ 1 := by
      refine Nat.le_of_not_lt fun hlt ↦ ?_
      rw [targetShape, if_pos hlt] at hok
      cases hok
    have hvalid : ∀ d ∈ target, d = -1 ∨ 0 ≤ d := by
      rw [targetShape, if_neg (Nat.not_lt.mpr hcount)] at hok
      obtain ⟨dims, hdims, -⟩ := Program.check_bind_eq_ok.mp hok
      exact (targetDims_eq_ok_iff.mp hdims).1
    rcases target_cases hcount hvalid with hnonneg | ⟨front, back, hnonneg, rfl⟩
    · rw [targetShape_of_nonneg hnonneg] at hok
      cases hok
      rw [← numbers_toUInt64 hnonneg]
      exact .sizes _
    · obtain ⟨hfront, hback⟩ := forall_mem_append.mp hnonneg
      rw [map_append, map_cons, ← numbers_toUInt64 hfront, ← numbers_toUInt64 hback]
      rcases (targetShape_of_open hnonneg).mp hok with ⟨hnone, rfl⟩ | ⟨total, htotal, n, hsize, rfl⟩
      · exact .unsolved _ _ hnone
      · rw [openSize_eq_ok_iff hnonneg, map_append] at hsize
        obtain ⟨hpos, hfits, hquotient⟩ := hsize
        exact .solved _ _ n total htotal hpos hfits hquotient
  · generalize hnumbers : target.map Int64.toInt = wanted
    rintro (sizes | ⟨front, back, hnone⟩ |
      ⟨front, back, n, elements, htotal, hpos, hfits, hquotient⟩)
    · obtain ⟨hnonneg, rfl⟩ := map_toInt_eq_numbers_iff.mp hnumbers
      exact targetShape_of_nonneg hnonneg
    · obtain ⟨f, b, hnonneg, rfl, rfl, rfl⟩ := exists_open_of_map_toInt hnumbers
      exact (targetShape_of_open hnonneg).mpr (.inl ⟨hnone, rfl⟩)
    · obtain ⟨f, b, hnonneg, rfl, rfl, rfl⟩ := exists_open_of_map_toInt hnumbers
      rw [← map_append] at hpos hfits hquotient
      exact (targetShape_of_open hnonneg).mpr (.inr ⟨elements, htotal, n,
        (openSize_eq_ok_iff hnonneg).mpr ⟨hpos, hfits, hquotient⟩, rfl⟩)

/-- What a reshape may answer when its operand has `total` elements. -/
inductive Reshaped (c : InferenceContext) (total : Option UInt64) (shape : Shape) : Prop where
  | known {value : Tensor} {wanted : List Int} (hvalue : c.operandValue? 1 = some value)
      (hwanted : value.data.numbers? = some wanted) (hshape : Reshapes total wanted shape)
  | unknown {type : TensorType} (hvalue : c.operandValue? 1 = none)
      (htype : c.operandType 1 = .ok type) (hshape : unknownTarget type.shape = .ok shape)

/-- The target is known and leaves a dimension open. -/
def LeavesOpen (c : InferenceContext) : Prop :=
  ∃ value wanted, c.operandValue? 1 = some value ∧ value.data.numbers? = some wanted ∧ -1 ∈ wanted

lemma reshape_eq_ok_iff {types : List TensorType} : reshape c = .ok types ↔ ∃ operand shape,
    c.operandType 0 = .ok operand ∧ types = [{ element := operand.element, shape }] ∧
      Reshaped c operand.shape.elementCount? shape := by
  unfold reshape operandElement operandShape
  cases h : c.operandType 0 with
  | error err => simp [Except.map, bind, Except.bind]
  | ok operand =>
    rw [Program.check_bind_eq_ok]
    constructor
    · rintro ⟨element, helement, hok⟩
      cases helement
      split at hok
      · next hvalue =>
        obtain ⟨shape, hshape, hok⟩ := Program.check_bind_eq_ok.mp hok
        obtain ⟨type, htype, rfl⟩ := map_eq_ok.mp hshape
        obtain ⟨answer, hanswer, hok⟩ := Program.check_bind_eq_ok.mp hok
        cases hok
        exact ⟨operand, answer, rfl, rfl, .unknown hvalue htype hanswer⟩
      · next value hvalue =>
        cases hints : value.data.integers? with
        | none =>
          rw [hints] at hok
          cases hok
        | some target =>
          rw [hints] at hok
          obtain ⟨shape, hshape, hok⟩ := Program.check_bind_eq_ok.mp hok
          cases hshape
          obtain ⟨answer, hanswer, hok⟩ := Program.check_bind_eq_ok.mp hok
          cases hok
          have hwanted : value.data.numbers? = some
              (target.map Int64.toInt) := by rw [value.data.numbers?_eq, hints]; rfl
          exact ⟨operand, answer, rfl, rfl, .known hvalue hwanted
            (targetShape_eq_ok_iff.mp hanswer)⟩
    · rintro ⟨_, shape, hsame, rfl, hshape⟩
      cases hsame
      refine ⟨operand.element, rfl, ?_⟩
      cases hshape with
      | known hvalue hwanted hshape =>
        rw [TensorData.numbers?_eq] at hwanted
        obtain ⟨target, hints, rfl⟩ := Option.map_eq_some_iff.mp hwanted
        have hanswer := targetShape_eq_ok_iff.mpr hshape
        rw [hvalue]
        dsimp only
        rw [hints]
        exact Program.check_bind_eq_ok.mpr ⟨_, rfl, Program.check_bind_eq_ok.mpr ⟨_, hanswer, rfl⟩⟩
      | unknown hvalue htype hshape =>
        rw [hvalue, htype]
        exact Program.check_bind_eq_ok.mpr ⟨_, rfl, Program.check_bind_eq_ok.mpr ⟨_, hshape, rfl⟩⟩

lemma checkedProduct_of_open {front back : List UInt64} (hpos : 0 < sizeProduct (front ++ back))
    (hfits : sizeProduct (front ++ back) < UInt64.size)
    (hquotient : n.toNat * sizeProduct (front ++ back) = total.toNat) :
    checkedProduct (front ++ n :: back) = some total := by
  have hproduct : sizeProduct (front ++ n :: back) = total.toNat := by
    rw [sizeProduct_perm perm_middle, sizeProduct_cons, hquotient]
  rw [checkedProduct_eq_some_iff]
  refine ⟨hproduct.symm, ?_⟩
  have hnonzero : 0 ∉ front ++ back := fun hzero ↦ Nat.ne_of_gt hpos (sizeProduct_eq_zero hzero)
  by_cases hn : n = 0
  · -- Only the open dimension is zero, and the sizes in front of it are among those given.
    have hfront : beforeZero (front ++ n :: back) = front := by
      unfold beforeZero
      rw [takeWhile_append_of_pos, takeWhile_cons_of_neg (by simp [hn]), append_nil]
      intro size hsize
      simp only [bne_iff_ne, ne_eq]
      rintro rfl
      exact hnonzero (mem_append_left _ hsize)
    rw [sizeProduct_append] at hpos hfits
    rw [hfront]
    exact Nat.lt_of_le_of_lt (Nat.le_mul_of_pos_right _ (Nat.pos_of_mul_pos_left hpos)) hfits
  · rw [beforeZero_eq_self, hproduct]
    · exact total.toNat_lt
    · simpa [Ne.symm hn] using hnonzero

lemma elementCount?_of_leavesOpen (h : Reshaped c (some total) shape) (hopen : LeavesOpen c) :
    shape.elementCount? = some total := by
  obtain ⟨value, wanted, hvalue, hwanted, hmem⟩ := hopen
  cases h with
  | unknown hnone => cases hvalue.symm.trans hnone
  | known hvalue' hwanted' hshape =>
    cases hvalue.symm.trans hvalue'
    cases hwanted.symm.trans hwanted'
    cases hshape with
    | sizes sizes =>
      obtain ⟨n, -, hn⟩ := mem_map.mp hmem
      omega
    | unsolved front back htotal => cases htotal
    | solved front back n elements htotal hpos hfits hquotient =>
      cases htotal
      rw [elementCount?_fixed]
      exact checkedProduct_of_open hpos hfits hquotient

lemma numbers?_of_knownValue {p : Program} {producer : Operation} {value : Tensor}
    (hkind : producer.kind = "Shape") (hvalue : knownValue p producer = some value) :
    ∃ input type sizes, producer.operands.head? = some input ∧ p.valueType input = .ok type ∧
    type.shape.sizes? = some sizes ∧ value.data.numbers? = some (numbers sizes) := by
  unfold knownValue at hvalue
  rw [if_neg (by rw [hkind]; decide), if_pos hkind] at hvalue
  simp only [Option.bind_eq_bind, Option.bind_eq_some_iff] at hvalue
  obtain ⟨input, hinput, type, htype, sizes, hsizes, hvalue⟩ := hvalue
  have htype : p.valueType input = .ok type := by
    cases h : p.valueType input with
    | error err =>
      rw [h] at htype
      cases htype
    | ok found =>
      rw [h] at htype
      cases htype
      rfl
  refine ⟨input, type, sizes, hinput, htype, hsizes, ?_⟩
  split at hvalue
  · obtain ⟨data, hdata, h⟩ := Option.bind_eq_some_iff.mp hvalue
    cases h
    exact numbers?_of_sizesAsI32 hdata
  · obtain ⟨data, hdata, h⟩ := Option.bind_eq_some_iff.mp hvalue
    cases h
    exact numbers?_of_sizesAsI64 hdata

/-- The rule computes in plain numbers: it accepts exactly the targets that ask for a shape, without
a size that wraps around or a division by zero, and so do the values of shapes that it looks at. The
number of elements is kept by every target with an open entry. Otherwise the sizes are taken as they
are, and it is kept only if they make it. -/
theorem reshape_counts (c : InferenceContext) :
    (∀ types, reshape c = .ok types ↔ ∃ operand shape, c.operandType 0 = .ok operand ∧
      types = [{ element := operand.element, shape }] ∧
      Reshaped c operand.shape.elementCount? shape) ∧
    (∀ operand elements type sizes, c.operandType 0 = .ok operand →
      operand.shape.elementCount? = some elements → reshape c = .ok [type] →
      type.shape.sizes? = some sizes → (type.shape.elementCount? = some elements ↔ LeavesOpen c ∨
        sizeProduct sizes = elements.toNat ∧ sizeProduct (beforeZero sizes) < UInt64.size)) ∧
    ∀ producer value, producer.kind = "Shape" → knownValue c.program producer = some value →
      ∃ input type sizes, producer.operands.head? = some input ∧
      c.program.valueType input = .ok type ∧ type.shape.sizes? = some sizes ∧
      value.data.numbers? = some (numbers sizes) := by
  refine ⟨fun types ↦ reshape_eq_ok_iff,
    fun operand elements type sizes hoperand helements hok hsizes ↦ ?_, fun producer value ↦
    numbers?_of_knownValue⟩
  have hcount : type.shape.elementCount? = checkedProduct sizes := by
    rw [Shape.elementCount?, hsizes]
    rfl
  constructor
  · intro hkept
    rw [hcount, checkedProduct_eq_some_iff] at hkept
    exact .inr ⟨hkept.1.symm, hkept.2⟩
  · rintro (hopen | ⟨hproduct, hfits⟩)
    · obtain ⟨_, shape, hsame, htypes, hshape⟩ := reshape_eq_ok_iff.mp hok
      cases hoperand.symm.trans hsame
      cases htypes
      exact elementCount?_of_leavesOpen (helements ▸ hshape) hopen
    · rw [hcount, checkedProduct_eq_some_iff]
      exact ⟨hproduct.symm, hfits⟩

/-- A reshape of an input with these sizes to a constant target. -/
def reshapeTo (sizes : List UInt64) (target : List Int64) : InferenceContext :=
  let value := Tensor.vector (.i64 target)
  let p := Program.built [
    .append ⟨0⟩ { kind := "Placeholder", resultTypes := [.fixed .f32 sizes] },
    .append ⟨0⟩ { kind := "Const", resultTypes := [value.type],
                  attrs := .ofList [("value", .tensor value)] },
    .node 0 "Reshape" [0, 1] 1]
  { program := p, op := (p.op? ⟨2⟩).getD default }

/-- A target with one open entry gets the size that keeps the number of elements. -/
theorem reshape_counts_solved : reshape (reshapeTo [2, 3, 4] [-1, 4]) = .ok [.fixed .f32 [6, 4]] ∧
    (Shape.fixed [6, 4]).elementCount? = some 24 := by
  have hok : reshape (reshapeTo [2, 3, 4] [-1, 4]) = .ok [.fixed .f32 [6, 4]] := by decide
  have hopen : LeavesOpen (reshapeTo [2, 3, 4] [-1, 4]) :=
    ⟨.vector (.i64 [-1, 4]), [-1, 4], by decide⟩
  exact ⟨hok, ((reshape_counts _).2.1 (.fixed .f32 [2, 3, 4]) 24 _ [6, 4] (by decide)
    (by decide) hok (by decide)).mpr (.inl hopen)⟩

/-- Six elements are taken for seven. -/
theorem count_not_kept : (reshapeTo [2, 3] [7]).operandShape 0 = .ok (.fixed [2, 3]) ∧
    (Shape.fixed [2, 3]).elementCount? = some 6 ∧
    reshape (reshapeTo [2, 3] [7]) = .ok [.fixed .f32 [7]] ∧
    (Shape.fixed [7]).elementCount? = some 7 := by
  decide

end ShapeRule

end TensorGraph
