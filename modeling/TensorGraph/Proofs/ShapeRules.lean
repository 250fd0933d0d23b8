import TensorGraph.Inference.Rules
import TensorGraph.Proofs.Refinement
import TensorGraph.Registry.Basic

/-!
What shape rules look at and how they fail. A rule sees its operation, the types of the operands
and, for a reshape, the value that the target is known to have.
-/

namespace TensorGraph

open Option

variable {p q : Program} {node : Operation} {err : Error} {version index : Nat} {value : Tensor}
    {rule : ShapeRule} {c : InferenceContext} {α β : Type}

/-- The rules that there are. -/
inductive ShapeRule.BuiltIn : ShapeRule → Prop where
  | unary : BuiltIn unary
  | binary : BuiltIn binary
  | const : BuiltIn const
  | placeholder : BuiltIn placeholder
  | cast : BuiltIn cast
  | shapeOf : BuiltIn shapeOf
  | reshape : BuiltIn reshape
  | matmul : BuiltIn matmul

/-- The registry has no rules of its own. -/
def Registry.OnlyBuiltIn (registry : Registry) : Prop :=
  ∀ kind rule, registry.shapeRule? kind = some rule → rule.BuiltIn

namespace Program

lemma valueType_congr {v : ValueId} (h : q.typeOf? v = p.typeOf? v) :
    q.valueType v = p.valueType v := by
  unfold valueType value
  unfold typeOf? at h
  cases hnew : q.value? v with
  | none =>
    rw [hnew, map_none, eq_comm, map_eq_none_iff] at h
    rw [h]
  | some new =>
    rw [hnew, map_some, eq_comm, map_eq_some_iff] at h
    obtain ⟨old, hold, htype⟩ := h
    rw [hold]
    exact congrArg Except.ok htype.symm

end Program

/-! ### Failures that can be passed over -/

def Survives {α : Type} (e : Except Error α) : Prop :=
  ∀ err, e = .error err → err.isAbort = false

namespace Survives

variable {α β : Type} {f : α → Except Error β} {e : Except Error α}

lemma ok (a : α) : Survives (.ok a : Except Error α) := by
  intro err h
  cases h

lemma error (h : err.isAbort = false) : Survives (.error err : Except Error α) := by
  intro other hother
  obtain rfl := Except.error.inj hother
  exact h

lemma bind (he : Survives e) (hf : ∀ a, e = .ok a → Survives (f a)) : Survives (e >>= f) :=
  Program.FailsOnly.bind he hf

lemma map (he : Survives e) (f : α → β) : Survives (e.map f) := by
  cases e with
  | error err => exact .error (he err rfl)
  | ok a => exact .ok _

lemma mapM (hf : ∀ a, Survives (f a)) (l : List α) : Survives (l.mapM f) :=
  Program.FailsOnly.mapM fun a _ ↦ hf a

end Survives

lemma bind_eq_error {e : Except Error α} {f : α → Except Error β} :
    (e >>= f) = .error err ↔ e = .error err ∨ ∃ a, e = .ok a ∧ f a = .error err := by
  cases e <;> simp [bind, Except.bind]

lemma map_eq_ok {e : Except Error α} {f : α → β} {b : β} :
    e.map f = .ok b ↔ ∃ a, e = .ok a ∧ f a = b := by
  cases e <;> simp [Except.map]

lemma Program.survives_valueType (p : Program) (v : ValueId) : Survives (p.valueType v) := by
  unfold valueType value
  split
  · exact .map (.ok _) _
  · exact .map (.error rfl) _

namespace InferenceContext

/-! ### Known values -/

lemma knownValue_of_refined (h : p.Refined q) {producer : Operation}
    (hvalue : knownValue p producer = some value) : knownValue q producer = some value := by
  unfold knownValue at hvalue ⊢
  split_ifs at hvalue ⊢
  · exact hvalue
  · simp only [bind_eq_bind, bind_eq_some_iff] at hvalue ⊢
    obtain ⟨input, hinput, type, htype, sizes, hsizes, hdata⟩ := hvalue
    rw [Program.toOption_valueType] at htype
    obtain ⟨old, hold, rfl⟩ := map_eq_some_iff.mp htype
    obtain ⟨new, hnew, -, hrefines⟩ := h.exists_value hold
    have hshape := (TensorType.meet_eq_some_iff.mp (TensorType.refines_iff.mp hrefines)).2
    refine ⟨input, hinput, new.type, ?_, sizes, Shape.eq_of_refines_of_sizes? hshape
      hsizes ▸ hsizes, hdata⟩
    rw [Program.toOption_valueType, Program.typeOf?, hnew]
    rfl

lemma operandValue?_of_refined (h : p.Refined q)
    (hvalue : operandValue? ⟨p, node, version⟩ index = some value) :
    operandValue? ⟨q, node, version⟩ index = some value := by
  simp only [operandValue?, bind_eq_bind, bind_eq_some_iff] at hvalue ⊢
  obtain ⟨v, hv, old, hold, producer, hproducer, maker, hmaker, hknown⟩ := hvalue
  obtain ⟨new, hnew, heq, -⟩ := h.exists_value hold
  refine ⟨v, hv, new, hnew, producer, ?_, maker,
    (h.op? producer).trans hmaker, knownValue_of_refined h hknown⟩
  rw [heq]
  exact hproducer

lemma operandValue?_between {m : Program} (h : p.Refined m) (h' : m.Refined q)
    (hsame : operandValue? ⟨q, node, version⟩ index = operandValue? ⟨p, node, version⟩ index) :
    operandValue? ⟨m, node, version⟩ index = operandValue? ⟨p, node, version⟩ index := by
  cases hfirst : operandValue? ⟨p, node, version⟩ index with
  | some value => exact operandValue?_of_refined h hfirst
  | none =>
    cases hmiddle : operandValue? ⟨m, node, version⟩ index with
    | none => rfl
    | some value =>
      cases (operandValue?_of_refined h' hmiddle).symm.trans (hsame.trans hfirst)

/-! ### Operand types -/

lemma operandType_congr (h : ∀ v ∈ node.operands, q.typeOf? v = p.typeOf? v) (version index : Nat) :
    operandType ⟨q, node, version⟩ index = operandType ⟨p, node, version⟩ index := by
  unfold operandType
  dsimp only
  split
  case h_1 v hv => exact Program.valueType_congr (h v (List.mem_of_getElem? hv))
  case h_2 => rfl

lemma survives_operandType (c : InferenceContext) (index : Nat) :
    Survives (c.operandType index) := by
  unfold operandType
  split
  · exact c.program.survives_valueType _
  · exact .error rfl

end InferenceContext

namespace ShapeRule

open InferenceContext

/-! ### What rules look at -/

lemma BuiltIn.congr (hrule : rule.BuiltIn) (htypes : ∀ v ∈ node.operands, q.typeOf? v = p.typeOf? v)
    (hvalue : rule = ShapeRule.reshape → operandValue? ⟨q, node, version⟩ 1 = operandValue?
    ⟨p, node, version⟩ 1) : rule ⟨q, node, version⟩ = rule ⟨p, node, version⟩ := by
  have htype := operandType_congr htypes version
  cases hrule with
  | unary => simp only [ShapeRule.unary, htype]
  | binary =>
    simp only [ShapeRule.binary, htype, operandCount]
    rfl
  | const => rfl
  | placeholder => rfl
  | cast => simp only [ShapeRule.cast, operandShape, htype]
  | shapeOf => simp only [ShapeRule.shapeOf, operandShape, htype]
  | reshape => simp only [ShapeRule.reshape, operandShape, operandElement, htype, hvalue rfl]
  | matmul =>
    simp only [ShapeRule.matmul, htype, operandCount]
    rfl

/-! ### How rules fail -/

section

variable (c : InferenceContext)

lemma survives_unary : Survives (unary c) :=
  .bind (survives_operandType c 0) fun _ _ ↦ .ok _

lemma survives_binary : Survives (binary c) := by
  unfold binary
  split_ifs
  · exact .error rfl
  · refine .bind (survives_operandType c 0) fun a _ ↦ .bind (survives_operandType c 1) fun b _ ↦ ?_
    split
    · exact .error rfl
    · split
      · exact .ok _
      · exact .error rfl

lemma survives_const : Survives (const c) := by
  unfold const
  split
  · exact .ok _
  · exact .error rfl

lemma survives_cast : Survives (cast c) :=
  .bind (.map (survives_operandType c 0) _) fun _ _ ↦ .ok _

lemma survives_shapeOf : Survives (shapeOf c) :=
  .bind (.map (survives_operandType c 0) _) fun _ _ ↦ .ok _

end

lemma survives_matrixDims (kind : String) (shape : Shape) : Survives (matrixDims kind shape) := by
  unfold matrixDims
  split
  · exact .ok _
  · exact .ok _
  · exact .error rfl

lemma survives_matmul (c : InferenceContext) : Survives (matmul c) := by
  unfold matmul
  by_cases hcount : c.operandCount < 2
  · rw [if_pos hcount]
    exact .error rfl
  · rw [if_neg hcount]
    refine .bind (survives_operandType c 0) fun a _ ↦ .bind (survives_operandType c 1) fun b _ ↦ ?_
    exact .bind (survives_matrixDims _ _) fun _ _ ↦ .bind (survives_matrixDims _ _) fun _ _ ↦ .ok _

lemma survives_openSize (total : UInt64) (target : List Int64) :
    Survives (openSize total target) := by
  unfold openSize
  split
  · exact .error rfl
  · split_ifs
    · exact .error rfl
    · exact .ok _

lemma survives_targetShape (operand : Shape) (target : List Int64) :
    Survives (targetShape operand target) := by
  unfold targetShape
  split_ifs
  · exact .error rfl
  · refine .bind (.mapM (fun d ↦ ?_) target) fun dims _ ↦ ?_
    · split_ifs
      · exact .ok _
      · exact .ok _
      · exact .error rfl
    · split
      · exact .bind (survives_openSize _ _) fun _ _ ↦ .ok _
      · exact .ok _

lemma unknownTarget_eq_error {target : Shape} (herr : unknownTarget target = .error err) :
    ∃ rank, err = .aborted (.rankTooLarge rank) ∧ rankLimit ≤ rank.toNat ∧
    target.sizes? = some [rank] := by
  unfold unknownTarget at herr
  split at herr
  case h_1 rank hsizes =>
    split_ifs at herr with hlimit
    exact ⟨rank, (Except.error.inj herr).symm, Nat.le_of_not_lt hlimit, hsizes⟩
  case h_2 => cases herr

/-- The target of the reshape is known to have more entries than a shape can have dimensions, and no
value of it is known. -/
def Overlong (c : InferenceContext) (rank : UInt64) : Prop :=
  c.operandValue? 1 = none ∧ rankLimit ≤ rank.toNat ∧
    ∃ type, c.operandType 1 = .ok type ∧ type.shape.sizes? = some [rank]

lemma overlong_of_reshape (herr : reshape c = .error err) (habort : err.isAbort = true) :
    ∃ rank, err = .aborted (.rankTooLarge rank) ∧ Overlong c rank := by
  have hfatal : ∀ {α : Type} {e : Except Error α}, Survives e → e ≠ .error err := by
    intro α e he h
    rw [he err h] at habort
    cases habort
  unfold reshape at herr
  rcases bind_eq_error.mp herr with hfail | ⟨element, -, herr⟩
  · exact absurd hfail (hfatal (.map (survives_operandType c 0) _))
  split at herr
  case h_1 hvalue =>
    rcases bind_eq_error.mp herr with hfail | ⟨shape, hshape, herr⟩
    · exact absurd hfail (hfatal (.map (survives_operandType c 1) _))
    rcases bind_eq_error.mp herr with hfail | ⟨dims, -, herr⟩
    · obtain ⟨rank, rfl, hlimit, hsizes⟩ := unknownTarget_eq_error hfail
      obtain ⟨type, htype, rfl⟩ := map_eq_ok.mp hshape
      exact ⟨rank, rfl, hvalue, hlimit, type, htype, hsizes⟩
    · cases herr
  case h_2 target hvalue =>
    refine absurd herr (hfatal ?_)
    split
    · exact .error rfl
    · exact .bind (.map (survives_operandType c 0) _) fun _ _ ↦ .bind (survives_targetShape _ _)
        fun _ _ ↦ .ok _

lemma BuiltIn.of_isAbort (hrule : rule.BuiltIn) (herr : rule c = .error err)
    (habort : err.isAbort = true) : rule = ShapeRule.reshape ∧
    ∃ rank, err = .aborted (.rankTooLarge rank) ∧ Overlong c rank := by
  have hsurvives : Survives (rule c) → False := by
    intro h
    rw [h err herr] at habort
    cases habort
  cases hrule with
  | unary => exact (hsurvives (survives_unary c)).elim
  | binary => exact (hsurvives (survives_binary c)).elim
  | const => exact (hsurvives (survives_const c)).elim
  | placeholder => exact (hsurvives (.ok _)).elim
  | cast => exact (hsurvives (survives_cast c)).elim
  | shapeOf => exact (hsurvives (survives_shapeOf c)).elim
  | reshape => exact ⟨rfl, overlong_of_reshape herr habort⟩
  | matmul => exact (hsurvives (survives_matmul c)).elim

end ShapeRule

end TensorGraph
