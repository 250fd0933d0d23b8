import TensorGraph.Proofs.Scoping

/-!
Scopes that grow along lists of operations. `Closed` says that every operation of a list uses only
values in scope, in the order in which regions are run.
-/

namespace TensorGraph.Program

open List

variable {x : OpId} {r : RegionId} {v : ValueId}

/-- Every operation of the list uses only what is in scope. -/
inductive Closed (p : Program) : List OpId → Nat → List ValueId → List OpId → Prop where
  | nil {avoid : List OpId} {depth : Nat} {scope : List ValueId} : Closed p avoid depth scope []
  | cons {avoid : List OpId} {depth : Nat} {scope : List ValueId} {o : OpId} {rest : List OpId}
      (havoid : o ∉ avoid) (hlive : (p.op? o).isSome) (hoperands : ∀ v ∈ p.operandsOf o, v ∈ scope)
      (hresults : ∀ v ∈ p.resultsOf o, v ∉ scope)
      (hargs : ∀ r ∈ p.regionsOf o, ∀ v ∈ p.argsOf r, v ∉ scope)
      (hinner : ∀ r ∈ p.regionsOf o,
        Closed p (o :: avoid) depth (scope ++ p.argsOf r) (p.opsIn r))
      (hrest : Closed p avoid (depth + 1) (scope ++ p.resultsOf o) rest) :
      Closed p avoid (depth + 1) scope (o :: rest)

namespace Closed

variable {p : Program} {avoid avoid' : List OpId} {depth depth' : Nat} {scope : List ValueId}
  {ops : List OpId}

variable (h : Closed p avoid depth scope ops)

include h

lemma mono (hle : depth ≤ depth') : Closed p avoid depth' scope ops := by
  induction h generalizing depth' with
  | nil => exact .nil
  | cons havoid hlive hoperands hresults hargs _ _ ihinner ihrest =>
    obtain ⟨deeper, rfl⟩ : ∃ deeper, depth' = deeper + 1 := ⟨depth' - 1, by omega⟩
    exact .cons havoid hlive hoperands hresults hargs
      (fun r hr ↦ ihinner r hr (Nat.le_of_succ_le_succ hle)) (ihrest hle)

lemma avoidLess (hsub : avoid' ⊆ avoid) : Closed p avoid' depth scope ops := by
  induction h generalizing avoid' with
  | nil => exact .nil
  | cons havoid hlive hoperands hresults hargs _ _ ihinner ihrest =>
    exact .cons (fun hmem ↦ havoid (hsub hmem)) hlive hoperands hresults hargs
      (fun r hr ↦ ihinner r hr (cons_subset_cons _ hsub)) (ihrest hsub)

lemma avoiding (hp : p.Consistent) (hops : ops ⊆ p.opsIn r) {extra : List OpId}
    (hextra : ∀ t ∈ extra, ∀ a, ¬ AncestorIn p r t a) :
    Closed p (avoid ++ extra) depth scope ops := by
  induction h generalizing r with
  | nil => exact .nil
  | @cons avoid depth scope o rest havoid hlive hoperands hresults hargs _ _ ihinner ihrest =>
    have ho := hp.mem_opsIn.mp (hops mem_cons_self)
    refine .cons ?_ hlive hoperands hresults hargs (fun inner hinner ↦ ?_)
      (ihrest (Subset.trans (subset_cons_self _ _) hops) hextra)
    · rw [mem_append, not_or]
      exact ⟨havoid, fun hmem ↦ hextra o hmem o (.here ho)⟩
    · refine ihinner inner hinner (Subset.refl _) fun t ht a hanc ↦ hextra t ht o ?_
      exact hanc.trans (.up hanc.parentOf? (hp.mem_regionsOf.mp hinner) (.here ho))

lemma toLevel (hp : p.Consistent) {n : Nat} (hr : AttachedAt p n r) (hops : ops ⊆ p.opsIn r)
    (hdepth : p.regions.length ≤ n + depth') : Closed p avoid depth' scope ops := by
  induction h generalizing n r depth' with
  | nil => exact .nil
  | cons havoid hlive hoperands hresults hargs _ _ ihinner ihrest =>
    have hlevel := hr.lt_length hp
    obtain ⟨deeper, rfl⟩ : ∃ deeper, depth' = deeper + 1 := ⟨depth' - 1, by omega⟩
    refine .cons havoid hlive hoperands hresults hargs (fun inner hinner ↦ ?_)
      (ihrest hr (Subset.trans (subset_cons_self _ _) hops) hdepth)
    exact ihinner inner hinner (.nested hr (hops mem_cons_self) hinner) (Subset.refl _) (by omega)

end Closed

/-! ### Scoped programs -/

def AvailableIn (p : Program) (r : RegionId) (v : ValueId) : Prop :=
  v ∈ p.argsOf r ∨ ∃ o, p.parentOp? r = some o ∧ Available p o v

lemma available_iff {p : Program} (hx : p.parentOf? x = some r) :
    Available p x v ↔ AvailableIn p r v ∨ ∃ d, Before p r d x ∧ v ∈ p.resultsOf d := by
  constructor
  · rintro (⟨r', a, hanc, harg⟩ | ⟨d, hresult, r', a, hanc, hbefore⟩)
    · rcases hanc with hparent | ⟨hparent, howner, habove⟩
      · cases hparent.symm.trans hx
        exact .inl (.inl harg)
      · cases hparent.symm.trans hx
        exact .inl (.inr ⟨_, howner, .inl ⟨r', a, habove, harg⟩⟩)
    · rcases hanc with hparent | ⟨hparent, howner, habove⟩
      · cases hparent.symm.trans hx
        exact .inr ⟨d, hbefore, hresult⟩
      · cases hparent.symm.trans hx
        exact .inl (.inr ⟨_, howner, .inr ⟨d, hresult, r', a, habove, hbefore⟩⟩)
  · rintro ((harg | ⟨o, howner, hv⟩) | ⟨d, hbefore, hresult⟩)
    · exact .inl ⟨r, x, .here hx, harg⟩
    · rcases hv with ⟨r', a, hanc, harg⟩ | ⟨d, hresult, r', a, hanc, hbefore⟩
      · exact .inl ⟨r', a, .up hx howner hanc, harg⟩
      · exact .inr ⟨d, hresult, r', a, .up hx howner hanc, hbefore⟩
    · exact .inr ⟨d, hresult, r, x, .here hx, hbefore⟩

section Scoped

variable {p : Program} (h : p.Consistent)

include h

lemma Consistent.nodup_resultsOf (o : OpId) : (p.resultsOf o).Nodup :=
  nodup_of_origins (Origin.result o) (fun _ _ heq ↦ (Origin.result.inj heq).2) (h.placed.results o)

lemma Consistent.nodup_argsOf (r : RegionId) : (p.argsOf r).Nodup :=
  nodup_of_origins (Origin.argument r) (fun _ _ heq ↦ (Origin.argument.inj heq).2) (h.placed.args r)

lemma before_iff_mem {front back : List OpId}
    (hsplit : p.opsIn r = front ++ x :: back) {d : OpId} : Before p r d x ↔ d ∈ front := by
  constructor
  · intro hbefore
    by_contra hd
    have hmem := hbefore.mem_left
    rw [hsplit, mem_append, mem_cons] at hmem
    rcases hmem.resolve_left hd with rfl | hback
    · exact hbefore.irrefl h
    · have hbehind : Before p r x d :=
        before_iff.mpr ⟨front ++ [x], back, by rw [hsplit]; simp, by simp, hback⟩
      exact Before.irrefl h (hbehind.trans h hbefore)
  · intro hd
    exact before_iff.mpr ⟨front, x :: back, hsplit, hd, mem_cons_self⟩

lemma not_available_of_mem_args (hx : x ∈ p.allOps)
    (hr : r ∈ p.regionsOf x) (hv : v ∈ p.argsOf r) : ¬ Available p x v := by
  intro havailable
  obtain ⟨home, ⟨n, hhome⟩, hparent⟩ := (mem_allOps h).mp hx
  obtain ⟨a, hanc⟩ := havailable.exists_ancestorIn_of_mem_args h hv
  have hat : AttachedAt p (n + 1) r := .nested hhome (h.mem_opsIn.mpr hparent) hr
  exact AncestorIn.not_of_owner h hat (h.mem_regionsOf.mp hr) hanc

lemma Scoped.closed (hscoped : Scoped p) {n depth : Nat} (hr : AttachedAt p n r)
    (hdepth : p.regions.length ≤ n + depth)
    {avoid : List OpId} (havoid : ∀ t ∈ avoid, ∀ a, ¬ AncestorIn p r t a)
    {scope : List ValueId} (hscope : ∀ v, v ∈ scope ↔ AvailableIn p r v) :
    Closed p avoid depth scope (p.opsIn r) := by
  induction depth generalizing n r scope avoid with
  | zero =>
    have := hr.lt_length h
    omega
  | succ depth ih =>
    -- The scope of a rest of the list is what the part in front of it has brought into scope.
    suffices hrest : ∀ rest front scope, p.opsIn r = front ++ rest →
      (∀ v, v ∈ scope ↔ AvailableIn p r v ∨ ∃ d ∈ front, v ∈ p.resultsOf d) →
      Closed p avoid (depth + 1) scope rest from hrest (p.opsIn r) [] scope rfl
      (by simpa using hscope)
    intro rest
    induction rest with
    | nil => exact fun _ _ _ _ ↦ .nil
    | cons x rest ihrest =>
      intro front scope hsplit hscope
      have hparent : p.parentOf? x = some r := h.mem_opsIn.mp (by rw [hsplit]; simp)
      have hx : x ∈ p.allOps := (mem_allOps h).mpr ⟨r, ⟨n, hr⟩, hparent⟩
      have hlive : (p.op? x).isSome := isSome_of_parentOf? hparent
      have havailable : ∀ v, v ∈ scope ↔ Available p x v := by
        intro v
        rw [hscope, available_iff hparent]
        simp only [before_iff_mem h hsplit]
      refine .cons (fun hmem ↦ havoid x hmem x (.here hparent)) hlive (fun v hv ↦ ?_)
        (fun v hv hmem ↦ ?_) (fun inner hinner v hv hmem ↦ ?_) (fun inner hinner ↦ ?_) ?_
      · exact (havailable v).mpr (hscoped.operands x hx v hv)
      · exact Sees.irrefl h hx (((havailable v).mp hmem).sees_of_mem_results h hv)
      · exact not_available_of_mem_args h hx hinner hv ((havailable v).mp hmem)
      · have hat : AttachedAt p (n + 1) inner := .nested hr (h.mem_opsIn.mpr hparent) hinner
        have howner := h.mem_regionsOf.mp hinner
        refine ih hat (by omega) (fun t ht a hanc ↦ ?_) fun v ↦ ?_
        · rcases mem_cons.mp ht with rfl | ht
          · exact hanc.not_of_owner h hat howner
          · exact havoid t ht x (hanc.trans (.up hanc.parentOf? howner (.here hparent)))
        · rw [mem_append, havailable, AvailableIn, howner]
          simp [or_comm]
      · refine ihrest (front ++ [x]) _ (by rw [hsplit]; simp) fun v ↦ ?_
        rw [mem_append, hscope, or_assoc]
        simp only [mem_append, mem_singleton, or_and_right, exists_or, exists_eq_left]

lemma Scoped.closed_root (hscoped : Scoped p) (hr : r ∈ p.roots) :
    Closed p [] p.regions.length (p.argsOf r) (p.opsIn r) := by
  refine hscoped.closed h (.root hr) (Nat.le_add_left ..) (by simp) fun v ↦ ?_
  rw [AvailableIn, h.parentOp?_of_root hr]
  simp

end Scoped

end TensorGraph.Program
