import TensorGraph.Proofs.Nesting

/-!
What an operation may refer to. An operation sees another if that one stands before it, or before an
operation it is nested in. It may use the results of what it sees, and the arguments of the regions
around it.
-/

namespace TensorGraph.Program

open List Option

variable {a d m : OpId} {r : RegionId} {p : Program}

/-- `d` stands in the list of `r`, and `a` further back in the same list. -/
def Before (p : Program) (r : RegionId) (d a : OpId) : Prop :=
  [d, a].Sublist (p.opsIn r)

/-- `d` stands before `o`, or before an operation that `o` is nested in. -/
def Sees (p : Program) (o d : OpId) : Prop :=
  ∃ r a, AncestorIn p r o a ∧ Before p r d a

/-- `v` is an argument of a region around `o`, or a result of an operation that `o` sees. -/
def Available (p : Program) (o : OpId) (v : ValueId) : Prop :=
  (∃ r a, AncestorIn p r o a ∧ v ∈ p.argsOf r) ∨ ∃ d, v ∈ p.resultsOf d ∧ Sees p o d

/-- Every attached operation uses only what is available to it and waits only for what it sees. -/
structure Scoped (p : Program) : Prop where
  operands : ∀ o ∈ p.allOps, ∀ v ∈ p.operandsOf o, Available p o v
  control : ∀ o ∈ p.allOps, ∀ d ∈ p.controlOf o, Sees p o d

/-! ### Order in a region -/

lemma before_iff : Before p r d a ↔ ∃ front back, p.opsIn r = front ++ back ∧
    d ∈ front ∧ a ∈ back := by
  unfold Before
  rw [cons_sublist_iff]
  simp only [singleton_sublist]

lemma sublist_erase {l ops : List OpId} {o : OpId} (hsub : l.Sublist ops) (ho : o ∉ l) :
    l.Sublist (ops.erase o) := by
  have herased := hsub.erase o
  rwa [erase_of_not_mem ho] at herased

namespace Before

variable {b : OpId}

lemma mem_left (hbefore : Before p r d a) : d ∈ p.opsIn r :=
  hbefore.subset (by simp)

lemma mem_right (hbefore : Before p r d a) : a ∈ p.opsIn r :=
  hbefore.subset (by simp)

variable (h : p.Consistent)

include h

lemma irrefl : ¬ Before p r a a :=
  nodup_iff_sublist.mp (h.placed.once r) a

lemma trans (hfirst : Before p r d b) (hsecond : Before p r b a) : Before p r d a := by
  obtain ⟨front, back, hsplit, hd, hb⟩ := before_iff.mp hfirst
  obtain ⟨front', back', hsplit', hb', ha⟩ := before_iff.mp hsecond
  have hnodup := h.placed.once r
  rcases append_eq_append_iff.mp (hsplit.symm.trans hsplit') with
    ⟨middle, rfl, -⟩ | ⟨middle, rfl, -⟩
  · exact before_iff.mpr ⟨_, back', hsplit', mem_append_left _ hd, ha⟩
  · rw [hsplit, nodup_append] at hnodup
    exact absurd rfl (hnodup.2.2 b (mem_append_left _ hb') b hb)

end Before

/-! ### Seeing -/

section Seeing

variable {o : OpId} {v : ValueId} (h : p.Consistent)

lemma Sees.of_before (h : p.Consistent) (hbefore : Before p r o a)
    (hsees : Sees p o d) : Sees p a d := by
  have ho := h.mem_opsIn.mp hbefore.mem_left
  have ha := h.mem_opsIn.mp hbefore.mem_right
  obtain ⟨r', b, hanc, hbefore'⟩ := hsees
  rcases hanc with hparent | ⟨hparent, howner, habove⟩
  · obtain rfl := some.inj (hparent.symm.trans ho)
    exact ⟨r', a, .here ha, hbefore'.trans h hbefore⟩
  · cases hparent.symm.trans ho
    exact ⟨r', b, .up ha howner habove, hbefore'⟩

lemma Sees.of_ancestor (hanc : AncestorIn p r o a) (hsees : Sees p a d) : Sees p o d := by
  obtain ⟨r', b, hanc', hbefore⟩ := hsees
  exact ⟨r', b, hanc.trans hanc', hbefore⟩

lemma Sees.trans (h : p.Consistent) (hfirst : Sees p o m) (hsecond : Sees p m d) : Sees p o d := by
  obtain ⟨r, a, hanc, hbefore⟩ := hfirst
  exact .of_ancestor hanc (hsecond.of_before h hbefore)

lemma Available.of_ancestor (hanc : AncestorIn p r o a) (hv : Available p a v) :
    Available p o v := by
  rcases hv with ⟨r', b, hanc', harg⟩ | ⟨d, hresult, hsees⟩
  · exact .inl ⟨r', b, hanc.trans hanc', harg⟩
  · exact .inr ⟨d, hresult, hsees.of_ancestor hanc⟩

lemma Available.of_before (h : p.Consistent) (hbefore : Before p r o a) (hv : Available p o v) :
    Available p a v := by
  have ho := h.mem_opsIn.mp hbefore.mem_left
  have ha := h.mem_opsIn.mp hbefore.mem_right
  rcases hv with ⟨r', b, hanc, harg⟩ | ⟨d, hresult, hsees⟩
  · rcases hanc with hparent | ⟨hparent, howner, habove⟩
    · obtain rfl := some.inj (hparent.symm.trans ho)
      exact .inl ⟨r', a, .here ha, harg⟩
    · cases hparent.symm.trans ho
      exact .inl ⟨r', b, .up ha howner habove, harg⟩
  · exact .inr ⟨d, hresult, hsees.of_before h hbefore⟩

lemma Available.trans (h : p.Consistent) (hsees : Sees p o m) (hv : Available p m v) :
    Available p o v := by
  obtain ⟨r, a, hanc, hbefore⟩ := hsees
  exact .of_ancestor hanc (hv.of_before h hbefore)

include h

lemma Available.sees_of_mem_results (hv : Available p o v) (hresult : v ∈ p.resultsOf d) :
    Sees p o d := by
  rcases hv with ⟨r, a, -, harg⟩ | ⟨d', hresult', hsees⟩
  · exact absurd harg (h.not_mem_argsOf hresult)
  · exact h.eq_of_mem_resultsOf hresult' hresult ▸ hsees

lemma Available.exists_ancestorIn_of_mem_args (hv : Available p o v)
    (harg : v ∈ p.argsOf r) : ∃ a, AncestorIn p r o a := by
  rcases hv with ⟨r', a, hanc, harg'⟩ | ⟨d, hresult, -⟩
  · exact ⟨a, h.eq_of_mem_argsOf harg' harg ▸ hanc⟩
  · exact absurd harg (h.not_mem_argsOf hresult)

lemma Sees.before (ho : o ∈ p.allOps) (hanc : AncestorIn p r o a)
    (hd : p.parentOf? d = some r) (hsees : Sees p o d) : Before p r d a := by
  obtain ⟨home, hhome, hparent⟩ := (mem_allOps h).mp ho
  obtain ⟨r', b, hanc', hbefore⟩ := hsees
  cases hd.symm.trans (h.mem_opsIn.mp hbefore.mem_left)
  rw [hanc.unique h hparent hhome hanc']
  exact hbefore

lemma Sees.irrefl (ho : o ∈ p.allOps) : ¬ Sees p o o := by
  intro hsees
  obtain ⟨home, hhome, hparent⟩ := (mem_allOps h).mp ho
  exact Before.irrefl h (hsees.before h ho (.here hparent) hparent)

end Seeing

/-! ### Deciding what is scoped -/

def canSee (p : Program) (o d : OpId) : Bool :=
  p.allRegions.any fun r ↦ (p.ancestorIn? r o).any fun a ↦ [d, a].isSublist (p.opsIn r)

def canUse (p : Program) (o : OpId) (v : ValueId) : Bool :=
  p.allRegions.any fun r ↦ (p.ancestorIn? r o).isSome && (p.argsOf r).contains v ||
    (p.opsIn r).any fun d ↦ (p.resultsOf d).contains v && p.canSee o d

def isScoped (p : Program) : Bool :=
  p.allOps.all fun o ↦ (p.operandsOf o).all (p.canUse o) && (p.controlOf o).all (p.canSee o)

section Deciding

variable (h : p.Consistent) {o : OpId} (ho : o ∈ p.allOps)

include h ho

lemma ancestorIn?_eq_some : p.ancestorIn? r o = some a ↔ AncestorIn p r o a := by
  obtain ⟨home, hhome, hparent⟩ := (mem_allOps h).mp ho
  exact ⟨ancestorIn_of_ancestorIn?, fun hanc ↦ hanc.ancestorIn? h hparent hhome⟩

lemma mem_allRegions_of_ancestorIn (hanc : AncestorIn p r o a) : r ∈ p.allRegions := by
  obtain ⟨home, ⟨n, hhome⟩, hparent⟩ := (mem_allOps h).mp ho
  obtain ⟨m, -, hat⟩ := hanc.exists_attachedAt h hparent hhome
  exact (mem_allRegions h).mpr ⟨m, hat⟩

lemma canSee_eq_true : p.canSee o d = true ↔ Sees p o d := by
  simp only [canSee, List.any_eq_true, Option.any_eq_true, isSublist_iff_sublist,
    ancestorIn?_eq_some h ho]
  constructor
  · rintro ⟨r, -, a, hanc, hbefore⟩
    exact ⟨r, a, hanc, hbefore⟩
  · rintro ⟨r, a, hanc, hbefore⟩
    exact ⟨r, mem_allRegions_of_ancestorIn h ho hanc, a, hanc, hbefore⟩

lemma canUse_eq_true {v : ValueId} : p.canUse o v = true ↔ Available p o v := by
  simp only [canUse, List.any_eq_true, Bool.or_eq_true, Bool.and_eq_true, canSee_eq_true h ho,
    contains_iff_mem, isSome_iff_exists, ancestorIn?_eq_some h ho]
  constructor
  · rintro ⟨r, -, ⟨⟨a, hanc⟩, harg⟩ | ⟨d, -, hresult, hsees⟩⟩
    · exact .inl ⟨r, a, hanc, harg⟩
    · exact .inr ⟨d, hresult, hsees⟩
  · rintro (⟨r, a, hanc, harg⟩ | ⟨d, hresult, r, a, hanc, hbefore⟩)
    · exact ⟨r, mem_allRegions_of_ancestorIn h ho hanc, .inl ⟨⟨a, hanc⟩, harg⟩⟩
    · exact ⟨r, mem_allRegions_of_ancestorIn h ho hanc, .inr
        ⟨d, hbefore.mem_left, hresult, r, a, hanc, hbefore⟩⟩

end Deciding

lemma isScoped_eq_true (h : p.Consistent) : p.isScoped = true ↔ Scoped p := by
  simp only [isScoped, List.all_eq_true, Bool.and_eq_true]
  constructor
  · intro hall
    exact ⟨fun o ho v hv ↦ (canUse_eq_true h ho).mp ((hall o ho).1 v hv),
      fun o ho d hd ↦ (canSee_eq_true h ho).mp ((hall o ho).2 d hd)⟩
  · intro hscoped o ho
    exact ⟨fun v hv ↦ (canUse_eq_true h ho).mpr (hscoped.operands o ho v hv),
      fun d hd ↦ (canSee_eq_true h ho).mpr (hscoped.control o ho d hd)⟩

end TensorGraph.Program
