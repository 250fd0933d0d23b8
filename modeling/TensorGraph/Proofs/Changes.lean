import TensorGraph.Proofs.Successes

/-!
Reports of change. A step that reports no change has left the program as it was, and one that
reports a change has made a change of a given kind. Kinds of change that add up over a loop are of
two sorts.
-/

namespace TensorGraph

open List

variable {p q : Program} {changed : Bool} {R : Program → Program → Prop}

namespace Program

/-- The programs hold the same operations, values, regions and functions, and the same graph. Which
free handle is given out next does not count. -/
structure SameContents (p q : Program) : Prop where
  op? : ∀ o, q.op? o = p.op? o
  values : q.values = p.values
  regions : q.regions = p.regions
  funcs : q.funcs = p.funcs
  graph : q.graph = p.graph

lemma countP_isSome_le {α : Type} {l l' : List (Option α)}
    (h : ∀ i : Nat, l[i]?.join.isSome → l'[i]?.join.isSome) :
    l.countP (·.isSome) ≤ l'.countP (·.isSome) := by
  induction l generalizing l' with
  | nil => exact Nat.zero_le _
  | cons x rest ih =>
    cases l' with
    | nil =>
      have hrest : rest.countP (·.isSome) ≤ ([] : List (Option α)).countP (·.isSome) :=
        ih fun i hi ↦ h (i + 1) hi
      have hx : x.isSome = false := by simpa using h 0
      rwa [countP_cons_of_neg (by simp [hx])]
    | cons y rest' =>
      have hrest : rest.countP (·.isSome) ≤ rest'.countP (·.isSome) := ih fun i hi ↦ h (i + 1) hi
      have hx : x.isSome → y.isSome := h 0
      rw [countP_cons, countP_cons]
      split_ifs with hsome hsome'
      · omega
      · exact absurd (hx hsome) hsome'
      · omega
      · omega

section LiveCount

lemma liveCount_le_of_live (h : ∀ o, (q.op? o).isSome → (p.op? o).isSome) :
    q.liveCount ≤ p.liveCount :=
  countP_isSome_le fun i ↦ h ⟨i⟩

lemma liveCount_lt_of_live (h : ∀ o, (q.op? o).isSome → (p.op? o).isSome) {o : OpId}
    (ho : (p.op? o).isSome) (hgone : q.op? o = none) : q.liveCount < p.liveCount := by
  have hle : q.liveCount ≤ (p.release o).liveCount := by
    refine liveCount_le_of_live fun x hx ↦ ?_
    rw [op?_release, if_neg]
    · exact h x hx
    · rintro rfl
      rw [hgone] at hx
      cases hx
  have hrelease := liveCount_release ho
  omega

lemma SameContents.liveCount (h : SameContents p q) : q.liveCount = p.liveCount := by
  apply Nat.le_antisymm
  · exact liveCount_le_of_live fun o ho ↦ h.op? o ▸ ho
  · exact liveCount_le_of_live fun o ho ↦ (h.op? o).symm ▸ ho

end LiveCount

lemma SameContents.refl (p : Program) : SameContents p p :=
  ⟨fun _ ↦ rfl, rfl, rfl, rfl, rfl⟩

def Differs (p q : Program) : Prop :=
  ¬ SameContents p q

end Program

namespace Edit

open Program

variable {α κ β : Type} {step : α → Edit Bool} {I : List α → Program → Prop} {l : List α}
  {view : Program → κ → β}

/-! ### Reports -/

/-- A reported change is one by `R`, and without a report nothing has changed. -/
def Reports (R : Program → Program → Prop) (p : Program) (changed : Bool) (q : Program) : Prop :=
  if changed then R p q else q = p

namespace Reports

variable {S : Program → Program → Prop} {m : Program} {later : Bool}

lemma unchanged : Reports R p false p :=
  show p = p from rfl

lemma of_rel (h : R p q) : Reports R p true q :=
  h

lemma imp (h : Reports R p changed q) (hR : R p q → S p q) : Reports S p changed q := by
  cases changed
  · exact h
  · exact hR h

lemma trans (hR : R p m → R m q → R p q) (h : Reports R p changed m) (h' : Reports R m later q) :
    Reports R p (changed || later) q := by
  cases changed
  · obtain rfl : m = p := h
    exact h'
  · cases later
    · obtain rfl : q = m := h'
      exact h
    · exact hR h h'

lemma eq_false_iff (h : Reports Differs p changed q) :
    (changed = false ↔ q = p) ∧ (changed = false ↔ SameContents p q) := by
  cases changed
  · obtain rfl : q = p := h
    exact ⟨iff_of_true rfl rfl, iff_of_true rfl (.refl q)⟩
  · have hdiffers : ¬ SameContents p q := h
    refine ⟨iff_of_false Bool.noConfusion ?_, iff_of_false Bool.noConfusion hdiffers⟩
    rintro rfl
    exact hdiffers (.refl q)

end Reports

/-! ### Loops -/

lemma exec_anyChange_from (step : α → Edit Bool) (l : List α) (before : Bool) (p : Program) :
    (l.foldlM (fun changed x ↦ do
      let here ← step x
      return changed || here) before).exec p = Prod.map (Except.map (before || ·)) id
        ((anyChange l step).exec p) := by
  unfold anyChange
  induction l generalizing before p with
  | nil => exact Prod.ext (congrArg Except.ok (Bool.or_false before).symm) rfl
  | cons a rest ih =>
    rw [exec_foldlM_cons, exec_foldlM_cons, bind_assoc, bind_assoc, exec_bind, exec_bind]
    rcases (step a).exec p with ⟨err | here, m⟩
    · rfl
    · simp only [pure_bind]
      rw [ih, ih (false || here)]
      rcases exec _ m with ⟨err | later, q⟩
      · rfl
      · exact Prod.ext (congrArg Except.ok (by simp [Bool.or_assoc])) rfl

lemma anyChange_cons_ok {a : α} {rest : List α}
    (hok : (anyChange (a :: rest) step).exec p = (.ok changed, q)) : ∃ here m later,
    (step a).exec p = (.ok here, m) ∧ (anyChange rest step).exec m = (.ok later, q) ∧ changed =
    (here || later) := by
  rw [anyChange, exec_foldlM_cons, bind_assoc, exec_bind_ok] at hok
  obtain ⟨here, m, hhere, hrest⟩ := hok
  rw [pure_bind, exec_anyChange_from] at hrest
  rcases hlater : (anyChange rest step).exec m with ⟨err | later, q'⟩
  · rw [hlater] at hrest
    cases hrest
  · rw [hlater] at hrest
    cases hrest
    exact ⟨here, m, later, hhere, hlater, rfl⟩

lemma anyChange_unchanged (h : ∀ a ∈ l, (step a).exec p = (.ok false, p))
    : (anyChange l step).exec p = (.ok false, p) := by
  induction l with
  | nil => rfl
  | cons a rest ih =>
    obtain ⟨hhead, hrest⟩ := forall_mem_cons.mp h
    rw [anyChange, exec_foldlM_cons, bind_assoc, exec_bind, hhead]
    simp only [pure_bind]
    rw [exec_anyChange_from, ih hrest]
    rfl

lemma anyChange_reports {R : List α → Program → Program → Prop}
    (hstep : ∀ a rest p q changed, I (a :: rest) p → (step a).exec p = (.ok changed, q) → I rest q ∧
    Reports (R [a]) p changed q)
    (hjoin : ∀ a rest p m q changed later, I (a :: rest) p → Reports (R [a]) p changed m →
    Reports (R rest) m later q → Reports (R (a :: rest)) p (changed || later) q) (hp : I l p)
    (hok : (anyChange l step).exec p = (.ok changed, q)) : I [] q ∧ Reports (R l) p changed q := by
  induction l generalizing p changed with
  | nil =>
    cases hok
    exact ⟨hp, .unchanged⟩
  | cons a rest ih =>
    obtain ⟨here, m, later, hhere, hlater, rfl⟩ := anyChange_cons_ok hok
    obtain ⟨hm, hreport⟩ := hstep a rest p m here hp hhere
    obtain ⟨hq, hreports⟩ := ih hm hlater
    exact ⟨hq, hjoin a rest p m q here later hp hreport hreports⟩

lemma anyChange_progress (hR : ∀ {p m q}, R p m → R m q → R p q)
    (hstep : ∀ a rest p q changed, I (a :: rest) p → (step a).exec p = (.ok changed, q) → I rest q ∧
    Reports R p changed q) (hp : I l p) (hok : (anyChange l step).exec p = (.ok changed, q)) :
    I [] q ∧ Reports R p changed q :=
  anyChange_reports (R := fun _ ↦ R) hstep (fun _ _ _ _ _ _ _ _ ↦ .trans hR) hp hok

lemma succeeds_anyChange (hR : ∀ {p m q}, R p m → R m q → R p q)
    (hstep : ∀ a rest p, I (a :: rest) p → Succeeds (step a) p fun changed q ↦ I rest q ∧
    Reports R p changed q) (hp : I l p) : Succeeds (anyChange l step) p fun changed q ↦ I [] q ∧
    Reports R p changed q := by
  have hloop : Succeeds (anyChange l step) p fun _ ↦ I [] :=
    .anyChange (fun a rest q hq ↦ (hstep a rest q hq).imp fun _ _ ↦ And.left) hp
  obtain ⟨changed, q, hok, -⟩ := hloop
  refine .of_ok hok (anyChange_progress hR (fun a rest p q changed hI hrun ↦ ?_) hp hok)
  obtain ⟨_, _, hrun', hq⟩ := hstep a rest p hI
  obtain ⟨hchanged, rfl⟩ := Prod.mk.inj (hrun.symm.trans hrun')
  exact Except.ok.inj hchanged ▸ hq

lemma anyChange_eq_false (hstep : ∀ a ∈ l, ∀ q, (step a).exec p = (.ok false, q) → q = p)
    (hok : (anyChange l step).exec p = (.ok false, q)) : ∀ a ∈ l, (step a).exec p =
    (.ok false, p) := by
  induction l with
  | nil => exact fun _ ha ↦ absurd ha not_mem_nil
  | cons a rest ih =>
    rw [forall_mem_cons] at hstep ⊢
    obtain ⟨here, m, later, hhere, hlater, hnone⟩ := anyChange_cons_ok hok
    obtain ⟨rfl, rfl⟩ := Bool.or_eq_false_iff.mp hnone.symm
    obtain rfl := hstep.1 m hhere
    exact ⟨hhere, ih hstep.2 hlater⟩

/-! ### Marks -/

def Marks (view : Program → κ → β) (keys : List κ) (p q : Program) : Prop :=
  (∃ k ∈ keys, view q k ≠ view p k) ∧ ∀ k, k ∉ keys → view q k = view p k

lemma Marks.differs {keys : List κ}
    (h : Marks view keys p q) (hview : ∀ k, SameContents p q → view q k = view p k) :
    Differs p q := by
  intro hsame
  obtain ⟨⟨k, -, hne⟩, -⟩ := h
  exact hne (hview k hsame)

lemma Reports.marks_append {keys more : List κ} {m : Program} {later : Bool}
    (hdisjoint : keys.Disjoint more) (h : Reports (Marks view keys) p changed m)
    (h' : Reports (Marks view more) m later q) : Reports (Marks view (keys ++ more)) p
    (changed || later) q := by
  have hfirst : changed = true → later = false → Marks view (keys ++ more) p m := by
    rintro rfl -
    obtain ⟨⟨k, hk, hne⟩, hrest⟩ := h
    exact ⟨⟨k, mem_append_left _ hk, hne⟩, fun x hx ↦ hrest x fun hmem ↦
      hx (mem_append_left _ hmem)⟩
  cases changed
  · obtain rfl : m = p := h
    refine imp h' fun ⟨⟨k, hk, hne⟩, hrest⟩ ↦ ?_
    exact ⟨⟨k, mem_append_right _ hk, hne⟩, fun x hx ↦ hrest x fun hmem ↦
      hx (mem_append_right _ hmem)⟩
  · cases later
    · obtain rfl : q = m := h'
      exact hfirst rfl rfl
    · obtain ⟨⟨k, hk, hne⟩, hrest⟩ := h
      obtain ⟨-, hrest'⟩ := h'
      refine ⟨⟨k, mem_append_left _ hk, ?_⟩, fun x hx ↦ ?_⟩
      · rw [hrest' k (hdisjoint hk)]
        exact hne
      · rw [hrest' x fun hmem ↦ hx (mem_append_right _ hmem), hrest x fun hmem ↦
          hx (mem_append_left _ hmem)]

lemma anyChange_marks (view : Program → κ → β) (key : α → κ)
    (hstep : ∀ a rest p q changed, I (a :: rest) p → (step a).exec p = (.ok changed, q) → I rest q ∧
    Reports (Marks view [key a]) p changed q) (hnodup : (l.map key).Nodup) (hp : I l p)
    (hok : (anyChange l step).exec p = (.ok changed, q)) : I [] q ∧
    Reports (Marks view (l.map key)) p changed q := by
  have hloop := anyChange_reports (I := fun rest q ↦ (rest.map key).Nodup ∧ I rest q)
    (R := fun rest ↦ Marks view (rest.map key)) (fun a rest p q changed hI hrun ↦ ?_)
    (fun a rest p m q changed later hI hhere hlater ↦ ?_) ⟨hnodup, hp⟩ hok
  · exact ⟨hloop.1.2, hloop.2⟩
  · obtain ⟨hrest, hreport⟩ := hstep a rest p q changed hI.2 hrun
    exact ⟨⟨hI.1.of_cons, hrest⟩, hreport⟩
  · have hdisjoint : [key a].Disjoint (rest.map key) :=
      singleton_disjoint.mpr (nodup_cons.mp hI.1).1
    exact hhere.marks_append hdisjoint hlater

end Edit

end TensorGraph
