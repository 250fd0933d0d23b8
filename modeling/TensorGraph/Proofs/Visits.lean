import Mathlib.Data.Finset.Card
import Mathlib.Data.List.Flatten
import TensorGraph.Proofs.Growth

/-!
Walks that meet operations and regions alike. What lies directly inside an operation are its
regions, and what lies directly inside a region are its operations.
-/

namespace TensorGraph

open Relation List

/-- What a walk meets. -/
inductive Visit where
  | op (o : OpId)
  | region (r : RegionId)
  deriving DecidableEq

namespace Program

section

variable (p : Program)

/-- The values that are there once the operation or the region has been met. -/
def defines : Visit → List ValueId
  | .op o => p.resultsOf o
  | .region r => p.argsOf r

/-- What lies directly inside. -/
def inside : Visit → List Visit
  | .op o => (p.regionsOf o).map .region
  | .region r => (p.opsIn r).map .op

def Has : Visit → Prop
  | .op o => (p.op? o).isSome
  | .region r => (p.region? r).isSome

/-- What something lies directly inside of. -/
def holder? : Visit → Option Visit
  | .op o => (p.parentOf? o).map .region
  | .region r => (p.parentOp? r).map .op

/-- The first lies in the second, however deep. -/
def LiesIn : Visit → Visit → Prop :=
  TransGen fun b a ↦ p.holder? b = some a

end

/-- What lies inside down to the given depth, each before what lies in it. -/
def tour (p : Program) : Nat → Visit → List Visit
  | 0, _ => []
  | depth + 1, a => (p.inside a).flatMap fun b ↦ b :: tour p depth b

/-- All that lies in a region, each before what lies in it. -/
def contents (p : Program) (r : RegionId) : List Visit :=
  p.tour (2 * p.regions.length) (.region r)

def Exhausts (p : Program) : Nat → Visit → Prop
  | 0, a => p.inside a = []
  | depth + 1, a => ∀ b ∈ p.inside a, Exhausts p depth b

variable {p : Program} {a b c : Visit} {o : OpId} {r : RegionId} {v : ValueId} {n : Nat}

lemma defines_op {node : Operation} (h : p.op? o = some node) : p.defines (.op o) = node.results :=
  resultsOf_eq h

lemma defines_region {region : Region} (h : p.region? r = some region) :
    p.defines (.region r) = region.args :=
  argsOf_eq h

lemma mem_tour_succ : c ∈ p.tour (n + 1) a ↔ ∃ b ∈ p.inside a, c = b ∨ c ∈ p.tour n b := by
  simp [tour]

lemma filterMap_tour (p : Program) (n : Nat) (r : RegionId) :
    (p.tour (2 * n) (.region r)).filterMap (fun | .op o => some o | .region _ => none) =
    p.opsToDepth n r := by
  induction n generalizing r with
  | zero => rfl
  | succ n ih =>
    simp only [Nat.mul_succ, tour, inside, opsToDepth, flatMap_map, filterMap_flatMap,
      filterMap_cons, ih]

lemma op_mem_tour : .op o ∈ p.tour (2 * n) (.region r) ↔ o ∈ p.opsToDepth n r := by
  rw [← filterMap_tour, mem_filterMap]
  constructor
  · exact fun h ↦ ⟨_, h, rfl⟩
  · rintro ⟨_ | _, h, heq⟩
    · exact Option.some.inj heq ▸ h
    · cases heq

/-! ### Nothing in itself -/

lemma LiesIn.of_step (hstep : p.holder? b = some c) (hb : p.LiesIn b b) : p.LiesIn c c := by
  obtain ⟨d, hd, hback⟩ := TransGen.head'_iff.mp hb
  cases hd.symm.trans hstep
  exact .tail' hback hstep

lemma LiesIn.irrefl (h : p.LiesIn b a) (ha : ¬ p.LiesIn a a) : ¬ p.LiesIn b b := by
  induction h using TransGen.head_induction_on with
  | single hstep => exact fun hb ↦ ha (hb.of_step hstep)
  | head hstep _ ih => exact fun hb ↦ ih (hb.of_step hstep)

section Consistent

variable (h : p.Consistent)

include h

lemma mem_inside : b ∈ p.inside a ↔ p.holder? b = some a := by
  cases a <;> cases b <;> simp [inside, holder?, h.mem_opsIn, h.mem_regionsOf]

lemma nodup_inside (a : Visit) : (p.inside a).Nodup := by
  cases a with
  | op o => exact (h.placed.ownedOnce o).map fun _ _ heq ↦ Visit.region.inj heq
  | region r => exact (h.placed.once r).map fun _ _ heq ↦ Visit.op.inj heq

lemma Consistent.has_of_mem_inside (hb : b ∈ p.inside a) : p.Has b := by
  cases a with
  | op o =>
    obtain ⟨r, hr, rfl⟩ := mem_map.mp hb
    exact h.isSome_region?_of_mem_regionsOf hr
  | region r =>
    obtain ⟨o, ho, rfl⟩ := mem_map.mp hb
    exact h.isSome_of_mem_opsIn ho

lemma Consistent.eq_of_mem_defines (ha : v ∈ p.defines a) (hb : v ∈ p.defines b) : a = b := by
  cases a with
  | op o =>
    cases b with
    | op o' => exact congrArg _ (h.eq_of_mem_resultsOf ha hb)
    | region r => exact absurd hb (h.not_mem_argsOf ha)
  | region r =>
    cases b with
    | op o => exact absurd ha (h.not_mem_argsOf hb)
    | region r' => exact congrArg _ (h.eq_of_mem_argsOf ha hb)

lemma Consistent.nodup_defines (a : Visit) : (p.defines a).Nodup := by
  cases a with
  | op o => exact h.nodup_resultsOf o
  | region r => exact h.nodup_argsOf r

lemma Consistent.lt_of_mem_defines (hv : v ∈ p.defines a) : v.index < p.values.length := by
  cases a with
  | op o => exact h.lt_of_mem_resultsOf hv
  | region r => exact h.lt_of_mem_argsOf hv

/-! ### What a tour meets -/

lemma liesIn_of_mem_tour (hb : b ∈ p.tour n a) : p.LiesIn b a := by
  induction n generalizing a with
  | zero => cases hb
  | succ n ih =>
    obtain ⟨c, hc, rfl | hb⟩ := mem_tour_succ.mp hb
    · exact .single ((mem_inside h).mp hc)
    · exact (ih hb).tail ((mem_inside h).mp hc)

lemma nodup_tour (ha : ¬ p.LiesIn a a) (n : Nat) : (p.tour n a).Nodup := by
  induction n generalizing a with
  | zero => exact .nil
  | succ n ih =>
    have hinner : ∀ b ∈ p.inside a, ¬ p.LiesIn b b :=
      fun b hb ↦ LiesIn.irrefl (.single ((mem_inside h).mp hb)) ha
    have hback : ∀ b ∈ p.inside a, ∀ x, x ∈ b :: p.tour n b →
        ReflTransGen (fun b a ↦ p.holder? b = some a) x b := by
      intro b _ x hx
      rcases mem_cons.mp hx with rfl | hx
      · exact .refl
      · exact (liesIn_of_mem_tour h hx).to_reflTransGen
    -- Two things directly inside have nothing in common: one would lie in the other, and with it
    -- all of `a`.
    have hapart : ∀ b ∈ p.inside a, ∀ c ∈ p.inside a, b ≠ c →
        ¬ ReflTransGen (fun b a ↦ p.holder? b = some a) b c := by
      intro b hb c hc hne hpath
      obtain heq | ⟨d, hd, hrest⟩ := hpath.cases_head
      · exact hne heq
      · cases hd.symm.trans ((mem_inside h).mp hb)
        exact ha (.tail' hrest ((mem_inside h).mp hc))
    refine nodup_flatMap.mpr ⟨fun b hb ↦ nodup_cons.mpr ⟨fun hmem ↦ ?_, ih (hinner b hb)⟩, ?_⟩
    · exact hinner b hb (liesIn_of_mem_tour h hmem)
    · refine (nodup_inside h a).imp_of_mem fun {b c} hb hc hne x hx hx' ↦ ?_
      have hright : Relator.RightUnique fun b a ↦ p.holder? b = some a := fun x y z hy hz ↦
        Option.some.inj (hy.symm.trans hz)
      rcases (hback b hb x hx).total_of_right_unique hright (hback c hc x hx') with hpath | hpath
      · exact hapart b hb c hc hne hpath
      · exact hapart c hc b hb hne.symm hpath

omit h in
lemma inside_sublist_tour (hexhausts : p.Exhausts n a) (hc : c ∈ a :: p.tour n a) :
    (p.inside c).Sublist (p.tour n a) := by
  induction n generalizing a with
  | zero =>
    obtain rfl := mem_singleton.mp hc
    rw [show p.inside c = [] from hexhausts]
    exact nil_sublist _
  | succ n ih =>
    rw [tour]
    rcases mem_cons.mp hc with rfl | hc
    · induction p.inside c with
      | nil => exact nil_sublist _
      | cons b rest ihrest => exact .cons_cons b (ihrest.trans (sublist_append_right _ _))
    · obtain ⟨b, hb, hc⟩ := mem_tour_succ.mp hc
      refine (ih (hexhausts b hb) (mem_cons.mpr hc)).trans ?_
      refine (sublist_cons_self b _).trans ?_
      exact sublist_flatten_of_mem (mem_map_of_mem hb)

lemma filter_tour (ha : ¬ p.LiesIn a a) (hexhausts : p.Exhausts n a) (hc : c ∈ a :: p.tour n a) :
    (p.tour n a).filter (p.holder? · = some c) = p.inside c := by
  have hsub : (p.inside c).Sublist ((p.tour n a).filter (p.holder? · = some c)) := by
    have hself : (p.inside c).filter (p.holder? · = some c) = p.inside c :=
      filter_eq_self.mpr fun b hb ↦ decide_eq_true ((mem_inside h).mp hb)
    rw [← hself]
    exact (inside_sublist_tour hexhausts hc).filter _
  refine (hsub.eq_of_length_le ?_).symm
  refine (subperm_of_subset ((nodup_tour h ha n).filter _) fun b hb ↦ ?_).length_le
  exact (mem_inside h).mpr (of_decide_eq_true (mem_filter.mp hb).2)

section

variable (hr : ¬ p.LiesIn (.region r) (.region r))

include hr

lemma exhausts_of_regions (inner : Finset RegionId)
    (hinner : ∀ x, p.LiesIn (.region x) (.region r) → x ∈ inner) (hcard : inner.card < n) :
    p.Exhausts (2 * n) (.region r) := by
  classical
  induction n generalizing r inner with
  | zero => cases hcard
  | succ n ih =>
    intro b hb c hc
    obtain ⟨o, ho, rfl⟩ := mem_map.mp hb
    obtain ⟨x, hx, rfl⟩ := mem_map.mp hc
    have hstep : p.LiesIn (.region x) (.region r) := .tail (.single ((mem_inside h).mp hc))
      ((mem_inside h).mp hb)
    have hself := hstep.irrefl hr
    refine ih hself (inner.erase x) (fun y hy ↦ ?_) ?_
    · refine Finset.mem_erase.mpr ⟨?_, hinner y (hy.trans hstep)⟩
      rintro rfl
      exact hself hy
    · exact Nat.lt_of_lt_of_le (Finset.card_erase_lt_of_mem (hinner x hstep))
        (Nat.lt_succ_iff.mp hcard)

lemma exhausts (hregion : p.Has (.region r)) : p.Exhausts (2 * p.regions.length) (.region r) := by
  classical
  have hbounded : ∀ x, p.Has (.region x) →
      x ∈ (Finset.range p.regions.length).image RegionId.mk := by
    intro x hx
    refine Finset.mem_image.mpr ⟨x.index, Finset.mem_range.mpr ?_, rfl⟩
    by_contra hge
    have hnone : p.region? x = none := getElem?_eq_none (Nat.le_of_not_lt hge)
    have hsome : (p.region? x).isSome := hx
    simp [hnone] at hsome
  refine exhausts_of_regions h hr (((Finset.range p.regions.length).image RegionId.mk).erase r)
    (fun x hx ↦ Finset.mem_erase.mpr ⟨?_, hbounded x ?_⟩) ?_
  · rintro rfl
    exact hr hx
  · obtain ⟨a, hstep, -⟩ := TransGen.head'_iff.mp hx
    exact h.has_of_mem_inside ((mem_inside h).mpr hstep)
  · refine Nat.lt_of_lt_of_le (Finset.card_erase_lt_of_mem (hbounded r hregion)) ?_
    exact Finset.card_image_le.trans (Finset.card_range _).le

lemma mem_contents (hregion : p.Has (.region r)) : a ∈ p.contents r ↔ p.LiesIn a (.region r) := by
  refine ⟨liesIn_of_mem_tour h, fun hin ↦ ?_⟩
  have hinside : ∀ {b}, b ∈ .region r :: p.contents r → p.inside b ⊆ p.contents r := fun hb ↦
    (inside_sublist_tour (exhausts h hr hregion) hb).subset
  induction hin using TransGen.head_induction_on with
  | single hstep => exact hinside mem_cons_self ((mem_inside h).mpr hstep)
  | head hstep _ ih => exact hinside (mem_cons_of_mem _ ih) ((mem_inside h).mpr hstep)

end

lemma not_liesIn_of_root (hr : r ∈ p.roots) : ¬ p.LiesIn (.region r) a := by
  intro hin
  obtain ⟨b, hstep, -⟩ := TransGen.head'_iff.mp hin
  simp [holder?, h.parentOp?_of_root hr] at hstep

end Consistent

end Program

end TensorGraph
