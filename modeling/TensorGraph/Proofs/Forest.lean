import TensorGraph.Proofs.Destruction
import TensorGraph.Proofs.Growth
import TensorGraph.Proofs.Walks

/-!
Nesting is a forest. From every region the owners lead to a region that no operation owns, in every
program that is built without moving an operation into itself.
-/

namespace TensorGraph

open List Option

variable {p q : Program} {a o : OpId} {r top : RegionId} {n depth : Nat} {f : Operation → Operation}
  {command : Command} {inner outer : RegionId}

namespace Program

/-- The region lies in the operation, however deep. -/
def Inside (p : Program) (o : OpId) (r : RegionId) : Prop :=
  ∃ y, Holds p o y ∧ r ∈ p.regionsOf y

/-- The second region belongs to an operation directly in the first one. -/
def Encloses (p : Program) (outer inner : RegionId) : Prop :=
  ∃ o ∈ p.opsIn outer, inner ∈ p.regionsOf o

lemma AttachedAt.of_encloses (hroots : q.roots = p.roots) (hencloses : ∀ {outer inner},
    p.Encloses outer inner → q.Encloses outer inner) (hr : AttachedAt p n r) :
    AttachedAt q n r := by
  induction hr with
  | root hroot => exact .root (hroots ▸ hroot)
  | @nested n home inner o _ ho hinner ih =>
    obtain ⟨x, hx, hinner'⟩ := hencloses ⟨o, ho, hinner⟩
    exact .nested ih hx hinner'

/-- Consistent, and every region has an outermost one around it. -/
structure Forested (p : Program) : Prop where
  consistent : p.Consistent
  grounded : ∀ r, ∃ top n, Below p top n r

lemma Forested.empty : Forested .empty where
  consistent := .empty
  grounded r := by
    refine ⟨r, 0, .top ?_⟩
    rcases r with ⟨_ | index⟩
    · rfl
    · rfl

/-! ### Changes that keep places -/

structure SamePlaces (p q : Program) : Prop where
  parent : ∀ o, q.parentOf? o = p.parentOf? o
  owner : ∀ r, q.ownerOf? r = p.ownerOf? r

namespace SamePlaces

variable {m : Program}

lemma trans (h : SamePlaces p m) (h' : SamePlaces m q) : SamePlaces p q :=
  ⟨fun o ↦ (h'.parent o).trans (h.parent o), fun r ↦ (h'.owner r).trans (h.owner r)⟩

lemma of_sameButUsers (h : SameButUsers p q) : SamePlaces p q :=
  ⟨fun o ↦ parentOf?_congr (h.op? o), fun r ↦ ownerOf?_congr (h.region? r)⟩

lemma modifyOp (p : Program) (o : OpId) (hparent : ∀ node, (f node).parent = node.parent) :
    SamePlaces p (p.modifyOp o f) :=
  ⟨parentOf?_modifyOp p o hparent, fun _ ↦ rfl⟩

lemma modifyRegion (p : Program) (r : RegionId) {f : Region → Region}
    (howner : ∀ region, (f region).owner = region.owner) : SamePlaces p (p.modifyRegion r f) :=
  ⟨fun _ ↦ rfl, ownerOf?_modifyRegion p r howner⟩

end SamePlaces

/-- Operations that stay do not move, and a region has the owner it had, or none, unless it is new
and belongs to an operation that was there. -/
structure KeepsPlaces (p q : Program) : Prop where
  parent : ∀ o, (p.op? o).isSome → (q.op? o).isSome → q.parentOf? o = p.parentOf? o
  owner : ∀ r o, q.parentOp? r = some o →
    p.parentOp? r = some o ∨ p.region? r = none ∧ (p.op? o).isSome

namespace KeepsPlaces

variable {m : Program}

lemma same (h : KeepsPlaces p m) (hsame : SamePlaces m q) : KeepsPlaces p q where
  parent o hp hq := by
    refine (hsame.parent o).trans (h.parent o hp ?_)
    have hlive := congrArg Option.isSome (hsame.parent o)
    rw [parentOf?, parentOf?, isSome_map, isSome_map] at hlive
    rwa [← hlive]
  owner r o ho := by
    rw [parentOp?_eq_some, hsame.owner, ← parentOp?_eq_some] at ho
    exact h.owner r o ho

lemma refl (p : Program) : KeepsPlaces p p :=
  ⟨fun _ _ _ ↦ rfl, fun _ _ ↦ .inl⟩

lemma of_same (hsame : SamePlaces p q) : KeepsPlaces p q :=
  (refl p).same hsame

lemma withOp (hp : p.Consistent) (r : RegionId) (index : Nat) (new : NewOp) :
    KeepsPlaces p (p.withOp r index new) where
  parent o ho _ := by
    rw [parentOf?, hp.uses.free.op?_withOp, if_neg, parentOf?]
    rintro rfl
    simp [hp.uses.free.op?_nextOp] at ho
  owner x o ho := by
    left
    rwa [parentOp?_eq_some, ownerOf?_withOp, ← parentOp?_eq_some] at ho

lemma withRegion (ho : (p.op? o).isSome) (execution : Execution) :
    KeepsPlaces p (p.withRegion o execution) where
  parent x _ _ := parentOf?_modifyOp _ o (fun _ ↦ by rfl) x
  owner r x hx := by
    have howner : (p.withRegion o execution).ownerOf? r =
        if r = p.nextRegion then some (.op o) else p.ownerOf? r :=
          ownerOf?_pushRegion p (.op o) execution r
    rw [parentOp?_eq_some, howner] at hx
    split_ifs at hx with hr
    · right
      obtain rfl : o = x := by simpa using hx
      exact ⟨hr ▸ region?_nextRegion p, ho⟩
    · exact .inl (parentOp?_eq_some.mpr hx)

lemma pushRegion (p : Program) {owner : Owner} (howner : ∀ o, owner ≠ .op o)
    (execution : Execution) : KeepsPlaces p (p.pushRegion owner execution) where
  parent _ _ _ := rfl
  owner r o ho := by
    rw [parentOp?_eq_some, ownerOf?_pushRegion] at ho
    split_ifs at ho with hr
    · exact absurd (some.inj ho) (howner o)
    · exact .inl (parentOp?_eq_some.mpr ho)

lemma withNewGraph (hp : p.Consistent) : KeepsPlaces p p.withNewGraph where
  parent _ _ _ := rfl
  owner r o ho := by
    rw [parentOp?_eq_some, hp.placed.ownerOf?_withNewGraph] at ho
    split_ifs at ho
    · cases ho
    · cases ho
    · exact .inl (parentOp?_eq_some.mpr ho)

lemma of_prunes (hsame : SamePlaces p m) (h : Prunes m q) : KeepsPlaces p q where
  parent o _ hq := by
    rcases h.op? o with hkept | hgone
    · exact (parentOf?_congr hkept).trans (hsame.parent o)
    · simp [hgone] at hq
  owner r o ho := by
    left
    rw [parentOp?_eq_some] at ho ⊢
    rcases h.region? r with hkept | ⟨-, hcut, -⟩
    · exact ((ownerOf?_congr hkept).trans (hsame.owner r)).symm.trans ho
    · cases hcut.symm.trans ho

end KeepsPlaces

namespace Forested

lemma exists_below_of_keepsPlaces (hp : p.Consistent) (hq : q.Consistent) (hkeeps : KeepsPlaces p q)
    (hr : Below p top n r) (hregion : (p.region? r).isSome) : ∃ top' m, Below q top' m r := by
  induction hr with
  | top htop =>
    refine ⟨top, 0, .top ?_⟩
    cases howner : q.parentOp? top with
    | none => rfl
    | some o =>
      rcases hkeeps.owner top o howner with hsame | ⟨hnew, -⟩
      · cases htop.symm.trans hsame
      · simp [hnew] at hregion
  | @nested n home inner o _ ho hinner ih =>
    obtain ⟨top', m, hhome⟩ := ih (hp.isSome_region?_of_parentOf? ho)
    cases howner : q.parentOp? inner with
    | none => exact ⟨inner, 0, .top howner⟩
    | some x =>
      rcases hkeeps.owner inner x howner with hsame | ⟨hnew, -⟩
      · cases hinner.symm.trans hsame
        have hlive : (q.op? o).isSome := hq.isSome_of_parentOp? howner
        have hparent := hkeeps.parent o (isSome_of_parentOf? ho) hlive
        exact ⟨top', m + 1, hhome.nested (hparent.trans ho) howner⟩
      · simp [hnew] at hregion

lemma of_keepsPlaces (h : Forested p) (hq : q.Consistent) (hkeeps : KeepsPlaces p q) :
    Forested q where
  consistent := hq
  grounded r := by
    have hold : ∀ x, (p.region? x).isSome → ∃ top n, Below q top n x := by
      intro x hx
      obtain ⟨top, n, hbelow⟩ := h.grounded x
      exact exists_below_of_keepsPlaces h.consistent hq hkeeps hbelow hx
    cases howner : q.parentOp? r with
    | none => exact ⟨r, 0, .top howner⟩
    | some o =>
      rcases hkeeps.owner r o howner with hsame | ⟨-, hlive⟩
      · rw [parentOp?_eq_some] at hsame
        exact hold r (by simpa [ownerOf?] using congrArg Option.isSome hsame)
      · -- The owner of a new region was there, and so was the region in which it lies.
        obtain ⟨node, hnode⟩ := isSome_iff_exists.mp hlive
        have ho := parentOf?_eq hnode
        obtain ⟨top, n, hhome⟩ := hold _ (h.consistent.isSome_region?_of_parentOf? ho)
        have hparent := hkeeps.parent o hlive (hq.isSome_of_parentOp? howner)
        exact ⟨top, n + 1, hhome.nested (hparent.trans ho) howner⟩

/-! ### Moves -/

lemma below_of_outside (hp : p.Consistent) (hparent : ∀ x, x ≠ o → q.parentOf? x = p.parentOf? x)
    (howner : ∀ r, q.parentOp? r = p.parentOp? r) (hr : Below p top n r)
    (houtside : ¬ Inside p o r) :
    Below q top n r := by
  induction hr with
  | top htop => exact .top ((howner top).trans htop)
  | @nested n home inner x _ hx hinner ih =>
    have hregion : inner ∈ p.regionsOf x := hp.mem_regionsOf.mpr hinner
    have hne : x ≠ o := by
      rintro rfl
      exact houtside ⟨x, .self, hregion⟩
    have hhome : ¬ Inside p o home := by
      rintro ⟨y, hy, hhome⟩
      exact houtside ⟨x, hy.inner hhome (hp.mem_opsIn.mpr hx), hregion⟩
    exact (ih hhome).nested ((hparent x hne).trans hx) ((howner inner).trans hinner)

lemma attach (h : Forested p) {home : RegionId} {index : Nat}
    (hq : (p.movedOp o home r index).Consistent) (ho : (p.op? o).isSome)
    (houtside : ¬ Inside p o r) : Forested (p.movedOp o home r index) where
  consistent := hq
  grounded x := by
    have hparent := fun y (hy : y ≠ o) ↦ parentOf?_attach p o home r index hy
    have howner := fun y ↦ parentOp?_congr (ownerOf?_attach p o home r index y)
    have hmoved : (p.movedOp o home r index).parentOf? o = some r := by
      obtain ⟨node, hnode⟩ := isSome_iff_exists.mp ho
      rw [parentOf?, op?_attach, hnode]
      simp
    obtain ⟨top, n, hr⟩ := h.grounded r
    have htarget := below_of_outside h.consistent hparent howner hr houtside
    obtain ⟨top', n', hx⟩ := h.grounded x
    induction hx with
    | top htop => exact ⟨top', 0, .top ((howner top').trans htop)⟩
    | @nested k outer inner y _ hy hinner ih =>
      by_cases hyo : y = o
      · subst hyo
        exact ⟨top, n + 1, htarget.nested hmoved ((howner inner).trans hinner)⟩
      · obtain ⟨top'', m, houter⟩ := ih
        exact ⟨top'', m + 1, houter.nested ((hparent y hyo).trans hy) ((howner inner).trans hinner)⟩

end Forested

end Program

namespace Edit

open Program

variable {α : Type} {e : Edit α}

/-! ### What edits keep -/

lemma Keeps.forested (hkeeps : Keeps Consistent e)
    (hplaces : ∀ p, p.Consistent → KeepsPlaces p (e.exec p).2) : Keeps Forested e := fun p hp ↦
  hp.of_keepsPlaces (hkeeps p hp.consistent) (hplaces p hp.consistent)

lemma keepsPlaces_of_change {rewires : Bool} (h : Change p false rewires q) (hp : p.Consistent) :
    KeepsPlaces p q := by
  cases h with
  | modify o _ hparent => exact .of_same (.modifyOp p o hparent)
  | @reorder _ _ r => exact .of_same (.modifyRegion p r fun _ ↦ by rfl)
  | retype => exact .of_same ⟨fun _ ↦ rfl, fun _ ↦ rfl⟩
  | dropOperand o index old =>
    exact .of_same
      ((SamePlaces.modifyOp p o fun _ ↦ by rfl).trans (.of_sameButUsers (.dropUse _ o old)))
  | addArg r type =>
    exact .of_same ⟨fun _ ↦ rfl, ownerOf?_modifyRegion (p.pushValue type _) r fun _ ↦ by rfl⟩
  | addRegion o execution ho => exact .withRegion ho execution
  | addBody => exact .pushRegion p (fun _ h ↦ by cases h) .once
  | addFunc => exact .of_same ⟨fun _ ↦ rfl, fun _ ↦ rfl⟩
  | newGraph => exact .withNewGraph hp
  | modifyFunc => exact .of_same ⟨fun _ ↦ rfl, fun _ ↦ rfl⟩
  | insert r index new => exact .withOp hp r index new
  | redirect _ hne =>
    refine .of_same ⟨fun x ↦ ?_, fun r ↦ ?_⟩
    · rw [parentOf?, op?_redirected hp.uses hne, Option.map_map]
      rfl
    · rw [redirected_rest]
      rfl
  | setOperand o index v old =>
    exact .of_same
      (((SamePlaces.modifyOp p o fun _ ↦ by rfl).trans (.of_sameButUsers (.dropUse _ o old))).trans
      (.of_sameButUsers (.addUse _ o v)))
  | setOperands o =>
    exact .of_same
      (((SamePlaces.modifyOp p o fun _ ↦ by rfl).trans (.of_sameButUsers (.dropUses o _ _))).trans
      (.of_sameButUsers (.addUses o _ _)))
  | dropResult o =>
    rw [withoutResult, renumberResults_eq, renumber_rest]
    exact .of_same ⟨parentOf?_modifyOp p o fun _ ↦ by rfl, fun _ ↦ rfl⟩
  | dropArg r =>
    rw [withoutArg, renumberArgs_eq, renumber_rest]
    exact .of_same ⟨fun _ ↦ rfl, ownerOf?_modifyRegion p r fun _ ↦ by rfl⟩

lemma Through.forested (h : Through false true e) : Keeps Forested e := fun _ hp ↦
  h.keeps_of (fun ha hchange hforest ↦ hforest.of_keepsPlaces (hchange.consistent ha)
    (keepsPlaces_of_change hchange ha)) hp.consistent hp

lemma forested_setForm (o : OpId) (form : Form) : Keeps Forested (setForm o form) := by
  refine .forested (keeps_setForm o form) fun p _ ↦ ?_
  refine does_setForm.leaves (.refl p) ?_
  rintro _ _ - ⟨-, -, rfl⟩
  exact .of_prunes (.modifyOp p o fun _ ↦ by rfl) (.dropRegions _ _)

lemma forested_eraseOp (o : OpId) : Keeps Forested (eraseOp o) := by
  refine .eraseOp (fun _ _ x _ deps ↦ (makes_setControl x deps).through.forested)
    fun p r hp hparent ↦ ?_
  exact hp.of_keepsPlaces (hp.consistent.discard hparent)
    (.of_prunes (.modifyRegion p r fun _ ↦ by rfl) (.destroyToDepth _ _ o))

/-! ### What moves keep -/

lemma forested_moveOp (hp : Forested p) (index : Nat)
    (houtside : ¬ Inside p o r) : Forested ((moveOp o r index).exec p).2 := by
  refine does_moveOp.leaves hp ?_
  rintro _ _ hok ⟨home, hparent, -, -, rfl⟩
  have hq := (makes_moveOp o r index).keeps.of_ok hp.consistent hok
  exact hp.attach hq (isSome_of_parentOf? hparent) houtside

lemma forested_moveOpBefore (hp : Forested p) {anchor : OpId}
    (houtside : ∀ r, p.parentOf? anchor = some r → ¬ Inside p o r) :
    Forested ((moveOpBefore o anchor).exec p).2 := by
  have hq := (makes_moveOpBefore o anchor).keeps p hp.consistent
  rcases moveOpBefore_cases o anchor p with
    ⟨answer, hsame⟩ | ⟨home, r, hparent, -, hne, hanchor, ⟨err, herr, -⟩ | ⟨-, hok⟩⟩
  · rw [hsame]
    exact hp
  · obtain ⟨index, hindex⟩ := hp.consistent.position_detached hparent hne hanchor
    cases herr.symm.trans hindex
  · rw [hok] at hq ⊢
    exact hp.attach hq (isSome_of_parentOf? hparent) (houtside r hanchor)

end Edit

open Program

/-! ### Climbs and walks in a forest -/

namespace Program.Forested

variable (h : p.Forested)

include h

lemma exists_home (hanc : AncestorIn p r o a) : ∃ home top n, p.parentOf? o = some home ∧
    Below p top n home := by
  have hhome : ∃ home, p.parentOf? o = some home := by
    cases hanc with
    | here hparent => exact ⟨r, hparent⟩
    | @up _ _ _ home hparent => exact ⟨home, hparent⟩
  obtain ⟨home, hparent⟩ := hhome
  obtain ⟨top, n, hbelow⟩ := h.grounded home
  exact ⟨home, top, n, hparent, hbelow⟩

lemma ancestorIn?_eq_some : p.ancestorIn? r o = some a ↔ AncestorIn p r o a := by
  constructor
  · exact ancestorIn_of_ancestorIn?
  · intro hanc
    obtain ⟨home, top, n, hparent, hbelow⟩ := h.exists_home hanc
    have hclimb := hanc.ancestorWithin hparent hbelow (hbelow.lt_length h.consistent)
    rw [ancestorIn?_eq_join, hclimb, join_some]

lemma mem_walk : o ∈ p.walk r ↔ ∃ a, AncestorIn p r o a := by
  constructor
  · exact exists_ancestorIn_of_mem_opsToDepth h.consistent
  · rintro ⟨a, hanc⟩
    obtain ⟨home, top, n, hparent, hbelow⟩ := h.exists_home hanc
    exact hanc.mem_walk h.consistent hparent hbelow

lemma isWithin_iff : p.isWithin inner outer = true ↔
    inner = outer ∨ ∃ owner a, p.parentOp? inner = some owner ∧ AncestorIn p outer owner a := by
  obtain ⟨top, n, hinner⟩ := h.grounded inner
  obtain ⟨steps, hsteps⟩ := Nat.exists_eq_add_of_lt (hinner.lt_length h.consistent)
  rw [isWithin_eq_true, hsteps, climbsTo]
  split_ifs with heq
  · simp [heq]
  · cases howner : p.parentOp? inner with
    | none => simp [heq]
    | some owner =>
      obtain ⟨m, home, rfl, hparent, hhome⟩ := hinner.owner howner
      obtain ⟨node, hnode, rfl⟩ := exists_op_of_parentOf? hparent
      rw [bind_some, hnode]
      constructor
      · intro hclimb
        obtain ⟨a, hanc⟩ := exists_ancestorIn_of_climbsTo hclimb hparent
        exact .inr ⟨owner, a, rfl, hanc⟩
      · rintro (hsame | ⟨x, a, hx, hanc⟩)
        · exact absurd hsame heq
        · cases hx
          exact hanc.climbsTo hparent hhome (by omega)

lemma ancestorIn_iff : AncestorIn p r o a ↔ a ∈ p.opsIn r ∧ Holds p a o := by
  have hp := h.consistent
  constructor
  · intro hanc
    induction hanc with
    | here hparent => exact ⟨hp.mem_opsIn.mpr hparent, .self⟩
    | up hparent howner _ ih =>
      exact ⟨ih.1, ih.2.inner (hp.mem_regionsOf.mpr howner) (hp.mem_opsIn.mpr hparent)⟩
  · rintro ⟨ha, hholds⟩
    induction hholds with
    | self => exact .here (hp.mem_opsIn.mp ha)
    | inner _ hr hx ih => exact .up (hp.mem_opsIn.mp hx) (hp.mem_regionsOf.mp hr) ih

/-! ### Unbounded recursion -/

lemma encloses_below (houter : Below p top n outer)
    (hencloses : p.Encloses outer inner) : Below p top (n + 1) inner := by
  obtain ⟨o, ho, hinner⟩ := hencloses
  exact houter.nested (h.consistent.mem_opsIn.mp ho) (h.consistent.mem_regionsOf.mp hinner)

lemma wellFounded_encloses : WellFounded p.Encloses := by
  have hacc : ∀ {top r : RegionId} {n : Nat}, Below p top n r → Acc p.Encloses r := by
    intro top r n hr
    induction hr with
    | top htop =>
      refine ⟨top, fun outer hencloses ↦ ?_⟩
      obtain ⟨o, -, hinner⟩ := hencloses
      cases htop.symm.trans (h.consistent.mem_regionsOf.mp hinner)
    | @nested n home inner o _ ho hinner ih =>
      refine ⟨inner, fun outer hencloses ↦ ?_⟩
      obtain ⟨x, hx, hmem⟩ := hencloses
      cases hinner.symm.trans (h.consistent.mem_regionsOf.mp hmem)
      cases ho.symm.trans (h.consistent.mem_opsIn.mp hx)
      exact ih
  refine ⟨fun r ↦ ?_⟩
  obtain ⟨top, n, hr⟩ := h.grounded r
  exact hacc hr

lemma wellFounded_enclosed : WellFounded fun inner outer ↦ p.Encloses outer inner := by
  have hacc : ∀ (k : Nat) {top r : RegionId} {n : Nat}, Below p top n r → p.regions.length ≤ n + k →
      Acc (fun inner outer ↦ p.Encloses outer inner) r := by
    intro k
    induction k with
    | zero =>
      intro top r n hr hk
      exact absurd (hr.lt_length h.consistent) (by omega)
    | succ k ih =>
      intro top r n hr hk
      exact ⟨r, fun inner hencloses ↦ ih (h.encloses_below hr hencloses) (by omega)⟩
  refine ⟨fun r ↦ ?_⟩
  obtain ⟨top, n, hr⟩ := h.grounded r
  exact hacc p.regions.length hr (by omega)

lemma ancestorIn?_eq (r : RegionId) (o : OpId) : p.ancestorIn? r o = (p.parentOf? o).bind fun home ↦
      if home = r then some o else (p.parentOp? home).bind (p.ancestorIn? r) := by
  ext a
  rw [h.ancestorIn?_eq_some, bind_eq_some_iff]
  constructor
  · intro hanc
    rcases hanc with hparent | @⟨_, owner, _, home, hparent, howner, habove⟩
    · exact ⟨r, hparent, if_pos rfl⟩
    · obtain ⟨top, n, hbelow⟩ := h.grounded home
      have hne : home ≠ r := by
        rintro rfl
        exact AncestorIn.not_of_below hbelow howner habove
      refine ⟨home, hparent, ?_⟩
      rw [if_neg hne, howner, bind_some, h.ancestorIn?_eq_some]
      exact habove
  · rintro ⟨home, hparent, hclimb⟩
    split_ifs at hclimb with heq
    · cases hclimb
      exact .here (heq ▸ hparent)
    · obtain ⟨owner, howner, habove⟩ := bind_eq_some_iff.mp hclimb
      exact .up hparent howner (h.ancestorIn?_eq_some.mp habove)

lemma isWithin_eq (inner outer : RegionId) : p.isWithin inner outer =
    (decide (inner = outer) || ((p.parentOp? inner).bind p.parentOf?).any fun home ↦
    p.isWithin home outer) := by
  rw [Bool.eq_iff_iff, Bool.or_eq_true, decide_eq_true_iff, h.isWithin_iff]
  refine or_congr_right ?_
  rw [Option.any_eq_true]
  constructor
  · rintro ⟨owner, a, howner, hanc⟩
    rcases hanc with hparent | @⟨_, owner', _, home, hparent, howner', habove⟩
    · exact ⟨outer, by rw [howner, bind_some, hparent], h.isWithin_iff.mpr (.inl rfl)⟩
    · exact ⟨home, by rw [howner, bind_some, hparent], h.isWithin_iff.mpr
        (.inr ⟨owner', a, howner', habove⟩)⟩
  · rintro ⟨home, hhome, hwithin⟩
    obtain ⟨owner, howner, hparent⟩ := bind_eq_some_iff.mp hhome
    obtain ⟨a, hanc⟩ := exists_ancestorIn_of_isWithin hparent hwithin
    exact ⟨owner, a, howner, hanc⟩

lemma opsToDepth_succ_eq (hr : Below p top n r) (hdepth : p.regions.length ≤ n + depth) :
    p.opsToDepth (depth + 1) r = p.opsToDepth depth r := by
  induction depth generalizing n r with
  | zero => exact absurd (hr.lt_length h.consistent) (by omega)
  | succ depth ih =>
    rw [opsToDepth, opsToDepth]
    refine flatMap_congr fun o ho ↦ congrArg (o :: ·) (flatMap_congr fun inner hinner ↦ ?_)
    exact ih (h.encloses_below hr ⟨o, ho, hinner⟩) (by omega)

lemma regionsToDepth_succ_eq (hr : Below p top n r) (hdepth : p.regions.length ≤ n + depth) :
    p.regionsToDepth (depth + 1) r = p.regionsToDepth depth r := by
  induction depth generalizing n r with
  | zero => exact absurd (hr.lt_length h.consistent) (by omega)
  | succ depth ih =>
    rw [regionsToDepth, regionsToDepth]
    refine congrArg (r :: ·) (flatMap_congr fun o ho ↦ flatMap_congr fun inner hinner ↦ ?_)
    exact ih (h.encloses_below hr ⟨o, ho, hinner⟩) (by omega)

/-- Without cycles a walk follows the nesting, and the bound on its depth cuts nothing off. -/
theorem walk_eq (r : RegionId) : p.walk r = (p.opsIn r).flatMap fun o ↦ o ::
    (p.regionsOf o).flatMap p.walk := by
  obtain ⟨top, n, hr⟩ := h.grounded r
  exact (h.opsToDepth_succ_eq hr (by omega)).symm

lemma regionsToDepth_eq (r : RegionId) : p.regionsToDepth p.regions.length r = r ::
    (p.opsIn r).flatMap fun o ↦ (p.regionsOf o).flatMap (p.regionsToDepth p.regions.length) := by
  obtain ⟨top, n, hr⟩ := h.grounded r
  exact (h.regionsToDepth_succ_eq hr (by omega)).symm

end Program.Forested

/-! ### Programs that are built without cycles -/

/-- The command moves no operation into a region inside of that operation. -/
def Command.Acyclic (p : Program) : Command → Prop
  | .move o r _ => ¬ p.Inside o r
  | .moveBefore o anchor => ∀ r, p.parentOf? anchor = some r → ¬ p.Inside o r
  | _ => True

lemma Command.acyclic_of_still (hstill : command.isMove = false) (p : Program) :
    command.Acyclic p := by
  cases command with
  | move o r index => cases hstill
  | moveBefore o anchor => cases hstill
  | _ => trivial

/-- Built by commands of which none moves an operation into itself. -/
inductive AcyclicallyBuilt : Program → Prop where
  | empty : AcyclicallyBuilt .empty
  | step {p : Program} {command : Command} (h : AcyclicallyBuilt p) (hacyclic : command.Acyclic p) :
      AcyclicallyBuilt (command.apply p)

open Edit in
lemma Command.forested_apply (hp : p.Forested) (hacyclic : command.Acyclic p) :
    (command.apply p).Forested := by
  by_cases hstill : command.isSparing = true ∧ command.isMove = false
  · have hthrough : Through false true command.run := command.through_run hstill.1
      (fun hmoves ↦ absurd (hstill.2.symm.trans hmoves) Bool.false_ne_true) fun _ ↦ rfl
    exact hthrough.forested p hp
  · cases command with
    | setForm o form => exact Keeps.bind (forested_setForm o form) (fun _ ↦ .pure _) p hp
    | erase o => exact Keeps.bind (forested_eraseOp o) (fun _ ↦ .pure _) p hp
    | move o r index =>
      exact Keeps.of_bind (forested_moveOp hp index hacyclic) (fun _ h ↦ h) fun _ _ h ↦ h
    | moveBefore o anchor =>
      exact Keeps.of_bind (forested_moveOpBefore hp hacyclic) (fun _ h ↦ h) fun _ _ h ↦ h
    | _ => exact absurd ⟨rfl, rfl⟩ hstill

namespace AcyclicallyBuilt

lemma reachable (h : AcyclicallyBuilt p) : Reachable p := by
  induction h with
  | empty => exact .empty
  | step _ _ ih => exact ih.step _

lemma forested (h : AcyclicallyBuilt p) : p.Forested := by
  induction h with
  | empty => exact .empty
  | step _ hacyclic ih => exact Command.forested_apply ih hacyclic

lemma of_still {commands : List Command} (hstill : commands.all (!·.isMove) = true) :
    AcyclicallyBuilt (.built commands) := by
  suffices hfold : ∀ {p}, AcyclicallyBuilt p →
      AcyclicallyBuilt (commands.foldl (fun p command ↦ command.apply p) p) from hfold .empty
  induction commands with
  | nil => exact fun h ↦ h
  | cons command rest ih =>
    intro p h
    rw [all_cons, Bool.and_eq_true] at hstill
    exact ih hstill.2 (h.step (Command.acyclic_of_still (by simpa using hstill.1) p))

/-- Nesting is a forest, in which climbing and walking agree: from every region the owners lead up
to one that no operation owns, so that all ways up and down end and the bounded climbs and walks are
those without a bound. The walks from all roots list what lies below a root, once. The ancestor of
an operation in a region is the operation directly there that holds it, and is found where the walk
over the region finds the operation. A region lies within another one if it is that one or its owner
is found in it. -/
theorem nesting_is_forest {p : Program} (h : AcyclicallyBuilt p) : (∀ r, ∃ top n, Below p top n r) ∧
    (WellFounded p.Encloses ∧ WellFounded (fun inner outer ↦ p.Encloses outer inner) ∧
      (∀ r o, p.ancestorIn? r o = (p.parentOf? o).bind fun home ↦
        if home = r then some o else (p.parentOp? home).bind (p.ancestorIn? r)) ∧
      (∀ inner outer, p.isWithin inner outer =
        (decide (inner = outer) || ((p.parentOp? inner).bind p.parentOf?).any fun home ↦
        p.isWithin home outer)) ∧
      (∀ r, p.walk r = (p.opsIn r).flatMap fun o ↦ o :: (p.regionsOf o).flatMap p.walk) ∧
      ∀ r, p.regionsToDepth p.regions.length r = r :: (p.opsIn r).flatMap fun o ↦
        (p.regionsOf o).flatMap (p.regionsToDepth p.regions.length)) ∧
    (p.allOps.Nodup ∧ p.allRegions.Nodup ∧ (∀ o, o ∈ p.allOps ↔ ∃ home,
      p.parentOf? o = some home ∧ ∃ top ∈ p.roots, ∃ n, Below p top n home) ∧
      ∀ r, r ∈ p.allRegions ↔ ∃ top ∈ p.roots, ∃ n, Below p top n r) ∧
    (∀ r o, ((p.ancestorIn? r o).isSome ↔ o ∈ p.walk r) ∧
      ∀ a, p.ancestorIn? r o = some a ↔ a ∈ p.opsIn r ∧ Holds p a o) ∧
    ∀ inner outer, p.isWithin inner outer = true ↔
      inner = outer ∨ ∃ owner, p.parentOp? inner = some owner ∧ owner ∈ p.walk outer := by
  have hforest := h.forested
  have hp := hforest.consistent
  have hattached : ∀ r, p.Attached r ↔ ∃ top ∈ p.roots, ∃ n, Below p top n r := by
    intro r
    constructor
    · rintro ⟨n, hat⟩
      obtain ⟨top, htop, hbelow⟩ := hat.exists_below hp
      exact ⟨top, htop, n, hbelow⟩
    · rintro ⟨top, htop, n, hbelow⟩
      exact ⟨n, hbelow.attachedAt hp htop⟩
  refine ⟨hforest.grounded,
    ⟨hforest.wellFounded_encloses, hforest.wellFounded_enclosed, hforest.ancestorIn?_eq,
    hforest.isWithin_eq, hforest.walk_eq, hforest.regionsToDepth_eq⟩,
    ⟨nodup_allOps hp h.reachable.nodup_roots, nodup_allRegions hp h.reachable.nodup_roots, ?_, ?_⟩,
    fun r o ↦ ⟨?_, fun a ↦ ?_⟩, fun inner outer ↦ ?_⟩
  · intro o
    rw [mem_allOps hp]
    constructor
    · rintro ⟨home, hhome, hparent⟩
      exact ⟨home, hparent, (hattached home).mp hhome⟩
    · rintro ⟨home, hparent, hhome⟩
      exact ⟨home, (hattached home).mpr hhome, hparent⟩
  · intro r
    rw [mem_allRegions hp, hattached]
  · simp only [isSome_iff_exists, hforest.ancestorIn?_eq_some, hforest.mem_walk]
  · rw [hforest.ancestorIn?_eq_some, hforest.ancestorIn_iff]
  · simp only [hforest.isWithin_iff, hforest.mem_walk, exists_and_left]

/-- Two operations with a region each, and in the first region an operation with a region of its
own. -/
def twoBranches : Program :=
  .built [
    .node 0 "first", .addRegion ⟨0⟩ .once, .node 1 "nested", .addRegion ⟨1⟩ .once, .node 2 "leaf",
    .node 0 "second", .addRegion ⟨3⟩ .once]

/-- The nested operation is moved from the first region to the second one and takes its own region
along. -/
theorem nesting_after_move :
    let q := (Command.move ⟨1⟩ ⟨3⟩ 0).apply twoBranches
    AcyclicallyBuilt q ∧ q.ancestorIn? ⟨3⟩ ⟨2⟩ = some ⟨1⟩ ∧ ⟨2⟩ ∈ q.walk ⟨3⟩ ∧ Holds q ⟨1⟩ ⟨2⟩ ∧
      q.isWithin ⟨2⟩ ⟨3⟩ = true ∧ ⟨2⟩ ∉ q.walk ⟨1⟩ := by
  intro q
  have hheld : ∀ x, Holds twoBranches ⟨1⟩ x → x = ⟨1⟩ ∨ x = ⟨2⟩ := by
    intro x hx
    induction hx with
    | self => exact .inl rfl
    | inner _ hr hx ih =>
      rcases ih with rfl | rfl
      · obtain rfl := mem_singleton.mp hr
        exact .inr (mem_singleton.mp hx)
      · cases hr
  have houtside : ¬ twoBranches.Inside ⟨1⟩ ⟨3⟩ := by
    rintro ⟨y, hy, hr⟩
    rcases hheld y hy with rfl | rfl
    · cases mem_singleton.mp hr
    · cases hr
  have hbuilt : AcyclicallyBuilt q := (of_still rfl).step houtside
  obtain ⟨-, -, -, hclimb, hwithin⟩ := hbuilt.nesting_is_forest
  have hfound : q.ancestorIn? ⟨3⟩ ⟨2⟩ = some ⟨1⟩ := by rfl
  refine ⟨hbuilt, hfound, (hclimb ⟨3⟩ ⟨2⟩).1.mp (by rw [hfound]; rfl),
    ((hclimb _ _).2 _).mp hfound |>.2, (hwithin _ _).mpr (.inr ⟨⟨1⟩, rfl, ?_⟩), fun hmem ↦ ?_⟩
  · exact (hclimb ⟨3⟩ ⟨1⟩).1.mp (by rfl)
  · have hsome := (hclimb ⟨1⟩ ⟨2⟩).1.mpr hmem
    cases hsome

end AcyclicallyBuilt

end TensorGraph
