import Mathlib.Data.List.Forall2
import TensorGraph.TensorType

/-!
The order of types. A type refines another if their meet is the type itself.
-/

namespace TensorGraph

open List Option

variable {as bs cs : List Dim} {a b : Dim} {α : Type}

/-! ### Meets and joins -/

/-- Meets are greatest lower bounds, and there is one wherever there is a lower bound; joins are
least upper bounds. The order is the one by the meet: `a` is below `b` if their meet is `a`. -/
structure PartialLattice {α : Type} (meet : α → α → Option α) (join : α → α → α) : Prop where
  self : ∀ a, meet a a = some a
  comm : ∀ a b, meet a b = meet b a
  trans : ∀ {a b c}, meet a b = some a → meet b c = some b → meet a c = some a
  greatest : ∀ {a b m}, meet a b = some m →
    ∀ c, meet c m = some c ↔ meet c a = some c ∧ meet c b = some c
  bounded : ∀ {a b c}, meet c a = some c → meet c b = some c → (meet a b).isSome
  least : ∀ a b c, meet (join a b) c = some (join a b) ↔ meet a c = some a ∧ meet b c = some b

namespace PartialLattice

lemma flat [DecidableEq α] {meet : α → α → Option α} {join : α → α → α} (top : α)
    (hleft : ∀ a, meet top a = some a) (hright : ∀ a, meet a top = some a)
    (hmeet : ∀ a b, a ≠ top → b ≠ top → meet a b = if a = b then some a else none)
    (hjoin : ∀ a b, join a b = if a = b then a else top) : PartialLattice meet join := by
  have hbelow : ∀ a b, meet a b = some a ↔ b = top ∨ a = b := by
    intro a b
    by_cases hb : b = top
    · simp [hb, hright]
    · by_cases ha : a = top
      · simp [ha, hleft, hb, eq_comm]
      · simp [hmeet a b ha hb, hb]
  refine ⟨fun a ↦ ?_, fun a b ↦ ?_, fun {a b c} h h' ↦ ?_, fun {a b m} h c ↦ ?_, fun {a b c} h h' ↦
    ?_, fun a b c ↦ ?_⟩
  · exact (hbelow a a).mpr (.inr rfl)
  · grind
  · grind
  · grind
  · grind
  · simp only [hbelow, hjoin]
    grind

variable {α : Type} {meet : α → α → Option α} {join : α → α → α} (h : PartialLattice meet join)
  {a b m : α} {sizes : List UInt64}

include h

lemma antisymm (hab : meet a b = some a) (hba : meet b a = some b) : a = b := by
  rw [h.comm, hba] at hab
  exact (some.inj hab).symm

lemma absorb (hm : meet a b = some m) : meet m a = some m ∧ meet m b = some m :=
  (h.greatest hm m).mp (h.self m)

lemma meet_eq_some_iff : meet a b = some m ↔ ∀ c, meet c m = some c ↔ meet c a = some c ∧
    meet c b = some c := by
  refine ⟨h.greatest, fun hm ↦ ?_⟩
  obtain ⟨ha, hb⟩ := (hm m).mp (h.self m)
  obtain ⟨n, hn⟩ := isSome_iff_exists.mp (h.bounded ha hb)
  have hmn : m = n := h.antisymm ((h.greatest hn m).mpr ⟨ha, hb⟩) ((hm n).mpr (h.absorb hn))
  rw [hn, hmn]

lemma assoc (a b c : α) : (meet a b).bind (meet · c) = (meet b c).bind (meet a ·) := by
  -- One inclusion is enough, as the meet is commutative.
  have hleft : ∀ a b c m, (meet a b).bind (meet · c) = some m →
      (meet b c).bind (meet a ·) = some m := by
    intro a b c m hm
    obtain ⟨n, hn, hnc⟩ := bind_eq_some_iff.mp hm
    obtain ⟨hmn, hmc⟩ := h.absorb hnc
    obtain ⟨-, hmb⟩ := (h.greatest hn m).mp hmn
    obtain ⟨k, hk⟩ := isSome_iff_exists.mp (h.bounded hmb hmc)
    refine bind_eq_some_iff.mpr ⟨k, hk, h.meet_eq_some_iff.mpr fun x ↦ ?_⟩
    rw [h.greatest hnc, h.greatest hn, h.greatest hk, and_assoc]
  refine Option.ext fun m ↦ ⟨hleft a b c m, fun hm ↦ ?_⟩
  have hflip : ∀ x y z, (meet x y).bind (meet z ·) = (meet y x).bind (meet · z) := by
    intro x y z
    rw [h.comm x y]
    exact congrArg _ (funext fun n ↦ h.comm z n)
  rw [hflip] at hm
  have := hleft c b a m hm
  rwa [hflip] at this

section

variable {a' b' : α} (ha : meet a a' = some a) (hb : meet b b' = some b)

include ha hb

lemma mono (hm : meet a b = some m) : ∃ m', meet a' b' = some m' ∧ meet m m' = some m := by
  obtain ⟨hma, hmb⟩ := h.absorb hm
  obtain ⟨m', hm'⟩ := isSome_iff_exists.mp (h.bounded (h.trans hma ha) (h.trans hmb hb))
  exact ⟨m', hm', (h.greatest hm' m).mpr ⟨h.trans hma ha, h.trans hmb hb⟩⟩

lemma join_mono : meet (join a b) (join a' b') = some (join a b) := by
  obtain ⟨hleft, hright⟩ := (h.least a' b' _).mp (h.self (join a' b'))
  exact (h.least a b _).mpr ⟨h.trans ha hleft, h.trans hb hright⟩

end

end PartialLattice

/-! ### Dimensions and element types -/

lemma Dim.partialLattice : PartialLattice Dim.meet Dim.join := by
  refine .flat .unknown (fun _ ↦ rfl) (fun a ↦ by cases a <;> rfl)
    (fun a b ha hb ↦ ?_) fun _ _ ↦ rfl
  cases a with
  | unknown => exact absurd rfl ha
  | known m =>
    cases b with
    | unknown => exact absurd rfl hb
    | known n => simp [Dim.meet]

lemma TensorType.partialLattice_element : PartialLattice meetElement fun a b ↦
    if a = b then a else none := by
  refine .flat none (fun a ↦ by cases a <;> rfl) (fun a ↦ by cases a <;> rfl)
    (fun a b ha hb ↦ ?_) fun _ _ ↦ rfl
  obtain ⟨m, rfl⟩ := ne_none_iff_exists'.mp ha
  obtain ⟨n, rfl⟩ := ne_none_iff_exists'.mp hb
  simp [meetElement]

/-! ### Lists of dimensions -/

lemma meetDims_cons_eq_some : meetDims (a :: as) (b :: bs) = some cs ↔ ∃ d rest,
    a.meet b = some d ∧ meetDims as bs = some rest ∧ cs = d :: rest := by
  simp only [meetDims, bind_eq_bind, bind_eq_some_iff, Option.pure_def, some.injEq]
  grind

def RefineAll : List Dim → List Dim → Prop :=
  Forall₂ fun d e ↦ d.meet e = some d

lemma refineAll_cons : RefineAll (a :: as) (b :: bs) ↔ a.meet b = some a ∧ RefineAll as bs :=
  forall₂_cons

lemma meetDims_eq_left_iff : meetDims as bs = some as ↔ RefineAll as bs := by
  induction as generalizing bs with
  | nil => cases bs <;> simp [meetDims, RefineAll]
  | cons a as ih =>
    cases bs with
    | nil => simp [meetDims, RefineAll]
    | cons b bs =>
      rw [meetDims_cons_eq_some, refineAll_cons, ← ih]
      grind

lemma meetDims_comm (as bs : List Dim) : meetDims as bs = meetDims bs as := by
  induction as generalizing bs with
  | nil => cases bs <;> rfl
  | cons a as ih =>
    cases bs with
    | nil => rfl
    | cons b bs => rw [meetDims, meetDims, Dim.partialLattice.comm, ih]

lemma refineAll_meetDims_iff {ms : List Dim} (hm : meetDims as bs = some ms) (cs : List Dim) :
    RefineAll cs ms ↔ RefineAll cs as ∧ RefineAll cs bs := by
  induction as generalizing bs ms cs with
  | nil =>
    cases bs with
    | nil => simp [← some.inj hm]
    | cons b bs => cases hm
  | cons a as ih =>
    cases bs with
    | nil => cases hm
    | cons b bs =>
      obtain ⟨d, rest, hd, hrest, rfl⟩ := meetDims_cons_eq_some.mp hm
      cases cs with
      | nil => simp [RefineAll]
      | cons c cs =>
        rw [refineAll_cons, refineAll_cons, refineAll_cons,
          Dim.partialLattice.greatest hd, ih hrest]
        exact and_and_and_comm

lemma isSome_meetDims (ha : RefineAll cs as) (hb : RefineAll cs bs) : (meetDims as bs).isSome := by
  induction ha generalizing bs with
  | nil =>
    cases hb
    rfl
  | cons hda _ ih =>
    cases hb with
    | cons hdb hrest =>
      obtain ⟨d, hd⟩ := isSome_iff_exists.mp (Dim.partialLattice.bounded hda hdb)
      obtain ⟨rest, hrest⟩ := isSome_iff_exists.mp (ih hrest)
      exact isSome_of_eq_some (meetDims_cons_eq_some.mpr ⟨d, rest, hd, hrest, rfl⟩)

lemma refineAll_zipWith_iff (hlength : as.length = bs.length) (cs : List Dim) :
    RefineAll (zipWith Dim.join as bs) cs ↔ RefineAll as cs ∧ RefineAll bs cs := by
  induction as generalizing bs cs with
  | nil =>
    obtain rfl := length_eq_zero_iff.mp hlength.symm
    exact (and_self_iff).symm
  | cons a as ih =>
    cases bs with
    | nil => cases hlength
    | cons b bs =>
      cases cs with
      | nil => simp [RefineAll]
      | cons c cs =>
        rw [zipWith_cons_cons, refineAll_cons, refineAll_cons, refineAll_cons,
          Dim.partialLattice.least, ih (Nat.succ.inj hlength)]
        exact and_and_and_comm

/-! ### Shapes and types -/

namespace Shape

lemma meet_unranked (s : Shape) : s.meet .unranked = some s := by
  cases s <;> rfl

lemma meet_ranked_eq_left_iff :
    (ranked as).meet (.ranked bs) = some (.ranked as) ↔ RefineAll as bs := by
  rw [← meetDims_eq_left_iff]
  simp [meet]

lemma meet_ranked_eq_self_iff {s : Shape} :
    s.meet (.ranked bs) = some s ↔ ∃ as, s = .ranked as ∧ RefineAll as bs := by
  cases s with
  | unranked => simp [meet]
  | ranked as => simp [meet_ranked_eq_left_iff]

lemma partialLattice : PartialLattice meet join where
  self s := by
    cases s with
    | unranked => rfl
    | ranked as =>
      exact meet_ranked_eq_left_iff.mpr (forall₂_same.mpr fun d _ ↦ Dim.partialLattice.self d)
  comm s t := by
    cases s <;> cases t <;> simp only [meet]
    rw [meetDims_comm]
  trans {s t u} hst htu := by
    cases u with
    | unranked => exact meet_unranked s
    | ranked us =>
      obtain ⟨ts, rfl, htus⟩ := meet_ranked_eq_self_iff.mp htu
      obtain ⟨ss, rfl, hsts⟩ := meet_ranked_eq_self_iff.mp hst
      rw [← meetDims_eq_left_iff] at hsts htus
      refine meet_ranked_eq_left_iff.mpr ?_
      have := (refineAll_meetDims_iff htus ss).mp (meetDims_eq_left_iff.mp hsts)
      exact this.2
  greatest {s t m} hm c := by
    cases s with
    | unranked =>
      cases hm
      simp [meet_unranked]
    | ranked ss =>
      cases t with
      | unranked =>
        cases hm
        simp [meet_unranked]
      | ranked ts =>
        obtain ⟨ms, hms, rfl⟩ := map_eq_some_iff.mp hm
        simp only [meet_ranked_eq_self_iff]
        grind [refineAll_meetDims_iff hms]
  bounded {s t c} hs ht := by
    cases s with
    | unranked => rfl
    | ranked ss =>
      cases t with
      | unranked => rfl
      | ranked ts =>
        obtain ⟨cs, rfl, hcs⟩ := meet_ranked_eq_self_iff.mp hs
        have hct := meet_ranked_eq_left_iff.mp ht
        rw [meet, isSome_map]
        exact isSome_meetDims hcs hct
  least s t c := by
    cases c with
    | unranked => simp [meet_unranked]
    | ranked cs =>
      simp only [meet_ranked_eq_self_iff]
      cases s with
      | unranked => simp [join]
      | ranked ss =>
        cases t with
        | unranked => simp [join]
        | ranked ts =>
          by_cases hlength : ss.length = ts.length
          · simp [join, hlength, refineAll_zipWith_iff]
          · have hapart : ¬ (RefineAll ss cs ∧ RefineAll ts cs) := fun ⟨hs, ht⟩ ↦
              hlength (hs.length_eq.trans ht.length_eq.symm)
            simpa [join, if_neg hlength] using hapart

end Shape

namespace TensorType

variable {a b c : TensorType}

lemma meet_eq_some_iff : a.meet b = some c ↔ meetElement a.element b.element = some c.element ∧
    a.shape.meet b.shape = some c.shape := by
  simp only [meet, bind_eq_bind, bind_eq_some_iff, Option.pure_def, some.injEq]
  constructor
  · rintro ⟨element, helement, shape, hshape, rfl⟩
    exact ⟨helement, hshape⟩
  · rintro ⟨helement, hshape⟩
    exact ⟨c.element, helement, c.shape, hshape, rfl⟩

lemma partialLattice : PartialLattice meet join where
  self a := meet_eq_some_iff.mpr ⟨partialLattice_element.self _, Shape.partialLattice.self _⟩
  comm a b := by
    simp only [meet, partialLattice_element.comm a.element, Shape.partialLattice.comm a.shape]
  trans hab hbc := by
    rw [meet_eq_some_iff] at hab hbc ⊢
    exact ⟨partialLattice_element.trans hab.1 hbc.1, Shape.partialLattice.trans hab.2 hbc.2⟩
  greatest hm c := by
    rw [meet_eq_some_iff] at hm
    simp only [meet_eq_some_iff, partialLattice_element.greatest hm.1,
      Shape.partialLattice.greatest hm.2]
    exact and_and_and_comm
  bounded {a b c} ha hb := by
    rw [meet_eq_some_iff] at ha hb
    obtain ⟨element, helement⟩ := isSome_iff_exists.mp (partialLattice_element.bounded ha.1 hb.1)
    obtain ⟨shape, hshape⟩ := isSome_iff_exists.mp (Shape.partialLattice.bounded ha.2 hb.2)
    have hmeet : a.meet b = some ⟨element, shape⟩ := meet_eq_some_iff.mpr ⟨helement, hshape⟩
    exact isSome_of_eq_some hmeet
  least a b c := by
    simp only [meet_eq_some_iff]
    rw [and_and_and_comm]
    exact and_congr (partialLattice_element.least _ _ _) (Shape.partialLattice.least _ _ _)

lemma refines_iff : a.refines b = true ↔ a.meet b = some a :=
  decide_eq_true_iff

lemma refines_refl (a : TensorType) : a.refines a = true :=
  refines_iff.mpr (partialLattice.self a)

lemma refines_trans (h : c.refines b = true) (h' : b.refines a = true) : c.refines a = true :=
  refines_iff.mpr (partialLattice.trans (refines_iff.mp h) (refines_iff.mp h'))

end TensorType

/-- The laws of a lattice without a least element: refinement is an order, a meet is the greatest
common refinement and is missing exactly if there is none, a join is the least of what both
refine. -/
structure RefinementLattice {α : Type} (refines : α → α → Bool) (meet : α → α → Option α)
    (join : α → α → α) : Prop where
  refl : ∀ a, refines a a
  antisymm : ∀ a b, refines a b → refines b a → a = b
  trans : ∀ a b c, refines a b → refines b c → refines a c
  meet_isSome : ∀ a b, (meet a b).isSome ↔ ∃ c, refines c a ∧ refines c b
  meet_greatest : ∀ a b m, meet a b = some m →
    refines m a ∧ refines m b ∧ ∀ c, refines c a → refines c b → refines c m
  join_least : ∀ a b, refines a (join a b) ∧ refines b (join a b) ∧
    ∀ c, refines a c → refines b c → refines (join a b) c
  meet_comm : ∀ a b, meet a b = meet b a
  meet_self : ∀ a, meet a a = some a
  meet_assoc : ∀ a b c, (meet a b).bind (meet · c) = (meet b c).bind (meet a ·)
  meet_mono : ∀ a a' b b' m, refines a a' → refines b b' → meet a b = some m →
    ∃ m', meet a' b' = some m' ∧ refines m m'
  join_mono : ∀ a a' b b', refines a a' → refines b b' → refines (join a b) (join a' b')

lemma PartialLattice.refinementLattice {refines : α → α → Bool} {meet : α → α → Option α}
    {join : α → α → α} (h : PartialLattice meet join)
    (hrefines : ∀ a b, refines a b = true ↔ meet a b = some a) :
    RefinementLattice refines meet join where
  refl a := (hrefines a a).mpr (h.self a)
  antisymm a b hab hba := h.antisymm ((hrefines a b).mp hab) ((hrefines b a).mp hba)
  trans a b c hab hbc :=
    (hrefines a c).mpr (h.trans ((hrefines a b).mp hab) ((hrefines b c).mp hbc))
  meet_isSome a b := by
    simp only [hrefines]
    refine ⟨fun hsome ↦ ?_, fun ⟨c, ha, hb⟩ ↦ h.bounded ha hb⟩
    obtain ⟨m, hm⟩ := isSome_iff_exists.mp hsome
    exact ⟨m, h.absorb hm⟩
  meet_greatest a b m hm := by
    simp only [hrefines]
    exact ⟨(h.absorb hm).1, (h.absorb hm).2, fun c ha hb ↦ (h.greatest hm c).mpr ⟨ha, hb⟩⟩
  join_least a b := by
    simp only [hrefines]
    obtain ⟨hleft, hright⟩ := (h.least a b _).mp (h.self (join a b))
    exact ⟨hleft, hright, fun c ha hb ↦ (h.least a b c).mpr ⟨ha, hb⟩⟩
  meet_comm := h.comm
  meet_self := h.self
  meet_assoc := h.assoc
  meet_mono a a' b b' m ha hb hm := by
    simp only [hrefines] at ha hb ⊢
    exact h.mono ha hb hm
  join_mono a a' b b' ha hb := by
    simp only [hrefines] at ha hb ⊢
    exact h.join_mono ha hb

/-- Shapes and types are lattices without a least element. -/
theorem shapes_and_types_form_lattices : RefinementLattice Shape.refines Shape.meet Shape.join ∧
    RefinementLattice TensorType.refines TensorType.meet TensorType.join :=
  ⟨Shape.partialLattice.refinementLattice fun _ _ ↦ decide_eq_true_iff,
    TensorType.partialLattice.refinementLattice fun _ _ ↦ TensorType.refines_iff⟩

/-! ### Facts -/

def Dim.knowledge : Dim → Nat
  | .known _ => 1
  | .unknown => 0

/-- The number of sizes stated. -/
def Dim.sizes (dims : List Dim) : Nat :=
  dims.foldr (fun d count ↦ d.knowledge + count) 0

def Shape.knowledge : Shape → Nat
  | .unranked => 0
  | .ranked dims => 1 + Dim.sizes dims

def TensorType.knowledge (t : TensorType) : Nat :=
  t.element.toList.length + t.shape.knowledge

lemma Dim.eq_or_knowledge_lt (h : b.meet a = some b) : b = a ∨ a.knowledge < b.knowledge := by
  cases a with
  | unknown =>
    cases b with
    | unknown => exact .inl rfl
    | known n => exact .inr Nat.zero_lt_one
  | known m =>
    cases b with
    | unknown => cases h
    | known n =>
      by_cases heq : n = m
      · exact .inl (congrArg Dim.known heq)
      · simp [Dim.meet, heq] at h

lemma RefineAll.eq_or_sizes_lt (h : RefineAll bs as) : bs = as ∨ Dim.sizes as < Dim.sizes bs := by
  induction h with
  | nil => exact .inl rfl
  | cons hd _ ih =>
    simp only [Dim.sizes, foldr_cons] at ih ⊢
    rcases Dim.eq_or_knowledge_lt hd with rfl | hlt <;> rcases ih with rfl | hlt'
    · exact .inl rfl
    · exact .inr (by omega)
    · exact .inr (by omega)
    · exact .inr (by omega)

lemma Shape.eq_or_knowledge_lt {a b : Shape} (h : b.meet a = some b) : b = a ∨
    a.knowledge < b.knowledge := by
  cases a with
  | unranked =>
    cases b with
    | unranked => exact .inl rfl
    | ranked bs => exact .inr (Nat.lt_add_right _ Nat.zero_lt_one)
  | ranked as =>
    obtain ⟨bs, rfl, hbs⟩ := meet_ranked_eq_self_iff.mp h
    exact hbs.eq_or_sizes_lt.imp (congrArg ranked) (Nat.add_lt_add_left · 1)

namespace TensorType

variable {a b c : TensorType}

lemma meet_eq_some (h : a.meet b = some c) : c = a ∨ a.knowledge < c.knowledge := by
  obtain ⟨helement, hshape⟩ := meet_eq_some_iff.mp (partialLattice.absorb h).1
  have hfact : c.element = a.element ∨ a.element.toList.length < c.element.toList.length := by
    cases ha : a.element with
    | none =>
      cases c.element with
      | none => exact .inl rfl
      | some element => exact .inr Nat.zero_lt_one
    | some element =>
      rw [ha] at helement
      cases hc : c.element with
      | none => simp [hc, meetElement] at helement
      | some other =>
        by_cases heq : other = element
        · exact .inl (congrArg some heq)
        · simp [hc, meetElement, heq] at helement
  unfold knowledge
  rcases hfact with heq | hlt <;> rcases Shape.eq_or_knowledge_lt hshape with heq' | hlt'
  · exact .inl (by cases a; cases c; simp_all)
  · exact .inr (heq ▸ Nat.add_lt_add_left hlt' _)
  · exact .inr (heq' ▸ Nat.add_lt_add_right hlt _)
  · exact .inr (Nat.add_lt_add hlt hlt')

lemma meet_of_repeated {t carried : TensorType}
    (helement : carried.element = none ∨ carried.element = t.element)
    (hshape : carried.shape = .unranked ∨ carried.shape = t.shape) : t.meet carried = some t := by
  refine meet_eq_some_iff.mpr ⟨?_, ?_⟩
  · rcases helement with h | h <;> rw [h] <;> cases t.element <;> simp [meetElement]
  · rcases hshape with h | h
    · rw [h, Shape.meet_unranked]
    · rw [h, Shape.partialLattice.self]

lemma meet_ofShape_shape (t : TensorType) : t.meet (.ofShape t.shape) = some t :=
  meet_of_repeated (.inl rfl) (.inr rfl)

end TensorType

/-! ### Known sizes -/

lemma RefineAll.eq_of_mapM_size? (h : RefineAll bs as)
    (has : as.mapM Dim.size? = some sizes) : bs = as := by
  induction h generalizing sizes with
  | nil => rfl
  | @cons b a _ _ hd _ ih =>
    simp only [mapM_cons, bind_eq_bind, bind_eq_some_iff] at has
    obtain ⟨n, hn, rest, hrest, -⟩ := has
    cases a with
    | unknown => cases hn
    | known m =>
      cases b with
      | unknown => cases hd
      | known k =>
        have heq : k = m := by
          by_contra hne
          simp [Dim.meet, hne] at hd
        rw [heq, ih hrest]

lemma Shape.eq_of_refines_of_sizes? {a b : Shape} (h : b.meet a = some b)
    (ha : a.sizes? = some sizes) : b = a := by
  cases a with
  | unranked => cases ha
  | ranked as =>
    obtain ⟨bs, rfl, hbs⟩ := meet_ranked_eq_self_iff.mp h
    exact congrArg ranked (hbs.eq_of_mapM_size? ha)

end TensorGraph
