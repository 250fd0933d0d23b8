import TensorGraph.Proofs.Types
import TensorGraph.Shape.Broadcast

/-!
What broadcasting shapes says of broadcasting tensors. A shape describes the lists of sizes that
agree with what it states.
-/

namespace TensorGraph

open List

/-! ### Places from the right -/

section FromRight

variable {α β : Type} {u : α} {w : β} {l : List α} {zs : List UInt64} {s : Shape}

/-- The entry at a place counted from the right, or `u` if there is none. -/
def fromRight (u : α) (l : List α) (i : Nat) : α :=
  l.reverse.getD i u

lemma fromRight_of_length_le {i : Nat} (h : l.length ≤ i) : fromRight u l i = u :=
  by simp [fromRight, h]

lemma fromRight_cons_one (l : List α) (i : Nat) : fromRight u (u :: l) i = fromRight u l i := by
  simp only [fromRight, reverse_cons, getD_eq_getElem?_getD, getElem?_append, getElem?_singleton]
  grind

lemma fromRight_replicate_append (l : List α) (n i : Nat) :
    fromRight u (replicate n u ++ l) i = fromRight u l i := by
  induction n with
  | zero => rfl
  | succ n ih => rw [replicate_succ, cons_append, fromRight_cons_one, ih]

lemma exists_fromRight_eq {f : Nat → α} {n : Nat} (hf : ∀ i, n ≤ i → f i = u) :
    ∃ l : List α, l.length = n ∧ ∀ i, fromRight u l i = f i := by
  refine ⟨((range n).map f).reverse, by simp, fun i ↦ ?_⟩
  rw [fromRight, reverse_reverse, getD_eq_getElem?_getD, getElem?_map]
  by_cases hi : i < n
  · simp [hi]
  · simp [hi, hf i (Nat.le_of_not_lt hi)]

lemma forall₂_iff_fromRight {R : α → β → Prop} (hone : R u w) {l' : List β} :
    Forall₂ R l l' ↔ l.length = l'.length ∧ ∀ i, R (fromRight u l i) (fromRight w l' i) := by
  have hleft : ∀ {l : List α} {l' : List β},
      Forall₂ R l l' ↔ l.length = l'.length ∧ ∀ i, R (l.getD i u) (l'.getD i w) := by
    intro l l'
    induction l generalizing l' with
    | nil => cases l' <;> simp [hone]
    | cons a l ih =>
      cases l' with
      | nil => simp
      | cons b l' =>
        rw [forall₂_cons, ih]
        simp only [length_cons, Nat.add_right_cancel_iff]
        constructor
        · rintro ⟨hab, hlength, hrest⟩
          exact ⟨hlength, fun i ↦ by cases i with | zero => exact hab | succ i => exact hrest i⟩
        · rintro ⟨hlength, hall⟩
          exact ⟨hall 0, hlength, fun i ↦ hall (i + 1)⟩
  rw [← forall₂_reverse_iff, hleft, length_reverse, length_reverse]
  rfl

end FromRight

/-! ### What shapes describe -/

/-- The size agrees with what the dimension states. -/
def Dim.Has : Dim → UInt64 → Prop
  | .known n, size => size = n
  | .unknown, _ => True

/-- The sizes agree with what the shape states. -/
def Shape.Describes : Shape → List UInt64 → Prop
  | .unranked, _ => True
  | .ranked dims, sizes => Forall₂ Dim.Has dims sizes

lemma Dim.exists_has (d : Dim) : ∃ n, d.Has n := by
  cases d with
  | known n => exact ⟨n, rfl⟩
  | unknown => exact ⟨0, trivial⟩

lemma exists_forall₂_has (dims : List Dim) : ∃ sizes, Forall₂ Dim.Has dims sizes := by
  induction dims with
  | nil => exact ⟨[], .nil⟩
  | cons d rest ih =>
    obtain ⟨n, hn⟩ := d.exists_has
    obtain ⟨sizes, hsizes⟩ := ih
    exact ⟨n :: sizes, .cons hn hsizes⟩

lemma Shape.exists_describes (s : Shape) : ∃ sizes, s.Describes sizes := by
  cases s with
  | unranked => exact ⟨[], trivial⟩
  | ranked dims => exact exists_forall₂_has dims

lemma Dim.meet_eq_of_has {d e : Dim} (h : ∀ n, d.Has n → e.Has n) : d.meet e = some d := by
  cases e with
  | unknown => cases d <;> rfl
  | known k =>
    cases d with
    | known n =>
      obtain rfl : n = k := h n rfl
      exact Dim.partialLattice.self _
    | unknown =>
      have heq : k + 1 = k := h (k + 1) trivial
      simp at heq

lemma refineAll_of_forall₂_has {ds es : List Dim}
    (h : ∀ sizes, Forall₂ Dim.Has ds sizes → Forall₂ Dim.Has es sizes) :
    RefineAll ds es := by
  induction ds generalizing es with
  | nil =>
    cases h [] .nil
    exact .nil
  | cons d ds ih =>
    obtain ⟨n, hn⟩ := d.exists_has
    obtain ⟨sizes, hsizes⟩ := exists_forall₂_has ds
    cases es with
    | nil => cases h _ (.cons hn hsizes)
    | cons e es =>
      refine refineAll_cons.mpr ⟨Dim.meet_eq_of_has fun m hm ↦ ?_, ih fun other hother ↦ ?_⟩
      · exact (forall₂_cons.mp (h _ (.cons hm hsizes))).1
      · exact (forall₂_cons.mp (h _ (.cons hn hother))).2

lemma Shape.refines_of_describes {s t : Shape} (h : ∀ sizes, s.Describes sizes → t.Describes sizes)
    : s.refines t = true := by
  refine decide_eq_true ?_
  cases t with
  | unranked => exact s.meet_unranked
  | ranked ts =>
    cases s with
    | unranked =>
      exact absurd ((h [] trivial).length_eq.symm.trans (h [0] trivial).length_eq) Nat.zero_ne_one
    | ranked ss => exact Shape.meet_ranked_eq_left_iff.mpr (refineAll_of_forall₂_has h)

/-! ### Broadcasting sizes -/

/-- What two sizes broadcast to: they agree, or one of them is one. -/
def SizesBroadcast (x y z : UInt64) : Prop :=
  x = y ∧ z = x ∨ x = 1 ∧ z = y ∨ y = 1 ∧ z = x

/-- What two lists of sizes broadcast to, aligned at their right ends. -/
def Broadcasts (xs ys zs : List UInt64) : Prop :=
  zs.length = max xs.length ys.length ∧
    ∀ i, SizesBroadcast (fromRight 1 xs i) (fromRight 1 ys i) (fromRight 1 zs i)

/-- The sizes may come of broadcasting sizes that the shapes describe. -/
def Shape.Outcome (a b : Shape) (zs : List UInt64) : Prop :=
  ∃ xs ys, a.Describes xs ∧ b.Describes ys ∧ Broadcasts xs ys zs

lemma SizesBroadcast.symm {x y z : UInt64} (h : SizesBroadcast x y z) : SizesBroadcast y x z := by
  rcases h with ⟨rfl, rfl⟩ | ⟨rfl, rfl⟩ | ⟨rfl, rfl⟩
  · exact .inl ⟨rfl, rfl⟩
  · exact .inr (.inr ⟨rfl, rfl⟩)
  · exact .inr (.inl ⟨rfl, rfl⟩)

lemma Shape.Outcome.symm {a b : Shape} (h : a.Outcome b zs) : b.Outcome a zs := by
  obtain ⟨xs, ys, hxs, hys, hlength, hall⟩ := h
  exact ⟨ys, xs, hys, hxs, hlength.trans (Nat.max_comm _ _), fun i ↦ (hall i).symm⟩

lemma Shape.outcome_unranked {ys : List UInt64} (hs : s.Describes ys) :
    Shape.unranked.Outcome s ys ∧ Shape.unranked.Outcome s (1 :: ys) := by
  refine ⟨⟨[], ys, trivial, hs, by simp, fun i ↦ .inr (.inl ⟨rfl, rfl⟩)⟩,
    ⟨replicate (ys.length + 1) 1, ys, trivial, hs, by simp, fun i ↦ .inr (.inl ⟨?_, ?_⟩)⟩⟩
  · have h := fromRight_replicate_append (u := (1 : UInt64)) [] (ys.length + 1) i
    rwa [append_nil] at h
  · exact fromRight_cons_one ys i

/-! ### Broadcasting shapes -/

lemma Dim.exists_sizesBroadcast_iff {a b : Dim} {z : UInt64} :
    (∃ x y, a.Has x ∧ b.Has y ∧ SizesBroadcast x y z) ↔ ∃ d, a.broadcast b = some d ∧ d.Has z := by
  cases a with
  | known m =>
    cases b with
    | known n =>
      have hsizes : (∃ x y, (known m).Has x ∧ (known n).Has y ∧ SizesBroadcast x y z) ↔
          SizesBroadcast m n z := by
        constructor
        · rintro ⟨_, _, rfl, rfl, h⟩
          exact h
        · exact fun h ↦ ⟨m, n, rfl, rfl, h⟩
      rw [hsizes, Dim.broadcast, SizesBroadcast]
      split_ifs <;> simp [Dim.Has] <;> grind
    | unknown =>
      simp only [Dim.Has, Dim.broadcast, SizesBroadcast]
      grind [Dim.Has]
  | unknown =>
    cases b with
    | known n =>
      simp only [Dim.Has, Dim.broadcast, SizesBroadcast]
      grind [Dim.Has]
    | unknown =>
      exact ⟨fun _ ↦ ⟨.unknown, rfl, trivial⟩, fun _ ↦ ⟨z, z, trivial, trivial, .inl ⟨rfl, rfl⟩⟩⟩

lemma broadcastDims_eq_ok_iff {as bs ds : List Dim} (hlength : as.length = bs.length)
    {position : Nat} : broadcastDims position as bs = .ok ds ↔
    Forall₂ (fun pair d ↦ pair.1.broadcast pair.2 = some d) (as.zip bs) ds := by
  induction as generalizing bs ds position with
  | nil =>
    obtain rfl := length_eq_zero_iff.mp hlength.symm
    rw [zip_nil_left, forall₂_nil_left_iff, broadcastDims, Except.ok.injEq, eq_comm]
    rintro _ _ _ _ _ ⟨⟩
  | cons a as ih =>
    cases bs with
    | nil => cases hlength
    | cons b bs =>
      rw [broadcastDims, zip_cons_cons]
      cases hd : a.broadcast b with
      | none => cases ds <;> simp [hd]
      | some d =>
        have hmap : ∀ answer : Except Nat (List Dim),
            answer.map (d :: ·) = .ok ds ↔ ∃ rest, answer = .ok rest ∧ d :: rest = ds := by
          rintro (_ | _) <;> simp [Except.map]
        rw [hmap]
        constructor
        · rintro ⟨rest, hrest, rfl⟩
          exact .cons hd ((ih (Nat.succ.inj hlength)).mp hrest)
        · rintro (_ | ⟨hd', hrest⟩)
          exact ⟨_,
            (ih (Nat.succ.inj hlength)).mpr hrest, by rw [Option.some.inj (hd.symm.trans hd')]⟩

lemma fromRight_zip {as bs : List Dim} (hlength : as.length = bs.length) (i : Nat) :
    fromRight (.known 1, .known 1) (as.zip bs) i =
    (fromRight (.known 1) as i, fromRight (.known 1) bs i) := by
  have hreverse : (as.zip bs).reverse = as.reverse.zip bs.reverse := reverse_zipWith hlength
  unfold fromRight
  rw [hreverse, getD_eq_getElem?_getD, getD_eq_getElem?_getD, getD_eq_getElem?_getD,
    zip, getElem?_zipWith]
  by_cases hi : i < as.length
  · rw [getElem?_eq_getElem (by simpa using hi), getElem?_eq_getElem
      (by simpa [← hlength] using hi)]
    rfl
  · rw [getElem?_eq_none (by simpa using hi), getElem?_eq_none (by simpa [← hlength] using hi)]
    rfl

lemma Shape.broadcast_ranked_eq_ok_iff {as bs : List Dim} :
    (Shape.ranked as).broadcast (.ranked bs) = .ok s ↔ ∃ ds, s = .ranked ds ∧
      ds.length = max as.length bs.length ∧ ∀ i, (fromRight (.known 1) as i).broadcast
      (fromRight (.known 1) bs i) = some (fromRight (.known 1) ds i) := by
  have hlength : ∀ dims : List Dim, dims.length ≤ max as.length bs.length →
      (padDims (max as.length bs.length) dims).length = max as.length bs.length := by
    intro dims hdims
    simp [padDims, hdims]
  have ha := hlength as (Nat.le_max_left _ _)
  have hb := hlength bs (Nat.le_max_right _ _)
  have hok : ∀ ds, broadcastDims 0 (padDims (max as.length bs.length) as)
      (padDims (max as.length bs.length) bs) = .ok ds ↔ ds.length = max as.length bs.length ∧
      ∀ i, (fromRight (.known 1) as i).broadcast (fromRight (.known 1) bs i) = some
      (fromRight (.known 1) ds i) := by
    intro ds
    rw [broadcastDims_eq_ok_iff (ha.trans hb.symm), forall₂_iff_fromRight (u := (Dim.known 1,
      Dim.known 1)) (w := Dim.known 1) rfl, length_zip, ha, hb, Nat.min_self, eq_comm]
    simp only [fromRight_zip (ha.trans hb.symm)]
    simp only [padDims, fromRight_replicate_append]
  unfold Shape.broadcast
  dsimp only
  cases hdims : broadcastDims 0 (padDims (max as.length bs.length) as)
    (padDims (max as.length bs.length) bs) with
  | error position =>
    refine iff_of_false (by simp) ?_
    rintro ⟨ds, -, hds⟩
    rw [← hok, hdims] at hds
    cases hds
  | ok dims =>
    rw [Except.ok.injEq]
    constructor
    · rintro rfl
      exact ⟨dims, rfl, (hok dims).mp hdims⟩
    · rintro ⟨ds, rfl, hds⟩
      rw [← hok, hdims] at hds
      rw [Except.ok.inj hds]

lemma Shape.outcome_ranked_iff {as bs : List Dim} : (Shape.ranked as).Outcome (.ranked bs) zs ↔
    ∃ s, (Shape.ranked as).broadcast (.ranked bs) = .ok s ∧ s.Describes zs := by
  have hone : (Dim.known 1).Has 1 := rfl
  constructor
  · rintro ⟨xs, ys, hxs, hys, hlength, hall⟩
    obtain ⟨hxlength, hx⟩ := (forall₂_iff_fromRight hone).mp hxs
    obtain ⟨hylength, hy⟩ := (forall₂_iff_fromRight hone).mp hys
    have hdims := fun i ↦ Dim.exists_sizesBroadcast_iff.mp ⟨_, _, hx i, hy i, hall i⟩
    choose d hd hz using hdims
    obtain ⟨ds, hds, hfrom⟩ := exists_fromRight_eq (u := Dim.known 1) (f := d)
      (n := max as.length bs.length) fun i hi ↦ by
        have hbroadcast := hd i
        rw [fromRight_of_length_le (Nat.le_trans (Nat.le_max_left _ _) hi),
          fromRight_of_length_le (Nat.le_trans (Nat.le_max_right _ _) hi)] at hbroadcast
        exact (Option.some.inj hbroadcast).symm
    refine ⟨.ranked ds, Shape.broadcast_ranked_eq_ok_iff.mpr
      ⟨ds, rfl, hds, fun i ↦ hfrom i ▸ hd i⟩, ?_⟩
    refine (forall₂_iff_fromRight hone).mpr ⟨?_, fun i ↦ hfrom i ▸ hz i⟩
    rw [hds, hlength, hxlength, hylength]
  · rintro ⟨s, hs, hzs⟩
    obtain ⟨ds, rfl, hds, hbroadcast⟩ := Shape.broadcast_ranked_eq_ok_iff.mp hs
    obtain ⟨hzlength, hz⟩ := (forall₂_iff_fromRight hone).mp hzs
    have hsizes := fun i ↦ Dim.exists_sizesBroadcast_iff.mpr ⟨_, hbroadcast i, hz i⟩
    choose x y hx hy hxyz using hsizes
    have hlist : ∀ {dims : List Dim} {f : Nat → UInt64},
        (∀ i, (fromRight (.known 1) dims i).Has (f i)) → ∃ l, Forall₂ Dim.Has dims l ∧
        ∀ i, fromRight 1 l i = f i := by
      intro dims f hf
      obtain ⟨l, hl, hfrom⟩ := exists_fromRight_eq (u := (1 : UInt64)) (f := f)
        (n := dims.length) fun i hi ↦ by
        have hhas := hf i
        rwa [fromRight_of_length_le hi] at hhas
      exact ⟨l, (forall₂_iff_fromRight hone).mpr ⟨hl.symm, fun i ↦ hfrom i ▸ hf i⟩, hfrom⟩
    obtain ⟨xs, hxs, hxfrom⟩ := hlist hx
    obtain ⟨ys, hys, hyfrom⟩ := hlist hy
    refine ⟨xs, ys, hxs, hys, ?_, fun i ↦ ?_⟩
    · rw [← hzlength, hds, hxs.length_eq, hys.length_eq]
    · rw [hxfrom, hyfrom]
      exact hxyz i

lemma Shape.outcome_cases (a b : Shape) :
    (∀ zs, a.Outcome b zs ↔ ∃ s, a.broadcast b = .ok s ∧ s.Describes zs) ∨
    a.broadcast b = .ok .unranked ∧ ∃ ys, a.Outcome b ys ∧ a.Outcome b (1 :: ys) := by
  cases a with
  | unranked =>
    obtain ⟨ys, hys⟩ := b.exists_describes
    exact .inr ⟨rfl, ys, Shape.outcome_unranked hys⟩
  | ranked as =>
    cases b with
    | unranked =>
      obtain ⟨xs, hxs⟩ := (Shape.ranked as).exists_describes
      obtain ⟨hsame, hlonger⟩ := Shape.outcome_unranked hxs
      exact .inr ⟨rfl, xs, hsame.symm, hlonger.symm⟩
    | ranked bs => exact .inl fun _ ↦ Shape.outcome_ranked_iff

/-- Broadcasting shapes fails exactly if no sizes that they describe broadcast. Otherwise it
describes what may come of these, and says the most that can be said of it. -/
theorem broadcast_best (a b : Shape) :
    ((∃ err, a.broadcast b = .error err) ↔ ¬ ∃ zs, a.Outcome b zs) ∧
    ∀ s, a.broadcast b = .ok s → (∀ zs, a.Outcome b zs → s.Describes zs) ∧
      ∀ t : Shape, (∀ zs, a.Outcome b zs → t.Describes zs) → s.refines t = true := by
  rcases Shape.outcome_cases a b with hexact | ⟨hok, ys, hys, hlonger⟩
  · refine ⟨⟨?_, fun hnone ↦ ?_⟩, fun s hs ↦ ⟨fun zs hzs ↦ ?_, fun t ht ↦ ?_⟩⟩
    · rintro ⟨err, herr⟩ ⟨zs, hzs⟩
      obtain ⟨s, hs, -⟩ := (hexact zs).mp hzs
      cases herr.symm.trans hs
    · cases hanswer : a.broadcast b with
      | error err => exact ⟨err, rfl⟩
      | ok s =>
        obtain ⟨zs, hzs⟩ := s.exists_describes
        exact absurd ⟨zs, (hexact zs).mpr ⟨s, hanswer, hzs⟩⟩ hnone
    · obtain ⟨s', hs', hzs⟩ := (hexact zs).mp hzs
      rwa [Except.ok.inj (hs.symm.trans hs')]
    · exact Shape.refines_of_describes fun zs hzs ↦ ht zs ((hexact zs).mpr ⟨s, hs, hzs⟩)
  · rw [hok]
    refine ⟨iff_of_false (by simp) fun h ↦ h ⟨ys, hys⟩, fun s hs ↦ ?_⟩
    obtain rfl := Except.ok.inj hs
    refine ⟨fun _ _ ↦ trivial, fun t ht ↦ ?_⟩
    cases t with
    | unranked => rfl
    | ranked ts =>
      have hlength : ys.length = (1 :: ys).length :=
        (ht ys hys).length_eq.symm.trans (ht _ hlonger).length_eq
      simp at hlength

/-- A shape that states the size at a place where nothing is known of it is refuted by an
outcome. -/
theorem broadcast_best_unknown_kept :
    let a : Shape := .ranked [.unknown, .known 1]
    let b : Shape := .ranked [.known 5]
    a.broadcast b = .ok (.ranked [.unknown, .known 5]) ∧ ∃ zs, a.Outcome b zs ∧ zs ≠ [2, 5] := by
  intro a b
  have hok : a.broadcast b = .ok (.ranked [.unknown, .known 5]) := by decide
  refine ⟨hok, ?_⟩
  by_contra hall
  have hrefines := ((broadcast_best a b).2 _ hok).2 (.fixed [2, 5]) fun zs hzs ↦ by
    obtain rfl : zs = [2, 5] := by
      by_contra hne
      exact hall ⟨zs, hzs, hne⟩
    exact .cons rfl (.cons rfl .nil)
  exact absurd hrefines (by decide)

end TensorGraph
