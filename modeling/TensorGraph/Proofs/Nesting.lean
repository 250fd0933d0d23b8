import TensorGraph.Proofs.Consistency

/-!
Nesting of regions. `AncestorIn p r o a` says that `a` lies directly in `r` and is `o` or has `o` in
it, and `AttachedAt p n r` that `r` lies `n` levels below a root.
-/

namespace TensorGraph.Program

open List Option

variable {a b o : OpId} {r x top home inner outer : RegionId} {m n depth steps : Nat}

/-- `a` lies directly in `r`, and is `o` or has `o` nested in it. -/
inductive AncestorIn (p : Program) (r : RegionId) : OpId → OpId → Prop where
  | here {o : OpId} (hparent : p.parentOf? o = some r) : AncestorIn p r o o
  | up {o owner a : OpId} {home : RegionId} (hparent : p.parentOf? o = some home)
      (howner : p.parentOp? home = some owner) (habove : AncestorIn p r owner a) :
      AncestorIn p r o a

/-- The region lies the given number of levels below `top`, which no operation owns. -/
inductive Below (p : Program) (top : RegionId) : Nat → RegionId → Prop where
  | top (htop : p.parentOp? top = none) : Below p top 0 top
  | nested {n : Nat} {home inner : RegionId} {o : OpId} (houter : Below p top n home)
      (ho : p.parentOf? o = some home) (hinner : p.parentOp? inner = some o) :
      Below p top (n + 1) inner

/-- The region lies the given number of levels below a root. -/
inductive AttachedAt (p : Program) : Nat → RegionId → Prop where
  | root {r : RegionId} (hroot : r ∈ p.roots) : AttachedAt p 0 r
  | nested {n : Nat} {home inner : RegionId} {o : OpId} (houter : AttachedAt p n home)
      (ho : o ∈ p.opsIn home) (hinner : inner ∈ p.regionsOf o) : AttachedAt p (n + 1) inner

/-- The region is a root or nested in one. -/
def Attached (p : Program) (r : RegionId) : Prop :=
  ∃ n, AttachedAt p n r

lemma Attached.nested {p : Program} (houter : p.Attached home) (ho : o ∈ p.opsIn home)
    (hinner : inner ∈ p.regionsOf o) : p.Attached inner := by
  obtain ⟨n, hat⟩ := houter
  exact ⟨n + 1, .nested hat ho hinner⟩

namespace Consistent

variable {p : Program} (h : p.Consistent) {owner : OpId}

include h

lemma mem_opsIn : o ∈ p.opsIn r ↔ p.parentOf? o = some r :=
  (h.placed.listed r o).trans (and_iff_left not_mem_nil)

lemma isSome_of_mem_opsIn (ho : o ∈ p.opsIn r) : (p.op? o).isSome :=
  isSome_of_parentOf? (h.mem_opsIn.mp ho)

lemma mem_regionsOf : r ∈ p.regionsOf o ↔ p.parentOp? r = some o := by
  rw [h.placed.owned, parentOp?_eq_some]
  exact and_iff_left not_mem_nil

lemma isSome_of_parentOp? (ho : p.parentOp? r = some o) : (p.op? o).isSome :=
  isSome_of_mem_regionsOf (h.mem_regionsOf.mpr ho)

lemma parentOp?_of_root (hr : r ∈ p.roots) : p.parentOp? r = none := by
  have howner : p.ownerOf? r = some .graph ∨ p.ownerOf? r = some .function := by
    rcases mem_cons.mp hr with rfl | hbody
    · exact .inl h.placed.graph
    · obtain ⟨func, hfunc, rfl⟩ := mem_map.mp hbody
      exact .inr (h.placed.bodies func hfunc)
  by_contra hne
  obtain ⟨o, ho⟩ := ne_none_iff_exists'.mp hne
  rw [parentOp?_eq_some] at ho
  rcases howner with howner | howner <;> cases howner.symm.trans ho

end Consistent

/-! ### Depth -/

section Depth

variable {p : Program}

lemma Below.unique {top' : RegionId} (hn : Below p top n r) (hm : Below p top' m r) :
    top = top' ∧ n = m := by
  induction hn generalizing m with
  | top htop =>
    rcases hm with _ | ⟨-, -, hinner⟩
    · exact ⟨rfl, rfl⟩
    · cases htop.symm.trans hinner
  | nested _ ho hinner ih =>
    rcases hm with htop | ⟨houter', ho', hinner'⟩
    · cases htop.symm.trans hinner
    · cases hinner.symm.trans hinner'
      cases ho.symm.trans ho'
      obtain ⟨rfl, rfl⟩ := ih houter'
      exact ⟨rfl, rfl⟩

lemma Below.owner (hr : Below p top n r) (ho : p.parentOp? r = some o) :
    ∃ m home, n = m + 1 ∧ p.parentOf? o = some home ∧ Below p top m home := by
  rcases hr with htop | ⟨houter, hmem, hinner⟩
  · cases htop.symm.trans ho
  · cases hinner.symm.trans ho
    exact ⟨_, _, rfl, hmem, houter⟩

variable (h : p.Consistent)

include h

lemma Consistent.isSome_region?_of_parentOf? (ho : p.parentOf? o = some r) : (p.region? r).isSome :=
  isSome_region?_of_mem_opsIn (h.mem_opsIn.mpr ho)

lemma Below.exists_path (hr : Below p top n r) (hregion : (p.region? r).isSome) : ∃ path :
    List RegionId, path.length = n + 1 ∧ path.Nodup ∧ ∀ x ∈ path, (p.region? x).isSome ∧
    ∃ m, m ≤ n ∧ Below p top m x := by
  induction hr with
  | top htop =>
    refine ⟨[top], rfl, nodup_singleton top, fun x hx ↦ ?_⟩
    rw [mem_singleton.mp hx]
    exact ⟨hregion, 0, Nat.le_refl 0, .top htop⟩
  | @nested n home inner o houter ho hinner ih =>
    obtain ⟨path, hlength, hnodup, hpath⟩ := ih (h.isSome_region?_of_parentOf? ho)
    have hat : Below p top (n + 1) inner := .nested houter ho hinner
    have hnew : inner ∉ path := by
      intro hmem
      obtain ⟨-, m, hm, hat'⟩ := hpath inner hmem
      have := (hat.unique hat').2
      omega
    refine ⟨inner :: path, by rw [length_cons, hlength], nodup_cons.mpr ⟨hnew, hnodup⟩,
      fun x hx ↦ ?_⟩
    rcases mem_cons.mp hx with rfl | hx
    · exact ⟨hregion, n + 1, Nat.le_refl _, hat⟩
    · obtain ⟨hsome, m, hm, hat'⟩ := hpath x hx
      exact ⟨hsome, m, Nat.le_succ_of_le hm, hat'⟩

lemma Below.lt_length (hr : Below p top n r) : n < p.regions.length := by
  have hbounded : ∀ x, (p.region? x).isSome → x.index < p.regions.length := by
    intro x hsome
    by_contra hge
    simp [region?, getElem?_eq_none (Nat.le_of_not_lt hge)] at hsome
  by_cases hregion : (p.region? r).isSome
  · obtain ⟨path, hlength, hnodup, hpath⟩ := hr.exists_path h hregion
    have hindices : (path.map (·.index)).Nodup := by
      refine hnodup.map_on fun x _ y _ hxy ↦ RegionId.ext hxy
    have hrange : path.map (·.index) ⊆ List.range p.regions.length := by
      intro i hi
      obtain ⟨x, hx, rfl⟩ := mem_map.mp hi
      exact mem_range.mpr (hbounded x (hpath x hx).1)
    have hle := (subperm_of_subset hindices hrange).length_le
    rw [length_map, length_range] at hle
    omega
  · rcases hr with htop | ⟨-, -, hinner⟩
    · -- A handle without a region is its own outermost one, and the graph is a region at least.
      exact Nat.zero_lt_of_lt (hbounded p.graph (isSome_region?_of_ownerOf? h.placed.graph))
    · rw [parentOp?_eq_some] at hinner
      simp [ownerOf?, not_isSome_iff_eq_none.mp hregion] at hinner

lemma AttachedAt.exists_below (hr : AttachedAt p n r) : ∃ top ∈ p.roots, Below p top n r := by
  induction hr with
  | @root r hroot => exact ⟨r, hroot, .top (h.parentOp?_of_root hroot)⟩
  | nested _ ho hinner ih =>
    obtain ⟨top, htop, hbelow⟩ := ih
    exact ⟨top, htop, hbelow.nested (h.mem_opsIn.mp ho) (h.mem_regionsOf.mp hinner)⟩

lemma Below.attachedAt (hr : Below p top n r) (htop : top ∈ p.roots) : AttachedAt p n r := by
  induction hr with
  | top _ => exact .root htop
  | nested _ ho hinner ih => exact ih.nested (h.mem_opsIn.mpr ho) (h.mem_regionsOf.mpr hinner)

lemma AttachedAt.unique (hn : AttachedAt p n r) (hm : AttachedAt p m r) : n = m := by
  obtain ⟨top, -, hbelow⟩ := hn.exists_below h
  obtain ⟨top', -, hbelow'⟩ := hm.exists_below h
  exact (hbelow.unique hbelow').2

section

variable (hr : AttachedAt p n r)

include hr

lemma AttachedAt.owner (ho : p.parentOp? r = some o) :
    ∃ m home, n = m + 1 ∧ p.parentOf? o = some home ∧ AttachedAt p m home := by
  obtain ⟨top, htop, hbelow⟩ := hr.exists_below h
  obtain ⟨m, home, hm, hparent, hhome⟩ := hbelow.owner ho
  exact ⟨m, home, hm, hparent, hhome.attachedAt h htop⟩

lemma AttachedAt.ownerOf? : ∃ owner, p.ownerOf? r = some owner ∧ owner ≠ .detached := by
  rcases hr with hroot | ⟨-, -, hinner⟩
  · rcases mem_cons.mp hroot with rfl | hbody
    · exact ⟨_, h.placed.graph, nofun⟩
    · obtain ⟨func, hfunc, rfl⟩ := mem_map.mp hbody
      exact ⟨_, h.placed.bodies func hfunc, nofun⟩
  · rw [h.mem_regionsOf, parentOp?_eq_some] at hinner
    exact ⟨_, hinner, nofun⟩

lemma AttachedAt.isSome_region? : (p.region? r).isSome := by
  obtain ⟨owner, howner, -⟩ := hr.ownerOf? h
  exact isSome_region?_of_ownerOf? howner

lemma AttachedAt.lt_length : n < p.regions.length := by
  obtain ⟨top, -, hbelow⟩ := hr.exists_below h
  exact hbelow.lt_length h

end

end Depth

/-! ### Ancestors -/

namespace AncestorIn

variable {p : Program}

lemma parentOf? (hanc : AncestorIn p r o a) : p.parentOf? a = some r := by
  induction hanc with
  | here hparent => exact hparent
  | up _ _ _ ih => exact ih

lemma trans {r' : RegionId} (hanc : AncestorIn p r o a) (hanc' : AncestorIn p r' a b) :
    AncestorIn p r' o b := by
  induction hanc with
  | here _ => exact hanc'
  | up hparent howner _ ih => exact .up hparent howner (ih hanc')

lemma exists_below (hanc : AncestorIn p r o a) (hparent : p.parentOf? o = some home)
    (hhome : Below p top n home) : ∃ m, m ≤ n ∧ Below p top m r := by
  induction hanc generalizing n home with
  | here hparent' =>
    cases hparent.symm.trans hparent'
    exact ⟨n, Nat.le_refl n, hhome⟩
  | up hparent' howner _ ih =>
    cases hparent.symm.trans hparent'
    obtain ⟨m, home', rfl, hparent'', hhome'⟩ := hhome.owner howner
    obtain ⟨k, hk, hat⟩ := ih hparent'' hhome'
    exact ⟨k, Nat.le_succ_of_le hk, hat⟩

lemma not_of_below (hr : Below p top n r)
    (howner : p.parentOp? r = some owner) : ¬ AncestorIn p r owner a := by
  intro hanc
  obtain ⟨m, home, rfl, hparent, hhome⟩ := hr.owner howner
  obtain ⟨k, hk, hat⟩ := hanc.exists_below hparent hhome
  have := (hr.unique hat).2
  omega

lemma unique_of_below (hparent : p.parentOf? o = some home)
    (hhome : Below p top n home) (ha : AncestorIn p r o a) (hb : AncestorIn p r o b) : a = b := by
  induction ha generalizing n home with
  | here hparent' =>
    cases hparent.symm.trans hparent'
    rcases hb with - | ⟨hparent'', howner, habove⟩
    · rfl
    · cases hparent.symm.trans hparent''
      exact absurd habove (not_of_below hhome howner)
  | up hparent' howner habove ih =>
    cases hparent.symm.trans hparent'
    rcases hb with hparent'' | ⟨hparent'', howner', habove'⟩
    · cases hparent.symm.trans hparent''
      exact absurd habove (not_of_below hhome howner)
    · cases hparent.symm.trans hparent''
      cases howner.symm.trans howner'
      obtain ⟨m, home', rfl, hparentOwner, hhome'⟩ := hhome.owner howner
      exact ih hparentOwner hhome' habove'

variable (h : p.Consistent)

include h

lemma exists_attachedAt (hanc : AncestorIn p r o a) (hparent : p.parentOf? o = some home)
    (hhome : AttachedAt p n home) : ∃ m, m ≤ n ∧ AttachedAt p m r := by
  obtain ⟨top, htop, hbelow⟩ := hhome.exists_below h
  obtain ⟨m, hm, hr⟩ := hanc.exists_below hparent hbelow
  exact ⟨m, hm, hr.attachedAt h htop⟩

lemma exists_home (hanc : AncestorIn p r o a) (hr : p.Attached r) :
    ∃ home, p.parentOf? o = some home ∧ p.Attached home := by
  induction hanc with
  | here hparent => exact ⟨r, hparent, hr⟩
  | up hparent howner _ ih =>
    obtain ⟨home', hparent', houter⟩ := ih
    exact ⟨_, hparent, houter.nested (h.mem_opsIn.mpr hparent') (h.mem_regionsOf.mpr howner)⟩

lemma eq_or_exists_inner (hanc : AncestorIn p r o a) :
    o = a ∨ ∃ inner ∈ p.regionsOf a, ∃ b, AncestorIn p inner o b := by
  induction hanc with
  | here _ => exact .inl rfl
  | @up o owner a home hparent howner _ ih =>
    right
    rcases ih with rfl | ⟨inner, hinner, b, hb⟩
    · exact ⟨home, h.mem_regionsOf.mpr howner, o, .here hparent⟩
    · exact ⟨inner, hinner, b, .up hparent howner hb⟩

lemma not_of_owner (hr : AttachedAt p n r)
    (howner : p.parentOp? r = some owner) : ¬ AncestorIn p r owner a := by
  obtain ⟨top, -, hbelow⟩ := hr.exists_below h
  exact not_of_below hbelow howner

lemma unique (hparent : p.parentOf? o = some home)
    (hhome : p.Attached home) (ha : AncestorIn p r o a) (hb : AncestorIn p r o b) : a = b := by
  obtain ⟨n, hhome⟩ := hhome
  obtain ⟨top, -, hbelow⟩ := hhome.exists_below h
  exact ha.unique_of_below hparent hbelow hb

end AncestorIn

/-! ### Climbing -/

section Climbing

variable {p : Program}

/-- Nothing comes of climbing in a circle. -/
theorem climbForever_eq_none {α : Type} (p : Program) (r : RegionId) :
    (p.climbForever r : Option α) = none := by
  refine eq_none_iff_forall_ne_some.mpr fun found hfound ↦ ?_
  refine climbForever.partial_correctness p (fun _ _ ↦ False) (fun climb ih r found hfound ↦ ?_)
    r found hfound
  split at hfound
  · cases hfound
  · exact ih _ _ hfound

lemma ancestorIn?_eq_join (p : Program) (r : RegionId) (o : OpId) :
    p.ancestorIn? r o = (p.ancestorWithin r p.regions.length o).join := by
  unfold ancestorIn?
  cases p.ancestorWithin r p.regions.length o with
  | none => simp [climbForever_eq_none]
  | some found => rfl

lemma isWithin_eq_getD (p : Program) (inner outer : RegionId) :
    p.isWithin inner outer = (p.climbsTo outer p.regions.length inner).getD false := by
  unfold isWithin
  cases p.climbsTo outer p.regions.length inner with
  | none => simp [climbForever_eq_none]
  | some found => rfl

lemma isWithin_eq_true {inner : RegionId} :
    p.isWithin inner outer = true ↔ p.climbsTo outer p.regions.length inner = some true := by
  simp [isWithin_eq_getD, getD_eq_iff]

lemma ancestorIn_of_ancestorWithin (hclimb : p.ancestorWithin r steps o = some (some a)) :
    AncestorIn p r o a := by
  induction steps generalizing o with
  | zero => cases hclimb
  | succ steps ih =>
    rw [ancestorWithin] at hclimb
    split at hclimb
    · cases hclimb
    · next node hop =>
      split_ifs at hclimb with hparent
      · cases hclimb
        exact .here (by rw [parentOf?_eq hop, hparent])
      · split at hclimb
        · cases hclimb
        · next owner howner => exact .up (parentOf?_eq hop) howner (ih hclimb)

lemma ancestorIn_of_ancestorIn? (hclimb : p.ancestorIn? r o = some a) :
    AncestorIn p r o a := by
  rw [ancestorIn?_eq_join, join_eq_some_iff] at hclimb
  exact ancestorIn_of_ancestorWithin hclimb

lemma exists_ancestorIn_of_climbsTo {current : RegionId}
    (hclimb : p.climbsTo outer steps current = some true) (hparent : p.parentOf? o = some current) :
    ∃ a, AncestorIn p outer o a := by
  induction steps generalizing current o with
  | zero => cases hclimb
  | succ steps ih =>
    rw [climbsTo] at hclimb
    split_ifs at hclimb with heq
    · exact ⟨o, .here (heq ▸ hparent)⟩
    · split at hclimb
      · cases hclimb
      · next node hnode =>
        obtain ⟨owner, howner, hop⟩ := bind_eq_some_iff.mp hnode
        obtain ⟨a, ha⟩ := ih hclimb (parentOf?_eq hop)
        exact ⟨a, .up hparent howner ha⟩

lemma exists_ancestorIn_of_isWithin (hparent : p.parentOf? o = some home)
    (hwithin : p.isWithin home outer = true) : ∃ a, AncestorIn p outer o a :=
  exists_ancestorIn_of_climbsTo (isWithin_eq_true.mp hwithin) hparent

lemma AncestorIn.ancestorWithin (hanc : AncestorIn p r o a) (hparent : p.parentOf? o = some home)
    (hhome : Below p top n home) (hsteps : n < steps) :
    p.ancestorWithin r steps o = some (some a) := by
  induction hanc generalizing n steps home with
  | here hparent' =>
    obtain ⟨steps, rfl⟩ := Nat.exists_eq_add_of_lt hsteps
    obtain ⟨node, hop, rfl⟩ := exists_op_of_parentOf? hparent'
    rw [ancestorWithin, hop]
    exact if_pos rfl
  | @up o owner a home' hparent' howner habove ih =>
    cases hparent.symm.trans hparent'
    obtain ⟨m, outer, rfl, hparentOwner, houter⟩ := hhome.owner howner
    obtain ⟨steps, rfl⟩ := Nat.exists_eq_add_of_lt hsteps
    obtain ⟨node, hop, rfl⟩ := exists_op_of_parentOf? hparent
    have hne : node.parent ≠ r := by
      rintro rfl
      exact not_of_below hhome howner habove
    rw [ancestorWithin, hop]
    dsimp only
    rw [if_neg hne, howner]
    exact ih hparentOwner houter (by omega)

lemma AncestorIn.ancestorIn? (h : p.Consistent) (hanc : AncestorIn p r o a)
    (hparent : p.parentOf? o = some home) (hhome : p.Attached home) :
    p.ancestorIn? r o = some a := by
  obtain ⟨n, hat⟩ := hhome
  obtain ⟨top, -, hbelow⟩ := hat.exists_below h
  rw [ancestorIn?_eq_join, hanc.ancestorWithin hparent hbelow (hbelow.lt_length h), join_some]

end Climbing

/-! ### Walking down -/

section Walking

variable {p : Program}

lemma mem_regionsToDepth_succ : x ∈ p.regionsToDepth (depth + 1) r ↔ x = r ∨
    ∃ o ∈ p.opsIn r, ∃ inner ∈ p.regionsOf o, x ∈ p.regionsToDepth depth inner := by
  simp [regionsToDepth]

lemma regionsToDepth_mono (hx : x ∈ p.regionsToDepth depth r) :
    x ∈ p.regionsToDepth (depth + 1) r := by
  induction depth generalizing r with
  | zero => cases hx
  | succ depth ih =>
    rcases mem_regionsToDepth_succ.mp hx with rfl | ⟨o, ho, inner, hinner, hx⟩
    · exact mem_regionsToDepth_succ.mpr (.inl rfl)
    · exact mem_regionsToDepth_succ.mpr (.inr ⟨o, ho, inner, hinner, ih hx⟩)

lemma regionsToDepth_le {depth' : Nat} (hle : depth ≤ depth')
    (hx : x ∈ p.regionsToDepth depth r) : x ∈ p.regionsToDepth depth' r := by
  induction hle with
  | refl => exact hx
  | step _ ih => exact regionsToDepth_mono ih

lemma mem_regionsToDepth_nested (hx : x ∈ p.regionsToDepth depth r) (ho : o ∈ p.opsIn x)
    (hinner : inner ∈ p.regionsOf o) : inner ∈ p.regionsToDepth (depth + 1) r := by
  induction depth generalizing r with
  | zero => cases hx
  | succ depth ih =>
    rcases mem_regionsToDepth_succ.mp hx with rfl | ⟨o', ho', inner', hinner', hx⟩
    · have hself : inner ∈ p.regionsToDepth (depth + 1) inner :=
        mem_regionsToDepth_succ.mpr (.inl rfl)
      exact mem_regionsToDepth_succ.mpr (.inr ⟨o, ho, inner, hinner, hself⟩)
    · exact mem_regionsToDepth_succ.mpr (.inr ⟨o', ho', inner', hinner', ih hx⟩)

lemma mem_opsToDepth : o ∈ p.opsToDepth depth r ↔
    ∃ x ∈ p.regionsToDepth depth r, o ∈ p.opsIn x := by
  induction depth generalizing r with
  | zero => simp [opsToDepth, regionsToDepth]
  | succ depth ih =>
    simp only [opsToDepth, mem_flatMap, mem_cons, mem_regionsToDepth_succ]
    constructor
    · rintro ⟨a, ha, rfl | ⟨inner, hinner, ho⟩⟩
      · exact ⟨r, .inl rfl, ha⟩
      · obtain ⟨x, hx, ho⟩ := ih.mp ho
        exact ⟨x, .inr ⟨a, ha, inner, hinner, hx⟩, ho⟩
    · rintro ⟨x, rfl | ⟨a, ha, inner, hinner, hx⟩, ho⟩
      · exact ⟨o, ho, .inl rfl⟩
      · exact ⟨a, ha, .inr ⟨inner, hinner, ih.mpr ⟨x, hx, ho⟩⟩⟩

lemma Attached.of_mem_regionsToDepth (hr : p.Attached r) (hx : x ∈ p.regionsToDepth depth r) :
    p.Attached x := by
  induction depth generalizing r with
  | zero => cases hx
  | succ depth ih =>
    rcases mem_regionsToDepth_succ.mp hx with rfl | ⟨o, ho, inner, hinner, hx⟩
    · exact hr
    · exact ih (hr.nested ho hinner) hx

lemma AttachedAt.exists_root (hr : AttachedAt p n r) :
    ∃ root ∈ p.roots, r ∈ p.regionsToDepth (n + 1) root := by
  induction hr with
  | @root r hroot => exact ⟨r, hroot, mem_regionsToDepth_succ.mpr (.inl rfl)⟩
  | nested _ ho hinner ih =>
    obtain ⟨root, hroot, hmem⟩ := ih
    exact ⟨root, hroot, mem_regionsToDepth_nested hmem ho hinner⟩

variable (h : p.Consistent)

include h

lemma mem_allRegions : r ∈ p.allRegions ↔ p.Attached r := by
  unfold allRegions
  rw [mem_flatMap]
  constructor
  · rintro ⟨root, hroot, hr⟩
    exact Attached.of_mem_regionsToDepth ⟨0, .root hroot⟩ hr
  · rintro ⟨n, hat⟩
    obtain ⟨root, hroot, hr⟩ := hat.exists_root
    exact ⟨root, hroot, regionsToDepth_le (hat.lt_length h) hr⟩

lemma mem_allOps : o ∈ p.allOps ↔ ∃ r, p.Attached r ∧ p.parentOf? o = some r := by
  have hroots : o ∈ p.allOps ↔ ∃ r ∈ p.allRegions, o ∈ p.opsIn r := by
    simp only [allOps, allRegions, walk, mem_flatMap, mem_opsToDepth]
    constructor
    · rintro ⟨root, hroot, x, hx, ho⟩
      exact ⟨x, ⟨root, hroot, hx⟩, ho⟩
    · rintro ⟨x, ⟨root, hroot, hx⟩, ho⟩
      exact ⟨root, hroot, x, hx, ho⟩
  rw [hroots]
  constructor
  · rintro ⟨r, hr, ho⟩
    exact ⟨r, (mem_allRegions h).mp hr, h.mem_opsIn.mp ho⟩
  · rintro ⟨r, hr, ho⟩
    exact ⟨r, (mem_allRegions h).mpr hr, h.mem_opsIn.mpr ho⟩

lemma Consistent.isSome_of_mem_allOps (ho : o ∈ p.allOps) : (p.op? o).isSome := by
  obtain ⟨r, -, hparent⟩ := (mem_allOps h).mp ho
  exact isSome_of_parentOf? hparent

lemma AncestorIn.mem_allOps (hr : r ∈ p.roots) (hanc : AncestorIn p r o a) : o ∈ p.allOps := by
  obtain ⟨home, hparent, hattached⟩ := hanc.exists_home h ⟨0, .root hr⟩
  exact (Program.mem_allOps h).mpr ⟨home, hattached, hparent⟩

lemma exists_ancestorIn_of_mem_regionsToDepth (hx : x ∈ p.regionsToDepth depth r)
    (ho : p.parentOf? o = some x) : ∃ a, AncestorIn p r o a := by
  induction depth generalizing r with
  | zero => cases hx
  | succ depth ih =>
    rcases mem_regionsToDepth_succ.mp hx with rfl | ⟨a, ha, inner, hinner, hx⟩
    · exact ⟨o, .here ho⟩
    · obtain ⟨b, hb⟩ := ih hx
      exact ⟨a, hb.trans (.up hb.parentOf? (h.mem_regionsOf.mp hinner) (.here (h.mem_opsIn.mp ha)))⟩

lemma AncestorIn.mem_regionsToDepth (hanc : AncestorIn p r o a) (hr : Below p top m r)
    (hparent : p.parentOf? o = some home) (hhome : Below p top n home) :
    home ∈ p.regionsToDepth (n - m + 1) r := by
  induction hanc generalizing n home with
  | here hparent' =>
    cases hparent.symm.trans hparent'
    exact mem_regionsToDepth_succ.mpr (.inl rfl)
  | up hparent' howner habove ih =>
    cases hparent.symm.trans hparent'
    obtain ⟨k, outer, rfl, hparentOwner, houter⟩ := hhome.owner howner
    obtain ⟨m', hle, hat⟩ := habove.exists_below hparentOwner houter
    obtain rfl := (hr.unique hat).2
    have hnested := mem_regionsToDepth_nested (ih hparentOwner houter)
      (h.mem_opsIn.mpr hparentOwner) (h.mem_regionsOf.mpr howner)
    rwa [show k + 1 - m + 1 = k - m + 1 + 1 by omega]

lemma AncestorIn.mem_walk (hanc : AncestorIn p r o a)
    (hparent : p.parentOf? o = some home) (hhome : Below p top n home) : o ∈ p.walk r := by
  obtain ⟨m, hle, hr⟩ := hanc.exists_below hparent hhome
  have hmem := hanc.mem_regionsToDepth h hr hparent hhome
  have hlt := hhome.lt_length h
  exact mem_opsToDepth.mpr ⟨home, regionsToDepth_le (by omega) hmem, h.mem_opsIn.mpr hparent⟩

lemma mem_walk (hr : p.Attached r) : o ∈ p.walk r ↔ ∃ a, AncestorIn p r o a := by
  constructor
  · intro ho
    obtain ⟨x, hx, ho⟩ := mem_opsToDepth.mp ho
    exact exists_ancestorIn_of_mem_regionsToDepth h hx (h.mem_opsIn.mp ho)
  · rintro ⟨a, hanc⟩
    obtain ⟨home, hparent, n, hhome⟩ := hanc.exists_home h hr
    obtain ⟨top, -, hbelow⟩ := hhome.exists_below h
    exact hanc.mem_walk h hparent hbelow

end Walking

end TensorGraph.Program
