import Mathlib.Data.List.Flatten
import TensorGraph.Proofs.Continuity

/-!
Walks meet everything once. Regions at the same depth have nothing in common, since what encloses a
region is determined level by level.
-/

namespace TensorGraph

open List Option

variable {a x o : OpId} {r inner r' : RegionId} {n depth : Nat} {p : Program} {rs : List RegionId}

namespace Program

def regionsIn (p : Program) (r : RegionId) : List RegionId :=
  (p.opsIn r).flatMap p.regionsOf

lemma regionsToDepth_succ (p : Program) (depth : Nat) (r : RegionId) :
    p.regionsToDepth (depth + 1) r = r :: (p.regionsIn r).flatMap (p.regionsToDepth depth) := by
  rw [regionsToDepth, regionsIn, flatMap_assoc]

lemma mem_regionsIn : inner ∈ p.regionsIn r ↔ ∃ o ∈ p.opsIn r, inner ∈ p.regionsOf o :=
  mem_flatMap

lemma opsToDepth_perm (p : Program) (depth : Nat) (r : RegionId) :
    (p.opsToDepth depth r).Perm ((p.regionsToDepth depth r).flatMap p.opsIn) := by
  induction depth generalizing r with
  | zero => exact .nil
  | succ depth ih =>
    rw [opsToDepth, regionsToDepth_succ, flatMap_cons, regionsIn, flatMap_assoc, flatMap_assoc]
    refine (map_append_flatMap_perm (p.opsIn r) id _).symm.trans ?_
    rw [List.map_id]
    exact .append_left _ (.flatMap_left _ fun o _ ↦ .flatMap_left _ fun inner _ ↦ ih inner)

section Consistent

variable (h : p.Consistent)

include h

/-! ### Each region once -/

lemma nodup_regionsIn (r : RegionId) : (p.regionsIn r).Nodup := by
  refine nodup_flatMap.mpr ⟨fun o _ ↦ h.placed.ownedOnce o, ?_⟩
  refine (h.placed.once r).imp fun {o o'} hne inner hinner hinner' ↦ hne ?_
  have howner := (h.mem_regionsOf.mp hinner).symm.trans (h.mem_regionsOf.mp hinner')
  exact some.inj howner

omit h in
lemma AttachedAt.of_mem_regionsToDepth {x : RegionId} (hr : AttachedAt p n r)
    (hx : x ∈ p.regionsToDepth depth r) : x = r ∨ ∃ m, n < m ∧ AttachedAt p m x := by
  induction depth generalizing n r with
  | zero => cases hx
  | succ depth ih =>
    rcases mem_regionsToDepth_succ.mp hx with rfl | ⟨o, ho, inner, hinner, hx⟩
    · exact .inl rfl
    · have hat := hr.nested ho hinner
      right
      rcases ih hat hx with rfl | ⟨m, hm, hxm⟩
      · exact ⟨n + 1, Nat.lt_succ_self n, hat⟩
      · exact ⟨m, Nat.lt_of_succ_lt hm, hxm⟩

lemma AttachedAt.eq_of_mem_regionsToDepth {depth' : Nat} {x : RegionId} (hr : AttachedAt p n r)
    (hr' : AttachedAt p n r') (hx : x ∈ p.regionsToDepth depth r)
    (hx' : x ∈ p.regionsToDepth depth' r') : r = r' := by
  induction depth generalizing n depth' r r' with
  | zero => cases hx
  | succ depth ih =>
    cases depth' with
    | zero => cases hx'
    | succ depth' =>
      rcases mem_regionsToDepth_succ.mp hx with rfl | ⟨o, ho, inner, hinner, hin⟩
      · rcases hr'.of_mem_regionsToDepth hx' with heq | ⟨m, hm, hxm⟩
        · exact heq
        · exact absurd (hr.unique h hxm) (Nat.ne_of_lt hm)
      · rcases mem_regionsToDepth_succ.mp hx' with rfl | ⟨o', ho', inner', hinner', hin'⟩
        · rcases hr.of_mem_regionsToDepth hx with heq | ⟨m, hm, hxm⟩
          · exact heq.symm
          · exact absurd (hr'.unique h hxm) (Nat.ne_of_lt hm)
        · obtain rfl := ih (hr.nested ho hinner) (hr'.nested ho' hinner') hin hin'
          have howner := (h.mem_regionsOf.mp hinner).symm.trans (h.mem_regionsOf.mp hinner')
          cases howner
          exact some.inj ((h.mem_opsIn.mp ho).symm.trans (h.mem_opsIn.mp ho'))

lemma nodup_flatMap_regionsToDepth (hrs : rs.Nodup) (hat : ∀ r ∈ rs, AttachedAt p n r)
    (hwalk : ∀ r ∈ rs, (p.regionsToDepth depth r).Nodup) :
    (rs.flatMap (p.regionsToDepth depth)).Nodup := by
  refine nodup_flatMap.mpr ⟨hwalk, ?_⟩
  refine Pairwise.imp_of_mem (fun {r r'} hr hr' hne x hx hx' ↦ hne ?_) hrs
  exact (hat r hr).eq_of_mem_regionsToDepth h (hat r' hr') hx hx'

lemma AttachedAt.nodup_regionsToDepth (hr : AttachedAt p n r) (depth : Nat) :
    (p.regionsToDepth depth r).Nodup := by
  induction depth generalizing n r with
  | zero => exact .nil
  | succ depth ih =>
    have hat : ∀ inner ∈ p.regionsIn r, AttachedAt p (n + 1) inner := by
      intro inner hinner
      obtain ⟨o, ho, hmem⟩ := mem_regionsIn.mp hinner
      exact hr.nested ho hmem
    rw [regionsToDepth_succ]
    refine nodup_cons.mpr ⟨fun hmem ↦ ?_, nodup_flatMap_regionsToDepth h (nodup_regionsIn h r)
      hat fun inner hinner ↦ ih (hat inner hinner)⟩
    obtain ⟨inner, hinner, hx⟩ := mem_flatMap.mp hmem
    rcases (hat inner hinner).of_mem_regionsToDepth hx with rfl | ⟨m, hm, hxm⟩
    · exact absurd (hr.unique h (hat _ hinner)) (Nat.ne_of_lt (Nat.lt_succ_self n))
    · exact absurd (hr.unique h hxm) (Nat.ne_of_lt (Nat.lt_of_succ_lt hm))

lemma nodup_allRegions (hroots : p.roots.Nodup) : p.allRegions.Nodup :=
  nodup_flatMap_regionsToDepth h hroots (fun _ hr ↦ .root hr) fun _ hr ↦
    (AttachedAt.root hr).nodup_regionsToDepth h _

/-! ### Each operation once -/

lemma nodup_allOps (hroots : p.roots.Nodup) : p.allOps.Nodup := by
  have hperm : p.allOps.Perm (p.allRegions.flatMap p.opsIn) := by
    rw [allOps, allRegions, flatMap_assoc]
    exact .flatMap_left _ fun r _ ↦ opsToDepth_perm p p.regions.length r
  refine hperm.nodup_iff.mpr (nodup_flatMap.mpr ⟨fun r _ ↦ h.placed.once r, ?_⟩)
  refine (nodup_allRegions h hroots).imp fun {r r'} hne o ho ho' ↦ hne ?_
  exact some.inj ((h.mem_opsIn.mp ho).symm.trans (h.mem_opsIn.mp ho'))

/-! ### Each operation before what is nested in it -/

def Outside (p : Program) (x y : OpId) : Prop :=
  ∀ inner ∈ p.regionsOf y, ∀ a, ¬ AncestorIn p inner x a

lemma exists_ancestorIn_of_mem_opsToDepth (hx : x ∈ p.opsToDepth depth r) :
    ∃ a, AncestorIn p r x a := by
  obtain ⟨home, hhome, hin⟩ := mem_opsToDepth.mp hx
  exact exists_ancestorIn_of_mem_regionsToDepth h hhome (h.mem_opsIn.mp hin)

lemma AncestorIn.of_inner {y b : OpId} (hanc : AncestorIn p inner x a)
    (hinner : inner ∈ p.regionsOf y) (hy : AncestorIn p r y b) : AncestorIn p r x b :=
  hanc.trans (.up hanc.parentOf? (h.mem_regionsOf.mp hinner) hy)

lemma AttachedAt.eq_of_ancestorIn (hr : AttachedAt p n r) (hr' : AttachedAt p n r') {b : OpId}
    (ha : AncestorIn p r x a) (hb : AncestorIn p r' x b) : r = r' := by
  obtain ⟨home, hparent, m, hhome⟩ := ha.exists_home h ⟨n, hr⟩
  obtain ⟨top, -, hbelow⟩ := hhome.exists_below h
  obtain ⟨k, -, hr₁⟩ := ha.exists_below hparent hbelow
  obtain ⟨k', -, hr₂⟩ := hb.exists_below hparent hbelow
  exact hr.eq_of_mem_regionsToDepth h hr' (ha.mem_regionsToDepth h hr₁ hparent hbelow)
    (hb.mem_regionsToDepth h hr₂ hparent hbelow)

lemma pairwise_flatMap_opsToDepth (hrs : rs.Nodup) (hat : ∀ r ∈ rs, AttachedAt p n r)
    (hwalk : ∀ r ∈ rs, (p.opsToDepth depth r).Pairwise p.Outside) :
    (rs.flatMap (p.opsToDepth depth)).Pairwise p.Outside := by
  refine pairwise_flatMap.mpr ⟨hwalk, ?_⟩
  refine Pairwise.imp_of_mem (fun {r r'} hr hr' hne x hx y hy inner hinner a hanc ↦ hne ?_) hrs
  obtain ⟨b, hb⟩ := exists_ancestorIn_of_mem_opsToDepth h hx
  obtain ⟨c, hc⟩ := exists_ancestorIn_of_mem_opsToDepth h hy
  exact (hat r hr).eq_of_ancestorIn h (hat r' hr') hb (hanc.of_inner h hinner hc)

lemma AttachedAt.pairwise_opsToDepth (hr : AttachedAt p n r) (depth : Nat) :
    (p.opsToDepth depth r).Pairwise p.Outside := by
  induction depth generalizing n r with
  | zero => exact .nil
  | succ depth ih =>
    have hblock : ∀ o ∈ p.opsIn r, ∀ x ∈ o :: (p.regionsOf o).flatMap (p.opsToDepth depth),
        AncestorIn p r x o := by
      intro o ho x hx
      have hhere : AncestorIn p r o o := .here (h.mem_opsIn.mp ho)
      rcases mem_cons.mp hx with rfl | hx
      · exact hhere
      · obtain ⟨inner, hinner, hx⟩ := mem_flatMap.mp hx
        obtain ⟨a, ha⟩ := exists_ancestorIn_of_mem_opsToDepth h hx
        exact ha.of_inner h hinner hhere
    rw [opsToDepth, pairwise_flatMap]
    refine ⟨fun o ho ↦ pairwise_cons.mpr ⟨fun x hx inner hinner a hanc ↦ ?_, ?_⟩, ?_⟩
    · -- Otherwise the operation would lie in a region of its own.
      obtain ⟨home, hhome, hx⟩ := mem_flatMap.mp hx
      obtain ⟨b, hb⟩ := exists_ancestorIn_of_mem_opsToDepth h hx
      exact (hanc.of_inner h hinner hb).not_of_owner h (hr.nested ho hhome)
        (h.mem_regionsOf.mp hhome)
    · exact pairwise_flatMap_opsToDepth h (h.placed.ownedOnce o)
        (fun _ hinner ↦ hr.nested ho hinner) fun _ hinner ↦ ih (hr.nested ho hinner)
    · refine Pairwise.imp_of_mem (fun {o o'} ho ho' hne x hx y hy inner hinner a hanc ↦ hne ?_)
        (h.placed.once r)
      have hxo := hblock o ho x hx
      obtain ⟨home, hparent, hhome⟩ := hxo.exists_home h ⟨n, hr⟩
      exact hxo.unique h hparent hhome (hanc.of_inner h hinner (hblock o' ho' y hy))

lemma pairwise_allOps (hroots : p.roots.Nodup) : p.allOps.Pairwise p.Outside :=
  pairwise_flatMap_opsToDepth h hroots (fun _ hr ↦ .root hr) fun _ hr ↦
    (AttachedAt.root hr).pairwise_opsToDepth h _

/-! ### Climbing -/

omit h in
lemma AncestorIn.climbsTo {outer home top : RegionId} {steps : Nat} (hanc : AncestorIn p outer o a)
    (hparent : p.parentOf? o = some home) (hhome : Below p top n home) (hsteps : n < steps) :
    p.climbsTo outer steps home = some true := by
  induction hanc generalizing n steps home with
  | here hhere =>
    cases hparent.symm.trans hhere
    obtain ⟨steps, rfl⟩ := Nat.exists_eq_succ_of_ne_zero (Nat.ne_of_gt (Nat.zero_lt_of_lt hsteps))
    rw [climbsTo, if_pos rfl]
  | up hup howner _ ih =>
    cases hparent.symm.trans hup
    obtain ⟨m, home', rfl, hparent', hhome'⟩ := hhome.owner howner
    obtain ⟨steps, rfl⟩ := Nat.exists_eq_succ_of_ne_zero (Nat.ne_of_gt (Nat.zero_lt_of_lt hsteps))
    obtain ⟨node, hnode, rfl⟩ := exists_op_of_parentOf? hparent'
    have habove := ih hparent' hhome' (Nat.lt_of_succ_lt_succ hsteps)
    rw [climbsTo, howner, bind_some, hnode]
    split_ifs
    · rfl
    · exact habove

lemma isWithin_of_ancestorIn {outer home : RegionId} (hanc : AncestorIn p outer o a)
    (hparent : p.parentOf? o = some home) (hhome : p.Attached home) :
    p.isWithin home outer = true := by
  obtain ⟨n, hat⟩ := hhome
  obtain ⟨top, -, hbelow⟩ := hat.exists_below h
  exact isWithin_eq_true.mpr (hanc.climbsTo hparent hbelow (hbelow.lt_length h))

end Consistent

end Program

lemma Reachable.nodup_roots (h : Reachable p) : p.roots.Nodup :=
  nodup_cons.mpr
    ⟨Edit.not_mem_bodies h.consistent (by simp [h.consistent.placed.graph]), h.distinct.bodies⟩

end TensorGraph
