import Mathlib.Order.Nat
import TensorGraph.Pass.BranchSinking
import TensorGraph.Proofs.Changes
import TensorGraph.Proofs.Forest

/-!
Sinking into branches. The operation that a destination is found for stands before the one that
holds the branch, since a use in the branch sees it.
-/

namespace TensorGraph

open Program Edit List Option

variable {p m q : Program} {o anchor x holder : OpId} {r branch home : RegionId} {n : Nat}
  {changed : Bool} {holders : List OpId} {registry : Registry} {k : OpId → Bool}
  {branches : List RegionId} {outer inner : RegionId}

lemma filter_eq_of_imp {k' : OpId → Bool} (himp : ∀ o, k' o = true → k o = true) {l l' : List OpId}
    (h : l.filter k = l'.filter k) : l.filter k' = l'.filter k' := by
  have hfilter : ∀ l : List OpId, (l.filter k).filter k' = l.filter k' := by
    intro l
    rw [List.filter_filter]
    refine filter_congr fun o _ ↦ ?_
    cases hk : k' o with
    | false => rfl
    | true => rw [himp o hk, Bool.and_self]
  rw [← hfilter l, h, hfilter l']

namespace Program

/-- The operation is in the same region in both programs. -/
def stays (p q : Program) (o : OpId) : Bool :=
  q.parentOf? o == p.parentOf? o

/-- The second region belongs to an operation directly in the first one, and runs at most once. -/
def EntersOnce (p : Program) (outer inner : RegionId) : Prop :=
  p.Encloses outer inner ∧ (p.region? inner).any (·.isOnce) = true

lemma stays_eq_true : stays p q o = true ↔ q.parentOf? o = p.parentOf? o :=
  beq_iff_eq

lemma stays_eq_false : stays p q o = false ↔ q.parentOf? o ≠ p.parentOf? o :=
  beq_eq_false_iff_ne

lemma AttachedAt.lt_of_entersOnce (houter : AttachedAt p n outer)
    (hdown : Relation.TransGen p.EntersOnce outer inner) : ∃ m, n < m ∧ AttachedAt p m inner := by
  induction hdown with
  | single hstep =>
    obtain ⟨⟨o, ho, hinner⟩, -⟩ := hstep
    exact ⟨n + 1, n.lt_succ_self, .nested houter ho hinner⟩
  | tail _ hstep ih =>
    obtain ⟨m, hlt, hmiddle⟩ := ih
    obtain ⟨⟨o, ho, hinner⟩, -⟩ := hstep
    exact ⟨m + 1, hlt.trans m.lt_succ_self, .nested hmiddle ho hinner⟩

end Program

namespace BranchSinking

/-! ### Destinations -/

/-- The operation is stateless and plain, no terminator, waits for nothing, and nothing waits for
it. -/
def Movable (registry : Registry) (p : Program) (o : OpId) : Prop :=
  ∃ node, p.op? o = some node ∧ registry.isStateless node.kind = true ∧ node.form = .plain ∧
    node.isTerminator = false ∧ node.control = [] ∧ p.controlDependents o = []

lemma movable_of_isMovable (h : isMovable p registry o = true) : Movable registry p o := by
  unfold isMovable at h
  rcases hnode : p.op? o with _ | node
  · rw [hnode] at h
    cases h
  · rw [hnode] at h
    simp only [Bool.and_eq_true, Bool.not_eq_true', List.isEmpty_iff] at h
    obtain ⟨⟨⟨⟨⟨hstateless, hend⟩, hplain⟩, hcontrol⟩, -⟩, hwaits⟩ := h
    have hform : node.form = .plain := by simpa [Operation.isPlain] using hplain
    exact ⟨node, hnode, hstateless, hform, hend, hcontrol, hwaits⟩

lemma Movable.regionsOf (h : Movable registry p o) : p.regionsOf o = [] := by
  obtain ⟨node, hnode, -, hform, -⟩ := h
  rw [regionsOf_eq hnode, Operation.regions, hform]

lemma isMovable_eq_true (hmovable : isMovable p registry o = true) :
    p.regionsOf o = [] ∧ p.isEnd o = false ∧ p.controlOf o = [] ∧ ∀ x, o ∉ p.controlOf x := by
  have h := movable_of_isMovable hmovable
  refine ⟨h.regionsOf, ?_⟩
  obtain ⟨node, hnode, -, -, hend, hcontrol, hwaits⟩ := h
  refine ⟨?_, ?_, fun x hx ↦ ?_⟩
  · rw [isEnd, hnode]
    exact hend
  · rw [controlOf_eq hnode]
    exact hcontrol
  · have hmem := mem_controlDependents.mpr hx
    rw [hwaits] at hmem
    cases hmem

lemma mem_usersOf (h : p.Consistent) {v : ValueId} (hv : v ∈ p.resultsOf o)
    (huse : v ∈ p.operandsOf x) : x ∈ usersOf p o := by
  refine mem_flatMap.mpr ⟨v, hv, ?_⟩
  change x ∈ p.usersOf v
  rw [← count_pos_iff, h.uses.counts]
  exact count_pos_iff.mpr huse

lemma branchOf_eq_some {user : OpId} (hbranch : branchOf p branches user = some branch) :
    branch ∈ branches ∧ ∃ a, AncestorIn p branch user a := by
  obtain ⟨node, hnode, hfind⟩ := bind_eq_some_iff.mp hbranch
  exact ⟨mem_of_find?_eq_some hfind, exists_ancestorIn_of_isWithin (parentOf?_eq hnode)
    (find?_some hfind)⟩

lemma commonBranch_eq_some {users : List OpId}
    (hbranch : commonBranch p branches users = some branch) : branch ∈ branches ∧
    ∀ user ∈ users, ∃ a, AncestorIn p branch user a := by
  rcases users with _ | ⟨user, rest⟩
  · cases hbranch
  rw [commonBranch] at hbranch
  split at hbranch
  · cases hbranch
  · next first hfirst =>
    split_ifs at hbranch with hall
    cases hbranch
    refine ⟨(branchOf_eq_some hfirst).1, fun other hother ↦ ?_⟩
    rcases mem_cons.mp hother with rfl | hother
    · exact (branchOf_eq_some hfirst).2
    · have hsame := all_eq_true.mp hall other hother
      exact (branchOf_eq_some (beq_iff_eq.mp hsame)).2

lemma anchor?_eq_some (h : p.Consistent) (hanchor : anchor? p o holder = some anchor) :
    ∃ branch ∈ p.regionsOf holder, anchor ∈ p.opsIn branch ∧ ∀ x ∈ p.allOps, x ∈ usersOf p o →
    AncestorIn p branch x anchor ∨ Sees p x anchor := by
  unfold anchor? at hanchor
  dsimp only at hanchor
  split_ifs at hanchor with honce
  obtain ⟨branch, hbranch, hfind⟩ := bind_eq_some_iff.mp hanchor
  obtain ⟨hmem, hinside⟩ := commonBranch_eq_some hbranch
  refine ⟨branch, hmem, mem_of_find?_eq_some hfind, fun x hx huser ↦ ?_⟩
  obtain ⟨-, front, back, hsplit, hearlier⟩ := find?_eq_some_iff_append.mp hfind
  obtain ⟨a, hanc⟩ := hinside x huser
  obtain ⟨home, hhome, hparent⟩ := (mem_allOps h).mp hx
  have hfound := hanc.ancestorIn? h hparent hhome
  have ha := h.mem_opsIn.mpr hanc.parentOf?
  rw [hsplit, mem_append, mem_cons] at ha
  rcases ha with hfront | rfl | hback
  · -- Whatever stands in front of the first operation with a use has no use.
    have hnone := hearlier a hfront
    simp only [Bool.not_eq_true', List.any_eq_false, beq_iff_eq] at hnone
    exact absurd hfound (hnone x huser)
  · exact .inl hanc
  · exact .inr ⟨branch, a, hanc, before_of_split (front ++ [anchor]) back (by rw [hsplit]; simp)
      (by simp) hback⟩

lemma holder?_eq_some (h : WellOrdered p) (hr : p.Attached r) (ho : p.parentOf? o = some r)
    (hholder : holder? p r holders o = some holder) : Before p r o holder := by
  unfold holder? at hholder
  simp only [bind_eq_bind, bind_eq_some_iff] at hholder
  obtain ⟨node, hnode, v, hv, value, hvalue, user, huser, found, hfound, hheld⟩ := hholder
  split_ifs at hheld
  cases hheld
  have hp := h.consistent
  have hanc := ancestorIn_of_ancestorIn? hfound
  obtain ⟨home, hparent, hhome⟩ := hanc.exists_home hp hr
  have hattached : user ∈ p.allOps := (mem_allOps hp).mpr ⟨home, hhome, hparent⟩
  have huse : v ∈ p.operandsOf user := by
    rw [← count_pos_iff, ← hp.uses.counts, usersOf_eq hvalue]
    exact count_pos_iff.mpr (mem_of_head? huser)
  have hresult : v ∈ p.resultsOf o := by
    rw [resultsOf_eq hnode]
    exact mem_of_head? hv
  exact ((h.scoping.operands user hattached v huse).sees_of_mem_results hp hresult).before
    hp hattached hanc ho

lemma destination?_eq_some (hanchor : destination? p registry r holders o = some anchor) :
    isMovable p registry o = true ∧ ∃ holder, holder? p r holders o = some holder ∧
      anchor? p o holder = some anchor := by
  unfold destination? at hanchor
  split_ifs at hanchor with hmovable
  exact ⟨hmovable, bind_eq_some_iff.mp hanchor⟩

lemma parentOf?_holder (hholder : holder? p r holders o = some holder) :
    p.parentOf? holder = some r := by
  unfold holder? at hholder
  simp only [bind_eq_bind, bind_eq_some_iff] at hholder
  obtain ⟨_, _, _, _, _, _, _, _, found, hfound, hheld⟩ := hholder
  split_ifs at hheld
  cases hheld
  exact (ancestorIn_of_ancestorIn? hfound).parentOf?

lemma anchor?_once (hanchor : anchor? p o holder = some anchor) :
    ∀ r ∈ p.regionsOf holder, (p.region? r).any (·.isOnce) = true := by
  unfold anchor? at hanchor
  dsimp only at hanchor
  split_ifs at hanchor with honce
  exact all_eq_true.mp honce

/-! ### Operations that have moved -/

/-- A movable operation has gone into a region within its old one, by way of regions that run at
most once. -/
def Sunk (registry : Registry) (p q : Program) (o : OpId) : Prop :=
  Movable registry p o ∧ ∃ home target, p.parentOf? o = some home ∧ q.parentOf? o = some target ∧
    p.Attached home ∧ Relation.TransGen p.EntersOnce home target

structure Sinks (registry : Registry) (p q : Program) : Prop where
  same : SameButPlaces p q
  order : ∀ r, (q.opsIn r).filter (stays p q) = (p.opsIn r).filter (stays p q)
  sunk : ∀ o, stays p q o = false → Sunk registry p q o

lemma Movable.of_same (h : Movable registry m o) (hsame : SameButPlaces p m) :
    Movable registry p o := by
  obtain ⟨node, hnode, hstateless, hform, hend, hcontrol, hwaits⟩ := h
  obtain ⟨home, hnode'⟩ := hsame.symm.op?_eq hnode
  refine ⟨_, hnode', hstateless, hform, hend, hcontrol, eq_nil_iff_forall_not_mem.mpr fun x hx ↦ ?_⟩
  rw [mem_controlDependents, ← hsame.controlOf x, ← mem_controlDependents, hwaits] at hx
  cases hx

lemma Sunk.not_stays (h : Sunk registry p q o) (hp : p.Consistent) : stays p q o = false := by
  obtain ⟨-, home, target, hhome, htarget, ⟨n, hat⟩, hdown⟩ := h
  rw [stays_eq_false, hhome, htarget]
  intro heq
  cases heq
  obtain ⟨n', hlt, hat'⟩ := hat.lt_of_entersOnce hdown
  exact absurd (hat.unique hp hat') hlt.ne

namespace Sinks

lemma refl (registry : Registry) (p : Program) : Sinks registry p p := by
  refine ⟨rfl, fun _ ↦ rfl, fun o ho ↦ ?_⟩
  exact absurd rfl (stays_eq_false.mp ho)

section Regions

variable (h : Sinks registry p q) (hp : p.Consistent) (hq : q.Consistent)

include h

lemma parentOf?_of_mem_regionsOf (hr : r ∈ p.regionsOf o) : q.parentOf? o = p.parentOf? o := by
  by_contra hmoved
  have hmovable := (h.sunk o (stays_eq_false.mpr hmoved)).1
  rw [hmovable.regionsOf] at hr
  cases hr

include hp hq

lemma encloses_iff : q.Encloses outer inner ↔ p.Encloses outer inner := by
  refine exists_congr fun o ↦ ?_
  rw [hq.mem_opsIn, hp.mem_opsIn, h.same.regionsOf]
  refine and_congr_left fun hinner ↦ ?_
  rw [h.parentOf?_of_mem_regionsOf hinner]

lemma entersOnce_eq : q.EntersOnce = p.EntersOnce := by
  ext outer inner
  have honce : (q.region? inner).any (·.isOnce) = (p.region? inner).any (·.isOnce) := by
    have hview := h.same.regionView (f := Region.isOnce) (fun _ ↦ rfl) inner
    have hany : ∀ region : Option Region, region.any (·.isOnce) =
        (region.map Region.isOnce).any id := by
      intro region
      rw [Option.any_map]
      rfl
    rw [hany, hview, ← hany]
  rw [EntersOnce, EntersOnce, h.encloses_iff hp hq, honce]

lemma attachedAt_iff : AttachedAt q n r ↔ AttachedAt p n r :=
  ⟨.of_encloses h.same.roots.symm (h.encloses_iff hp hq).mp, .of_encloses h.same.roots
    (h.encloses_iff hp hq).mpr⟩

lemma forested (hforest : p.Forested) : q.Forested where
  consistent := hq
  grounded r := by
    obtain ⟨top, n, hr⟩ := hforest.grounded r
    have howner : ∀ x, q.parentOp? x = p.parentOp? x := fun x ↦
      parentOp?_congr (h.same.regionView (f := Region.owner) (fun _ ↦ rfl) x)
    refine ⟨top, n, ?_⟩
    induction hr with
    | top htop => exact .top ((howner top).trans htop)
    | nested _ ho hinner ih =>
      have hstays := h.parentOf?_of_mem_regionsOf (hp.mem_regionsOf.mpr hinner)
      exact ih.nested (hstays.trans ho) ((howner _).trans hinner)

end Regions

section Trans

variable (h : Sinks registry p m) (hp : p.Consistent) (hm : m.Consistent)

include h hp hm

lemma sunk_sunk (hsunk : Sunk registry p m o) (hnext : stays m q o = false → Sunk registry m q o) :
    Sunk registry p q o := by
  obtain ⟨hmovable, home, middle, hhome, hmiddle, hattached, hdown⟩ := hsunk
  cases hstays : stays m q o with
  | true =>
    rw [stays_eq_true] at hstays
    exact ⟨hmovable, home, middle, hhome, hstays.trans hmiddle, hattached, hdown⟩
  | false =>
    obtain ⟨-, middle', target, hmiddle', htarget, -, hfurther⟩ := hnext hstays
    cases hmiddle.symm.trans hmiddle'
    rw [h.entersOnce_eq hp hm] at hfurther
    exact ⟨hmovable, home, target, hhome, htarget, hattached, hdown.trans hfurther⟩

lemma stays_sunk (hstays : stays p m o = true) (hsunk : Sunk registry m q o) :
    Sunk registry p q o := by
  obtain ⟨hmovable, home, target, hhome, htarget, ⟨n, hat⟩, hdown⟩ := hsunk
  rw [stays_eq_true] at hstays
  rw [h.entersOnce_eq hp hm] at hdown
  have hattached : p.Attached home := ⟨n, (h.attachedAt_iff hp hm).mp hat⟩
  exact ⟨hmovable.of_same h.same, home, target, hstays.symm.trans hhome, htarget, hattached, hdown⟩

lemma stays_of_stays (h' : Sinks registry m q) (hstays : stays p q o = true) :
    stays p m o = true ∧ stays m q o = true := by
  have hfirst : stays p m o = true := by
    by_contra hmoved
    have hsunk := h.sunk_sunk hp hm (h.sunk o (Bool.eq_false_iff.mpr hmoved)) (h'.sunk o)
    cases hstays.symm.trans (hsunk.not_stays hp)
  refine ⟨hfirst, ?_⟩
  rw [stays_eq_true] at *
  exact hstays.trans hfirst.symm

lemma trans (h' : Sinks registry m q) : Sinks registry p q := by
  have hstays := fun o ↦ h.stays_of_stays hp hm h' (o := o)
  refine ⟨Eq.trans h'.same h.same, fun r ↦ ?_, fun o hmoved ↦ ?_⟩
  · calc (q.opsIn r).filter (stays p q) = (m.opsIn r).filter (stays p q) :=
          filter_eq_of_imp (fun o ho ↦ (hstays o ho).2) (h'.order r)
      _ = (p.opsIn r).filter (stays p q) := filter_eq_of_imp (fun o ho ↦ (hstays o ho).1)
        (h.order r)
  · by_cases hfirst : stays p m o = true
    · refine h.stays_sunk hp hm hfirst (h'.sunk o ?_)
      rw [stays_eq_true] at hfirst
      rw [stays_eq_false] at hmoved ⊢
      rwa [hfirst]
    · exact h.sunk_sunk hp hm (h.sunk o (Bool.eq_false_iff.mpr hfirst)) (h'.sunk o)

end Trans

end Sinks

/-! ### Steps -/

lemma moveOpBefore_exec (hp : p.Consistent) (ho : p.parentOf? o = some home) (hne : o ≠ anchor)
    (hanchor : p.parentOf? anchor = some r) : ∃ index, ((p.detached o home).opsIn r)[index]? =
    some anchor ∧ (moveOpBefore o anchor).exec p = (.ok ⟨⟩, p.movedOp o home r index) := by
  obtain ⟨target, htarget, rfl⟩ := exists_op_of_parentOf? hanchor
  have hdetach : (detach o).exec p = (.ok ⟨⟩, p.detached o home) := by
    refine does_detach.exec ⟨home, ho, hp.mem_opsIn.mpr ho, rfl⟩ ?_
    rintro _ _ ⟨r, hr, -, rfl⟩
    cases ho.symm.trans hr
    exact ⟨rfl, rfl⟩
  obtain ⟨index, hindex⟩ := hp.position_detached ho hne hanchor
  obtain ⟨r, hr, hlisted, hidx⟩ := position_eq_ok.mp hindex
  cases hanchor.symm.trans hr
  refine ⟨index, hidx ▸ getElem?_idxOf hlisted, ?_⟩
  unfold moveOpBefore
  rw [if_neg hne, bind_readOp htarget, exec_bind_of_ok hdetach, exec_bind_of_ok
    (by rw [exec_read, hindex])]
  rfl

lemma filter_opsIn_attach {index : Nat}
    (hanchor : ((p.detached o home).opsIn r)[index]? = some anchor) (hk : k o = false)
    (x : RegionId) : ((p.movedOp o home r index).opsIn x).filter k = (p.opsIn x).filter k := by
  have hk : ¬ k o = true := Bool.eq_false_iff.mp hk
  obtain ⟨front, back, hsplit, -, hops⟩ := opsIn_attach hanchor
  have hdetached : ((p.detached o home).opsIn x).filter k = (p.opsIn x).filter k := by
    rw [opsIn_detached]
    split_ifs with hx
    · rw [hx, ← erase_filter, erase_of_not_mem fun hmem ↦ hk (mem_filter.mp hmem).2]
    · rfl
  rw [hops, ← hdetached]
  split_ifs with hx
  · rw [hx, hsplit, filter_append, filter_cons_of_neg hk, filter_append]
  · rfl

/-- A movable operation goes from its region into a branch of an operation there, in front of the
first operation of the branch that contains a use. -/
inductive Step (registry : Registry) (o : OpId) (p : Program) : Program → Prop where
  | sink {r branch : RegionId} {holders : List OpId} {holder anchor : OpId} {index : Nat}
      (hr : p.Attached r) (ho : p.parentOf? o = some r) (hmovable : isMovable p registry o = true)
      (hholder : holder? p r holders o = some holder) (hplace : anchor? p o holder = some anchor)
      (hbranch : branch ∈ p.regionsOf holder)
      (hindex : ((p.detached o r).opsIn branch)[index]? = some anchor) :
      Step registry o p (p.movedOp o r branch index)

lemma entersOnce_branch (hp : p.Consistent) (hholder : holder? p r holders o = some holder)
    (hplace : anchor? p o holder = some anchor) (hbranch : branch ∈ p.regionsOf holder) :
    p.EntersOnce r branch :=
  ⟨⟨holder, hp.mem_opsIn.mpr (parentOf?_holder hholder), hbranch⟩,
    anchor?_once hplace branch hbranch⟩

lemma exists_step (hp : p.Consistent) (hr : p.Attached r) (ho : p.parentOf? o = some r)
    (hanchor : destination? p registry r holders o = some anchor) :
    Succeeds (moveOpBefore o anchor) p fun _ q ↦ Step registry o p q := by
  obtain ⟨hmovable, holder, hholder, hplace⟩ := destination?_eq_some hanchor
  obtain ⟨branch, hbranch, hin, -⟩ := anchor?_eq_some hp hplace
  have hne : o ≠ anchor := by
    rintro rfl
    cases ho.symm.trans (hp.mem_opsIn.mp hin)
    obtain ⟨n, hat⟩ := hr
    obtain ⟨m, hlt, hat'⟩ :=
      hat.lt_of_entersOnce (.single (entersOnce_branch hp hholder hplace hbranch))
    exact absurd (hat.unique hp hat') hlt.ne
  obtain ⟨index, hindex, hok⟩ := moveOpBefore_exec hp ho hne (hp.mem_opsIn.mp hin)
  exact .of_ok hok (.sink hr ho hmovable hholder hplace hbranch hindex)

namespace Step

variable (h : Step registry o p q)

include h

lemma consistent (hp : p.Consistent) : q.Consistent := by
  obtain ⟨-, ho, -, -, -, -, hindex⟩ := h
  exact hp.attach ho (isSome_region?_of_mem_opsIn (mem_opsIn_of_detached (mem_of_getElem? hindex)))
    (List.getElem?_eq_some_iff.mp hindex).1.le

lemma parentOf?_of_ne (hx : x ≠ o) : q.parentOf? x = p.parentOf? x := by
  obtain ⟨-, -, -, -, -, -, -⟩ := h
  exact parentOf?_attach _ _ _ _ _ hx

lemma sunk (hp : p.Consistent) : Sunk registry p q o := by
  obtain ⟨hr, ho, hmovable, hholder, hplace, hbranch, -⟩ := h
  refine ⟨movable_of_isMovable hmovable, _, _, ho, ?_, hr, .single
    (entersOnce_branch hp hholder hplace hbranch)⟩
  obtain ⟨node, hnode, -⟩ := exists_op_of_parentOf? ho
  rw [parentOf?, op?_attach, hnode, map_some, if_pos rfl, map_some]

lemma sinks (hp : p.Consistent) : Sinks registry p q := by
  have hsunk := h.sunk hp
  have hothers := fun {x} ↦ h.parentOf?_of_ne (x := x)
  obtain ⟨-, -, -, -, -, -, hindex⟩ := h
  refine ⟨.attach _ _ _ _ _, fun x ↦ filter_opsIn_attach hindex (hsunk.not_stays hp) x,
    fun x hx ↦ ?_⟩
  obtain rfl : x = o := by
    by_contra hxo
    exact stays_eq_false.mp hx (hothers hxo)
  exact hsunk

lemma wellOrdered (hp : WellOrdered p) : WellOrdered q := by
  obtain ⟨hr, ho, hmovable, hholder, hplace, hbranch, hindex⟩ := h
  obtain ⟨hleaf, hend, hcontrol, hwaits⟩ := isMovable_eq_true hmovable
  have hbefore := holder?_eq_some hp hr ho hholder
  obtain ⟨branch, -, hin, husers⟩ := anchor?_eq_some hp.consistent hplace
  have hin' := mem_opsIn_of_detached (mem_of_getElem? hindex)
  rw [hp.consistent.mem_opsIn] at hin hin'
  cases hin.symm.trans hin'
  exact hp.sink ((mem_allOps hp.consistent).mpr ⟨_, hr, ho⟩) hleaf hend hcontrol hwaits hbefore
    hbranch hindex fun x hx v hv huse ↦ husers x hx (mem_usersOf hp.consistent hv huse)

end Step

/-! ### Runs -/

def Descends (registry : Registry) : Program → Program → Prop :=
  Relation.TransGen fun p q ↦ ∃ o, Step registry o p q

lemma Descends.sinks (h : Descends registry p q) (hp : p.Consistent) :
    q.Consistent ∧ Sinks registry p q ∧ ∃ o, stays p q o = false := by
  induction h with
  | single hstep =>
    obtain ⟨o, hstep⟩ := hstep
    exact ⟨hstep.consistent hp, hstep.sinks hp, o, (hstep.sunk hp).not_stays hp⟩
  | tail _ hstep ih =>
    obtain ⟨hm, hsinks, o, hmoved⟩ := ih
    obtain ⟨x, hstep⟩ := hstep
    have hlater := hstep.sinks hm
    refine ⟨hstep.consistent hm, hsinks.trans hp hm hlater, o, Bool.eq_false_iff.mpr
      fun hstays ↦ ?_⟩
    cases hmoved.symm.trans (hsinks.stays_of_stays hp hm hlater hstays).1

lemma Descends.wellOrdered (h : Descends registry p q) (hp : WellOrdered p) : WellOrdered q := by
  induction h with
  | single hstep => exact hstep.choose_spec.wellOrdered hp
  | tail _ hstep ih => exact hstep.choose_spec.wellOrdered ih

section Reports

variable (h : Reports (Descends registry) p changed q)

include h

lemma sinks_of_reports (hp : p.Consistent) : q.Consistent ∧ Sinks registry p q := by
  cases changed with
  | false =>
    obtain rfl : q = p := h
    exact ⟨hp, .refl registry q⟩
  | true =>
    obtain ⟨hq, hsinks, -⟩ := Descends.sinks h hp
    exact ⟨hq, hsinks⟩

lemma wellOrdered_of_reports (hp : WellOrdered p) : WellOrdered q := by
  cases changed with
  | false =>
    obtain rfl : q = p := h
    exact hp
  | true => exact Descends.wellOrdered h hp

lemma attached_of_reports (hp : p.Consistent) (hr : p.Attached r) : q.Attached r := by
  obtain ⟨hq, hsinks⟩ := sinks_of_reports h hp
  obtain ⟨n, hat⟩ := hr
  exact ⟨n, (hsinks.attachedAt_iff hp hq).mpr hat⟩

end Reports

section

variable (registry : Registry) (hp : p.Consistent)

include hp

lemma succeeds_sinkRegion (hr : p.Attached r) :
    Succeeds (sinkRegion registry r) p (Reports (Descends registry) p) := by
  unfold sinkRegion
  refine .get_bind ?_
  dsimp only
  split_ifs
  · exact .of_ok rfl .unchanged
  refine .imp (succeeds_anyChange (I := fun rest m ↦ (m.Consistent ∧ m.Attached r) ∧ rest.Nodup ∧
    ∀ o ∈ rest, m.parentOf? o = some r) (R := Descends registry) .trans (fun o rest m hm ↦ ?_)
    ⟨⟨hp, hr⟩, nodup_reverse.mpr (hp.placed.once r), fun o ho ↦
    hp.mem_opsIn.mp (mem_reverse.mp ho)⟩) fun _ _ hq ↦ hq.2
  obtain ⟨⟨hm, hr⟩, hnodup, hhome⟩ := hm
  rw [nodup_cons] at hnodup
  rw [forall_mem_cons] at hhome
  refine .get_bind ?_
  split
  · exact .of_ok rfl ⟨⟨⟨hm, hr⟩, hnodup.2, hhome.2⟩, .unchanged⟩
  · next anchor hanchor =>
    refine .bind (exists_step hm hr hhome.1 hanchor) fun _ q hstep ↦ .of_ok rfl ?_
    have hreport : Reports (Descends registry) m true q := .of_rel (.single ⟨o, hstep⟩)
    refine ⟨⟨⟨hstep.consistent hm, attached_of_reports hreport hm hr⟩, hnodup.2, fun x hx ↦ ?_⟩,
      hreport⟩
    have hne : x ≠ o := by
      rintro rfl
      exact hnodup.1 hx
    rw [hstep.parentOf?_of_ne hne]
    exact hhome.2 x hx

lemma succeeds_round : Succeeds (round registry) p (Reports (Descends registry) p) := by
  unfold round
  refine .get_bind ?_
  refine .imp (succeeds_anyChange (I := fun rest m ↦ m.Consistent ∧ ∀ r ∈ rest, m.Attached r)
    (R := Descends registry) .trans (fun r rest m hm ↦ ?_)
    ⟨hp, fun r hr ↦ (mem_allRegions hp).mp hr⟩) fun _ _ hq ↦ hq.2
  obtain ⟨hm, hattached⟩ := hm
  rw [forall_mem_cons] at hattached
  refine (succeeds_sinkRegion registry hm hattached.1).imp fun _ q hreport ↦
    ⟨⟨(sinks_of_reports hreport hm).1, ?_⟩, hreport⟩
  exact fun x hx ↦ attached_of_reports hreport hm (hattached.2 x hx)

lemma succeeds_rounds (count : Nat) :
    Succeeds (rounds registry count) p (Reports (Descends registry) p) := by
  induction count generalizing p with
  | zero => exact .of_ok rfl .unchanged
  | succ count ih =>
    refine .bind (succeeds_round registry hp) fun moved m hreport ↦ ?_
    cases moved with
    | false => exact .of_ok rfl hreport
    | true =>
      have hm := (sinks_of_reports hreport hp).1
      exact .bind (ih hm) fun _ q hrest ↦ .of_ok rfl (hreport.trans .trans hrest)

end

lemma reports_descends (hp : p.Consistent) (hok : (run registry).exec p = (.ok changed, q)) :
    Reports (Descends registry) p changed q := by
  obtain ⟨_, _, hrun, hreport⟩ :=
    succeeds_rounds registry hp (p.slots.length * p.regions.length + 1)
  obtain ⟨hchanged, rfl⟩ := Prod.mk.inj (hok.symm.trans hrun)
  exact Except.ok.inj hchanged ▸ hreport

lemma wellOrdered_run (h : WellOrdered p) (hok : (run registry).exec p = (.ok changed, q)) :
    WellOrdered q :=
  wellOrdered_of_reports (reports_descends h.consistent hok) h

lemma keeps_reachable_run (registry : Registry) : Keeps Reachable (run registry) := by
  have hround : Keeps Reachable (round registry) := by
    refine .bind .get fun p ↦ .anyChange (fun r ↦ .bind .get fun m ↦ ?_) _
    dsimp only
    split_ifs
    · exact .pure _
    refine .anyChange (fun o ↦ .bind .get fun n ↦ ?_) _
    split
    · exact .pure _
    · exact .bind (.reachable (.moveBefore _ _) rfl) fun _ ↦ .pure _
  have hrounds : ∀ count, Keeps Reachable (rounds registry count) := by
    intro count
    induction count with
    | zero => exact .pure _
    | succ count ih =>
      refine .bind hround fun moved ↦ ?_
      split_ifs
      · exact .bind ih fun _ ↦ .pure _
      · exact .pure _
  exact .bind .get fun _ ↦ hrounds _

end BranchSinking

end TensorGraph
