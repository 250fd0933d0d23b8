import TensorGraph.Proofs.Verification

/-!
What a change leaves alone. `Frame moved p q` says that `q` has the regions and operations of `p`
where they were, up to the operations in `moved`, which have no regions, and up to what has
vanished.
-/

namespace TensorGraph.Program

open List

variable {p q : Program} {x d : OpId} {r : RegionId} {n : Nat}

/-- `q` has the tree of `p`, apart from the moved operations and what has vanished. -/
structure Frame (moved : List OpId) (p q : Program) : Prop where
  funcs : q.funcs = p.funcs
  graph : q.graph = p.graph
  kept : ∀ x ∉ moved, (q.op? x).isSome →
    q.parentOf? x = p.parentOf? x ∧ q.regionsOf x = p.regionsOf x ∧ q.isEnd x = p.isEnd x
  leaf : ∀ x ∈ moved, q.regionsOf x = [] ∧ q.isEnd x = false
  owner : ∀ r, q.parentOp? r = p.parentOp? r ∨ q.opsIn r = [] ∧ q.ownerOf? r = some .detached
  order : ∀ r, q.Attached r → ∀ d ∉ moved, ∀ a ∉ moved, a ∈ q.opsIn r →
    Before p r d a → Before q r d a
  last : ∀ r, q.Attached r → ∀ t, p.terminator? r = some t → q.terminator? r = some t

namespace Frame

variable {moved : List OpId} (hf : Frame moved p q)

include hf

lemma roots : q.roots = p.roots := by
  rw [Program.roots, hf.funcs, hf.graph, Program.roots]

lemma not_moved (hr : r ∈ q.regionsOf x) : x ∉ moved := by
  intro hx
  rw [(hf.leaf x hx).1] at hr
  cases hr

lemma parentOf? (hx : x ∉ moved) (hparent : q.parentOf? x = some r) : p.parentOf? x = some r := by
  rw [← (hf.kept x hx (isSome_of_parentOf? hparent)).1]
  exact hparent

variable (hq : q.Consistent)

include hq

lemma parentOp? (hr : q.Attached r) : q.parentOp? r = p.parentOp? r := by
  obtain ⟨n, hat⟩ := hr
  rcases hf.owner r with hsame | ⟨-, hdetached⟩
  · exact hsame
  · obtain ⟨owner, howner, hne⟩ := hat.ownerOf? hq
    exact absurd (Option.some.inj (howner.symm.trans hdetached)) hne

lemma ancestorIn {a : OpId} (hx : x ∉ moved) (hmem : x ∈ q.allOps)
    (hanc : AncestorIn p r x a) : AncestorIn q r x a ∧ a ∉ moved := by
  induction hanc with
  | @here x hparent =>
    obtain ⟨home, -, hparent'⟩ := (mem_allOps hq).mp hmem
    cases hparent.symm.trans (hf.parentOf? hx hparent')
    exact ⟨.here hparent', hx⟩
  | @up x owner a home hparent howner _ ih =>
    obtain ⟨home', hattached, hparent'⟩ := (mem_allOps hq).mp hmem
    cases hparent.symm.trans (hf.parentOf? hx hparent')
    have howner' : q.parentOp? home = some owner := by rw [hf.parentOp? hq hattached, howner]
    obtain ⟨n, hat⟩ := hattached
    obtain ⟨m, outer, -, hparentOwner, houter⟩ := hat.owner hq howner'
    have hmemOwner : owner ∈ q.allOps := (mem_allOps hq).mpr ⟨outer, ⟨m, houter⟩, hparentOwner⟩
    obtain ⟨hanc, ha⟩ := ih (hf.not_moved (hq.mem_regionsOf.mpr howner')) hmemOwner
    exact ⟨.up hparent' howner' hanc, ha⟩

lemma sees (hx : x ∉ moved) (hmem : x ∈ q.allOps) (hd : d ∉ moved)
    (hsees : Sees p x d) : Sees q x d := by
  obtain ⟨r, a, hanc, hbefore⟩ := hsees
  obtain ⟨hanc', ha⟩ := hf.ancestorIn hq hx hmem hanc
  obtain ⟨home, ⟨n, hhome⟩, hparent⟩ := (mem_allOps hq).mp hmem
  obtain ⟨m, -, hat⟩ := hanc'.exists_attachedAt hq hparent hhome
  exact ⟨r, a, hanc', hf.order r ⟨m, hat⟩ d hd a ha (hq.mem_opsIn.mpr hanc'.parentOf?) hbefore⟩

/-- A value stays available if it stays where it was, among arguments or the results of an operation
that was not moved. -/
theorem available {v : ValueId} (hx : x ∉ moved) (hmem : x ∈ q.allOps)
    (hargs : ∀ r, v ∈ p.argsOf r → v ∈ q.argsOf r)
    (hresults : ∀ d, v ∈ p.resultsOf d → d ∉ moved ∧ ((q.op? d).isSome → v ∈ q.resultsOf d))
    (hv : Available p x v) :
    Available q x v := by
  rcases hv with ⟨r, a, hanc, harg⟩ | ⟨d, hresult, hsees⟩
  · exact .inl ⟨r, a, (hf.ancestorIn hq hx hmem hanc).1, hargs r harg⟩
  · obtain ⟨hd, hresult'⟩ := hresults d hresult
    obtain ⟨r, a, hanc, hbefore⟩ := hf.sees hq hx hmem hd hsees
    exact .inr ⟨d, hresult' (hq.isSome_of_mem_opsIn hbefore.mem_left), r, a, hanc, hbefore⟩

/-! ### What was attached, and what stays so -/

variable (hp : p.Consistent)

include hp

lemma attachedAt (hr : AttachedAt q n r) : AttachedAt p n r := by
  induction hr with
  | root hroot => exact .root (hf.roots ▸ hroot)
  | @nested n home inner o _ ho hinner ih =>
    have hmoved := hf.not_moved hinner
    have hparent := hf.parentOf? hmoved (hq.mem_opsIn.mp ho)
    have hregions := (hf.kept o hmoved (isSome_of_mem_regionsOf hinner)).2.1
    exact .nested ih (hp.mem_opsIn.mpr hparent) (hregions ▸ hinner)

lemma attached (hr : q.Attached r) : p.Attached r := by
  obtain ⟨n, hat⟩ := hr
  exact ⟨n, hf.attachedAt hq hp hat⟩

lemma mem_allOps (hx : x ∉ moved) (hmem : x ∈ q.allOps) : x ∈ p.allOps := by
  obtain ⟨r, hr, hparent⟩ := (Program.mem_allOps hq).mp hmem
  exact (Program.mem_allOps hp).mpr ⟨r, hf.attached hq hp hr, hf.parentOf? hx hparent⟩

lemma attachedAt_of_live {home : RegionId} (hhome : AttachedAt p n home) (hx : x ∉ moved)
    (hparent : p.parentOf? x = some home) (hlive : (q.op? x).isSome) : AttachedAt q n home := by
  induction hhome generalizing x with
  | root hroot => exact .root (hf.roots.symm ▸ hroot)
  | @nested n outer home o _ ho hinner ih =>
    have howner := hp.mem_regionsOf.mp hinner
    have hparent' : q.parentOf? x = some home := by rw [(hf.kept x hx hlive).1, hparent]
    rcases hf.owner home with hsame | ⟨hempty, -⟩
    · have hinner' : home ∈ q.regionsOf o := hq.mem_regionsOf.mpr (hsame.trans howner)
      have hlive' : (q.op? o).isSome := isSome_of_mem_regionsOf hinner'
      have hmoved := hf.not_moved hinner'
      have hparentOwner := hp.mem_opsIn.mp ho
      have houter := ih hmoved hparentOwner hlive'
      refine .nested houter (hq.mem_opsIn.mpr ?_) hinner'
      rw [(hf.kept o hmoved hlive').1, hparentOwner]
    · have hmem := hq.mem_opsIn.mpr hparent'
      rw [hempty] at hmem
      cases hmem

lemma mem_allOps_of_live (hx : x ∉ moved) (hmem : x ∈ p.allOps) (hlive : (q.op? x).isSome) :
    x ∈ q.allOps := by
  obtain ⟨home, ⟨n, hhome⟩, hparent⟩ := (Program.mem_allOps hp).mp hmem
  refine (Program.mem_allOps hq).mpr
    ⟨home, ⟨n, hf.attachedAt_of_live hq hp hhome hx hparent hlive⟩, ?_⟩
  rw [(hf.kept x hx hlive).1, hparent]

lemma attached_of_parentOp? (hr : p.Attached r) (howner : q.parentOp? r = p.parentOp? r) :
    q.Attached r := by
  obtain ⟨n, hat⟩ := hr
  rcases hat with hroot | @⟨n, outer, _, o, houter, ho, hinner⟩
  · exact ⟨0, .root (hf.roots.symm ▸ hroot)⟩
  · have hinner' := hq.mem_regionsOf.mpr (howner.trans (hp.mem_regionsOf.mp hinner))
    have hlive : (q.op? o).isSome := isSome_of_mem_regionsOf hinner'
    have hmoved := hf.not_moved hinner'
    have hparent := hp.mem_opsIn.mp ho
    have houter' := hf.attachedAt_of_live hq hp houter hmoved hparent hlive
    refine ⟨n + 1, .nested houter' (hq.mem_opsIn.mpr ?_) hinner'⟩
    rw [(hf.kept o hmoved hlive).1, hparent]

/-! ### Terminators -/

lemma terminated (hterm : Terminated p)
    (hargs : ∀ func ∈ p.funcs, (q.argsOf func.body).length = (p.argsOf func.body).length)
    (hreturns : ∀ func ∈ p.funcs, ∀ t, p.terminator? func.body = some t →
    (q.operandsOf t).length = (p.operandsOf t).length) : Terminated q := by
  have hbody : ∀ func ∈ p.funcs, q.Attached func.body := by
    intro func hfunc
    refine ⟨0, .root (hf.roots ▸ ?_)⟩
    exact mem_cons_of_mem _ (mem_map_of_mem hfunc)
  refine ⟨fun func hfunc ↦ ?_, fun func hfunc ↦ ?_, fun r hr o ho hend ↦ ?_,
    fun r hr o ho inner hinner ↦ ?_⟩
  · rw [hf.funcs] at hfunc
    rw [hargs func hfunc]
    exact hterm.signature func hfunc
  · rw [hf.funcs] at hfunc
    obtain ⟨last, hlast, hcount⟩ := hterm.returns func hfunc
    exact ⟨last, hf.last _ (hbody func hfunc)
      last hlast, by rw [hreturns func hfunc last hlast, hcount]⟩
  · have hmoved : o ∉ moved := by
      intro hmem
      rw [(hf.leaf o hmem).2] at hend
      cases hend
    have hparent := hq.mem_opsIn.mp ho
    have hend' : p.isEnd o = true := by
      rw [← (hf.kept o hmoved (isSome_of_parentOf? hparent)).2.2]
      exact hend
    exact hf.last r hr o
      (hterm.last r (hf.attached hq hp hr) o (hp.mem_opsIn.mpr (hf.parentOf? hmoved hparent)) hend')
  · have hmoved := hf.not_moved hinner
    have hinner' : inner ∈ p.regionsOf o :=
      (hf.kept o hmoved (isSome_of_mem_regionsOf hinner)).2.1 ▸ hinner
    have ho' := hp.mem_opsIn.mpr (hf.parentOf? hmoved (hq.mem_opsIn.mp ho))
    obtain ⟨t, ht⟩ :=
      Option.isSome_iff_exists.mp (hterm.nested r (hf.attached hq hp hr) o ho' inner hinner')
    rw [hf.last inner (hr.nested ho hinner) t ht]
    rfl

end Frame

/-! ### Frames of changes -/

lemma parentOp?_congr (h : q.ownerOf? r = p.ownerOf? r) : q.parentOp? r = p.parentOp? r := by
  refine Option.ext fun o ↦ ?_
  rw [parentOp?_eq_some, parentOp?_eq_some, h]

lemma terminator?_congr (hops : q.opsIn r = p.opsIn r)
    (hend : ∀ o, q.isEnd o = p.isEnd o) : q.terminator? r = p.terminator? r := by
  refine Option.ext fun o ↦ ?_
  rw [terminator?_eq_some, terminator?_eq_some, hops, hend]

/-- Regions and operations are nested in the same way, and the terminators are the same. -/
structure SameTree (p q : Program) : Prop where
  ops : ∀ r, q.opsIn r = p.opsIn r
  parent : ∀ o, q.parentOf? o = p.parentOf? o
  regions : ∀ o, q.regionsOf o = p.regionsOf o
  ends : ∀ o, q.isEnd o = p.isEnd o
  owner : ∀ r, q.ownerOf? r = p.ownerOf? r
  funcs : q.funcs = p.funcs
  graph : q.graph = p.graph

namespace SameTree

lemma refl (p : Program) : SameTree p p :=
  ⟨fun _ ↦ rfl, fun _ ↦ rfl, fun _ ↦ rfl, fun _ ↦ rfl, fun _ ↦ rfl, rfl, rfl⟩

variable {m : Program}

lemma symm (h : SameTree p q) : SameTree q p :=
  ⟨fun r ↦ (h.ops r).symm, fun o ↦ (h.parent o).symm, fun o ↦ (h.regions o).symm,
    fun o ↦ (h.ends o).symm, fun r ↦ (h.owner r).symm, h.funcs.symm, h.graph.symm⟩

lemma trans (h : SameTree p m) (h' : SameTree m q) : SameTree p q :=
  ⟨fun r ↦ (h'.ops r).trans (h.ops r), fun o ↦ (h'.parent o).trans (h.parent o),
    fun o ↦ (h'.regions o).trans (h.regions o), fun o ↦ (h'.ends o).trans (h.ends o),
    fun r ↦ (h'.owner r).trans (h.owner r), h'.funcs.trans h.funcs, h'.graph.trans h.graph⟩

lemma terminator? (h : SameTree p q) (r : RegionId) : q.terminator? r = p.terminator? r :=
  terminator?_congr (h.ops r) h.ends

lemma frame (h : SameTree p q) : Frame [] p q where
  funcs := h.funcs
  graph := h.graph
  kept x _ _ := ⟨h.parent x, h.regions x, h.ends x⟩
  leaf x hx := nomatch hx
  owner r := .inl (parentOp?_congr (h.owner r))
  order r _ d _ a _ _ hbefore := by
    rw [Before, h.ops]
    exact hbefore
  last r _ t ht := by
    rw [h.terminator?]
    exact ht

lemma mem_allOps (h : SameTree p q) (hp : p.Consistent) (hq : q.Consistent)
    (hx : x ∈ p.allOps) : x ∈ q.allOps :=
  h.symm.frame.mem_allOps hp hq not_mem_nil hx

lemma sees (h : SameTree p q) (hp : p.Consistent) (hq : q.Consistent) (hx : x ∈ p.allOps)
    (hsees : Sees p x d) : Sees q x d :=
  h.frame.sees hq not_mem_nil (h.mem_allOps hp hq hx) not_mem_nil hsees

end SameTree

lemma Frame.of_leaf {o : OpId} (hops : ∀ r, (q.opsIn r).erase o = (p.opsIn r).erase o)
    (hkept : ∀ x, x ≠ o → q.parentOf? x = p.parentOf? x ∧ q.regionsOf x = p.regionsOf x ∧
    q.isEnd x = p.isEnd x) (hleaf : q.regionsOf o = []) (hend : q.isEnd o = false)
    (howner : ∀ r, q.ownerOf? r = p.ownerOf? r) (hfuncs : q.funcs = p.funcs)
    (hgraph : q.graph = p.graph)
    (hlast : ∀ r t, p.terminator? r = some t → q.terminator? r = some t) : Frame [o] p q where
  funcs := hfuncs
  graph := hgraph
  kept x hx _ := hkept x fun heq ↦ hx (mem_singleton.mpr heq)
  leaf x hx := by
    rw [mem_singleton.mp hx]
    exact ⟨hleaf, hend⟩
  owner r := .inl (parentOp?_congr (howner r))
  order r _ d hd a ha _ hbefore := by
    have hpair : o ∉ [d, a] := by
      simp only [mem_singleton] at hd ha
      simp [Ne.symm hd, Ne.symm ha]
    have herased : [d, a].Sublist ((p.opsIn r).erase o) := sublist_erase hbefore hpair
    exact (hops r ▸ herased).trans erase_sublist
  last r _ t ht := hlast r t ht

end TensorGraph.Program
