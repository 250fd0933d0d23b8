import Mathlib.Data.List.Chain
import TensorGraph.Proofs.Atomicity
import TensorGraph.Proofs.ChainReplacement
import TensorGraph.Proofs.Contraction

/-!
Fusion contracts chains. In an amenable program the operation that a slot has on record as its
producer has that value for its only result, so every operation of a chain feeds the next one and
nothing else.
-/

namespace TensorGraph

open List Option

variable {p : Program} {o x consumer : OpId} {v : ValueId} {rules : List Rule}

namespace Fusion

open Program Edit

/-! ### Chains of amenable programs -/

def OnlyFeeds (p : Program) (consumer o : OpId) : Prop :=
  ∀ v ∈ p.resultsOf o, ∀ x, v ∈ p.operandsOf x → x = consumer

section Links

variable (hp : p.Consistent) (ha : Amenable p) {root : OpId} {rest : List OpId}
  {outer : List ValueId} {w : ValueId}

include hp ha

lemma Produces.resultsOf (h : Produces p v consumer linkKinds o) : p.resultsOf o = [v] := by
  obtain ⟨node, hnode, hkind, -, hlength, -⟩ := h.node
  obtain ⟨index, horigin⟩ := h.origin
  have hresult := ha.current consumer v ((h.mem_operandsOf_iff hp).mpr rfl)
    o index horigin node hnode hkind
  obtain ⟨only, honly⟩ := length_eq_one_iff.mp hlength
  rw [honly, mem_singleton] at hresult
  rw [resultsOf_eq hnode, honly, hresult]

lemma Produces.onlyFeeds (h : Produces p v consumer linkKinds o) : OnlyFeeds p consumer o := by
  intro w hw x hx
  rw [h.resultsOf hp ha, mem_singleton] at hw
  exact (h.mem_operandsOf_iff hp).mp (hw ▸ hx)

lemma Links.isChain (h : Links p root rest outer) : (root :: rest).IsChain (OnlyFeeds p) := by
  induction h with
  | source => exact isChain_singleton _
  | link hproduces _ _ ih => exact isChain_cons_cons.mpr ⟨hproduces.onlyFeeds hp ha, ih⟩

lemma Links.not_mem_resultsOf (h : Links p root rest outer) (hw : w ∈ outer) (ho : o ∈ rest) :
    w ∉ p.resultsOf o := by
  induction h with
  | source => cases ho
  | @link consumer next v rest outer hproduces hstage hrest ih =>
    have hnodup := (Links.link hproduces hstage hrest).nodup
    have hconsumer := (nodup_cons.mp hnodup).1
    rcases mem_append.mp hw with hinner | hlast
    · rcases mem_cons.mp ho with rfl | ho
      · -- Only the consumer reads the result, and it does not come again.
        rw [hproduces.resultsOf hp ha, mem_singleton]
        rintro rfl
        obtain ⟨x, hx, hread⟩ := hrest.exists_of_mem_outer hinner
        exact hconsumer ((hproduces.mem_operandsOf_iff hp).mp hread ▸ hx)
      · exact ih hinner ho
    · intro hmade
      have hread := mem_of_mem_erase hlast
      rcases mem_cons.mp ho with rfl | ho
      · rw [hproduces.resultsOf hp ha, mem_singleton] at hmade
        have hcount := count_pos_iff.mpr hlast
        rw [hmade, count_erase_self, hproduces.count hp, count_singleton_self] at hcount
        exact Nat.lt_irrefl _ hcount
      · obtain ⟨u, user, huser, hproduces'⟩ := hrest.exists_produces ho
        have hsame := hproduces'.onlyFeeds hp ha w hmade consumer hread
        exact hconsumer (hsame ▸ huser)

end Links

/-! ### The end of a chain -/

lemma succeeds_eraseAll {l : List OpId} (hp : p.Consistent) (hnodup : l.Nodup)
    (hlive : ∀ o ∈ l, ∃ node, p.op? o = some node ∧ node.regions = [])
    (hfree : ∀ o ∈ l, ∀ x, o ∉ p.controlOf x) (hfeeds : l.IsChain (OnlyFeeds p))
    (hfirst : ∀ o ∈ l.head?, ∀ v ∈ p.resultsOf o, ∀ x, v ∉ p.operandsOf x) :
    Succeeds (l.forM eraseOp) p fun _ _ ↦ True := by
  induction l generalizing p with
  | nil => exact .of_ok rfl trivial
  | cons o rest ih =>
    obtain ⟨hmem, hrest⟩ := nodup_cons.mp hnodup
    obtain ⟨node, hnode, hregions⟩ := hlive o mem_cons_self
    obtain ⟨_, m, hok, -⟩ := succeeds_eraseOp hp hnode (hfirst o rfl) (hfree o mem_cons_self)
    refine .bind_of_ok hok ?_
    obtain ⟨hm, -, -, hop⟩ := eraseOp_of_leaf hp (by rw [regionsOf_eq hnode, hregions])
      (hfree o mem_cons_self) hok
    have hkept : ∀ x ∈ rest, m.op? x = p.op? x := by
      intro x hx
      rw [hop, if_neg]
      rintro rfl
      exact hmem hx
    have hoperands : ∀ x v, v ∈ m.operandsOf x → x ≠ o ∧ v ∈ p.operandsOf x := by
      intro x v hv
      rw [operandsOf, hop] at hv
      split_ifs at hv with hx
      · cases hv
      · exact ⟨hx, hv⟩
    have hresults : ∀ x, m.resultsOf x ⊆ p.resultsOf x := by
      intro x v hv
      rw [resultsOf, hop] at hv
      split_ifs at hv with hx
      · cases hv
      · exact hv
    refine ih hm hrest (fun x hx ↦ ?_) (fun x hx y hy ↦ ?_) ?_ fun x hx v hv y hy ↦ ?_
    · rw [hkept x hx]
      exact hlive x (mem_cons_of_mem _ hx)
    · rw [controlOf, hop] at hy
      split_ifs at hy
      · cases hy
      · exact hfree x (mem_cons_of_mem _ hx) y hy
    · exact hfeeds.tail.imp fun a b hab v hv x hx ↦ hab v (hresults b hv) x (hoperands x v hx).2
    · obtain ⟨hne, huse⟩ := hoperands y v hy
      cases rest with
      | nil => cases hx
      | cons first others =>
        cases hx
        exact hne ((isChain_cons_cons.mp hfeeds).1 v (hresults _ hv) y huse)

namespace Rewired

variable {q : Program} (hp : p.Consistent) (ha : Amenable p)
  {chain : Match} (hfound : chain.Found p) {node : Operation} (hnode : p.op? chain.root = some node)
  (h : Rewired p chain node q)

include h in
lemma exists_of_mem_operandsOf (hv : v ∈ q.operandsOf x) :
    ∃ u, moved node.results p.values.length u = v ∧
    (u ∈ chain.replacement.operands ∨ u ∈ p.operandsOf x) := by
  by_cases hx : x = p.nextOp
  · rw [hx, h.operandsOf_fused, List.mem_map] at hv
    obtain ⟨u, hu, hmoved⟩ := hv
    exact ⟨u, hmoved, .inl hu⟩
  · rw [h.operandsOf hx, List.mem_map] at hv
    obtain ⟨u, hu, hmoved⟩ := hv
    exact ⟨u, hmoved, .inr hu⟩

include hp hnode h in
lemma root_unused (hv : v ∈ q.resultsOf chain.root) (hne : chain.root ≠ p.nextOp) (x : OpId) :
    v ∉ q.operandsOf x := by
  rw [h.resultsOf hne, resultsOf_eq hnode] at hv
  intro hmem
  obtain ⟨u, rfl, -⟩ := h.exists_of_mem_operandsOf hmem
  exact moved_not_mem (fun _ ↦ hp.lt_of_mem_results hnode) u hv

include hp hfound h in
lemma onlyFeeds (ho : o ∈ chain.interior)
    (houtside : ∀ v ∈ chain.replacement.operands, v ∉ p.resultsOf o)
    (hfeeds : OnlyFeeds p consumer o) : OnlyFeeds q consumer o := by
  intro v hv x hx
  rw [h.resultsOf (ne_nextOp hp hfound (mem_append_left _ ho))] at hv
  obtain ⟨u, hmoved, hu⟩ := h.exists_of_mem_operandsOf hx
  obtain rfl := eq_of_moved_eq (hp.lt_of_mem_resultsOf hv) hmoved
  rcases hu with hu | hu
  · exact absurd hv (houtside u hu)
  · exact hfeeds u hv x hu

include hp ha hfound hnode h in
lemma succeeds_eraseAll : Succeeds ((chain.root :: chain.interior.reverse).forM eraseOp) q fun _ _ ↦
    True := by
  obtain ⟨outer, hlinks, hreads, -⟩ := hfound.links
  refine Fusion.succeeds_eraseAll h.consistent hfound.nodup (fun o ho ↦ ?_)
    (fun o ho ↦ h.free hp hfound (mem_ops_iff.mp ho)) ?_ ?_
  · rw [h.others o (ne_nextOp hp hfound (mem_ops_iff.mp ho))]
    rcases mem_cons.mp ho with rfl | ho
    · obtain ⟨other, hother, hkind⟩ := hfound.root
      rw [hother]
      exact ⟨_, rfl, ha.flat _ other hother hkind⟩
    · obtain ⟨other, hother, -, hregions⟩ := hfound.interior (mem_reverse.mp ho)
      rw [hother]
      exact ⟨_, rfl, hregions⟩
  · refine (hlinks.isChain hp ha).imp_of_mem_tail_imp fun consumer o _ ho ↦ ?_
    exact h.onlyFeeds hp hfound (mem_reverse.mp ho) fun v hv ↦
      hlinks.not_mem_resultsOf hp ha (hreads hv) ho
  · intro o ho v hv
    cases ho
    exact h.root_unused hp hnode hv (ne_nextOp hp hfound (by simp))

variable {s : Program} (hvalues : SameValues q s)
  (hgone : ∀ x, s.op? x = if x ∈ chain.interior ++ [chain.root] then none else q.op? x)

section Gone

include hgone

section

variable (hx : x ∉ chain.interior ++ [chain.root])

include hx

lemma op?_kept : s.op? x = q.op? x := by
  rw [hgone, if_neg hx]

lemma operandsOf_kept : s.operandsOf x = q.operandsOf x :=
  operandsOf_congr (op?_kept hgone hx)

lemma controlOf_kept : s.controlOf x = q.controlOf x :=
  controlOf_congr (op?_kept hgone hx)

end

end Gone

lemma image_match (p : Program) (chain : Match) (x : OpId) :
    image [⟨chain.root, chain.interior, p.nextOp⟩] x =
      if x ∈ chain.interior ++ [chain.root] then p.nextOp else x :=
  image_singleton _ x

include hfound in
/-- Nothing waits for an operation of the interior, so only the root has another image. -/
theorem image_of_mem_controlOf {d : OpId} (hd : d ∈ p.controlOf x) :
    image [⟨chain.root, chain.interior, p.nextOp⟩] d = if d = chain.root then p.nextOp else d := by
  have hfree : d ∉ chain.interior := fun hmem ↦ hfound.free hmem x hd
  rw [image_match]
  simp [hfree]

include hp in
lemma ne_nextOp_of_live (hlive : (p.op? x).isSome) : x ≠ p.nextOp := by
  rintro rfl
  rw [hp.uses.free.op?_nextOp] at hlive
  cases hlive

include hp hfound h hgone

/-- What an operation waits for is still waited for, or has become one operation with it. -/
theorem waits_image {a d : OpId} (hd : d ∈ p.controlOf a) :
    image [⟨chain.root, chain.interior, p.nextOp⟩] a =
        image [⟨chain.root, chain.interior, p.nextOp⟩] d ∨
      image [⟨chain.root, chain.interior, p.nextOp⟩] d ∈
        s.controlOf (image [⟨chain.root, chain.interior, p.nextOp⟩] a) := by
  by_cases hmem : a ∈ chain.interior ++ [chain.root]
  · rw [image_match p chain a, if_pos hmem, image_match p chain d]
    by_cases hmem' : d ∈ chain.interior ++ [chain.root]
    · exact .inl (if_pos hmem').symm
    · have hfused : p.nextOp ∉ chain.interior ++ [chain.root] := fun hin ↦
        ne_nextOp hp hfound hin rfl
      rw [if_neg hmem', controlOf_kept hgone hfused, h.waitsFused, mem_chainControl]
      exact .inr ⟨⟨a, hmem, hd⟩, hmem'⟩
  · have hlive := isSome_of_mem_controlDependents (mem_controlDependents.mpr hd)
    rw [image_of_mem_controlOf hfound hd, image_match p chain a, if_neg hmem,
      controlOf_kept hgone hmem, h.waits a (ne_nextOp_of_live hp hlive)]
    exact .inr ⟨d, hd, rfl⟩

omit hp in
/-- What is waited for is the image of something that was waited for. -/
theorem exists_of_waits {a d : OpId} (hd : d ∈ s.controlOf a) : ∃ b e, e ∈ p.controlOf b ∧
    image [⟨chain.root, chain.interior, p.nextOp⟩] b = a ∧
    image [⟨chain.root, chain.interior, p.nextOp⟩] e = d := by
  have hmem : a ∉ chain.interior ++ [chain.root] := by
    intro hmem
    rw [controlOf, hgone, if_pos hmem] at hd
    cases hd
  rw [controlOf_kept hgone hmem] at hd
  by_cases hfused : a = p.nextOp
  · rw [hfused, h.waitsFused, mem_chainControl] at hd
    obtain ⟨⟨o, ho, hwaits⟩, houtside⟩ := hd
    refine ⟨o, d, hwaits, ?_, ?_⟩
    · rw [image_match p chain o, if_pos ho, hfused]
    · rw [image_match p chain d, if_neg houtside]
  · obtain ⟨e, he, rfl⟩ := (h.waits a hfused d).mp hd
    refine ⟨a, e, he, ?_, image_of_mem_controlOf hfound he⟩
    rw [image_match p chain a, if_neg hmem]

include hnode hvalues

lemma carried_moved (v : ValueId) : Carried [⟨chain.root, chain.interior, p.nextOp⟩] p s v
    (moved node.results p.values.length v) := by
  have hfused : s.resultsOf p.nextOp = q.resultsOf p.nextOp := by
    rw [Program.resultsOf, hgone, if_neg fun hmem ↦ ne_nextOp hp hfound hmem rfl, Program.resultsOf]
  obtain ⟨new, hnew, -, -, hresults⟩ := h.fused
  rw [resultsOf_eq hnew, hresults] at hfused
  unfold moved
  split_ifs with hmem
  · have hplace : node.results[node.results.idxOf v]? = some v := getElem?_idxOf hmem
    have hold :
        (p.resultsOf chain.root)[node.results.idxOf v]? = some v := by rwa [resultsOf_eq hnode]
    refine .moved (mem_singleton_self _) hold ?_ ?_
    · rw [hfused, getElem?_map, getElem?_range (idxOf_lt_length_of_mem hmem)]
      rfl
    · rw [hvalues.typeOf?, h.types _ v hplace]
  · refine .kept (fun c hc ↦ ?_) rfl
    rw [mem_singleton.mp hc, resultsOf_eq hnode]
    exact hmem

lemma contracts : Contracts [⟨chain.root, chain.interior, p.nextOp⟩] p s := by
  have hmerged : merged [⟨chain.root, chain.interior, p.nextOp⟩] =
      chain.interior ++ [chain.root] := by
    simp [merged, Chain.ops]
  have hfused : p.nextOp ∉ chain.interior ++ [chain.root] := fun hmem ↦ ne_nextOp hp hfound hmem rfl
  have hcarried := h.carried_moved hp hfound hnode hvalues hgone
  obtain ⟨new, hnew, hkind, -, hresults⟩ := h.fused
  constructor
  case live =>
    intro o ho
    rw [hmerged] at ho
    rcases mem_append.mp ho with ho | ho
    · obtain ⟨other, hother, hkind, -⟩ := hfound.interior ho
      exact ⟨other, hother, mem_append_right _ hkind⟩
    · obtain ⟨other, hother, hkind⟩ := hfound.root
      rw [mem_singleton.mp ho]
      exact ⟨other, hother, mem_append_left _ hkind⟩
  case apart =>
    rw [hmerged]
    refine nodup_reverse.mp ?_
    rw [reverse_append]
    exact hfound.nodup
  case distinct => exact nodup_singleton _
  case fresh =>
    intro c hc hlive
    rw [mem_singleton.mp hc] at hlive
    exact absurd rfl (ne_nextOp_of_live hp hlive)
  case survives =>
    intro x hx node' hnode'
    rw [hmerged] at hx
    have hother := ne_nextOp_of_live hp (x := x) (by rw [hnode']; rfl)
    rw [operandsOf_kept hgone hx, controlOf_kept hgone hx, op?_kept hgone hx, h.operandsOf hother,
      h.others x hother, hnode', operandsOf_eq hnode']
    rfl
  case operands =>
    intro x hx hlive
    rw [hmerged] at hx
    rw [operandsOf_kept hgone hx, h.operandsOf (ne_nextOp_of_live hp hlive), forall₂_map_right_iff]
    exact forall₂_same.mpr fun v _ ↦ hcarried v
  case fused =>
    intro c hc
    rw [mem_singleton.mp hc]
    refine ⟨new, (op?_kept hgone hfused).trans hnew, hkind ▸ hfound.kind, ?_⟩
    rw [hresults, resultsOf_eq hnode, length_map, length_range]
  case reads =>
    intro c hc w hw
    rw [mem_singleton.mp hc] at hw ⊢
    rw [operandsOf_kept hgone hfused, h.operandsOf_fused, List.mem_map] at hw
    obtain ⟨v, hv, rfl⟩ := hw
    obtain ⟨o, ho, hread⟩ := hfound.reads hv
    exact ⟨o, ho, v, hread, hcarried v⟩
  case covers =>
    intro x hx
    rw [hgone] at hx
    split_ifs at hx with hmem
    · cases hx
    · by_cases hnext : x = p.nextOp
      · exact .inl ⟨_, mem_singleton_self _, hnext.symm⟩
      · rw [h.others x hnext, isSome_map] at hx
        rw [hmerged]
        exact .inr ⟨hmem, hx⟩
  case waits => exact fun a d hd ↦ h.waits_image hp hfound hgone hd
  case waited => exact fun a d hd ↦ h.exists_of_waits hfound hgone hd
  case values =>
    intro v hv
    obtain ⟨htype, horigin⟩ := h.values v hv
    exact ⟨(hvalues.typeOf? v).trans htype, (hvalues.originOf? v).trans horigin⟩

end Rewired

lemma succeeds_fuse (hp : p.Consistent) (ha : Amenable p) {chain : Match} (hfound : chain.Found p) :
    Succeeds (fuse chain) p fun _ q ↦ q.Consistent ∧
    Contracts [⟨chain.root, chain.interior, p.nextOp⟩] p q := by
  obtain ⟨node, hnode, hkind⟩ := hfound.root
  have hlt := fun v ↦ hp.lt_of_mem_results (v := v) hnode
  have hoperands : ∀ v ∈ chain.replacement.operands, v.index < p.values.length := by
    intro v hv
    obtain ⟨o, -, ho⟩ := hfound.reads hv
    exact hp.lt_of_mem_operandsOf ho
  have hcontrol : ∀ d ∈ chainControl p (chain.interior ++ [chain.root]), (p.op? d).isSome := by
    intro d hd
    obtain ⟨⟨o, -, ho⟩, -⟩ := mem_chainControl.mp hd
    exact ha.control o d ho
  have hinsert : (insertOpBefore chain.root (chain.newOp p node)).exec p = _ :=
    insertOpBefore_exec hp hnode hoperands hcontrol
  have hruns : Succeeds (fuse chain) p fun _ _ ↦ True := by
    unfold fuse
    refine .bind_of_ok (checkOps_exec fun o ho ↦ hfound.isSome_op? ho)
      (.read_bind (by rw [op, hnode])
      (.bind_of_ok (exec_mapM_read fun v hv ↦ valueType_eq_ok (hlt v hv))
      (.get_bind (.bind_of_ok hinsert ?_))))
    obtain ⟨_, n, htake, hn, -, -, hothers, r, hfused⟩ := succeeds_takeOver_results hp hnode hinsert
    have hlive : ∀ x, (p.op? x).isSome → (n.op? x).isSome := by
      intro x hx
      by_cases hnew : x = p.nextOp
      · exact isSome_of_eq_some (hnew ▸ hfused)
      · rwa [hothers x hnew, isSome_map]
    have hwaiting : n.LiveControl := by
      intro x d hd
      by_cases hnew : x = p.nextOp
      · rw [hnew, controlOf_eq hfused] at hd
        exact hlive d (hcontrol d (mem_eraseDups.mp hd))
      · rw [controlOf, hothers x hnew, Option.map_map] at hd
        exact hlive d (ha.control x d hd)
    obtain ⟨_, m, hreplace, -⟩ := succeeds_replaceControl hn hwaiting chain.root
      (isSome_of_eq_some hfused)
    exact .bind_of_ok htake (.bind_of_ok hreplace
      ((rewired_of_ok hp hnode hinsert htake hreplace).succeeds_eraseAll hp ha hfound hnode))
  refine (hruns.and fun _ q hok ↦ ?_).imp fun _ _ h ↦ h.2
  have hleaf : p.regionsOf chain.root = [] := by rw [regionsOf_eq hnode, ha.flat _ node hnode hkind]
  obtain ⟨node', m, hnode', h, hq, -, hvalues, hgone⟩ := rewired_of_fuse hp hfound hleaf hok
  exact ⟨hq, h.contracts hp hfound hnode' hvalues hgone⟩

/-! ### The pass -/

lemma succeeds_fuseAt (hrules : rules ⊆ builtinRules) (hp : p.Consistent) (ha : Amenable p)
    (root : OpId) : Succeeds (fuseAt rules root) p fun _ q ↦ q.Consistent ∧
    ∃ chains, Contracts chains p q ∧
    (chains = [] → q = p ∧ ((p.op? root).isSome → ∀ rule ∈ rules, rule.find? p root = none)) := by
  unfold fuseAt
  refine .get_bind ?_
  split_ifs with hdead
  · refine .of_ok rfl ⟨hp, [], .refl p, fun _ ↦ ⟨rfl, fun hlive ↦ ?_⟩⟩
    rw [isLive, hlive] at hdead
    cases hdead
  · split
    · next hnone =>
      exact .of_ok rfl ⟨hp, [], .refl p, fun _ ↦ ⟨rfl, fun _ ↦ findSome?_eq_none_iff.mp hnone⟩⟩
    · next chain hfound =>
      obtain ⟨rule, hrule, hfind⟩ := exists_of_findSome?_eq_some hfound
      refine .bind (succeeds_fuse hp ha (found_of_builtinRules (hrules hrule) hfind).2) ?_
      rintro _ q ⟨hq, hcontracts⟩
      exact .of_ok rfl ⟨hq, _, hcontracts, fun hnone ↦ by cases hnone⟩

/-- What is true when the operations in `rest` are still to be tried: chains have been contracted,
or nothing has happened because no rule has found one. -/
structure Underway (rules : List Rule) (p : Program) (rest : List OpId) (m : Program) : Prop where
  consistent : m.Consistent
  contracts : ∃ chains, Contracts chains p m ∧ (chains = [] → m = p ∧
    ∀ root ∈ p.allOps, root ∉ rest → ∀ rule ∈ rules, rule.find? p root = none)

lemma succeeds_fuseAll (hrules : rules ⊆ builtinRules) (hp : p.Consistent) (ha : Amenable p) :
    Succeeds (anyChange p.allOps.reverse (fuseAt rules)) p fun _ ↦ Underway rules p [] := by
  refine .anyChange (R := Underway rules p) ?_
    ⟨hp, [], .refl p, fun _ ↦ ⟨rfl, fun root hroot hmem ↦ ?_⟩⟩
  · rintro root rest m ⟨hm, chains, hchains, hstart⟩
    refine (succeeds_fuseAt hrules hm (hchains.amenable ha hp hm) root).imp ?_
    rintro _ q ⟨hq, more, hmore, hend⟩
    refine ⟨hq, chains ++ more, hchains.trans hmore hp hm, fun hnone ↦ ?_⟩
    obtain ⟨hbefore, hnow⟩ := append_eq_nil_iff.mp hnone
    obtain ⟨rfl, htried⟩ := hstart hbefore
    obtain ⟨rfl, hfree⟩ := hend hnow
    refine ⟨rfl, fun other hother hmem ↦ ?_⟩
    by_cases heq : other = root
    · rw [heq] at hother ⊢
      exact hfree (hp.isSome_of_mem_allOps hother)
    · exact htried other hother (by simp [heq, hmem])
  · exact absurd (mem_reverse.mpr hroot) hmem

/-- Fusion succeeds on every amenable program and contracts chains, which it does unless there is
none: if nothing has been contracted, no rule that is enabled finds a chain. -/
theorem contracts_of_amenable (settings : Settings) (registry : Registry)
    {p : Program} (hp : Reachable p) (ha : Amenable p) :
    ∃ changed q chains, ((pass settings).run registry).exec p = (.ok changed, q) ∧
      Contracts chains p q ∧ (∀ x, (p.op? x).isSome → (q.op? (image chains x)).isSome) ∧
      (chains = [] → q = p ∧ ∀ root ∈ p.allOps, ∀ rule ∈ builtinRules,
        (settings.enableMkl || !rule.requiresMkl) = true → rule.find? p root = none) := by
  have hrules : (builtinRules ++ []).filter (fun rule ↦ settings.enableMkl || !rule.requiresMkl) ⊆
      builtinRules := fun rule hrule ↦ by simpa using (mem_filter.mp hrule).1
  obtain ⟨changed, q, hok, -, chains, hchains, hnone⟩ := succeeds_fuseAll hrules hp.consistent ha
  refine ⟨changed, q, chains, hok, hchains, fun x hx ↦ hchains.isSome_image hx, fun hempty ↦ ?_⟩
  obtain ⟨hsame, hfree⟩ := hnone hempty
  refine ⟨hsame, fun root hroot rule hrule henabled ↦ ?_⟩
  exact hfree root hroot not_mem_nil rule (mem_filter.mpr ⟨mem_append_left _ hrule, henabled⟩)

/-- A convolution with bias and activation, the product of its result with a sigmoid, and operations
that wait for some of them. -/
def gatedRelu : Program :=
  .built [
    .node 0 "source" [] 1, .node 0 "Conv2D" [0] 1 [0], .node 0 "BiasAdd" [1, 0] 1,
    .append ⟨0⟩ { kind := "Relu", operands := [⟨2⟩], resultTypes := [.fixed .f32 []] },
    .node 0 "Sigmoid" [3] 1 [0], .node 0 "Mul" [3, 4] 1 [3], .node 0 "sink" [5, 3] 0 [5, 3]]

/-- The second operation that is made takes over the handle of one that the first has replaced. -/
theorem contracts_gatedRelu :
    let settings : Settings := { enableMkl := true }
    let registry : Registry := NameMap.empty
    let q := (((pass settings).run registry).exec gatedRelu).2
    Reachable gatedRelu ∧ Amenable gatedRelu ∧ ((pass settings).run registry).exec gatedRelu =
      (.ok true, q) ∧ q.allOps = [⟨0⟩, ⟨4⟩, ⟨7⟩, ⟨6⟩] ∧ q.controlOf ⟨6⟩ = [⟨7⟩, ⟨4⟩] ∧
      q.controlOf ⟨7⟩ = [⟨0⟩, ⟨4⟩] ∧ ∃ chains, Contracts chains gatedRelu q := by
  intro settings registry q
  have hp : TidilyBuilt gatedRelu := .of_sparing rfl (by decide +kernel)
  have ha : Amenable gatedRelu := amenable_of_suits hp.liveControl (by decide +kernel)
  have hok : ((pass settings).run registry).exec gatedRelu = (.ok true, q) :=
    exec_eq_ok (by decide +kernel)
  obtain ⟨changed, q', chains, hrun, hchains, -⟩ :=
    contracts_of_amenable settings registry hp.reachable ha
  obtain ⟨-, rfl⟩ := Prod.mk.inj (hok.symm.trans hrun)
  exact ⟨hp.reachable, ha, hok, by decide +kernel, by decide +kernel, by decide +kernel,
    chains, hchains⟩

/-- The input of the addition was a result of the contraction once, and the bias is the one that is
left. -/
def staleInput : Program :=
  .built [
    .node 0 "MatMul" [] 2, .removeResult ⟨0⟩ 0, .node 0 "BiasAdd" [0, 1] 1, .node 0 "user" [1]]

/-- The contraction is taken for an operation that feeds the addition only, and it cannot be
erased. -/
theorem staleInput_not_fused :
    let settings : Settings := { enableMkl := false }
    let registry : Registry := NameMap.empty
    Reachable staleInput ∧ staleInput.LiveControl ∧
      (∀ x node, staleInput.op? x = some node → node.kind ∈ rootKinds → node.regions = []) ∧
      (((pass settings).run registry).exec staleInput).1 =
        .error (.structural (.eraseInUse "<unnamed>" "MatMul" 0)) := by
  intro settings registry
  have hp : TidilyBuilt staleInput := .of_sparing rfl (by decide +kernel)
  have hflat : ∀ i < staleInput.slots.length, ∀ node ∈ staleInput.op? ⟨i⟩,
      node.kind ∈ rootKinds → node.regions = [] := by decide +kernel
  refine ⟨hp.reachable, hp.liveControl, fun x node hnode ↦ ?_, by rfl⟩
  exact hflat x.index (index_lt_of_isSome (by rw [hnode]; rfl)) node hnode

end Fusion

end TensorGraph
