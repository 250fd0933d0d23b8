import Mathlib.Data.Set.Insert
import TensorGraph.Proofs.Copying

/-!
Copies of all that lies in a region. What lies directly inside of a copy are the copies of what lies
inside of the original, in the same order.
-/

namespace TensorGraph

open List

variable {met : List Visit} {r' : RegionId} {depth : Nat} {avoid ops : List OpId}
  {scope : List ValueId} {seen : Set Visit}

lemma mem_of_pair_sublist {α : Type} {front back : List α} {c x : α}
    (hnodup : (front ++ x :: back).Nodup) (hsub : [c, x].Sublist (front ++ x :: back)) :
    c ∈ front := by
  have hback : x ∉ back := (nodup_cons.mp (nodup_append'.mp hnodup).2.1).1
  obtain ⟨l₁, l₂, heq, h₁, h₂⟩ := sublist_append_iff.mp hsub
  cases l₁ with
  | cons y rest =>
    obtain rfl := (List.cons.inj heq).1
    exact h₁.subset mem_cons_self
  | nil =>
    rw [nil_append] at heq
    subst heq
    cases h₂ with
    | cons _ h => exact absurd (h.subset (by simp)) hback
    | cons_cons _ h => exact absurd (h.subset (by simp)) hback

/-- The second operation is a copy of the first. It refers to others by the names that the first
table had when the copy was made, and the second table has its results. -/
structure Operation.CopiedBy (m₁ m : CopyMap) (node node' : Operation) : Prop where
  name : node'.name = node.name
  kind : node'.kind = node.kind
  attrs : node'.attrs = node.attrs
  funcRefs : node'.funcRefs = node.funcRefs
  form : ∀ refs, node'.form = .functional refs → node.form = .functional refs
  operands : node'.operands = node.operands.map m₁.value
  control : node'.control = (node.control.map m₁.op).eraseDups
  results : node'.results = node.results.map m.value

namespace Program

variable {p q : Program} {src dst : RegionId} {a b c : Visit} {o : OpId} {r : RegionId}
  {v : ValueId} {seed m : CopyMap} {front back : List Visit} {image : Visit → Visit}

lemma image_region (h : CopyProgress p src dst seed image met m q) (hr : .region r ∈ met) :
    ∃ r', image (.region r) = .region r' := by
  obtain ⟨front, region, owner, -, hentry⟩ := h.replica hr
  cases himage : image (.region r) with
  | region r' => exact ⟨r', rfl⟩
  | op o =>
    rw [himage] at hentry
    obtain ⟨node, -, heq⟩ := Option.map_eq_some_iff.mp hentry
    cases heq

namespace CopyProgress

variable (h : CopyProgress p src dst seed image (p.contents src) m q) (hc : p.Copyable src dst)

include h

lemma value_eq (hsplit : p.contents src = front ++ .op o :: back)
    {m₁ : CopyMap} (hknows : m₁.Knows p seed front m)
    (hbefore : ∀ b ∈ p.contents src, v ∈ p.defines b → b ∈ front) : m₁.value v = m.value v := by
  by_cases hmet : ∃ b ∈ p.contents src, v ∈ p.defines b
  · obtain ⟨b, hb, hdef⟩ := hmet
    exact hknows.values b (hbefore b hb hdef) v hdef
  · have hnever : ∀ b ∈ p.contents src, v ∉ p.defines b := fun b hb hdef ↦ hmet ⟨b, hb, hdef⟩
    rw [hknows.otherValues v fun b hb ↦ hnever b (hsplit ▸ mem_append_left _ hb),
      h.table.otherValues v hnever]

lemma region?_target {region : Region} (hregion : p.region? dst = some region) :
    q.region? dst = some { region with ops := q.opsIn dst } := by
  have hentry := h.entry
  rw [Program.entry, Program.entry, hregion] at hentry
  obtain ⟨region', hregion', heq⟩ := Option.map_eq_some_iff.mp hentry
  obtain ⟨-, hargs, howner, hexecution⟩ := Region.mk.inj (Sum.inr.inj heq)
  rw [opsIn_eq hregion', hregion', ← hargs, ← howner, ← hexecution]

lemma exists_copy (hsplit : p.contents src = front ++ .op o :: back) : ∃ node node', ∃ m₁ : CopyMap,
      p.op? o = some node ∧ q.op? (m.op o) = some node' ∧ m₁.Knows p seed front m ∧
      node.CopiedBy m₁ m node' := by
  obtain ⟨himage, node, parent, m₁, hnode, hknows, hentry⟩ := h.replicas front _ back hsplit
  rw [himage] at hentry
  obtain ⟨node', hnode', heq⟩ := Option.map_eq_some_iff.mp hentry
  obtain ⟨hname, hkind, hattrs, hoperands, hresults, hcontrol, hform, -⟩ :=
    Operation.mk.inj (Sum.inl.inj heq)
  refine ⟨node, node', m₁, hnode, hnode', hknows, hname, hkind, hattrs, ?_, fun refs hrefs ↦
    ?_, hoperands, hcontrol, hresults⟩
  · generalize node.funcRefs = refs at hform ⊢
    unfold Operation.funcRefs
    cases hown : node'.form <;> cases refs <;> simp_all
  · rw [hrefs] at hform
    unfold Operation.funcRefs at hform
    cases hown : node.form with
    | functional found =>
      rw [hown] at hform
      cases found with
      | nil => cases hform
      | cons => exact hform.symm
    | plain => simp [hown] at hform
    | nested regions => simp [hown] at hform

include hc

lemma inside_eq (ha : a ∈ .region src :: p.contents src) :
    q.inside (image a) = p.inside (image a) ++ (p.inside a).map image := by
  rw [h.inside a ha, contents, filter_tour hc.consistent hc.acyclic
    (exhausts hc.consistent hc.acyclic hc.source) ha]

lemma holder_image (ha : a ∈ p.contents src) (hheld : p.holder? a = some c) :
    c ∈ .region src :: p.contents src ∧ q.holder? (image a) = some (image c) := by
  have hmem := h.holders a ha c hheld
  refine ⟨hmem, (mem_inside h.consistent).mp ?_⟩
  rw [h.inside_eq hc hmem]
  exact mem_append_right _ (mem_map_of_mem ((mem_inside hc.consistent).mpr hheld))

lemma inside_image (ha : a ∈ p.contents src) : q.inside (image a) = (p.inside a).map image := by
  rw [h.inside_eq hc (mem_cons_of_mem _ ha), inside_eq_nil (h.fresh a ha), nil_append]

omit h in
lemma mem_of_inside (ha : a ∈ .region src :: p.contents src) (hb : b ∈ p.inside a) :
    b ∈ p.contents src :=
  (inside_sublist_tour (exhausts hc.consistent hc.acyclic hc.source) ha).subset hb

lemma opsIn_image (hr : .region r ∈ .region src :: p.contents src)
    (himage : image (.region r) = .region r') :
    q.opsIn r' = p.opsIn r' ++ (p.opsIn r).map m.op := by
  have hinside := h.inside_eq hc hr
  have hops : (p.inside (.region r)).map image = ((p.opsIn r).map m.op).map .op := by
    rw [Program.inside, map_map, map_map]
    exact map_congr_left fun o ho ↦ h.image_op (mem_of_inside hc hr (mem_map_of_mem ho))
  rw [himage, hops, Program.inside, Program.inside, ← map_append] at hinside
  exact map_injective_iff.mpr (fun _ _ heq ↦ Visit.op.inj heq) hinside

lemma opsIn_copy (hr : .region r ∈ p.contents src) (himage : image (.region r) = .region r') :
    q.opsIn r' = (p.opsIn r).map m.op := by
  have hempty : p.inside (.region r') = [] := inside_eq_nil (himage ▸ h.fresh _ hr)
  rw [h.opsIn_image hc (mem_cons_of_mem _ hr) himage, map_eq_nil_iff.mp hempty, nil_append]

lemma zip_regions {node node' : Operation} (ho : .op o ∈ p.contents src)
    (hnode : p.op? o = some node) (hnode' : q.op? (m.op o) = some node') :
    node'.regions.length = node.regions.length ∧ ∀ r r', (r, r') ∈ node.regions.zip node'.regions →
    r ∈ p.regionsOf o ∧ image (.region r) = .region r' := by
  have hinside := h.inside_image hc ho
  rw [h.image_op ho, Program.inside, Program.inside, regionsOf_eq hnode, regionsOf_eq hnode',
    map_map] at hinside
  have hall : List.Forall₂ (fun r r' ↦ image (.region r) = .region r')
      node.regions node'.regions := by
    rw [← forall₂_map_left_iff (R := fun a r' ↦ a = Visit.region r'), ← forall₂_map_right_iff,
      forall₂_eq_eq_eq]
    exact hinside.symm
  rw [regionsOf_eq hnode]
  exact ⟨hall.length_eq.symm, fun r r' hr ↦ ⟨(of_mem_zip hr).1, (forall₂_iff_zip.mp hall).2 hr⟩⟩

end CopyProgress

/-! ### Parts of a tour -/

def toursOf (p : Program) (depth : Nat) (todo : List Visit) : List Visit :=
  todo.flatMap fun b ↦ b ::
    p.tour (match b with | .op _ => 2 * depth - 1 | .region _ => 2 * depth) b

lemma toursOf_op (p : Program) (depth : Nat) (o : OpId) (todo : List Visit) : p.toursOf (depth + 1)
    (.op o :: todo) = .op o ::
    (p.toursOf depth (p.inside (.op o)) ++ p.toursOf (depth + 1) todo) := by
  change .op o :: p.tour (2 * depth + 1) (.op o) ++ _ = _
  rw [tour, toursOf, inside, flatMap_map, flatMap_map]
  rfl

lemma tour_region (hdepth : depth = 0 → p.inside (.region r) = []) :
    p.tour (2 * depth) (.region r) = p.toursOf depth (p.inside (.region r)) := by
  cases depth with
  | zero =>
    rw [hdepth rfl]
    rfl
  | succ depth =>
    rw [Nat.mul_succ, tour, toursOf, inside, flatMap_map, flatMap_map]
    rfl

lemma toursOf_region {todo : List Visit} (hdepth : depth = 0 → p.inside (.region r) = []) :
    p.toursOf depth (.region r :: todo) = .region r ::
    (p.toursOf depth (p.inside (.region r)) ++ p.toursOf depth todo) := by
  rw [← tour_region hdepth]
  rfl

lemma contents_eq (h : p.Has (.region r)) : p.contents r = p.toursOf p.regions.length
    (p.inside (.region r)) := by
  refine tour_region fun hzero ↦ ?_
  simp [Has, region?, length_eq_zero_iff.mp hzero] at h

structure Reached (p : Program) (src : RegionId) (seen : Set Visit)
    (tours : List Visit) : Prop where
  sub : tours.Sublist (p.contents src)
  before : ∀ c ∈ seen, c ≠ .region src → ∀ b ∈ tours, [c, b].Sublist (p.contents src)

namespace Reached

variable {tours tours' : List Visit} (h : Reached p src seen tours)

include h

lemma advance {seen' : Set Visit} (hgo : (met ++ tours').Sublist tours)
    (hseen : ∀ c ∈ seen', c ∈ seen ∨ c ∈ met) : Reached p src seen' tours' where
  sub := (sublist_append_right _ _).trans (hgo.trans h.sub)
  before c hc hne b hb := by
    rcases hseen c hc with hc | hc
    · exact h.before c hc hne b (hgo.subset (mem_append_right _ hb))
    · have hpair := (singleton_sublist.mpr hc).append (singleton_sublist.mpr hb)
      exact hpair.trans (hgo.trans h.sub)

lemma enter (hgo : (a :: tours').Sublist tours) : Reached p src (insert a seen) tours' :=
  h.advance (show ([a] ++ tours').Sublist tours from hgo) fun _ hc ↦
    (Set.mem_insert_iff.mp hc).symm.imp_right mem_singleton.mpr

lemma mem_front (hnodup : (p.contents src).Nodup) (hb : b ∈ tours)
    (hsplit : p.contents src = front ++ b :: back) (hc : c ∈ seen)
    (hne : c ≠ .region src) : c ∈ front := by
  have hpair := h.before c hc hne b hb
  rw [hsplit] at hpair hnodup
  exact mem_of_pair_sublist hnodup hpair

end Reached

/-! ### Copies of what is closed -/

lemma Closed.toursOf_cons (rest : List OpId)
    (hinner : ∀ r ∈ p.regionsOf o, Closed p avoid depth (scope ++ p.argsOf r) (p.opsIn r)) :
    p.toursOf (depth + 1) ((o :: rest).map .op) = .op o :: ((p.regionsOf o).flatMap
      (fun r ↦ .region r :: p.toursOf depth ((p.opsIn r).map .op)) ++ p.toursOf (depth + 1)
      (rest.map .op)) := by
  have hregion : ∀ r ∈ p.regionsOf o, Visit.region r :: p.tour (2 * depth) (.region r) =
      .region r :: p.toursOf depth ((p.opsIn r).map .op) := by
    intro r hr
    refine congrArg _ (tour_region fun hzero ↦ ?_)
    have hclosed := hinner r hr
    rw [inside]
    generalize p.opsIn r = ops at hclosed
    cases hclosed with
    | nil => rfl
    | cons => cases hzero
  rw [map_cons, toursOf_op, toursOf, inside, flatMap_map]
  exact congrArg (fun l ↦ .op o :: (l ++ _)) (flatMap_congr hregion)

lemma Closed.not_mem_toursOf {t : OpId} (h : Closed p avoid depth scope ops)
    (ht : t ∈ avoid) : .op t ∉ p.toursOf depth (ops.map .op) := by
  induction h with
  | nil => exact not_mem_nil
  | cons havoid _ _ _ _ hinner _ ihinner ihrest =>
    rw [toursOf_cons _ hinner, mem_cons, mem_append, mem_flatMap]
    rintro (heq | ⟨r, hr, hmem⟩ | hmem)
    · exact havoid (Visit.op.inj heq ▸ ht)
    · exact ihinner r hr (mem_cons_of_mem _ ht) ((mem_cons.mp hmem).resolve_left (by simp))
    · exact ihrest ht hmem

section Copied

variable (h : CopyProgress p src dst seed image (p.contents src) m q) (hc : p.Copyable src dst)

include h hc

lemma CopyProgress.renames {tours : List Visit} (hreached : Reached p src seen tours)
    (ha : a ∈ tours) (hfresh : ∀ v ∈ p.defines a, v ∉ scope) (hscope : ∀ v ∈ scope,
    (m.value v).index < p.values.length ∨ ∃ c ∈ seen, c ≠ .region src ∧ v ∈ p.defines c) :
    Renames p.values.length scope m.value m.value (p.defines a) (q.defines (image a)) := by
  have hmem := hreached.sub.subset ha
  have hnames := h.defines hmem
  refine ⟨fun _ _ ↦ rfl, hnames, h.consistent.nodup_defines _, fun v hv hin ↦ ?_, ?_⟩
  · rcases hscope v hv with hlt | ⟨c, hseen, hne, hdef⟩
    · rw [hnames] at hin
      obtain ⟨u, hu, heq⟩ := mem_map.mp hin
      exact Nat.not_lt.mpr (h.late a hmem u hu) (heq ▸ hlt)
    · have hcmem : c ∈ p.contents src := (hreached.before c hseen hne a ha).subset mem_cons_self
      have himage := h.consistent.eq_of_mem_defines (a := image c)
        (h.defines hcmem ▸ mem_map_of_mem hdef) hin
      obtain rfl := h.injective hc.target (mem_cons_of_mem _ hcmem) (mem_cons_of_mem _ hmem) himage
      exact hfresh v hdef hv
  · rw [hnames]
    exact forall_mem_map.mpr (h.late a hmem)

lemma CopyProgress.copied {avoid' : List OpId} (hclosed : Closed p avoid depth scope ops)
    (hreached : Reached p src seen (p.toursOf depth (ops.map .op))) (hscope : ∀ v ∈ scope,
    ((m.value v).index < p.values.length ∧ ∀ c ∈ p.contents src, v ∉ p.defines c) ∨
      ∃ c ∈ seen, c ≠ .region src ∧ v ∈ p.defines c) (hlive : ∀ t ∈ avoid, p.Has (.op t))
    (havoid' : ∀ t ∈ avoid', t ∈ avoid ∨ ∃ x ∈ avoid, .op x ∈ p.contents src ∧ t = m.op x) :
    Copied q p.values.length avoid' scope m.value ops (ops.map m.op) := by
  have hp := hc.consistent
  have hnodup := nodup_cons.mp hc.nodup
  induction hclosed generalizing avoid' seen with
  | nil => exact .nil
  | @cons avoid depth scope o rest havoid ho hoperands hresults hargs hinner hrest ihinner ihrest =>
    have hsplit := Closed.toursOf_cons rest hinner
    have hgo : ∀ r ∈ p.regionsOf o, (.region r :: p.toursOf depth ((p.opsIn r).map .op)).Sublist
        (p.toursOf (depth + 1) ((o :: rest).map .op)) := by
      intro r hr
      have hpart : (.region r :: p.toursOf depth ((p.opsIn r).map .op)).Sublist
        ((p.regionsOf o).flatMap fun r ↦ .region r :: p.toursOf depth ((p.opsIn r).map .op)) :=
        sublist_flatten_of_mem (mem_map_of_mem hr)
      exact hsplit ▸ (hpart.trans (sublist_append_left _ _)).cons _
    have hgoOn : (.op o :: p.toursOf (depth + 1) (rest.map .op)).Sublist
        (p.toursOf (depth + 1) ((o :: rest).map .op)) :=
      hsplit ▸ (sublist_append_right _ _).cons_cons _
    have hself : .op o ∈ p.toursOf (depth + 1) ((o :: rest).map .op) := hgoOn.subset mem_cons_self
    have hmem := hreached.sub.subset hself
    have hregion : ∀ r ∈ p.regionsOf o, .region r ∈ p.toursOf (depth + 1) ((o :: rest).map .op) ∧
        .region r ∈ p.contents src ∧ q.region? r = p.region? r := by
      intro r hr
      have hin := (hgo r hr).subset mem_cons_self
      refine ⟨hin, hreached.sub.subset hin, h.grows.region?_eq
        (hp.isSome_region?_of_mem_regionsOf hr) fun heq ↦ ?_⟩
      exact hc.apart (liesIn_of_mem_tour hp (mem_singleton.mp heq ▸ hreached.sub.subset hin))
    -- What comes into scope has been seen when the tour goes on.
    have hwiden : ∀ {a}, a ∈ p.contents src → ∀ v ∈ scope ++ p.defines a,
        ((m.value v).index < p.values.length ∧ ∀ c ∈ p.contents src, v ∉ p.defines c) ∨
        ∃ c ∈ insert a seen, c ≠ .region src ∧ v ∈ p.defines c := by
      intro a ha v hv
      rcases mem_append.mp hv with hv | hv
      · refine (hscope v hv).imp_right ?_
        rintro ⟨c, hseen, hcopies⟩
        exact ⟨c, Set.mem_insert_of_mem _ hseen, hcopies⟩
      · exact .inr ⟨a, Set.mem_insert _ _, ne_of_mem_of_not_mem ha hnodup.1, hv⟩
    have hnamed := fun v hv ↦ (hscope v hv).imp_left And.left
    obtain ⟨front, back, hfront⟩ := append_of_mem hmem
    obtain ⟨node, node', m₁, hnode, hnode', hknows, hcopy⟩ := h.exists_copy hfront
    obtain ⟨hcount, hzip⟩ := h.zip_regions hc hmem hnode hnode'
    have hnames : node'.operands = node.operands.map m.value := by
      refine hcopy.operands.trans
        (map_congr_left fun v hv ↦ h.value_eq hfront hknows fun c hcmem hdef ↦ ?_)
      obtain ⟨-, hnone⟩ | ⟨d, hseen, hne, hdef'⟩ :=
        hscope v (hoperands v (operandsOf_eq hnode ▸ hv))
      · exact absurd hdef (hnone c hcmem)
      · obtain rfl := hp.eq_of_mem_defines hdef hdef'
        exact hreached.mem_front hnodup.2 hself hfront hseen hne
    have hnew : ∀ x, .op x ∈ p.contents src → ¬ p.Has (.op (m.op x)) :=
      fun x hx ↦ h.image_op hx ▸ h.fresh _ hx
    have hresults' := h.renames hc hreached hself hresults hnamed
    rw [h.image_op hmem, defines_op hnode, defines_op hnode'] at hresults'
    refine .cons (g := fun _ _ ↦ m.value) (h.grows.op? o not_mem_nil node hnode) hnode' ?_ ?_
      ⟨by simp only [Operation.isTerminator, hcopy.kind], fun _ ↦
      hcopy.kind, hcopy.attrs, hcopy.funcRefs, hnames, hcount⟩
      (operandsOf_eq hnode ▸ hoperands) hresults' (fun r r' hpair ↦ ?_) (fun r r' hpair ↦ ?_) ?_
    · intro hin
      rcases havoid' o hin with hin | ⟨x, -, hx, heq⟩
      · exact havoid hin
      · exact hnew x hx (heq ▸ ho)
    · intro hin
      rcases havoid' _ hin with hin | ⟨x, hx, hxmem, heq⟩
      · exact hnew o hmem (hlive _ hin)
      · have himage :
          image (.op o) = image (.op x) := by rw [h.image_op hmem, h.image_op hxmem, heq]
        cases h.injective hc.target (mem_cons_of_mem _ hmem) (mem_cons_of_mem _ hxmem) himage
        exact havoid hx
    · obtain ⟨hr, himage⟩ := hzip r r' hpair
      obtain ⟨hin, -, hsame⟩ := hregion r hr
      have hrenames := h.renames hc hreached hin (hargs r hr) hnamed
      rw [himage] at hrenames
      rw [argsOf_congr hsame]
      exact hrenames
    · obtain ⟨hr, himage⟩ := hzip r r' hpair
      obtain ⟨-, hin, hsame⟩ := hregion r hr
      rw [argsOf_congr hsame, opsIn_congr hsame, h.opsIn_copy hc hin himage]
      refine ihinner r hr (hreached.enter (hgo r hr)) (hwiden hin) (forall_mem_cons.mpr ⟨ho, hlive⟩)
        (forall_mem_cons.mpr
        ⟨.inl mem_cons_self, forall_mem_cons.mpr ⟨.inr ⟨o, mem_cons_self, hmem, rfl⟩, fun t ht ↦
        (havoid' t ht).imp (mem_cons_of_mem _) ?_⟩⟩)
      rintro ⟨x, hx, hcopies⟩
      exact ⟨x, mem_cons_of_mem _ hx, hcopies⟩
    · have hdone := ihrest (hreached.enter hgoOn) (hwiden hmem) hlive havoid'
      rwa [resultsOf_eq hnode] at hdone

end Copied

end Program

end TensorGraph
