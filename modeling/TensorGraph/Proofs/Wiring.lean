import TensorGraph.Proofs.Conversion

/-!
What a walk through a body has met. A body is wired if each operation refers only to values and
operations that a walk, which goes into an operation before it goes on, has met before.
-/

namespace TensorGraph

open List

variable {p q : Program} {o : OpId} {a : Visit} {r : RegionId} {S : Set Visit}

namespace Program

/-- All that the operation refers to has been met. -/
structure Met (p : Program) (seen : Set Visit) (o : OpId) : Prop where
  operands : ∀ v ∈ p.operandsOf o, ∃ a ∈ seen, v ∈ p.defines a
  control : ∀ d ∈ p.controlOf o, .op d ∈ seen

/-- A walk over `todo`, which goes into each operation down to the given depth before it goes on,
meets no operation that refers to what has not been met. It starts with `seen` and ends with `out`,
and keeps clear of `avoid`. -/
inductive Wired (p : Program) (avoid : Set Visit) : Nat → Set Visit → List Visit →
    Set Visit → Prop where
  | done {depth : Nat} {seen : Set Visit} : Wired p avoid depth seen [] seen
  | op {depth : Nat} {seen mid out : Set Visit} {o : OpId} {todo : List Visit}
      (havoid : .op o ∉ avoid) (hlive : p.Has (.op o)) (hmet : Met p seen o)
      (hinner : Wired p avoid depth (insert (.op o) seen) (p.inside (.op o)) mid)
      (hrest : Wired p avoid (depth + 1) mid todo out) :
      Wired p avoid (depth + 1) seen (.op o :: todo) out
  | region {depth : Nat} {seen mid out : Set Visit} {r : RegionId} {todo : List Visit}
      (havoid : .region r ∉ avoid) (hlive : p.Has (.region r))
      (hinner : Wired p avoid depth (insert (.region r) seen) (p.inside (.region r)) mid)
      (hrest : Wired p avoid depth mid todo out) : Wired p avoid depth seen (.region r :: todo) out

def AtLevel (p : Program) (n : Nat) : Visit → Prop
  | .op o => ∃ r, AttachedAt p n r ∧ o ∈ p.opsIn r
  | .region r => AttachedAt p n r

lemma Met.mono {seen seen' : Set Visit} (h : Met p seen o) (hsub : seen ⊆ seen') :
    Met p seen' o where
  operands v hv := by
    obtain ⟨a, ha, hdef⟩ := h.operands v hv
    exact ⟨a, hsub ha, hdef⟩
  control d hd := hsub (h.control d hd)

structure Unchanged (p q : Program) (a : Visit) : Prop where
  has : q.Has a
  defines : q.defines a = p.defines a
  inside : q.inside a = p.inside a
  refers : ∀ o, a = .op o → q.operandsOf o = p.operandsOf o ∧ q.controlOf o = p.controlOf o

lemma Unchanged.of_grows {busy : List OpId} {opened : List RegionId} (hg : Grows busy opened p q)
    (ha : p.Has a) (hbusy : ∀ o ∈ busy, a ≠ .op o) (hopened : ∀ r ∈ opened, a ≠ .region r) :
    Unchanged p q a := by
  cases a with
  | op o =>
    have hsame := hg.op?_eq ha fun hmem ↦ hbusy o hmem rfl
    refine ⟨?_, resultsOf_congr hsame, congrArg _ (regionsOf_congr hsame), fun x hx ↦ ?_⟩
    · change (q.op? o).isSome
      rw [hsame]
      exact ha
    · cases hx
      exact ⟨operandsOf_congr hsame, controlOf_congr hsame⟩
  | region r =>
    have hsame := hg.region?_eq ha fun hmem ↦ hopened r hmem rfl
    refine ⟨?_, argsOf_congr hsame, congrArg _ (opsIn_congr hsame), fun x hx ↦ by cases hx⟩
    change (q.region? r).isSome
    rw [hsame]
    exact ha

namespace Wired

variable {avoid avoid' : Set Visit} {depth depth' : Nat} {seen mid out : Set Visit}
  {todo todo' : List Visit}

lemma of_region (h : Wired p avoid depth seen [.region r] out) :
    Wired p avoid depth (insert (.region r) seen) (p.inside (.region r)) out := by
  generalize htodo : [Visit.region r] = todo at h
  cases h with
  | done => cases htodo
  | op => cases htodo
  | region _ _ hinner hrest =>
    cases htodo
    cases hrest
    exact hinner

lemma tours_region (h : Wired p avoid depth seen (p.inside (.region r)) out) :
    p.toursOf depth (.region r :: todo) = .region r ::
    (p.toursOf depth (p.inside (.region r)) ++ p.toursOf depth todo) := by
  refine toursOf_region fun hzero ↦ ?_
  rw [inside] at h ⊢
  cases hops : p.opsIn r with
  | nil => rfl
  | cons o ops =>
    rw [hops] at h
    cases h
    cases hzero

lemma append (h : Wired p avoid depth seen todo mid) (h' : Wired p avoid depth mid todo' out) :
    Wired p avoid depth seen (todo ++ todo') out := by
  induction h with
  | done => exact h'
  | op havoid hlive hmet hinner _ _ ih => exact .op havoid hlive hmet hinner (ih h')
  | region havoid hlive hinner _ _ ih => exact .region havoid hlive hinner (ih h')

/-- Induction for what does not tell operations from regions. -/
theorem visits {motive : ∀ depth seen out todo, Wired p avoid depth seen todo out → Prop}
    (done : ∀ {depth seen}, motive depth seen seen [] .done)
    (visit : ∀ {depth level seen mid out a todo} (h : Wired p avoid depth seen (a :: todo) out),
      a ∉ avoid → p.Has a → (∀ o, a = .op o → Met p seen o) →
      p.toursOf depth (a :: todo) = a :: (p.toursOf level (p.inside a) ++ p.toursOf depth todo) →
      ∀ (hinner : Wired p avoid level (insert a seen) (p.inside a) mid)
      (hrest : Wired p avoid depth mid todo out), motive _ _ _ _ hinner → motive _ _ _ _ hrest →
    motive depth seen out (a :: todo) h) (h : Wired p avoid depth seen todo out) :
    motive depth seen out todo h := by
  induction h with
  | done => exact done
  | op havoid hlive hmet hinner hrest ihinner ihrest =>
    refine visit _ havoid hlive (fun o ho ↦ ?_) (toursOf_op ..) hinner hrest ihinner ihrest
    cases ho
    exact hmet
  | region havoid hlive hinner hrest ihinner ihrest =>
    exact visit _ havoid hlive (fun o ho ↦ by cases ho)
      hinner.tours_region hinner hrest ihinner ihrest

variable (h : Wired p avoid depth seen todo out)

include h

lemma subset : seen ⊆ out := by
  induction h using visits with
  | done => exact subset_rfl
  | visit _ _ _ _ _ _ _ ihinner ihrest => exact (Set.subset_insert _ _).trans (ihinner.trans ihrest)

lemma mono (hdepth : depth ≤ depth') :
    Wired p avoid depth' seen todo out := by
  induction h generalizing depth' with
  | done => exact .done
  | op havoid hlive hmet _ _ ihinner ihrest =>
    obtain ⟨level, rfl⟩ := Nat.exists_eq_add_of_lt (Nat.lt_of_succ_le hdepth)
    exact .op havoid hlive hmet (ihinner (by omega)) (ihrest (by omega))
  | region havoid hlive _ _ ihinner ihrest =>
    exact .region havoid hlive (ihinner hdepth) (ihrest hdepth)

lemma widen (extra : Set Visit) : Wired p avoid depth (seen ∪ extra) todo (out ∪ extra) := by
  induction h with
  | done => exact .done
  | op havoid hlive hmet _ _ ihinner ihrest =>
    refine .op havoid hlive (hmet.mono Set.subset_union_left) ?_ ihrest
    rwa [← Set.insert_union]
  | region havoid hlive _ _ ihinner ihrest =>
    refine .region havoid hlive ?_ ihrest
    rwa [← Set.insert_union]

lemma has (hseen : ∀ a ∈ seen, p.Has a) : ∀ a ∈ out, p.Has a := by
  induction h using visits with
  | done => exact hseen
  | visit _ _ hlive _ _ _ _ ihinner ihrest =>
    exact ihrest (ihinner (Set.forall_mem_insert.mpr ⟨hlive, hseen⟩))

lemma todo_mem : ∀ a ∈ todo, a ∈ out ∧ a ∉ avoid := by
  induction h using visits with
  | done => simp
  | visit _ havoid _ _ _ hinner hrest _ ih =>
    exact forall_mem_cons.mpr ⟨⟨hrest.subset (hinner.subset (Set.mem_insert _ _)), havoid⟩, ih⟩

lemma met : ∀ a ∈ out, a ∈ seen ∨ (∀ b ∈ p.inside a, b ∈ out ∧ b ∉ avoid) ∧
    ∀ o, a = .op o → Met p out o := by
  have hlater : ∀ {mid out : Set Visit} {a : Visit}, mid ⊆ out →
      (∀ b ∈ p.inside a, b ∈ mid ∧ b ∉ avoid) ∧ (∀ o, a = .op o → Met p mid o) →
      (∀ b ∈ p.inside a, b ∈ out ∧ b ∉ avoid) ∧ ∀ o, a = .op o → Met p out o :=
    fun hsub hmid ↦
      ⟨fun b hb ↦ (hmid.1 b hb).imp_left fun hin ↦ hsub hin, fun o ho ↦ (hmid.2 o ho).mono hsub⟩
  induction h using visits with
  | done => exact fun a ha ↦ .inl ha
  | visit _ _ _ hmet _ hinner hrest ihinner ihrest =>
    intro a ha
    rcases ihrest a ha with hmid | hgood
    · rcases ihinner a hmid with (rfl | hseen) | hgood
      · refine .inr (hlater hrest.subset ⟨hinner.todo_mem, fun x hx ↦ ?_⟩)
        exact (hmet x hx).mono ((Set.subset_insert _ _).trans hinner.subset)
      · exact .inl hseen
      · exact .inr (hlater hrest.subset hgood)
    · exact .inr hgood

lemma out_subset (hseen : seen ⊆ S)
    (hinside : ∀ a ∈ S, ∀ b ∈ p.inside a, b ∈ S) (htodo : ∀ a ∈ todo, a ∈ S) : out ⊆ S := by
  induction h using visits with
  | done => exact hseen
  | visit _ _ _ _ _ _ _ ihinner ihrest =>
    rw [forall_mem_cons] at htodo
    exact ihrest (ihinner (Set.insert_subset htodo.1 hseen) (hinside _ htodo.1)) htodo.2

lemma avoiding (hinside : ∀ a ∈ S, ∀ b ∈ p.inside a, b ∈ S) (htodo : ∀ a ∈ todo, a ∈ S)
    (hother : ∀ a ∈ avoid', a ∉ S) : Wired p avoid' depth seen todo out := by
  induction h with
  | done => exact .done
  | op _ hlive hmet _ _ ihinner ihrest =>
    rw [forall_mem_cons] at htodo
    exact .op (fun hmem ↦ hother _ hmem htodo.1) hlive hmet (ihinner (hinside _ htodo.1))
      (ihrest htodo.2)
  | region _ hlive _ _ ihinner ihrest =>
    rw [forall_mem_cons] at htodo
    exact .region (fun hmem ↦ hother _ hmem htodo.1) hlive (ihinner (hinside _ htodo.1))
      (ihrest htodo.2)

lemma transfer (hsame : ∀ a, p.Has a → a ∉ avoid → Unchanged p q a)
    (havoid' : ∀ a ∈ avoid', p.Has a → a ∈ avoid) (hseen : ∀ a ∈ seen, q.defines a = p.defines a) :
    Wired q avoid' depth seen todo out ∧ ∀ a ∈ out, q.defines a = p.defines a := by
  induction h with
  | done => exact ⟨.done, hseen⟩
  | @op _ _ _ _ o _ havoid hlive hmet _ _ ihinner ihrest =>
    have hkept := hsame _ hlive havoid
    obtain ⟨hoperands, hcontrol⟩ := hkept.refers o rfl
    obtain ⟨hinner, hmid⟩ := ihinner (Set.forall_mem_insert.mpr ⟨hkept.defines, hseen⟩)
    obtain ⟨hrest, hout⟩ := ihrest hmid
    refine ⟨.op (fun hmem ↦ havoid (havoid' _ hmem hlive)) hkept.has
      ⟨fun v hv ↦ ?_, ?_⟩ ?_ hrest, hout⟩
    · obtain ⟨a, ha, hdef⟩ := hmet.operands v (hoperands ▸ hv)
      exact ⟨a, ha, hseen a ha ▸ hdef⟩
    · exact hcontrol ▸ hmet.control
    · exact hkept.inside ▸ hinner
  | region havoid hlive _ _ ihinner ihrest =>
    have hkept := hsame _ hlive havoid
    obtain ⟨hinner, hmid⟩ := ihinner (Set.forall_mem_insert.mpr ⟨hkept.defines, hseen⟩)
    obtain ⟨hrest, hout⟩ := ihrest hmid
    exact ⟨.region (fun hmem ↦ havoid (havoid' _ hmem hlive)) hkept.has
      (hkept.inside ▸ hinner) hrest, hout⟩

lemma avoidLess (hsub : avoid' ⊆ avoid) :
    Wired p avoid' depth seen todo out := by
  induction h with
  | done => exact .done
  | op havoid hlive hmet _ _ ihinner ihrest =>
    exact .op (fun hmem ↦ havoid (hsub hmem)) hlive hmet ihinner ihrest
  | region havoid hlive _ _ ihinner ihrest =>
    exact .region (fun hmem ↦ havoid (hsub hmem)) hlive ihinner ihrest

lemma toLevel (hp : p.Consistent) {n : Nat} (htodo : ∀ a ∈ todo, AtLevel p n a)
    (hdepth : p.regions.length ≤ n + depth') : Wired p avoid depth' seen todo out := by
  induction h generalizing n depth' with
  | done => exact .done
  | @op _ _ _ _ o _ havoid hlive hmet _ _ ihinner ihrest =>
    rw [forall_mem_cons] at htodo
    obtain ⟨⟨r, hr, ho⟩, hrest⟩ := htodo
    have hlevel := hr.lt_length hp
    obtain ⟨deeper, rfl⟩ : ∃ deeper, depth' = deeper + 1 := ⟨depth' - 1, by omega⟩
    refine .op havoid hlive hmet (ihinner (n := n + 1) ?_ (by omega)) (ihrest hrest hdepth)
    refine forall_mem_map.mpr fun inner hinner ↦ ?_
    exact AttachedAt.nested hr ho hinner
  | @region _ _ _ _ r _ havoid hlive _ _ ihinner ihrest =>
    rw [forall_mem_cons] at htodo
    obtain ⟨hr, hrest⟩ := htodo
    refine .region havoid hlive (ihinner ?_ hdepth) (ihrest hrest hdepth)
    exact forall_mem_map.mpr fun o ho ↦ ⟨r, hr, ho⟩

lemma mem_tours : ∀ a ∈ out, a ∈ seen ∨ a ∈ p.toursOf depth todo := by
  induction h using visits with
  | done => exact fun a ha ↦ .inl ha
  | visit _ _ _ _ htours _ _ ihinner ihrest =>
    intro a ha
    rw [htours, mem_cons, mem_append]
    rcases ihrest a ha with hmid | hrest
    · rcases ihinner a hmid with (rfl | hseen) | hinner
      · exact .inr (.inl rfl)
      · exact .inl hseen
      · exact .inr (.inr (.inl hinner))
    · exact .inr (.inr (.inr hrest))

lemma tours_avoid : ∀ a ∈ p.toursOf depth todo, a ∉ avoid := by
  induction h using visits with
  | done => exact forall_mem_nil _
  | visit _ havoid _ _ htours _ _ ihinner ihrest =>
    rw [htours]
    exact forall_mem_cons.mpr ⟨havoid, forall_mem_append.mpr ⟨ihinner, ihrest⟩⟩

lemma reached {src : RegionId} {tours : List Visit} (hseen : seen = insert a mid)
    (hreached : Reached p src mid (a :: (p.toursOf depth todo ++ tours))) :
    Reached p src out tours := by
  refine hreached.advance (Sublist.refl (_ :: _ ++ _)) fun c hmem ↦ ?_
  rcases hseen ▸ h.mem_tours c hmem with (rfl | hmid) | htour
  · exact .inr mem_cons_self
  · exact .inl hmid
  · exact .inr (mem_cons_of_mem _ htour)

end Wired

section Growing

variable {s : Program} {busy : List OpId} {opened : List RegionId} (hg : Grows busy opened s q)

include hg

lemma has_of_grows (hbusy : ∀ o ∈ busy, q.Has (.op o)) (hopened : ∀ r ∈ opened, q.Has (.region r))
    (ha : s.Has a) : q.Has a := by
  cases a with
  | op o =>
    by_cases hmem : o ∈ busy
    · exact hbusy o hmem
    · change (q.op? o).isSome
      rw [hg.op?_eq ha hmem]
      exact ha
  | region r =>
    by_cases hmem : r ∈ opened
    · exact hopened r hmem
    · change (q.region? r).isSome
      rw [hg.region?_eq ha hmem]
      exact ha

lemma defines_of_grows (hbusy : ∀ o ∈ busy, q.resultsOf o = s.resultsOf o) (hopened : ∀ r ∈ opened,
    q.argsOf r = s.argsOf r) (ha : s.Has a) : q.defines a = s.defines a := by
  cases a with
  | op o =>
    by_cases hmem : o ∈ busy
    · exact hbusy o hmem
    · exact resultsOf_congr (hg.op?_eq ha hmem)
  | region r =>
    by_cases hmem : r ∈ opened
    · exact hopened r hmem
    · exact argsOf_congr (hg.region?_eq ha hmem)

end Growing

/-! ### Copies of what is wired -/

namespace CopyProgress

variable {src dst : RegionId} {seed m : CopyMap} {image : Visit → Visit}
  {base seen out avoid : Set Visit} {tours todo : List Visit} {depth : Nat}
  (h : CopyProgress p src dst seed image (p.contents src) m q) (hc : p.Copyable src dst)
  (hinputs : ∀ v ∈ p.argsOf src, ∃ b ∈ base, m.value v ∈ q.defines b)

include h hc hinputs

lemma met_copy (hreached : Reached p src seen (.op o :: tours)) (hmet : Met p seen o) :
    Met q (base ∪ image '' seen) (m.op o) := by
  have hmem : .op o ∈ p.contents src := hreached.sub.subset mem_cons_self
  obtain ⟨front, back, hsplit⟩ := append_of_mem hmem
  have hfront : ∀ c ∈ seen, c ≠ .region src → c ∈ front := fun c hseen hne ↦
    hreached.mem_front (nodup_cons.mp hc.nodup).2 mem_cons_self hsplit hseen hne
  have hcontents : ∀ c ∈ front, c ∈ p.contents src := fun c hcmem ↦ hsplit ▸ mem_append_left _ hcmem
  obtain ⟨node, node', m₁, hnode, hnode', hknows, hcopy⟩ := h.exists_copy hsplit
  have hnames : node'.operands = node.operands.map m.value := by
    refine hcopy.operands.trans
      (map_congr_left fun v hv ↦ h.value_eq hsplit hknows fun c hcmem hdef ↦ ?_)
    obtain ⟨b, hseen, hdef'⟩ := hmet.operands v (operandsOf_eq hnode ▸ hv)
    obtain rfl := hc.consistent.eq_of_mem_defines hdef hdef'
    exact hfront c hseen (ne_of_mem_of_not_mem hcmem (nodup_cons.mp hc.nodup).1)
  refine ⟨fun v hv ↦ ?_, fun d hd ↦ ?_⟩
  · rw [operandsOf_eq hnode', hnames] at hv
    obtain ⟨u, hu, rfl⟩ := mem_map.mp hv
    obtain ⟨b, hseen, hdef⟩ := hmet.operands u (operandsOf_eq hnode ▸ hu)
    by_cases hne : b = .region src
    · subst hne
      obtain ⟨a, ha, hnamed⟩ := hinputs u hdef
      exact ⟨a, .inl ha, hnamed⟩
    · refine ⟨image b, .inr (Set.mem_image_of_mem _ hseen), ?_⟩
      rw [h.defines (hcontents b (hfront b hseen hne))]
      exact mem_map_of_mem hdef
  · rw [controlOf_eq hnode', hcopy.control, mem_eraseDups] at hd
    obtain ⟨x, hx, rfl⟩ := mem_map.mp hd
    have hseen := hmet.control x (controlOf_eq hnode ▸ hx)
    have hin := hfront _ hseen (by simp)
    rw [hknows.ops x hin, ← h.image_op (hcontents _ hin)]
    exact .inr (Set.mem_image_of_mem _ hseen)

lemma wired_copy (hwired : Wired p avoid depth seen todo out)
    (hreached : Reached p src seen (p.toursOf depth todo)) :
    Wired q {a | p.Has a} depth (base ∪ image '' seen) (todo.map image) (base ∪ image '' out) := by
  induction hwired with
  | done => exact .done
  | @op depth seen mid out o todo _ _ hmet hinner hrest ihinner ihrest =>
    rw [toursOf_op] at hreached
    have hmem := hreached.sub.subset mem_cons_self
    have hin := hreached.enter ((sublist_append_left _ _).cons_cons _)
    have hdone := ihinner hin
    rw [Set.image_insert_eq, Set.union_insert, ← h.inside_image hc hmem, h.image_op hmem] at hdone
    rw [map_cons, h.image_op hmem]
    exact .op (h.image_op hmem ▸ h.fresh _ hmem)
      (h.image_op hmem ▸ h.has hc.target (mem_cons_of_mem _ hmem))
      (h.met_copy hc hinputs hreached hmet) hdone (ihrest (hinner.reached rfl hreached))
  | @region depth seen mid out r todo _ _ hinner hrest ihinner ihrest =>
    rw [hinner.tours_region] at hreached
    have hmem := hreached.sub.subset mem_cons_self
    have hin := hreached.enter ((sublist_append_left _ _).cons_cons _)
    have hdone := ihinner hin
    obtain ⟨r', himage⟩ := image_region h hmem
    rw [Set.image_insert_eq, Set.union_insert, ← h.inside_image hc hmem, himage] at hdone
    rw [map_cons, himage]
    exact .region (himage ▸ h.fresh _ hmem) (himage ▸ h.has hc.target (mem_cons_of_mem _ hmem))
      hdone (ihrest (hinner.reached rfl hreached))

end CopyProgress

end Program

end TensorGraph
