import TensorGraph.Proofs.SlotAlignment
import TensorGraph.Proofs.StructureChanges

/-!
Slots that stay. The slots of a loop are looked at before the loops inside it lose theirs.
-/

namespace TensorGraph

open List Option

variable {o x last : OpId} {body cond : RegionId} {u v arg : ValueId} {slots : List Nat} {i : Nat}
    {node : Operation} {f : ValueId → ValueId} {q : Program}

/-! ### Places in lists that lose the same -/

section Survivors

variable {β γ : Type} {l : List β}

lemma getElem?_survivors_eq (slots : List Nat) (l : List β) (j : Nat) :
    (survivors slots l)[j]? = ((List.range l.length).filter (· ∉ slots))[j]?.bind (l[·]?) := by
  rw [← map_snd_survivors, survivors, getElem?_map, getElem?_map]
  cases hentry : (l.zipIdx.filter (·.2 ∉ slots))[j]? with
  | none => rfl
  | some entry =>
    have hmem := mem_of_mem_filter (mem_of_getElem? hentry)
    exact (mem_zipIdx_iff_getElem?.mp hmem).symm

lemma length_survivors_lt (hi : i ∈ slots) (hlt : i < l.length) :
    (survivors slots l).length < l.length := by
  have hfewer : ((List.range l.length).filter (· ∉ slots)).length < (List.range l.length).length :=
    length_filter_lt_length_iff_exists.mpr ⟨i, mem_range.mpr hlt, by simpa using hi⟩
  rw [length_range] at hfewer
  rwa [length_survivors]

lemma exists_survivors_iff {l' : List γ} (hlength : l'.length = l.length) (R : β → γ → Prop) :
    (∃ (j : Nat) (b : β) (c : γ), (survivors slots l)[j]? = some b ∧
    (survivors slots l')[j]? = some c ∧ R b c) ↔ ∃ i ∉ slots, ∃ b c, l[i]? = some b ∧
    l'[i]? = some c ∧ R b c := by
  simp only [getElem?_survivors_eq, hlength, bind_eq_some_iff]
  constructor
  · rintro ⟨j, b, c, ⟨i, hi, hb⟩, ⟨i', hi', hc⟩, hR⟩
    cases hi.symm.trans hi'
    have hmem := mem_filter.mp (mem_of_getElem? hi)
    exact ⟨i, by simpa using hmem.2, b, c, hb, hc, hR⟩
  · rintro ⟨i, hi, b, c, hb, hc, hR⟩
    have hlt := (List.getElem?_eq_some_iff.mp hb).1
    have hleft : i ∈ (List.range l.length).filter (· ∉ slots) :=
      mem_filter.mpr ⟨mem_range.mpr hlt, decide_eq_true hi⟩
    obtain ⟨j, hj⟩ := mem_iff_getElem?.mp hleft
    exact ⟨j, b, c, ⟨i, hj, hb⟩, ⟨i, hj, hc⟩, hR⟩

end Survivors

namespace LoopSlots

open Program Edit Relation

/-- The body of the loop hands the argument of a slot on as it is. -/
def HandsOn (p : Program) (o : OpId) : Prop :=
  ∃ node, p.op? o = some node ∧ node.kind = "WhileRegion" ∧
    ∃ cond body last, IsLoop p o cond body last ∧ ∃ (i : Nat) (v : ValueId),
    (p.operandsOf last)[i]? = some v ∧ (p.argsOf body)[i]? = some v

/-- `v` is a result of a loop that carries `u` around unchanged. -/
def GivesBack (p : Program) (v u : ValueId) : Prop :=
  ∃ o ∈ p.allOps, ∃ i ∈ removable p o, (p.resultsOf o)[i]? = some v ∧ (p.operandsOf o)[i]? = some u

/-- The body of a loop hands the argument of a slot on, but through loops that carry it around
unchanged. -/
def HandsOnThroughLoops (p : Program) : Prop :=
  ∃ o ∈ p.allOps, ∃ node, p.op? o = some node ∧ node.kind = "WhileRegion" ∧
    ∃ cond body last, IsLoop p o cond body last ∧ ∃ (i : Nat) (v arg : ValueId),
      (p.operandsOf last)[i]? = some v ∧
      (p.argsOf body)[i]? = some arg ∧ TransGen (GivesBack p) v arg

/-! ### What there is to remove -/

section Removable

variable {p : Program} (hp : p.Consistent)

include hp

lemma mem_removable (hnode : p.op? o = some node) (hkind : node.kind = "WhileRegion")
    (hloop : IsLoop p o cond body last) :
    i ∈ removable p o ↔ ∃ v, (p.operandsOf last)[i]? = some v ∧ (p.argsOf body)[i]? = some v := by
  have hremovable : removable p o = passthroughSlots p node := by
    rw [removable, hnode]
    exact if_pos hkind
  rw [hremovable, mem_passthroughSlots hp hnode hloop]
  constructor
  · rintro ⟨hlt, hsame⟩
    rw [← hloop.yielded] at hlt
    have hv := getElem?_eq_getElem hlt
    exact ⟨_, hv, hsame.symm.trans hv⟩
  · rintro ⟨v, hv, harg⟩
    have hlt := (List.getElem?_eq_some_iff.mp hv).1
    exact ⟨hloop.yielded ▸ hlt, hv.trans harg.symm⟩

lemma exists_loop_of_mem_removable (hi : i ∈ removable p o) :
    ∃ node, p.op? o = some node ∧ node.kind = "WhileRegion" ∧
    ∃ cond body last, IsLoop p o cond body last := by
  unfold removable at hi
  split at hi
  case h_2 => cases hi
  case h_1 node hnode =>
    split_ifs at hi with hkind
    · exact ⟨node, hnode, hkind, exists_isLoop hp hnode hi⟩
    · cases hi

lemma handsOn_iff : HandsOn p o ↔ removable p o ≠ [] := by
  constructor
  · rintro ⟨node, hnode, hkind, cond, body, last, hloop, i, hi⟩
    exact ne_nil_of_mem ((mem_removable hp hnode hkind hloop).mpr hi)
  · intro hne
    obtain ⟨i, hi⟩ := exists_mem_of_ne_nil _ hne
    obtain ⟨node, hnode, hkind, cond, body, last, hloop⟩ := exists_loop_of_mem_removable hp hi
    exact ⟨node, hnode, hkind, cond, body, last, hloop, i,
      (mem_removable hp hnode hkind hloop).mp hi⟩

lemma simplifyLoop_unchanged (ho : o ∈ p.allOps) (hnone : ¬ HandsOn p o) :
    (simplifyLoop o).exec p = (.ok false, p) := by
  obtain ⟨node, hnode⟩ := isSome_iff_exists.mp (hp.isSome_of_mem_allOps ho)
  rw [handsOn_iff hp, not_not, removable, hnode] at hnone
  dsimp only at hnone
  unfold simplifyLoop
  rw [bind_readOp hnode]
  split_ifs with hkind
  · rfl
  · rw [if_pos (not_not.mp hkind)] at hnone
    rw [exec_get_bind, hnone]
    rfl

lemma run_unchanged (hnone : ∀ o ∈ p.allOps, ¬ HandsOn p o) : run.exec p = (.ok false, p) := by
  unfold run
  rw [exec_get_bind]
  exact anyChange_unchanged fun o ho ↦ simplifyLoop_unchanged hp ho (hnone o ho)

end Removable

/-! ### Following values out of loops -/

section Chains

variable {p : Program} (hp : WellOrdered p) {slots : OpId → List Nat}

include hp

lemma Carried.available (h : Carried p slots v u) (hv : Available p x v) :
    Available p x u := by
  obtain ⟨o, ho, i, -, cond, body, last, hloop, hu, hv'⟩ := h
  have havailable := hp.scoping.operands o ho u (mem_of_getElem? hu)
  have hinside : ∀ r ∈ p.regionsOf o, v ∈ p.argsOf r → Available p x u := by
    intro r hr harg
    obtain ⟨a, hanc⟩ := hv.exists_ancestorIn_of_mem_args hp.consistent harg
    obtain ⟨home, -, hparent⟩ := (mem_allOps hp.consistent).mp ho
    exact .of_ancestor (hanc.of_inner hp.consistent hr (.here hparent)) havailable
  rcases hv' with hresult | harg | harg
  · exact .trans hp.consistent (hv.sees_of_mem_results hp.consistent (mem_of_getElem? hresult))
      havailable
  · exact hinside cond (by simp [hloop.regions]) (mem_of_getElem? harg)
  · exact hinside body (by simp [hloop.regions]) (mem_of_getElem? harg)

lemma available_of_carried {w : ValueId} (h : ReflTransGen (Carried p slots) v w)
    (hv : Available p x v) : Available p x w := by
  induction h with
  | refl => exact hv
  | tail _ hstep ih => exact hstep.available hp ih

/-- From inside the body of a loop one comes to an argument of the body through results only: who
goes through an argument comes to something that the loop itself may use. -/
theorem givesBack_of_carried (hslots : ∀ o ∈ p.allOps, slots o = removable p o) (ho : o ∈ p.allOps)
    (hbody : body ∈ p.regionsOf o) (hx : x ∈ p.opsIn body) (harg : arg ∈ p.argsOf body)
    (h : ReflTransGen (Carried p slots) v arg) (hv : Available p x v) :
    ReflTransGen (GivesBack p) v arg := by
  have hc := hp.consistent
  obtain ⟨home, ⟨n, hhome⟩, hparent⟩ := (mem_allOps hc).mp ho
  have hbodyAt : AttachedAt p (n + 1) body := hhome.nested (hc.mem_opsIn.mpr hparent) hbody
  have howner := hc.mem_regionsOf.mp hbody
  induction h using ReflTransGen.head_induction_on with
  | refl => exact .refl
  | @head v u hstep hrest ih =>
    have hu := hstep.available hp hv
    obtain ⟨o', ho', i, hi, cond, body', last, hloop, hinit, hplace⟩ := hstep
    have hinside : ∀ r ∈ p.regionsOf o', v ∉ p.argsOf r := by
      intro r hr hmem
      obtain ⟨a, hanc⟩ := hv.exists_ancestorIn_of_mem_args hc hmem
      have havailable := hp.scoping.operands o' ho' u (mem_of_getElem? hinit)
      have hloopUses : Available p o u := by
        obtain ⟨home', -, hparent'⟩ := (mem_allOps hc).mp ho'
        rcases hanc with hhere | ⟨hup, howner', habove⟩
        · cases hhere.symm.trans (hc.mem_opsIn.mp hx)
          cases howner.symm.trans (hc.mem_regionsOf.mp hr)
          exact havailable
        · cases hup.symm.trans (hc.mem_opsIn.mp hx)
          cases howner.symm.trans howner'
          exact .of_ancestor (habove.of_inner hc hr (.here hparent')) havailable
      obtain ⟨b, hb⟩ :=
        (available_of_carried hp hrest hloopUses).exists_ancestorIn_of_mem_args hc harg
      exact hb.not_of_owner hc hbodyAt howner
    rcases hplace with hresult | hmem | hmem
    · exact .head ⟨o', ho', i, hslots o' ho' ▸ hi, hresult, hinit⟩ (ih hu)
    · exact absurd (mem_of_getElem? hmem) (hinside cond (by simp [hloop.regions]))
    · exact absurd (mem_of_getElem? hmem) (hinside body' (by simp [hloop.regions]))

end Chains

/-! ### A second run -/

lemma Aligned.handsOn_iff {p : Program} (h : Aligned slots f p q o cond body last)
    (hloop : IsLoop p o cond body last) :
    (∃ (i : Nat) (v : ValueId), (q.operandsOf last)[i]? = some v ∧ (q.argsOf body)[i]? = some v) ↔
    ∃ i ∉ slots, ∃ v arg, (p.operandsOf last)[i]? = some v ∧
    (p.argsOf body)[i]? = some arg ∧ f v = arg := by
  have hlength := hloop.bodyArgs.trans hloop.yielded.symm
  rw [← exists_survivors_iff hlength fun v arg ↦ f v = arg, h.yielded, h.bodyArgs]
  simp only [getElem?_map, map_eq_some_iff]
  constructor
  · rintro ⟨i, arg, ⟨v, hv, heq⟩, harg⟩
    exact ⟨i, v, arg, hv, harg, heq⟩
  · rintro ⟨i, v, arg, hv, harg, heq⟩
    exact ⟨i, arg, ⟨v, hv, heq⟩, harg⟩

section Again

variable {p : Program} (hp : WellOrdered p) {slots : OpId → List Nat} (h : Trimmed p slots f q)
  (hslots : ∀ o ∈ p.allOps, slots o = removable p o)

include hp h hslots

lemma Trimmed.eq_of_givesBack (hback : GivesBack p v u) : f v = f u := by
  obtain ⟨o, ho, i, hi, hv, hu⟩ := hback
  obtain ⟨node, hnode, hkind, cond, body, last, hloop⟩ :=
    exists_loop_of_mem_removable hp.consistent hi
  exact (h.aligned o cond body last (isEnd_of_kind hnode hkind) hloop).merged i
    ((hslots o ho).symm ▸ hi) u hu v (.inl hv)

lemma Trimmed.eq_of_transGen (hchain : TransGen (GivesBack p) v u) : f v = f u := by
  induction hchain with
  | single hback => exact h.eq_of_givesBack hp hslots hback
  | tail _ hback ih => exact ih.trans (h.eq_of_givesBack hp hslots hback)

/-- A slot whose body does not hand its argument on comes to do so exactly if the body hands the
argument on through loops. -/
theorem Trimmed.eq_arg_iff (ho : o ∈ p.allOps) (hnode : p.op? o = some node)
    (hkind : node.kind = "WhileRegion") (hloop : IsLoop p o cond body last)
    (hv : (p.operandsOf last)[i]? = some v) (harg : (p.argsOf body)[i]? = some arg) : i ∉ slots o ∧
    f v = arg ↔ TransGen (GivesBack p) v arg := by
  have hc := hp.consistent
  have haligned := h.aligned o cond body last (isEnd_of_kind hnode hkind) hloop
  have hbody : body ∈ p.regionsOf o := by simp [hloop.regions]
  have hlast : last ∈ p.opsIn body := mem_of_getLast? (terminator?_eq_some.mp hloop.ends).1
  obtain ⟨home, hhome, hparent⟩ := (mem_allOps hc).mp ho
  have hlastAll : last ∈ p.allOps := (mem_allOps hc).mpr
    ⟨body, hhome.nested (hc.mem_opsIn.mpr hparent) hbody, hc.mem_opsIn.mp hlast⟩
  rw [hslots o ho]
  constructor
  · rintro ⟨hi, heq⟩
    have hne : v ≠ arg := by
      rintro rfl
      exact hi ((mem_removable hc hnode hkind hloop).mpr ⟨v, hv, harg⟩)
    have hchain := givesBack_of_carried hp hslots ho hbody hlast (mem_of_getElem? harg)
      (heq ▸ h.traced v) (hp.scoping.operands last hlastAll v (mem_of_getElem? hv))
    exact (reflTransGen_iff_eq_or_transGen.mp hchain).resolve_left fun heq ↦ hne heq.symm
  · intro hchain
    have hi : i ∉ removable p o := by
      -- An argument is nothing that a loop gives back.
      intro hmem
      obtain ⟨w, hw, hwarg⟩ := (mem_removable hc hnode hkind hloop).mp hmem
      obtain rfl := some.inj (hw.symm.trans hv)
      obtain ⟨u, ⟨o', -, j, -, hresult, -⟩, -⟩ := TransGen.head'_iff.mp hchain
      cases (hc.placed.results o' j w hresult).symm.trans (hc.placed.args body i w hwarg)
    have hsame := h.eq_of_transGen hp hslots hchain
    have hleft : arg ∈ q.argsOf body := by
      rw [haligned.bodyArgs, hslots o ho]
      exact mem_survivors harg hi
    exact ⟨hi, hsame.trans (h.fixes arg (.inr ⟨body, hleft⟩))⟩

lemma Trimmed.handsOn_iff : (∃ o ∈ q.allOps, HandsOn q o) ↔ HandsOnThroughLoops p := by
  have hc := hp.consistent
  have hkinds : ∀ o kind, (∃ node, q.op? o = some node ∧ node.kind = kind) ↔
      ∃ node, p.op? o = some node ∧ node.kind = kind := fun o kind ↦ by
    rw [← map_eq_some_iff, ← map_eq_some_iff, h.kinds]
  constructor
  · rintro ⟨o, ho, node', hnode', hkind', cond, body, last, hloop', hhands⟩
    obtain ⟨node, hnode, hkind⟩ := (hkinds o _).mp ⟨node', hnode', hkind'⟩
    have hend := isEnd_of_kind hnode hkind
    have hloop := h.loops o cond body last hend hloop'
    have hop := h.tree.symm.mem_allOps h.ordered.consistent hc ho
    obtain ⟨i, hi, v, arg, hv, harg, heq⟩ :=
      ((h.aligned o cond body last hend hloop).handsOn_iff hloop).mp hhands
    exact ⟨o, hop, node, hnode, hkind, cond, body, last, hloop, i, v, arg, hv, harg,
      (h.eq_arg_iff hp hslots hop hnode hkind hloop hv harg).mp ⟨hi, heq⟩⟩
  · rintro ⟨o, ho, node, hnode, hkind, cond, body, last, hloop, i, v, arg, hv, harg, hchain⟩
    obtain ⟨node', hnode', hkind'⟩ := (hkinds o _).mpr ⟨node, hnode, hkind⟩
    have haligned := h.aligned o cond body last (isEnd_of_kind hnode hkind) hloop
    obtain ⟨hi, heq⟩ := (h.eq_arg_iff hp hslots ho hnode hkind hloop hv harg).mpr hchain
    exact ⟨o, h.tree.mem_allOps hc h.ordered.consistent ho, node', hnode', hkind', cond, body, last,
      haligned.isLoop h.tree hloop, (haligned.handsOn_iff hloop).mpr ⟨i, hi, v, arg, hv, harg, heq⟩⟩

end Again

lemma succeeds_run_iff (hreach : Reachable q) (hq : WellOrdered q) :
    Succeeds run q fun again q' ↦ (again = true ↔ ∃ o ∈ q.allOps, HandsOn q o) ∧
    (again = false → q' = q) := by
  obtain ⟨again, q', hok, slots, f, hslots, htrimmed⟩ := succeeds_run hq hreach.nodup_roots
  have hfalse : again = false ↔ q' = q := (reports_run hreach hok).eq_false_iff.1
  refine .of_ok hok ⟨⟨fun hagain ↦ ?_, ?_⟩, hfalse.mp⟩
  · by_contra hnone
    have hunchanged := run_unchanged hq.consistent fun o ho hhands ↦ hnone ⟨o, ho, hhands⟩
    have hsame := Except.ok.inj (Prod.mk.inj (hok.symm.trans hunchanged)).1
    exact Bool.noConfusion (hagain.symm.trans hsame)
  · rintro ⟨o, ho, hhands⟩
    obtain ⟨i, hi⟩ := exists_mem_of_ne_nil _ ((handsOn_iff hq.consistent).mp hhands)
    obtain ⟨node, hnode, hkind, cond, body, last, hloop⟩ :=
      exists_loop_of_mem_removable hq.consistent hi
    obtain ⟨v, hv, -⟩ := (mem_removable hq.consistent hnode hkind hloop).mp hi
    have hlt : i < (q.resultsOf o).length := by
      rw [hloop.results, ← hloop.yielded]
      exact (List.getElem?_eq_some_iff.mp hv).1
    rw [← Bool.not_eq_false, hfalse]
    rintro rfl
    have hfewer := length_survivors_lt hi hlt
    rw [← hslots o ho, ← htrimmed.results o] at hfewer
    exact Nat.lt_irrefl _ hfewer

/-- On an ordered program the pass succeeds, and so does a second run. A loop is left that hands the
argument of a slot on, and the second run changes something, exactly if the body of a loop hands an
argument on through loops inside. -/
theorem second_run_changes_iff (registry : Registry) {p : Program} (hp : Reachable p)
    (h : Ordered p) : ∃ changed q again q', (pass.run registry).exec p = (.ok changed, q) ∧
      (pass.run registry).exec q = (.ok again, q') ∧
      ((∃ o ∈ q.allOps, HandsOn q o) ↔ HandsOnThroughLoops p) ∧
      (again = true ↔ HandsOnThroughLoops p) ∧ (again = false → q' = q) := by
  have hordered := h.wellOrdered hp.consistent
  obtain ⟨changed, q, hok, slots, f, hslots, hq⟩ := succeeds_run hordered hp.nodup_roots
  have hreach : Reachable q := keeps_reachable_run.of_ok hp hok
  obtain ⟨again, q', hok', hagain, hsame⟩ := succeeds_run_iff hreach hq.ordered
  have hleft := hq.handsOn_iff hordered hslots
  exact ⟨changed, q, again, q', hok, hok', hleft, hagain.trans hleft, hsame⟩

/-- A loop whose body yields what a loop inside carries around. -/
def loopAroundLoop : Program :=
  .built [
    .node 0 "source" [] 1, .node 0 "WhileRegion" [0] 1, .addRegion ⟨1⟩ .repeated,
    .addRegion ⟨1⟩ .repeated, .addArg ⟨1⟩ .unknown, .node 1 yieldKind [2], .addArg ⟨2⟩ .unknown,
    .node 2 "WhileRegion" [3] 1, .addRegion ⟨3⟩ .repeated, .addRegion ⟨3⟩ .repeated,
    .addArg ⟨3⟩ .unknown, .node 3 yieldKind [5], .addArg ⟨4⟩ .unknown, .node 4 yieldKind [6],
    .node 2 yieldKind [4], .node 0 returnKind [1]]

/-- The first run takes the slot of the inner loop, the second one that of the outer loop. -/
theorem loopAroundLoop_takes_two_runs :
    let registry : Registry := NameMap.empty
    let q := ((pass.run registry).exec loopAroundLoop).2
    let q' := ((pass.run registry).exec q).2
    (pass.run registry).exec loopAroundLoop = (.ok true, q) ∧
      q.argsOf ⟨2⟩ = [⟨3⟩] ∧ q.operandsOf ⟨6⟩ = [⟨3⟩] ∧ q.operandsOf ⟨3⟩ = [] ∧
      (pass.run registry).exec q = (.ok true, q') ∧ q'.argsOf ⟨2⟩ = [] ∧
      q'.operandsOf ⟨7⟩ = [⟨0⟩] := by
  intro registry q q'
  exact ⟨exec_eq_ok (by decide +kernel), by decide +kernel, by decide +kernel, by decide +kernel,
    exec_eq_ok (by decide +kernel), by decide +kernel⟩

/-- The body of the outer loop hands its argument on through the inner loop. -/
theorem loopAroundLoop_handsOnThroughLoops :
    let registry : Registry := NameMap.empty
    let q := ((pass.run registry).exec loopAroundLoop).2
    Reachable loopAroundLoop ∧ Ordered loopAroundLoop ∧ HandsOnThroughLoops loopAroundLoop ∧
      ∃ o ∈ q.allOps, HandsOn q o := by
  intro registry q
  have hp : Reachable loopAroundLoop := reachable_built _
  have hordered : Ordered loopAroundLoop := ordered_of_isScoped hp.consistent (by decide +kernel)
    (by decide +kernel)
  have hagain : ((pass.run registry).exec q).1.toOption = some true := by decide +kernel
  obtain ⟨changed, m, again, q', hok, hok', hleft, hchanges, -⟩ :=
    second_run_changes_iff registry hp hordered
  obtain rfl : q = m := congrArg Prod.snd hok
  rw [hok'] at hagain
  obtain rfl : again = true := some.inj hagain
  have hhidden := hchanges.mp rfl
  exact ⟨hp, hordered, hhidden, hleft.mpr hhidden⟩

end LoopSlots

end TensorGraph
