import TensorGraph.Proofs.SlotMeaning

/-!
Loops without the values they carry around unchanged. The slots of a loop go one by one, the highest
first, so that the places of the others stay what they were, and the five lists of the loop lose the
same places.
-/

namespace TensorGraph

open List Option

variable {p q : Program} {o last : OpId} {body cond : RegionId} {v u : ValueId} {node : Operation}
    {slots : List Nat} {i index : Nat} {f : ValueId → ValueId}

/-! ### Lists that lose places -/

section Survivors

variable {β : Type}

/-- The entries of a list at other places than those given. -/
def survivors (slots : List Nat) (l : List β) : List β :=
  (l.zipIdx.filter (·.2 ∉ slots)).map (·.1)

lemma survivors_sublist (slots : List Nat) (l : List β) : (survivors slots l).Sublist l := by
  have h := (filter_sublist (p := fun x : β × Nat ↦ decide (x.2 ∉ slots)) (l := l.zipIdx)).map (·.1)
  rwa [zipIdx_map_fst] at h

lemma survivors_nil (l : List β) : survivors [] l = l := by
  simp [survivors, zipIdx_map_fst]

lemma map_snd_survivors (slots : List Nat) (l : List β) :
    (l.zipIdx.filter (·.2 ∉ slots)).map (·.2) = (List.range l.length).filter (· ∉ slots) := by
  rw [range_eq_range', ← zipIdx_map_snd, List.filter_map]
  rfl

lemma length_survivors (slots : List Nat) (l : List β) :
    (survivors slots l).length = ((List.range l.length).filter (· ∉ slots)).length := by
  rw [survivors, length_map, ← map_snd_survivors, length_map]

lemma survivors_concat (h : ∀ j ∈ slots, index < j) (l : List β) :
    survivors (slots ++ [index]) l = (survivors slots l).eraseIdx index := by
  suffices hfrom : ∀ start index, (∀ j ∈ slots, start + index < j) → (l.zipIdx start).filter
      (·.2 ∉ slots ++ [start + index]) = ((l.zipIdx start).filter (·.2 ∉ slots)).eraseIdx index by
    have hall := hfrom 0 index (by simpa using h)
    rw [Nat.zero_add] at hall
    rw [survivors, hall, survivors, eraseIdx_map]
  -- The places of a rest of the list are counted on from those in front of it.
  clear h
  induction l with
  | nil => exact fun _ _ _ ↦ rfl
  | cons a l ih =>
    intro start index h
    have hhead : start ∉ slots := fun hmem ↦ by
      have := h start hmem
      omega
    rw [zipIdx_cons, filter_cons_of_pos (p := fun x : β × Nat ↦ x.2 ∉ slots) (by simpa using hhead)]
    cases index with
    | zero =>
      rw [filter_cons_of_neg (by simp), eraseIdx_cons_zero]
      refine filter_congr fun x hx ↦ ?_
      have hne : x.2 ≠ start := Nat.ne_of_gt (le_snd_of_mem_zipIdx hx)
      simp [hne]
    | succ index =>
      have hlater := ih (start + 1) index fun j hj ↦ by
        have := h j hj
        omega
      rw [show start + 1 + index = start + (index + 1) by omega] at hlater
      rw [filter_cons_of_pos (by simp [hhead]), eraseIdx_cons_succ, hlater]

lemma getElem?_survivors (h : ∀ j ∈ slots, index < j) (l : List β) :
    (survivors slots l)[index]? = l[index]? := by
  suffices hfrom : ∀ start index, (∀ j ∈ slots, start + index < j) →
    (((l.zipIdx start).filter (·.2 ∉ slots)).map (·.1))[index]? = l[index]? from hfrom 0 index
    (by simpa using h)
  clear h
  induction l with
  | nil => exact fun _ _ _ ↦ rfl
  | cons a l ih =>
    intro start index h
    have hhead : start ∉ slots := fun hmem ↦ by
      have := h start hmem
      omega
    rw [zipIdx_cons, filter_cons_of_pos (by simpa using hhead), map_cons]
    cases index with
    | zero => rfl
    | succ index =>
      rw [getElem?_cons_succ, getElem?_cons_succ]
      exact ih (start + 1) index fun j hj ↦ by
        have := h j hj
        omega

lemma mem_survivors {l : List β} {b : β} (hb : l[index]? = some b) (hindex : index ∉ slots) :
    b ∈ survivors slots l :=
  mem_map.mpr
    ⟨(b, index), mem_filter.mpr ⟨mem_zipIdx_iff_getElem?.mpr hb, by simpa using hindex⟩, rfl⟩

end Survivors

namespace Program

/-! ### What a program computes -/

/-- The value is a result of an operation or an argument of a region. -/
def Defines (p : Program) (v : ValueId) : Prop :=
  (∃ o, v ∈ p.resultsOf o) ∨ ∃ r, v ∈ p.argsOf r

/-- Run at the same depth, the graph and the functions give the same outputs, with the same values
at the end for all that the second program defines. -/
def SameMeaning (p q : Program) : Prop :=
  ∀ (α : Type) (I : Interpretation α) (depth : Nat), ∀ r ∈ p.roots, ∀ args : List α,
    Option.Rel (fun x y ↦ y.2 = x.2 ∧ ∀ v, q.Defines v → y.1 v = x.1 v)
      (p.evalRegion I depth r .empty args) (q.evalRegion I depth r .empty args)

lemma SameMeaning.refl (p : Program) : SameMeaning p p := by
  intro α I depth r _ args
  cases p.evalRegion I depth r .empty args with
  | none => exact .none
  | some x => exact .some ⟨rfl, fun _ _ ↦ rfl⟩

lemma SameMeaning.trans {m : Program} (h : SameMeaning p m) (h' : SameMeaning m q)
    (hroots : m.roots = p.roots) (hdefines : ∀ v, q.Defines v → m.Defines v) : SameMeaning p q := by
  intro α I depth r hr args
  have hfirst := h α I depth r hr args
  have hsecond := h' α I depth r (hroots ▸ hr) args
  revert hfirst hsecond
  generalize p.evalRegion I depth r .empty args = x
  generalize m.evalRegion I depth r .empty args = y
  generalize q.evalRegion I depth r .empty args = z
  rintro (⟨houtputs, hvalues⟩ | -) (⟨houtputs', hvalues'⟩ | -)
  · exact .some ⟨houtputs'.trans houtputs, fun v hv ↦
      (hvalues' v hv).trans (hvalues v (hdefines v hv))⟩
  · exact .none

section Evaluates

variable {α : Type} (h : SameMeaning p q) (I : Interpretation α) {r : RegionId} (hr : r ∈ p.roots)
  {args outputs : List α}

include h hr

lemma SameMeaning.evaluates {env : Env α} (heval : p.Evaluates I r args env outputs) :
    ∃ env', q.Evaluates I r args env' outputs ∧ ∀ v, q.Defines v → env' v = env v := by
  obtain ⟨depth, hrun⟩ := heval
  have hrel := h α I depth r hr args
  rw [hrun] at hrel
  generalize hrun' : q.evalRegion I depth r .empty args = y at hrel
  obtain ⟨rfl, hvalues⟩ | - := hrel
  exact ⟨_, ⟨depth, hrun'⟩, hvalues⟩

lemma SameMeaning.evaluates_of {env' : Env α} (heval : q.Evaluates I r args env' outputs) :
    ∃ env, p.Evaluates I r args env outputs ∧ ∀ v, q.Defines v → env' v = env v := by
  obtain ⟨depth, hrun⟩ := heval
  have hrel := h α I depth r hr args
  rw [hrun] at hrel
  generalize hrun' : p.evalRegion I depth r .empty args = x at hrel
  cases hrel with
  | @some x _ hends =>
    obtain ⟨env, outputs⟩ := x
    obtain ⟨rfl, hvalues⟩ := hends
    exact ⟨env, ⟨depth, hrun'⟩, hvalues⟩

end Evaluates

end Program

namespace LoopSlots

open Program Edit Relation

/-! ### One slot -/

namespace Slot

variable {s : Slot} (h : WellOrdered p) (hs : s.Passthrough p) (hr : s.Removed p q)

include hr

lemma Removed.resultsOf_subset (o : OpId) : q.resultsOf o ⊆ p.resultsOf o := by
  rw [hr.resultsOf]
  exact eraseAt_subset ..

lemma Removed.argsOf_subset (r : RegionId) : q.argsOf r ⊆ p.argsOf r := by
  rw [hr.argsOf]
  exact Subset.trans (eraseAt_subset ..) (eraseAt_subset ..)

omit hr in
lemma LiesIn.defines_of_gone (hlies : s.LiesIn p) (hv : s.Gone v) : p.Defines v := by
  rcases hv with rfl | rfl | rfl
  · exact .inr ⟨_, mem_of_getElem? hlies.bodyArg⟩
  · exact .inr ⟨_, mem_of_getElem? hlies.condArg⟩
  · exact .inl ⟨_, mem_of_getElem? hlies.result⟩

lemma Removed.defines (hv : q.Defines v) : p.Defines v :=
  hv.imp (fun ⟨o, ho⟩ ↦ ⟨o, hr.resultsOf_subset o ho⟩) fun ⟨r, hmem⟩ ↦ ⟨r, hr.argsOf_subset r hmem⟩

include h hs

lemma Removed.not_gone (hv : q.Defines v) : ¬ s.Gone v := by
  have hgone : ∀ {l : List ValueId}, l.Nodup → l[s.index]? = some v → v ∉ l.eraseIdx s.index := by
    intro l hnodup hindex hmem
    obtain ⟨j, hne, hj⟩ := mem_eraseIdx_iff_getElem?.mp hmem
    obtain ⟨hlt, hget⟩ := List.getElem?_eq_some_iff.mp hj
    obtain ⟨hlt', hget'⟩ := List.getElem?_eq_some_iff.mp hindex
    exact hne (hnodup.getElem_inj_iff.mp (hget.trans hget'.symm))
  have hp := h.consistent
  rcases hv with ⟨o, ho⟩ | ⟨r, hmem⟩
  · have hold := hr.resultsOf_subset o ho
    rw [hs.gone_result_iff h hold]
    rintro rfl
    obtain rfl := hp.eq_of_mem_resultsOf hold (mem_of_getElem? hs.lies.result)
    rw [hr.resultsOf, eraseAt, if_pos rfl] at ho
    exact hgone (hp.nodup_resultsOf _) hs.lies.result ho
  · rw [hs.gone_arg_iff h (hr.argsOf_subset r hmem)]
    have hne := hs.lies.cond_ne_body hp
    rintro (⟨rfl, rfl⟩ | ⟨rfl, rfl⟩)
    · rw [hr.argsOf, eraseAt, if_pos rfl, eraseAt, if_neg hne.symm] at hmem
      exact hgone (hp.nodup_argsOf _) hs.lies.bodyArg hmem
    · rw [hr.argsOf, eraseAt, if_neg hne, eraseAt, if_pos rfl] at hmem
      exact hgone (hp.nodup_argsOf _) hs.lies.condArg hmem

lemma Removed.sameMeaning (ho : s.op ∈ p.allOps) : SameMeaning p q := by
  intro α I depth r hroot args
  have hnot : ¬ (r = s.cond ∨ r = s.body) := by
    rw [hs.part_iff h, h.consistent.parentOp?_of_root hroot]
    simp
  have hclosed : Closed p [] p.regions.length ([] ++ p.argsOf r) (p.opsIn r) :=
    h.scoping.closed_root h.consistent hroot
  have hrel : Option.Rel (s.EndsAlike r) (p.evalRegion I depth r .empty args)
      (q.evalRegion I depth r .empty (s.takes r args)) :=
    hr.simulates h ho hs depth hclosed (by simp) (.nil s .empty) fun hpart ↦ absurd hpart hnot
  rw [takes_of_not_part hnot] at hrel
  revert hrel
  generalize p.evalRegion I depth r .empty args = x
  generalize q.evalRegion I depth r .empty args = y
  rintro (⟨hvalues, houtputs⟩ | -)
  · exact .some
      ⟨houtputs.trans (gives_of_not_part hnot _), fun v hv ↦ hvalues v (hr.not_gone h hs hv)⟩
  · exact .none

lemma Removed.lists_of_ne (ho : o ≠ s.op) (hend : p.isEnd o = false)
    (hregions : p.regionsOf o = [cond, body]) (hends : p.terminator? body = some last) :
    q.argsOf cond = p.argsOf cond ∧ q.argsOf body = p.argsOf body ∧ q.operandsOf o =
    (p.operandsOf o).map s.value ∧ q.operandsOf last = (p.operandsOf last).map s.value := by
  have hp := h.consistent
  have hlast := (terminator?_eq_some.mp hs.lies.loop.ends).2
  have hargs : ∀ r ∈ p.regionsOf o, q.argsOf r = p.argsOf r := by
    intro r hmem
    have hnot : ¬ (r = s.cond ∨ r = s.body) := by
      rw [hs.part_iff h, hp.mem_regionsOf.mp hmem]
      exact fun heq ↦ ho (some.inj heq)
    rw [not_or] at hnot
    rw [hr.argsOf, eraseAt, if_neg hnot.2, eraseAt, if_neg hnot.1]
  have hbody : body ≠ s.body := by
    rintro rfl
    have hmem : s.body ∈ p.regionsOf o := by simp [hregions]
    have hmem' : s.body ∈ p.regionsOf s.op := by simp [hs.lies.loop.regions]
    exact ho (some.inj ((hp.mem_regionsOf.mp hmem).symm.trans (hp.mem_regionsOf.mp hmem')))
  refine ⟨hargs _ (by simp [hregions]), hargs _ (by simp [hregions]), ?_, ?_⟩
  · have hne : o ≠ s.last := by
      rintro rfl
      cases hend.symm.trans hlast
    rw [hr.operandsOf, eraseAt, if_neg ho, eraseAt, if_neg hne]
  · have hne : last ≠ s.last := by
      rintro rfl
      have hin := hp.mem_opsIn.mp (mem_of_getLast? (terminator?_eq_some.mp hends).1)
      have hin' := hp.mem_opsIn.mp (mem_of_getLast? (terminator?_eq_some.mp hs.lies.loop.ends).1)
      exact hbody (some.inj (hin.symm.trans hin'))
    have hne' : last ≠ s.op := by
      rintro rfl
      cases hs.isEnd.symm.trans (terminator?_eq_some.mp hends).2
    rw [hr.operandsOf, eraseAt, if_neg hne', eraseAt, if_neg hne]

lemma Removed.lists_self : q.argsOf s.cond = (p.argsOf s.cond).eraseIdx s.index ∧ q.argsOf s.body =
    (p.argsOf s.body).eraseIdx s.index ∧ q.operandsOf s.op =
    ((p.operandsOf s.op).map s.value).eraseIdx s.index ∧ q.operandsOf s.last =
    ((p.operandsOf s.last).map s.value).eraseIdx s.index := by
  have hne := hs.lies.cond_ne_body h.consistent
  refine ⟨?_, ?_, ?_, ?_⟩
  · rw [hr.argsOf, eraseAt, if_neg hne, eraseAt, if_pos rfl]
  · rw [hr.argsOf, eraseAt, if_pos rfl, eraseAt, if_neg hne.symm]
  · rw [hr.operandsOf, eraseAt, if_pos rfl, eraseAt, if_neg hs.op_ne_last]
  · rw [hr.operandsOf, eraseAt, if_neg hs.op_ne_last.symm, eraseAt, if_pos rfl]

lemma Removed.isLoop_of (hend : p.isEnd o = false) (hloop : IsLoop q o cond body last) :
    IsLoop p o cond body last := by
  have htree := Removed.sameTree hr
  have hregions : p.regionsOf o = [cond, body] := (htree.regions o).symm.trans hloop.regions
  have hends : p.terminator? body = some last := (htree.terminator? body).symm.trans hloop.ends
  by_cases ho : o = s.op
  · subst ho
    have hsame := hs.lies.loop.regions.symm.trans hregions
    simp only [List.cons.injEq, and_true] at hsame
    obtain ⟨rfl, rfl⟩ := hsame
    cases hs.lies.loop.ends.symm.trans hends
    exact hs.lies.loop
  · obtain ⟨hcond, hbody, hoperands, hyielded⟩ := hr.lists_of_ne h hs ho hend hregions hends
    obtain ⟨-, -, hcondLength, hbodyLength, hyieldedLength, hresultsLength⟩ := hloop
    rw [hcond, hoperands, length_map] at hcondLength
    rw [hbody, hoperands, length_map] at hbodyLength
    rw [hyielded, hoperands, length_map, length_map] at hyieldedLength
    rw [hr.resultsOf, eraseAt, if_neg ho, hoperands, length_map] at hresultsLength
    exact ⟨hregions, hends, hcondLength, hbodyLength, hyieldedLength, hresultsLength⟩

end Slot

/-! ### Loops that lose slots -/

/-- The lists of a loop have lost the given places, and `f` has been applied to the values that are
used. It takes the values of a lost slot to what it takes the operand of the slot to. -/
structure Aligned (slots : List Nat) (f : ValueId → ValueId) (p q : Program) (o : OpId)
    (cond body : RegionId) (last : OpId) : Prop where
  results : q.resultsOf o = survivors slots (p.resultsOf o)
  condArgs : q.argsOf cond = survivors slots (p.argsOf cond)
  bodyArgs : q.argsOf body = survivors slots (p.argsOf body)
  operands : q.operandsOf o = (survivors slots (p.operandsOf o)).map f
  yielded : q.operandsOf last = (survivors slots (p.operandsOf last)).map f
  merged : ∀ i ∈ slots, ∀ init, (p.operandsOf o)[i]? = some init → ∀ v,
    (p.resultsOf o)[i]? = some v ∨ (p.argsOf cond)[i]? = some v ∨
    (p.argsOf body)[i]? = some v → f v = f init

lemma Aligned.isLoop (h : Aligned slots f p q o cond body last) (htree : SameTree p q)
    (hloop : IsLoop p o cond body last) : IsLoop q o cond body last where
  regions := (htree.regions o).trans hloop.regions
  ends := (htree.terminator? body).trans hloop.ends
  condArgs := by
    rw [h.condArgs, h.operands, length_map, length_survivors, length_survivors, hloop.condArgs]
  bodyArgs := by
    rw [h.bodyArgs, h.operands, length_map, length_survivors, length_survivors, hloop.bodyArgs]
  yielded := by
    rw [h.yielded, h.operands, length_map, length_map, length_survivors,
      length_survivors, hloop.yielded]
  results := by
    rw [h.results, h.operands, length_map, length_survivors, length_survivors, hloop.results]

/-- `v` belongs to a slot that a loop loses, and `u` is the operand of the slot. -/
def Carried (p : Program) (slots : OpId → List Nat) (v u : ValueId) : Prop :=
  ∃ o ∈ p.allOps, ∃ i ∈ slots o, ∃ cond body last, IsLoop p o cond body last ∧
    (p.operandsOf o)[i]? = some u ∧
    ((p.resultsOf o)[i]? = some v ∨ (p.argsOf cond)[i]? = some v ∨ (p.argsOf body)[i]? = some v)

lemma Carried.mono {slots more : OpId → List Nat} (hsub : ∀ o, slots o ⊆ more o)
    (h : Carried p slots v u) :
    Carried p more v u := by
  obtain ⟨o, ho, i, hi, hrest⟩ := h
  exact ⟨o, ho, i, hsub o hi, hrest⟩

/-- Every loop has lost the places that are given for it. -/
structure Trimmed (p : Program) (slots : OpId → List Nat) (f : ValueId → ValueId)
    (q : Program) : Prop where
  ordered : WellOrdered q
  tree : SameTree p q
  kinds : ∀ o, (q.op? o).map (·.kind) = (p.op? o).map (·.kind)
  results : ∀ o, q.resultsOf o = survivors (slots o) (p.resultsOf o)
  args : ∀ r, q.argsOf r ⊆ p.argsOf r
  fixes : ∀ v, q.Defines v → f v = v
  /-- A value is replaced by what was available to a loop that has lost a place. -/
  reach : ∀ v, f v = v ∨ ∃ o ∈ p.allOps, slots o ≠ [] ∧ Available p o (f v)
  traced : ∀ v, ReflTransGen (Carried p slots) v (f v)
  loops : ∀ o cond body last, p.isEnd o = false → IsLoop q o cond body last →
    IsLoop p o cond body last
  aligned : ∀ o cond body last, p.isEnd o = false → IsLoop p o cond body last →
    Aligned (slots o) f p q o cond body last
  meaning : SameMeaning p q

lemma Trimmed.refl (h : WellOrdered p) : Trimmed p (fun _ ↦ []) id p where
  ordered := h
  tree := .refl p
  kinds _ := rfl
  results o := (survivors_nil _).symm
  args r := Subset.refl _
  fixes _ _ := rfl
  reach _ := .inl rfl
  traced _ := .refl
  loops _ _ _ _ _ hloop := hloop
  aligned o cond body last _ _ := by
    constructor <;> simp [survivors_nil]
  meaning := .refl p

section Step

variable {m : Program} {slots : OpId → List Nat} {s : Slot}

lemma Trimmed.available (hp : p.Consistent) (h : Trimmed p slots f m) (ho : o ∈ p.allOps)
    (hv : Available m o v) : Available p o v := by
  refine h.tree.symm.frame.available hp not_mem_nil ho (fun r hr ↦ h.args r hr)
    (fun d hd ↦ ⟨not_mem_nil, fun _ ↦ ?_⟩) hv
  rw [h.results] at hd
  exact (survivors_sublist _ _).subset hd

variable (h : Trimmed p slots f m) (hs : s.Passthrough m) (hr : s.Removed m q)
  (hbelow : ∀ j ∈ slots s.op, s.index < j)

include h hs hr

lemma Trimmed.aligned_of_ne (ho : o ≠ s.op) (hend : p.isEnd o = false)
    (hloop : IsLoop p o cond body last) : Aligned (slots o) (s.value ∘ f) p q o cond body last := by
  have hold := h.aligned o cond body last hend hloop
  obtain ⟨hcond, hbody, hoperands, hyielded⟩ := hr.lists_of_ne h.ordered hs ho
    ((h.tree.ends o).trans hend) ((h.tree.regions o).trans hloop.regions)
    ((h.tree.terminator? body).trans hloop.ends)
  refine ⟨?_, hcond.trans hold.condArgs, hbody.trans hold.bodyArgs, ?_, ?_,
    fun i hi init hinit v hv ↦ ?_⟩
  · rw [hr.resultsOf, eraseAt, if_neg ho, hold.results]
  · rw [hoperands, hold.operands, List.map_map]
  · rw [hyielded, hold.yielded, List.map_map]
  · exact congrArg s.value (hold.merged i hi init hinit v hv)

omit hr in
lemma Trimmed.not_isEnd : p.isEnd s.op = false :=
  (h.tree.ends s.op).symm.trans hs.isEnd

omit hr in
lemma Trimmed.exists_init (hbelow : ∀ j ∈ slots s.op, s.index < j)
    (hloop : IsLoop p s.op s.cond s.body s.last) : ∃ init,
      (p.operandsOf s.op)[s.index]? = some init ∧ f init = s.init ∧ ∀ v, s.Gone v ↔
      (p.resultsOf s.op)[s.index]? = some v ∨ (p.argsOf s.cond)[s.index]? = some v ∨
      (p.argsOf s.body)[s.index]? = some v := by
  have hend := h.not_isEnd hs
  have hold := h.aligned s.op s.cond s.body s.last hend hloop
  have hinit := hs.lies.init
  have hresult := hs.lies.result
  have hcondArg := hs.lies.condArg
  have hbodyArg := hs.lies.bodyArg
  rw [hold.operands, getElem?_map, getElem?_survivors hbelow] at hinit
  rw [hold.results, getElem?_survivors hbelow] at hresult
  rw [hold.condArgs, getElem?_survivors hbelow] at hcondArg
  rw [hold.bodyArgs, getElem?_survivors hbelow] at hbodyArg
  obtain ⟨init, hplace, hinit⟩ := map_eq_some_iff.mp hinit
  refine ⟨init, hplace, hinit, fun v ↦ ?_⟩
  rw [hresult, hcondArg, hbodyArg, Slot.Gone]
  simp only [some.injEq, eq_comm (a := v)]
  tauto

include hbelow

lemma Trimmed.aligned_self (hloop : IsLoop p s.op s.cond s.body s.last) :
    Aligned (slots s.op ++ [s.index]) (s.value ∘ f) p q s.op s.cond s.body s.last := by
  have hend := h.not_isEnd hs
  have hold := h.aligned s.op s.cond s.body s.last hend hloop
  obtain ⟨hcond, hbody, hoperands, hyielded⟩ := hr.lists_self h.ordered hs
  refine ⟨?_, ?_, ?_, ?_, ?_, fun i hi init hinit v hv ↦ ?_⟩
  · rw [hr.resultsOf, eraseAt, if_pos rfl, hold.results, survivors_concat hbelow]
  · rw [hcond, hold.condArgs, survivors_concat hbelow]
  · rw [hbody, hold.bodyArgs, survivors_concat hbelow]
  · rw [hoperands, hold.operands, List.map_map, survivors_concat hbelow, eraseIdx_map]
  · rw [hyielded, hold.yielded, List.map_map, survivors_concat hbelow, eraseIdx_map]
  · rcases mem_append.mp hi with hi | hi
    · exact congrArg s.value (hold.merged i hi init hinit v hv)
    · obtain rfl := mem_singleton.mp hi
      obtain ⟨init', hinit', hplace, hgone⟩ := h.exists_init hs hbelow hloop
      cases hinit.symm.trans hinit'
      have hv := (hgone v).mpr hv
      rw [Function.comp_apply, Function.comp_apply, hplace, h.fixes v (hs.lies.defines_of_gone hv),
        Slot.value_of_gone hv, Slot.value_init]

omit hr in
lemma Trimmed.traced_step (ho : s.op ∈ p.allOps) (v : ValueId) :
    ReflTransGen (Carried p (Function.update slots s.op (slots s.op ++ [s.index]))) v
    (s.value (f v)) := by
  have hend := h.not_isEnd hs
  have hloop := h.loops s.op s.cond s.body s.last hend hs.lies.loop
  have hmono : ∀ u, ReflTransGen (Carried p (Function.update slots s.op (slots s.op ++ [s.index])))
      u (f u) := by
    refine fun u ↦ ReflTransGen.mono (fun _ _ hstep ↦ hstep.mono fun o ↦ ?_) u (f u) (h.traced u)
    by_cases heq : o = s.op
    · rw [heq, Function.update_self]
      exact subset_append_left _ _
    · rw [Function.update_of_ne heq]
      exact Subset.refl _
  by_cases hv : s.Gone (f v)
  · obtain ⟨init, hinit, hplace, hgone⟩ := h.exists_init hs hbelow hloop
    have hstep : Carried p (Function.update slots s.op (slots s.op ++ [s.index])) (f v) init :=
      ⟨s.op, ho, s.index, by simp, s.cond, s.body, s.last, hloop, hinit, (hgone _).mp hv⟩
    rw [Slot.value_of_gone hv, ← hplace]
    exact (hmono v).trans (.head hstep (hmono init))
  · rw [Slot.value_of_not_gone hv]
    exact hmono v

lemma Trimmed.step (hp : p.Consistent) (ho : s.op ∈ p.allOps) (hq : WellOrdered q) :
    Trimmed p (Function.update slots s.op (slots s.op ++ [s.index])) (s.value ∘ f) q := by
  have hmq : SameTree m q := Slot.Removed.sameTree hr
  have hom := h.tree.mem_allOps hp h.ordered.consistent ho
  have hend := h.not_isEnd hs
  have hroots : m.roots = p.roots := by rw [roots, h.tree.graph, h.tree.funcs, roots]
  refine
    { ordered := hq
      tree := h.tree.trans hmq
      kinds := fun o ↦ ?_
      results := fun o ↦ ?_
      args := fun r ↦ Subset.trans (hr.argsOf_subset r) (h.args r)
      fixes := fun v hv ↦ ?_
      reach := fun v ↦ ?_
      traced := h.traced_step hs hbelow ho
      loops := fun o cond body last hoend hloop ↦ ?_
      aligned := fun o cond body last hoend hloop ↦ ?_
      meaning := h.meaning.trans (hr.sameMeaning h.ordered hs hom) hroots fun _ ↦ hr.defines }
  · rw [← h.kinds, hr.op?, Option.map_map]
    rfl
  · rw [hr.resultsOf, eraseAt, h.results]
    split_ifs with heq
    · rw [heq, Function.update_self, survivors_concat hbelow]
    · rw [Function.update_of_ne heq]
  · rw [Function.comp_apply, h.fixes v (hr.defines hv), Slot.value_of_not_gone
      (hr.not_gone h.ordered hs hv)]
  · rw [Function.comp_apply]
    by_cases hv : s.Gone (f v)
    · right
      refine ⟨s.op, ho, by simp, ?_⟩
      rw [Slot.value_of_gone hv]
      exact h.available hp ho (h.ordered.scoping.operands _ hom _ (mem_of_getElem? hs.lies.init))
    · rw [Slot.value_of_not_gone hv]
      obtain hfixed | ⟨o, hoall, hslots, havailable⟩ := h.reach v
      · exact .inl hfixed
      refine .inr ⟨o, hoall, ?_, havailable⟩
      by_cases heq : o = s.op
      · rw [heq, Function.update_self]
        simp
      · rwa [Function.update_of_ne heq]
  · exact h.loops o cond body last hoend
      (hr.isLoop_of h.ordered hs ((h.tree.ends o).trans hoend) hloop)
  · by_cases heq : o = s.op
    · subst heq
      have hold := h.loops s.op s.cond s.body s.last hend hs.lies.loop
      have hregions := hold.regions.symm.trans hloop.regions
      simp only [List.cons.injEq, and_true] at hregions
      obtain ⟨rfl, rfl⟩ := hregions
      cases hold.ends.symm.trans hloop.ends
      rw [Function.update_self]
      exact h.aligned_self hs hr hbelow hloop
    · rw [Function.update_of_ne heq]
      exact h.aligned_of_ne hs hr heq hoend hloop

end Step

/-! ### The pass -/

/-- The places that the pass takes out of the lists of an operation. -/
def removable (p : Program) (o : OpId) : List Nat :=
  match p.op? o with
  | some node => if node.kind = "WhileRegion" then passthroughSlots p node else []
  | none => []

lemma pairwise_passthroughSlots (p : Program) (node : Operation) :
    (passthroughSlots p node).Pairwise (· > ·) := by
  unfold passthroughSlots
  split
  · exact .nil
  · exact .filter _ (pairwise_reverse.mpr pairwise_lt_range)

section Loop

variable (hp : p.Consistent) (hnode : p.op? o = some node)

include hp hnode

lemma passthroughSlots_eq (hloop : IsLoop p o cond body last) : passthroughSlots p node =
    (List.range (p.operandsOf o).length).reverse.filter fun i ↦
    (p.operandsOf last)[i]? == (p.argsOf body)[i]? := by
  have hparts := (loopOf?_eq_some_iff hp hnode ⟨cond, body, p.argsOf cond, p.argsOf body,
    p.operandsOf last⟩).mpr ⟨last, hloop, rfl, rfl, rfl⟩
  rw [passthroughSlots, hparts, operandsOf_eq hnode]

lemma exists_isLoop (hi : i ∈ passthroughSlots p node) :
    ∃ cond body last, IsLoop p o cond body last := by
  unfold passthroughSlots at hi
  cases hparts : loopOf? p node with
  | none => simp [hparts] at hi
  | some loop =>
    obtain ⟨last, hloop, -⟩ := (loopOf?_eq_some_iff hp hnode loop).mp hparts
    exact ⟨_, _, last, hloop⟩

lemma mem_passthroughSlots (hloop : IsLoop p o cond body last) :
    i ∈ passthroughSlots p node ↔ i < (p.operandsOf o).length ∧
    (p.operandsOf last)[i]? = (p.argsOf body)[i]? := by
  rw [passthroughSlots_eq hp hnode hloop]
  simp

lemma exists_passthrough (hkind : node.kind = "WhileRegion")
    (hi : i ∈ passthroughSlots p node) : ∃ s : Slot, s.Passthrough p ∧ s.op = o ∧ s.index = i := by
  obtain ⟨cond, body, last, hloop⟩ := exists_isLoop hp hnode hi
  obtain ⟨hlt, hhanded⟩ := (mem_passthroughSlots hp hnode hloop).mp hi
  obtain ⟨s, hlies, rfl, rfl, rfl, rfl, rfl⟩ := exists_slot hloop hlt
  exact ⟨s, ⟨hlies, ⟨node, hnode, hkind⟩, hhanded.trans hlies.bodyArg⟩, rfl, rfl⟩

end Loop

section Run

variable {m : Program} (hp : WellOrdered p) {slots : OpId → List Nat}

include hp

/-- A loop to come hands on what it handed on at the start: an argument that has replaced a value
would have been available to a loop inside. -/
theorem Trimmed.passthroughSlots_eq (h : Trimmed p slots f m)
    {node' : Operation} (hnode : p.op? o = some node) (hnode' : m.op? o = some node')
    (hend : p.isEnd o = false) (hslots : slots o = [])
    (houtside : ∀ x, slots x ≠ [] → p.Outside x o) :
    passthroughSlots m node' = passthroughSlots p node := by
  by_cases hloop : ∃ cond body last, IsLoop p o cond body last
  · obtain ⟨cond, body, last, hloop⟩ := hloop
    have haligned := h.aligned o cond body last hend hloop
    have hloop' := haligned.isLoop h.tree hloop
    obtain ⟨-, -, hbodyArgs, hoperands, hyielded, -⟩ := haligned
    rw [hslots, survivors_nil] at hbodyArgs hoperands hyielded
    rw [LoopSlots.passthroughSlots_eq h.ordered.consistent hnode' hloop',
      LoopSlots.passthroughSlots_eq hp.consistent hnode hloop, hbodyArgs, hoperands,
      hyielded, length_map]
    refine filter_congr fun i hi ↦ ?_
    have hlt : i < (p.operandsOf o).length := by simpa using hi
    obtain ⟨v, hv⟩ : ∃ v, (p.operandsOf last)[i]? = some v :=
      ⟨_, getElem?_eq_getElem (hloop.yielded ▸ hlt)⟩
    obtain ⟨arg, harg⟩ : ∃ arg, (p.argsOf body)[i]? = some arg :=
      ⟨_, getElem?_eq_getElem (hloop.bodyArgs ▸ hlt)⟩
    rw [getElem?_map, hv, harg, map_some]
    replace harg := mem_of_getElem? harg
    have hfixed : f arg = arg := h.fixes arg (.inr ⟨body, hbodyArgs ▸ harg⟩)
    have hiff : f v = arg ↔ v = arg := by
      constructor
      · intro heq
        rcases h.reach v with hv | ⟨x, hx, hxslots, havailable⟩
        · exact hv.symm.trans heq
        · rw [heq] at havailable
          obtain ⟨a, hanc⟩ := havailable.exists_ancestorIn_of_mem_args hp.consistent harg
          exact absurd hanc (houtside x hxslots body (by simp [hloop.regions]) a)
      · rintro rfl
        exact hfixed
    simp [hiff]
  · have hnone : ∀ {k : Program} {n : Operation}, k.Consistent → k.op? o = some n →
      (¬ ∃ cond body last, IsLoop k o cond body last) → passthroughSlots k n = [] :=
      fun hk hn hnot ↦ eq_nil_iff_forall_not_mem.mpr fun i hi ↦ hnot (exists_isLoop hk hn hi)
    rw [hnone hp.consistent hnode hloop, hnone h.ordered.consistent hnode'
      fun ⟨cond, body, last, hloop'⟩ ↦
      hloop ⟨cond, body, last, h.loops o cond body last hend hloop'⟩]

lemma Trimmed.exists_step (h : Trimmed p slots f m) (ho : o ∈ p.allOps)
    (hnode : p.op? o = some node) (hkind : node.kind = "WhileRegion")
    (hindex : index ∈ passthroughSlots p node) (hbelow : ∀ j ∈ slots o, index < j) :
    Succeeds (removeSlot o index) m fun _ q ↦
    ∃ f', Trimmed p (Function.update slots o (slots o ++ [index])) f' q := by
  have hend := isEnd_of_kind hnode hkind
  obtain ⟨cond, body, last, hloop⟩ := exists_isLoop hp.consistent hnode hindex
  obtain ⟨hlt, hhanded⟩ := (mem_passthroughSlots hp.consistent hnode hloop).mp hindex
  have haligned := h.aligned o cond body last hend hloop
  have hinit : (m.operandsOf o)[index]? = some (f (p.operandsOf o)[index]) := by
    rw [haligned.operands, getElem?_map, getElem?_survivors hbelow, getElem?_eq_getElem hlt]
    rfl
  obtain ⟨s, hlies, rfl, rfl, rfl, rfl, rfl⟩ := exists_slot (haligned.isLoop h.tree hloop)
    (List.getElem?_eq_some_iff.mp hinit).1
  have hs : s.Passthrough m := by
    refine ⟨hlies, ?_, ?_⟩
    · have hkinds := h.kinds s.op
      rw [hnode, map_some, hkind] at hkinds
      exact map_eq_some_iff.mp hkinds
    · have harg := hlies.bodyArg
      rw [haligned.bodyArgs, getElem?_survivors hbelow] at harg
      rw [haligned.yielded, getElem?_map, getElem?_survivors hbelow, hhanded, harg, map_some,
        h.fixes s.bodyArg (.inr ⟨s.body, mem_of_getElem? hlies.bodyArg⟩)]
  have hom := h.tree.mem_allOps hp.consistent h.ordered.consistent ho
  obtain ⟨q, hok⟩ := Slot.exists_removeSlot h.ordered hom hs.isEnd hlies
  have hq := (wellOrdered_removeSlot h.ordered hom hs.isEnd hok).1
  have hr := Slot.removed_of_removeSlot h.ordered.consistent hlies hok
  exact .of_ok hok ⟨_, h.step hs hr hbelow hp.consistent ho hq⟩

lemma Trimmed.simplifyLoop (h : Trimmed p slots f m) (ho : o ∈ p.allOps)
    (hslots : slots o = []) (houtside : ∀ x, slots x ≠ [] → p.Outside x o) :
    Succeeds (simplifyLoop o) m fun _ q ↦
    ∃ f', Trimmed p (Function.update slots o (removable p o)) f' q := by
  obtain ⟨node, hnode⟩ := isSome_iff_exists.mp (hp.consistent.isSome_of_mem_allOps ho)
  have hkinds := h.kinds o
  rw [hnode, map_some] at hkinds
  obtain ⟨node', hnode', hkind'⟩ := map_eq_some_iff.mp hkinds
  refine .read_bind (op_eq_ok.mpr hnode') ?_
  rw [hkind', removable, hnode]
  dsimp only
  by_cases hkind : node.kind = "WhileRegion"
  · rw [if_neg (not_not.mpr hkind), if_pos hkind]
    refine .get_bind ?_
    rw [h.passthroughSlots_eq hp hnode hnode' (isEnd_of_kind hnode hkind) hslots houtside]
    refine .bind (.forM (R := fun rest q ↦ ∃ gone f', passthroughSlots p node = gone ++ rest ∧
      Trimmed p (Function.update slots o gone) f' q) (fun index rest q hq ↦ ?_) ⟨[], f, rfl, ?_⟩) ?_
    · obtain ⟨gone, f', hsplit, hq⟩ := hq
      have hpairwise := pairwise_passthroughSlots p node
      rw [hsplit, pairwise_append] at hpairwise
      refine (hq.exists_step hp ho hnode hkind (by simp [hsplit]) fun j hj ↦ ?_).imp
        fun _ k ⟨f'', hk⟩ ↦ ?_
      · rw [Function.update_self] at hj
        exact hpairwise.2.2 j hj index mem_cons_self
      · rw [Function.update_self, Function.update_idem] at hk
        exact ⟨gone ++ [index], f'', by simp [hsplit], hk⟩
    · rwa [← hslots, Function.update_eq_self]
    · rintro _ q ⟨gone, f', hsplit, hq⟩
      rw [append_nil] at hsplit
      exact .of_ok rfl ⟨f', hsplit ▸ hq⟩
  · rw [if_pos hkind, if_neg hkind, ← hslots, Function.update_eq_self]
    exact .of_ok rfl ⟨f, h⟩

lemma succeeds_run (hroots : p.roots.Nodup) :
    Succeeds run p fun _ q ↦ ∃ slots f, (∀ o ∈ p.allOps, slots o = removable p o) ∧
    Trimmed p slots f q := by
  have hnodup := nodup_allOps hp.consistent hroots
  have houtside := pairwise_allOps hp.consistent hroots
  refine (Succeeds.anyChange (R := fun rest m ↦ ∃ front slots f, p.allOps = front ++ rest ∧
    (∀ o ∈ front, slots o = removable p o) ∧ (∀ o ∉ front, slots o = []) ∧ Trimmed p slots f m)
    (fun o rest m hm ↦ ?_) ⟨[], fun _ ↦ [], id, rfl, by simp, by simp, .refl hp⟩).imp
    fun _ q hq ↦ ?_
  · obtain ⟨front, slots, f, hsplit, hdone, hrest, hm⟩ := hm
    rw [hsplit, nodup_append'] at hnodup
    rw [hsplit, pairwise_append] at houtside
    have hfront : o ∉ front := fun hmem ↦ hnodup.2.2 hmem mem_cons_self
    refine (hm.simplifyLoop hp (by simp [hsplit]) (hrest o hfront) fun x hx ↦ ?_).imp
      fun _ q ⟨f', hq⟩ ↦ ⟨front ++ [o], _, f', by simp [hsplit], fun x hx ↦ ?_, fun x hx ↦ ?_, hq⟩
    · by_contra hnot
      exact hx (hrest x fun hmem ↦ hnot (houtside.2.2 x hmem o mem_cons_self))
    · by_cases heq : x = o
      · rw [heq, Function.update_self]
      · rw [Function.update_of_ne heq]
        exact hdone x ((mem_append.mp hx).resolve_right (by simpa using heq))
    · simp only [mem_append, mem_singleton, not_or] at hx
      rw [Function.update_of_ne hx.2]
      exact hrest x hx.1
  · obtain ⟨front, slots, f, hsplit, hdone, -, hq⟩ := hq
    rw [append_nil] at hsplit
    exact ⟨slots, f, hsplit ▸ hdone, hq⟩

end Run

lemma Trimmed.result_eq (hp : WellOrdered p) {slots : OpId → List Nat} (h : Trimmed p slots f q)
    (ho : o ∈ p.allOps) (hslots : slots o = removable p o) (hnode : p.op? o = some node)
    (hv : node.results[i]? = some v) (hgone : v ∉ q.resultsOf o) (hu : node.operands[i]? = some u)
    {α : Type} {I : Interpretation α} {depth : Nat} {env next : Env α}
    (hrun : p.evalOp I depth (p.outputsOf I depth) node env = some next) : next v = env u := by
  have hi : i ∈ removable p o := by
    rw [h.results, hslots, resultsOf_eq hnode] at hgone
    by_contra hnot
    exact hgone (mem_survivors hv hnot)
  rw [removable, hnode] at hi
  dsimp only at hi
  split_ifs at hi with hkind
  · obtain ⟨s, hs, rfl, rfl⟩ := exists_passthrough hp.consistent hnode hkind hi
    cases (resultsOf_eq hnode ▸ hs.lies.result).symm.trans hv
    cases (operandsOf_eq hnode ▸ hs.lies.init).symm.trans hu
    exact hs.result_eq hp ho hnode hrun
  · cases hi

/-- On an ordered program the pass succeeds. The five lists of every loop lose the places whose
values the body hands on, and nothing else. The graph and the functions compute what they computed,
and a result that has gone had the value of its operand before the loop. -/
theorem runs_and_evaluates_alike (registry : Registry) {p : Program} (hp : Reachable p)
    (h : Ordered p) : ∃ changed q, (pass.run registry).exec p = (.ok changed, q) ∧
      (∃ f : ValueId → ValueId, (∀ v, q.Defines v → f v = v) ∧
        ∀ o ∈ p.allOps, ∀ node, p.op? o = some node → node.kind = "WhileRegion" →
        ∀ cond body last, IsLoop p o cond body last → IsLoop q o cond body last ∧
        Aligned (passthroughSlots p node) f p q o cond body last) ∧
      ∀ (α : Type) (I : Interpretation α),
      (∀ r ∈ p.roots, ∀ args env outputs, p.Evaluates I r args env outputs →
        ∃ env', q.Evaluates I r args env' outputs ∧ ∀ v, q.Defines v → env' v = env v) ∧
      (∀ r ∈ p.roots, ∀ args env' outputs, q.Evaluates I r args env' outputs →
        ∃ env, p.Evaluates I r args env outputs ∧ ∀ v, q.Defines v → env' v = env v) ∧
      ∀ o ∈ p.allOps, ∀ node, p.op? o = some node → ∀ (i : Nat) (v u : ValueId),
      node.results[i]? = some v → v ∉ q.resultsOf o → node.operands[i]? = some u →
      ∀ depth env next, p.evalOp I depth (p.outputsOf I depth) node env = some next →
      next v = env u := by
  have hordered := h.wellOrdered hp.consistent
  obtain ⟨changed, q, hok, slots, f, hslots, hq⟩ := succeeds_run hordered hp.nodup_roots
  refine ⟨changed, q, hok, ⟨f, hq.fixes, fun o ho node hnode hkind cond body last hloop ↦ ?_⟩,
    fun α I ↦ ⟨fun r hr args env outputs ↦ hq.meaning.evaluates I hr,
    fun r hr args env outputs ↦ hq.meaning.evaluates_of I hr,
    fun o ho node hnode i v u hv hgone hu depth env next ↦
    hq.result_eq hordered ho (hslots o ho) hnode hv hgone hu⟩⟩
  have haligned := hq.aligned o cond body last (isEnd_of_kind hnode hkind) hloop
  have hremovable : slots o = passthroughSlots p node := by
    rw [hslots o ho, removable, hnode]
    exact if_pos hkind
  rw [hremovable] at haligned
  exact ⟨haligned.isLoop hq.tree hloop, haligned⟩

/-- Two nested loops. Each carries a value around, and a third one goes around the outer loop by way
of the inner one. -/
def nestedLoops : Program :=
  .built [
    .node 0 "source" [] 2, .node 0 "WhileRegion" [0, 1, 0] 3, .addRegion ⟨1⟩ .repeated,
    .addRegion ⟨1⟩ .repeated, .addArg ⟨1⟩ .unknown, .addArg ⟨1⟩ .unknown, .addArg ⟨1⟩ .unknown,
    .node 1 "isPositive" [6] 1, .node 1 yieldKind [8], .addArg ⟨2⟩ .unknown, .addArg ⟨2⟩ .unknown,
    .addArg ⟨2⟩ .unknown, .node 2 "WhileRegion" [11, 10] 2, .addRegion ⟨4⟩ .repeated,
    .addRegion ⟨4⟩ .repeated, .addArg ⟨3⟩ .unknown, .addArg ⟨3⟩ .unknown,
    .node 3 "isPositive" [15] 1, .node 3 yieldKind [16], .addArg ⟨4⟩ .unknown, .addArg ⟨4⟩ .unknown,
    .node 4 "decrement" [18] 1, .node 4 yieldKind [17, 19], .node 2 yieldKind [9, 13, 12],
    .node 0 returnKind [2, 3, 4]]

/-- Each loop loses its first slot. The last slot of the outer loop stays, though its body hands the
value on when the inner loop has lost its slot. -/
theorem evaluates_nestedLoops :
    let registry : Registry := NameMap.empty
    let q := ((pass.run registry).exec nestedLoops).2
    Reachable nestedLoops ∧ Ordered nestedLoops ∧
      (pass.run registry).exec nestedLoops = (.ok true, q) ∧ q.resultsOf ⟨1⟩ = [⟨3⟩, ⟨4⟩] ∧
      q.operandsOf ⟨9⟩ = [⟨13⟩, ⟨11⟩] ∧ q.operandsOf ⟨4⟩ = [⟨10⟩] ∧
      q.operandsOf ⟨10⟩ = [⟨0⟩, ⟨3⟩, ⟨4⟩] ∧ ∃ env, q.Evaluates .integers ⟨0⟩ [] env [1, 0, 1] := by
  intro registry q
  have hp : Reachable nestedLoops := reachable_built _
  have hordered : Ordered nestedLoops := ordered_of_isScoped hp.consistent (by decide +kernel)
    (by decide +kernel)
  have hok : (pass.run registry).exec nestedLoops = (.ok true, q) := exec_eq_ok (by decide +kernel)
  have heval : (nestedLoops.evalRegion .integers 6 ⟨0⟩ .empty []).map (·.2) = some [1, 0, 1] := by
    decide +kernel
  have hroot : ⟨0⟩ ∈ nestedLoops.roots := by decide +kernel
  obtain ⟨⟨env, outputs⟩, hrun, rfl⟩ := map_eq_some_iff.mp heval
  obtain ⟨changed, q', hok', -, hsame⟩ := runs_and_evaluates_alike registry hp hordered
  obtain rfl : q = q' := (Prod.mk.inj (hok.symm.trans hok')).2
  obtain ⟨env', heval', -⟩ := (hsame Int .integers).1 ⟨0⟩ hroot [] env _ ⟨6, hrun⟩
  exact ⟨hp, hordered,
    hok, by decide +kernel, by decide +kernel, by decide +kernel, by decide +kernel, env', heval'⟩

end LoopSlots

end TensorGraph
