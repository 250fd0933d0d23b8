import TensorGraph.Proofs.Copies
import TensorGraph.Proofs.Destruction
import TensorGraph.Proofs.NameMaps
import TensorGraph.Proofs.Successes
import TensorGraph.Proofs.Visits

/-!
Deep copies of regions. A copy goes through all that lies in a region in the order of a tour, and
each step adds one thing inside of the copy of what holds it.
-/

namespace TensorGraph

open List Option

variable {p q q' : Program} {o : OpId} {r : RegionId} {old new : List ValueId} {v : ValueId}
  {execution : Execution} {region : Region} {node : Operation} {a : Visit} {rest : List Visit}

/-! ### Tables -/

namespace CopyMap

section

variable (m : CopyMap)

lemma value_insertValue (old new v : ValueId) :
    (m.insertValue old new).value v = if v = old then new else m.value v := by
  unfold insertValue value
  rw [lookup_cons_eq_ite, lookup_filter_ne]
  split_ifs <;> rfl

lemma value_insertValues_of_not_mem (new : List ValueId) (hv : v ∉ old) :
    (m.insertValues old new).value v = m.value v := by
  unfold insertValues
  induction old generalizing m new with
  | nil => rfl
  | cons first old ih =>
    cases new with
    | nil => rfl
    | cons name new =>
      rw [mem_cons, not_or] at hv
      rw [zip_cons_cons, foldl_cons, ih _ _ hv.2, value_insertValue, if_neg hv.1]

lemma map_value_insertValues (hnodup : old.Nodup)
    (hlength : new.length = old.length) : old.map (m.insertValues old new).value = new := by
  induction old generalizing m new with
  | nil => exact (length_eq_zero_iff.mp hlength).symm
  | cons first old ih =>
    cases new with
    | nil => cases hlength
    | cons name new =>
      rw [nodup_cons] at hnodup
      have hstep : m.insertValues (first :: old) (name :: new) =
          (m.insertValue first name).insertValues old new := rfl
      rw [map_cons, hstep, ih _ hnodup.2 (Nat.succ.inj hlength),
        value_insertValues_of_not_mem _ _ hnodup.1, value_insertValue, if_pos rfl]

lemma op_insertOp (old new o : OpId) :
    (m.insertOp old new).op o = if o = old then new else m.op o := by
  unfold insertOp op
  rw [lookup_cons_eq_ite, lookup_filter_ne]
  split_ifs <;> rfl

lemma op_insertValues (old new : List ValueId) (o : OpId) :
    (m.insertValues old new).op o = m.op o := by
  unfold insertValues
  induction old.zip new generalizing m with
  | nil => rfl
  | cons entry rest ih => exact ih (m.insertValue entry.1 entry.2)

end

lemma ofValues_zip (old new : List ValueId) : ofValues (old.zip new) =
    ({} : CopyMap).insertValues old new := by
  have hfold : ∀ (entries done : List (ValueId × ValueId)),
      ({ values := entries.foldl (fun done entry ↦ entry :: done.filter (·.1 ≠ entry.1)) done } :
        CopyMap) = entries.foldl (fun m entry ↦ m.insertValue entry.1 entry.2)
        { values := done } := by
    intro entries
    induction entries with
    | nil => exact fun _ ↦ rfl
    | cons entry rest ih => exact fun done ↦ ih _
  exact hfold _ _

lemma value_ofValues (entries : List (ValueId × ValueId)) (v : ValueId) :
    (ofValues entries).value v = v ∨ ∃ entry ∈ entries, (ofValues entries).value v = entry.2 := by
  have hmem : ∀ (entries done : List (ValueId × ValueId)), ∀ entry ∈ entries.foldl (fun done entry ↦
      entry :: done.filter (·.1 ≠ entry.1)) done, entry ∈ done ∨ entry ∈ entries := by
    intro entries
    induction entries with
    | nil => exact fun _ _ h ↦ .inl h
    | cons first rest ih =>
      intro done entry h
      rcases ih _ _ h with h | h
      · rcases mem_cons.mp h with rfl | h
        · exact .inr mem_cons_self
        · exact .inl (mem_of_mem_filter h)
      · exact .inr (mem_cons_of_mem _ h)
  unfold value
  cases hlookup : (ofValues entries).values.lookup v with
  | none => exact .inl rfl
  | some new =>
    have hentry := (hmem entries [] _ (mem_of_lookup_eq_some hlookup)).resolve_left not_mem_nil
    exact .inr ⟨_, hentry, rfl⟩

end CopyMap

/-! ### The steps of a copy -/

namespace Program

lemma region?_withArg (hr : p.region? r = some region) (type : TensorType) :
    (p.withArg r type).region? r = some { region with args := region.args ++ [p.nextValue] } := by
  have hpushed : (p.pushValue type (.argument r (p.argsOf r).length)).region? r = some region := hr
  rw [withArg, region?_modifyRegion, if_pos rfl, hpushed]
  rfl

lemma argsOf_withArg (hr : (p.region? r).isSome) (type : TensorType) :
    (p.withArg r type).argsOf r = p.argsOf r ++ [p.nextValue] := by
  obtain ⟨region, hregion⟩ := isSome_iff_exists.mp hr
  rw [argsOf_eq (region?_withArg hregion type), argsOf_eq hregion]

lemma op?_withRegion (ho : p.op? o = some node) (execution : Execution) :
    (p.withRegion o execution).op? o =
      some { node with form := .nested (node.regions ++ [p.nextRegion]) } := by
  have hpushed : (p.pushRegion (.op o) execution).op? o = some node := ho
  rw [withRegion, op?_modifyOp, if_pos rfl, hpushed]
  rfl

lemma has_of_modifyRegion {f : Region → Region} (h : (p.modifyRegion r f).Has a) : p.Has a := by
  cases a with
  | op x => exact h
  | region x =>
    rw [Has, region?_modifyRegion] at h
    split_ifs at h
    · exact isSome_map.symm.trans h
    · exact h

lemma has_of_withRegion (a : Visit) (h : (p.withRegion o execution).Has a) : p.Has a ∨
    a = .region p.nextRegion := by
  cases a with
  | op x =>
    rw [Has, withRegion, op?_modifyOp] at h
    split_ifs at h
    · exact .inl (isSome_map.symm.trans h)
    · exact .inl h
  | region x =>
    change ((p.pushRegion (.op o) execution).region? x).isSome at h
    rw [region?_pushRegion] at h
    split_ifs at h with heq
    · exact .inr (congrArg _ heq)
    · exact .inl h

lemma region?_withRegion (p : Program) (o : OpId) (execution : Execution) :
    (p.withRegion o execution).region? p.nextRegion =
      some { ops := [], args := [], owner := .op o, execution } := by
  change (p.pushRegion (.op o) execution).region? p.nextRegion = _
  rw [region?_pushRegion, if_pos rfl]

end Program

lemma Operation.funcRefs_of_regions (h : node.regions ≠ []) : node.funcRefs = [] := by
  unfold regions at h
  unfold funcRefs
  cases hform : node.form with
  | plain => rfl
  | functional refs => simp [hform] at h
  | nested regions => rfl

namespace Edit

open Program RegionForm

lemma carryValues_ok {values : List ValueId} (hr : p.region? r = some region)
    (hok : (carryValues r values).exec p = (.ok new, q)) :
    Grows [] [r] p q ∧ q.region? r = some { region with args := region.args ++ new } ∧ (∀ a,
      q.Has a → p.Has a) ∧ new.length = values.length ∧ ∀ v ∈ new, p.values.length ≤ v.index := by
  unfold carryValues at hok
  induction values generalizing p region new with
  | nil =>
    obtain ⟨hnew, rfl⟩ := Prod.mk.inj hok
    rw [← Except.ok.inj hnew]
    exact ⟨(Grows.refl p).weaken (Subset.refl _) (nil_subset _), by simpa using hr,
      fun _ ha ↦ ha, rfl, by simp⟩
  | cons v rest ih =>
    rw [mapM_cons, exec_bind_ok] at hok
    obtain ⟨first, m, hfirst, hok⟩ := hok
    obtain ⟨others, m', hrest, hdone⟩ := exec_bind_ok.mp hok
    obtain ⟨hnew, rfl⟩ := Prod.mk.inj hdone
    rw [bind_read_ok] at hfirst
    obtain ⟨type, -, hfirst⟩ := hfirst
    obtain ⟨-, rfl, rfl⟩ := does_addArg.of_ok hfirst
    obtain ⟨hgrows, hregion, hhas, hlength, hlate⟩ := ih (region?_withArg hr type) hrest
    rw [← Except.ok.inj hnew]
    refine ⟨(Grows.withArg p r type).trans hgrows (by simp) (fun _ h ↦ .inl h), ?_,
      fun a ha ↦ ?_, ?_, ?_⟩
    · rw [hregion, append_assoc, singleton_append]
    · exact has_of_modifyRegion (hhas a ha)
    · rw [length_cons, length_cons, hlength]
    · rw [forall_mem_cons]
      exact ⟨Nat.le_refl _, fun u hu ↦ Nat.le_trans (Grows.withArg p r type).values (hlate u hu)⟩

lemma copyArgs_eq (source target : RegionId) (m : CopyMap) : copyArgs source target m = read
    (·.region source) >>= fun region : Region ↦ carryValues target region.args >>= fun new ↦
    pure (m.insertValues region.args new) := by
  have hfold : ∀ (args : List ValueId) (m : CopyMap), args.foldlM (fun m arg ↦ do
      let type ← read (·.valueType arg)
      return m.insertValue arg (← addArg target type)) m =
        carryValues target args >>= fun new ↦ pure (m.insertValues args new) := by
    intro args
    induction args with
    | nil => exact fun m ↦ (pure_bind _ _).symm
    | cons arg args ih =>
      intro m
      simp only [foldlM_cons, carryValues, mapM_cons, LawfulMonad.bind_assoc, pure_bind, ih]
      rfl
  exact congrArg _ (funext fun region : Region ↦ hfold region.args m)

/-! ### Copies of operations -/

def copyNested (depth : Nat) (new : OpId) (m : CopyMap) (nested : RegionId) : Edit CopyMap := do
  let inner ← read (·.region nested)
  let r ← addRegion new inner.execution
  let m ← copyArgs nested r m
  copyToDepth depth nested r m

def copyOp (depth : Nat) (target : RegionId) (m : CopyMap) (old : OpId) : Edit CopyMap := do
  let node ← read (·.op old)
  let types ← node.results.mapM fun v ↦ read (·.valueType v)
  let new ← appendOp target (copyOf m node types)
  let copy ← read (·.op new)
  node.regions.foldlM (copyNested depth new)
    ((m.insertOp old new).insertValues node.results copy.results)

lemma copyToDepth_succ (depth : Nat) (source target : RegionId) (m : CopyMap) :
    copyToDepth (depth + 1) source target m = read (·.region source) >>= fun region : Region ↦
    region.ops.foldlM (copyOp depth target) m := rfl

end Edit

/-! ### One more thing -/

def Visit.ops : Visit → List OpId
  | .op o => [o]
  | .region _ => []

def Visit.regions : Visit → List RegionId
  | .op _ => []
  | .region r => [r]

def Operation.alone (node : Operation) : Operation :=
  { node with form := match node.form with
    | .functional refs => .functional refs
    | _ => .plain }

namespace Program

/-- What the program has on record of an operation or a region, apart from what lies inside. -/
def entry (p : Program) : Visit → Option (Operation ⊕ Region)
  | .op o => (p.op? o).map fun node ↦ .inl node.alone
  | .region r => (p.region? r).map fun region ↦ .inr { region with ops := [] }

variable {b c t : Visit}

lemma isSome_entry : (p.entry a).isSome ↔ p.Has a := by
  cases a <;> simp [entry, Has]

lemma inside_eq_nil (h : ¬ p.Has a) : p.inside a = [] := by
  cases a with
  | op o => simp [inside, regionsOf, not_isSome_iff_eq_none.mp h]
  | region r => simp [inside, opsIn, not_isSome_iff_eq_none.mp h]

structure Adds (t b : Visit) (p q : Program) : Prop where
  consistent : q.Consistent
  grows : Grows t.ops t.regions p q
  fresh : ¬ p.Has b
  entry : q.entry t = p.entry t
  inside : q.inside t = p.inside t ++ [b]
  empty : q.inside b = []
  only : ∀ c, q.Has c → p.Has c ∨ c = b
  types : ∀ v, v.index < p.values.length → q.typeOf? v = p.typeOf? v

namespace Adds

variable (h : Adds t b p q)

include h

lemma eq_of_ne (hc : p.Has c) (hne : c ≠ t) : q.entry c = p.entry c ∧ q.inside c = p.inside c := by
  cases c with
  | op x =>
    have hsame := h.grows.op?_eq hc fun hmem ↦ hne (by cases t <;> simp_all [Visit.ops])
    exact ⟨congrArg (Option.map _) hsame, congrArg _ (regionsOf_congr hsame)⟩
  | region x =>
    have hsame := h.grows.region?_eq hc fun hmem ↦ hne (by cases t <;> simp_all [Visit.regions])
    exact ⟨congrArg (Option.map _) hsame, congrArg _ (opsIn_congr hsame)⟩

lemma entry_eq (hc : p.Has c) : q.entry c = p.entry c := by
  by_cases hne : c = t
  · rw [hne, h.entry]
  · exact (h.eq_of_ne hc hne).1

lemma grows_of {start : Program} {dst : RegionId} (hg : Grows [] [dst] start p)
    (ht : t = .region dst ∨ ¬ start.Has t) : Grows [] [dst] start q := by
  refine hg.trans h.grows (fun x hx ↦ ?_) fun x hx ↦ ?_
  · cases t with
    | op o =>
      obtain rfl := mem_singleton.mp hx
      exact .inr (not_isSome_iff_eq_none.mp (ht.resolve_left (by simp)))
    | region r => cases hx
  · cases t with
    | op o => cases hx
    | region r =>
      obtain rfl := mem_singleton.mp hx
      refine ht.imp (fun heq ↦ ?_) not_isSome_iff_eq_none.mp
      exact mem_singleton.mpr (Visit.region.inj heq)

end Adds

lemma Adds.withOp (hp : p.Consistent) (hr : p.Has (.region r)) (new : NewOp)
    (hq : (p.withOp r (p.opsIn r).length new).Consistent) :
    Adds (.region r) (.op p.nextOp) p (p.withOp r (p.opsIn r).length new) where
  consistent := hq
  grows := .withOp hp _ _ _
  fresh := by simp [Has, hp.uses.free.op?_nextOp]
  entry := by
    rw [Program.entry, Program.entry, region?_withOp, region?_modifyRegion,
      if_pos rfl, Option.map_map]
    rfl
  inside := by
    rw [Program.inside, Program.inside, opsIn_withOp _ hr, if_pos rfl,
      insertIdx_length_self, map_append]
    rfl
  empty := by
    rw [Program.inside, regionsOf, hp.uses.free.op?_withOp, if_pos rfl]
    simp [regions_nodeOf]
  only c hc := by
    cases c with
    | op x =>
      rw [Has, hp.uses.free.op?_withOp] at hc
      split_ifs at hc with heq
      · exact .inr (congrArg _ heq)
      · exact .inl hc
    | region x =>
      rw [Has, region?_withOp] at hc
      exact .inl (has_of_modifyRegion (a := .region x) hc)
  types v hv := by rw [typeOf?_withOp, if_pos hv]

end Program

/-! ### What has been copied -/

structure CopyMap.Knows (m₁ : CopyMap) (p : Program) (seed : CopyMap) (met : List Visit)
    (m : CopyMap) : Prop where
  values : ∀ a ∈ met, ∀ v ∈ p.defines a, m₁.value v = m.value v
  otherValues : ∀ v, (∀ a ∈ met, v ∉ p.defines a) → m₁.value v = seed.value v
  ops : ∀ o, .op o ∈ met → m₁.op o = m.op o
  otherOps : ∀ o, .op o ∉ met → m₁.op o = o

namespace Program

variable {b c t : Visit} {seed m m' : CopyMap} {met front back : List Visit} {image : Visit → Visit}

def Replica (p : Program) (seed : CopyMap) (front : List Visit) (m : CopyMap) (q : Program) :
    Visit → Visit → Prop
  | .op o, b =>
    b = .op (m.op o) ∧ ∃ node parent, ∃ m₁ : CopyMap, p.op? o = some node ∧
      m₁.Knows p seed front m ∧ q.entry b = some (.inl { node with
        operands := node.operands.map m₁.value
        results := node.results.map m.value
        control := (node.control.map m₁.op).eraseDups
        form := if node.funcRefs.isEmpty then .plain else .functional node.funcRefs
        parent })
  | .region r, b => ∃ region owner, p.region? r = some region ∧
      q.entry b = some
      (.inr { ops := [], args := region.args.map m.value, owner, execution := region.execution })

section

variable (h : Replica p seed front m q a b)

include h

lemma Replica.has : q.Has b := by
  cases a with
  | op o =>
    obtain ⟨-, node, parent, m₁, -, -, hentry⟩ := h
    exact isSome_entry.mp (isSome_of_eq_some hentry)
  | region r =>
    obtain ⟨region, owner, -, hentry⟩ := h
    exact isSome_entry.mp (isSome_of_eq_some hentry)

lemma Replica.defines : q.defines b = (p.defines a).map m.value := by
  cases a with
  | op o =>
    obtain ⟨rfl, node, parent, m₁, hnode, -, hentry⟩ := h
    obtain ⟨node', hnode', heq⟩ := map_eq_some_iff.mp hentry
    have hresults := congrArg Operation.results (Sum.inl.inj heq)
    rw [defines_op hnode, defines_op hnode']
    exact hresults
  | region r =>
    obtain ⟨region, owner, hregion, hentry⟩ := h
    cases b with
    | op o =>
      obtain ⟨node', -, heq⟩ := map_eq_some_iff.mp hentry
      cases heq
    | region r' =>
      obtain ⟨region', hregion', heq⟩ := map_eq_some_iff.mp hentry
      have hargs := congrArg Region.args (Sum.inr.inj heq)
      rw [defines_region hregion, defines_region hregion']
      exact hargs

lemma Replica.step (hentry : q'.entry b = q.entry b)
    (hvalues : ∀ c ∈ a :: front, ∀ v ∈ p.defines c, m'.value v = m.value v)
    (hops : ∀ o, .op o ∈ a :: front → m'.op o = m.op o) : Replica p seed front m' q' a b := by
  cases a with
  | op o =>
    obtain ⟨rfl, node, parent, m₁, hnode, hknows, hold⟩ := h
    refine ⟨congrArg _ (hops o mem_cons_self).symm, node, parent, m₁, hnode, ⟨fun c hc v hv ↦ ?_,
      hknows.otherValues, fun d hd ↦ ?_, hknows.otherOps⟩, ?_⟩
    · rw [hknows.values c hc v hv, hvalues c (mem_cons_of_mem _ hc) v hv]
    · rw [hknows.ops d hd, hops d (mem_cons_of_mem _ hd)]
    · have hresults : node.results.map m'.value = node.results.map m.value :=
        map_congr_left fun v hv ↦ hvalues _ mem_cons_self v (defines_op hnode ▸ hv)
      rw [hentry, hold, hresults]
  | region r =>
    obtain ⟨region, owner, hregion, hold⟩ := h
    have hargs : region.args.map m'.value = region.args.map m.value :=
      map_congr_left fun v hv ↦ hvalues _ mem_cons_self v (defines_region hregion ▸ hv)
    exact ⟨region, owner, hregion, by rw [hentry, hold, hargs]⟩

end

/-- What a copy of all that lies in `src` to the end of `dst` has made of the things met so far. -/
structure CopyProgress (p : Program) (src dst : RegionId) (seed : CopyMap) (image : Visit → Visit)
    (met : List Visit) (m : CopyMap) (q : Program) : Prop where
  consistent : q.Consistent
  grows : Grows [] [dst] p q
  target : image (.region src) = .region dst
  entry : q.entry (.region dst) = p.entry (.region dst)
  fresh : ∀ a ∈ met, ¬ p.Has (image a)
  distinct : (met.map image).Nodup
  only : ∀ a, q.Has a → p.Has a ∨ ∃ c ∈ met, a = image c
  holders : ∀ a ∈ met, ∀ c, p.holder? a = some c → c ∈ .region src :: met
  inside : ∀ a ∈ .region src :: met,
    q.inside (image a) = p.inside (image a) ++ (met.filter (p.holder? · = some a)).map image
  replicas : ∀ front a back, met = front ++ a :: back → Replica p seed front m q a (image a)
  table : m.Knows p seed met m
  late : ∀ a ∈ met, ∀ v ∈ p.defines a, p.values.length ≤ (m.value v).index
  newTypes : ∀ a ∈ met, ∀ v ∈ p.defines a, q.typeOf? (m.value v) = p.typeOf? v
  types : ∀ v, v.index < p.values.length → q.typeOf? v = p.typeOf? v

namespace CopyProgress

variable {src dst : RegionId} (h : CopyProgress p src dst seed image met m q)
  (hdst : p.Has (.region dst))

include h

lemma replica (ha : a ∈ met) : ∃ front, Replica p seed front m q a (image a) := by
  obtain ⟨front, back, hsplit⟩ := append_of_mem ha
  exact ⟨front, h.replicas front a back hsplit⟩

lemma defines (ha : a ∈ met) : q.defines (image a) = (p.defines a).map m.value := by
  obtain ⟨front, hreplica⟩ := h.replica ha
  exact hreplica.defines

lemma image_op (ho : .op o ∈ met) : image (.op o) = .op (m.op o) := by
  obtain ⟨front, hreplica⟩ := h.replica ho
  exact hreplica.1

lemma knows (hp : p.Consistent) (hnew : a ∉ met)
    (hvalues : ∀ v ∉ p.defines a, m'.value v = m.value v) (hops : ∀ o, .op o ≠ a → m'.op o = m.op o)
    : m.Knows p seed met m' where
  values _ hc v hv := (hvalues v fun hmem ↦ hnew (hp.eq_of_mem_defines hmem hv ▸ hc)).symm
  otherValues := h.table.otherValues
  ops o ho := (hops o (ne_of_mem_of_not_mem ho hnew)).symm
  otherOps := h.table.otherOps

include hdst

lemma has (ha : a ∈ .region src :: met) : q.Has (image a) := by
  rcases mem_cons.mp ha with rfl | ha
  · rw [h.target, ← isSome_entry, h.entry, isSome_entry]
    exact hdst
  · obtain ⟨front, hreplica⟩ := h.replica ha
    exact hreplica.has

omit h hdst in
lemma has_of_has (h : CopyProgress p src dst seed image met m q) (ha : p.Has a) : q.Has a := by
  by_cases hdst : a = .region dst
  · rw [hdst, ← isSome_entry, h.entry, isSome_entry, ← hdst]
    exact ha
  · cases a with
    | op o =>
      change (q.op? o).isSome
      rw [h.grows.op?_eq ha not_mem_nil]
      exact ha
    | region r =>
      change (q.region? r).isSome
      rw [h.grows.region?_eq ha fun hmem ↦ hdst (congrArg _ (mem_singleton.mp hmem))]
      exact ha

lemma injective (ha : a ∈ .region src :: met) (hb : b ∈ .region src :: met)
    (heq : image a = image b) : a = b := by
  have hnew : ∀ c ∈ met, image c ≠ .region dst := fun c hc hsame ↦ h.fresh c hc (hsame ▸ hdst)
  rcases mem_cons.mp ha with rfl | ha <;> rcases mem_cons.mp hb with rfl | hb
  · rfl
  · exact absurd (heq.symm.trans h.target) (hnew b hb)
  · exact absurd (heq.trans h.target) (hnew a ha)
  · exact inj_on_of_nodup_map h.distinct ha hb heq

section Step

variable (hadds : Adds (image t) b q q') (ht : t ∈ .region src :: met) (ha : p.holder? a = some t)
  (hnew : a ∉ .region src :: met)

omit h hdst in
include hnew in
lemma update_image {c : Visit} (hc : c ∈ .region src :: met) :
    Function.update image a b c = image c :=
  Function.update_of_ne (ne_of_mem_of_not_mem hc hnew) _ _

include hadds hnew in
lemma distinct_step : ((met ++ [a]).map (Function.update image a b)).Nodup := by
  have hmet : met.map (Function.update image a b) = met.map image :=
    map_congr_left fun c hc ↦ update_image hnew (mem_cons_of_mem _ hc)
  rw [map_append, hmet, map_singleton, Function.update_self, nodup_append']
  refine ⟨h.distinct, nodup_singleton _, disjoint_singleton.mpr fun hmem ↦ ?_⟩
  obtain ⟨c, hc, rfl⟩ := mem_map.mp hmem
  exact hadds.fresh (h.has hdst (mem_cons_of_mem _ hc))

include hadds ht ha hnew in
/-- A region or an operation holds the copies of what its original held as far as it has been
met. -/
theorem inside_step {c : Visit} (hc : c ∈ .region src :: (met ++ [a])) :
    q'.inside (Function.update image a b c) = p.inside (Function.update image a b c) ++
      ((met ++ [a]).filter (p.holder? · = some c)).map (Function.update image a b) := by
  have hfresh : ¬ p.Has b := fun hb ↦ hadds.fresh (h.has_of_has hb)
  by_cases hca : c = a
  · -- Nothing that has been met is held by what is new.
    have hnone : (met ++ [a]).filter (p.holder? · = some a) = [] := by
      refine filter_eq_nil_iff.mpr fun x hx heq ↦ ?_
      rw [decide_eq_true_eq] at heq
      rcases mem_append.mp hx with hx | hx
      · exact hnew (h.holders x hx a heq)
      · obtain rfl := mem_singleton.mp hx
        exact hnew (some.inj (ha.symm.trans heq) ▸ ht)
    rw [hca, Function.update_self, hadds.empty, inside_eq_nil hfresh, hnone]
    rfl
  · have hc : c ∈ .region src :: met := by simpa [hca] using hc
    have hold : (met.filter (p.holder? · = some c)).map (Function.update image a b) =
        (met.filter (p.holder? · = some c)).map image :=
      map_congr_left fun x hx ↦ update_image hnew (mem_cons_of_mem _ (mem_of_mem_filter hx))
    rw [update_image hnew hc, filter_append, map_append, hold]
    by_cases hct : c = t
    · rw [hct, hadds.inside, h.inside t ht, filter_cons_of_pos (by simpa using ha), filter_nil,
        map_singleton, Function.update_self, append_assoc]
    · have hne : image c ≠ image t := fun heq ↦ hct (h.injective hdst hc ht heq)
      have hno : p.holder? a ≠ some c := fun heq ↦ hct (some.inj (heq.symm.trans ha))
      rw [(hadds.eq_of_ne (h.has hdst hc) hne).2, h.inside c hc,
        filter_cons_of_neg (by simpa using hno), filter_nil, map_nil, append_nil]

include hadds hnew in
lemma replicas_step (hknows : m.Knows p seed met m') (hreplica : Replica p seed met m' q' a b)
    {front back : List Visit} {c : Visit} (hsplit : met ++ [a] = front ++ c :: back) :
    Replica p seed front m' q' c (Function.update image a b c) := by
  rcases back.eq_nil_or_concat with rfl | ⟨rest, last, rfl⟩
  · obtain ⟨rfl, hlast⟩ := append_inj' hsplit rfl
    obtain rfl := (List.cons.inj hlast).1
    rw [Function.update_self]
    exact hreplica
  · rw [concat_eq_append, ← cons_append, ← append_assoc] at hsplit
    obtain ⟨hsplit, -⟩ := append_inj' hsplit rfl
    have hsub : ∀ d ∈ c :: front, d ∈ met := by
      rw [hsplit]
      simp +contextual [or_imp]
    have hc : c ∈ .region src :: met := mem_cons_of_mem _ (hsub c mem_cons_self)
    rw [update_image hnew hc]
    exact (h.replicas front c rest hsplit).step (hadds.entry_eq (h.has hdst hc))
      (fun d hd v hv ↦ (hknows.values d (hsub d hd) v hv).symm)
      fun o ho ↦ (hknows.ops o (hsub _ ho)).symm

include hadds ht ha hnew in
/-- One more region or operation has been copied. -/
theorem step (hp : p.Consistent) (hvalues : ∀ v ∉ p.defines a, m'.value v = m.value v)
    (hops : ∀ o, .op o ≠ a → m'.op o = m.op o) (hreplica : Replica p seed met m' q' a b)
    (hlate : ∀ v ∈ q'.defines b, p.values.length ≤ v.index)
    (htypes : (q'.defines b).map q'.typeOf? = (p.defines a).map p.typeOf?) :
    CopyProgress p src dst seed (Function.update image a b) (met ++ [a]) m' q' := by
  have hself : Function.update image a b a = b := Function.update_self ..
  have hmet : ∀ c ∈ met, Function.update image a b c = image c := fun c hc ↦
    update_image hnew (mem_cons_of_mem _ hc)
  have hknows := h.knows hp (fun hmem ↦ hnew (mem_cons_of_mem _ hmem)) hvalues hops
  rw [hreplica.defines] at hlate htypes
  refine ⟨hadds.consistent, hadds.grows_of h.grows ?_, ?_, ?_, ?_, h.distinct_step hdst hadds hnew,
    ?_, ?_, fun c hc ↦ h.inside_step hdst hadds ht ha hnew hc,
    fun front c back hsplit ↦ h.replicas_step hdst hadds hnew hknows hreplica hsplit,
    ⟨fun _ _ _ _ ↦ rfl, ?_, fun _ _ ↦ rfl, ?_⟩, ?_, ?_, ?_⟩
  · rcases mem_cons.mp ht with rfl | ht
    · exact .inl h.target
    · exact .inr (h.fresh t ht)
  · rw [update_image hnew mem_cons_self, h.target]
  · rw [hadds.entry_eq (h.target ▸ h.has hdst mem_cons_self), h.entry]
  · rw [forall_mem_append, forall_mem_singleton, hself]
    exact ⟨fun c hc ↦ hmet c hc ▸ h.fresh c hc, fun hb ↦ hadds.fresh (h.has_of_has hb)⟩
  · intro c hc
    rcases hadds.only c hc with hc | rfl
    · refine (h.only c hc).imp_right ?_
      rintro ⟨d, hd, rfl⟩
      exact ⟨d, mem_append_left _ hd, (hmet d hd).symm⟩
    · exact .inr ⟨a, mem_append_right _ (mem_singleton_self a), hself.symm⟩
  · rw [forall_mem_append, forall_mem_singleton]
    refine ⟨fun c hc d hd ↦ ?_, fun c hc ↦ ?_⟩
    · exact mem_append_left [a] (h.holders c hc d hd)
    · exact mem_append_left [a] (some.inj (ha.symm.trans hc) ▸ ht)
  · intro v hv
    rw [forall_mem_append, forall_mem_singleton] at hv
    rw [hvalues v hv.2, h.table.otherValues v hv.1]
  · intro o ho
    rw [mem_append, mem_singleton, not_or] at ho
    rw [hops o ho.2, h.table.otherOps o ho.1]
  · rw [forall_mem_append, forall_mem_singleton]
    refine ⟨fun c hc v hv ↦ ?_, fun v hv ↦ hlate _ (mem_map_of_mem hv)⟩
    exact hknows.values c hc v hv ▸ h.late c hc v hv
  · rw [forall_mem_append, forall_mem_singleton]
    refine ⟨fun c hc v hv ↦ ?_, fun v hv ↦ ?_⟩
    · have hlt := h.consistent.lt_of_mem_defines (a := image c) (h.defines hc ▸ mem_map_of_mem hv)
      rw [← hknows.values c hc v hv, hadds.types _ hlt, h.newTypes c hc v hv]
    · rw [List.map_map] at htypes
      exact map_inj_left.mp htypes v hv
  · intro v hv
    rw [hadds.types v (Nat.lt_of_lt_of_le hv h.grows.values), h.types v hv]

end Step

end CopyProgress

lemma typeOf?_results_withOp (p : Program) (r : RegionId) (index : Nat) (new : NewOp) :
    (p.nodeOf r new).results.map (p.withOp r index new).typeOf? = new.resultTypes.map some := by
  refine ext_getElem? fun i ↦ ?_
  simp only [nodeOf, List.map_map, getElem?_map, Function.comp_def, typeOf?_withOp]
  by_cases hi : i < new.resultTypes.length
  · simp [getElem?_range hi, getElem?_eq_getElem hi]
  · simp [getElem?_eq_none (Nat.le_of_not_lt hi), getElem?_eq_none (l := List.range _)
      (i := i) (by simpa using hi)]

end Program

/-! ### Runs of a copy -/

namespace Edit

open Program RegionForm

/-- All that a copy takes over as it is is there. -/
structure Fits (p : Program) (seed : CopyMap) (all : List Visit) : Prop where
  values : ∀ v, v.index < p.values.length → (seed.value v).index < p.values.length
  control : ∀ o, .op o ∈ all → ∀ d ∈ p.controlOf o, (p.op? d).isSome

def Continues (p : Program) (src dst : RegionId) (seed : CopyMap) (image : Visit → Visit)
    (met todo : List Visit) (m : CopyMap) (q : Program) : Prop :=
  ∃ image', (∀ a ∈ .region src :: met, image' a = image a) ∧
    CopyProgress p src dst seed image' (met ++ todo) m q

section Run

variable {src dst source target : RegionId} {seed m : CopyMap} {all met : List Visit}
  {image : Visit → Visit} {depth : Nat}

lemma leads_foldlM {α : Type} {f : CopyMap → α → Edit CopyMap} {visits : α → List Visit}
    {t t' : Visit} {l : List α}
    (hstep : ∀ x ∈ l, ∀ {image met m q}, CopyProgress p src dst seed image met m q →
      t ∈ .region src :: met → image t = t' → met ++ visits x <+: all →
    Leads (f m x) q (Continues p src dst seed image met (visits x)) fun _ ↦ ¬ Fits p seed all)
    (h : CopyProgress p src dst seed image met m q) (ht : t ∈ .region src :: met)
    (himage : image t = t') (hall : met ++ l.flatMap visits <+: all) :
    Leads (l.foldlM f m) q (Continues p src dst seed image met (l.flatMap visits)) fun _ ↦
    ¬ Fits p seed all := by
  induction l generalizing image met m q with
  | nil => exact .pure ⟨image, fun _ _ ↦ rfl, by simpa using h⟩
  | cons x rest ih =>
    rw [flatMap_cons, ← append_assoc] at hall
    rw [foldlM_cons, flatMap_cons]
    refine (hstep x mem_cons_self h ht himage ((prefix_append _ _).trans hall)).bind ?_
    rintro m₁ q₁ ⟨image₁, hsame, h₁⟩
    have hmem : ∀ a ∈ .region src :: met, a ∈ .region src :: (met ++ visits x) := fun a ha ↦
      mem_append_left (visits x) ha
    refine (ih (fun y hy ↦ hstep y (mem_cons_of_mem _ hy)) h₁ (hmem t ht)
      ((hsame t ht).trans himage) hall).imp ?_ fun _ he ↦ he
    rintro m₂ q₂ ⟨image₂, hsame₂, h₂⟩
    refine ⟨image₂, fun a ha ↦ (hsame₂ a (hmem a ha)).trans (hsame a ha), ?_⟩
    rwa [← append_assoc]

lemma Continues.of_step {b : Visit} {todo : List Visit} (hnew : a ∉ .region src :: met)
    (h : Continues p src dst seed (Function.update image a b) (met ++ [a]) todo m q) :
    Continues p src dst seed image met (a :: todo) m q := by
  obtain ⟨image', hsame, hdone⟩ := h
  refine ⟨image', fun c hc ↦ ?_, ?_⟩
  · rw [hsame c (mem_append_left [a] hc), Function.update_of_ne (ne_of_mem_of_not_mem hc hnew)]
  · rwa [append_assoc] at hdone

variable (hp : p.Consistent) (hdst : p.Has (.region dst))
  (h : CopyProgress p src dst seed image met m q)

include hp hdst h

lemma copyProgress_addRegion (ho : .op o ∈ met) (hr : r ∈ p.regionsOf o)
    (hregion : p.region? r = some region) (hne : r ≠ dst) (hnew : .region r ∉ .region src :: met) :
    ∃ new m' q₁ q', (addRegion (m.op o) region.execution).exec q = (.ok new, q₁) ∧
      (copyArgs r new m).exec q₁ = (.ok m', q') ∧
      CopyProgress p src dst seed (Function.update image (.region r) (.region new))
      (met ++ [.region r]) m' q' := by
  obtain ⟨front, himage, node, parent, m₁, hnode, -, hentry⟩ := h.replica ho
  rw [himage] at hentry
  obtain ⟨node', hnode', heq⟩ := map_eq_some_iff.mp hentry
  -- The original has a region, so that it and its copy name no functions.
  have hrefs : ∀ refs, node'.form ≠ .functional refs := by
    intro refs hform
    have hplain := congrArg Operation.form (Sum.inl.inj heq)
    have hnone := Operation.funcRefs_of_regions (ne_nil_of_mem (regionsOf_eq hnode ▸ hr))
    simp [Operation.alone, hform, hnone] at hplain
  have hopen := addRegion_exec hnode' hrefs region.execution
  have hg₁ := Grows.withRegion q (m.op o) region.execution
  have hempty := region?_withRegion q (m.op o) region.execution
  have hop₁ := op?_withRegion hnode' region.execution
  have hq₁ := (makes_addRegion (m.op o) region.execution).keeps.of_ok h.consistent hopen
  have htypes₁ : ∀ v, (q.withRegion (m.op o) region.execution).typeOf? v = q.typeOf? v :=
    fun _ ↦ rfl
  have honly₁ := fun a (ha : (q.withRegion (m.op o) region.execution).Has a) ↦
    has_of_withRegion a ha
  have hfresh := region?_nextRegion q
  generalize q.withRegion (m.op o) region.execution = q₁ at hopen hg₁ hempty hop₁ hq₁ htypes₁ honly₁
  generalize q.nextRegion = new at hopen hempty hop₁ hfresh honly₁
  have hargs : ∀ v ∈ region.args, v.index < p.values.length :=
    fun v hv ↦ hp.lt_of_mem_argsOf (argsOf_eq hregion ▸ hv)
  have hle : p.values.length ≤ q₁.values.length := Nat.le_trans h.grows.values hg₁.values
  obtain ⟨args, q', hcarry, hkept, hsame⟩ := succeeds_carryValues (isSome_of_eq_some hempty)
    fun v hv ↦ Nat.lt_of_lt_of_le (hargs v hv) hle
  obtain ⟨hg₂, hfilled, honly₂, hlength, hlate⟩ := carryValues_ok hempty hcarry
  have hregion₁ : q₁.region? r = some region := by
    refine hg₁.region? r not_mem_nil region (h.grows.region? r ?_ region hregion)
    simpa using hne
  have hcopy : (copyArgs r new m).exec q₁ = (.ok (m.insertValues region.args args), q') := by
    rw [copyArgs_eq, bind_readRegion hregion₁, exec_bind_of_ok hcarry]
    rfl
  have hq' := (Keeps.copyArgs (fun r type ↦ (makes_addArg r type).keeps) r new m).of_ok hq₁ hcopy
  have hop := hg₂.op? _ not_mem_nil _ hop₁
  have hnodup := hp.nodup_argsOf r
  rw [argsOf_eq hregion] at hnodup
  have hnames := CopyMap.map_value_insertValues m hnodup hlength
  have hadds : Adds (.op (m.op o)) (.region new) q q' := by
    refine ⟨hq', hg₁.trans hg₂ (by simp) fun x hx ↦
      .inr (mem_singleton.mp hx ▸ hfresh), by simp [Has, hfresh], ?_, ?_, ?_, fun c hc ↦
      honly₁ c (honly₂ c hc), fun v hv ↦
      (hkept v (Nat.lt_of_lt_of_le hv hg₁.values)).trans (htypes₁ v)⟩
    · rw [entry, entry, hop, hnode']
      cases hform : node'.form with
      | functional refs => exact absurd hform (hrefs refs)
      | plain => simp [Operation.alone, hform]
      | nested regions => simp [Operation.alone, hform]
    · rw [inside, inside, regionsOf_eq hop, regionsOf_eq hnode']
      simp [Operation.regions]
    · rw [inside, opsIn_eq hfilled]
      rfl
  refine ⟨new, _, q₁, q', hopen, hcopy, h.step hdst (himage ▸ hadds) (mem_cons_of_mem _ ho)
    ((mem_inside hp).mp (mem_map_of_mem hr)) hnew hp (fun v hv ↦ ?_)
    (fun x _ ↦ CopyMap.op_insertValues m _ args x) ⟨region, .op (m.op o), hregion, ?_⟩ ?_ ?_⟩
  · exact CopyMap.value_insertValues_of_not_mem _ _ (defines_region hregion ▸ hv)
  · rw [entry, hfilled, hnames]
    rfl
  · rw [defines_region hfilled]
    exact fun v hv ↦ Nat.le_trans hle (hlate v hv)
  · rw [defines_region hfilled, defines_region hregion]
    refine hsame.trans (map_congr_left fun v hv ↦ ?_)
    rw [htypes₁, h.types v (hargs v hv)]

lemma leads_appendOp (hr : q.Has (.region r)) (hnode : p.op? o = some node) (ho : .op o ∈ all)
    (types : List TensorType) : Leads (appendOp r (copyOf m node types)) q
      (fun new q' ↦ new = q.nextOp ∧ q' = q.withOp r (q.opsIn r).length (copyOf m node types) ∧
      q'.Consistent) fun _ ↦ ¬ Fits p seed all := by
  unfold Leads
  rcases hrun : (appendOp r (copyOf m node types)).exec q with ⟨err | new, q'⟩
  · intro hfits
    have hdone := appendOp_exec (copyOf m node types) hr (forall_mem_map.mpr fun v hv ↦ ?_)
      (forall_mem_map.mpr fun d hd ↦ ?_)
    · cases hrun.symm.trans hdone
    · by_cases hmet : ∃ a ∈ met, v ∈ p.defines a
      · obtain ⟨a, ha, hdef⟩ := hmet
        exact h.consistent.lt_of_mem_defines (a := image a) (h.defines ha ▸ mem_map_of_mem hdef)
      · rw [h.table.otherValues v fun a ha hdef ↦ hmet ⟨a, ha, hdef⟩]
        refine Nat.lt_of_lt_of_le (hfits.values v ?_) h.grows.values
        exact hp.lt_of_mem_operandsOf (operandsOf_eq hnode ▸ hv)
    · by_cases hmet : .op d ∈ met
      · have hcopy := h.has hdst (mem_cons_of_mem _ hmet)
        rwa [h.image_op hmet] at hcopy
      · rw [h.table.otherOps d hmet]
        exact h.has_of_has (a := .op d) (hfits.control o ho d (controlOf_eq hnode ▸ hd))
  · obtain ⟨-, -, -, rfl, rfl⟩ := does_appendOp.of_ok hrun
    exact ⟨rfl, rfl, (makes_appendOp r (copyOf m node types)).keeps.of_ok h.consistent hrun⟩

lemma copyProgress_withOp (hnode : p.op? o = some node) (ht : .region source ∈ .region src :: met)
    (himage : image (.region source) = .region target)
    (ho : p.holder? (.op o) = some (.region source)) (hnew : .op o ∉ .region src :: met)
    {types : List TensorType} (htypes : types = node.results.map q.typeAt)
    (hq' : (q.withOp target (q.opsIn target).length (copyOf m node types)).Consistent) :
    CopyProgress p src dst seed (Function.update image (.op o) (.op q.nextOp)) (met ++ [.op o])
    ((m.insertOp o q.nextOp).insertValues node.results
    (q.nodeOf target (copyOf m node types)).results)
    (q.withOp target (q.opsIn target).length (copyOf m node types)) := by
  have hadds := Adds.withOp h.consistent (himage ▸ h.has hdst ht) (copyOf m node types) hq'
  have hmade := h.consistent.uses.free.op?_withOp target (q.opsIn target).length
    (copyOf m node types) q.nextOp
  have hsame := typeOf?_results_withOp q target (q.opsIn target).length (copyOf m node types)
  have hcount : (q.nodeOf target (copyOf m node types)).results.length = node.results.length := by
    simp [nodeOf, copyOf, htypes]
  have hlate : ∀ v ∈ (q.nodeOf target (copyOf m node types)).results,
      q.values.length ≤ v.index := by
    intro v hv
    obtain ⟨i, -, rfl⟩ := mem_map.mp hv
    exact Nat.le_add_right _ _
  have hbare : (q.nodeOf target (copyOf m node types)).alone = { node with
      operands := node.operands.map m.value
      results := (q.nodeOf target (copyOf m node types)).results
      control := (node.control.map m.op).eraseDups
      form := if node.funcRefs.isEmpty then .plain else .functional node.funcRefs
      parent := target } := by
    by_cases hrefs : node.funcRefs.isEmpty <;> simp [Operation.alone, nodeOf, copyOf, hrefs]
  rw [if_pos rfl] at hmade
  generalize q.withOp target (q.opsIn target).length (copyOf m node types) =
    q' at hadds hmade hsame hq' ⊢
  generalize q.nodeOf target (copyOf m node types) = copy at hmade hsame hcount hlate hbare ⊢
  have hnodup := hp.nodup_defines (.op o)
  rw [defines_op hnode] at hnodup
  have hnames := CopyMap.map_value_insertValues (m.insertOp o q.nextOp) hnodup hcount
  have hother : ∀ v ∉ p.defines (.op o),
      ((m.insertOp o q.nextOp).insertValues node.results copy.results).value v =
    m.value v := fun v hv ↦ CopyMap.value_insertValues_of_not_mem _ _ (defines_op hnode ▸ hv)
  have hops : ∀ d, ((m.insertOp o q.nextOp).insertValues node.results copy.results).op d =
      if d = o then q.nextOp else m.op d := fun d ↦ by
    rw [CopyMap.op_insertValues, CopyMap.op_insertOp]
  generalize (m.insertOp o q.nextOp).insertValues node.results copy.results =
    m' at hnames hother hops ⊢
  refine h.step hdst (himage ▸ hadds) ht ho hnew hp hother (fun d hd ↦ ?_) ⟨?_, node, target, m,
    hnode, h.knows hp (fun hmem ↦ hnew (mem_cons_of_mem _ hmem)) hother fun d hd ↦ ?_, ?_⟩ ?_ ?_
  · rw [hops, if_neg fun heq ↦ hd (congrArg _ heq)]
  · rw [hops, if_pos rfl]
  · rw [hops, if_neg fun heq ↦ hd (congrArg _ heq)]
  · rw [entry, hmade, map_some, hbare, hnames]
  · rw [defines_op hmade]
    exact fun v hv ↦ Nat.le_trans h.grows.values (hlate v hv)
  · rw [defines_op hmade, defines_op hnode, hsame, copyOf, htypes, List.map_map]
    refine map_congr_left fun v hv ↦ ?_
    have hlt := hp.lt_of_mem_results hnode hv
    rw [← h.types v hlt]
    exact (typeOf?_eq_typeAt (Nat.lt_of_lt_of_le hlt h.grows.values)).symm

variable (hnodup : (.region src :: all).Nodup) (hapart : .region dst ∉ all)

omit hp hdst h

include hnodup in
lemma not_mem_of_prefix (hall : met ++ a :: rest <+: all) : a ∉ .region src :: met := by
  obtain ⟨more, rfl⟩ := hall
  rw [append_assoc, cons_append, ← cons_append, nodup_append'] at hnodup
  exact fun hmem ↦ hnodup.2.2 hmem mem_cons_self

lemma mem_of_prefix (hall : met ++ a :: rest <+: all) : a ∈ all :=
  hall.subset (mem_append_right _ mem_cons_self)

def FollowsTour (p : Program) (src dst : RegionId) (seed : CopyMap) (all : List Visit)
    (depth : Nat) : Prop :=
  ∀ {source target : RegionId} {image : Visit → Visit} {met : List Visit} {m : CopyMap}
    {q : Program}, p.Has (.region source) → q.region? source = p.region? source →
    CopyProgress p src dst seed image met m q → .region source ∈ .region src :: met →
    image (.region source) = .region target → met ++ p.tour (2 * depth) (.region source) <+: all →
    Leads (copyToDepth depth source target m) q
      (Continues p src dst seed image met (p.tour (2 * depth) (.region source)))
      fun _ ↦ ¬ Fits p seed all

include hp hdst hnodup

include hapart in
lemma leads_copyNested {o' : OpId} (hdepth : FollowsTour p src dst seed all depth)
    (h : CopyProgress p src dst seed image met m q) (ho : .op o ∈ met)
    (himage : image (.op o) = .op o') (hr : r ∈ p.regionsOf o)
    (hall : met ++ .region r :: p.tour (2 * depth) (.region r) <+: all) :
    Leads (copyNested depth o' m r) q
    (Continues p src dst seed image met (.region r :: p.tour (2 * depth) (.region r))) fun _ ↦
    ¬ Fits p seed all := by
  have hne : r ≠ dst := fun heq ↦ hapart (heq ▸ mem_of_prefix hall)
  have hnew := not_mem_of_prefix hnodup hall
  have hregion := hp.isSome_region?_of_mem_regionsOf hr
  have hkept : ∀ {image met m q}, CopyProgress p src dst seed image met m q →
      q.region? r = p.region? r :=
    fun h ↦ h.grows.region?_eq hregion (by simpa using hne)
  obtain ⟨inner, hinner⟩ := isSome_iff_exists.mp hregion
  obtain ⟨new, m', q₁, q', hopen, hargs, hstep⟩ :=
    copyProgress_addRegion hp hdst h ho hr hinner hne hnew
  rw [Visit.op.inj ((h.image_op ho).symm.trans himage)] at hopen
  rw [← singleton_append, ← append_assoc] at hall
  unfold copyNested
  refine .bind_of_ok (by rw [exec_read, region_eq_ok.mpr ((hkept h).trans hinner)])
    (.bind_of_ok hopen (.bind_of_ok hargs ?_))
  refine (hdepth hregion (hkept hstep) hstep ?_ (Function.update_self ..) hall).imp
    (fun _ _ ↦ Continues.of_step hnew) fun _ he ↦ he
  exact mem_cons_of_mem _ (mem_append_right _ (mem_singleton_self _))

include hapart in
lemma leads_copyOp (hdepth : FollowsTour p src dst seed all depth)
    (h : CopyProgress p src dst seed image met m q) (ht : .region source ∈ .region src :: met)
    (himage : image (.region source) = .region target) (ho : o ∈ p.opsIn source)
    (hall : met ++ .op o :: p.tour (2 * depth + 1) (.op o) <+: all) :
    Leads (copyOp depth target m o) q
    (Continues p src dst seed image met (.op o :: p.tour (2 * depth + 1) (.op o))) fun _ ↦
    ¬ Fits p seed all := by
  have hheld : p.holder? (.op o) = some (.region source) := (mem_inside hp).mp (mem_map_of_mem ho)
  obtain ⟨node, hnode⟩ := isSome_iff_exists.mp (hp.has_of_mem_inside ((mem_inside hp).mpr hheld))
  have hnodeq := h.grows.op? o not_mem_nil node hnode
  have hnew := not_mem_of_prefix hnodup hall
  have hmem := mem_of_prefix hall
  have htour : p.tour (2 * depth + 1) (.op o) =
      node.regions.flatMap fun r ↦ .region r :: p.tour (2 * depth) (.region r) := by
    rw [tour, inside, regionsOf_eq hnode, flatMap_map]
  rw [htour, ← singleton_append, ← append_assoc] at hall
  rw [htour]
  unfold copyOp
  refine .bind_of_ok (by rw [exec_read, op_eq_ok.mpr hnodeq]) (.bind_of_ok
    (exec_mapM_read fun v hv ↦ valueType_eq_ok (h.consistent.lt_of_mem_results hnodeq hv)) ?_)
  refine (leads_appendOp hp hdst h (himage ▸ h.has hdst ht) hnode hmem _).bind ?_
  rintro _ _ ⟨rfl, rfl, hq'⟩
  have hstep := copyProgress_withOp hp hdst h hnode ht himage hheld hnew rfl hq'
  refine .bind_of_ok
    (by rw [exec_read, op_eq_ok.mpr ((h.consistent.uses.free.op?_withOp ..).trans (if_pos rfl))]) ?_
  refine (leads_foldlM (fun r hr image met m q h ht himage hall ↦ ?_) hstep ?_
    (Function.update_self ..) hall).imp (fun _ _ ↦ Continues.of_step hnew) fun _ he ↦ he
  · exact leads_copyNested hp hdst hnodup hapart hdepth h ((mem_cons.mp ht).resolve_left (by simp))
      himage (regionsOf_eq hnode ▸ hr) hall
  · exact mem_cons_of_mem _ (mem_append_right _ (mem_singleton_self _))

include hapart in
lemma followsTour (depth : Nat) : FollowsTour p src dst seed all depth := by
  induction depth with
  | zero =>
    exact fun {_ _ image _ _ _} _ _ h _ _ _ ↦ .pure ⟨image, fun _ _ ↦ rfl, by simpa [tour] using h⟩
  | succ depth ih =>
    intro source target image met m q hregion hsource h ht himage hall
    obtain ⟨region, hentry⟩ := isSome_iff_exists.mp hregion
    have htour : p.tour (2 * (depth + 1)) (.region source) =
        region.ops.flatMap fun o ↦ .op o :: p.tour (2 * depth + 1) (.op o) := by
      rw [Nat.mul_succ, tour, inside, opsIn_eq hentry, flatMap_map]
    rw [htour] at hall ⊢
    rw [copyToDepth_succ]
    refine .bind_of_ok (by rw [exec_read, region_eq_ok.mpr (hsource.trans hentry)]) ?_
    exact leads_foldlM (fun o ho image met m q h ht himage hall ↦
      leads_copyOp hp hdst hnodup hapart ih h ht himage (opsIn_eq hentry ▸ ho) hall)
      h ht himage hall

end Run

end Edit

namespace Program

structure Copyable (p : Program) (src dst : RegionId) : Prop where
  consistent : p.Consistent
  source : p.Has (.region src)
  target : p.Has (.region dst)
  acyclic : ¬ p.LiesIn (.region src) (.region src)
  apart : ¬ p.LiesIn (.region dst) (.region src)

section Copyable

variable {src dst : RegionId} (hc : p.Copyable src dst)

include hc

lemma Copyable.nodup : (.region src :: p.contents src).Nodup :=
  nodup_cons.mpr
    ⟨fun hmem ↦ hc.acyclic (liesIn_of_mem_tour hc.consistent hmem),
    nodup_tour hc.consistent hc.acyclic _⟩

lemma Copyable.not_mem_defines (hv : v ∈ p.argsOf src) {c : Visit} (hmem : c ∈ p.contents src) :
    v ∉ p.defines c := by
  intro hdef
  obtain rfl := hc.consistent.eq_of_mem_defines (a := .region src) hv hdef
  exact (nodup_cons.mp hc.nodup).1 hmem

/-- A copy goes as deep as there are regions, so that it copies everything. It fails only if
something that it refers to is not there. -/
theorem Copyable.leads (entries : List (ValueId × ValueId)) :
    Edit.Leads (Edit.copyRegion src dst entries) p (fun table q ↦ ∃ m image, m.values = table ∧
        CopyProgress p src dst (.ofValues entries) image (p.contents src) m q)
      fun _ ↦ ¬ Edit.Fits p (.ofValues entries) (p.contents src) := by
  have hstart : CopyProgress p src dst (.ofValues entries)
      (fun _ ↦ .region dst) [] (.ofValues entries) p :=
    ⟨hc.consistent, (Grows.refl p).weaken (Subset.refl _) (nil_subset _), rfl, rfl, by simp, .nil,
    fun _ ↦ .inl, by simp, by simp, by simp,
      ⟨by simp, fun _ _ ↦ rfl, by simp, fun _ _ ↦ rfl⟩, by simp, by simp,
    fun _ _ ↦ rfl⟩
  have hapart : .region dst ∉ p.contents src :=
    fun hmem ↦ hc.apart (liesIn_of_mem_tour hc.consistent hmem)
  unfold Edit.copyRegion
  refine .get_bind
    ((Edit.followsTour hc.consistent hc.target hc.nodup hapart _ hc.source rfl hstart mem_cons_self
    rfl prefix_rfl).bind ?_)
  rintro m q ⟨image, -, hdone⟩
  exact .pure ⟨m, image, rfl, hdone⟩

lemma Copyable.of_copyRegion {entries table : List (ValueId × ValueId)}
    (hok : (Edit.copyRegion src dst entries).exec p = (.ok table, q)) :
    ∃ m image, CopyProgress p src dst (.ofValues entries) image (p.contents src) m q := by
  have hleads := hc.leads entries
  rw [Edit.Leads, hok] at hleads
  obtain ⟨m, image, -, hdone⟩ := hleads
  exact ⟨m, image, hdone⟩

omit hc in
lemma Copyable.of_root (hp : p.Consistent) (hroot : src ∈ p.roots) (hr : dst ∈ p.regionsOf o)
    (hout : .op o ∉ p.contents src) : p.Copyable src dst := by
  have hself := not_liesIn_of_root hp hroot (a := .region src)
  have hsource : p.Has (.region src) := (AttachedAt.root hroot).isSome_region? hp
  refine ⟨hp, hsource, hp.isSome_region?_of_mem_regionsOf hr, hself, fun hin ↦ ?_⟩
  obtain ⟨a, hstep, hpath⟩ := Relation.TransGen.head'_iff.mp hin
  have howner : p.holder? (.region dst) = some (.op o) := (mem_inside hp).mp (mem_map_of_mem hr)
  cases hstep.symm.trans howner
  obtain heq | hin := Relation.reflTransGen_iff_eq_or_transGen.mp hpath
  · cases heq
  · exact hout ((mem_contents hp hself hsource).mpr hin)

end Copyable

end Program

end TensorGraph
