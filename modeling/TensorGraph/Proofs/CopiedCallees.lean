import TensorGraph.Proofs.Provenance

/-!
Copies of function bodies succeed. All that a copy refers to is there: what it takes from the table
is, and so is what it takes over as it is.
-/

namespace TensorGraph

open Relation Program List Option

variable {p s : Program} {a o w new old : OpId} {t : RegionId} {node : Operation}

namespace RegionForm

open Edit

lemma alike_of_copiedBy {m₁ m : CopyMap} {copy : Operation} (h : node.CopiedBy m₁ m copy)
    (hscheme : (scheme? copy).isSome) : Alike node copy := by
  refine ⟨h.kind, ?_, by rw [h.operands, length_map], by rw [h.results, length_map]⟩
  cases hform : copy.form with
  | functional refs => exact (h.form refs hform).symm
  | plain => simp [scheme?, hform] at hscheme
  | nested regions => simp [scheme?, hform] at hscheme

def Beneath (p s : Program) (name : String) (w : OpId) : Prop :=
  ∀ func ∈ p.funcs, ∀ a, AncestorIn s func.body w a → TransGen (Names p) func.name name

lemma Beneath.staysPut {q : Program} {name : String} (h : Beneath p s name w)
    (hstays : StaysPut s q) (hs : s.Consistent) (hw : (s.op? w).isSome) : Beneath p q name w :=
  fun func hfunc a hanc ↦ h func hfunc a ((hstays.ancestorIn_iff hs hw).mp hanc)

section Copy

variable {q : Program} {func : Func} {seed m : CopyMap} {image : Visit → Visit}

section Places

variable (h : CopyProgress s func.body t seed image (s.contents func.body) m q)
  (hc : s.Copyable func.body t)

include h hc

lemma parentOf?_copy (ho : .op old ∈ s.contents func.body) : q.parentOf? (m.op old) = some t ∨
    ∃ r x, .op x ∈ s.contents func.body ∧ q.parentOf? (m.op old) = some r ∧
    q.parentOp? r = some (m.op x) := by
  have hholder : ∀ {a}, a ∈ s.contents func.body → ∃ c, s.holder? a = some c ∧
      c ∈ .region func.body :: s.contents func.body ∧ q.holder? (image a) = some (image c) := by
    intro a ha
    obtain ⟨c, hheld, -⟩ := TransGen.head'_iff.mp (liesIn_of_mem_tour hc.consistent ha)
    exact ⟨c, hheld, h.holder_image hc ha hheld⟩
  obtain ⟨c, hheld, hmem, hcopy⟩ := hholder ho
  obtain ⟨r, -, rfl⟩ := map_eq_some_iff.mp hheld
  rw [h.image_op ho] at hcopy
  rcases mem_cons.mp hmem with heq | hmem
  · rw [heq, h.target] at hcopy
    exact .inl (by simpa [holder?] using hcopy)
  · obtain ⟨d, hheld', hmem', hcopy'⟩ := hholder hmem
    obtain ⟨x, -, rfl⟩ := map_eq_some_iff.mp hheld'
    obtain ⟨r', himage⟩ := image_region h hmem
    have hx := (mem_cons.mp hmem').resolve_left (by simp)
    rw [himage] at hcopy hcopy'
    rw [h.image_op hx] at hcopy'
    exact .inr ⟨r', x, hx, by simpa [holder?] using hcopy, by simpa [holder?] using hcopy'⟩

lemma exists_ancestorIn_of_copy (ht : q.parentOp? t = some w)
    {root : RegionId} (hroot : root ∈ q.roots) (ho : .op old ∈ s.contents func.body)
    (hanc : AncestorIn q root (m.op old) a) : ∃ a, AncestorIn q root w a := by
  have hnone := h.consistent.parentOp?_of_root hroot
  generalize hnew : m.op old = new at hanc
  induction hanc generalizing old with
  | here hparent =>
    rw [← hnew] at hparent
    rcases parentOf?_copy h hc ho with hplace | ⟨r, x, -, hplace, howner⟩
    · cases hplace.symm.trans hparent
      cases hnone.symm.trans ht
    · cases hplace.symm.trans hparent
      cases hnone.symm.trans howner
  | up hparent howner habove ih =>
    rw [← hnew] at hparent
    rcases parentOf?_copy h hc ho with hplace | ⟨r, x, hx, hplace, howner'⟩
    · cases hplace.symm.trans hparent
      cases ht.symm.trans howner
      exact ⟨_, habove⟩
    · cases hplace.symm.trans hparent
      exact ih hx (some.inj (howner'.symm.trans howner))

end Places

lemma Derived.copied (hfunc : func ∈ p.funcs) (hs : Derived p s) (hc : s.Copyable func.body t)
    (h : CopyProgress s func.body t seed image (s.contents func.body) m q) (ht : t ∈ s.regionsOf w)
    (hbeneath : Beneath p s func.name w) : Derived p q := by
  have hroot : func.body ∈ s.roots := hs.roots ▸ mem_roots_of_mem_funcs hfunc
  obtain ⟨hstays, ht'⟩ := StaysPut.of_filled h.grows hs.consistent h.consistent ht
  have hopened := And.intro (hs.consistent.mem_regionsOf.mp ht) (h.consistent.mem_regionsOf.mp ht')
  refine hs.grows h.consistent h.grows (by simp) (fun r hr ↦ ⟨w, mem_singleton.mp hr ▸ hopened⟩) ?_
  intro new copy hold hcopy
  obtain ⟨old, ho, rfl⟩ : ∃ old, .op old ∈ s.contents func.body ∧ m.op old = new := by
    rcases h.only (.op new) (isSome_of_eq_some hcopy) with hnew | ⟨c, hmem, heq⟩
    · simp [Has, hold] at hnew
    · cases c with
      | op old => exact ⟨old, hmem, Visit.op.inj ((h.image_op hmem).symm.trans heq.symm)⟩
      | region r =>
        obtain ⟨r', himage⟩ := image_region h hmem
        cases heq.trans himage
  obtain ⟨a, hanc⟩ := (mem_walk hs.consistent ⟨0, .root hroot⟩).mp (op_mem_tour.mp ho)
  have hmem := hanc.mem_allOps hs.consistent hroot
  obtain ⟨front, back, hsplit⟩ := append_of_mem ho
  obtain ⟨node, _, m₁, hnode, hcopy', hknows, hcopied⟩ := h.exists_copy hsplit
  cases hcopy.symm.trans hcopy'
  refine ⟨fun d hd ↦ ?_, fun hscheme ↦ ⟨old, hmem, node, hnode, alike_of_copiedBy hcopied hscheme⟩,
    fun func' hfunc' a' hanc' name hname ↦ ?_⟩
  · rw [hcopied.control, mem_eraseDups] at hd
    obtain ⟨x, hx, rfl⟩ := mem_map.mp hd
    by_cases hfront : .op x ∈ front
    · have hin : .op x ∈ s.contents func.body := hsplit ▸ mem_append_left _ hfront
      have hhas := h.has hc.target (mem_cons_of_mem _ hin)
      rwa [h.image_op hin, ← hknows.ops x hfront] at hhas
    · rw [hknows.otherOps x hfront]
      exact h.has_of_has (a := .op x) (hs.control old hmem x (controlOf_eq hnode ▸ hx))
  · have hroot' : func'.body ∈ q.roots :=
      h.grows.roots.trans hs.roots ▸ mem_roots_of_mem_funcs hfunc'
    obtain ⟨b, hw⟩ := exists_ancestorIn_of_copy h hc hopened.2 hroot' ho hanc'
    have hleads :=
      (hbeneath.staysPut hstays hs.consistent (isSome_of_mem_regionsOf ht)) func' hfunc' b hw
    have hcallees := (alike_of_copiedBy hcopied (exists_scheme_of_mem_calleesOf hname)).calleesOf_eq
    exact hleads.trans (hs.callees func hfunc old a node hanc hnode name (hcallees ▸ hname))

/-- The body of a function can be copied into an operation that does not lie in it, if all around
leads to the function. The copy ends as the body does. -/
theorem succeeds_copyBody (hfunc : func ∈ p.funcs) (hs : Derived p s) (ht : t ∈ s.regionsOf w)
    (hbeneath : Beneath p s func.name w) (hout : ∀ a, ¬ AncestorIn s func.body w a)
    {inputs : List ValueId} (hinputs : ∀ v ∈ inputs, v.index < s.values.length) :
    Succeeds (copyRegion func.body t ((s.argsOf func.body).zip inputs)) s fun _ q ↦ Derived p q ∧
    Grows [] [t] s q ∧ ∀ o, (s.opsIn func.body).getLast? = some o → ∃ o',
    (q.opsIn t).getLast? = some o' ∧ q.isEnd o' = s.isEnd o := by
  have hroot : func.body ∈ s.roots := hs.roots ▸ mem_roots_of_mem_funcs hfunc
  have hmem : ∀ {o}, .op o ∈ s.contents func.body ↔ ∃ a, AncestorIn s func.body o a :=
    op_mem_tour.trans (mem_walk hs.consistent ⟨0, .root hroot⟩)
  have hc : s.Copyable func.body t := .of_root hs.consistent hroot ht fun hin ↦
    (hmem.mp hin).elim hout
  have hfits : Fits s (.ofValues ((s.argsOf func.body).zip inputs)) (s.contents func.body) := by
    refine ⟨fun v hv ↦ ?_, fun o ho d hd ↦ ?_⟩
    · rcases CopyMap.value_ofValues ((s.argsOf func.body).zip inputs) v with heq |
        ⟨entry, hentry, heq⟩
      · rwa [heq]
      · exact heq ▸ hinputs _ (of_mem_zip hentry).2
    · obtain ⟨a, hanc⟩ := hmem.mp ho
      exact hs.control o (hanc.mem_allOps hs.consistent hroot) d hd
  refine (Succeeds.of_leads (hc.leads _) fun _ herror ↦ herror hfits).imp ?_
  rintro _ q ⟨m, image, -, h⟩
  refine ⟨hs.copied hfunc hc h ht hbeneath, h.grows, fun o ho ↦ ⟨m.op o, ?_, ?_⟩⟩
  · rw [h.opsIn_image hc mem_cons_self h.target, getLast?_append, getLast?_map, ho]
    rfl
  · have hin : .op o ∈ s.contents func.body :=
      hmem.mpr ⟨o, .here (hs.consistent.mem_opsIn.mp (mem_of_getLast? ho))⟩
    obtain ⟨front, back, hsplit⟩ := append_of_mem hin
    obtain ⟨node, node', m₁, hnode, hnode', -, hcopied⟩ := h.exists_copy hsplit
    rw [isEnd, isEnd, hnode, hnode']
    simp only [any_some, Operation.isTerminator, hcopied.kind]

end Copy

/-! ### Regions that are filled -/

structure Opened (p : Program) (w : OpId) (r : RegionId) (q : Program) : Prop where
  derived : Derived p q
  region : r ∈ q.regionsOf w

lemma keeps_addArg_opened (p : Program) (w : OpId) (r : RegionId) (type : TensorType) :
    Keeps (Opened p w r) (addArg r type) := by
  intro q hq
  refine does_addArg.leaves hq ?_
  rintro _ _ hok ⟨-, -, rfl⟩
  have hconsistent := (makes_addArg r type).keeps.of_ok hq.derived.consistent hok
  have hregion : r ∈ (q.withArg r type).regionsOf w := hq.region
  refine ⟨hq.derived.grows_of_old hconsistent (.withArg q r type)
    (by simp) ?_ fun _ ho ↦ ho, hregion⟩
  intro r' hr'
  rw [mem_singleton.mp hr']
  exact ⟨w, hq.derived.consistent.mem_regionsOf.mp hq.region, hconsistent.mem_regionsOf.mp hregion⟩

lemma keeps_carryValues_opened (p : Program) (w : OpId) (r : RegionId) (values : List ValueId) :
    Keeps (Opened p w r) (carryValues r values) :=
  .mapM (fun _ ↦ .bind (.read _) fun _ ↦ keeps_addArg_opened p w r _) values

lemma Derived.withRegion (h : Derived p s) (ho : s.op? o = some node) (execution : Execution) :
    Opened p o s.nextRegion (s.withRegion o execution) := by
  have ho' := op?_withRegion ho execution
  have hconsistent : (s.withRegion o execution).Consistent := by
    have hsome := isSome_of_eq_some ho
    exact ⟨(h.consistent.uses.pushRegion _ _).modifyOp o fun _ ↦
      rfl, h.consistent.placed.withRegion hsome execution⟩
  refine ⟨h.grows_of_old hconsistent (.withRegion s o execution) ?_ (by simp) fun x hx ↦ ?_, ?_⟩
  · intro x hx node' hnode'
    obtain rfl := mem_singleton.mp hx
    cases ho.symm.trans hnode'
    exact ⟨_, ho', rfl, rfl, rfl, scheme?_eq_none (by simp)⟩
  · rw [Program.withRegion, op?_modifyOp]
    split_ifs
    · exact map_eq_none_iff.mpr hx
    · exact hx
  · rw [regionsOf_eq ho']
    simp [Operation.regions]

end RegionForm

end TensorGraph
