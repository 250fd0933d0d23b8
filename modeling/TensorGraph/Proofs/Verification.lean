import TensorGraph.Program.Verify
import TensorGraph.Proofs.Agreement
import TensorGraph.Proofs.Scoping

/-!
What verification amounts to. In a consistent program most of what `verify` checks holds anyway, and
in a scoped one the operands and control dependencies pass as well.
-/

namespace TensorGraph.Program

open List Option

variable {p : Program} {o : OpId} {r : RegionId} {v : ValueId} {node : Operation}

/-- Verified, and every attached operation refers only to what it may refer to. -/
structure Ordered (p : Program) : Prop extends Scoped p where
  verified : p.verify = .ok ()

/-- The operation is live and a terminator. -/
def isEnd (p : Program) (o : OpId) : Bool :=
  (p.op? o).any (·.isTerminator)

structure Terminated (p : Program) : Prop where
  signature : ∀ func ∈ p.funcs, func.argAttrs.length = (p.argsOf func.body).length ∧
    func.resultAttrs.length = func.resultTypes.length
  returns : ∀ func ∈ p.funcs, ∃ last, p.terminator? func.body = some last ∧
    (p.operandsOf last).length = func.resultTypes.length
  last : ∀ r, p.Attached r → ∀ o ∈ p.opsIn r, p.isEnd o = true → p.terminator? r = some o
  nested : ∀ r, p.Attached r → ∀ o ∈ p.opsIn r, ∀ inner ∈ p.regionsOf o,
    (p.terminator? inner).isSome

lemma terminator?_eq_some : p.terminator? r = some o ↔
    (p.opsIn r).getLast? = some o ∧ p.isEnd o = true := by
  unfold terminator? opsIn isEnd
  rcases p.region? r with _ | region
  · simp
  · rcases hlast : region.ops.getLast? with _ | last
    · simp [hlast]
    · rcases hop : p.op? last with _ | node
      · simp only [bind_eq_bind, bind_some, hlast, hop, bind_none,
          map_some, getD_some, some.injEq, reduceCtorEq, false_iff, not_and]
        rintro rfl
        simp [hop]
      · by_cases hend : node.isTerminator = true
        · simp only [bind_eq_bind, bind_some, hlast, hop, hend, if_true, map_some,
            getD_some, some.injEq]
          constructor
          · rintro rfl
            simp [hop, hend]
          · exact fun heq ↦ heq.1
        · simp only [bind_eq_bind, bind_some, hlast, hop, hend, if_false,
            map_some, getD_some, some.injEq, reduceCtorEq, false_iff, not_and]
          rintro rfl
          simp [hop, hend]

/-! ### Checks -/

section Checks

variable {α β : Type} {l : List α} {check f : α → Except Error β} {bs : List β}

lemma demand_eq_ok {holds : Bool} {cause : StructureError} : demand holds cause = .ok () ↔
    holds = true := by
  cases holds <;> simp [demand]

lemma check_bind_eq_ok {first : Except Error α} {next : α → Except Error β} {b : β} :
    (first >>= next) = .ok b ↔ ∃ a, first = .ok a ∧ next a = .ok b := by
  cases first <;> simp [bind, Except.bind]

lemma exists_unit {holds : Unit → Prop} : (∃ u, holds u) ↔ holds () :=
  ⟨fun ⟨_, hu⟩ ↦ hu, fun hu ↦ ⟨(), hu⟩⟩

lemma check_forM_eq_ok {check : α → Except Error Unit} :
    l.forM check = .ok () ↔ ∀ x ∈ l, check x = .ok () := by
  induction l with
  | nil => simp [List.forM, pure, Except.pure]
  | cons a rest ih =>
    rw [show (a :: rest).forM check = (check a >>= fun _ ↦ rest.forM check) from rfl,
      check_bind_eq_ok, exists_unit, ih, forall_mem_cons]

lemma check_mapM_eq_ok : l.mapM check = .ok bs ↔ List.Forall₂ (fun a b ↦ check a = .ok b) l bs := by
  induction l generalizing bs with
  | nil =>
    rw [forall₂_nil_left_iff, mapM_nil]
    exact ⟨fun hnil ↦ (Except.ok.inj hnil).symm, fun hnil ↦ by rw [hnil]; rfl⟩
  | cons a rest ih =>
    rw [mapM_cons, check_bind_eq_ok, forall₂_cons_left_iff]
    simp only [check_bind_eq_ok, ih]
    constructor
    · rintro ⟨b, hb, tail, htail, hbs⟩
      exact ⟨b, tail, hb, htail, (Except.ok.inj hbs).symm⟩
    · rintro ⟨b, tail, hb, htail, rfl⟩
      exact ⟨b, hb, tail, htail, rfl⟩

lemma exists_of_mem_mapM (h : l.mapM check = .ok bs) {b : β} (hb : b ∈ bs) :
    ∃ a ∈ l, check a = .ok b :=
  exists_of_mem_right (check_mapM_eq_ok.mp h) hb

lemma exists_ok_of_mem (h : l.mapM check = .ok bs) {a : α} (ha : a ∈ l) : ∃ b, check a = .ok b := by
  rw [check_mapM_eq_ok] at h
  induction h with
  | nil => cases ha
  | @cons _ b _ _ hhead _ ih =>
    rcases mem_cons.mp ha with rfl | ha
    · exact ⟨b, hhead⟩
    · exact ih ha

def FailsOnly (E : Error → Prop) (e : Except Error α) : Prop :=
  ∀ err, e = .error err → E err

namespace FailsOnly

variable {E : Error → Prop} {e : Except Error α}

lemma of_ok {a : α} (h : e = .ok a) : FailsOnly E e := by
  rintro err herr
  cases h.symm.trans herr

lemma bind (he : FailsOnly E e)
    (hf : ∀ a, e = .ok a → FailsOnly E (f a)) : FailsOnly E (e >>= f) := by
  cases e with
  | error err =>
    rintro err' herr
    obtain rfl := Except.error.inj herr
    exact he err rfl
  | ok a => exact hf a rfl

lemma mapM (hf : ∀ a ∈ l, FailsOnly E (f a)) : FailsOnly E (l.mapM f) := by
  induction l with
  | nil => exact of_ok rfl
  | cons a rest ih =>
    rw [mapM_cons]
    obtain ⟨hfirst, hrest⟩ := forall_mem_cons.mp hf
    exact bind hfirst fun _ _ ↦ bind (ih hrest) fun _ _ ↦ of_ok rfl

lemma forM {f : α → Except Error Unit} (hf : ∀ a ∈ l, FailsOnly E (f a)) :
    FailsOnly E (l.forM f) := by
  induction l with
  | nil => exact of_ok rfl
  | cons a rest ih =>
    obtain ⟨hfirst, hrest⟩ := forall_mem_cons.mp hf
    exact bind hfirst fun _ _ ↦ ih hrest

end FailsOnly

end Checks

/-! ### Functions -/

lemma verifyFunc_eq_ok {func : Func} : p.verifyFunc func = .ok () ↔
    (∃ body, p.region? func.body = some body ∧ func.argAttrs.length = body.args.length) ∧
      func.resultAttrs.length = func.resultTypes.length ∧
      ∃ last node, p.terminator? func.body = some last ∧ p.op? last = some node ∧
      node.operands.length = func.resultTypes.length := by
  unfold verifyFunc
  simp only [check_bind_eq_ok, exists_unit, region_eq_ok, demand_eq_ok,
    Bool.and_eq_true, beq_iff_eq]
  rcases hlast : p.terminator? func.body with _ | last
  · simp [throw, throwThe, MonadExceptOf.throw]
  · simp only [check_bind_eq_ok, op_eq_ok, demand_eq_ok, beq_iff_eq, some.injEq]
    constructor
    · rintro ⟨body, hbody, ⟨hargs, hresults⟩, node, hnode, hcount⟩
      exact ⟨⟨body, hbody, hargs⟩, hresults, last, node, rfl, hnode, hcount⟩
    · rintro ⟨⟨body, hbody, hargs⟩, hresults, _, node, rfl, hnode, hcount⟩
      exact ⟨body, hbody, ⟨hargs, hresults⟩, node, hnode, hcount⟩

lemma verifyFuncs_eq_ok {seen : List String} {l : List Func} (hseen : ∀ func ∈ l, func.name ∉ seen)
    (hnames : (l.map (·.name)).Nodup) : p.verifyFuncs seen l = .ok () ↔
    ∀ func ∈ l, p.verifyFunc func = .ok () := by
  induction l generalizing seen with
  | nil => simp [verifyFuncs]
  | cons func rest ih =>
    rw [map_cons, nodup_cons] at hnames
    have hrest : ∀ other ∈ rest, other.name ∉ func.name :: seen := by
      intro other hother hmem
      rcases mem_cons.mp hmem with heq | hmem
      · exact hnames.1 (heq ▸ mem_map_of_mem hother)
      · exact hseen other (mem_cons_of_mem _ hother) hmem
    have hnew : (!seen.contains func.name) = true := by
      simpa using hseen func mem_cons_self
    rw [verifyFuncs, check_bind_eq_ok, exists_unit, check_bind_eq_ok, exists_unit, demand_eq_ok,
      ih hrest hnames.2, forall_mem_cons]
    exact and_iff_right hnew

/-! ### Regions -/

lemma verifyNested_eq_ok : p.verifyNested o node r = .ok () ↔ p.ownerOf? r = some (.op o) ∧
    (p.terminator? r).isSome = true := by
  unfold verifyNested ownerOf?
  simp only [check_bind_eq_ok, exists_unit, region_eq_ok, demand_eq_ok, beq_iff_eq, map_eq_some_iff]
  constructor
  · rintro ⟨region, hregion, howner, hend⟩
    exact ⟨⟨region, hregion, howner⟩, hend⟩
  · rintro ⟨⟨region, hregion, howner⟩, hend⟩
    exact ⟨region, hregion, howner, hend⟩

def Produced (p : Program) (v : ValueId) : Prop :=
  ∃ value, p.value? v = some value ∧ p.isProduced value.origin = .ok true

lemma produced_iff : Produced p v ↔ (∃ d i, p.originOf? v = some (.result d i) ∧ (p.op? d).isSome) ∨
      ∃ r i owner, p.originOf? v = some (.argument r i) ∧ p.ownerOf? r = some owner ∧
      owner ≠ .detached := by
  unfold Produced
  constructor
  · rintro ⟨⟨type, origin, users⟩, hvalue, hproduced⟩
    rw [originOf?_eq hvalue]
    cases origin with
    | result d i => exact .inl ⟨d, i, rfl, by simpa [isProduced, isLive] using hproduced⟩
    | argument r i =>
      rcases hregion : p.region? r with _ | region
      · simp [isProduced, region, hregion, Except.map] at hproduced
      · refine .inr ⟨r, i, region.owner, rfl, by simp [ownerOf?, hregion], ?_⟩
        simpa [isProduced, Program.region, hregion, Except.map] using hproduced
  · rintro (⟨d, i, horigin, hlive⟩ | ⟨r, i, owner, horigin, howner, hne⟩)
    · obtain ⟨value, hvalue, horigin⟩ := map_eq_some_iff.mp horigin
      exact ⟨value, hvalue, by simpa [horigin, isProduced, isLive] using hlive⟩
    · obtain ⟨value, hvalue, horigin⟩ := map_eq_some_iff.mp horigin
      obtain ⟨region, hregion, rfl⟩ := map_eq_some_iff.mp howner
      refine ⟨value, hvalue, ?_⟩
      rw [horigin]
      simpa [isProduced, Program.region, hregion, Except.map] using hne

lemma verifyOp_eq_ok {isLast : Bool} : p.verifyOp r o isLast = .ok () ↔
    ∃ node, p.op? o = some node ∧ node.parent = r ∧ (node.isTerminator = true → isLast = true) ∧
      (∀ v ∈ node.operands, Produced p v) ∧ (∀ dep ∈ node.control, p.isLive dep = true) ∧
      ∀ inner ∈ node.regions, p.ownerOf? inner = some (.op o) ∧
      (p.terminator? inner).isSome = true := by
  have hproduced : ∀ (node : Operation) (v : ValueId), (do
      let value ← p.value v
      demand (← p.isProduced value.origin) (.erasedProducer node.label node.kind)) = .ok () ↔
        Produced p v := by
    intro node v
    unfold Produced
    simp only [check_bind_eq_ok, value_eq_ok, demand_eq_ok]
    constructor
    · rintro ⟨value, hvalue, _, hok, rfl⟩
      exact ⟨value, hvalue, hok⟩
    · rintro ⟨value, hvalue, hok⟩
      exact ⟨value, hvalue, true, hok, rfl⟩
  have hlast : ∀ node : Operation, (!node.isTerminator || isLast) = true ↔
      (node.isTerminator = true → isLast = true) := by
    intro node
    cases node.isTerminator <;> simp
  unfold verifyOp
  simp only [check_bind_eq_ok, exists_unit, op_eq_ok, demand_eq_ok, beq_iff_eq, check_forM_eq_ok,
    verifyNested_eq_ok, hlast]
  refine exists_congr fun node ↦ ?_
  simp only [← hproduced node, check_bind_eq_ok, demand_eq_ok]

lemma verifyRegion_eq_ok : p.verifyRegion r = .ok () ↔ ∃ region, p.region? r = some region ∧
    (∀ i v, region.args[i]? = some v → p.originOf? v = some (.argument r i)) ∧
      ∀ i o, region.ops[i]? = some o → p.verifyOp r o (i + 1 == region.ops.length) = .ok () := by
  unfold verifyRegion originOf?
  simp only [check_bind_eq_ok, exists_unit, region_eq_ok, check_forM_eq_ok, value_eq_ok,
    demand_eq_ok, beq_iff_eq, map_eq_some_iff]
  refine exists_congr fun region ↦ and_congr_right fun _ ↦ and_congr ?_ ?_
  · constructor
    · intro hall i v hv
      exact hall (v, i) (mem_zipIdx_iff_getElem?.mpr hv)
    · rintro hall ⟨v, i⟩ hv
      exact hall i v (mem_zipIdx_iff_getElem?.mp hv)
  · constructor
    · intro hall i o ho
      exact hall (o, i) (mem_zipIdx_iff_getElem?.mpr ho)
    · rintro hall ⟨o, i⟩ ho
      exact hall i o (mem_zipIdx_iff_getElem?.mp ho)

/-! ### Verified programs -/

section Verified

variable (h : p.Consistent)

include h

lemma verify_eq_ok : p.verify = .ok () ↔ (∀ func ∈ p.funcs, p.verifyFunc func = .ok ()) ∧
    ∀ r, p.Attached r → p.verifyRegion r = .ok () := by
  unfold verify
  rw [check_bind_eq_ok, exists_unit, check_forM_eq_ok, verifyFuncs_eq_ok
    (fun _ _ ↦ not_mem_nil) h.placed.names]
  simp only [mem_allRegions h]

lemma exists_verifyOp (hverify : p.verify = .ok ()) (hr : p.Attached r) (ho : o ∈ p.opsIn r) :
    ∃ i, (p.opsIn r)[i]? = some o ∧ p.verifyOp r o (i + 1 == (p.opsIn r).length) = .ok () := by
  obtain ⟨region, hregion, -, hops⟩ := verifyRegion_eq_ok.mp (((verify_eq_ok h).mp hverify).2 r hr)
  rw [opsIn_eq hregion] at ho ⊢
  obtain ⟨i, hi⟩ := mem_iff_getElem?.mp ho
  exact ⟨i, hi, hops i o hi⟩

lemma terminated_of_verify (hverify : p.verify = .ok ()) : Terminated p := by
  obtain ⟨hfuncs, -⟩ := (verify_eq_ok h).mp hverify
  refine ⟨fun func hfunc ↦ ?_, fun func hfunc ↦ ?_, fun r hr o ho hend ↦ ?_,
    fun r hr o ho inner hinner ↦ ?_⟩
  · obtain ⟨⟨body, hbody, hargs⟩, hresults, -⟩ := verifyFunc_eq_ok.mp (hfuncs func hfunc)
    exact ⟨by rw [argsOf_eq hbody, hargs], hresults⟩
  · obtain ⟨-, -, last, node, hlast, hnode, hcount⟩ := verifyFunc_eq_ok.mp (hfuncs func hfunc)
    exact ⟨last, hlast, by rw [operandsOf_eq hnode, hcount]⟩
  · obtain ⟨i, hi, hop⟩ := exists_verifyOp h hverify hr ho
    obtain ⟨node, hnode, -, hlast, -⟩ := verifyOp_eq_ok.mp hop
    have hend' : node.isTerminator = true := by simpa [isEnd, hnode] using hend
    have hlength : i + 1 = (p.opsIn r).length := by simpa using hlast hend'
    refine terminator?_eq_some.mpr ⟨?_, hend⟩
    rw [getLast?_eq_getElem?, ← hlength]
    exact hi
  · obtain ⟨i, -, hop⟩ := exists_verifyOp h hverify hr ho
    obtain ⟨node, hnode, -, -, -, -, hnested⟩ := verifyOp_eq_ok.mp hop
    rw [regionsOf_eq hnode] at hinner
    exact (hnested inner hinner).2

lemma produced_of_verify (hverify : p.verify = .ok ()) (ho : o ∈ p.allOps) :
    (∀ v ∈ p.operandsOf o, Produced p v) ∧ ∀ d ∈ p.controlOf o, (p.op? d).isSome := by
  obtain ⟨r, hr, hparent⟩ := (mem_allOps h).mp ho
  obtain ⟨i, -, hop⟩ := exists_verifyOp h hverify hr (h.mem_opsIn.mpr hparent)
  obtain ⟨node, hnode, -, -, hoperands, hcontrol, -⟩ := verifyOp_eq_ok.mp hop
  rw [operandsOf_eq hnode, controlOf_eq hnode]
  exact ⟨hoperands, hcontrol⟩

lemma Available.produced (ho : o ∈ p.allOps) (hv : Available p o v) :
    Produced p v := by
  obtain ⟨home, ⟨n, hhome⟩, hparent⟩ := (mem_allOps h).mp ho
  rcases hv with ⟨r, a, hanc, harg⟩ | ⟨d, hresult, r, a, -, hbefore⟩
  · obtain ⟨m, -, hat⟩ := hanc.exists_attachedAt h hparent hhome
    obtain ⟨i, hi⟩ := mem_iff_getElem?.mp harg
    obtain ⟨owner, howner, hne⟩ := hat.ownerOf? h
    exact produced_iff.mpr (.inr ⟨r, i, owner, h.placed.args r i v hi, howner, hne⟩)
  · obtain ⟨i, hi⟩ := mem_iff_getElem?.mp hresult
    exact produced_iff.mpr
      (.inl ⟨d, i, h.placed.results d i v hi, h.isSome_of_mem_opsIn hbefore.mem_left⟩)

lemma verify_of_produced (hterm : Terminated p)
    (hproduced : ∀ o ∈ p.allOps, ∀ v ∈ p.operandsOf o, Produced p v)
    (hlive : ∀ o ∈ p.allOps, ∀ d ∈ p.controlOf o, (p.op? d).isSome) : p.verify = .ok () := by
  refine (verify_eq_ok h).mpr ⟨fun func hfunc ↦ ?_, fun r hr ↦ ?_⟩
  · obtain ⟨hargs, hresults⟩ := hterm.signature func hfunc
    obtain ⟨last, hlast, hcount⟩ := hterm.returns func hfunc
    obtain ⟨body, hbody, -⟩ := map_eq_some_iff.mp (h.placed.bodies func hfunc)
    have hend := (terminator?_eq_some.mp hlast).2
    obtain ⟨node, hnode, -⟩ := (any_eq_true _ _).mp hend
    rw [argsOf_eq hbody] at hargs
    rw [operandsOf_eq hnode] at hcount
    exact verifyFunc_eq_ok.mpr ⟨⟨body, hbody, hargs⟩, hresults, last, node, hlast, hnode, hcount⟩
  · obtain ⟨n, hat⟩ := hr
    obtain ⟨region, hregion⟩ := isSome_iff_exists.mp (hat.isSome_region? h)
    have hops := opsIn_eq hregion
    refine verifyRegion_eq_ok.mpr ⟨region, hregion, fun i v hv ↦ ?_, fun i o hi ↦ ?_⟩
    · exact h.placed.args r i v (by rw [argsOf_eq hregion]; exact hv)
    · have hmem : o ∈ p.opsIn r := hops ▸ mem_of_getElem? hi
      obtain ⟨node, hnode, hparent⟩ := exists_op_of_parentOf? (h.mem_opsIn.mp hmem)
      have ho : o ∈ p.allOps := (mem_allOps h).mpr ⟨r, ⟨n, hat⟩, h.mem_opsIn.mp hmem⟩
      refine verifyOp_eq_ok.mpr ⟨node, hnode, hparent, fun hend ↦ ?_, fun v hv ↦ ?_,
        fun dep hdep ↦ ?_, fun inner hinner ↦ ?_⟩
      · have hlast := hterm.last r ⟨n, hat⟩ o hmem (by simpa [isEnd, hnode] using hend)
        have hget := (terminator?_eq_some.mp hlast).1
        rw [hops, getLast?_eq_getElem?] at hget
        have hlt := (List.getElem?_eq_some_iff.mp hi).1
        have hsame := (getElem?_inj hlt (hops ▸ h.placed.once r)).mp (hi.trans hget.symm)
        have hlength : i + 1 = region.ops.length := by omega
        simpa using hlength
      · exact hproduced o ho v (by rw [operandsOf_eq hnode]; exact hv)
      · exact hlive o ho dep (by rw [controlOf_eq hnode]; exact hdep)
      · have hinner' : inner ∈ p.regionsOf o := by rw [regionsOf_eq hnode]; exact hinner
        exact ⟨parentOp?_eq_some.mp (h.mem_regionsOf.mp hinner'), hterm.nested r
          ⟨n, hat⟩ o hmem inner hinner'⟩

lemma verify_of_terminated (hscoped : Scoped p) (hterm : Terminated p) : p.verify = .ok () := by
  refine verify_of_produced h hterm (fun o ho v hv ↦ (hscoped.operands o ho v hv).produced h ho)
    fun o ho d hd ↦ ?_
  obtain ⟨r, a, -, hbefore⟩ := hscoped.control o ho d hd
  exact h.isSome_of_mem_opsIn hbefore.mem_left

lemma ordered_of_isScoped (hscoped : p.isScoped = true) (hverify : p.verify.toOption = some ()) :
    Ordered p :=
  ⟨(isScoped_eq_true h).mp hscoped, Edit.eq_ok_of_toOption hverify⟩

end Verified

end TensorGraph.Program
