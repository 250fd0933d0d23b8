import TensorGraph.Proofs.Growth
import TensorGraph.Proofs.LoopSlots

/-!
The removal of a slot, part by part. A slot is described by the places and values it consists of.
-/

namespace TensorGraph

open List Option

variable {p q : Program} {o : OpId} {v new old : ValueId} {index : Nat}
    {f : OpId → Operation → Operation} {g : RegionId → Region → Region}
    {k : OpId → List ValueId → List ValueId} {κ : Type} {r : RegionId}

namespace Program

/-! ### Rewriting entries in place -/

/-- Every operation and every region has been rewritten in place; functions and graph are the
same. -/
structure Rewrites (f : OpId → Operation → Operation) (g : RegionId → Region → Region)
    (p q : Program) : Prop where
  op? : ∀ x, q.op? x = (p.op? x).map (f x)
  region? : ∀ r, q.region? r = (p.region? r).map (g r)
  funcs : q.funcs = p.funcs
  graph : q.graph = p.graph

lemma Rewrites.trans {f' : OpId → Operation → Operation} {g' : RegionId → Region → Region}
    {m : Program} (h : Rewrites f g p m) (h' : Rewrites f' g' m q) : Rewrites (fun x ↦ f' x ∘ f x)
    (fun r ↦ g' r ∘ g r) p q where
  op? x := by rw [h'.op?, h.op?, Option.map_map]
  region? r := by rw [h'.region?, h.region?, Option.map_map]
  funcs := h'.funcs.trans h.funcs
  graph := h'.graph.trans h.graph

lemma Rewrites.sameTree (h : Rewrites f g p q) (hparent : ∀ x node, (f x node).parent = node.parent)
    (hform : ∀ x node, (f x node).form = node.form) (hkind : ∀ x node, (f x node).kind = node.kind)
    (hops : ∀ r region, (g r region).ops = region.ops)
    (howner : ∀ r region, (g r region).owner = region.owner) :
    SameTree p q := by
  refine .of_ops h.op? hparent hform hkind (fun r ↦ ?_) (fun r ↦ ?_) h.funcs h.graph
  · rw [opsIn, h.region?, Option.map_map, opsIn]
    exact congrArg (fun k ↦ (Option.map k (p.region? r)).getD []) (funext (hops r))
  · rw [ownerOf?, h.region?, Option.map_map, ownerOf?]
    exact congrArg (Option.map · (p.region? r)) (funext (howner r))

section Views

variable (h : Rewrites f g p q)

include h

lemma Rewrites.operandsOf (hf : ∀ x node, (f x node).operands = k x node.operands)
    (hnil : ∀ x, k x [] = []) (x : OpId) : q.operandsOf x = k x (p.operandsOf x) := by
  rw [Program.operandsOf, h.op?, Program.operandsOf]
  cases p.op? x with
  | none => exact (hnil x).symm
  | some node => exact hf x node

lemma Rewrites.resultsOf (hf : ∀ x node, (f x node).results = k x node.results)
    (hnil : ∀ x, k x [] = []) (x : OpId) : q.resultsOf x = k x (p.resultsOf x) := by
  rw [Program.resultsOf, h.op?, Program.resultsOf]
  cases p.op? x with
  | none => exact (hnil x).symm
  | some node => exact hf x node

lemma Rewrites.argsOf {k : RegionId → List ValueId → List ValueId}
    (hg : ∀ r region, (g r region).args = k r region.args) (hnil : ∀ r, k r [] = [])
    (r : RegionId) : q.argsOf r = k r (p.argsOf r) := by
  rw [Program.argsOf, h.region?, Program.argsOf]
  cases p.region? r with
  | none => exact (hnil r).symm
  | some region => exact hg r region

end Views

/-- Takes an entry out of the list that belongs to a key. -/
def eraseAt {κ : Type} [DecidableEq κ] (key : κ) (index : Nat) (k : κ) (l : List ValueId) :
    List ValueId :=
  if k = key then l.eraseIdx index else l

lemma eraseAt_nil [DecidableEq κ] (key : κ) (index : Nat) (k : κ) :
    eraseAt key index k [] = [] := by
  unfold eraseAt
  split_ifs
  · rfl
  · rfl

lemma eraseAt_subset [DecidableEq κ] (key : κ) (index : Nat) (k : κ) (l : List ValueId) :
    eraseAt key index k l ⊆ l := by
  unfold eraseAt
  split_ifs
  · exact (eraseIdx_sublist l index).subset
  · exact Subset.refl l

end Program

namespace Edit

open Program

/-! ### When the edits succeed -/

section Succeeds

lemma exists_replaceUses (hold : (p.value? old).isSome)
    (hnew : (p.value? new).isSome) : ∃ q, (replaceUses old new).exec p = (.ok ⟨⟩, q) := by
  by_cases hsame : old = new
  · exact does_replaceUses.exists_done ⟨hnew, .inl ⟨hsame, rfl⟩⟩
  · exact does_replaceUses.exists_done ⟨hnew, .inr ⟨hold, hsame, rfl⟩⟩

lemma exists_removeOperand (hv : (p.operandsOf o)[index]? = some v) :
    ∃ q, (removeOperand o index).exec p = (.ok ⟨⟩, q) :=
  does_removeOperand.exists_done ⟨v, hv, rfl⟩

lemma exists_removeResult (hp : p.Consistent) (hv : (p.resultsOf o)[index]? = some v)
    (hunused : ∀ x, v ∉ p.operandsOf x) : ∃ q, (removeResult o index).exec p = (.ok ⟨⟩, q) :=
  does_removeResult.exists_done ⟨v, hv, isSome_value?_of_originOf? (hp.placed.results o index v hv),
    hp.uses.usersOf_eq_nil hunused, rfl⟩

lemma exists_removeArg (hp : p.Consistent) (hv : (p.argsOf r)[index]? = some v)
    (hunused : ∀ x, v ∉ p.operandsOf x) : ∃ q, (removeArg r index).exec p = (.ok ⟨⟩, q) :=
  does_removeArg.exists_done ⟨v, hv, isSome_value?_of_originOf? (hp.placed.args r index v hv),
    hp.uses.usersOf_eq_nil hunused, rfl⟩

lemma isSome_value?_replaceUses (hok : (replaceUses old new).exec p = (.ok ⟨⟩, q)) (v : ValueId) :
    (q.value? v).isSome = (p.value? v).isSome := by
  obtain ⟨-, ⟨-, rfl⟩ | ⟨-, -, rfl⟩⟩ := does_replaceUses.of_ok hok
  · rfl
  · rw [redirected_rest]
    change (((p.modifyValue old _).modifyValue new _).value? v).isSome = _
    rw [value?_modifyValue, value?_modifyValue]
    split_ifs
    · rw [isSome_map, isSome_map]
    · rw [isSome_map]
    · rw [isSome_map]
    · rfl

end Succeeds

/-! ### What the edits do -/

variable (hp : p.Consistent)

include hp

lemma replaceUses_rewrites (hok : (replaceUses old new).exec p = (.ok ⟨⟩, q)) :
    Rewrites (fun _ node ↦ { node with operands := node.operands.map (redirect old new) })
      (fun _ region ↦ region) p q := by
  obtain ⟨-, ⟨rfl, rfl⟩ | ⟨-, hne, rfl⟩⟩ := does_replaceUses.of_ok hok
  · have hid : redirect old old = id := funext fun v ↦ by
      unfold redirect
      split_ifs with hv
      · exact hv.symm
      · rfl
    refine ⟨fun x ↦ ?_, fun r ↦ ?_, rfl, rfl⟩
    · simp [hid]
    · simp
  · refine ⟨op?_redirected hp.uses hne, fun r ↦ ?_, ?_, ?_⟩
    · rw [redirected_rest, Option.map_id']
      rfl
    · rw [redirected_rest]
      rfl
    · rw [redirected_rest]
      rfl

omit hp

lemma removeOperand_rewrites (hok : (removeOperand o index).exec p = (.ok ⟨⟩, q)) :
    Rewrites (fun x node ↦ { node with operands := eraseAt o index x node.operands })
      (fun _ region ↦ region) p q := by
  obtain ⟨old, -, rfl⟩ := does_removeOperand.of_ok hok
  refine ⟨fun x ↦ ?_, fun r ↦ map_id'.symm, rfl, rfl⟩
  rw [op?_withoutOperand]
  refine congrArg (Option.map · (p.op? x)) (funext fun node ↦ ?_)
  unfold eraseAt
  split_ifs
  · rfl
  · rfl

lemma removeResult_rewrites (hok : (removeResult o index).exec p = (.ok ⟨⟩, q)) :
    Rewrites (fun x node ↦ { node with results := eraseAt o index x node.results })
      (fun _ region ↦ region) p q := by
  obtain ⟨v, -, -, -, rfl⟩ := does_removeResult.of_ok hok
  rw [withoutResult_rest]
  refine ⟨fun x ↦ ?_, fun r ↦ map_id'.symm, rfl, rfl⟩
  change (p.modifyOp o _).op? x = _
  rw [op?_modifyOp_eq_map]
  rcases hnode : p.op? x with _ | node
  · rfl
  · simp only [map_some, eraseAt]
    split_ifs with hx
    · subst hx
      rw [resultsOf_eq hnode]
    · rfl

lemma removeArg_rewrites (hok : (removeArg r index).exec p = (.ok ⟨⟩, q)) :
    Rewrites (fun _ node ↦ node)
      (fun x region ↦ { region with args := eraseAt r index x region.args }) p q := by
  obtain ⟨v, -, -, -, rfl⟩ := does_removeArg.of_ok hok
  rw [withoutArg_rest]
  refine ⟨fun x ↦ map_id'.symm, fun x ↦ ?_, rfl, rfl⟩
  change (p.modifyRegion r _).region? x = _
  rw [region?_modifyRegion]
  rcases hregion : p.region? x with _ | region
  · split_ifs
    · rfl
    · rfl
  · unfold eraseAt
    split_ifs with hx
    · subst hx
      rw [argsOf_eq hregion]
      rfl
    · rfl

end Edit

namespace LoopSlots

open Program Edit

/-! ### Slots -/

/-- The operation has two regions, and all its slots are complete. -/
structure IsLoop (p : Program) (o : OpId) (cond body : RegionId) (last : OpId) : Prop where
  regions : p.regionsOf o = [cond, body]
  ends : p.terminator? body = some last
  condArgs : (p.argsOf cond).length = (p.operandsOf o).length
  bodyArgs : (p.argsOf body).length = (p.operandsOf o).length
  yielded : (p.operandsOf last).length = (p.operandsOf o).length
  results : (p.resultsOf o).length = (p.operandsOf o).length

lemma loopOf?_eq_some_iff (hp : p.Consistent) {node : Operation} (hnode : p.op? o = some node)
    (loop : Loop) : loopOf? p node = some loop ↔ ∃ last, IsLoop p o loop.cond loop.body last ∧
      loop.condArgs = p.argsOf loop.cond ∧ loop.bodyArgs = p.argsOf loop.body ∧
      loop.yielded = p.operandsOf last := by
  constructor
  · intro hloop
    unfold loopOf? at hloop
    split at hloop
    · next cond body hregions =>
      simp only [bind_eq_bind, bind_eq_some_iff] at hloop
      obtain ⟨condRegion, hcond, bodyRegion, hbody, last, hlast, lastNode, hlastNode, hshape⟩ :=
        hloop
      split_ifs at hshape with hlengths
      cases hshape
      obtain ⟨hcondArgs, hbodyArgs, hyielded, hresults⟩ := hlengths
      refine ⟨last, ⟨?_, hlast, ?_, ?_, ?_, ?_⟩, (argsOf_eq hcond).symm, (argsOf_eq hbody).symm,
        (operandsOf_eq hlastNode).symm⟩
      · rw [regionsOf_eq hnode, hregions]
      · rw [argsOf_eq hcond, operandsOf_eq hnode, hcondArgs]
      · rw [argsOf_eq hbody, operandsOf_eq hnode, hbodyArgs]
      · rw [operandsOf_eq hlastNode, operandsOf_eq hnode, hyielded]
      · rw [resultsOf_eq hnode, operandsOf_eq hnode, hresults]
    · cases hloop
  · rintro ⟨last, h, hcondArgs, hbodyArgs, hyielded⟩
    have hregions : node.regions = [loop.cond, loop.body] := regionsOf_eq hnode ▸ h.regions
    obtain ⟨condRegion, hcond⟩ := isSome_iff_exists.mp
      (hp.isSome_region?_of_mem_regionsOf (o := o) (r := loop.cond) (by rw [h.regions]; simp))
    obtain ⟨bodyRegion, hbody⟩ := isSome_iff_exists.mp
      (hp.isSome_region?_of_mem_regionsOf (o := o) (r := loop.body) (by rw [h.regions]; simp))
    have hin := mem_of_getLast? (terminator?_eq_some.mp h.ends).1
    obtain ⟨lastNode, hlastNode, -⟩ := exists_op_of_parentOf? (hp.mem_opsIn.mp hin)
    have hlengths := And.intro h.condArgs (And.intro h.bodyArgs (And.intro h.yielded h.results))
    rw [argsOf_eq hcond, argsOf_eq hbody, operandsOf_eq hlastNode, operandsOf_eq hnode,
      resultsOf_eq hnode] at hlengths
    rw [argsOf_eq hcond] at hcondArgs
    rw [argsOf_eq hbody] at hbodyArgs
    rw [operandsOf_eq hlastNode] at hyielded
    unfold loopOf?
    rw [hregions]
    simp only [hcond, hbody, h.ends, hlastNode, bind_eq_bind, bind_some, if_pos hlengths]
    rw [← hcondArgs, ← hbodyArgs, ← hyielded]

/-- The places and values that a slot of a loop consists of. -/
structure Slot where
  op : OpId
  index : Nat
  cond : RegionId
  body : RegionId
  last : OpId
  init : ValueId
  condArg : ValueId
  bodyArg : ValueId
  result : ValueId

namespace Slot

variable (s : Slot)

/-- The parts are those of a slot of the program. -/
structure LiesIn (p : Program) : Prop where
  loop : IsLoop p s.op s.cond s.body s.last
  init : (p.operandsOf s.op)[s.index]? = some s.init
  condArg : (p.argsOf s.cond)[s.index]? = some s.condArg
  bodyArg : (p.argsOf s.body)[s.index]? = some s.bodyArg
  result : (p.resultsOf s.op)[s.index]? = some s.result

/-- What is used in place of a value once the slot is removed. -/
def value (v : ValueId) : ValueId :=
  if v = s.bodyArg ∨ v = s.condArg ∨ v = s.result then s.init else v

def trimOp (x : OpId) (node : Operation) : Operation :=
  { node with
    operands := eraseAt s.op s.index x (eraseAt s.last s.index x (node.operands.map s.value))
    results := eraseAt s.op s.index x node.results }

def trimRegion (r : RegionId) (region : Region) : Region :=
  { region with args := eraseAt s.body s.index r (eraseAt s.cond s.index r region.args) }

abbrev Removed (p q : Program) : Prop :=
  Rewrites s.trimOp s.trimRegion p q

def redirectUses : Edit Unit := do
  replaceUses s.bodyArg s.init
  replaceUses s.condArg s.init
  replaceUses s.result s.init

def dropEntries : Edit Unit := do
  removeOperand s.last s.index
  removeArg s.cond s.index
  removeArg s.body s.index
  removeOperand s.op s.index
  removeResult s.op s.index

variable {s}

/-! ### What the removal does -/

lemma redirect_eq_value (v : ValueId) :
    redirect s.result s.init (redirect s.condArg s.init (redirect s.bodyArg s.init v)) =
    s.value v := by
  unfold redirect value
  split_ifs <;> simp_all

lemma Removed.sameTree (h : s.Removed p q) : SameTree p q :=
  Rewrites.sameTree h (fun _ _ ↦ rfl) (fun _ _ ↦ rfl) (fun _ _ ↦ rfl) (fun _ _ ↦ rfl) fun _ _ ↦ rfl

lemma Removed.operandsOf (h : s.Removed p q) (x : OpId) : q.operandsOf x = eraseAt s.op s.index x
    (eraseAt s.last s.index x ((p.operandsOf x).map s.value)) := by
  refine Rewrites.operandsOf h (k := fun x l ↦
    eraseAt s.op s.index x (eraseAt s.last s.index x (l.map s.value)))
    (fun _ _ ↦ rfl) (fun x ↦ ?_) x
  rw [map_nil, eraseAt_nil, eraseAt_nil]

lemma Removed.resultsOf (h : s.Removed p q) (x : OpId) :
    q.resultsOf x = eraseAt s.op s.index x (p.resultsOf x) :=
  Rewrites.resultsOf h (fun _ _ ↦ rfl) (eraseAt_nil _ _) x

lemma Removed.argsOf (h : s.Removed p q) (r : RegionId) :
    q.argsOf r = eraseAt s.body s.index r (eraseAt s.cond s.index r (p.argsOf r)) := by
  refine Rewrites.argsOf h (k := fun r l ↦ eraseAt s.body s.index r (eraseAt s.cond s.index r l))
    (fun _ _ ↦ rfl) (fun r ↦ ?_) r
  rw [eraseAt_nil, eraseAt_nil]

lemma redirectUses_rewrites (hp : p.Consistent) (hok : s.redirectUses.exec p = (.ok ⟨⟩, q)) :
    q.Consistent ∧ Rewrites (fun _ node ↦ { node with operands := node.operands.map s.value })
        (fun _ region ↦ region) p q := by
  unfold redirectUses at hok
  obtain ⟨_, m, hfirst, hok⟩ := exec_bind_ok.mp hok
  obtain ⟨_, n, hsecond, hthird⟩ := exec_bind_ok.mp hok
  have hm := (makes_replaceUses _ _).keeps.of_ok hp hfirst
  have hn := (makes_replaceUses _ _).keeps.of_ok hm hsecond
  have hall := ((replaceUses_rewrites hp hfirst).trans (replaceUses_rewrites hm hsecond)).trans
    (replaceUses_rewrites hn hthird)
  refine ⟨(makes_replaceUses _ _).keeps.of_ok hn hthird, fun x ↦
    ?_, hall.region?, hall.funcs, hall.graph⟩
  rw [hall.op?]
  refine congrArg (Option.map · (p.op? x)) (funext fun node ↦ ?_)
  simp only [Function.comp_apply, List.map_map]
  have hvalue : redirect s.result s.init ∘ redirect s.condArg s.init ∘ redirect s.bodyArg s.init =
      s.value := funext redirect_eq_value
  rw [hvalue]

lemma dropEntries_rewrites (hok : s.dropEntries.exec p = (.ok ⟨⟩, q)) :
    Rewrites (fun x node ↦ { node with
        operands := eraseAt s.op s.index x (eraseAt s.last s.index x node.operands)
        results := eraseAt s.op s.index x node.results }) s.trimRegion p q := by
  unfold dropEntries at hok
  obtain ⟨_, k, hfirst, hok⟩ := exec_bind_ok.mp hok
  obtain ⟨_, l, hsecond, hok⟩ := exec_bind_ok.mp hok
  obtain ⟨_, m, hthird, hok⟩ := exec_bind_ok.mp hok
  obtain ⟨_, n, hfourth, hfifth⟩ := exec_bind_ok.mp hok
  exact ((((removeOperand_rewrites hfirst).trans (removeArg_rewrites hsecond)).trans
    (removeArg_rewrites hthird)).trans (removeOperand_rewrites hfourth)).trans
    (removeResult_rewrites hfifth)

lemma exec_removeSlot (hp : p.Consistent) (hs : s.LiesIn p) :
    (removeSlot s.op s.index).exec p = (do s.redirectUses; s.dropEntries : Edit Unit).exec p := by
  have hlive : (p.op? s.op).isSome := by
    cases hnode : p.op? s.op with
    | none => simpa [regionsOf, hnode] using hs.loop.regions
    | some node => rfl
  obtain ⟨node, hnode⟩ := isSome_iff_exists.mp hlive
  have hloop := (loopOf?_eq_some_iff hp hnode ⟨s.cond, s.body, p.argsOf s.cond, p.argsOf s.body,
    p.operandsOf s.last⟩).mpr ⟨s.last, hs.loop, rfl, rfl, rfl⟩
  unfold removeSlot
  rw [bind_readOp hnode, exec_get_bind]
  simp only [hloop, operandsOf_eq hnode ▸ hs.init, resultsOf_eq hnode ▸ hs.result,
    hs.condArg, hs.bodyArg]
  have hfirst : ∀ rest : Edit Unit, (do
      replaceUses s.bodyArg s.init
      replaceUses s.condArg s.init
      replaceUses s.result s.init
      rest : Edit Unit) = s.redirectUses >>= fun _ ↦ rest := by
    intro rest
    unfold redirectUses
    rw [LawfulMonad.bind_assoc, LawfulMonad.bind_assoc]
  rw [hfirst, exec_bind, exec_bind]
  rcases hredirect : s.redirectUses.exec p with ⟨err | _, m⟩
  · rfl
  · have htree := (redirectUses_rewrites hp hredirect).2.sameTree (fun _ _ ↦ rfl) (fun _ _ ↦ rfl)
      (fun _ _ ↦ rfl) (fun _ _ ↦ rfl) fun _ _ ↦ rfl
    have hends : m.terminator? s.body = some s.last := by rw [htree.terminator?, hs.loop.ends]
    dsimp only
    rw [exec_get_bind, hends]
    rfl

lemma removed_of_removeSlot (hp : p.Consistent) (hs : s.LiesIn p)
    (hok : (removeSlot s.op s.index).exec p = (.ok ⟨⟩, q)) : s.Removed p q := by
  rw [exec_removeSlot hp hs, exec_bind_ok] at hok
  obtain ⟨_, m, hfirst, hsecond⟩ := hok
  exact (redirectUses_rewrites hp hfirst).2.trans (dropEntries_rewrites hsecond)

/-! ### When the removal succeeds -/

section Succeeds

variable (hp : p.Consistent) (hs : s.LiesIn p)

include hp hs

lemma LiesIn.cond_ne_body : s.cond ≠ s.body := by
  have hnodup := hp.placed.ownedOnce s.op
  rw [hs.loop.regions] at hnodup
  simpa using hnodup

lemma exists_redirectUses : ∃ q, s.redirectUses.exec p = (.ok ⟨⟩, q) := by
  have hinit := hp.uses.isSome_value? (mem_of_getElem? hs.init)
  have hbodyArg := isSome_value?_of_originOf? (hp.placed.args _ _ _ hs.bodyArg)
  have hcondArg := isSome_value?_of_originOf? (hp.placed.args _ _ _ hs.condArg)
  have hresult := isSome_value?_of_originOf? (hp.placed.results _ _ _ hs.result)
  obtain ⟨k, hfirst⟩ := exists_replaceUses hbodyArg hinit
  rw [← isSome_value?_replaceUses hfirst] at hinit hcondArg hresult
  obtain ⟨l, hsecond⟩ := exists_replaceUses hcondArg hinit
  rw [← isSome_value?_replaceUses hsecond] at hinit hresult
  obtain ⟨m, hthird⟩ := exists_replaceUses hresult hinit
  refine ⟨m, ?_⟩
  unfold redirectUses
  rw [exec_bind_of_ok hfirst, exec_bind_of_ok hsecond, hthird]

lemma exists_dropEntries (hne : s.op ≠ s.last)
    (hunused : ∀ v, v = s.bodyArg ∨ v = s.condArg ∨ v = s.result → ∀ x, v ∉ p.operandsOf x) :
    ∃ q, s.dropEntries.exec p = (.ok ⟨⟩, q) := by
  have hnodup := hs.cond_ne_body hp
  have hyielded : s.index < (p.operandsOf s.last).length := by
    rw [hs.loop.yielded]
    exact (List.getElem?_eq_some_iff.mp hs.init).1
  obtain ⟨k, hfirst⟩ := exists_removeOperand (getElem?_eq_getElem hyielded)
  have hk := (makes_removeOperand _ _).keeps.of_ok hp hfirst
  have hpk := removeOperand_rewrites hfirst
  have hargs : ∀ r, k.argsOf r = p.argsOf r := hpk.argsOf (k := fun _ l ↦ l)
    (fun _ _ ↦ rfl) fun _ ↦ rfl
  have hoperands : ∀ x, k.operandsOf x ⊆ p.operandsOf x := fun x ↦ by
    rw [hpk.operandsOf (k := eraseAt s.last s.index) (fun _ _ ↦ rfl) (eraseAt_nil _ _)]
    exact eraseAt_subset ..
  obtain ⟨l, hsecond⟩ :=
    exists_removeArg hk ((congrArg (·[s.index]?) (hargs s.cond)).trans hs.condArg) fun x hx ↦
    hunused _ (.inr (.inl rfl)) x (hoperands x hx)
  have hl := (makes_removeArg _ _).keeps.of_ok hk hsecond
  have hpl := hpk.trans (removeArg_rewrites hsecond)
  have hbodyArg : (l.argsOf s.body)[s.index]? = some s.bodyArg := by
    rw [hpl.argsOf (k := eraseAt s.cond s.index) (fun _ _ ↦ rfl) (eraseAt_nil _ _), eraseAt,
      if_neg hnodup.symm, hs.bodyArg]
  have hoperands : ∀ x, l.operandsOf x ⊆ p.operandsOf x := fun x ↦ by
    rw [hpl.operandsOf (k := eraseAt s.last s.index) (fun _ _ ↦ rfl) (eraseAt_nil _ _)]
    exact eraseAt_subset ..
  obtain ⟨m, hthird⟩ := exists_removeArg hl hbodyArg fun x hx ↦
    hunused _ (.inl rfl) x (hoperands x hx)
  have hm := (makes_removeArg _ _).keeps.of_ok hl hthird
  have hpm := hpl.trans (removeArg_rewrites hthird)
  have hinit : (m.operandsOf s.op)[s.index]? = some s.init := by
    rw [hpm.operandsOf (k := eraseAt s.last s.index) (fun _ _ ↦ rfl)
      (eraseAt_nil _ _), eraseAt, if_neg hne, hs.init]
  obtain ⟨n, hfourth⟩ := exists_removeOperand hinit
  have hn := (makes_removeOperand _ _).keeps.of_ok hm hfourth
  have hpn := hpm.trans (removeOperand_rewrites hfourth)
  have hresult : (n.resultsOf s.op)[s.index]? = some s.result := by
    rw [hpn.resultsOf (k := fun _ l ↦ l) (fun _ _ ↦ rfl) fun _ ↦ rfl, hs.result]
  have hoperands : ∀ x, n.operandsOf x ⊆ p.operandsOf x := fun x ↦ by
    rw [hpn.operandsOf (k := fun x l ↦ eraseAt s.op s.index x (eraseAt s.last s.index x l))
      (fun _ _ ↦ rfl) fun x ↦ by rw [eraseAt_nil, eraseAt_nil]]
    exact Subset.trans (eraseAt_subset ..) (eraseAt_subset ..)
  obtain ⟨q, hfifth⟩ := exists_removeResult hn hresult fun x hx ↦
    hunused _ (.inr (.inr rfl)) x (hoperands x hx)
  refine ⟨q, ?_⟩
  unfold dropEntries
  rw [exec_bind_of_ok hfirst, exec_bind_of_ok hsecond, exec_bind_of_ok hthird,
    exec_bind_of_ok hfourth, hfifth]

end Succeeds

lemma LiesIn.op_ne_last (hs : s.LiesIn p) (hend : p.isEnd s.op = false) : s.op ≠ s.last := by
  intro heq
  have hlast := (terminator?_eq_some.mp hs.loop.ends).2
  rw [← heq, hend] at hlast
  cases hlast

lemma LiesIn.init_ne (h : WellOrdered p) (ho : s.op ∈ p.allOps) (hs : s.LiesIn p) :
    ¬ (s.init = s.bodyArg ∨ s.init = s.condArg ∨ s.init = s.result) := by
  have havailable := h.scoping.operands s.op ho s.init (mem_of_getElem? hs.init)
  have hregions := hs.loop.regions
  rintro (hinit | hinit | hinit)
  · refine not_available_of_mem_args h.consistent ho (r := s.body)
      (by simp [hregions]) ?_ havailable
    exact hinit ▸ mem_of_getElem? hs.bodyArg
  · refine not_available_of_mem_args h.consistent ho (r := s.cond)
      (by simp [hregions]) ?_ havailable
    exact hinit ▸ mem_of_getElem? hs.condArg
  · refine Sees.irrefl h.consistent ho (havailable.sees_of_mem_results h.consistent ?_)
    exact hinit ▸ mem_of_getElem? hs.result

lemma value_ne (hinit : ¬ (s.init = s.bodyArg ∨ s.init = s.condArg ∨ s.init = s.result))
    (hv : v = s.bodyArg ∨ v = s.condArg ∨ v = s.result) (u : ValueId) : s.value u ≠ v := by
  rintro rfl
  unfold value at hv
  split_ifs at hv with hu
  · exact hinit hv
  · exact hu hv

lemma value_init : s.value s.init = s.init := by
  unfold value
  split_ifs
  · rfl
  · rfl

lemma LiesIn.redirectUses (hp : p.Consistent) (hs : s.LiesIn p)
    (hok : s.redirectUses.exec p = (.ok ⟨⟩, q)) : s.LiesIn q := by
  obtain ⟨-, hpq⟩ := redirectUses_rewrites hp hok
  have htree := hpq.sameTree (fun _ _ ↦ rfl) (fun _ _ ↦ rfl) (fun _ _ ↦ rfl)
    (fun _ _ ↦ rfl) fun _ _ ↦ rfl
  have hoperands : ∀ x, q.operandsOf x = (p.operandsOf x).map s.value :=
    hpq.operandsOf (k := fun _ l ↦ l.map s.value) (fun _ _ ↦ rfl) fun _ ↦ rfl
  have hresults : ∀ x, q.resultsOf x = p.resultsOf x := hpq.resultsOf (k := fun _ l ↦ l)
    (fun _ _ ↦ rfl) fun _ ↦ rfl
  have hargs : ∀ r, q.argsOf r = p.argsOf r := hpq.argsOf (k := fun _ l ↦ l)
    (fun _ _ ↦ rfl) fun _ ↦ rfl
  refine ⟨⟨?_, ?_, ?_, ?_, ?_, ?_⟩, ?_, ?_, ?_, ?_⟩
  · rw [htree.regions, hs.loop.regions]
  · rw [htree.terminator?, hs.loop.ends]
  · rw [hargs, hoperands, length_map, hs.loop.condArgs]
  · rw [hargs, hoperands, length_map, hs.loop.bodyArgs]
  · rw [hoperands, hoperands, length_map, length_map, hs.loop.yielded]
  · rw [hresults, hoperands, length_map, hs.loop.results]
  · rw [hoperands, getElem?_map, hs.init, map_some, value_init]
  · rw [hargs, hs.condArg]
  · rw [hargs, hs.bodyArg]
  · rw [hresults, hs.result]

lemma exists_removeSlot (h : WellOrdered p) (ho : s.op ∈ p.allOps) (hend : p.isEnd s.op = false)
    (hs : s.LiesIn p) : ∃ q, (removeSlot s.op s.index).exec p = (.ok ⟨⟩, q) := by
  have hp := h.consistent
  obtain ⟨m, hredirect⟩ := exists_redirectUses hp hs
  obtain ⟨hm, hpm⟩ := redirectUses_rewrites hp hredirect
  obtain ⟨q, hdrop⟩ := exists_dropEntries hm (hs.redirectUses hp hredirect) (hs.op_ne_last hend)
    fun v hv x hx ↦ by
    rw [hpm.operandsOf (k := fun _ l ↦ l.map s.value) (fun _ _ ↦ rfl) fun _ ↦ rfl] at hx
    obtain ⟨u, -, hu⟩ := mem_map.mp hx
    exact value_ne (hs.init_ne h ho) hv u hu
  refine ⟨q, ?_⟩
  rw [exec_removeSlot hp hs, exec_bind_of_ok hredirect, hdrop]

end Slot

lemma exists_slot {cond body : RegionId} {last : OpId} (h : IsLoop p o cond body last)
    (hindex : index < (p.operandsOf o).length) : ∃ s : Slot, s.LiesIn p ∧ s.op = o ∧
    s.index = index ∧ s.cond = cond ∧ s.body = body ∧ s.last = last := by
  have hcond : index < (p.argsOf cond).length := h.condArgs.symm ▸ hindex
  have hbody : index < (p.argsOf body).length := h.bodyArgs.symm ▸ hindex
  have hresults : index < (p.resultsOf o).length := h.results.symm ▸ hindex
  refine ⟨⟨o, index, cond, body, last, (p.operandsOf o)[index], (p.argsOf cond)[index],
    (p.argsOf body)[index], (p.resultsOf o)[index]⟩, ⟨h, ?_, ?_, ?_, ?_⟩, rfl, rfl, rfl, rfl, rfl⟩
  · exact getElem?_eq_getElem hindex
  · exact getElem?_eq_getElem hcond
  · exact getElem?_eq_getElem hbody
  · exact getElem?_eq_getElem hresults

lemma removeSlot_ok (hp : p.Consistent) (hok : (removeSlot o index).exec p = (.ok ⟨⟩, q)) :
    q = p ∨ ∃ s : Slot, s.op = o ∧ s.index = index ∧ s.LiesIn p ∧ s.Removed p q := by
  cases hnode : p.op? o with
  | none =>
    rw [removeSlot, bind_readOp_none hnode] at hok
    cases hok
  | some node =>
    by_cases hslot : (loopOf? p node).isSome ∧ index < node.operands.length
    · obtain ⟨hloop, hindex⟩ := hslot
      obtain ⟨loop, hloop⟩ := isSome_iff_exists.mp hloop
      obtain ⟨last, hisLoop, -⟩ := (loopOf?_eq_some_iff hp hnode _).mp hloop
      obtain ⟨s, hs, rfl, rfl, -⟩ := exists_slot hisLoop (operandsOf_eq hnode ▸ hindex)
      exact .inr ⟨s, rfl, rfl, hs, Slot.removed_of_removeSlot hp hs hok⟩
    · rw [removeSlot, bind_readOp hnode, exec_get_bind] at hok
      split at hok
      · next loop init result hloop hinit _ =>
        exact absurd ⟨by rw [hloop]; rfl, (List.getElem?_eq_some_iff.mp hinit).1⟩ hslot
      · exact .inl (Prod.mk.inj hok).2.symm

end LoopSlots

end TensorGraph
