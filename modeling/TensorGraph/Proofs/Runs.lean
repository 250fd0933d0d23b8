import TensorGraph.Proofs.Views

/-!
Runs of edits. An edit is run on a program and gives an answer and the program it leaves. `Keeps I
edit` says that the edit leaves the property `I` of programs alone, whether it succeeds or fails.
-/

namespace TensorGraph.Edit

open List

variable {p q : Program} {err : Error} {I : Program → Prop} {o : OpId} {v : ValueId} {r : RegionId}

variable {α β : Type} {e : Edit α} {a : α} {f : α → Edit β} {b : β}
  {query : Program → Except Error α} {R : β → Program → Prop} {l : List α}

/-! ### The answers of composed edits -/

/-- The answer of an edit on a program, and the program it leaves. -/
def exec (e : Edit α) (p : Program) : Except Error α × Program :=
  e.run p

lemma exec_bind (e : Edit α) (f : α → Edit β) (p : Program) : (e >>= f).exec p = match e.exec p with
      | (.ok a, q) => (f a).exec q
      | (.error err, q) => (.error err, q) := by
  change (ExceptT.bindCont f (e.exec p).1 : StateM Program (Except Error β)) (e.exec p).2 = _
  rcases e.exec p with ⟨_ | a, q⟩ <;> rfl

lemma exec_modify (f : Program → Program) (p : Program) :
    (modify f : Edit PUnit).exec p = (.ok ⟨⟩, f p) := rfl

lemma exec_get_bind (f : Program → Edit β) (p : Program) : (get >>= f).exec p = (f p).exec p := rfl

lemma exec_read (query : Program → Except Error α) (p : Program) :
    (read query).exec p = (query p, p) := by
  rw [read, exec_get_bind]
  rcases query p with _ | a <;> rfl

lemma exec_bind_of_ok (h : e.exec p = (.ok a, q))
    (f : α → Edit β) : (e >>= f).exec p = (f a).exec q := by
  rw [exec_bind, h]

lemma exec_bind_of_error (h : e.exec p = (.error err, q)) (f : α → Edit β) :
    (e >>= f).exec p = (.error err, q) := by
  rw [exec_bind, h]

lemma eq_ok_of_toOption {result : Except Error α} (h : result.toOption = some a) :
    result = .ok a := by
  cases result with
  | error err => cases h
  | ok b =>
    cases h
    rfl

lemma exec_eq_ok (h : (e.exec p).1.toOption = some a) : e.exec p = (.ok a, (e.exec p).2) :=
  Prod.ext (eq_ok_of_toOption h) rfl

lemma exec_eq_error (h : (e.exec p).1 = .error err) : e.exec p = (.error err, (e.exec p).2) :=
  Prod.ext h rfl

lemma exec_forM_cons (f : α → Edit PUnit) (a : α) (l : List α) (p : Program) :
    ((a :: l).forM f).exec p = (f a >>= fun _ ↦ l.forM f).exec p := rfl

lemma exec_bind_ok : (e >>= f).exec p = (.ok b, q) ↔
      ∃ a m, e.exec p = (.ok a, m) ∧ (f a).exec m = (.ok b, q) := by
  rw [exec_bind]
  rcases e.exec p with ⟨err | a, m⟩ <;> simp

lemma bind_read_ok : (read query >>= f).exec p = (.ok b, q) ↔ ∃ a, query p = .ok a ∧
    (f a).exec p = (.ok b, q) := by
  rw [exec_bind, exec_read]
  rcases query p with err | a <;> simp

/-! ### What is kept -/

/-- The edit leaves the property alone, whether it succeeds or fails. -/
def Keeps (I : Program → Prop) (e : Edit α) : Prop :=
  ∀ p, I p → I (e.exec p).2

namespace Keeps

lemma pure (a : α) : Keeps I (pure a : Edit α) := fun _ hp ↦ hp

lemma throw (err : Error) : Keeps I (throw err : Edit α) := fun _ hp ↦ hp

lemma get : Keeps I (get : Edit Program) := fun _ hp ↦ hp

lemma read (query : Program → Except Error α) : Keeps I (read query) := by
  intro p hp
  rw [exec_read]
  exact hp

lemma of_bind {J : Program → Prop} (he : J (e.exec p).2) (herror : ∀ q, J q → I q)
    (hf : ∀ a q, J q → I ((f a).exec q).2) : I ((e >>= f).exec p).2 := by
  rw [exec_bind]
  revert he
  rcases e.exec p with ⟨err | a, q⟩ <;> intro hq
  · exact herror q hq
  · exact hf a q hq

lemma bind (he : Keeps I e) (hf : ∀ a, Keeps I (f a)) : Keeps I (e >>= f) := fun p hp ↦
  of_bind (he p hp) (fun _ hq ↦ hq) hf

lemma of_ok (h : Keeps I e) (hp : I p) (hok : e.exec p = (.ok a, q)) : I q := by
  have hkept := h p hp
  rwa [hok] at hkept

lemma forM_of_mem {f : α → Edit PUnit} (hf : ∀ a ∈ l, Keeps I (f a)) : Keeps I (l.forM f) := by
  induction l with
  | nil => exact pure _
  | cons a rest ih =>
    exact bind (hf a mem_cons_self) fun _ ↦ ih fun b hb ↦ hf b (mem_cons_of_mem _ hb)

lemma forM {f : α → Edit PUnit} (hf : ∀ a, Keeps I (f a)) (l : List α) : Keeps I (l.forM f) :=
  forM_of_mem fun a _ ↦ hf a

lemma foldlM_of_mem {f : β → α → Edit β} (hf : ∀ b, ∀ a ∈ l, Keeps I (f b a)) (b : β) :
    Keeps I (l.foldlM f b) := by
  induction l generalizing b with
  | nil => exact pure _
  | cons a rest ih =>
    rw [foldlM_cons]
    exact bind (hf b a mem_cons_self) fun b' ↦ ih (fun c x hx ↦ hf c x (mem_cons_of_mem _ hx)) b'

lemma foldlM {f : β → α → Edit β} (hf : ∀ b a, Keeps I (f b a)) (l : List α) (b : β) :
    Keeps I (l.foldlM f b) :=
  foldlM_of_mem (fun b a _ ↦ hf b a) b

lemma mapM (hf : ∀ a, Keeps I (f a)) (l : List α) : Keeps I (l.mapM f) := by
  induction l with
  | nil => exact pure _
  | cons a rest ih =>
    rw [mapM_cons]
    exact bind (hf a) fun _ ↦ bind ih fun _ ↦ pure _

end Keeps

/-! ### What an edit leads to -/

/-- If the edit succeeds, its answer and the program it leaves have `Q`; if it fails, the program
has `E`. -/
def Leads (e : Edit α) (p : Program) (Q : α → Program → Prop) (E : Program → Prop) : Prop :=
  match e.exec p with
  | (.ok a, q) => Q a q
  | (.error _, q) => E q

namespace Leads

variable {Q : α → Program → Prop} {E : Program → Prop}

lemma of_keeps (h : Keeps I e) (hp : I p) : Leads e p (fun _ ↦ I) I := by
  have hq := h p hp
  unfold Leads
  rcases hrun : e.exec p with ⟨err | a, q⟩ <;> simpa [hrun] using hq

lemma keeps (h : Leads e p (fun _ ↦ I) I) : I (e.exec p).2 := by
  unfold Leads at h
  rcases hrun : e.exec p with ⟨err | a, q⟩ <;> simpa [hrun] using h

lemma imp {R : α → Program → Prop} {F : Program → Prop} (h : Leads e p Q E)
    (hQ : ∀ a q, Q a q → R a q) (hE : ∀ q, E q → F q) : Leads e p R F := by
  unfold Leads at h ⊢
  rcases hrun : e.exec p with ⟨err | a, q⟩
  · exact hE q (by simpa only [hrun] using h)
  · exact hQ a q (by simpa only [hrun] using h)

lemma pure (h : Q a p) : Leads (Pure.pure a) p Q E := h

lemma read (herror : E p) (hok : ∀ a, query p = .ok a → Q a p) : Leads (read query) p Q E := by
  unfold Leads
  rw [exec_read]
  cases hquery : query p with
  | error err => exact herror
  | ok a => exact hok a hquery

lemma bind (he : Leads e p Q E)
    (hf : ∀ a q, Q a q → Leads (f a) q R E) : Leads (e >>= f) p R E := by
  unfold Leads at he ⊢
  rw [exec_bind]
  rcases hrun : e.exec p with ⟨err | a, q⟩
  · simpa only [hrun] using he
  · rw [hrun] at he
    exact hf a q he

lemma bind_of_ok (hok : e.exec p = (.ok a, q))
    (hf : Leads (f a) q R E) : Leads (e >>= f) p R E := by
  unfold Leads
  rw [exec_bind_of_ok hok]
  exact hf

lemma get_bind {f : Program → Edit β} (h : Leads (f p) p R E) : Leads (get >>= f) p R E := h

lemma read_bind (herror : E p)
    (hok : ∀ a, query p = .ok a → Leads (f a) p R E) : Leads (Edit.read query >>= f) p R E := by
  refine .bind (Q := fun a q ↦ query p = .ok a ∧ q = p) (.read herror fun _ h ↦ ⟨h, rfl⟩) ?_
  rintro a q ⟨ha, rfl⟩
  exact hok a ha

lemma foldlM {f : β → α → Edit β} (hstep : ∀ b, ∀ a ∈ l, ∀ q, R b q → Leads (f b a) q R E)
    (hp : R b p) : Leads (l.foldlM f b) p R E := by
  induction l generalizing b p with
  | nil => exact hp
  | cons a rest ih =>
    rw [foldlM_cons]
    refine bind (hstep b a mem_cons_self p hp) fun b' q hq ↦ ih (fun c x hx ↦ ?_) hq
    exact hstep c x (mem_cons_of_mem _ hx)

end Leads

/-! ### Reading entries -/

section Reading

lemma bind_readOp {node : Operation} (h : p.op? o = some node) (f : Operation → Edit β) :
    (read (·.op o) >>= f).exec p = (f node).exec p :=
  exec_bind_of_ok (by rw [exec_read, Program.op, h]) f

lemma bind_readOp_none (h : p.op? o = none) (f : Operation → Edit β) :
    (read (·.op o) >>= f).exec p = (.error (.invalidGraph (.opNotFound o)), p) :=
  exec_bind_of_error (by rw [exec_read, Program.op, h]) f

lemma bind_readValue {value : Value} (h : p.value? v = some value) (f : Value → Edit β) :
    (read (·.value v) >>= f).exec p = (f value).exec p :=
  exec_bind_of_ok (by rw [exec_read, Program.value, h]) f

lemma bind_readRegion {region : Region} (h : p.region? r = some region) (f : Region → Edit β) :
    (read (·.region r) >>= f).exec p = (f region).exec p :=
  exec_bind_of_ok (by rw [exec_read, Program.region, h]) f

end Reading

end TensorGraph.Edit
