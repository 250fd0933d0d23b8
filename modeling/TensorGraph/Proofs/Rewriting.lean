import TensorGraph.Pass.Basic
import TensorGraph.Proofs.Moves

/-!
What rewrites are made of. A loop that succeeds takes all its steps, so an invariant that speaks of
the steps still to come can be carried from one step to the next.
-/

namespace TensorGraph.Edit

open Program List

variable {p q : Program}

variable {α β : Type} {I : List α → Program → Prop} {l : List α} {step : α → Edit Bool}

/-! ### Loops -/

lemma exec_foldlM_cons (f : β → α → Edit β) (b : β) (a : α) (rest : List α) (p : Program) :
    ((a :: rest).foldlM f b).exec p = (f b a >>= fun b' ↦ rest.foldlM f b').exec p := by
  rw [foldlM_cons]

lemma forM_ok {f : α → Edit PUnit}
    (hstep : ∀ a rest p q, I (a :: rest) p → (f a).exec p = (.ok ⟨⟩, q) → I rest q)
    (hp : I l p) (hok : (l.forM f).exec p = (.ok ⟨⟩, q)) : I [] q := by
  induction l generalizing p with
  | nil =>
    cases hok
    exact hp
  | cons a rest ih =>
    rw [exec_forM_cons, exec_bind_ok] at hok
    obtain ⟨_, m, hhead, htail⟩ := hok
    exact ih (hstep a rest p m hp hhead) htail

lemma exec_mapM_read {query : α → Program → Except Error β} {answer : α → β}
    (h : ∀ a ∈ l, query a p = .ok (answer a)) : (l.mapM fun a ↦ read (query a)).exec p =
    (.ok (l.map answer), p) := by
  induction l with
  | nil => rfl
  | cons a rest ih =>
    have hread : (read (query a)).exec p = (.ok (answer a), p) := by
      rw [exec_read, h a mem_cons_self]
    rw [mapM_cons, exec_bind_of_ok hread, exec_bind_of_ok
      (ih fun b hb ↦ h b (mem_cons_of_mem _ hb))]
    rfl

lemma anyChange_ok (hstep : ∀ a rest p q changed, I (a :: rest) p →
    (step a).exec p = (.ok changed, q) → I rest q) {changed : Bool} (hp : I l p)
    (hok : (anyChange l step).exec p = (.ok changed, q)) : I [] q := by
  unfold anyChange at hok
  generalize false = start at hok
  induction l generalizing p start with
  | nil =>
    cases hok
    exact hp
  | cons a rest ih =>
    rw [exec_foldlM_cons, exec_bind_ok] at hok
    obtain ⟨_, m, hhead, htail⟩ := hok
    obtain ⟨here, m', hhere, hdone⟩ := exec_bind_ok.mp hhead
    obtain rfl : m' = m := (Prod.mk.inj hdone).2
    exact ih (hstep a rest p m' here hp hhere) _ htail

lemma Keeps.anyChange_of_mem {I : Program → Prop} (hstep : ∀ a ∈ l, Keeps I (step a)) :
    Keeps I (anyChange l step) :=
  .foldlM_of_mem (fun _ a ha ↦ .bind (hstep a ha) fun _ ↦ .pure _) false

lemma Keeps.anyChange {I : Program → Prop} (hstep : ∀ a, Keeps I (step a)) (l : List α) :
    Keeps I (anyChange l step) :=
  .anyChange_of_mem fun a _ ↦ hstep a

lemma exec_anyChange (I : Program → Prop) (next : Program → α → Program) (hstep : ∀ a ∈ l, ∀ p,
    I p → I (next p a) ∧ ∃ changed, (step a).exec p = (.ok changed, next p a)) (hp : I p) :
    ∃ changed, (anyChange l step).exec p = (.ok changed, l.foldl next p) := by
  unfold anyChange
  generalize false = start
  induction l generalizing p start with
  | nil => exact ⟨start, rfl⟩
  | cons a rest ih =>
    obtain ⟨hnext, here, hhere⟩ := hstep a mem_cons_self p hp
    rw [exec_foldlM_cons, exec_bind_of_ok ((exec_bind_of_ok hhere _).trans rfl)]
    exact ih (fun b hb ↦ hstep b (mem_cons_of_mem _ hb)) hnext _

/-! ### Reachable programs -/

lemma Keeps.reachable (command : Command) {e : Edit α} {outcome : α → Outcome}
    (hrun : command.run = e >>= fun a ↦ Pure.pure (outcome a)) : Keeps Reachable e := by
  intro p hp
  have hstep : Reachable ((e >>= fun a ↦ Pure.pure (outcome a)).exec p).2 := hrun ▸ hp.step command
  rw [exec_bind] at hstep
  revert hstep
  rcases e.exec p with ⟨_ | a, q⟩
  · exact id
  · exact id

end TensorGraph.Edit
