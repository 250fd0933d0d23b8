/-!
Finite maps from names. The entries are kept in strictly ascending order of their names, so a map
has one representation and is listed in the order of its names whatever the order of the writes was.
-/

namespace TensorGraph

/-- The list of entries with `name` bound to `value`, at the place that keeps the names
ascending. -/
def insertEntry {α : Type} (name : String) (value : α) : List (String × α) → List (String × α)
  | [] => [(name, value)]
  | (other, old) :: rest =>
    if name < other then (name, value) :: (other, old) :: rest
    else if name = other then (name, value) :: rest
    else (other, old) :: insertEntry name value rest

theorem mem_insertEntry {α : Type} {name : String} {value : α} {entry : String × α}
    {entries : List (String × α)} (h : entry ∈ insertEntry name value entries) :
    entry = (name, value) ∨ entry ∈ entries := by
  induction entries with
  | nil => simpa [insertEntry] using h
  | cons head rest ih =>
    obtain ⟨other, old⟩ := head
    unfold insertEntry at h
    split at h
    · simpa using h
    · split at h
      · simp only [List.mem_cons] at h ⊢
        exact h.imp_right Or.inr
      · simp only [List.mem_cons] at h ⊢
        rcases h with h | h
        · exact .inr (.inl h)
        · exact (ih h).imp_right Or.inr

private theorem name_lt_of_not {name other : String} (hlt : ¬name < other) (hne : ¬name = other) :
    other < name := by
  by_cases h : other < name
  · exact h
  · exact absurd (String.le_antisymm (String.not_lt.1 h) (String.not_lt.1 hlt)) hne

theorem insertEntry_ascending {α : Type} (name : String) (value : α)
    {entries : List (String × α)} (h : entries.Pairwise fun a b ↦ a.1 < b.1) :
    (insertEntry name value entries).Pairwise fun a b ↦ a.1 < b.1 := by
  induction entries with
  | nil => simp [insertEntry]
  | cons head rest ih =>
    obtain ⟨other, old⟩ := head
    rw [List.pairwise_cons] at h
    unfold insertEntry
    split
    next hlt =>
      refine List.pairwise_cons.2 ⟨fun entry hmem ↦ ?_, List.pairwise_cons.2 h⟩
      rcases List.mem_cons.1 hmem with rfl | hmem
      · exact hlt
      · exact String.lt_trans hlt (h.1 entry hmem)
    next hlt =>
      split
      next heq =>
        subst heq
        exact List.pairwise_cons.2 ⟨fun entry hmem ↦ h.1 entry hmem, h.2⟩
      next hne =>
        refine List.pairwise_cons.2 ⟨fun entry hmem ↦ ?_, ih h.2⟩
        rcases mem_insertEntry hmem with rfl | hmem
        · exact name_lt_of_not hlt hne
        · exact h.1 entry hmem

/-- A finite map from names to `α`. -/
structure NameMap (α : Type) where
  entries : List (String × α)
  ascending : entries.Pairwise fun a b ↦ a.1 < b.1 := by simp

namespace NameMap

variable {α : Type}

def empty : NameMap α where
  entries := []

instance : Inhabited (NameMap α) := ⟨empty⟩

instance : EmptyCollection (NameMap α) := ⟨empty⟩

@[ext]
theorem ext {a b : NameMap α} (h : a.entries = b.entries) : a = b := by
  cases a
  cases b
  cases h
  rfl

def get? (m : NameMap α) (name : String) : Option α :=
  m.entries.lookup name

def contains (m : NameMap α) (name : String) : Bool :=
  (m.get? name).isSome

def size (m : NameMap α) : Nat :=
  m.entries.length

def isEmpty (m : NameMap α) : Bool :=
  m.entries.isEmpty

section

variable (m : NameMap α)

def names : List String :=
  m.entries.map (·.1)

/-- Binds `name` to `value`, in place of what it was bound to. -/
def insert (name : String) (value : α) : NameMap α where
  entries := insertEntry name value m.entries
  ascending := insertEntry_ascending name value m.ascending

def filterNames (keep : String → Bool) : NameMap α where
  entries := m.entries.filter fun entry ↦ keep entry.1
  ascending := m.ascending.filter _

def erase (name : String) : NameMap α :=
  m.filterNames (· ≠ name)

end

/-- The map after the writes of a list, in order, so a later write wins. -/
def ofList (writes : List (String × α)) : NameMap α :=
  writes.foldl (fun m write ↦ m.insert write.1 write.2) empty

end NameMap

end TensorGraph
