import Mathlib.Data.String.Basic
import TensorGraph.NameMap

/-!
Finite maps by what they hold: what is looked up in a list of entries, and how each change to a map
shows. A map is determined by the values it gives for names, as its entries ascend.
-/

namespace TensorGraph

open List Option

variable {α κ : Type} {key name : String} {entries : List (κ × α)} {m : NameMap α} {value : α}

section

variable [BEq κ] [LawfulBEq κ] {key : κ}

lemma lookup_cons_eq_ite [DecidableEq κ] (name : κ) (value : α) (rest : List (κ × α)) (key : κ)
    : ((name, value) :: rest).lookup key = if key = name then some value else rest.lookup key := by
  rw [lookup_cons]
  by_cases hkey : key = name
  · simp [hkey]
  · rw [if_neg hkey, beq_eq_false_iff_ne.mpr hkey]

lemma mem_of_lookup_eq_some (h : entries.lookup key = some value) : (key, value) ∈ entries := by
  obtain ⟨front, back, rfl, -⟩ := lookup_eq_some_iff.mp h
  exact mem_append_right _ mem_cons_self

lemma lookup_isSome_iff [DecidableEq κ] :
    (entries.lookup key).isSome ↔ key ∈ entries.map (·.1) := by
  induction entries with
  | nil => simp
  | cons entry rest ih =>
    rw [lookup_cons_eq_ite entry.1 entry.2, map_cons, mem_cons, ← ih]
    by_cases hkey : key = entry.1 <;> simp [hkey]

lemma lookup_eq_none_of_not_mem [DecidableEq κ]
    (h : key ∉ entries.map (·.1)) : entries.lookup key = none := by
  rwa [← not_isSome_iff_eq_none, lookup_isSome_iff]

end

lemma lookup_insertEntry (name : String) (value : α) (entries : List (String × α)) (key : String) :
    (insertEntry name value entries).lookup key = if key =
    name then some value else entries.lookup key := by
  induction entries with
  | nil => exact lookup_cons_eq_ite name value [] key
  | cons head rest ih =>
    obtain ⟨other, old⟩ := head
    unfold insertEntry
    by_cases hlt : name < other
    · rw [if_pos hlt, lookup_cons_eq_ite]
    · rw [if_neg hlt]
      by_cases heq : name = other
      · subst heq
        rw [if_pos rfl, lookup_cons_eq_ite, lookup_cons_eq_ite]
        split_ifs <;> rfl
      · rw [if_neg heq, lookup_cons_eq_ite, lookup_cons_eq_ite, ih]
        by_cases hkey : key = name
        · rw [if_pos hkey, if_pos hkey, if_neg (hkey ▸ heq)]
        · rw [if_neg hkey, if_neg hkey]

lemma lookup_eq_none_of_lt {entries : List (String × α)} (h : ∀ entry ∈ entries, key < entry.1) :
    entries.lookup key = none := by
  refine lookup_eq_none_of_not_mem fun hmem ↦ ?_
  obtain ⟨entry, hentry, rfl⟩ := mem_map.mp hmem
  exact lt_irrefl _ (h entry hentry)

lemma lookup_filter_ne [BEq κ] [LawfulBEq κ] [DecidableEq κ] (entries : List (κ × α))
    (name key : κ) : (entries.filter fun entry ↦ decide (entry.1 ≠ name)).lookup key =
      if key = name then none else entries.lookup key := by
  induction entries with
  | nil => simp
  | cons head rest ih =>
    obtain ⟨other, value⟩ := head
    rw [lookup_cons_eq_ite]
    by_cases hother : other = name
    · rw [filter_cons_of_neg (by simpa using hother), ih]
      by_cases hkey : key = name
      · rw [if_pos hkey, if_pos hkey]
      · rw [if_neg hkey, if_neg hkey, if_neg (hother ▸ hkey)]
    · rw [filter_cons_of_pos (by simpa using hother), lookup_cons_eq_ite, ih]
      by_cases hkey : key = name
      · rw [if_pos hkey, if_pos hkey, if_neg fun h ↦ hother (h.symm.trans hkey)]
      · rw [if_neg hkey, if_neg hkey]

lemma eq_of_lookup_eq {xs ys : List (String × α)} (hxs : xs.Pairwise fun a b ↦ a.1 < b.1)
    (hys : ys.Pairwise fun a b ↦ a.1 < b.1) (h : ∀ key, xs.lookup key = ys.lookup key) :
    xs = ys := by
  induction xs generalizing ys with
  | nil =>
    cases ys with
    | nil => rfl
    | cons y ys =>
      have hy := h y.1
      rw [lookup_cons_eq_ite y.1 y.2, if_pos rfl] at hy
      cases hy
  | cons x xs ih =>
    obtain ⟨a, u⟩ := x
    obtain ⟨hfirst, hrest⟩ := pairwise_cons.mp hxs
    cases ys with
    | nil =>
      have hx := h a
      rw [lookup_cons_eq_ite, if_pos rfl] at hx
      cases hx
    | cons y ys =>
      obtain ⟨b, w⟩ := y
      obtain ⟨hfirst', hrest'⟩ := pairwise_cons.mp hys
      -- The smaller of the two first names would have no value in the other list.
      have hab : a = b := by
        rcases lt_trichotomy a b with hlt | heq | hgt
        · have hnone := h a
          rw [lookup_cons_eq_ite, if_pos rfl, lookup_cons_eq_ite, if_neg hlt.ne,
            lookup_eq_none_of_lt fun entry hentry ↦ hlt.trans (hfirst' entry hentry)] at hnone
          cases hnone
        · exact heq
        · have hnone := h b
          rw [lookup_cons_eq_ite, if_neg hgt.ne, lookup_cons_eq_ite, if_pos rfl,
            lookup_eq_none_of_lt fun entry hentry ↦ hgt.trans (hfirst entry hentry)] at hnone
          cases hnone
      subst hab
      have huw : u = w := by
        have hsame := h a
        rw [lookup_cons_eq_ite, if_pos rfl, lookup_cons_eq_ite, if_pos rfl] at hsame
        exact some.inj hsame
      rw [huw, ih hrest hrest' fun key ↦ ?_]
      by_cases hkey : key = a
      · rw [hkey, lookup_eq_none_of_lt hfirst, lookup_eq_none_of_lt hfirst']
      · have hsame := h key
        rwa [lookup_cons_eq_ite, if_neg hkey, lookup_cons_eq_ite, if_neg hkey] at hsame

namespace NameMap

lemma get?_insert (m : NameMap α) (name : String) (value : α) (key : String) :
    (m.insert name value).get? key = if key = name then some value else m.get? key :=
  lookup_insertEntry name value m.entries key

lemma get?_erase (m : NameMap α) (name key : String) :
    (m.erase name).get? key = if key = name then none else m.get? key :=
  lookup_filter_ne m.entries name key

lemma eq_of_get?_eq {a b : NameMap α} (h : ∀ key, a.get? key = b.get? key) : a = b :=
  ext (eq_of_lookup_eq a.ascending b.ascending h)

lemma mem_of_get?_ofList {writes : List (String × α)}
    (h : (ofList writes).get? key = some value) : (key, value) ∈ writes := by
  have hgeneral (l : List (String × α)) (m : NameMap α)
      (hl : (l.foldl (fun m write ↦ m.insert write.1 write.2) m).get? key = some value) :
      (key, value) ∈ l ∨ m.get? key = some value := by
    induction l generalizing m with
    | nil => exact .inr hl
    | cons write rest ih =>
      rcases ih _ hl with hrest | hinsert
      · exact .inl (mem_cons_of_mem _ hrest)
      · rw [get?_insert] at hinsert
        by_cases hkey : key = write.1
        · rw [if_pos hkey] at hinsert
          rw [hkey, ← some.inj hinsert]
          exact .inl mem_cons_self
        · rw [if_neg hkey] at hinsert
          exact .inr hinsert
  rcases hgeneral writes empty h with hmem | hnone
  · exact hmem
  · cases hnone

lemma erase_of_get?_eq_none (h : m.get? name = none) : m.erase name = m := by
  refine eq_of_get?_eq fun key ↦ ?_
  rw [get?_erase]
  by_cases hkey : key = name
  · rw [if_pos hkey, hkey, h]
  · rw [if_neg hkey]

lemma erase_eq_self_iff : m.erase name = m ↔ m.contains name = false := by
  rw [contains, isSome_eq_false_iff, isNone_iff_eq_none]
  constructor
  · intro heq
    rw [← heq, get?_erase, if_pos rfl]
  · exact erase_of_get?_eq_none

end NameMap

end TensorGraph
