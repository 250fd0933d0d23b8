import TensorGraph.Pass.GraphFunction
import TensorGraph.Proofs.NameMaps
import TensorGraph.Proofs.Verification

/-!
References to results. A reference is written as a name, a colon and the number of a result, and a
list of references with commas. Whatever is written so is read back, with any blanks around the
commas.
-/

namespace TensorGraph

open List

namespace Text

variable {separator : Char} {bound value : Nat} {cs before after blanks : List Char}

lemma fields_eq_splitOn (separator : Char) (cs : List Char) :
    fields separator cs = cs.splitOn separator := by
  induction cs with
  | nil => rfl
  | cons c rest ih =>
    rw [fields, ih]
    unfold splitOn
    rw [splitOnP_cons_eq_if_modifyHead]
    by_cases hc : c = separator
    · rw [if_pos hc, if_pos (beq_iff_eq.mpr hc)]
    · rw [if_neg hc, if_neg (mt beq_iff_eq.mp hc)]
      cases hrest : splitOnP (· == separator) rest with
      | nil => exact absurd hrest (splitOnP_ne_nil _ _)
      | cons field others => rfl

lemma trimStart_append (hblanks : ∀ c ∈ blanks, isBlank c)
    (hfirst : ∀ c ∈ cs.head?, isBlank c = false) : trimStart (blanks ++ cs) = cs := by
  unfold trimStart
  rw [dropWhile_append_of_pos hblanks]
  cases cs with
  | nil => rfl
  | cons c rest => simp [hfirst c rfl]

lemma trimEnd_append (hblanks : ∀ c ∈ blanks, isBlank c)
    (hlast : ∀ c ∈ cs.getLast?, isBlank c = false) : trimEnd (cs ++ blanks) = cs := by
  have h : trimStart (blanks.reverse ++ cs.reverse) = cs.reverse :=
    trimStart_append (by simpa using hblanks) (by simpa using hlast)
  unfold trimEnd
  rw [reverse_append]
  exact (congrArg reverse h).trans cs.reverse_reverse

lemma cutAtLast_eq_none (h : separator ∉ cs) : cutAtLast separator cs = none := by
  induction cs with
  | nil => rfl
  | cons c rest ih =>
    obtain ⟨hc, hrest⟩ := not_or.mp (mt mem_cons.mpr h)
    rw [cutAtLast, ih hrest, if_neg (Ne.symm hc)]

lemma cutAtLast_append (h : separator ∉ after) :
    cutAtLast separator (before ++ separator :: after) = some (before, after) := by
  induction before with
  | nil => rw [nil_append, cutAtLast, cutAtLast_eq_none h, if_pos rfl]
  | cons c rest ih => rw [cons_append, cutAtLast, ih]

lemma isDigit_of_mem_digits {c : Char} {n : Nat} (h : c ∈ Nat.toDigits 10 n) : c.isDigit :=
  Nat.isDigit_of_mem_toDigits (by decide) (by decide) h

lemma isBlank_of_isDigit {c : Char} (h : c.isDigit) : isBlank c = false := by
  obtain ⟨hlow, hhigh⟩ := Char.isDigit_iff_toNat.mp h
  have hlow : 48 ≤ c.toNat := hlow
  have hhigh : c.toNat ≤ 57 := hhigh
  simp only [isBlank, Bool.or_eq_false_iff, Bool.and_eq_false_iff, beq_eq_false_iff_ne,
    decide_eq_false_iff_not]
  omega

lemma le_ofDigitChars (cs : List Char) (value : Nat) : value ≤ Nat.ofDigitChars 10 cs value := by
  induction cs generalizing value with
  | nil => exact Nat.le_refl _
  | cons c rest ih =>
    rw [Nat.ofDigitChars_cons]
    exact Nat.le_trans (by omega) (ih _)

lemma readDigits_eq_ok (hdigits : ∀ c ∈ cs, c.isDigit)
    (hbound : Nat.ofDigitChars 10 cs value < bound) : readDigits bound cs value = .ok
    (Nat.ofDigitChars 10 cs value) := by
  induction cs generalizing value with
  | nil => rfl
  | cons c rest ih =>
    rw [Nat.ofDigitChars_cons, Nat.mul_comm] at hbound ⊢
    rw [readDigits, if_pos (hdigits c mem_cons_self)]
    -- What has been read so far is no more than the whole number.
    have hnext := Nat.lt_of_le_of_lt (le_ofDigitChars rest _) hbound
    rw [if_pos hnext]
    exact ih (fun d hd ↦ hdigits d (mem_cons_of_mem _ hd)) hbound

lemma readNumeral_toDigits {n : Nat} (h : n < bound) :
    readNumeral bound (Nat.toDigits 10 n) = .ok n := by
  have hdigits : ∀ c ∈ Nat.toDigits 10 n, c.isDigit := fun _ ↦ isDigit_of_mem_digits
  have hvalue : Nat.ofDigitChars 10 (Nat.toDigits 10 n) 0 = n := Nat.ofDigitChars_ten_toDigits
  have hread := readDigits_eq_ok hdigits (hvalue.symm ▸ h)
  rw [hvalue] at hread
  unfold readNumeral
  split
  · next hnil => exact absurd hnil Nat.toDigits_ne_nil
  · next hplus => exact absurd (hdigits '+' (hplus ▸ mem_cons_self)) (by decide)
  · next hplus => exact absurd (hdigits '+' (hplus ▸ mem_cons_self)) (by decide)
  · exact hread

end Text

namespace GraphFunction

open Program Text

variable {ref : String × Nat} {text : String}

def writeRef (ref : String × Nat) : String :=
  ref.1 ++ ":" ++ toString ref.2

/-- The name has no comma and starts with no blank, and the number of the result is a size. -/
structure Writable (ref : String × Nat) : Prop where
  noComma : ',' ∉ ref.1.toList
  noBlank : ∀ c ∈ ref.1.toList.head?, isBlank c = false
  index : ref.2 < UInt64.size

/-- The text with blanks before and after it. -/
def Padded (text padded : String) : Prop :=
  ∃ before after : String, (∀ c ∈ before.toList, isBlank c) ∧ (∀ c ∈ after.toList, isBlank c) ∧
    padded = before ++ text ++ after

lemma toList_writeRef (ref : String × Nat) :
    (writeRef ref).toList = ref.1.toList ++ ':' :: Nat.toDigits 10 ref.2 := by
  simp [writeRef]

lemma parseRef_writeRef (h : ref.2 < UInt64.size) : parseRef (writeRef ref) = .ok ref := by
  have hcolon : ':' ∉ Nat.toDigits 10 ref.2 :=
    fun hmem ↦ absurd (isDigit_of_mem_digits hmem) (by decide)
  unfold parseRef
  rw [toList_writeRef, cutAtLast_append hcolon]
  dsimp only
  rw [readNumeral_toDigits h]
  exact congrArg (fun name ↦ Except.ok (name, ref.2)) String.ofList_toList

lemma noComma_of_padded (h : Writable ref) (hpadded : Padded (writeRef ref) text) :
    ',' ∉ text.toList := by
  obtain ⟨before, after, hbefore, hafter, rfl⟩ := hpadded
  have hblank : isBlank ',' ≠ true := by decide
  simp only [String.toList_append, toList_writeRef, mem_append, mem_cons, not_or]
  refine ⟨⟨fun hmem ↦ hblank (hbefore _ hmem), h.noComma, by decide, fun hmem ↦ ?_⟩, fun hmem ↦
    hblank (hafter _ hmem)⟩
  exact absurd (isDigit_of_mem_digits hmem) (by decide)

lemma trim_of_padded (h : Writable ref) (hpadded : Padded (writeRef ref) text) :
    trim text.toList = (writeRef ref).toList := by
  obtain ⟨before, after, hbefore, hafter, rfl⟩ := hpadded
  have hfirst : ∀ c ∈ ((writeRef ref).toList ++ after.toList).head?, isBlank c = false := by
    intro c hc
    rw [toList_writeRef] at hc
    cases hname : ref.1.toList with
    | nil =>
      rw [hname] at hc
      cases hc
      decide
    | cons d rest =>
      rw [hname] at hc
      exact h.noBlank c (hname ▸ hc)
  have hlast : ∀ c ∈ (writeRef ref).toList.getLast?, isBlank c = false := by
    intro c hc
    rw [toList_writeRef, getLast?_append_of_ne_nil _ (cons_ne_nil _ _),
      getLast?_cons_of_ne_nil Nat.toDigits_ne_nil] at hc
    exact isBlank_of_isDigit (isDigit_of_mem_digits (mem_of_mem_getLast? hc))
  unfold trim
  rw [String.toList_append, String.toList_append, append_assoc, trimStart_append hbefore hfirst,
    trimEnd_append hafter hlast]

section

variable {refs : List (String × Nat)} {texts : List String} (hrefs : ∀ ref ∈ refs, Writable ref)

include hrefs

lemma trims_of_padded (htexts : Forall₂ (fun ref text ↦ Padded (writeRef ref) text) refs texts) :
    (∀ part ∈ texts.map String.toList, ',' ∉ part) ∧
      (texts.map String.toList).map trim = refs.map fun ref ↦ (writeRef ref).toList := by
  induction htexts with
  | nil => exact ⟨fun _ h ↦ absurd h not_mem_nil, rfl⟩
  | cons hpadded _ ih =>
    have href := hrefs _ mem_cons_self
    obtain ⟨hcommas, htrims⟩ := ih fun ref hmem ↦ hrefs ref (mem_cons_of_mem _ hmem)
    refine ⟨forall_mem_cons.mpr ⟨noComma_of_padded href hpadded, hcommas⟩, ?_⟩
    rw [map_cons, map_cons, trim_of_padded href hpadded, htrims, map_cons]

lemma entriesOf_intercalate
    (htexts : Forall₂ (fun ref text ↦ Padded (writeRef ref) text) refs texts) :
    Options.entriesOf (String.intercalate "," texts) = refs.map writeRef := by
  obtain ⟨hcommas, htrims⟩ := trims_of_padded hrefs htexts
  have hfilled : ∀ part ∈ refs.map fun ref ↦ (writeRef ref).toList, (!part.isEmpty) = true := by
    intro part hpart
    obtain ⟨ref, -, rfl⟩ := mem_map.mp hpart
    simp [toList_writeRef]
  unfold Options.entriesOf
  rw [fields_eq_splitOn, String.toList_intercalate]
  cases htexts with
  | nil => rfl
  | cons =>
    have hfields := splitOn_intercalate ',' hcommas (by simp)
    rw [show ",".toList = [','] from rfl, hfields, htrims, filter_eq_self.mpr hfilled]
    simp

end

/-- Whatever references are written into an option, they are read back from it. -/
theorem references_read_back (options : Options) (key : String)
    {refs : List (String × Nat)} {texts : List String} (hrefs : ∀ ref ∈ refs, Writable ref)
    (htexts : Forall₂ (fun ref text ↦ Padded (writeRef ref) text) refs texts) :
    (Options.getList (options.insert key (String.intercalate "," texts)) key).mapM parseRef =
    .ok refs := by
  have hget : (options.insert key (String.intercalate "," texts)).get? key = some
      (String.intercalate "," texts) := by
    rw [NameMap.get?_insert, if_pos rfl]
  unfold Options.getList
  rw [hget]
  dsimp only
  rw [entriesOf_intercalate hrefs htexts, check_mapM_eq_ok, forall₂_map_left_iff, forall₂_same]
  exact fun ref hmem ↦ parseRef_writeRef (hrefs ref hmem).index

/-- An empty name, a name that looks like a reference and one with blanks, unevenly spaced. -/
theorem references_read_back_uneven : (Options.getList (NameMap.empty.insert "feeds"
      (String.intercalate "," ["\t:0 ", "a:3:1", " x y :18446744073709551615"]))
      "feeds").mapM parseRef = .ok [("", 0), ("a:3", 1), ("x y ", 18446744073709551615)] := by
  refine references_read_back _ _ ?_
    (.cons ⟨"\t", " ", ?_⟩ (.cons ⟨"", "", ?_⟩ (.cons ⟨" ", "", ?_⟩ .nil)))
  · simp only [forall_mem_cons]
    exact ⟨⟨by decide, by simp [isBlank], by decide⟩, ⟨by decide, by simp [isBlank], by decide⟩,
      ⟨by decide, by simp [isBlank], by decide⟩, nofun⟩
  · exact ⟨by simp [isBlank], by simp [isBlank], by decide⟩
  · exact ⟨by simp [isBlank], by simp [isBlank], by decide⟩
  · exact ⟨by simp [isBlank], by simp [isBlank], by decide⟩

end GraphFunction

end TensorGraph
