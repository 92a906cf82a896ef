import TemplateTags.Component.Name
import TemplateTags.Proofs.Text.Casing
import TemplateTags.Proofs.Text.Runs

/-!
# Names are cased by their words

Separators can stand before, between and behind the words of a name, and any number of them.
None of this shows in the studly and the camel form, which are made from the words alone.

## 1.  Words

`HasWords t ws` goes through the text `t` from the front: a separator is passed over, and a
word is a run of other characters that does not go on.  So the words are the maximal runs,
and every text has exactly one list of them, the one that splitting the text at its
separators and leaving out the empty parts gives (`hasWords_iff`).

## 2.  Forms

The camel form differs from the studly form in its first character alone, and a capital there
gives the studly form back (`upperFirst_camel`).  So nothing is lost if a part of a type name
is first put in camel form and then given a capital (`typePart_eq_studly`).  Changing the case
of a character makes no separator, so the camel form is one word, or empty, and is its own
camel form (`camel_camel`).
-/

namespace TemplateTags

theorem Character.isCaseless_of_isWordSeparator {c : Char}
    (h : Text.isWordSeparator c = true) : IsCaseless c := by
  simp only [Text.isWordSeparator, isWhiteSpace, Bool.or_eq_true, Bool.and_eq_true,
    decide_eq_true_eq] at h
  rcases h with (rfl | rfl) | h
  · decide
  · decide
  · unfold IsCaseless
    omega

namespace Text

/-! ## Words -/

/-- The words of a text: the runs of characters that separate nothing, each as long as it
can be. -/
inductive HasWords : Text → List Text → Prop where
  | nil : HasWords [] []
  | separator {c : Char} {t : Text} {ws : List Text} :
      isWordSeparator c = true → HasWords t ws → HasWords (c :: t) ws
  | word {w t : Text} {ws : List Text} :
      w ≠ [] → (∀ c ∈ w, isWordSeparator c = false) → Stops (fun c => !isWordSeparator c) t →
      HasWords t ws → HasWords (w ++ t) (w :: ws)

variable {c : Char} {t w : Text} {ws : List Text}

theorem words_append_separator (hc : isWordSeparator c = true) (s t : Text) :
    words (s ++ c :: t) = words s ++ words t := by
  rw [words, List.splitOnP_append_cons s t hc, List.filter_append]
  rfl

theorem words_separator (hc : isWordSeparator c = true) (t : Text) : words (c :: t) = words t :=
  words_append_separator hc [] t

theorem words_of_forall (hne : w ≠ []) (hw : ∀ c ∈ w, isWordSeparator c = false) :
    words w = [w] := by
  rw [words, List.splitOnP_eq_singleton hw]
  simp [hne]

theorem words_append (hne : w ≠ []) (hw : ∀ c ∈ w, isWordSeparator c = false)
    (ht : Stops (fun c => !isWordSeparator c) t) : words (w ++ t) = w :: words t := by
  cases t with
  | nil => rw [List.append_nil, words_of_forall hne hw]; rfl
  | cons c t =>
    have hc : isWordSeparator c = true := by simpa using ht
    rw [words_append_separator hc, words_of_forall hne hw, words_separator hc]
    rfl

theorem HasWords.words_eq (h : HasWords t ws) : words t = ws := by
  induction h with
  | nil => rfl
  | separator hc _ ih => rw [words_separator hc, ih]
  | word hne hw ht _ ih => rw [words_append hne hw ht, ih]

theorem hasWords_words (t : Text) : HasWords t (words t) := by
  induction hn : t.length using Nat.strong_induction_on generalizing t with
  | _ n ih =>
    obtain ⟨w, r, rfl, hw, hr⟩ := exists_eq_append_stops (fun c => !isWordSeparator c) t
    have hw' : ∀ c ∈ w, isWordSeparator c = false := by simpa using hw
    rw [List.length_append] at hn
    cases w with
    | cons c w =>
      rw [words_append (List.cons_ne_nil c w) hw' hr]
      exact .word (List.cons_ne_nil c w) hw' hr (ih _ (by rw [← hn, List.length_cons]; omega) r rfl)
    | nil =>
      cases r with
      | nil => exact .nil
      | cons c r =>
        have hc : isWordSeparator c = true := by simpa using hr
        rw [List.nil_append, words_separator hc]
        exact .separator hc (ih _ (by rw [← hn, List.length_cons]; omega) r rfl)

/-- Every text has exactly one list of words. -/
theorem hasWords_iff : HasWords t ws ↔ words t = ws :=
  ⟨HasWords.words_eq, fun h => h ▸ hasWords_words t⟩

theorem HasWords.not_isWordSeparator (h : HasWords t ws) :
    ∀ w ∈ ws, ∀ c ∈ w, isWordSeparator c = false := by
  induction h with
  | nil => simp
  | separator _ _ ih => exact ih
  | word _ hw _ _ ih => exact List.forall_mem_cons.2 ⟨hw, ih⟩

/-- Words have first characters. -/
theorem HasWords.exists_eq_map (h : HasWords t ws) :
    ∃ cs : List (Char × Text), ws = cs.map fun w => w.1 :: w.2 := by
  induction h with
  | nil => exact ⟨[], rfl⟩
  | separator _ _ ih => exact ih
  | word hne _ _ _ ih =>
    obtain ⟨c, w, rfl⟩ := List.exists_cons_of_ne_nil hne
    obtain ⟨cs, rfl⟩ := ih
    exact ⟨(c, w) :: cs, rfl⟩

/-! ## Forms -/

/-- The studly form of words whose first characters are given. -/
theorem HasWords.studly_eq {cs : List (Char × Text)} (h : HasWords t (cs.map fun w => w.1 :: w.2)) :
    studly t = cs.flatMap fun w => w.1.toUpper :: w.2 := by
  rw [studly, h.words_eq, List.flatMap_map]
  rfl

theorem camel_of_studly_cons (h : studly t = c :: w) : camel t = c.toLower :: w := by
  rw [camel, h, lowerFirst]

/-- The camel form with a capital first letter is the studly form again. -/
theorem upperFirst_camel (t : Text) : upperFirst (camel t) = studly t := by
  obtain ⟨cs, hcs⟩ := (hasWords_words t).exists_eq_map
  have hstudly := HasWords.studly_eq (hcs ▸ hasWords_words t)
  cases cs with
  | nil => rw [camel, hstudly]; rfl
  | cons w cs =>
    rw [List.flatMap_cons, List.cons_append] at hstudly
    rw [camel_of_studly_cons hstudly, hstudly, upperFirst, Character.toUpper_toLower_toUpper]

theorem studly_of_forall (h : ∀ c ∈ t, isWordSeparator c = false) : studly t = upperFirst t := by
  cases t with
  | nil => rfl
  | cons c t => rw [studly, words_of_forall (List.cons_ne_nil c t) h, List.flatMap_singleton]

/-- No separator is left in the camel form. -/
theorem not_isWordSeparator_of_mem_camel (t : Text) :
    ∀ c ∈ camel t, isWordSeparator c = false := by
  intro c hc
  by_contra hs
  rw [Bool.not_eq_false] at hs
  refine notMem_camel_of_words (Character.isCaseless_of_isWordSeparator hs) (fun w hw hm => ?_) hc
  rw [(hasWords_words t).not_isWordSeparator w hw c hm] at hs
  cases hs

/-- A name in camel form stays as it is. -/
theorem camel_camel (t : Text) : camel (camel t) = camel t :=
  calc camel (camel t)
      = lowerFirst (upperFirst (camel t)) := by
        rw [camel, studly_of_forall (not_isWordSeparator_of_mem_camel t)]
    _ = lowerFirst (studly t) := by rw [upperFirst_camel]
    _ = camel t := rfl

end Text

namespace Component

open Text (HasWords studly camel upperFirst lowerFirst isWordSeparator)

/-! ## Type names -/

/-- The sections of a name: what stands between its dots. -/
def HasSections (t : Text) (parts : List Text) : Prop :=
  parts ≠ [] ∧ (∀ p ∈ parts, '.' ∉ p) ∧ List.intercalate ['.'] parts = t

/-- The way through the camel form loses nothing. -/
theorem typePart_eq_studly (part : Text) : typePart part = studly part := by
  rw [typePart, Text.upperFirst_camel]

theorem hasSections_splitOn (t : Text) : HasSections t (t.splitOn '.') := by
  refine ⟨List.splitOn_ne_nil _ _, fun p hp hdot => ?_, List.intercalate_splitOn _⟩
  rw [List.splitOn_eq_splitOnP] at hp
  exact absurd (Text.mem_of_mem_splitOnP hp hdot).2 (by simp)

/-- Every name has exactly one list of sections. -/
theorem hasSections_iff {t : Text} {parts : List Text} :
    HasSections t parts ↔ t.splitOn '.' = parts := by
  constructor
  · rintro ⟨hne, hdot, rfl⟩
    exact List.splitOn_intercalate _ hdot hne
  · rintro rfl
    exact hasSections_splitOn t

/-- **The forms of a name depend on its words alone.**  Every name has one list of words.  The
studly form is made of these with capital first letters, the camel form is the studly form
with a small first letter, and so names with the same words have the same forms.  What changes
is the first character `w.1` of each word `w.1 :: w.2`, and then that of the studly form.  No
separator is left in the camel form, which is its own camel form.  A type name is made of the
studly forms of the sections of a name, with backslashes between them. -/
theorem forms_of_words (t : Text) :
    (∃! ws, HasWords t ws) ∧
      (∀ ws, HasWords t ws →
        studly t = ws.flatMap upperFirst ∧ camel t = lowerFirst (ws.flatMap upperFirst) ∧
        ∀ s, HasWords s ws → studly s = studly t ∧ camel s = camel t) ∧
      (∀ ws, HasWords t ws → ∃ cs : List (Char × Text), ws = cs.map (fun w => w.1 :: w.2) ∧
        studly t = cs.flatMap (fun w => w.1.toUpper :: w.2)) ∧
      (studly t = [] ∧ camel t = [] ∨ ∃ c r, studly t = c :: r ∧ camel t = c.toLower :: r) ∧
      (∀ c ∈ camel t, isWordSeparator c = false) ∧
      camel (camel t) = camel t ∧
      (∃! parts, HasSections t parts) ∧
      ∀ parts, HasSections t parts →
        typeName t = List.intercalate ['\\'] (parts.map studly) := by
  refine ⟨⟨_, Text.hasWords_words t, fun ws h => (Text.hasWords_iff.1 h).symm⟩, fun ws h => ?_,
    fun ws h => ?_, ?_, Text.not_isWordSeparator_of_mem_camel t, Text.camel_camel t,
    ⟨_, hasSections_splitOn t, fun parts h => (hasSections_iff.1 h).symm⟩, fun parts h => ?_⟩
  · have hstudly : ∀ {s}, HasWords s ws → studly s = ws.flatMap upperFirst := fun hs => by
      rw [studly, Text.hasWords_iff.1 hs]
    refine ⟨hstudly h, by rw [camel, hstudly h], fun s hs => ?_⟩
    rw [camel, camel, hstudly hs, hstudly h]
    exact ⟨rfl, rfl⟩
  · obtain ⟨cs, rfl⟩ := h.exists_eq_map
    exact ⟨cs, rfl, h.studly_eq⟩
  · cases hstudly : studly t with
    | nil => exact Or.inl ⟨rfl, by rw [camel, hstudly]; rfl⟩
    | cons c r => exact Or.inr ⟨c, r, rfl, Text.camel_of_studly_cons hstudly⟩
  · rw [typeName, hasSections_iff.1 h]
    exact congrArg _ (List.map_congr_left fun p _ => typePart_eq_studly p)

end Component
end TemplateTags
