import Mathlib.Data.List.TakeWhile
import TemplateTags.Text.Basic
import TemplateTags.Text.Character
import TemplateTags.Text.WhiteSpace
import TemplateTags.Text.Word

/-!
# Runs of characters

Every recogniser takes the longest run of characters of a class and goes on with the
rest.  A printed text is read back as it was written when each run in it is followed by
a character outside its class, or by nothing.  This is the notion `Text.Stops`, and

* `takeWhile_of_stops`, `dropWhile_of_stops` say that such a run is cut off exactly;
* `stops_dropWhile` says that what is left over always stops the class.

The second part holds the inclusions between the character classes.  White space is the
class that separates, so most of them say that a character of some other class is not
white space.
-/

namespace TemplateTags
namespace Text

/-- A property of all characters of a text is decided along the text. -/
-- The priority is above that of the instance that goes through every character there is.
instance (priority := 2000) decidableForallMem {P : Char → Prop} [DecidablePred P] (t : Text) :
    Decidable (∀ c ∈ t, P c) :=
  List.decidableBAll P t

/-! ## Cutting off a run -/

/-- The text does not go on with a character of the class. -/
def Stops (p : Char → Bool) (r : Text) : Prop := ∀ c ∈ r.head?, p c = false

variable {p q : Char → Bool} {a r : Text}

@[simp] theorem stops_nil : Stops p [] := by
  intro c hc
  simp at hc

@[simp] theorem stops_cons {c : Char} : Stops p (c :: r) ↔ p c = false := by
  simp [Stops]

theorem Stops.mono (h : Stops p r) (hpq : ∀ c, q c = true → p c = true) : Stops q r := by
  intro c hc
  by_contra hq
  rw [Bool.not_eq_false] at hq
  exact absurd (hpq c hq) (by simp [h c hc])

theorem Stops.of_append (h : Stops p (a ++ r)) : Stops p a := by
  cases a with
  | nil => exact stops_nil
  | cons c a => exact h

theorem stops_dropWhile (p : Char → Bool) (t : Text) : Stops p (t.dropWhile p) := by
  intro c hc
  have h := List.head?_dropWhile_not p t
  rw [Option.mem_def.1 hc] at h
  simpa using h

/-- A run of a class can be cut off every text. -/
theorem exists_eq_append_stops (p : Char → Bool) (t : Text) :
    ∃ a r, t = a ++ r ∧ (∀ c ∈ a, p c = true) ∧ Stops p r :=
  ⟨t.takeWhile p, t.dropWhile p, List.takeWhile_append_dropWhile.symm,
    fun _ hc => List.mem_takeWhile_imp hc, stops_dropWhile p t⟩

theorem takeWhile_of_stops (ha : ∀ c ∈ a, p c = true) (hr : Stops p r) :
    (a ++ r).takeWhile p = a := by
  rw [List.takeWhile_append_of_pos ha]
  cases r with
  | nil => simp
  | cons c r => simp [stops_cons.1 hr]

theorem dropWhile_of_stops (ha : ∀ c ∈ a, p c = true) (hr : Stops p r) :
    (a ++ r).dropWhile p = r := by
  rw [List.dropWhile_append_of_pos ha]
  cases r with
  | nil => simp
  | cons c r => simp [stops_cons.1 hr]

/-- Two ways to cut a run off the same text are the same. -/
theorem eq_of_stops {b s : Text} (h : a ++ r = b ++ s) (ha : ∀ c ∈ a, p c = true)
    (hr : Stops p r) (hb : ∀ c ∈ b, p c = true) (hs : Stops p s) : a = b ∧ r = s := by
  constructor
  · rw [← takeWhile_of_stops ha hr, h, takeWhile_of_stops hb hs]
  · rw [← dropWhile_of_stops ha hr, h, dropWhile_of_stops hb hs]

/-- If a run that is cut off starts like a text of its class, then it starts with it. -/
theorem exists_append_of_stops {b s : Text} (h : a ++ r = b ++ s) (ha : ∀ c ∈ a, p c = true)
    (hr : Stops p r) (hb : ∀ c ∈ b, p c = true) : ∃ x, a = b ++ x := by
  obtain ⟨x, y, rfl, hx, hy⟩ := exists_eq_append_stops p s
  have hrun : ∀ c ∈ b ++ x, p c = true := fun c hc =>
    (List.mem_append.1 hc).elim (hb c) (hx c)
  rw [← List.append_assoc] at h
  exact ⟨x, (eq_of_stops h ha hr hrun hy).1⟩

/-- A text of characters of a class has no other character. -/
theorem notMem_of_forall {c : Char} (h : ∀ d ∈ a, p d = true) (hc : p c = false) : c ∉ a := by
  intro hm
  rw [h c hm] at hc
  cases hc

theorem bne_of_notMem {q : Char} (h : q ∉ a) : ∀ c ∈ a, (c != q) = true := by
  intro c hc
  rw [bne_iff_ne]
  rintro rfl
  exact h hc

/-- What is read up to a character ends at the first place of that character. -/
theorem takeWhile_of_notMem {q : Char} (h : q ∉ a) (r : Text) :
    (a ++ q :: r).takeWhile (· != q) = a :=
  takeWhile_of_stops (bne_of_notMem h) (stops_cons.2 (by simp))

theorem dropWhile_of_notMem {q : Char} (h : q ∉ a) (r : Text) :
    (a ++ q :: r).dropWhile (· != q) = q :: r :=
  dropWhile_of_stops (bne_of_notMem h) (stops_cons.2 (by simp))

/-! ## Texts that start with a given one -/

@[simp] theorem strip?_append (a r : Text) : strip? a (a ++ r) = some r :=
  strip?_eq_some_iff.2 rfl

theorem strip?_eq_none_iff {t : Text} : strip? a t = none ↔ ∀ r, t ≠ a ++ r := by
  rw [Option.eq_none_iff_forall_ne_some]
  exact forall_congr' fun r => not_congr strip?_eq_some_iff

@[simp] theorem strip?_singleton_cons (c d : Char) (t : Text) :
    strip? [c] (d :: t) = if c = d then some t else none := rfl

theorem mem_of_mem_trimEnd {t : Text} {c : Char} (h : c ∈ trimEnd t) : c ∈ t := by
  unfold trimEnd trimEndBy at h
  rw [List.mem_reverse] at h
  exact List.mem_reverse.1 ((List.dropWhile_suffix _).subset h)

end Text

/-! ## Inclusions between character classes -/

namespace Character

variable {c : Char}

theorem isTagName_of_isWord (h : isWord c = true) : isTagName c = true := by
  simp [isTagName, h]

theorem isAttributeName_of_isTagName (h : isTagName c = true) : isAttributeName c = true := by
  simp [isAttributeName, h]

theorem isAttributeName_of_isWord (h : isWord c = true) : isAttributeName c = true :=
  isAttributeName_of_isTagName (isTagName_of_isWord h)

/-- The six characters of ASCII white space. -/
def blanks : List Char := [' ', '\t', '\n', '\r', '\x0b', '\x0c']

theorem isSpace_iff : isSpace c = true ↔ c ∈ blanks := by
  simp [isSpace, blanks, or_assoc]

-- What holds of white space is checked on its six characters.
theorem isWhiteSpace_of_isSpace (h : isSpace c = true) : isWhiteSpace c = true :=
  (by decide : ∀ d ∈ blanks, isWhiteSpace d = true) c (isSpace_iff.1 h)

theorem not_isAttributeName_of_isSpace (h : isSpace c = true) : isAttributeName c = false :=
  (by decide : ∀ d ∈ blanks, isAttributeName d = false) c (isSpace_iff.1 h)

theorem not_isBareValue_of_isSpace (h : isSpace c = true) : isBareValue c = false :=
  (by decide : ∀ d ∈ blanks, isBareValue d = false) c (isSpace_iff.1 h)

theorem not_isAttributeNameUnicode_of_isSpace (h : isSpace c = true) :
    isAttributeNameUnicode c = false :=
  (by decide : ∀ d ∈ blanks, isAttributeNameUnicode d = false) c (isSpace_iff.1 h)

theorem not_isTagName_of_isSpace (h : isSpace c = true) : isTagName c = false := by
  by_contra hn
  rw [Bool.not_eq_false] at hn
  simpa [not_isAttributeName_of_isSpace h] using isAttributeName_of_isTagName hn

theorem not_isSpace_of_isAttributeName (h : isAttributeName c = true) : isSpace c = false := by
  by_contra hn
  rw [Bool.not_eq_false] at hn
  simp [not_isAttributeName_of_isSpace hn] at h

theorem isQuote_iff : isQuote c = true ↔ c = '"' ∨ c = '\'' := by
  simp [isQuote]

end Character
end TemplateTags
