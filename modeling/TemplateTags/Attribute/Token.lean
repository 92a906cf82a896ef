import TemplateTags.Text.Basic
import TemplateTags.Text.Character

/-!
# Tokens of attribute text

After the shorthands are expanded, attribute text is a sequence of names with or without
values.  `Token.ofText` reads it leniently: a character that cannot stand in a name is
passed over where no value is due, so every text has tokens.

A value follows an equals sign directly.  It stands between two equal quotes with
something between them, or else is the longest run of characters other than white space
and `>`; a quote that has no partner is part of such a run.
-/

namespace TemplateTags
namespace Attribute

/-- A name with the text of its value, quotes included, if it has one. -/
structure Token where
  name : Text
  value : Option Text
deriving DecidableEq, Repr

namespace Token

open Text (strip? strip?_eq_some_iff)

/-- A value between quotes with something between them. -/
def quotedValue? : Text → Option (Text × Text)
  | [] => none
  | q :: t =>
    if Character.isQuote q ∧ t.takeWhile (· != q) ≠ [] then
      (strip? [q] (t.dropWhile (· != q))).map fun r => (q :: t.takeWhile (· != q) ++ [q], r)
    else none

/-- The characters of a value that ends with white space or with `>`. -/
def isRunChar (c : Char) : Bool := !Character.isSpace c && c != '>'

/-- A value that is a run of characters. -/
def runValue? (t : Text) : Option (Text × Text) :=
  if t.takeWhile isRunChar = [] then none
  else some (t.takeWhile isRunChar, t.dropWhile isRunChar)

/-- The value at the start of a text that stands behind an equals sign. -/
def value? (t : Text) : Option (Text × Text) := (quotedValue? t).or (runValue? t)

/-- The value, with the equals sign before it, at the start of a text; the rest is the
whole text if there is none. -/
def assigned (t : Text) : Option Text × Text :=
  match strip? ['='] t with
  | none => (none, t)
  | some r =>
    match value? r with
    | some s => (some s.1, s.2)
    | none => (none, t)

theorem length_le_of_value? {t a r : Text} (h : value? t = some (a, r)) :
    r.length ≤ t.length := by
  rcases Option.or_eq_some_iff.1 h with h | ⟨_, h⟩
  · cases t with
    | nil => simp [quotedValue?] at h
    | cons q t =>
      simp only [quotedValue?] at h
      split at h
      · obtain ⟨s, hs, e⟩ := Option.map_eq_some_iff.1 h
        cases e
        have hl := congrArg List.length (strip?_eq_some_iff.1 hs)
        have hd := (List.dropWhile_suffix (fun c => c != q) (l := t)).length_le
        simp only [List.length_append, List.length_cons, List.length_nil] at hl ⊢
        omega
      · simp at h
  · unfold runValue? at h
    split at h
    · simp at h
    · cases h
      exact (List.dropWhile_suffix _).length_le

theorem length_assigned_le (t : Text) : (assigned t).2.length ≤ t.length := by
  unfold assigned
  split
  · exact Nat.le_refl _
  · next r hr =>
    have hl := congrArg List.length (strip?_eq_some_iff.1 hr)
    split
    · next s hs =>
      have hv := length_le_of_value? hs
      show s.2.length ≤ t.length
      simp only [List.length_append, List.length_cons, List.length_nil] at hl
      omega
    · exact Nat.le_refl _

/-- The tokens of attribute text. -/
def ofText : Text → List Token
  | [] => []
  | c :: t =>
    if Character.isAttributeName c then
      ⟨c :: t.takeWhile Character.isAttributeName,
          (assigned (t.dropWhile Character.isAttributeName)).1⟩ ::
        ofText (assigned (t.dropWhile Character.isAttributeName)).2
    else ofText t
termination_by t => t.length
decreasing_by
  · have ha := length_assigned_le (t.dropWhile Character.isAttributeName)
    have hd := (List.dropWhile_suffix Character.isAttributeName (l := t)).length_le
    rw [List.length_cons]
    omega
  · exact Nat.lt_succ_self _

end Token
end Attribute
end TemplateTags
