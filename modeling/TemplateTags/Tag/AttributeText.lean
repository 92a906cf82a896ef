import TemplateTags.Attribute.Basic
import TemplateTags.Helper
import TemplateTags.Text.Basic

/-!
# The attribute text of a tag

Between its name and its end a tag holds attributes.  Each has white space before it
and one of four shapes:

* a helper call such as `@class(…)`, whose argument is a parenthesised group;
* an echo of the attribute bag, with no closing brace inside;
* a short binding such as `:$name`;
* a name, which may be followed by an equals sign and a value.

A value stands between two equal quotes or is a run of characters without quotes.
The text of the attributes reaches up to the end of the tag, which is `>` or `/>`.
A plain `>` directly after an equals sign or a hyphen does not end a tag.

Every recogniser takes what it accepts from the start of a text and returns it
together with the rest; the `eq_of` lemmas say that nothing is lost on the way.
-/

namespace TemplateTags
namespace Tag

open Attribute (bagVariable)
open Text (strip? strip?_eq_some_iff)

/-! ## Single attributes -/

/-- A value between two equal quotes. -/
def quotedValue? : Text → Option (Text × Text)
  | [] => none
  | q :: t =>
    if Character.isQuote q then
      (strip? [q] (t.dropWhile (· != q))).map fun r => (q :: t.takeWhile (· != q) ++ [q], r)
    else none

/-- A value without quotes.  A slash at its end that stands directly before `>`
belongs to the end of the tag. -/
def bareValue? (t : Text) : Option (Text × Text) :=
  if t.takeWhile Character.isBareValue = [] then none
  else if (t.takeWhile Character.isBareValue).getLast? = some '/' ∧
      (t.dropWhile Character.isBareValue).head? = some '>' then
    some ((t.takeWhile Character.isBareValue).dropLast,
      '/' :: t.dropWhile Character.isBareValue)
  else some (t.takeWhile Character.isBareValue, t.dropWhile Character.isBareValue)

/-- A value with or without quotes. -/
def value? (t : Text) : Option (Text × Text) := (quotedValue? t).or (bareValue? t)

/-- The call of a helper. -/
def helperCall? (t : Text) : Option (Text × Text) :=
  (Helper.call? t).map fun s => (s.1.mark ++ s.2.1, s.2.2)

/-- An echo of the attribute bag, without a closing brace inside. -/
def bagEcho? (t : Text) : Option (Text × Text) := do
  let r ← strip? ['{', '{'] t
  let b ← strip? bagVariable (r.dropWhile Character.isSpace)
  let rest ← strip? ['}', '}'] (b.dropWhile (· != '}'))
  return (['{', '{'] ++ r.takeWhile Character.isSpace ++ bagVariable ++
    b.takeWhile (· != '}') ++ ['}', '}'], rest)

/-- A short binding: a colon, a dollar sign and a word. -/
def shortBinding? (t : Text) : Option (Text × Text) := do
  let r ← strip? [':', '$'] t
  if r.takeWhile Character.isWord = [] then none
  else return ([':', '$'] ++ r.takeWhile Character.isWord, r.dropWhile Character.isWord)

/-- A name, with or without a value. -/
def namedAttribute? (t : Text) : Option (Text × Text) :=
  if t.takeWhile Character.isAttributeName = [] then none
  else
    match strip? ['='] (t.dropWhile Character.isAttributeName) with
    | none =>
      some (t.takeWhile Character.isAttributeName, t.dropWhile Character.isAttributeName)
    | some r =>
      (value? r).map fun s => (t.takeWhile Character.isAttributeName ++ '=' :: s.1, s.2)

/-- One attribute, in the first of the four shapes that fits. -/
def attribute? (t : Text) : Option (Text × Text) :=
  (((helperCall? t).or (bagEcho? t)).or (shortBinding? t)).or (namedAttribute? t)

/-! ### What a recogniser takes and what it leaves make up its text -/

theorem eq_of_quotedValue? {t a r : Text} (h : quotedValue? t = some (a, r)) :
    t = a ++ r := by
  cases t with
  | nil => simp [quotedValue?] at h
  | cons q t =>
    simp only [quotedValue?] at h
    split at h
    · obtain ⟨s, hs, e⟩ := Option.map_eq_some_iff.1 h
      cases e
      have hd : t.dropWhile (· != q) = [q] ++ r := strip?_eq_some_iff.1 hs
      calc q :: t = q :: (t.takeWhile (· != q) ++ t.dropWhile (· != q)) := by
            rw [List.takeWhile_append_dropWhile]
        _ = _ := by rw [hd]; simp
    · simp at h

theorem eq_of_bareValue? {t a r : Text} (h : bareValue? t = some (a, r)) : t = a ++ r := by
  unfold bareValue? at h
  split at h
  · simp at h
  · split at h
    · next hl =>
      cases h
      obtain ⟨u, hu⟩ := List.getLast?_eq_some_iff.1 hl.1
      calc t = t.takeWhile Character.isBareValue ++ t.dropWhile Character.isBareValue :=
            List.takeWhile_append_dropWhile.symm
        _ = _ := by rw [hu]; simp
    · cases h
      exact List.takeWhile_append_dropWhile.symm

theorem eq_of_value? {t a r : Text} (h : value? t = some (a, r)) : t = a ++ r := by
  rcases Option.or_eq_some_iff.1 h with h | ⟨_, h⟩
  · exact eq_of_quotedValue? h
  · exact eq_of_bareValue? h

theorem eq_of_helperCall? {t a r : Text} (h : helperCall? t = some (a, r)) :
    t = a ++ r := by
  obtain ⟨s, hs, e⟩ := Option.map_eq_some_iff.1 h
  cases e
  exact Helper.eq_of_call? hs

theorem eq_of_bagEcho? {t a r : Text} (h : bagEcho? t = some (a, r)) : t = a ++ r := by
  simp only [bagEcho?, Option.bind_eq_bind, Option.bind_eq_some_iff, Option.pure_def,
    Option.some.injEq, Prod.mk.injEq] at h
  obtain ⟨u, hu, b, hb, s, hs, rfl, rfl⟩ := h
  have hd : u = u.takeWhile Character.isSpace ++ (bagVariable ++ b) := by
    rw [← strip?_eq_some_iff.1 hb, List.takeWhile_append_dropWhile]
  have he : b = b.takeWhile (· != '}') ++ (['}', '}'] ++ s) := by
    rw [← strip?_eq_some_iff.1 hs, List.takeWhile_append_dropWhile]
  rw [strip?_eq_some_iff.1 hu]
  simp only [List.append_assoc]
  rw [← he, ← hd]

theorem eq_of_shortBinding? {t a r : Text} (h : shortBinding? t = some (a, r)) :
    t = a ++ r := by
  simp only [shortBinding?, Option.bind_eq_bind, Option.bind_eq_some_iff, Option.pure_def,
    Option.ite_none_left_eq_some, Option.some.injEq, Prod.mk.injEq] at h
  obtain ⟨u, hu, _, rfl, rfl⟩ := h
  rw [strip?_eq_some_iff.1 hu, List.append_assoc, List.takeWhile_append_dropWhile]

theorem eq_of_namedAttribute? {t a r : Text} (h : namedAttribute? t = some (a, r)) :
    t = a ++ r := by
  unfold namedAttribute? at h
  split at h
  · simp at h
  · split at h
    · cases h
      exact List.takeWhile_append_dropWhile.symm
    · next u hu =>
      obtain ⟨s, hs, e⟩ := Option.map_eq_some_iff.1 h
      cases e
      have hd : t.dropWhile Character.isAttributeName = ['='] ++ u :=
        strip?_eq_some_iff.1 hu
      calc t = t.takeWhile Character.isAttributeName ++
              t.dropWhile Character.isAttributeName :=
            List.takeWhile_append_dropWhile.symm
        _ = _ := by rw [hd, eq_of_value? hs]; simp

theorem eq_of_attribute? {t a r : Text} (h : attribute? t = some (a, r)) : t = a ++ r := by
  rcases Option.or_eq_some_iff.1 h with h | ⟨_, h⟩
  · rcases Option.or_eq_some_iff.1 h with h | ⟨_, h⟩
    · rcases Option.or_eq_some_iff.1 h with h | ⟨_, h⟩
      · exact eq_of_helperCall? h
      · exact eq_of_bagEcho? h
    · exact eq_of_shortBinding? h
  · exact eq_of_namedAttribute? h

/-! ## The attribute text and the end of a tag -/

/-- Whether the text starts with the end of a tag. -/
def endsHere : Text → Bool
  | '>' :: _ => true
  | '/' :: '>' :: _ => true
  | _ => false

/-- Attributes up to the end of a tag, each with white space before it, and the white
space behind them. -/
def attributes? (t : Text) : Option (Text × Text) :=
  if endsHere (t.dropWhile Character.isSpace) then
    some (t.takeWhile Character.isSpace, t.dropWhile Character.isSpace)
  else if _ : t.takeWhile Character.isSpace = [] then none
  else
    match _ : attribute? (t.dropWhile Character.isSpace) with
    | none => none
    | some (a, r) =>
      (attributes? r).map fun s => (t.takeWhile Character.isSpace ++ a ++ s.1, s.2)
termination_by t.length
decreasing_by
  rename_i hb h
  have hl := congrArg List.length (eq_of_attribute? h)
  have ht : t.length = (t.takeWhile Character.isSpace).length +
      (t.dropWhile Character.isSpace).length := by
    rw [← List.length_append, List.takeWhile_append_dropWhile]
  have hp := List.length_pos_iff.2 hb
  rw [List.length_append] at hl
  omega

theorem eq_of_attributes? {t a r : Text} (h : attributes? t = some (a, r)) : t = a ++ r := by
  fun_induction attributes? t generalizing a r with
  | case1 t _ =>
    cases h
    exact List.takeWhile_append_dropWhile.symm
  | case2 => simp at h
  | case3 => simp at h
  | case4 t _ _ b u hu ih =>
    obtain ⟨s, hs, e⟩ := Option.map_eq_some_iff.1 h
    cases e
    calc t = t.takeWhile Character.isSpace ++ t.dropWhile Character.isSpace :=
          List.takeWhile_append_dropWhile.symm
      _ = _ := by rw [eq_of_attribute? hu, ih hs]; simp

/-- The end of a tag: whether it also closes what it opens, its text, and the rest.  The
first argument is the body of the tag, the text directly before the end. -/
def ending? (body : Text) : Text → Option (Bool × Text × Text)
  | '/' :: '>' :: r => some (true, ['/', '>'], r)
  | '>' :: r =>
    if body.getLast? = some '=' ∨ body.getLast? = some '-' then none
    else some (false, ['>'], r)
  | _ => none

theorem eq_of_ending? {body t e r : Text} {s : Bool} (h : ending? body t = some (s, e, r)) :
    t = e ++ r := by
  unfold ending? at h
  split at h
  · cases h
    rfl
  · split at h
    · simp at h
    · cases h
      rfl
  · simp at h

end Tag
end TemplateTags
