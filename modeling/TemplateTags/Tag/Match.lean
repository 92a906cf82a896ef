import TemplateTags.Tag.AttributeText
import TemplateTags.Tag.Basic

/-!
# Recognising a tag

A tag starts with `<`, or `</` if it closes something, then optional white space,
the letter `x` and a hyphen or a colon.  What follows is

* in a closing tag, either the word `slot` and anything up to the next `>`, or a
  name, optional white space and `>`;
* in an opening tag, either the word `slot`, perhaps with a colon and an inline
  name, or a non-empty name; then attribute text and `>` or `/>`.

The word `slot` counts as such only if a colon or no character of a name follows
it.  An opening tag that fails as a slot is tried as a component, so that names
which merely start with `slot:` still name components.
-/

namespace TemplateTags
namespace Tag

open Text (strip? strip?_eq_some_iff)

/-! ## Slot names -/

/-- The inline name of a slot: words joined by single hyphens.  A hyphen with no word
behind it is left. -/
def inlineName? (t : Text) : Option (Text × Text) :=
  if t.takeWhile Character.isWord = [] then none
  else
    match _ : strip? ['-'] (t.dropWhile Character.isWord) with
    | none => some (t.takeWhile Character.isWord, t.dropWhile Character.isWord)
    | some r =>
      match inlineName? r with
      | none => some (t.takeWhile Character.isWord, t.dropWhile Character.isWord)
      | some s => some (t.takeWhile Character.isWord ++ '-' :: s.1, s.2)
termination_by t.length
decreasing_by
  rename_i h
  have hl := congrArg List.length (strip?_eq_some_iff.1 h)
  have hd := (List.dropWhile_suffix Character.isWord (l := t)).length_le
  rw [List.length_append] at hl
  simp only [List.length_cons, List.length_nil] at hl
  omega

theorem eq_of_inlineName? {t a r : Text} (h : inlineName? t = some (a, r)) : t = a ++ r := by
  fun_induction inlineName? t generalizing a r with
  | case1 => simp at h
  | case2 => cases h; exact List.takeWhile_append_dropWhile.symm
  | case3 => cases h; exact List.takeWhile_append_dropWhile.symm
  | case4 t _ u hu s hs ih =>
    cases h
    calc t = t.takeWhile Character.isWord ++ t.dropWhile Character.isWord :=
          List.takeWhile_append_dropWhile.symm
      _ = _ := by rw [strip?_eq_some_iff.1 hu, ih hs]; simp

/-- What follows the word `slot`, if a colon or no character of a name does. -/
def afterSlotWord? (t : Text) : Option Text := do
  let r ← strip? slotWord t
  if r.head?.all fun c => c = ':' || !Character.isTagName c then return r else none

/-- The optional inline name of a slot, with the colon before it: the name, the text
taken, and the rest. -/
def slotName? (t : Text) : Option (Option Text × Text × Text) :=
  match strip? [':'] t with
  | none => some (none, [], t)
  | some r => (inlineName? r).map fun s => (some s.1, ':' :: s.1, s.2)

/-! ## Matches -/

/-- A form, the text in which it is written, and what follows that text. -/
structure Match where
  form : Form
  source : Text
  rest : Text

namespace Match

/-- The match with the given text put in front of its source. -/
def after (before : Text) (m : Match) : Match := { m with source := before ++ m.source }

end Match

/-- An opening slot tag, from the word `slot` on. -/
def slotOpening? (t : Text) : Option Match := do
  let r ← afterSlotWord? t
  let n ← slotName? r
  let a ← attributes? n.2.2
  let e ← ending? (slotWord ++ n.2.1 ++ a.1) a.2
  return ⟨.slotOpening n.1 a.1 e.1, slotWord ++ n.2.1 ++ a.1 ++ e.2.1, e.2.2⟩

/-- An opening component tag, from its name on. -/
def opening? (t : Text) : Option Match :=
  if t.takeWhile Character.isTagName = [] then none
  else do
    let a ← attributes? (t.dropWhile Character.isTagName)
    let e ← ending? (t.takeWhile Character.isTagName ++ a.1) a.2
    return ⟨.opening (t.takeWhile Character.isTagName) a.1 e.1,
      t.takeWhile Character.isTagName ++ a.1 ++ e.2.1, e.2.2⟩

/-- A closing slot tag, from the word `slot` on. -/
def slotClosing? (t : Text) : Option Match :=
  (strip? ['>'] (t.dropWhile (· != '>'))).map fun r =>
    ⟨.slotClosing, t.takeWhile (· != '>') ++ ['>'], r⟩

/-- A closing component tag, from its name on.  The name may be empty. -/
def closing? (t : Text) : Option Match :=
  let u := t.dropWhile Character.isTagName
  (strip? ['>'] (u.dropWhile Character.isSpace)).map fun r =>
    ⟨.closing (t.takeWhile Character.isTagName),
      t.takeWhile Character.isTagName ++ u.takeWhile Character.isSpace ++ ['>'], r⟩

/-- The start of a tag after `<` or `</`: white space, the letter `x`, and a hyphen or a
colon. -/
def mark? (t : Text) : Option (Text × Text) := do
  let r ← strip? ['x'] (t.dropWhile Character.isSpace)
  match r with
  | c :: rest =>
    if c = '-' ∨ c = ':' then
      return (t.takeWhile Character.isSpace ++ ['x', c], rest)
    else none
  | [] => none

/-- A closing tag, from behind its slash on. -/
def anyClosing? (t : Text) : Option Match := do
  let s ← mark? t
  if (afterSlotWord? s.2).isSome then (slotClosing? s.2).map (Match.after s.1)
  else (closing? s.2).map (Match.after s.1)

/-- An opening tag, from behind its angle bracket on. -/
def anyOpening? (t : Text) : Option Match := do
  let s ← mark? t
  ((slotOpening? s.2).or (opening? s.2)).map (Match.after s.1)

/-- The tag at the start of a text. -/
def match? : Text → Option Match
  | '<' :: '/' :: t => (anyClosing? t).map (Match.after ['<', '/'])
  | '<' :: t => (anyOpening? t).map (Match.after ['<'])
  | _ => none

/-! ### The source of a match and its rest make up the text -/

theorem eq_of_afterSlotWord? {t r : Text} (h : afterSlotWord? t = some r) :
    t = slotWord ++ r := by
  simp only [afterSlotWord?, Option.bind_eq_bind, Option.bind_eq_some_iff, Option.pure_def,
    Option.ite_none_right_eq_some, Option.some.injEq] at h
  obtain ⟨u, hu, _, rfl⟩ := h
  exact strip?_eq_some_iff.1 hu

theorem eq_of_slotName? {t a r : Text} {n : Option Text} (h : slotName? t = some (n, a, r)) :
    t = a ++ r := by
  unfold slotName? at h
  split at h
  · cases h
    rfl
  · next u hu =>
    obtain ⟨s, hs, e⟩ := Option.map_eq_some_iff.1 h
    cases e
    rw [strip?_eq_some_iff.1 hu, eq_of_inlineName? hs]
    rfl

theorem eq_of_slotOpening? {t : Text} {m : Match} (h : slotOpening? t = some m) :
    t = m.source ++ m.rest := by
  simp only [slotOpening?, Option.bind_eq_bind, Option.bind_eq_some_iff, Option.pure_def,
    Option.some.injEq] at h
  obtain ⟨u, hu, n, hn, a, ha, e, he, rfl⟩ := h
  rw [eq_of_afterSlotWord? hu, eq_of_slotName? hn, eq_of_attributes? ha, eq_of_ending? he]
  simp

theorem eq_of_opening? {t : Text} {m : Match} (h : opening? t = some m) :
    t = m.source ++ m.rest := by
  unfold opening? at h
  split at h
  · simp at h
  · simp only [Option.bind_eq_bind, Option.bind_eq_some_iff, Option.pure_def,
      Option.some.injEq] at h
    obtain ⟨a, ha, e, he, rfl⟩ := h
    calc t = t.takeWhile Character.isTagName ++ t.dropWhile Character.isTagName :=
          List.takeWhile_append_dropWhile.symm
      _ = _ := by rw [eq_of_attributes? ha, eq_of_ending? he]; simp

theorem eq_of_slotClosing? {t : Text} {m : Match} (h : slotClosing? t = some m) :
    t = m.source ++ m.rest := by
  obtain ⟨r, hr, rfl⟩ := Option.map_eq_some_iff.1 h
  calc t = t.takeWhile (· != '>') ++ t.dropWhile (· != '>') :=
        List.takeWhile_append_dropWhile.symm
    _ = _ := by rw [strip?_eq_some_iff.1 hr]; simp

theorem eq_of_closing? {t : Text} {m : Match} (h : closing? t = some m) :
    t = m.source ++ m.rest := by
  obtain ⟨r, hr, rfl⟩ := Option.map_eq_some_iff.1 h
  have hd := strip?_eq_some_iff.1 hr
  have hu := (List.takeWhile_append_dropWhile (p := Character.isSpace)
    (l := t.dropWhile Character.isTagName)).symm
  calc t = t.takeWhile Character.isTagName ++ t.dropWhile Character.isTagName :=
        List.takeWhile_append_dropWhile.symm
    _ = t.takeWhile Character.isTagName ++ ((t.dropWhile Character.isTagName).takeWhile
          Character.isSpace ++ (['>'] ++ r)) := by rw [← hd, ← hu]
    _ = _ := by simp

theorem eq_of_mark? {t a r : Text} (h : mark? t = some (a, r)) : t = a ++ r := by
  simp only [mark?, Option.bind_eq_bind, Option.bind_eq_some_iff] at h
  obtain ⟨u, hu, h⟩ := h
  have ht : t = t.takeWhile Character.isSpace ++ (['x'] ++ u) := by
    rw [← strip?_eq_some_iff.1 hu, List.takeWhile_append_dropWhile]
  split at h
  · split at h
    · cases h
      exact ht.trans (by simp)
    · simp at h
  · simp at h

theorem eq_of_anyClosing? {t : Text} {m : Match} (h : anyClosing? t = some m) :
    t = m.source ++ m.rest := by
  simp only [anyClosing?, Option.bind_eq_bind, Option.bind_eq_some_iff] at h
  obtain ⟨s, hs, h⟩ := h
  rw [eq_of_mark? hs]
  split at h
  · obtain ⟨k, hk, rfl⟩ := Option.map_eq_some_iff.1 h
    rw [eq_of_slotClosing? hk]
    simp [Match.after]
  · obtain ⟨k, hk, rfl⟩ := Option.map_eq_some_iff.1 h
    rw [eq_of_closing? hk]
    simp [Match.after]

theorem eq_of_anyOpening? {t : Text} {m : Match} (h : anyOpening? t = some m) :
    t = m.source ++ m.rest := by
  simp only [anyOpening?, Option.bind_eq_bind, Option.bind_eq_some_iff] at h
  obtain ⟨s, hs, h⟩ := h
  obtain ⟨k, hk, rfl⟩ := Option.map_eq_some_iff.1 h
  have he : s.2 = k.source ++ k.rest := by
    rcases Option.or_eq_some_iff.1 hk with hk | ⟨_, hk⟩
    · exact eq_of_slotOpening? hk
    · exact eq_of_opening? hk
  rw [eq_of_mark? hs, he]
  simp [Match.after]

/-- A match splits its text into its source and its rest, and its source is not
empty. -/
theorem eq_of_match? {t : Text} {m : Match} (h : match? t = some m) :
    t = m.source ++ m.rest ∧ m.source ≠ [] := by
  unfold match? at h
  split at h
  · obtain ⟨k, hk, rfl⟩ := Option.map_eq_some_iff.1 h
    rw [eq_of_anyClosing? hk]
    simp [Match.after]
  · obtain ⟨k, hk, rfl⟩ := Option.map_eq_some_iff.1 h
    rw [eq_of_anyOpening? hk]
    simp [Match.after]
  · simp at h

end Tag
end TemplateTags
