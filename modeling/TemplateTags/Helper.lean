import TemplateTags.Group

/-!
# Helper calls

Two attributes can be written as the call of a helper, `@class(…)` and `@style(…)`,
whose arguments form a parenthesised group.  `Helper.call?` reads such a call from the
start of a text.
-/

namespace TemplateTags

/-- The two helpers. -/
inductive Helper where
  | cssClass
  | cssStyle
deriving DecidableEq, Repr

namespace Helper

open Text (strip? strip?_eq_some_iff)

/-- The name of the attribute that a helper stands for. -/
def name : Helper → Text
  | .cssClass => "class".toList
  | .cssStyle => "style".toList

/-- How the call of a helper starts. -/
def mark (h : Helper) : Text := '@' :: h.name

/-- The arguments of a call of the given helper, and what follows them. -/
def argumentsOf? (h : Helper) (t : Text) : Option (Text × Text) := do
  let r ← strip? h.mark t
  Group.take? r

theorem eq_of_argumentsOf? {h : Helper} {t a r : Text} (e : argumentsOf? h t = some (a, r)) :
    t = h.mark ++ a ++ r := by
  simp only [argumentsOf?, Option.bind_eq_bind, Option.bind_eq_some_iff] at e
  obtain ⟨u, hu, hs⟩ := e
  rw [strip?_eq_some_iff.1 hu, Group.eq_of_take? hs, List.append_assoc]

/-- The helper call at the start of a text: the helper, its arguments with their
parentheses, and the rest. -/
def call? (t : Text) : Option (Helper × Text × Text) :=
  ((argumentsOf? .cssClass t).map fun s => (.cssClass, s)).or
    ((argumentsOf? .cssStyle t).map fun s => (.cssStyle, s))

theorem eq_of_call? {h : Helper} {t a r : Text} (e : call? t = some (h, a, r)) :
    t = h.mark ++ a ++ r := by
  rcases Option.or_eq_some_iff.1 e with e | ⟨_, e⟩
  · obtain ⟨s, hs, e⟩ := Option.map_eq_some_iff.1 e
    cases e
    exact eq_of_argumentsOf? hs
  · obtain ⟨s, hs, e⟩ := Option.map_eq_some_iff.1 e
    cases e
    exact eq_of_argumentsOf? hs

end Helper
end TemplateTags
