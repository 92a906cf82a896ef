import TemplateTags.Text.Basic
import TemplateTags.Text.Character

/-!
# Parenthesised groups

A group starts with an opening parenthesis and ends with the closing one that
matches it.  Quoted parts are opaque: parentheses in them do not count, and in them
a backslash takes the next character with it, so that an escaped quote does not end
them.

`Group.take? t` is the group at the start of `t` together with what follows it.  The
reader walks over the characters once.  All it remembers is how many inner groups
are open and, inside a quoted part, which quote ends it and whether the last
character was a backslash.
-/

namespace TemplateTags
namespace Group

/-- Where in a group the reader stands. -/
inductive Place where
  /-- Between quoted parts. -/
  | plain
  /-- In a part that the given quote ends. -/
  | quoted (q : Char)
  /-- Directly after a backslash in such a part. -/
  | escaped (q : Char)
deriving DecidableEq, Repr

/-- The characters up to the end of the group and those behind it, for a reader at
the given place with the given number of inner groups open. -/
def close? : Place → Nat → Text → Option (Text × Text)
  | _, _, [] => none
  | .plain, depth, c :: t =>
    if c = ')' then
      match depth with
      | 0 => some ([c], t)
      | d + 1 => (close? .plain d t).map fun s => (c :: s.1, s.2)
    else if c = '(' then (close? .plain (depth + 1) t).map fun s => (c :: s.1, s.2)
    else if Character.isQuote c then
      (close? (.quoted c) depth t).map fun s => (c :: s.1, s.2)
    else (close? .plain depth t).map fun s => (c :: s.1, s.2)
  | .quoted q, depth, c :: t =>
    if c = '\\' then (close? (.escaped q) depth t).map fun s => (c :: s.1, s.2)
    else if c = q then (close? .plain depth t).map fun s => (c :: s.1, s.2)
    else (close? (.quoted q) depth t).map fun s => (c :: s.1, s.2)
  | .escaped q, depth, c :: t =>
    (close? (.quoted q) depth t).map fun s => (c :: s.1, s.2)

/-- The group at the start of a text, and what follows it. -/
def take? : Text → Option (Text × Text)
  | [] => none
  | c :: t => if c = '(' then (close? .plain 0 t).map fun s => (c :: s.1, s.2) else none

theorem eq_of_close? {p : Place} {d : Nat} {t a r : Text} (h : close? p d t = some (a, r)) :
    t = a ++ r := by
  fun_induction close? p d t generalizing a r with
  | case1 => simp at h
  | case2 => cases h; rfl
  | _ =>
    rename_i ih
    obtain ⟨s, hs, e⟩ := Option.map_eq_some_iff.1 h
    cases e
    rw [ih hs]
    rfl

theorem eq_of_take? {t a r : Text} (h : take? t = some (a, r)) : t = a ++ r := by
  cases t with
  | nil => simp [take?] at h
  | cons c t =>
    simp only [take?] at h
    split at h
    · obtain ⟨s, hs, e⟩ := Option.map_eq_some_iff.1 h
      cases e
      rw [eq_of_close? hs]
      rfl
    · simp at h

end Group
end TemplateTags
