import TemplateTags.Attribute.Run
import TemplateTags.Text.WhiteSpace

/-!
# Shorthands

A shorthand is a way to write an attribute that is expanded into another text before the
attributes are read.  It is found where an attribute can start, which is behind white
space or, for most shorthands, also at the very start of the attribute text.  Quoted
values are left as they are, and no attribute starts directly behind one: a shorthand in
that place is copied.

`Shorthand.expand` replaces all occurrences of one shorthand, from left to right.  Each
shorthand brings a proof that what it takes is not empty, and so the replacing ends.
-/

namespace TemplateTags

/-- A place where a shorthand was found: its text, the text to be written for it, and the
rest. -/
structure Shorthand.Found where
  taken : Text
  written : Text
  rest : Text
deriving DecidableEq, Repr

/-- A shorthand of attribute text. -/
structure Shorthand where
  /-- Finds the shorthand at the start of a text that stands behind white space. -/
  find? : Text → Option Shorthand.Found
  /-- Whether it replaces all the white space before it and needs none at the start; if
  not, it replaces one character of white space and needs it. -/
  atBoundary : Bool
  /-- What is found is a non-empty start of the text. -/
  eq_of_find? : ∀ {t : Text} {f : Shorthand.Found}, find? t = some f →
    t = f.taken ++ f.rest ∧ f.taken ≠ []

namespace Shorthand

variable (s : Shorthand)

/-- What follows the white space that the shorthand replaces, given the text behind its
first character. -/
def afterSpace (t : Text) : Text :=
  if s.atBoundary then t.dropWhile Character.isWhiteSpace else t

theorem length_afterSpace_le (t : Text) : (s.afterSpace t).length ≤ t.length := by
  unfold afterSpace
  split
  · exact (List.dropWhile_suffix _).length_le
  · exact Nat.le_refl _

theorem length_lt_of_find? {t : Text} {f : Found} (h : s.find? t = some f) :
    f.rest.length < t.length := by
  obtain ⟨ht, hne⟩ := s.eq_of_find? h
  have hp := List.length_pos_iff.2 hne
  rw [ht, List.length_append]
  omega

/-- Replaces all occurrences behind white space. -/
def replace : Text → Text
  | [] => []
  | c :: t =>
    if Character.isWhiteSpace c then
      match _ : s.find? (s.afterSpace t) with
      | some f => ' ' :: f.written ++ replace f.rest
      | none => c :: replace t
    else c :: replace t
termination_by t => t.length
decreasing_by
  · rename_i h
    have hf := s.length_lt_of_find? h
    have ha := s.length_afterSpace_le t
    rw [List.length_cons]
    omega
  · exact Nat.lt_succ_self _
  · exact Nat.lt_succ_self _

/-- The shorthand at the very start of a text. -/
def findStart? (t : Text) : Option Found := if s.atBoundary then s.find? t else none

/-- Replaces all occurrences in a plain run.  One at the start of the run is replaced if
the run is the first, and copied if not. -/
def expandPlain (first : Bool) (t : Text) : Text :=
  match s.findStart? t with
  | some f => (if first then ' ' :: f.written else f.taken) ++ s.replace f.rest
  | none => s.replace t

/-- Replaces all occurrences in a run; there are none in a quoted value. -/
def expandRun (first : Bool) : Attribute.Run → Text
  | .plain t => s.expandPlain first t
  | .quoted t => t

/-- Replaces all occurrences in attribute text. -/
def expand (t : Text) : Text :=
  match Attribute.Run.ofText t with
  | [] => []
  | r :: l => s.expandRun true r ++ l.flatMap (s.expandRun false)

end Shorthand
end TemplateTags
