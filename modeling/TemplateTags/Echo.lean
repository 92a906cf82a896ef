import TemplateTags.Text.WhiteSpace

/-!
# Echoes in literal text

Literal text can hold echoes, which print the value of a host expression in its place.
There are three ways to write one: the delimiters `{!!` and `!!}` print the value as it
is, and `{{{` with `}}}` as well as `{{` with `}}` print it escaped.  White space around
the expression does not count, and an echo of nothing is no echo.  An at sign before an
echo makes it plain text, without the at sign.

`Echo.split` cuts a text into segments, which are plain text or expressions; neighbouring
plain text is one segment.  Another way to find the segments may be used in its place, so
what the library asks for is any function from texts to segments (`Echo.Splitter`).
-/

namespace TemplateTags
namespace Echo

open Text (strip? cut? strip?_eq_some_iff)

/-- A part of literal text. -/
inductive Segment where
  | text (content : Text)
  /-- A host expression whose value is printed. -/
  | expr (expression : Text)
deriving DecidableEq, Repr

/-- A way to find the segments of literal text. -/
abbrev Splitter := Text → List Segment

/-- The three ways to write an echo, in the order in which they are tried. -/
inductive Style where
  | raw
  | triple
  | double
deriving DecidableEq, Repr

namespace Style

/-- What an echo starts with. -/
def opener : Style → Text
  | .raw => ['{', '!', '!']
  | .triple => ['{', '{', '{']
  | .double => ['{', '{']

/-- What an echo ends with. -/
def closer : Style → Text
  | .raw => ['!', '!', '}']
  | .triple => ['}', '}', '}']
  | .double => ['}', '}']

/-- Whether the value is printed escaped. -/
def isEscaped : Style → Bool
  | .raw => false
  | .triple => true
  | .double => true

end Style

/-- An echo at the start of a text: its style, its expression, the text in which it is
written, and what follows. -/
structure Found where
  style : Style
  expression : Text
  source : Text
  rest : Text
deriving DecidableEq, Repr

/-- The echo of the given style, from behind its opener on. -/
def close? (s : Style) (t : Text) : Option Found := do
  let c ← cut? s.closer t
  if Text.trim c.1 = [] then none
  else return ⟨s, Text.trim c.1, s.opener ++ c.1 ++ s.closer, c.2⟩

/-- The echo at the start of a text.  The first opener that fits decides on the style. -/
def find? (t : Text) : Option Found :=
  match strip? Style.raw.opener t with
  | some r => close? .raw r
  | none =>
    match strip? Style.triple.opener t with
    | some r => close? .triple r
    | none =>
      match strip? Style.double.opener t with
      | some r => close? .double r
      | none => none

theorem length_lt_of_close? {s : Style} {t u : Text} {f : Found} (h : close? s t = some f)
    (hu : u = s.opener ++ t) : f.rest.length < u.length := by
  simp only [close?, Option.bind_eq_bind, Option.bind_eq_some_iff, Option.pure_def,
    Option.ite_none_left_eq_some, Option.some.injEq] at h
  obtain ⟨c, hc, _, rfl⟩ := h
  have hp : 0 < s.opener.length := by cases s <;> decide
  rw [hu, Text.eq_of_cut? hc]
  simp only [List.length_append]
  omega

theorem length_lt_of_find? {t : Text} {f : Found} (h : find? t = some f) :
    f.rest.length < t.length := by
  unfold find? at h
  split at h
  · next r hr => exact length_lt_of_close? h (strip?_eq_some_iff.1 hr)
  · split at h
    · next r hr => exact length_lt_of_close? h (strip?_eq_some_iff.1 hr)
    · split at h
      · next r hr => exact length_lt_of_close? h (strip?_eq_some_iff.1 hr)
      · simp at h

/-- The segments with plain text put in front of them. -/
def consText (t : Text) : List Segment → List Segment
  | .text u :: l => .text (t ++ u) :: l
  | l => if t = [] then l else .text t :: l

/-- The host expression for an echo: its own, or a call of the escaping function on it. -/
def Found.print (escape : Text) (f : Found) : Text :=
  if f.style.isEscaped then escape ++ ['('] ++ f.expression ++ [')'] else f.expression

/-- The segments of a text, with the given escaping function for escaped echoes. -/
def split (escape : Text) : Splitter
  | [] => []
  | c :: t =>
    if c = '@' then
      match _ : find? t with
      | some f => consText f.source (split escape f.rest)
      | none => consText [c] (split escape t)
    else
      match _ : find? (c :: t) with
      | some f => .expr (f.print escape) :: split escape f.rest
      | none => consText [c] (split escape t)
termination_by t => t.length
decreasing_by
  · rename_i h
    exact Nat.lt_succ_of_lt (length_lt_of_find? h)
  · exact Nat.lt_succ_self _
  · rename_i h
    exact length_lt_of_find? h
  · exact Nat.lt_succ_self _

/-- The splitter that escapes with the host function `e`. -/
def standard : Splitter := split ['e']

/-! ## Host string literals -/

/-- The text of a segment inside a single-quoted host string.  An expression interrupts the
string. -/
def Segment.inString : Segment → Text
  | .text t => t.flatMap fun c => if c = '\'' then ['\\', '\''] else [c]
  | .expr e => ['\'', '.'] ++ e ++ ['.', '\'']

/-- What stands between the quotes of the host string for literal text. -/
def stringBody (splitter : Splitter) (t : Text) : Text :=
  (splitter t).flatMap Segment.inString

/-- The host string for literal text. -/
def stringLiteral (splitter : Splitter) (t : Text) : Text :=
  '\'' :: stringBody splitter t ++ ['\'']

end Echo
end TemplateTags
