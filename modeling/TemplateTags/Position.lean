import TemplateTags.Text.Basic

/-!
# Positions in a document

A position is kept in three ways at once: as the number of bytes before it, as the
number of line feeds before it, and as the number of characters since the last of
these.  Walking over a text moves all three counts together (`Position.walk`), so a
position reached piece by piece is the position reached in one go.

A position can also be asked for by its byte offset.  `Position.advance?` carries a
position on to an offset, and stays where it is for an offset that is not ahead; it
fails for an offset inside a character.
-/

namespace TemplateTags

/-- A place in a document: the bytes, the lines and the characters of its line that
come before it. -/
structure Position where
  offset : Nat
  line : Nat
  column : Nat
deriving DecidableEq, Repr

namespace Position

/-- The start of a document. -/
def start : Position := ⟨0, 0, 0⟩

/-- The position after one more character. -/
def step (p : Position) (c : Char) : Position :=
  if c = '\n' then ⟨p.offset + c.utf8Size, p.line + 1, 0⟩
  else ⟨p.offset + c.utf8Size, p.line, p.column + 1⟩

/-- The position after a text. -/
def walk (p : Position) (t : Text) : Position := t.foldl step p

theorem walk_append (p : Position) (s t : Text) : p.walk (s ++ t) = (p.walk s).walk t :=
  List.foldl_append

/-- Carries a position on to a byte offset of the source, or to its end if the offset
lies behind it.  An offset that is not ahead leaves the position as it is; there is no
position inside a character. -/
def advance? (source : Text) (p : Position) (offset : Nat) : Option Position :=
  if offset ≤ p.offset then some p
  else (source.slice? p.offset (min offset source.byteSize)).map p.walk

/-- The position at a byte offset of the source. -/
def ofOffset? (source : Text) (offset : Nat) : Option Position :=
  start.advance? source offset

/-- The position as readers are told it: line, colon, column. -/
def render (p : Position) : Text := Text.ofNat p.line ++ [':'] ++ Text.ofNat p.column

end Position

/-- The part of a document between two positions. -/
structure Span where
  start : Position
  stop : Position
deriving DecidableEq, Repr

namespace Span

/-- The number of bytes in the span. -/
def size (s : Span) : Nat := s.stop.offset - s.start.offset

/-- The text of the source in the span, if its ends are in order and stand between
characters. -/
def text? (s : Span) (source : Text) : Option Text :=
  source.slice? s.start.offset s.stop.offset

end Span
end TemplateTags
