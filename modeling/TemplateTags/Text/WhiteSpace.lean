import TemplateTags.Text.Basic

/-!
# White space beyond ASCII

Names are split, values are trimmed and attribute text is matched with respect to
the Unicode property `White_Space`.  It has twenty-five characters; the zero width
space, the byte order mark and the four ASCII separators below the blank are not
among them.
-/

namespace TemplateTags
namespace Character

/-- The characters with the Unicode property `White_Space`. -/
def isWhiteSpace (c : Char) : Bool :=
  let n := c.toNat
  (9 ≤ n && n ≤ 13) || n = 0x20 || n = 0x85 || n = 0xa0 || n = 0x1680 ||
    (0x2000 ≤ n && n ≤ 0x200a) || n = 0x2028 || n = 0x2029 || n = 0x202f ||
    n = 0x205f || n = 0x3000

end Character

namespace Text

/-- The text without white space at its start. -/
def trimStart (t : Text) : Text := t.dropWhile Character.isWhiteSpace

/-- The text without white space at its end. -/
def trimEnd (t : Text) : Text := t.trimEndBy Character.isWhiteSpace

/-- The text without white space at its ends. -/
def trim (t : Text) : Text := t.trimBy Character.isWhiteSpace

end Text
end TemplateTags
