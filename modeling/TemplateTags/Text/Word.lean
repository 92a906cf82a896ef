import TemplateTags.Text.Character
import TemplateTags.Text.WordRange

/-!
# Word characters

The shorthands in attribute text name host variables, and such a name may be
written in any script.  Their characters are the word characters of Unicode; on
ASCII these are the word characters of tags.
-/

namespace TemplateTags
namespace Character

/-- The word characters of Unicode. -/
def isWordUnicode (c : Char) : Bool :=
  if c.toNat < 0x80 then isWord c
  else WordRange.all.any fun r => r.1 ≤ c.toNat && c.toNat ≤ r.2

/-- The characters of an attribute name in any script. -/
def isAttributeNameUnicode (c : Char) : Bool :=
  isWordUnicode c || c = '-' || c = ':' || c = '.' || c = '@'

end Character
end TemplateTags
