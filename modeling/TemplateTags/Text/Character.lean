/-!
# Character classes of tags and attributes

The characters of which tags, attribute names and attribute values are made are
classes of ASCII characters only: a letter outside ASCII is never part of a name.
The classes are nested,

* word characters `⊆` tag name characters `⊆` attribute name characters,

and the characters of an unquoted value are all but white space, quotes and the
three signs `=`, `<` and `>` that end it.
-/

namespace TemplateTags
namespace Character

/-- ASCII white space: blank, tab, line feed, carriage return, vertical tab, form
feed. -/
def isSpace (c : Char) : Bool :=
  c = ' ' || c = '\t' || c = '\n' || c = '\r' || c = '\x0b' || c = '\x0c'

/-- The two quotes that delimit a value. -/
def isQuote (c : Char) : Bool := c = '"' || c = '\''

/-- ASCII letters, ASCII digits and the underscore. -/
def isWord (c : Char) : Bool := c.isAlphanum || c = '_'

/-- The characters of the name of a tag. -/
def isTagName (c : Char) : Bool := isWord c || c = '-' || c = ':' || c = '.'

/-- The characters of the name of an attribute. -/
def isAttributeName (c : Char) : Bool := isTagName c || c = '@'

/-- The characters of a value written without quotes. -/
def isBareValue (c : Char) : Bool :=
  !isSpace c && !isQuote c && c != '=' && c != '<' && c != '>'

end Character
end TemplateTags
