import TemplateTags.Text.WhiteSpace

/-!
# Casing of names

A name such as `user-profile card` is a sequence of words.  Words are separated by
runs of hyphens, underscores and white space.  The studly form writes the words
one after the other, each with a capital first letter (`UserProfileCard`), and the
camel form also makes the very first letter small (`userProfileCard`).  Only ASCII
letters change their case, so both forms depend on nothing but the words.
-/

namespace TemplateTags
namespace Text

/-- The characters that separate the words of a name. -/
def isWordSeparator (c : Char) : Bool := c = '-' || c = '_' || Character.isWhiteSpace c

/-- The words of a name: the maximal runs of characters that separate nothing. -/
def words (t : Text) : List Text := (t.splitOnP isWordSeparator).filter fun w => !w.isEmpty

/-- The text with its first character as an ASCII capital. -/
def upperFirst : Text → Text
  | [] => []
  | c :: t => c.toUpper :: t

/-- The text with its first character as an ASCII small letter. -/
def lowerFirst : Text → Text
  | [] => []
  | c :: t => c.toLower :: t

/-- The words of a name without separators, each with a capital first letter. -/
def studly (t : Text) : Text := (words t).flatMap upperFirst

/-- The studly form with a small first letter. -/
def camel (t : Text) : Text := lowerFirst (studly t)

end Text
end TemplateTags
