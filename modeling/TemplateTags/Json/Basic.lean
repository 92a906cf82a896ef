import TemplateTags.Text.Basic

/-!
# JSON values

Configuration documents are written in JSON.  Two things set the values here apart
from a tree of ordinary data.  A number is kept as its literal, since no number means
anything to the configuration.  And the members of an object are a list: a key can be
repeated, and order counts.

A string literal can hold an escaped half of a surrogate pair, which denotes no
character.  Such a literal denotes no text, and stands here as `none`; documents may
hold it only in parts that are not used.
-/

namespace TemplateTags

/-- A JSON value. -/
inductive Json where
  | null
  | bool (b : Bool)
  /-- A number, as its literal. -/
  | number (literal : Text)
  /-- A string, as the text that it denotes, if it denotes any. -/
  | string (text : Option Text)
  | array (items : List Json)
  /-- An object, as its members in order, a key being what a string denotes. -/
  | object (members : List (Option Text × Json))

namespace Json

/-- The string that denotes a text. -/
def ofText (t : Text) : Json := .string (some t)

/-- The number that denotes a natural number. -/
def ofNat (n : Nat) : Json := .number (Text.ofNat n)

/-- The text that a string denotes. -/
def text? : Json → Option Text
  | .string t => t
  | _ => none

/-- The items of an array. -/
def items? : Json → Option (List Json)
  | .array l => some l
  | _ => none

end Json
end TemplateTags
