import TemplateTags.Json.Basic
import TemplateTags.Json.Quoted

/-!
# Writing JSON

Values are written without any white space.  A string that denotes no text is written
as an escaped half of a surrogate pair, which is the shortest literal that denotes
none.
-/

namespace TemplateTags
namespace Json

/-- The literal for what a string denotes. -/
def renderString : Option Text → Text
  | some t => Quoted.encode t
  | none => "\"\\ud800\"".toList

mutual

/-- The text of a value. -/
def render : Json → Text
  | .null => "null".toList
  | .bool true => "true".toList
  | .bool false => "false".toList
  | .number l => l
  | .string t => renderString t
  | .array items => '[' :: renderItems items ++ [']']
  | .object members => '{' :: renderMembers members ++ ['}']

/-- The texts of the items of an array, with commas between them. -/
def renderItems : List Json → Text
  | [] => []
  | [v] => render v
  | v :: w :: l => render v ++ ',' :: renderItems (w :: l)

/-- The texts of the members of an object, with commas between them. -/
def renderMembers : List (Option Text × Json) → Text
  | [] => []
  | [(k, v)] => renderString k ++ ':' :: render v
  | (k, v) :: m :: l => renderString k ++ ':' :: render v ++ ',' :: renderMembers (m :: l)

end

end Json
end TemplateTags
