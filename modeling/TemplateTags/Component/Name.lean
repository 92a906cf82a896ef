import TemplateTags.Text.Casing

/-!
# Names of components

The name of a component is made of sections with dots between them.  It can start with a
hint, which ends at the first double colon and says where the component belongs.

* `Component.typeName` turns the sections into the parts of a type name;
* `Component.viewName` places a name in a directory of views, behind the hint.
-/

namespace TemplateTags
namespace Component

/-- What separates a hint from the rest of a name. -/
def hintMark : Text := [':', ':']

/-- The hint of a name, and the rest. -/
def splitHint? (name : Text) : Option (Text × Text) := Text.cut? hintMark name

/-- The part of a type name that a section of a name stands for. -/
def typePart (part : Text) : Text := part.camel.upperFirst

/-- The type name that a name stands for. -/
def typeName (name : Text) : Text :=
  List.intercalate ['\\'] ((name.splitOn '.').map typePart)

/-- The name of a directory of views, with a dot at its end. -/
def directory (name : Text) : Text :=
  if name.getLast? = some '.' then name else name ++ ['.']

/-- The name of the view for a component in a directory of views. -/
def viewName (name dir : Text) : Text :=
  match splitHint? name with
  | some (hint, rest) => hint ++ hintMark ++ directory dir ++ rest
  | none => directory dir ++ name

end Component
end TemplateTags
