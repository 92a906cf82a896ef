import TemplateTags.Attribute.Basic
import TemplateTags.Component.Resolve
import TemplateTags.Text.Casing

/-!
# Data and attributes of a component

The attributes of a tag whose names, in camel case, are parameters of the constructor become
data for the constructor; the others stay attributes.  A component without a type of its own
has no parameters to go by, and gets all attributes in both ways.

The constructor takes its data under the names of its parameters, so the names of the data
are put in camel case.
-/

namespace TemplateTags
namespace Component

/-- Attributes split into data and the rest. -/
structure Split where
  data : List Attribute
  rest : List Attribute
deriving DecidableEq, Repr

/-- Splits attributes by the parameters of a constructor, or gives all of them twice if
there are none to go by. -/
def split (parameters : Option (List Text)) (l : List Attribute) : Split :=
  match parameters with
  | none => ⟨l, l⟩
  | some ps =>
    ⟨l.filter fun a => ps.contains a.name.camel, l.filter fun a => !ps.contains a.name.camel⟩

/-- The parameters by which the attributes for a target are split.  A type without a
constructor has none, so that nothing is data. -/
def parametersOf (host : Host) : Target → Option (List Text)
  | .type n => some ((host.parameters? n).getD [])
  | .view _ => none
  | .rawView _ => none

/-- Attributes under the camel case of their names. -/
def camelKeys (l : List Attribute) : List Attribute :=
  Keyed.ofList Attribute.name (l.map fun a => { a with name := a.name.camel })

end Component
end TemplateTags
