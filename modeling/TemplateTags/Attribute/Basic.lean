import TemplateTags.Keyed
import TemplateTags.Text.Basic

/-!
# Attributes

An attribute has a name and the host expression for its value.  Its kind says where
the expression comes from: from literal text, from an expression bound in the template,
or from the attribute bag that a component forwards as a whole.

The attributes of a tag form a keyed list: a name is given once, where it first occurs,
with the value that it was given last.  Beside it stand the names of those whose value
is bound; only these are sanitised later.
-/

namespace TemplateTags
namespace Attribute

/-- Where the value of an attribute comes from. -/
inductive Kind where
  /-- From literal text. -/
  | literal
  /-- From an expression. -/
  | bound
  /-- From the attribute bag. -/
  | spread
deriving DecidableEq, Repr

/-- Whether the value is an expression of the template. -/
def Kind.isBound : Kind → Bool
  | .literal => false
  | .bound => true
  | .spread => true

end Attribute

/-- An attribute: its name, the host expression for its value, and its kind. -/
structure Attribute where
  name : Text
  value : Text
  kind : Attribute.Kind
deriving DecidableEq, Repr

namespace Attribute

/-- What marks a binding in expanded attribute text. -/
def bindMark : Text := "bind:".toList

/-- The variable that holds the attribute bag. -/
def bagVariable : Text := "$attributes".toList

/-- The name under which the attribute bag is forwarded. -/
def bagName : Text := "attributes".toList

/-- The attributes of one tag, keyed by name, and the names of the bound ones. -/
structure Listing where
  items : List Attribute
  bound : List Text
deriving DecidableEq, Repr

namespace Listing

/-- No attributes. -/
def empty : Listing := ⟨[], []⟩

/-- The listing with one more attribute.  An earlier attribute of that name gives way, and
whether the name counts as bound depends on the later one alone. -/
def add (l : Listing) (a : Attribute) : Listing where
  items := Keyed.put Attribute.name a l.items
  bound :=
    if a.kind.isBound then Keyed.put id a.name l.bound else Keyed.erase id a.name l.bound

/-- The listing of attributes that come in the given order. -/
def ofList (l : List Attribute) : Listing := l.foldl add empty

/-- Whether an attribute of that name is bound. -/
def isBound (l : Listing) (name : Text) : Bool := l.bound.contains name

end Listing
end Attribute
end TemplateTags
