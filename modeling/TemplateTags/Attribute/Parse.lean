import TemplateTags.Attribute.Basic
import TemplateTags.Attribute.Token
import TemplateTags.Echo
import TemplateTags.Text.WhiteSpace

/-!
# Reading attributes

A token becomes an attribute as follows.  A name without a value is bound to `true`.  A
name that starts with `bind:` is bound to the expression in its value.  Every other value
is literal text, and turns into a host string.  After that a double colon at the start of
the name, which escapes a colon, becomes a single one.

A binding of `attributes` to an expression that starts with the attribute bag forwards the
bag.
-/

namespace TemplateTags

/-- The value without its quotes: if it starts with a quote, the first and the last
character are dropped. -/
def Text.unquote : Text → Text
  | [] => []
  | c :: t => if Character.isQuote c then t.dropLast else c :: t

namespace Attribute

open Text (strip?)

/-- The name with a double colon at its start made a single one. -/
def unescapeColon (name : Text) : Text :=
  match strip? [':', ':'] name with
  | some r => ':' :: r
  | none => name

/-- The attribute with the given name and a bound expression. -/
def ofExpr (name expr : Text) : Attribute where
  name := name
  value := expr
  kind :=
    if name = bagName ∧ Text.startsWith bagVariable expr.trimStart then .spread else .bound

/-- The attribute that a token stands for. -/
def ofToken (splitter : Echo.Splitter) (k : Token) : Attribute :=
  match k.value, strip? bindMark k.name with
  | none, none => ofExpr (unescapeColon k.name) "true".toList
  | none, some name => ofExpr (unescapeColon name) "true".toList
  | some v, some name => ofExpr (unescapeColon name) v.unquote
  | some v, none => ⟨unescapeColon k.name, Echo.stringLiteral splitter v.unquote, .literal⟩

/-- The listing of the attributes that tokens stand for. -/
def Listing.ofTokens (splitter : Echo.Splitter) (l : List Token) : Listing :=
  Listing.ofList (l.map (ofToken splitter))

/-- The listing of the attributes in expanded attribute text. -/
def Listing.parse (splitter : Echo.Splitter) (t : Text) : Listing :=
  Listing.ofTokens splitter (Token.ofText t)

end Attribute
end TemplateTags
