import TemplateTags.Keyed
import TemplateTags.Text.Basic

/-!
# The host

Whether a name stands for a component depends on the types and views that the host knows.
All the compiler asks the host is whether a type or a view exists, and which parameters the
constructor of a type has.  A type may have no constructor.
-/

namespace TemplateTags

/-- What the compiler can ask the host. -/
structure Host where
  hasType : Text → Bool
  /-- The parameters of the constructor of a type, if it has one. -/
  parameters? : Text → Option (List Text)
  hasView : Text → Bool

namespace Host

/-- The host that knows the given types, each with the parameters of its constructor, and
the given views.  A type that is given twice is as it was given last. -/
def ofTables (types : List (Text × Option (List Text))) (views : List Text) : Host where
  hasType n := Keyed.has Prod.fst n (Keyed.ofList Prod.fst types)
  parameters? n :=
    (Keyed.get? Prod.fst n (Keyed.ofList Prod.fst types)).bind fun e =>
      e.2.map (Keyed.ofList id)
  hasView n := views.contains n

end Host
end TemplateTags
