import TemplateTags.Position

/-!
# Problems

A name that stands for no component stops the compiling of a document; the problem then
says which name it was and where its tag starts.  A configuration document that cannot be
read is a problem too, but has no place in a document.
-/

namespace TemplateTags

/-- Why something could not be done. -/
inductive Problem where
  /-- A name is registered for a type or view that does not exist. -/
  | unresolvedAlias (target component : Text) (place : Option Position)
  /-- A name stands for no type or view. -/
  | unresolvedComponent (component : Text) (place : Option Position)
  /-- A configuration document cannot be read. -/
  | invalidConfig (reason : Text)
deriving DecidableEq, Repr

namespace Problem

/-- The problem at the given place.  A configuration has no place. -/
def placedAt (p : Position) : Problem → Problem
  | .unresolvedAlias target component _ => .unresolvedAlias target component (some p)
  | .unresolvedComponent component _ => .unresolvedComponent component (some p)
  | .invalidConfig reason => .invalidConfig reason

/-- The name of the component that the problem is about. -/
def component? : Problem → Option Text
  | .unresolvedAlias _ component _ => some component
  | .unresolvedComponent component _ => some component
  | .invalidConfig _ => none

/-- The words for a place. -/
def placeMessage : Option Position → Text
  | some p => " (at ".toList ++ p.render ++ [')']
  | none => []

/-- The problem in words. -/
def message : Problem → Text
  | .unresolvedAlias target component place =>
    "Unable to locate class or view [".toList ++ target ++ "] for component [".toList ++
      component ++ "].".toList ++ placeMessage place
  | .unresolvedComponent component place =>
    "Unable to locate a class or view for component [".toList ++ component ++ "].".toList ++
      placeMessage place
  | .invalidConfig reason => "Invalid compiler configuration: ".toList ++ reason

end Problem
end TemplateTags
