import TemplateTags.Component.Host
import TemplateTags.Component.Name
import TemplateTags.Config.Basic
import TemplateTags.Problem

/-!
# Resolving the name of a component

The name of a component stands for a type, for a view, or for a view that is handed to the
host under the name itself.  If the name is registered, the registration decides, and it is
a problem if nothing exists under it.  Otherwise the following are tried in order, and the
first one that exists is taken:

1. the type in the namespace registered under the hint of the name;
2. the type in the namespace for components of the application;
3. a view below the directories of anonymous components;
4. a view in the directories registered under the hint of the name, and then in the
   customary directory;
5. the name itself, if its hint is `mail`.

A view is also found as the index of a directory of its name.
-/

namespace TemplateTags
namespace Component

/-- What the name of a component stands for. -/
inductive Target where
  /-- A type of the host. -/
  | type (name : Text)
  /-- A view, rendered through the type for anonymous components. -/
  | view (name : Text)
  /-- A view that the host makes from the name of the component. -/
  | rawView (name : Text)
deriving DecidableEq, Repr

namespace Target

/-- The name of the type or view. -/
def name : Target → Text
  | .type n => n
  | .view n => n
  | .rawView n => n

/-- Whether the target is a type. -/
def isType : Target → Bool
  | .type _ => true
  | _ => false

end Target

/-- The way in which the target of a name was found. -/
inductive Route where
  | byAlias
  | byNamespace
  | byConvention
  | anonymous
  | raw
deriving DecidableEq, Repr

/-- The target of a name and the way in which it was found. -/
structure Resolution where
  target : Target
  route : Route
deriving DecidableEq, Repr

/-! ## Types -/

/-- The name without separators at its end. -/
def trimSeparators (name : Text) : Text := Text.trimEndBy (· = '\\') name

/-- The type in the namespace that is registered under the hint of the name.  Only the part
up to the next double colon counts. -/
def namespacedType? (config : Config) (host : Host) (name : Text) : Option Text := do
  let (hint, rest) ← splitHint? name
  let entry ← Keyed.get? Prod.fst hint config.namespaces
  let base := (splitHint? rest).elim rest Prod.fst
  let type := trimSeparators entry.2 ++ ['\\'] ++ typeName base
  if host.hasType type then return type else none

/-- The type that a name stands for by convention, whether it exists or not. -/
def conventionalType (config : Config) (name : Text) : Text :=
  let app := trimSeparators config.appNamespace
  (if app = [] then [] else app ++ ['\\']) ++ "View\\Components\\".toList ++ typeName name

/-- The type that a name stands for by convention, if it exists. -/
def conventionalType? (config : Config) (host : Host) (name : Text) : Option Text :=
  if host.hasType (conventionalType config name) then some (conventionalType config name)
  else none

/-! ## Views -/

/-- The view, or else the index of the directory of that name. -/
def existingView? (host : Host) (view : Text) : Option Text :=
  if host.hasView view then some view
  else if host.hasView (view ++ ".index".toList) then some (view ++ ".index".toList)
  else none

/-- The name of a component relative to a directory, unless it has a hint that is not the
one of the directory. -/
def nameInPath? (path : AnonymousPath) (name : Text) : Option Text :=
  if Text.startsWith (path.hintText ++ hintMark) name then some (Text.after hintMark name)
  else if Text.hasInfix hintMark name then none
  else some name

/-- The view below a directory. -/
def pathView? (host : Host) (name : Text) (path : AnonymousPath) : Option Text := do
  let n ← nameInPath? path name
  existingView? host (path.hash ++ hintMark ++ n)

/-- The customary directory of views for components. -/
def customaryDirectory : Text := "components".toList

/-- The directories in which the view for a name is looked for, each with the name to be
looked for in it. -/
def viewPlaces (config : Config) (name : Text) : List (Text × Text) :=
  (config.anonymousNamespaces.filterMap fun e =>
    (Text.strip? (e.1 ++ hintMark) name).map fun n => (n, e.2)) ++
    [(name, customaryDirectory)]

/-- The anonymous view for a name. -/
def anonymousView? (config : Config) (host : Host) (name : Text) : Option Text :=
  (config.anonymousPaths.findSome? (pathView? host name)).or
    ((viewPlaces config name).findSome? fun p => existingView? host (viewName p.1 p.2))

/-! ## All ways -/

/-- The target of a name that is registered. -/
def aliasTarget? (host : Host) (target : Text) : Option Target :=
  if host.hasType target then some (.type target)
  else if host.hasView target then some (.view target)
  else none

/-- The hint of names that are handed to the host. -/
def rawHint : Text := "mail::".toList

/-- The name as that of a view for the host to make. -/
def rawView? (name : Text) : Option Target :=
  if Text.startsWith rawHint name then some (.rawView name) else none

/-- The target of a name that is not registered. -/
def search? (config : Config) (host : Host) (name : Text) : Option Resolution :=
  ((namespacedType? config host name).map fun n => ⟨.type n, .byNamespace⟩).or
    (((conventionalType? config host name).map fun n => ⟨.type n, .byConvention⟩).or
      (((anonymousView? config host name).map fun n => ⟨.view n, .anonymous⟩).or
        ((rawView? name).map fun v => ⟨v, .raw⟩)))

/-- The target of a name. -/
def resolve (config : Config) (host : Host) (name : Text) : Except Problem Resolution :=
  match Keyed.get? Prod.fst name config.aliases with
  | some (_, target) =>
    match aliasTarget? host target with
    | some r => .ok ⟨r, .byAlias⟩
    | none => .error (.unresolvedAlias target name none)
  | none =>
    match search? config host name with
    | some r => .ok r
    | none => .error (.unresolvedComponent name none)

end Component
end TemplateTags
