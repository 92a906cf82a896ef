import TemplateTags.Helper
import TemplateTags.Keyed

/-!
# Configuration

A configuration says which names are registered for components, where else components
are looked for, and which host names the generated directives use.  Registrations are kept
in the order in which they were made, since the search for a component goes through them in
that order.
-/

namespace TemplateTags

/-- A directory of anonymous components.  Its views are known to the host under the hash of
the directory. -/
structure AnonymousPath where
  path : Text
  /-- The hint under which components of the directory are named, if there is one. -/
  hint : Option Text
  hash : Text
deriving DecidableEq, Repr

namespace AnonymousPath

/-- The hint of the directory, empty if it has none. -/
def hintText (p : AnonymousPath) : Text := p.hint.getD []

end AnonymousPath

/-- A configuration of the compiler. -/
structure Config where
  /-- Types and views registered under the full name of a component. -/
  aliases : List (Text × Text)
  /-- Type namespaces registered under a hint. -/
  namespaces : List (Text × Text)
  /-- Directories of anonymous components. -/
  anonymousPaths : List AnonymousPath
  /-- View directories registered under a hint. -/
  anonymousNamespaces : List (Text × Text)
  /-- The namespace of the application, with a separator at its end. -/
  appNamespace : Text
  /-- The type that renders a component without a type of its own. -/
  anonymousType : Text
  /-- The type whose attributes are never sanitised. -/
  dynamicType : Text
  /-- The type of attribute bags. -/
  bagType : Text
  /-- The function that sanitises a bound value. -/
  sanitizer : Text
  /-- The function that the class helper stands for. -/
  classHelper : Text
  /-- The function that the style helper stands for. -/
  styleHelper : Text
deriving DecidableEq, Repr

namespace Config

/-- The configuration without registrations, and with the customary host names. -/
def standard : Config where
  aliases := []
  namespaces := []
  anonymousPaths := []
  anonymousNamespaces := []
  appNamespace := "App\\".toList
  anonymousType := "Illuminate\\View\\AnonymousComponent".toList
  dynamicType := "Illuminate\\View\\DynamicComponent".toList
  bagType := "Illuminate\\View\\ComponentAttributeBag".toList
  sanitizer :=
    "\\Illuminate\\View\\Compilers\\BladeCompiler::sanitizeComponentAttribute".toList
  classHelper := "\\Illuminate\\Support\\Arr::toCssClasses".toList
  styleHelper := "\\Illuminate\\Support\\Arr::toCssStyles".toList

/-- The host function that a helper stands for. -/
def callee (c : Config) : Helper → Text
  | .cssClass => c.classHelper
  | .cssStyle => c.styleHelper

/-- Registers a type or view under the name of a component. -/
def addAlias (name target : Text) (c : Config) : Config :=
  { c with aliases := Keyed.put Prod.fst (name, target) c.aliases }

/-- Registers a type namespace under a hint. -/
def addNamespace (hint target : Text) (c : Config) : Config :=
  { c with namespaces := Keyed.put Prod.fst (hint, target) c.namespaces }

/-- Registers a directory of anonymous components. -/
def addAnonymousPath (path : AnonymousPath) (c : Config) : Config :=
  { c with anonymousPaths := c.anonymousPaths ++ [path] }

/-- Registers a view directory under a hint. -/
def addAnonymousNamespace (hint directory : Text) (c : Config) : Config :=
  { c with anonymousNamespaces := Keyed.put Prod.fst (hint, directory) c.anonymousNamespaces }

/-- Sets the namespace of the application, with a separator at its end unless it is
empty. -/
def setAppNamespace (name : Text) (c : Config) : Config :=
  { c with
    appNamespace := if name = [] ∨ name.getLast? = some '\\' then name else name ++ ['\\'] }

end Config
end TemplateTags
