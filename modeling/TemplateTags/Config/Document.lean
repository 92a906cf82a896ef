import TemplateTags.Config.Basic
import TemplateTags.Json.Reader
import TemplateTags.Json.Writer
import TemplateTags.Problem

/-!
# Configuration documents

A configuration is written as a JSON object with one member for each of its eleven fields,
and read from an object in which any of them may be left out; a field that is left out has
its standard value.  Members with other keys are passed over, whatever their values, but no
field may be given twice.

A record can also be written as an array of its fields in order, from which fields at the
end may be left out.  The same rules hold for the records of directories, only that there
the path and the hash are required.

In a table every key stands for itself, and of two equal keys the later value counts.
-/

namespace TemplateTags
namespace Config

/-! ## Records -/

/-- The fields of a record with the given keys, as a function from keys to values. -/
def record? (keys : List Text) : Json → Option (Text → Option Json)
  | .object members =>
    if (members.all fun m => m.1.isSome) &&
        keys.all fun k => (members.filter fun m => m.1 = some k).length ≤ 1 then
      some fun k => (members.find? fun m => m.1 = some k).map Prod.snd
    else none
  | .array items =>
    if items.length ≤ keys.length then some fun k => items[keys.idxOf k]? else none
  | _ => none

/-- A field that may be left out. -/
def optional {α : Type} (standard : α) (read : Json → Option α) : Option Json → Option α
  | none => some standard
  | some v => read v

/-- A table of texts. -/
def table? (v : Json) : Option (List (Text × Text)) :=
  match v with
  | .object members => do
    let entries ← members.mapM fun m => do
      let k ← m.1
      let t ← m.2.text?
      return (k, t)
    return Keyed.ofList Prod.fst entries
  | _ => none

/-- A text, or nothing if the value is null. -/
def nullable? : Json → Option (Option Text)
  | .null => some none
  | v => v.text?.map some

/-! ## Directories -/

/-- The keys of the record of a directory. -/
def pathKeys : List Text := ["path".toList, "prefix".toList, "prefixHash".toList]

/-- The directory that a value stands for. -/
def path? (v : Json) : Option AnonymousPath := do
  let field ← record? pathKeys v
  let path ← (field "path".toList).bind Json.text?
  let hint ← optional none nullable? (field "prefix".toList)
  let hash ← (field "prefixHash".toList).bind Json.text?
  return ⟨path, hint, hash⟩

/-- The directories that a value stands for. -/
def paths? (v : Json) : Option (List AnonymousPath) := do
  let items ← v.items?
  items.mapM path?

/-! ## Configurations -/

/-- The keys of the record of a configuration. -/
def keys : List Text :=
  ["aliases".toList, "namespaces".toList, "anonymousComponentPaths".toList,
    "anonymousComponentNamespaces".toList, "appNamespace".toList,
    "anonymousComponentType".toList, "dynamicComponentType".toList,
    "attributeBagType".toList, "sanitizer".toList, "classHelper".toList,
    "styleHelper".toList]

/-- The configuration that a value stands for. -/
def ofJson? (v : Json) : Option Config := do
  let field ← record? keys v
  let aliases ← optional standard.aliases table? (field "aliases".toList)
  let namespaces ← optional standard.namespaces table? (field "namespaces".toList)
  let anonymousPaths ←
    optional standard.anonymousPaths paths? (field "anonymousComponentPaths".toList)
  let anonymousNamespaces ←
    optional standard.anonymousNamespaces table? (field "anonymousComponentNamespaces".toList)
  let appNamespace ← optional standard.appNamespace Json.text? (field "appNamespace".toList)
  let anonymousType ←
    optional standard.anonymousType Json.text? (field "anonymousComponentType".toList)
  let dynamicType ←
    optional standard.dynamicType Json.text? (field "dynamicComponentType".toList)
  let bagType ← optional standard.bagType Json.text? (field "attributeBagType".toList)
  let sanitizer ← optional standard.sanitizer Json.text? (field "sanitizer".toList)
  let classHelper ← optional standard.classHelper Json.text? (field "classHelper".toList)
  let styleHelper ← optional standard.styleHelper Json.text? (field "styleHelper".toList)
  return { aliases, namespaces, anonymousPaths, anonymousNamespaces, appNamespace,
           anonymousType, dynamicType, bagType, sanitizer, classHelper, styleHelper }

/-- The configuration in a document. -/
def parse? (t : Text) : Option Config := do
  let v ← Json.parse? t
  ofJson? v

/-- Reads a configuration document. -/
def read (t : Text) : Except Problem Config :=
  match parse? t with
  | some c => .ok c
  | none => .error (.invalidConfig "the document is not a configuration".toList)

/-! ## Writing -/

/-- The object for a table. -/
def tableJson (l : List (Text × Text)) : Json :=
  .object (l.map fun e => (some e.1, .ofText e.2))

/-- The object for a directory. -/
def pathJson (p : AnonymousPath) : Json :=
  .object [(some "path".toList, .ofText p.path),
    (some "prefix".toList, p.hint.elim .null .ofText),
    (some "prefixHash".toList, .ofText p.hash)]

/-- The object for a configuration. -/
def toJson (c : Config) : Json :=
  .object [(some "aliases".toList, tableJson c.aliases),
    (some "namespaces".toList, tableJson c.namespaces),
    (some "anonymousComponentPaths".toList, .array (c.anonymousPaths.map pathJson)),
    (some "anonymousComponentNamespaces".toList, tableJson c.anonymousNamespaces),
    (some "appNamespace".toList, .ofText c.appNamespace),
    (some "anonymousComponentType".toList, .ofText c.anonymousType),
    (some "dynamicComponentType".toList, .ofText c.dynamicType),
    (some "attributeBagType".toList, .ofText c.bagType),
    (some "sanitizer".toList, .ofText c.sanitizer),
    (some "classHelper".toList, .ofText c.classHelper),
    (some "styleHelper".toList, .ofText c.styleHelper)]

/-- The document for a configuration. -/
def render (c : Config) : Text := c.toJson.render

end Config
end TemplateTags
