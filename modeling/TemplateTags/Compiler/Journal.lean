import TemplateTags.Compiler.Basic

/-!
# The journal

A compiler can be asked what it did.  The journal of a pass lists the tags that were found,
then for each compiled tag how its component was resolved and what its attribute text was
expanded to, and at the end how many tags were compiled.  It breaks off with the first
problem, as the pass does.

The journal is computed beside the result and does not take part in it.
-/

namespace TemplateTags
namespace Journal

/-- How much an entry matters. -/
inductive Level where
  | trace
  | debug
  | warn
deriving DecidableEq, Repr

/-- The label of a level. -/
def Level.label : Level → Text
  | .trace => "TRACE".toList
  | .debug => "DEBUG".toList
  | .warn => "WARN".toList

/-- An entry of the journal. -/
inductive Entry where
  /-- A tag was found. -/
  | found (kind : Tag.Kind) (name : Text) (place : Position)
  /-- Attribute text was expanded to the given text. -/
  | expanded (text : Text)
  /-- The name of a component was resolved. -/
  | resolved (component : Text) (resolution : Component.Resolution)
  /-- The name of a component was not resolved. -/
  | failed (problem : Problem)
  /-- A pass came to its end. -/
  | finished (count : Nat) (pass : Pass)
deriving DecidableEq, Repr

/-- The label of a pass. -/
def passLabel : Pass → Text
  | .all => "All".toList
  | .slots => "Slots".toList
  | .components => "Components".toList

/-- A resolution in words. -/
def resolutionMessage (component : Text) (r : Component.Resolution) : Text :=
  let resolved (way : String) : Text :=
    "resolved `".toList ++ component ++ "` ".toList ++ way.toList ++ [' '] ++ r.target.name
  match r.route with
  | .byAlias =>
    resolved (if r.target.isType then "through alias to type" else "through alias to view")
  | .byNamespace => resolved "through its namespace to"
  | .byConvention => resolved "by convention to"
  | .anonymous => resolved "to anonymous view"
  | .raw => "using `".toList ++ component ++ "` as a raw view".toList

namespace Entry

/-- How much the entry matters. -/
def level : Entry → Level
  | .found _ _ _ => .trace
  | .expanded _ => .trace
  | .resolved _ _ => .debug
  | .failed _ => .warn
  | .finished _ _ => .debug

/-- The entry in words. -/
def message : Entry → Text
  | .found kind name place =>
    "scanned ".toList ++ kind.label ++ " tag `".toList ++ name ++ "` at ".toList ++ place.render
  | .expanded text => "rewrote attribute text to `".toList ++ text ++ ['`']
  | .resolved component r => resolutionMessage component r
  | .failed problem => problem.message
  | .finished count pass =>
    "compiled ".toList ++ Text.ofNat count ++ " tag(s) (".toList ++ passLabel pass ++ [')']

end Entry
end Journal

namespace Compiler

open Journal (Entry)

variable (compiler : Compiler)

/-- The journal of expanding attribute text. -/
def expandJournal (text : Text) : List Entry := [.expanded (compiler.expand text)]

/-- The journal of resolving the name of a component. -/
def resolveJournal (name : Text) : List Entry :=
  match compiler.resolve name with
  | .ok r => [.resolved name r]
  | .error p => [.failed p]

/-- The journal of compiling a tag of the given form. -/
def formJournal : Tag.Form → List Entry
  | .opening name text _ =>
    match compiler.resolve name with
    | .ok r => .resolved name r :: compiler.expandJournal text
    | .error p => [.failed p]
  | .closing _ => []
  | .slotOpening _ text _ => compiler.expandJournal text
  | .slotClosing => []

/-- The journal of compiling tags one after the other, up to the first problem, with the
given entries at the end if there is none. -/
def formsJournal (ending : List Entry) : List Tag.Form → List Entry
  | [] => ending
  | f :: l =>
    compiler.formJournal f ++
      match compiler.compileForm f with
      | .ok _ => formsJournal ending l
      | .error _ => []

/-- The journal of a pass over a document. -/
def runJournal (pass : Pass) (source : Text) : List Entry :=
  let tags := Document.tags source
  let forms := (tags.map Tag.form).filter pass.accepts
  tags.map (fun g => .found g.form.kind g.form.name g.span.start) ++
    compiler.formsJournal [.finished forms.length pass] forms

/-- The journal of the two passes that compile slots and then components. -/
def stagedJournal (source : Text) : List Entry :=
  compiler.runJournal .slots source ++
    match compiler.run .slots source with
    | .ok slots => compiler.runJournal .components slots
    | .error _ => []

end Compiler
end TemplateTags
