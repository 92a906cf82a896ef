import TemplateTags.Attribute.Expand
import TemplateTags.Attribute.Parse
import TemplateTags.Directive
import TemplateTags.Document

/-!
# The compiler

A compiler replaces the tags of a document by directives and keeps the text between them.
It works tag by tag: what is written for a tag depends on the tag alone, and the document
fails with the first tag whose component cannot be resolved.

A pass compiles all tags, or only those of slots, or only those of components; the other
tags stay in the document as they are written.
-/

namespace TemplateTags

/-- A compiler: its configuration, the host that it asks, and the way in which it finds
echoes in literal text. -/
structure Compiler where
  config : Config
  host : Host
  splitter : Echo.Splitter

/-- The tags that a pass compiles. -/
inductive Pass where
  | all
  | slots
  | components
deriving DecidableEq, Repr

namespace Pass

/-- Whether the pass compiles tags of the given form. -/
def accepts : Pass → Tag.Form → Bool
  | .all, _ => true
  | .slots, f => f.isSlot
  | .components, f => !f.isSlot

end Pass

namespace Compiler

variable (compiler : Compiler)

/-- The attribute text of a tag with its shorthands expanded. -/
def expand (text : Text) : Text := Attribute.expand compiler.config.callee text

/-- The attributes in the attribute text of a tag. -/
def attributes (text : Text) : Attribute.Listing :=
  .parse compiler.splitter (compiler.expand text)

/-- The target of the name of a component. -/
def resolve (name : Text) : Except Problem Component.Resolution :=
  Component.resolve compiler.config compiler.host name

/-- The split of attributes into data and the rest for a target. -/
def split (target : Component.Target) (l : List Attribute) : Component.Split :=
  Component.split (Component.parametersOf compiler.host target) l

/-! ## Components -/

/-- The directive that opens a component with the given target. -/
def componentDirective (name text : Text) (target : Component.Target) : Text :=
  let listing := compiler.attributes text
  let parts := compiler.split target listing.items
  Directive.componentOpen compiler.config target name (Component.camelKeys parts.data)
    parts.rest listing.bound

/-- The directive that opens a component. -/
def openComponent (name text : Text) : Except Problem Text := do
  let r ← compiler.resolve name
  return compiler.componentDirective name text r.target

/-! ## Slots -/

/-- The host expression for the literal name of a slot. -/
def literalSlotName (name : Text) : Text :=
  '\'' :: (if name.contains '-' then name.camel else name) ++ ['\'']

/-- The host expression that a token gives as the name of a slot, if it gives any. -/
def slotName? (k : Attribute.Token) : Option Text :=
  match k.value with
  | none => none
  | some v =>
    if k.name = "name".toList then some (literalSlotName v.unquote)
    else if k.name = "bind:name".toList then some v.unquote
    else none

/-- The name of a slot and its tokens without those that give the name.  Of several such
tokens the last counts; without any the name is empty. -/
def takeSlotName (l : List Attribute.Token) : Text × List Attribute.Token :=
  ((l.filterMap slotName?).getLast?.getD ['\'', '\''],
    l.filter fun k => (slotName? k).isNone)

/-- The name of a slot and the tokens of its attributes.  If the name is given inline, a
token that would give it is an attribute like any other. -/
def slotParts (inline : Option Text) (l : List Attribute.Token) :
    Text × List Attribute.Token :=
  match inline with
  | some n => (literalSlotName n, l)
  | none => takeSlotName l

/-- The directive that opens a slot. -/
def slotDirective (inline : Option Text) (text : Text) : Text :=
  let parts := slotParts inline (Attribute.Token.ofText (compiler.expand text))
  let listing := Attribute.Listing.ofTokens compiler.splitter parts.2
  Directive.slotOpen compiler.config parts.1 listing.items listing.bound

/-! ## Documents -/

/-- What is written for a tag of the given form. -/
def compileForm : Tag.Form → Except Problem Text
  | .opening name text false => compiler.openComponent name text
  | .opening name text true => do
    let d ← compiler.openComponent name text
    return d ++ Directive.selfClosing
  | .closing _ => return Directive.componentClose
  | .slotOpening inline text false => return compiler.slotDirective inline text
  | .slotOpening inline text true =>
    return compiler.slotDirective inline text ++ Directive.slotClose
  | .slotClosing => return Directive.slotClose

/-- What is written for a tag.  A problem gets the place where the tag starts. -/
def compileTag (tag : Tag) : Except Problem Text :=
  (compiler.compileForm tag.form).mapError (Problem.placedAt tag.span.start)

/-- What a pass writes for a piece of a document. -/
def compilePiece (pass : Pass) : Piece → Except Problem Text
  | .text t => return t
  | .tag g => if pass.accepts g.form then compiler.compileTag g else return g.source

/-- Compiles a document in the given pass. -/
def run (pass : Pass) (source : Text) : Except Problem Text := do
  let outputs ← (Document.pieces source).mapM (compiler.compilePiece pass)
  return outputs.flatten

/-- Compiles all tags of a document. -/
def compile (source : Text) : Except Problem Text := compiler.run .all source

/-- Compiles the slots of a document and then its components. -/
def compileStaged (source : Text) : Except Problem Text := do
  let slots ← compiler.run .slots source
  compiler.run .components slots

end Compiler
end TemplateTags
