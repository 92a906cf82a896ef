import TemplateTags.Position

/-!
# Tags

A tag of a template opens or closes a component or a slot.  What a tag says is its
`Tag.Form`; a `Tag` is a form together with the text in which it was written and
the span of that text in its document.

Slots are told apart from components by their form and not by their name: the word
`slot` can also start the name of a component.
-/

namespace TemplateTags
namespace Tag

/-- What a tag says.  Attributes are kept as the text between the name and the end
of the tag. -/
inductive Form where
  /-- The tag opens a component, and closes it as well if `selfClosing` holds. -/
  | opening (name attributes : Text) (selfClosing : Bool)
  /-- The tag closes a component. -/
  | closing (name : Text)
  /-- The tag opens a slot, whose name may be given inline. -/
  | slotOpening (inline : Option Text) (attributes : Text) (selfClosing : Bool)
  /-- The tag closes a slot. -/
  | slotClosing
deriving DecidableEq, Repr

/-- The five kinds of tags. -/
inductive Kind where
  | opening
  | selfClosing
  | closing
  | slotOpening
  | slotClosing
deriving DecidableEq, Repr

/-- The label under which a kind is reported. -/
def Kind.label : Kind → Text
  | .opening => "Opening".toList
  | .selfClosing => "SelfClosing".toList
  | .closing => "Closing".toList
  | .slotOpening => "SlotOpening".toList
  | .slotClosing => "SlotClosing".toList

/-- The word that marks a slot. -/
def slotWord : Text := "slot".toList

namespace Form

/-- The kind of a form. -/
def kind : Form → Kind
  | .opening _ _ false => .opening
  | .opening _ _ true => .selfClosing
  | .closing _ => .closing
  | .slotOpening _ _ _ => .slotOpening
  | .slotClosing => .slotClosing

/-- The name of the component, or the word `slot`. -/
def name : Form → Text
  | .opening n _ _ => n
  | .closing n => n
  | .slotOpening _ _ _ => slotWord
  | .slotClosing => slotWord

/-- The attribute text; closing tags have none. -/
def attributes : Form → Text
  | .opening _ a _ => a
  | .slotOpening _ a _ => a
  | .closing _ => []
  | .slotClosing => []

/-- The name that a slot is given inline. -/
def inline? : Form → Option Text
  | .slotOpening n _ _ => n
  | _ => none

/-- Whether the tag also closes what it opens. -/
def isSelfClosing : Form → Bool
  | .opening _ _ s => s
  | .slotOpening _ _ s => s
  | _ => false

/-- Whether the tag opens or closes a slot. -/
def isSlot : Form → Bool
  | .slotOpening _ _ _ => true
  | .slotClosing => true
  | _ => false

end Form
end Tag

/-- A tag in a document. -/
structure Tag where
  form : Tag.Form
  source : Text
  span : Span
deriving DecidableEq, Repr

end TemplateTags
