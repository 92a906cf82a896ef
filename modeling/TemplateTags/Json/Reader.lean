import TemplateTags.Json.Basic
import TemplateTags.Json.Token

/-!
# Reading JSON

The reader goes through the tokens of a text once.  It keeps the arrays and objects
that are still open on a stack, with what they hold so far, and knows what may come
next: a value, a key, a colon, or, after a complete value, a comma or the end of what
is around it.

The reading succeeds if the tokens end with one complete value and nothing open
(`Json.parse?`).  Depth is not limited.
-/

namespace TemplateTags
namespace Json
namespace Reader

/-- An open array or object.  What it holds so far is listed from the last to the
first. -/
inductive Frame where
  | array (items : List Json)
  /-- An object in which the value of the given key is due. -/
  | object (members : List (Option Text × Json)) (key : Option Text)

/-- What the reader expects, and what is open around it. -/
inductive State where
  /-- A value, or the end of an array if nothing is in it yet. -/
  | value (canClose : Bool) (stack : List Frame)
  /-- A key, or the end of an object if nothing is in it yet. -/
  | key (canClose : Bool) (members : List (Option Text × Json)) (stack : List Frame)
  /-- The colon behind a key. -/
  | colon (members : List (Option Text × Json)) (key : Option Text) (stack : List Frame)
  /-- What may follow a complete value. -/
  | done (v : Json) (stack : List Frame)

/-- The reader after a token where a value may stand. -/
def valueStep (canClose : Bool) (stack : List Frame) : Token → Option State
  | .null => some (.done .null stack)
  | .bool b => some (.done (.bool b) stack)
  | .number l => some (.done (.number l) stack)
  | .string t => some (.done (.string t) stack)
  | .openArray => some (.value true (.array [] :: stack))
  | .openObject => some (.key true [] stack)
  | .closeArray =>
    match canClose, stack with
    | true, .array items :: rest => some (.done (.array items.reverse) rest)
    | _, _ => none
  | _ => none

/-- The reader after a token behind a complete value. -/
def doneStep (v : Json) : List Frame → Token → Option State
  | .array items :: stack, .comma => some (.value false (.array (v :: items) :: stack))
  | .array items :: stack, .closeArray =>
    some (.done (.array (v :: items).reverse) stack)
  | .object members k :: stack, .comma => some (.key false ((k, v) :: members) stack)
  | .object members k :: stack, .closeObject =>
    some (.done (.object ((k, v) :: members).reverse) stack)
  | _, _ => none

/-- The reader after a token. -/
def step : State → Token → Option State
  | .value canClose stack, k => valueStep canClose stack k
  | .key _ members stack, .string t => some (.colon members t stack)
  | .key true members stack, .closeObject =>
    some (.done (.object members.reverse) stack)
  | .key _ _ _, _ => none
  | .colon members k stack, .colon => some (.value false (.object members k :: stack))
  | .colon _ _ _, _ => none
  | .done v stack, k => doneStep v stack k

end Reader

/-- The value of a text. -/
def parse? (t : Text) : Option Json := do
  let tokens ← Token.ofText? t
  match ← tokens.foldlM Reader.step (.value false []) with
  | .done v [] => some v
  | _ => none

end Json
end TemplateTags
