/-!
# Keyed lists

A keyed list holds at most one item under each key and remembers the order in which
the keys came.  It is a plain list together with a projection `key` from items to
keys; the operations below never make two items share a key.

* `Keyed.put` replaces the item under the key of the new one, in its place, or adds
  the new item at the end;
* `Keyed.erase` takes the item under a key out and keeps the order of the rest;
* `Keyed.ofList` puts the items of any list one after the other into an empty one.

Attributes are keyed by their names, the entries of a configuration table by their
first components, and a set of names by the names themselves.
-/

namespace TemplateTags
namespace Keyed

variable {κ α : Type} [DecidableEq κ] (key : α → κ)

/-- The item under a key. -/
def get? (k : κ) (l : List α) : Option α := l.find? fun a => key a = k

/-- Whether there is an item under a key. -/
def has (k : κ) (l : List α) : Bool := l.any fun a => key a = k

/-- Puts an item under its key: in the place of the one that is there, or else at
the end. -/
def put (a : α) : List α → List α
  | [] => [a]
  | b :: l => if key b = key a then a :: l else b :: put a l

/-- Takes the item under a key out. -/
def erase (k : κ) (l : List α) : List α := l.eraseP fun a => key a = k

/-- The keyed list that results from putting the given items in order. -/
def ofList (l : List α) : List α := l.foldl (fun acc a => put key a acc) []

end Keyed
end TemplateTags
