import TemplateTags.Component.Data
import TemplateTags.Proofs.Keyed.History
import TemplateTags.Proofs.Text.Words

/-!
# Attributes as the outcome of a history

The attributes of a tag are a keyed list under their names, and the names of a keyed list
need not be kept beside its items: a table with the names in a column of their own has, after
the same changes, the same items, each beside its own name (`run_tabled`).

Putting names in camel case can make two names the same, so the list is then built anew, one
attribute after the other.  This is again the outcome of a history, `camelEdits`, and all that
is known of such outcomes holds of it.  Doing it twice does nothing more, since camel case is
its own camel case (`camelKeys_camelKeys`).
-/

namespace TemplateTags
namespace Attribute

open Keyed (Edit Reflects run)
open Component (camelKeys)

/-- The attribute beside its name. -/
def tabled (a : Attribute) : Text × Attribute := (a.name, a)

/-- The attribute with its name in camel case. -/
def camelNamed (a : Attribute) : Attribute := { a with name := a.name.camel }

/-- The history that puts the names of attributes in camel case. -/
def camelEdits (l : List Attribute) : List (Edit Text Attribute) :=
  l.map fun a => .insert a.camelNamed

/-- A table with the names in a column of their own has each item beside its name. -/
theorem run_tabled (h : List (Edit Text Attribute)) :
    run Prod.fst (h.map (Edit.map tabled)) = (run name h).map tabled :=
  Keyed.run_map tabled Prod.fst h

theorem camelKeys_eq_run (l : List Attribute) : camelKeys l = run name (camelEdits l) := by
  have hmap : camelEdits l = (l.map camelNamed).map .insert := (List.map_map ..).symm
  rw [hmap, Keyed.run_map_insert]
  rfl

theorem camelNamed_camelNamed (a : Attribute) : a.camelNamed.camelNamed = a.camelNamed := by
  rw [camelNamed, camelNamed, Text.camel_camel]

/-- The names of attributes are put in camel case once and for all. -/
theorem camelKeys_camelKeys (l : List Attribute) : camelKeys (camelKeys l) = camelKeys l := by
  have hnamed : ∀ a ∈ camelKeys l, a.camelNamed = a := by
    intro a ha
    obtain ⟨b, -, rfl⟩ := List.mem_map.1 (Keyed.mem_of_mem_ofList name ha)
    exact camelNamed_camelNamed b
  calc camelKeys (camelKeys l)
      = Keyed.ofList name ((camelKeys l).map camelNamed) := rfl
    _ = Keyed.ofList name (camelKeys l) := by rw [List.map_congr_left hnamed, List.map_id']
    _ = camelKeys l := Keyed.ofList_of_nodup name (Keyed.nodup_ofList name _)

/-- **A list of attributes is determined by its history.**  After any insertions and removals
the names are distinct, and stand beside their items in a table; present are the names that
were last inserted, with the items of these insertions, in the order of their births.  A
change gives back the item in whose place it puts its own, or nothing if it puts it last.
Camel case is given by inserting the renamed attributes in order, so that the outcome is
determined by these insertions in the same way, and giving it again changes nothing. -/
theorem determined_by_history (h : List (Edit Text Attribute)) :
    Reflects name h (run name h) ∧
      run Prod.fst (h.map (Edit.map tabled)) = (run name h).map tabled ∧
      (∀ (e : Edit Text Attribute) (b : Attribute),
        e.result name (run name h) = some b ↔ b.name = e.about name ∧
          ∃ x y : List Attribute, run name h = x ++ b :: y ∧
            run name (h ++ [e]) = x ++ e.item?.toList ++ y) ∧
      (∀ e : Edit Text Attribute,
        e.result name (run name h) = none ↔ e.about name ∉ (run name h).map name ∧
          run name (h ++ [e]) = run name h ++ e.item?.toList) ∧
      camelKeys (run name h) = run name (camelEdits (run name h)) ∧
      Reflects name (camelEdits (run name h)) (camelKeys (run name h)) ∧
      camelKeys (camelKeys (run name h)) = camelKeys (run name h) := by
  refine ⟨Keyed.reflects_run name h, run_tabled h, fun e b => ?_, fun e => ?_,
    camelKeys_eq_run _, ?_, camelKeys_camelKeys _⟩
  · rw [Keyed.run_concat]
    exact Keyed.result_eq_some_iff name (Keyed.nodup_run name h)
  · rw [Keyed.run_concat]
    exact Keyed.result_eq_none_iff name
  · rw [camelKeys_eq_run]
    exact Keyed.reflects_run name _

end Attribute
end TemplateTags
