import Mathlib.Data.List.Basic
import TemplateTags.Proofs.Group
import TemplateTags.Tag.Match

/-!
# The grammar of tags

A tag is described here by what it is made of, with no order in which shapes are tried
and no longest runs.  With `W` for white space and `N` for the characters of a tag name,

    value := a quoted text | a run of bare characters
    attr  := helper group | bag echo | `:$` word | name | name `=` value
    attrs := (W+ attr)* W*
    end   := `/>` | `>`, not directly after `=` or `-`
    tag   := `<` mark `slot` inline? attrs end | `<` mark N+ attrs end
           | `</` mark `slot` … `>` | `</` mark N* W* `>`

where the mark is `W* x` with a hyphen or a colon behind it.

## Context

Whether a bare run is a value depends on what comes next: a slash at its end belongs to
the end of the tag if `>` follows, and only such a slash may leave the value empty.  So the
relations for values and attributes have a second argument, the text behind.  Nothing
behind the end of the tag matters, which `IsAttributeText.congr` makes precise: a text that
ends with `>` hides all that follows it.

`Derives f a` says that the text `a` is a tag of the form `f`.  A text can be derived as a
slot and as a component; which of the two readings counts is not a matter of the grammar.
-/

namespace TemplateTags
namespace Tag

open Attribute (bagVariable)

/-! ## Values and attributes -/

/-- A value in front of the text `r`. -/
inductive IsValue : (v r : Text) → Prop
  | quoted {q : Char} {v r : Text} (hq : Character.isQuote q = true) (hv : q ∉ v) :
      IsValue (q :: v ++ [q]) r
  | bare {v r : Text} (hv : ∀ c ∈ v, Character.isBareValue c = true)
      (hslash : v.getLast? = some '/' → r.head? ≠ some '>')
      (hempty : v = [] → ['/', '>'] <+: r) : IsValue v r

/-- An attribute in front of the text `r`. -/
inductive IsAttribute : (a r : Text) → Prop
  | helper (h : Helper) {g r : Text} (hg : Group.IsGroup g) : IsAttribute (h.mark ++ g) r
  | bag {w b r : Text} (hw : ∀ c ∈ w, Character.isSpace c = true) (hb : '}' ∉ b) :
      IsAttribute (['{', '{'] ++ w ++ bagVariable ++ b ++ ['}', '}']) r
  | short {n r : Text} (hne : n ≠ []) (hn : ∀ c ∈ n, Character.isWord c = true) :
      IsAttribute ([':', '$'] ++ n) r
  | name {n r : Text} (hne : n ≠ []) (hn : ∀ c ∈ n, Character.isAttributeName c = true) :
      IsAttribute n r
  | assigned {n v r : Text} (hne : n ≠ [])
      (hn : ∀ c ∈ n, Character.isAttributeName c = true) (hv : IsValue v r) :
      IsAttribute (n ++ '=' :: v) r

/-- Attributes with white space before each and perhaps behind the last, in front of the
text `r`. -/
inductive IsAttributeText : (a r : Text) → Prop
  | space {w r : Text} (hw : ∀ c ∈ w, Character.isSpace c = true) : IsAttributeText w r
  | cons {w a s r : Text} (hne : w ≠ []) (hw : ∀ c ∈ w, Character.isSpace c = true)
      (ha : IsAttribute a (s ++ r)) (hs : IsAttributeText s r) :
      IsAttributeText (w ++ a ++ s) r

/-! ## Tags -/

/-- The end of a tag whose body is given, and whether it also closes the tag. -/
inductive IsEnding (body : Text) : Bool → Text → Prop
  | selfClosing : IsEnding body true ['/', '>']
  | plain (heq : body.getLast? ≠ some '=') (hminus : body.getLast? ≠ some '-') :
      IsEnding body false ['>']

/-- How the end of a tag is written. -/
def endText (selfClosing : Bool) : Text := if selfClosing then ['/', '>'] else ['>']

/-- Words with single hyphens between them. -/
inductive IsInlineName : Text → Prop
  | word {w : Text} (hne : w ≠ []) (hw : ∀ c ∈ w, Character.isWord c = true) : IsInlineName w
  | hyphen {w n : Text} (hne : w ≠ []) (hw : ∀ c ∈ w, Character.isWord c = true)
      (hn : IsInlineName n) : IsInlineName (w ++ '-' :: n)

/-- What follows the word `slot` in an opening tag: nothing, or a colon and a name. -/
inductive IsSlotName : Option Text → Text → Prop
  | absent : IsSlotName none []
  | inline {n : Text} (hn : IsInlineName n) : IsSlotName (some n) (':' :: n)

/-- The mark of a tag: white space, the letter `x`, and a hyphen or a colon. -/
def IsMark (m : Text) : Prop :=
  ∃ w c, (∀ d ∈ w, Character.isSpace d = true) ∧ (c = '-' ∨ c = ':') ∧ m = w ++ ['x', c]

/-- The text does not go on with the name of a component, unless with a colon. -/
def EndsSlotWord (t : Text) : Prop :=
  ∀ c ∈ t.head?, c = ':' ∨ Character.isTagName c = false

/-- The text is a tag of the given form. -/
inductive Derives : Form → Text → Prop
  | slotOpening {m n a e : Text} {inline : Option Text} {s : Bool} (hm : IsMark m)
      (hn : IsSlotName inline n) (ha : IsAttributeText a e)
      (he : IsEnding (slotWord ++ n ++ a) s e) :
      Derives (.slotOpening inline a s) ('<' :: m ++ (slotWord ++ n ++ a ++ e))
  | opening {m n a e : Text} {s : Bool} (hm : IsMark m) (hne : n ≠ [])
      (hn : ∀ c ∈ n, Character.isTagName c = true) (ha : IsAttributeText a e)
      (he : IsEnding (n ++ a) s e) : Derives (.opening n a s) ('<' :: m ++ (n ++ a ++ e))
  | slotClosing {m t : Text} (hm : IsMark m) (ht : '>' ∉ t) (hw : EndsSlotWord (t ++ ['>'])) :
      Derives .slotClosing ('<' :: '/' :: m ++ (slotWord ++ t ++ ['>']))
  | closing {m n w : Text} (hm : IsMark m) (hn : ∀ c ∈ n, Character.isTagName c = true)
      (hw : ∀ c ∈ w, Character.isSpace c = true) :
      Derives (.closing n) ('<' :: '/' :: m ++ (n ++ w ++ ['>']))

/-! ## Nothing behind the end of a tag matters -/

/-- A text that ends with `>` decides by itself what can stand before it. -/
theorem IsValue.congr {v e r : Text} (he : e.getLast? = some '>') :
    IsValue v (e ++ r) ↔ IsValue v e := by
  obtain ⟨u, rfl⟩ := List.getLast?_eq_some_iff.1 he
  have hhead : (u ++ ['>'] ++ r).head? = (u ++ ['>']).head? := by
    cases u <;> rfl
  -- a slash cannot be the last character of `u ++ ['>']`, so the two end together
  have hend : ['/', '>'] <+: u ++ ['>'] ++ r ↔ ['/', '>'] <+: u ++ ['>'] := by
    match u with
    | [] => simp [List.cons_prefix_cons]
    | [c] => simp [List.cons_prefix_cons]
    | c :: d :: u => simp [List.cons_prefix_cons]
  constructor
  · rintro (⟨hq, hv⟩ | ⟨hv, hslash, hempty⟩)
    · exact .quoted hq hv
    · exact .bare hv (hhead ▸ hslash) fun h => hend.1 (hempty h)
  · rintro (⟨hq, hv⟩ | ⟨hv, hslash, hempty⟩)
    · exact .quoted hq hv
    · exact .bare hv (hhead ▸ hslash) fun h => hend.2 (hempty h)

theorem IsAttribute.congr {a e r : Text} (he : e.getLast? = some '>') :
    IsAttribute a (e ++ r) ↔ IsAttribute a e := by
  constructor
  · intro h
    cases h with
    | helper h hg => exact .helper h hg
    | bag hw hb => exact .bag hw hb
    | short hne hn => exact .short hne hn
    | name hne hn => exact .name hne hn
    | assigned hne hn hv => exact .assigned hne hn ((IsValue.congr he).1 hv)
  · intro h
    cases h with
    | helper h hg => exact .helper h hg
    | bag hw hb => exact .bag hw hb
    | short hne hn => exact .short hne hn
    | name hne hn => exact .name hne hn
    | assigned hne hn hv => exact .assigned hne hn ((IsValue.congr he).2 hv)

theorem IsAttributeText.congr {a e r : Text} (he : e.getLast? = some '>') :
    IsAttributeText a (e ++ r) ↔ IsAttributeText a e := by
  constructor
  · intro h
    generalize hr : e ++ r = t at h
    induction h with
    | space hw => exact .space hw
    | @cons w b s t hne hw hb hs ih =>
      rw [← hr, ← List.append_assoc] at hb
      exact .cons hne hw
        ((IsAttribute.congr (List.mem_getLast?_append_of_mem_getLast? he)).1 hb) (ih hr)
  · intro h
    induction h with
    | space hw => exact .space hw
    | cons hne hw hb _ ih =>
      refine .cons hne hw ?_ (ih he)
      rw [← List.append_assoc]
      exact (IsAttribute.congr (List.mem_getLast?_append_of_mem_getLast? he)).2 hb

end Tag
end TemplateTags
