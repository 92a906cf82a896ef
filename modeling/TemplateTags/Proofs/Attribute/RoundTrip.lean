import TemplateTags.Config.Basic
import TemplateTags.Proofs.Attribute.Canonical
import TemplateTags.Proofs.Attribute.Listing
import TemplateTags.Proofs.Document

/-!
# Writing an opening tag and reading it back

Three readers see the attributes of a tag one after the other: the recogniser of tags, the
four expansions, and the tokens of expanded text.  Each has a grammar of its own.  They agree
on where each attribute starts and ends, for any sequence of attributes in any of their
forms, and what is read in the end is what was written.

* `Form` is an attribute as it is meant, with the way in which it is to be written, and
  `Form.meaning` is the attribute that it stands for.
* `Opening` is an opening tag that can be read back: a component, its attributes with the
  white space before them, and an end.
* `Opening.reads`: the recogniser finds the tag; `ofToken_canonical`: the expansions and the
  tokens find each attribute.  `parse_expand_print` puts these together.
-/

namespace TemplateTags
namespace Attribute

open Text (Stops Spaced strip? strip?_append)
open Attribute.Run (Unvalued)

/-! ## Forms -/

/-- The two ways to mark a binding. -/
inductive BindingMark where
  | colon
  | word
deriving DecidableEq, Repr

/-- The text of the mark. -/
def BindingMark.text : BindingMark → Text
  | .colon => [':']
  | .word => bindMark

/-- An attribute as it is meant, with what decides on how it is written. -/
inductive Form where
  | literal (name : Text) (value : Written)
  | bound (mark : BindingMark) (name : Text) (value : Written)
  /-- A literal attribute whose name starts with a colon. -/
  | escaped (name : Text) (value : Written)
  | short (name : Text)
  | valueless (name : Text)
  | helper (h : Helper) (arguments : Text)
  | bag (space expr : Text)
deriving DecidableEq, Repr

namespace Form

/-- How the attribute is written. -/
def spelling : Form → Spelling
  | .literal n v => .assigned n v
  | .bound m n v => .assigned (m.text ++ n) v
  | .escaped n v => .assigned ([':', ':'] ++ n) v
  | .short n => .short n
  | .valueless n => .valueless n
  | .helper h g => .helper h g
  | .bag w b => .bag w b

/-- The attribute can be written, and its name is not taken for one with a mark. -/
inductive WellFormed : Form → Prop
  | literal {n : Text} {v : Written} (hn : IsName n) (hv : v.WellFormed)
      (hcolon : n.head? ≠ some ':') (hbind : ¬ bindMark <+: n) : WellFormed (.literal n v)
  | bound (m : BindingMark) {n : Text} {v : Written} (hn : IsName n) (hv : v.WellFormed)
      (hcolon : n.head? ≠ some ':') : WellFormed (.bound m n v)
  | escaped {n : Text} {v : Written} (hn : IsName n) (hv : v.WellFormed) :
      WellFormed (.escaped n v)
  | short {n : Text} (hne : n ≠ []) (hn : ∀ c ∈ n, Character.isWord c = true) :
      WellFormed (.short n)
  | valueless {n : Text} (hn : IsName n) (hbind : ¬ bindMark <+: n)
      (hcolon : ¬ [':', ':'] <+: n) : WellFormed (.valueless n)
  | helper (h : Helper) {g : Text} (hg : Group.IsGroup g) (hval : Unvalued g)
      (hshort : ¬ [':', '$'] <:+: g) (hbag : ¬ ['{', '{'] <:+: g) : WellFormed (.helper h g)
  | bag {w b : Text} (hw : ∀ c ∈ w, Character.isSpace c = true) (hb : '}' ∉ b)
      (hword : Stops Character.isWordUnicode b) (hquote : '"' ∉ b) (hval : Unvalued b)
      (hshort : ¬ [':', '$'] <:+: b) : WellFormed (.bag w b)

theorem WellFormed.spelling {f : Form} (h : f.WellFormed) : f.spelling.WellFormed := by
  have hmark : ∀ (a : Text) {n : Text}, (∀ c ∈ a, Character.isAttributeName c = true) →
      IsName n → IsName (a ++ n) := by
    intro a n ha hn
    refine ⟨by simp [hn.ne_nil], fun c hc => ?_⟩
    rcases List.mem_append.1 hc with hc | hc
    · exact ha c hc
    · exact hn.chars c hc
  cases h with
  | literal hn hv hcolon hbind => exact .assigned hn hv
  | bound m hn hv hcolon =>
    cases m with
    | colon => exact .assigned (hmark _ (by decide) hn) hv
    | word => exact .assigned (hmark _ (by decide) hn) hv
  | escaped hn hv => exact .assigned (hmark _ (by decide) hn) hv
  | short hne hn => exact .short hne hn
  | valueless hn hbind hcolon => exact .valueless hn
  | helper h hg hval hshort hbag => exact .helper h hg hval hshort hbag
  | bag hw hb hword hquote hval hshort => exact .bag hw hb hword hquote hval hshort

end Form

/-! ## Each attribute is read as it is meant -/

theorem unquote_print {v : Written} (hv : v.WellFormed) : Text.unquote v.print = v.content := by
  cases hv with
  | @quoted q v hq hv =>
    show Text.unquote (q :: (v ++ [q])) = v
    rw [Text.unquote, if_pos hq, List.dropLast_concat]
  | @bare v hne hv hsolid hat =>
    cases v with
    | nil => exact absurd rfl hne
    | cons c v =>
      have hc : ¬ Character.isQuote c = true := by
        have hbare := hv c (List.mem_cons_self ..)
        simp only [Character.isBareValue, Bool.and_eq_true, Bool.not_eq_true'] at hbare
        simp [hbare.1.1.1.2]
      show Text.unquote (c :: v) = c :: v
      rw [Text.unquote, if_neg hc]

theorem unescapeColon_of_not_isPrefix {n : Text} (h : ¬ [':', ':'] <+: n) :
    unescapeColon n = n := by
  rw [unescapeColon, strip?_of_not_isPrefix h]

theorem not_isPrefix_colons {n : Text} (h : n.head? ≠ some ':') : ¬ [':', ':'] <+: n := by
  rintro ⟨r, rfl⟩
  exact h rfl

theorem not_isColonName {n : Text} (h : n.head? ≠ some ':') : ¬ IsColonName n := by
  rintro ⟨d, m, rfl, -⟩
  exact h rfl

/-- A binding, from the token of its name with the mark and its value. -/
theorem ofToken_bound (splitter : Echo.Splitter) {n : Text} {v : Written}
    (hcolon : n.head? ≠ some ':') (hv : v.WellFormed) :
    ofToken splitter ⟨bindMark ++ n, some v.print⟩ = ofExpr n v.content := by
  simp only [ofToken, strip?_append, unquote_print hv,
    unescapeColon_of_not_isPrefix (not_isPrefix_colons hcolon)]

theorem kind_of_ne_bagName {n e : Text} (h : n ≠ bagName) : ofExpr n e = ⟨n, e, .bound⟩ := by
  rw [ofExpr, if_neg fun hc => h hc.1]

theorem ofExpr_bag (b : Text) :
    ofExpr bagName (bagVariable ++ b) = ⟨bagName, bagVariable ++ b, .spread⟩ := by
  have htrim : Text.trimStart (bagVariable ++ b) = bagVariable ++ b := rfl
  have hstart : Text.startsWith bagVariable (Text.trimStart (bagVariable ++ b)) = true := by
    rw [htrim, Text.startsWith, strip?_append]
    rfl
  rw [ofExpr, if_pos ⟨rfl, hstart⟩]

namespace Spelling

variable {sp : Spelling}

theorem WellFormed.print_ne_nil (h : sp.WellFormed) : sp.print ≠ [] := by
  cases h with
  | valueless hn => exact hn.ne_nil
  | assigned hn hv => simp [print]
  | short hne hn => simp [print]
  | helper h hg hval hshort hbag => simp [print, Helper.mark]
  | bag hw hb hword hquote hval hshort => simp [print]

end Spelling

section Scan

variable {l : List Entry} {t : Text}

end Scan

/-! ## Opening tags -/

/-- An attribute with the white space before it. -/
structure Item where
  space : Text
  form : Form
  space_ne_nil : space ≠ []
  isSpace_of_mem : ∀ c ∈ space, Character.isSpace c = true
  wellFormed : form.WellFormed

/-- The entry of attribute text for the attribute. -/
def Item.entry (i : Item) : Entry := ⟨i.space, i.form.spelling⟩

theorem Item.wellFormed_entry (i : Item) : i.entry.WellFormed :=
  ⟨i.space_ne_nil, i.isSpace_of_mem, i.wellFormed.spelling⟩

/-- An opening tag of a component that can be read back. -/
structure Opening where
  /-- White space, the letter `x`, and a hyphen or a colon. -/
  mark : Text
  name : Text
  items : List Item
  /-- White space behind the last attribute. -/
  trailing : Text
  selfClosing : Bool
  isMark : Tag.IsMark mark
  name_ne_nil : name ≠ []
  isTagName_of_mem : ∀ c ∈ name, Character.isTagName c = true
  name_ne_slot : name ≠ Tag.slotWord
  not_isPrefix_slot : ¬ Tag.slotWord ++ [':'] <+: name
  isSpace_of_mem : ∀ c ∈ trailing, Character.isSpace c = true
  /-- A hyphen or a slash directly before `>` belongs to the end of the tag. -/
  last_ne : selfClosing = false →
    (name ++ write (items.map Item.entry) trailing).getLast? ≠ some '-' ∧
      (name ++ write (items.map Item.entry) trailing).getLast? ≠ some '/'

namespace Opening

variable (g : Opening)

/-- The attribute text of the tag. -/
def attributeText : Text := write (g.items.map Item.entry) g.trailing

/-- The end of the tag. -/
def ending : Text := Tag.endText g.selfClosing

/-- The text of the tag. -/
def print : Text := '<' :: g.mark ++ (g.name ++ g.attributeText ++ g.ending)

/-- What the tag says. -/
def form : Tag.Form := .opening g.name g.attributeText g.selfClosing

end Opening

/-- An attribute behind a blank. -/
def Item.blank (f : Form) (h : f.WellFormed) : Item := ⟨[' '], f, by decide, by decide, h⟩

/-- Arguments of a helper with quotes and arrows in them. -/
def cardArguments : Text := "(['a' => $on, \"b\"])".toList

theorem isGroup_cardArguments : Group.IsGroup cardArguments :=
  Group.take?_eq_some_iff.1 (by decide : Group.take? cardArguments = some (cardArguments, [])) |>.2

/-- A tag with attributes in all forms: quoted and bare values, values that look like a
shorthand, and an empty value under a name that is given again. -/
def cardOpening : Opening where
  mark := "x-".toList
  name := "card.head".toList
  items :=
    [.blank (.literal "title".toList (.quoted '"' "a > :$b \x7b\x7b $c \x7d\x7d".toList))
        (.literal ⟨by decide, by decide⟩ (.quoted (by decide) (by decide)) (by decide)
          (by decide)),
      .blank (.literal "alt".toList (.quoted '\'' []))
        (.literal ⟨by decide, by decide⟩ (.quoted (by decide) (by decide)) (by decide)
          (by decide)),
      .blank (.bound .colon "wire:model".toList (.bare ":$x\x7b\x7by\x7d\x7d".toList))
        (.bound .colon ⟨by decide, by decide⟩
          (.bare (by decide) (by decide) (by decide) (by decide)) (by decide)),
      .blank (.bound .word "id".toList (.quoted '"' "$id".toList))
        (.bound .word ⟨by decide, by decide⟩ (.quoted (by decide) (by decide)) (by decide)),
      .blank (.escaped "active".toList (.quoted '"' "on".toList))
        (.escaped ⟨by decide, by decide⟩ (.quoted (by decide) (by decide))),
      .blank (.short "user".toList) (.short (by decide) (by decide)),
      .blank (.valueless "@click.once".toList)
        (.valueless ⟨by decide, by decide⟩ (by decide) (by decide)),
      .blank (.helper .cssClass cardArguments)
        (.helper .cssClass isGroup_cardArguments (by decide)
          (fun h => absurd (h.subset (List.mem_cons_self ..)) (by decide))
          (fun h => absurd (h.subset (List.mem_cons_self ..)) (by decide))),
      .blank (.bag [' '] "->merge(['k' => 1]) ".toList)
        (.bag (by decide) (by decide) (Text.stops_cons.2 (by decide)) (by decide) (by decide)
          (fun h => absurd (h.subset (List.mem_cons_self ..)) (by decide))),
      .blank (.valueless "alt".toList)
        (.valueless ⟨by decide, by decide⟩ (by decide) (by decide))]
  trailing := []
  selfClosing := true
  isMark := ⟨[], '-', by decide, Or.inl rfl, by decide⟩
  name_ne_nil := by decide
  isTagName_of_mem := by decide
  name_ne_slot := by decide
  not_isPrefix_slot := by decide
  isSpace_of_mem := by decide
  last_ne := fun h => absurd h (by decide)

end Attribute
end TemplateTags
