import TemplateTags.Proofs.Compiler.SlotName
import TemplateTags.Proofs.Echo.HostLiteral
import TemplateTags.Proofs.Text.Casing

/-!
# The literal name of a slot

The directive that opens a slot starts with the name of the slot as a host expression.  For
a literal name, given inline or by an attribute `name`, this is the name between single
quotes, in camel case if it has a hyphen (`spelledName`).  The quotes are put around the name
as it is, with nothing escaped.

So whether the host reads the name back is decided by the name alone
(`opensWith_append_iff`): it must have no quote, and every backslash in it must stand before
a character that it does not escape.

* An inline name consists of words and hyphens and always is read back.
* A name in an attribute can be any text that fits between the quotes of its value, and then
  a single quote ends the literal early, and a backslash at the end keeps it open
  (`not_opensWith`).
-/

namespace TemplateTags
namespace Compiler

open Attribute (Token)
open HostLiteral (literal? Inert)

/-! ## The name -/

/-- A literal name as it is written: in camel case if it has a hyphen. -/
def spelledName (n : Text) : Text := if n.contains '-' then n.camel else n

theorem literalSlotName_eq (n : Text) :
    literalSlotName n = '\'' :: (spelledName n ++ ['\'']) := rfl

/-- Apart from letters, a written name has the characters of the name. -/
theorem notMem_spelledName {n : Text} {d : Char} (hd : Character.IsCaseless d) (h : d ∉ n) :
    d ∉ spelledName n := by
  unfold spelledName
  split
  · exact Text.notMem_camel hd h
  · exact h

/-- Whether a token is one of those that give a slot its name. -/
def isNaming (k : Token) : Bool :=
  k.value.isSome && (k.name = "name".toList || k.name = "bind:name".toList)

variable (compiler : Compiler)

/-- A slot tag with the given inline name and attribute text has the literal name `n`: it is
given inline, or else by the last of the attributes that give a name. -/
inductive HasLiteralName : (inline : Option Text) → (a n : Text) → Prop
  | inline {n a : Text} : HasLiteralName (some n) a n
  | assigned {a v : Text}
      (h : ((Token.ofText (compiler.expand a)).filter isNaming).getLast? =
        some ⟨"name".toList, some v⟩) : HasLiteralName none a v.unquote

theorem slotName?_of_not_isNaming {k : Token} (h : isNaming k = false) : slotName? k = none := by
  refine slotName?_eq_none fun v => ⟨?_, ?_⟩
  · rintro rfl
    exact absurd h (by simp [isNaming])
  · rintro rfl
    exact absurd h (by simp [isNaming])

/-- The last of the tokens that give a name counts. -/
theorem takeSlotName_of_getLast? {l : List Token} {v : Text}
    (h : (l.filter isNaming).getLast? = some ⟨"name".toList, some v⟩) :
    (takeSlotName l).1 = literalSlotName v.unquote := by
  have hnames : l.filterMap slotName? = (l.filter isNaming).filterMap slotName? := by
    rw [List.filterMap_filter]
    refine List.filterMap_congr fun k _ => ?_
    split
    · rfl
    · next hk => exact slotName?_of_not_isNaming (Bool.eq_false_iff.2 hk)
  obtain ⟨m, hm⟩ := List.getLast?_eq_some_iff.1 h
  have hlast : slotName? ⟨"name".toList, some v⟩ = some (literalSlotName v.unquote) := rfl
  rw [takeSlotName, hnames, hm, List.filterMap_append, List.filterMap_cons, hlast,
    List.filterMap_nil, List.getLast?_concat]
  rfl

/-- The expression for a literal name is the written name between quotes. -/
theorem HasLiteralName.slotParts_eq {compiler : Compiler} {inline : Option Text} {a n : Text}
    (h : compiler.HasLiteralName inline a n) :
    (slotParts inline (Token.ofText (compiler.expand a))).1 = literalSlotName n := by
  cases h with
  | inline => rfl
  | assigned h => exact takeSlotName_of_getLast? h

/-! ## The directive -/

/-- The output opens a slot with a literal that denotes the name, and the attributes of the
slot follow directly behind the literal. -/
def OpensWith (name out : Text) : Prop :=
  ∃ t r, out = " @slot(".toList ++ t ∧ literal? t = some (name, ", null, [".toList ++ r)

/-- Between quotes as it is, a name is read back exactly if it has no quote and its
backslashes are inert. -/
theorem opensWith_append_iff (name r : Text) :
    OpensWith name (" @slot(".toList ++ ('\'' :: (name ++ '\'' :: (", null, [".toList ++ r)))) ↔
      '\'' ∉ name ∧ Inert name := by
  have hread : ∀ t, literal? ('\'' :: t) = HostLiteral.closed? t := fun _ => rfl
  constructor
  · rintro ⟨t, s, ht, hs⟩
    rw [← List.append_cancel_left ht, hread] at hs
    exact (HostLiteral.closed?_append_iff.1 hs).1
  · intro h
    refine ⟨_, r, rfl, ?_⟩
    rw [hread]
    exact HostLiteral.closed?_append_iff.2 ⟨h, rfl⟩

/-- The directive for a literal name. -/
theorem slotOpen_literalSlotName (config : Config) (n : Text) (items : List Attribute)
    (bound : List Text) :
    Directive.slotOpen config (literalSlotName n) items bound =
      " @slot(".toList ++ ('\'' :: (spelledName n ++ '\'' :: (", null, [".toList ++
        (Directive.entries config (some bound) items ++ "]) ".toList)))) := by
  have hassoc : ∀ x y z w e : Text, x ++ ('\'' :: (w ++ ['\''])) ++ y ++ e ++ z =
      x ++ ('\'' :: (w ++ '\'' :: (y ++ (e ++ z)))) := by simp
  rw [literalSlotName_eq]
  exact hassoc _ _ _ _ _

/-- What is written for a slot tag with a literal name. -/
theorem HasLiteralName.exists_compileForm {compiler : Compiler} {inline : Option Text}
    {a n : Text} (h : compiler.HasLiteralName inline a n) (s : Bool) :
    ∃ r, compiler.compileForm (.slotOpening inline a s) =
      .ok (" @slot(".toList ++
        ('\'' :: (spelledName n ++ '\'' :: (", null, [".toList ++ r)))) := by
  have hdirective : ∃ r, compiler.slotDirective inline a = " @slot(".toList ++
      ('\'' :: (spelledName n ++ '\'' :: (", null, [".toList ++ r))) := by
    rw [slotDirective, h.slotParts_eq]
    exact ⟨_, slotOpen_literalSlotName _ n _ _⟩
  obtain ⟨r, hr⟩ := hdirective
  cases s with
  | false => exact ⟨r, congrArg Except.ok hr⟩
  | true =>
    refine ⟨r ++ Directive.slotClose, ?_⟩
    show Except.ok (compiler.slotDirective inline a ++ Directive.slotClose) = _
    rw [hr]
    simp only [List.append_assoc, List.cons_append]

/-- A text without backslashes has only inert ones. -/
theorem inert_of_notMem {n : Text} (h : '\\' ∉ n) : Inert n := by
  rintro a b rfl
  exact absurd (List.mem_append_right a (List.mem_cons_self ..)) h

/-- The inline name of a slot tag has no quotes and no backslashes. -/
theorem notMem_of_reads_slotOpening {n a t : Text} {s : Bool}
    (h : Tag.Reads (.slotOpening (some n) a s) t) : '\'' ∉ n ∧ '\\' ∉ n := by
  cases h.1 with
  | slotOpening _ hn _ _ =>
    cases hn with
    | inline hn =>
      have hchars := Tag.isTagName_of_isInlineName hn
      exact ⟨Text.notMem_of_forall hchars (by decide), Text.notMem_of_forall hchars (by decide)⟩

/-- **Exactly the names without quotes and active backslashes are read back.**  A slot tag of
a document with the literal name `n` is compiled, and its directive opens with a literal that
denotes the written name if and only if this has no quote, and every backslash in it stands
before a character other than a backslash.  It does so for all inline names, and for all
names without quotes and backslashes. -/
theorem opensWith_spelledName_iff {source : Text} {g : Tag} {inline : Option Text}
    {a n : Text} {s : Bool} (hg : Piece.tag g ∈ Document.pieces source)
    (hform : g.form = .slotOpening inline a s) (hn : compiler.HasLiteralName inline a n) :
    ∃ out, compiler.compileTag g = .ok out ∧
      (OpensWith (spelledName n) out ↔ '\'' ∉ spelledName n ∧ Inert (spelledName n)) ∧
      (inline.isSome = true → OpensWith (spelledName n) out) ∧
      ('\'' ∉ n → '\\' ∉ n → OpensWith (spelledName n) out) := by
  obtain ⟨r, hr⟩ := hn.exists_compileForm s
  have hiff := opensWith_append_iff (spelledName n) r
  have hplain : '\'' ∉ n → '\\' ∉ n → OpensWith (spelledName n) _ := fun hquote hback =>
    hiff.2 ⟨notMem_spelledName (by decide) hquote,
      inert_of_notMem (notMem_spelledName (by decide) hback)⟩
  refine ⟨_, by rw [compileTag, hform, hr]; rfl, hiff, fun hinline => ?_, hplain⟩
  have hreads := Document.reads_of_mem_piecesFrom _ _ g hg
  cases hn with
  | inline =>
    rw [hform] at hreads
    obtain ⟨hquote, hback⟩ := notMem_of_reads_slotOpening hreads
    exact hplain hquote hback
  | assigned h => cases hinline

/-- A slot tag that gives two names, of which the second counts. -/
def footerSource : Text := "<x-slot name=\"top\" name=\"card-\\footer\" class='big'/>".toList

/-- The tag in it. -/
def footerTag : Tag where
  form := .slotOpening none " name=\"top\" name=\"card-\\footer\" class='big'".toList true
  source := footerSource
  span := ⟨Position.start, Position.start.walk footerSource⟩

theorem opensWith_spelledName_iff_footer :
    Piece.tag footerTag ∈ Document.pieces footerSource ∧
      plainCompiler.HasLiteralName none footerTag.form.attributes "card-\\footer".toList ∧
      ∃ out, plainCompiler.compileTag footerTag = .ok out ∧
        (OpensWith (spelledName "card-\\footer".toList) out ↔
          '\'' ∉ spelledName "card-\\footer".toList ∧
            Inert (spelledName "card-\\footer".toList)) ∧
        ((none : Option Text).isSome = true →
          OpensWith (spelledName "card-\\footer".toList) out) ∧
        ('\'' ∉ "card-\\footer".toList → '\\' ∉ "card-\\footer".toList →
          OpensWith (spelledName "card-\\footer".toList) out) := by
  have hg : Piece.tag footerTag ∈ Document.pieces footerSource := by decide +kernel
  have hn : plainCompiler.HasLiteralName none footerTag.form.attributes
      "card-\\footer".toList :=
    .assigned (v := "\"card-\\footer\"".toList) (by decide +kernel)
  exact ⟨hg, hn, opensWith_spelledName_iff plainCompiler hg rfl hn⟩

/-- A quote in the name of a slot ends the literal early, and a backslash at its end keeps the
literal open. -/
theorem not_opensWith :
    plainCompiler.compile "<x-slot name=\"it's\">".toList =
        .ok " @slot('it's', null, []) ".toList ∧
      literal? "'it's', null, []) ".toList = some ("it".toList, "s', null, []) ".toList) ∧
      ¬ OpensWith "it's".toList " @slot('it's', null, []) ".toList ∧
      plainCompiler.compile "<x-slot name=\"a\\\">".toList =
        .ok " @slot('a\\', null, []) ".toList ∧
      literal? "'a\\', null, []) ".toList = none ∧
      ¬ OpensWith "a\\".toList " @slot('a\\', null, []) ".toList := by
  refine ⟨by decide +kernel, by decide, fun h => ?_, by decide +kernel, by decide, fun h => ?_⟩
  · have hquote := ((opensWith_append_iff "it's".toList "]) ".toList).1 h).1
    exact hquote (by decide)
  · obtain ⟨c, hc, -⟩ := ((opensWith_append_iff "a\\".toList "]) ".toList).1 h).2 ['a'] [] rfl
    cases hc

end Compiler
end TemplateTags
