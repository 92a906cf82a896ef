import TemplateTags.Proofs.Attribute.RoundTrip
import TemplateTags.Proofs.Compiler.Pieces
import TemplateTags.Proofs.Document.Tiling

/-!
# The two ways to name a slot

A slot can be given its name inline, behind a colon, or by an attribute `name` with a quoted
value.  The two are kept apart until the directive is written: an inline name never becomes
part of the attribute text, while the attribute goes through the expansions and is taken
from the tokens at the end.

An attribute that no expansion changes is copied in front of any others, whatever these
expand to (`expand_assigned_append`), and is the first token of the result.  So the tokens
behind it are those of the tag with the inline name, and `takeSlotName` finds the same name
(`takeSlotName_cons`).  `compile_namedSlot` puts this together with the recogniser, which
takes the attribute like any other.
-/

namespace TemplateTags

namespace Attribute

open Text (Stops Spaced)

variable (callee : Helper → Text) {w n u : Text} {v : Written}

theorem spaced_expandHelpers (h : Spaced u) : Spaced (expandHelpers callee u) := by
  cases u with
  | nil =>
    rw [expandHelpers_nil]
    exact Text.spaced_nil
  | cons c u =>
    have hc : c ∉ ['@', '='] := fun hm =>
      absurd (h c rfl) ((by decide : ∀ d ∈ ['@', '='], ¬ Character.isSpace d = true) c hm)
    rw [List.mem_cons, List.mem_singleton, not_or] at hc
    rw [expandHelpers_cons callee (call?_cons_eq_none hc.1 u) fun he => absurd he hc.2]
    exact h

/-- A name with a value that is no binding is copied in front of other attributes. -/
theorem expand_assigned_append (he : Entry.WellFormed ⟨w, .assigned n v⟩)
    (hn : ¬ IsColonName n) (hu : Spaced u) :
    expand callee (w ++ (n ++ '=' :: v.print ++ u)) =
      w ++ (n ++ '=' :: v.print ++ expand callee u) := by
  have hshort := Shorthand.spaced_expand shortBinding_tight hu
  have hbag := Shorthand.spaced_expand bagEcho_tight hshort
  have hhelper := spaced_expandHelpers callee hbag
  -- each expansion copies the entry and goes on behind it
  have hcolon := colonBinding_expand_entry ⟨w, .assigned n v⟩ _ he trivial hhelper
  rw [Entry.expandColon_of_not hn] at hcolon
  calc expand callee (w ++ (n ++ '=' :: v.print ++ u))
      = colonBinding.expand (expandHelpers callee (bagEcho.expand
          (w ++ (n ++ '=' :: v.print ++ shortBinding.expand u)))) :=
        congrArg (fun t => colonBinding.expand (expandHelpers callee (bagEcho.expand t)))
          (shortBinding_expand_entry ⟨w, .assigned n v⟩ u he hu)
    _ = colonBinding.expand (expandHelpers callee
          (w ++ (n ++ '=' :: v.print ++ bagEcho.expand (shortBinding.expand u)))) :=
        congrArg (fun t => colonBinding.expand (expandHelpers callee t))
          (bagEcho_expand_entry ⟨w, .assigned n v⟩ _ he hshort)
    _ = colonBinding.expand (w ++ (n ++ '=' :: v.print ++
          expandHelpers callee (bagEcho.expand (shortBinding.expand u)))) :=
        congrArg colonBinding.expand
          (expandHelpers_entry callee ⟨w, .assigned n v⟩ _ he (fun _ _ => nofun) hbag)
    _ = w ++ (n ++ '=' :: v.print ++ expand callee u) := hcolon

/-- The first token of a text that starts with a name and a value. -/
theorem Token.ofText_assigned_append (he : Entry.WellFormed ⟨w, .assigned n v⟩)
    (hu : Spaced u) :
    ofText (w ++ (n ++ '=' :: v.print ++ u)) = ⟨n, some v.print⟩ :: ofText u := by
  cases he.spelling with
  | assigned hn hv =>
    have hstop : Stops Character.isAttributeName ('=' :: v.print ++ u) :=
      Text.stops_cons.2 (by decide)
    rw [ofText_space he.space, List.append_assoc, ofText_name hn hstop, assigned_written hv hu]

end Attribute

namespace Tag

/-- The words of an inline name hold no quotes. -/
theorem IsInlineName.notMem_quote {n : Text} (h : IsInlineName n) : '"' ∉ n :=
  Text.notMem_of_forall (isTagName_of_isInlineName h) (by decide)

/-- Attribute text starts with white space. -/
theorem IsAttributeText.spaced {a r : Text} (h : IsAttributeText a r) : Text.Spaced a := by
  cases h with
  | space hw => exact Text.spaced_of_forall hw
  | cons hne hw ha hs =>
    rw [List.append_assoc]
    exact (Text.spaced_of_forall hw).append hne _

end Tag

namespace Compiler

open Attribute (Token Written)
open Tag (IsAttributeText IsEnding IsInlineName Reads endText)
open Text (Spaced)

/-! ## Taking the name from the tokens -/

theorem slotName?_eq_none {k : Token}
    (h : ∀ v, k ≠ ⟨"name".toList, some v⟩ ∧ k ≠ ⟨"bind:name".toList, some v⟩) :
    slotName? k = none := by
  obtain ⟨name, value⟩ := k
  cases value with
  | none => rfl
  | some v =>
    have hname : name ≠ "name".toList := fun he => (h v).1 (by rw [he])
    have hbind : name ≠ "bind:name".toList := fun he => (h v).2 (by rw [he])
    show (if name = "name".toList then _ else if name = "bind:name".toList then _ else none) = none
    rw [if_neg hname, if_neg hbind]

/-- A name in front of tokens that give none. -/
theorem takeSlotName_cons {n : Text} {l : List Token} (hl : ∀ k ∈ l, slotName? k = none) :
    takeSlotName (⟨"name".toList, some (Written.quoted '"' n).print⟩ :: l) =
      (literalSlotName n, l) := by
  have hnames : l.filterMap slotName? = [] := List.filterMap_eq_nil_iff.2 hl
  have hrest : (l.filter fun k => (slotName? k).isNone) = l :=
    List.filter_eq_self.2 fun k hk => by rw [hl k hk]; rfl
  have hunquote : Text.unquote (Written.quoted '"' n).print = n := by
    show (n ++ ['"']).dropLast = n
    exact List.dropLast_concat
  have hfirst : slotName? ⟨"name".toList, some (Written.quoted '"' n).print⟩ =
      some (literalSlotName n) := by
    show some (literalSlotName (Text.unquote (Written.quoted '"' n).print)) = _
    rw [hunquote]
  rw [takeSlotName, List.filterMap_cons, List.filter_cons, hfirst, hnames, hrest]
  rfl

/-! ## The two tags -/

/-- A slot tag that gives the name `n` inline, with attribute text `a`. -/
def inlineSlot (n a : Text) (selfClosing : Bool) : Text :=
  "<x-slot:".toList ++ n ++ a ++ endText selfClosing

/-- The attribute that gives a slot the name `n`. -/
def nameAttribute (n : Text) : Text := " name=\"".toList ++ n ++ ['"']

/-- A slot tag that gives the name `n` by an attribute, in front of attribute text `a`. -/
def namedSlot (n a : Text) (selfClosing : Bool) : Text :=
  "<x-slot".toList ++ nameAttribute n ++ a ++ endText selfClosing

variable {n a : Text} {s : Bool}

/-- What a tag with an inline name is made of. -/
theorem parts_of_reads_inlineSlot {s' : Bool}
    (h : Reads (.slotOpening (some n) a s') (inlineSlot n a s)) :
    s' = s ∧ IsInlineName n ∧ IsAttributeText a (endText s) ∧
      IsEnding (Tag.slotWord ++ ':' :: n ++ a) s (endText s) := by
  have hd := h.1
  generalize hx : inlineSlot n a s = x at hd
  cases hd with
  | @slotOpening m p a e inline s' hm hp ha he =>
    cases hp with
    | inline hn =>
      have htext : "x-".toList ++ (Tag.slotWord ++ ':' :: n ++ a ++ endText s) =
          m ++ (Tag.slotWord ++ ':' :: n ++ a ++ e) := (List.cons.inj hx).2
      obtain ⟨-, htail⟩ := Tag.eq_of_isMark Tag.isMark_hyphen hm htext
      have hend := List.append_cancel_left htail
      cases he with
      | selfClosing =>
        cases s with
        | true => exact ⟨rfl, hn, ha, .selfClosing⟩
        | false => cases hend
      | plain heq hminus =>
        cases s with
        | true => cases hend
        | false => exact ⟨rfl, hn, ha, .plain heq hminus⟩

theorem nameAttribute_append (n u : Text) :
    nameAttribute n ++ u =
      [' '] ++ ("name".toList ++ '=' :: (Written.quoted '"' n).print ++ u) := by
  have hstart : " name=\"".toList = [' '] ++ ("name".toList ++ ['=', '"']) := by decide
  unfold nameAttribute
  rw [hstart]
  simp only [Written.print, List.append_assoc, List.cons_append, List.nil_append]

/-- The tag that gives the name by an attribute is read as a slot. -/
theorem reads_namedSlot (hn : '"' ∉ n) (ha : IsAttributeText a (endText s))
    (he : IsEnding (Tag.slotWord ++ ':' :: n ++ a) s (endText s)) :
    Reads (.slotOpening none (nameAttribute n ++ a) s) (namedSlot n a s) := by
  have hvalue : Tag.IsValue (Written.quoted '"' n).print (a ++ endText s) :=
    .quoted (by decide) hn
  have hattributes : IsAttributeText (nameAttribute n ++ a) (endText s) := by
    rw [nameAttribute_append, ← List.append_assoc]
    exact .cons (by decide) (by decide) (.assigned (by decide) (by decide) hvalue) ha
  have hend : IsEnding (Tag.slotWord ++ [] ++ (nameAttribute n ++ a)) s (endText s) := by
    cases he with
    | selfClosing => exact .selfClosing
    | plain heq hminus =>
      by_cases hne : a = []
      · -- the quote of the value stands before the end
        have hlast : (Tag.slotWord ++ [] ++ (nameAttribute n ++ a)).getLast? = some '"' := by
          unfold nameAttribute
          rw [hne, List.append_nil, List.append_nil, ← List.append_assoc, List.getLast?_concat]
        exact .plain (by rw [hlast]; decide) (by rw [hlast]; decide)
      · rw [List.getLast?_append_of_ne_nil _ hne] at heq hminus
        rw [← List.append_assoc]
        exact .plain (by rwa [List.getLast?_append_of_ne_nil _ hne])
          (by rwa [List.getLast?_append_of_ne_nil _ hne])
  refine ⟨?_, fun h => by cases h⟩
  have htext : namedSlot n a s =
      '<' :: "x-".toList ++ (Tag.slotWord ++ [] ++ (nameAttribute n ++ a) ++ endText s) := by
    have hstart : "<x-slot".toList = '<' :: "x-".toList ++ Tag.slotWord := by decide
    unfold namedSlot
    rw [hstart]
    simp only [List.append_assoc, List.append_nil]
  rw [htext]
  exact .slotOpening Tag.isMark_hyphen .absent hattributes hend

/-! ## One directive -/

variable (compiler : Compiler)

/-- A slot tag alone is compiled to its directive. -/
theorem compile_of_reads_slotOpening {inline : Option Text} {t : Text}
    (h : Reads (.slotOpening inline a s) t) :
    compiler.compile t =
      .ok (compiler.slotDirective inline a ++ if s then Directive.slotClose else []) := by
  have haccepts : Pass.all.accepts (.slotOpening inline a s) = true := rfl
  rw [compile, run_tag compiler .all h, if_pos haccepts]
  cases s with
  | true => rfl
  | false =>
    rw [if_neg Bool.false_ne_true, List.append_nil]
    rfl

/-- The two tags open the slot with the same directive. -/
theorem slotDirective_nameAttribute (hn : '"' ∉ n) (ha : Spaced a)
    (hname : ∀ k ∈ Token.ofText (compiler.expand a), slotName? k = none) :
    compiler.slotDirective none (nameAttribute n ++ a) =
      compiler.slotDirective (some n) a := by
  have hentry : Attribute.Entry.WellFormed
      ⟨[' '], .assigned "name".toList (.quoted '"' n)⟩ :=
    ⟨List.cons_ne_nil _ _, by simp [Character.isSpace],
      .assigned ⟨by decide, by decide⟩ (.quoted (by decide) hn)⟩
  have hcolon : ¬ Attribute.IsColonName "name".toList :=
    Attribute.not_isColonName (by decide)
  have hspaced : Spaced (compiler.expand a) :=
    Shorthand.spaced_expand Attribute.colonBinding_tight
      (Attribute.spaced_expandHelpers _ (Shorthand.spaced_expand Attribute.bagEcho_tight
        (Shorthand.spaced_expand Attribute.shortBinding_tight ha)))
  have htokens : Token.ofText (compiler.expand (nameAttribute n ++ a)) =
      ⟨"name".toList, some (Written.quoted '"' n).print⟩ ::
        Token.ofText (compiler.expand a) := by
    rw [nameAttribute_append, expand, Attribute.expand_assigned_append _ hentry hcolon ha]
    exact Token.ofText_assigned_append hentry hspaced
  simp only [slotDirective, slotParts, htokens, takeSlotName_cons hname]

/-- **The two ways to name a slot are interchangeable.**  Let the tag that gives the name
inline be the one piece of its text, with the attribute text `a`, and let no attribute there
give a name; the recogniser has then found `n` to be words joined by hyphens.  The tag with
the name as an attribute is the one piece of its text too, and both compile to the same
output, whether they close themselves or not. -/
theorem compile_namedSlot {n a : Text} {selfClosing : Bool}
    (hscan : ∃ g s, Document.pieces (inlineSlot n a selfClosing) = [.tag g] ∧
      g.form = .slotOpening (some n) a s)
    (hname : ∀ v, ⟨"name".toList, some v⟩ ∉ Token.ofText (compiler.expand a) ∧
      ⟨"bind:name".toList, some v⟩ ∉ Token.ofText (compiler.expand a)) :
    Document.pieces (namedSlot n a selfClosing) =
        [.tag ⟨.slotOpening none (nameAttribute n ++ a) selfClosing, namedSlot n a selfClosing,
          ⟨Position.start, Position.start.walk (namedSlot n a selfClosing)⟩⟩] ∧
      ∃ out, compiler.compile (inlineSlot n a selfClosing) = .ok out ∧
        compiler.compile (namedSlot n a selfClosing) = .ok out := by
  obtain ⟨g, s, hpieces, hform⟩ := hscan
  have hinline := Document.reads_of_pieces hpieces
  rw [hform] at hinline
  obtain ⟨rfl, hn, ha, he⟩ := parts_of_reads_inlineSlot hinline
  have hnamed := reads_namedSlot hn.notMem_quote ha he
  have hnone : ∀ k ∈ Token.ofText (compiler.expand a), slotName? k = none := fun k hk =>
    slotName?_eq_none fun v =>
      ⟨fun h => (hname v).1 (h ▸ hk), fun h => (hname v).2 (h ▸ hk)⟩
  have hdirective := slotDirective_nameAttribute compiler hn.notMem_quote ha.spaced hnone
  refine ⟨Document.pieces_of_reads hnamed, _, compile_of_reads_slotOpening compiler hinline, ?_⟩
  rw [compile_of_reads_slotOpening compiler hnamed, hdirective]

/-- Attributes of a slot, one of them with a shorthand. -/
def headerText : Text := " class=\"big\" :$open".toList

theorem compile_namedSlot_header :
    (∃ g s, Document.pieces (inlineSlot "card-header".toList headerText true) = [.tag g] ∧
        g.form = .slotOpening (some "card-header".toList) headerText s) ∧
      (∀ v, ⟨"name".toList, some v⟩ ∉ Token.ofText (plainCompiler.expand headerText) ∧
        ⟨"bind:name".toList, some v⟩ ∉ Token.ofText (plainCompiler.expand headerText)) ∧
      ∃ out, plainCompiler.compile (inlineSlot "card-header".toList headerText true) = .ok out ∧
        plainCompiler.compile (namedSlot "card-header".toList headerText true) = .ok out := by
  have hscan : ∃ g s, Document.pieces (inlineSlot "card-header".toList headerText true) =
      [.tag g] ∧ g.form = .slotOpening (some "card-header".toList) headerText s :=
    ⟨⟨.slotOpening (some "card-header".toList) headerText true,
        inlineSlot "card-header".toList headerText true,
        ⟨Position.start,
          Position.start.walk (inlineSlot "card-header".toList headerText true)⟩⟩,
      true, by decide +kernel, rfl⟩
  have htokens : Token.ofText (plainCompiler.expand headerText) =
      [⟨"class".toList, some "\"big\"".toList⟩, ⟨"bind:open".toList, some "\"$open\"".toList⟩] := by
    decide +kernel
  have hname : ∀ v, ⟨"name".toList, some v⟩ ∉ Token.ofText (plainCompiler.expand headerText) ∧
      ⟨"bind:name".toList, some v⟩ ∉ Token.ofText (plainCompiler.expand headerText) := by
    intro v
    rw [htokens]
    simp
  exact ⟨hscan, hname, (compile_namedSlot plainCompiler hscan hname).2⟩

end Compiler
end TemplateTags
