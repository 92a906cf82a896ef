import Mathlib.Data.List.Forall2
import TemplateTags.Proofs.Attribute.Listing
import TemplateTags.Proofs.Compiler.Output
import TemplateTags.Proofs.Text.Numeral

/-!
# Bound expressions are sanitised

A directive lists the attributes of its tag as entries of a host array.  A bound expression
is handed on through the sanitiser there, unless it is plain, that is `true` or a numeral;
literal text is a host string already and is handed on as it is.  Which of the two it is was
decided when the attributes were read, and is remembered in a list of names beside them.

`IsEntryList` says what the entries have to be, in terms of the tokens of the tag: the
last token under the name of an attribute decides.  `isEntryList_entries` says that the
entries are so for any choice among the attributes of the tokens, and
`compileForm_sanitizes` that this is what stands in the directives for components and slots.
-/

namespace TemplateTags

open Attribute (Token lastUnder? ofToken)

namespace Directive

/-! ## Entries by the tokens of a tag -/

/-- The value is the word `true` or a decimal numeral. -/
def IsPlain (value : Text) : Prop := value = "true".toList ∨ Numeral.IsDecimal value

theorem isPlainValue_iff {value : Text} : isPlainValue value = true ↔ IsPlain value := by
  rw [isPlainValue, Bool.or_eq_true, decide_eq_true_iff, Numeral.isNumeral_iff, IsPlain]

/-- The entry for an attribute that the token stands for, where `wraps` says whether
expressions are sanitised at all. -/
inductive IsEntry (config : Config) (wraps : Prop) (k : Token) (a : Attribute) : Text → Prop
  | wrapped (hw : wraps) (hk : k.IsBound) (hp : ¬ IsPlain a.value) :
      IsEntry config wraps k a
        (['\''] ++ a.name ++ "' => ".toList ++ config.sanitizer ++ ['('] ++ a.value ++ [')'])
  | unchanged (h : ¬ (wraps ∧ k.IsBound ∧ ¬ IsPlain a.value)) :
      IsEntry config wraps k a (['\''] ++ a.name ++ "' => ".toList ++ a.value)

/-- The text lists one entry for each attribute, in order and with commas between them, and
the entry is the one for the last token under the name of the attribute. -/
def IsEntryList (config : Config) (splitter : Echo.Splitter) (wraps : Prop)
    (tokens : List Token) (l : List Attribute) (out : Text) : Prop :=
  ∃ es, out = Text.commaSeparated es ∧
    List.Forall₂ (fun a e => ∃ k, lastUnder? splitter a.name tokens = some k ∧
      ofToken splitter k = a ∧ IsEntry config wraps k a e) l es

variable (config : Config)

/-- An entry is wrapped exactly if its name is bound and its value is not plain. -/
theorem isEntry_attributeEntry {wraps : Prop} {bound : Option (List Text)} {k : Token}
    {a : Attribute}
    (h : (bound.any fun names => names.contains a.name) = true ↔ wraps ∧ k.IsBound) :
    IsEntry config wraps k a (attributeEntry config bound a) := by
  have hiff : ((bound.any fun names => names.contains a.name) && !isPlainValue a.value) = true ↔
      wraps ∧ k.IsBound ∧ ¬ IsPlain a.value := by
    rw [Bool.and_eq_true, h, Bool.not_eq_true', ← Bool.not_eq_true, isPlainValue_iff, and_assoc]
  unfold attributeEntry
  split
  · next hc =>
    obtain ⟨hw, hk, hp⟩ := hiff.1 hc
    simpa [entry] using IsEntry.wrapped hw hk hp
  · next hc => simpa [entry] using IsEntry.unchanged (mt hiff.2 hc)

/-- The entries for some of the attributes of tokens, with and without their marks. -/
theorem isEntryList_entries {splitter : Echo.Splitter} {tokens : List Token}
    {l : List Attribute} (hl : ∀ a ∈ l, a ∈ (Attribute.Listing.ofTokens splitter tokens).items)
    (wraps : Prop) [Decidable wraps] :
    IsEntryList config splitter wraps tokens l
      (entries config
        (if wraps then some (Attribute.Listing.ofTokens splitter tokens).bound else none) l) := by
  refine ⟨_, rfl, List.forall₂_map_right_iff.2 (List.forall₂_same.2 fun a ha => ?_)⟩
  obtain ⟨k, hk, hka⟩ := Attribute.Listing.mem_items_ofTokens_iff.1 (hl a ha)
  refine ⟨k, hk, hka, isEntry_attributeEntry config ?_⟩
  have hbound : a.name ∈ (Attribute.Listing.ofTokens splitter tokens).bound ↔ k.IsBound := by
    rw [Attribute.Listing.mem_bound_ofTokens_iff, hk]
    simp
  split
  · next hw => simp [hw, hbound]
  · next hw => simp [hw]

/-! ## Where the entries stand -/

/-- The directive that opens a component, up to the entries of its attributes. -/
def componentHead (target : Component.Target) (component : Text) (data : List Attribute) : Text :=
  "##BEGIN-COMPONENT-CLASS##@component('".toList ++ renderingType config target ++
    "', '".toList ++ component ++ "', [".toList ++
    constructorEntries target (entries config none data) ++
    "])\n<?php if (isset($attributes) && $attributes instanceof ".toList ++ config.bagType ++
    " && $constructor = (new ReflectionClass(".toList ++ renderingType config target ++
    "::class))->getConstructor()): ?>".toList ++
    ("\n<?php $attributes = $attributes->except(\\Illuminate\\Support\\collect(" ++
      "$constructor->getParameters())->map->getName()->all()); ?>").toList ++
    "\n<?php endif; ?>\n<?php $component->withAttributes([".toList

theorem componentOpen_eq (target : Component.Target) (component : Text)
    (data attributes : List Attribute) (bound : List Text) :
    componentOpen config target component data attributes bound =
      componentHead config target component data ++
        entries config
          (if renderingType config target ≠ config.dynamicType then some bound else none)
          attributes ++ "]); ?>".toList := by
  unfold componentOpen componentHead
  rw [ite_not]
  dsimp only
  simp only [List.append_assoc]

end Directive

namespace Compiler

open Directive (IsEntryList componentHead renderingType)

/-- The directive of a component whose name has a target. -/
theorem compileForm_opening (compiler : Compiler) {name : Text} {r : Component.Resolution}
    (hr : compiler.resolve name = .ok r) (text : Text) (selfClosing : Bool) :
    compiler.compileForm (.opening name text selfClosing) =
      .ok (componentHead compiler.config r.target name
          (Component.camelKeys (compiler.split r.target (compiler.attributes text).items).data) ++
        Directive.entries compiler.config
          (if renderingType compiler.config r.target ≠ compiler.config.dynamicType then
            some (compiler.attributes text).bound else none)
          (compiler.split r.target (compiler.attributes text).items).rest ++
        "]); ?>".toList ++ if selfClosing then Directive.selfClosing else []) := by
  have hopen : compiler.openComponent name text =
      .ok (compiler.componentDirective name text r.target) := by
    rw [openComponent, hr]
    rfl
  rw [← Directive.componentOpen_eq]
  cases selfClosing with
  | false =>
    rw [compileForm, hopen, componentDirective, if_neg Bool.false_ne_true, List.append_nil]
  | true =>
    rw [compileForm, hopen, componentDirective, if_pos rfl]
    rfl

/-- **No bound expression reaches an attribute bag unsanitised.**  Where the name of a
component has a target, its directive lists the attributes that are not for the constructor,
each sanitised as the last token under its name demands, but none of them if the target is
the dynamic component; the directive of a slot lists all attributes of the slot so. -/
theorem compileForm_sanitizes (compiler : Compiler) :
    (∀ name text selfClosing r, compiler.resolve name = .ok r →
      ∃ out,
        IsEntryList compiler.config compiler.splitter
          (renderingType compiler.config r.target ≠ compiler.config.dynamicType)
          (Token.ofText (compiler.expand text))
          (compiler.split r.target (compiler.attributes text).items).rest out ∧
        compiler.compileForm (.opening name text selfClosing) =
          .ok (componentHead compiler.config r.target name
              (Component.camelKeys
                (compiler.split r.target (compiler.attributes text).items).data) ++
            out ++ "]); ?>".toList ++ if selfClosing then Directive.selfClosing else [])) ∧
    ∀ inline text selfClosing,
      ∃ out,
        IsEntryList compiler.config compiler.splitter True
          (slotParts inline (Token.ofText (compiler.expand text))).2
          (Attribute.Listing.ofTokens compiler.splitter
            (slotParts inline (Token.ofText (compiler.expand text))).2).items out ∧
        compiler.compileForm (.slotOpening inline text selfClosing) =
          .ok (" @slot(".toList ++ (slotParts inline (Token.ofText (compiler.expand text))).1 ++
            ", null, [".toList ++ out ++ "]) ".toList ++
            if selfClosing then Directive.slotClose else []) := by
  constructor
  · intro name text selfClosing r hr
    refine ⟨_, ?_, compiler.compileForm_opening hr text selfClosing⟩
    exact Directive.isEntryList_entries compiler.config (fun a ha => mem_of_mem_split (Or.inr ha)) _
  · intro inline text selfClosing
    refine ⟨_, Directive.isEntryList_entries compiler.config (fun a ha => ha) True, ?_⟩
    rw [if_pos trivial]
    cases selfClosing with
    | false =>
      rw [compileForm, if_neg Bool.false_ne_true, List.append_nil]
      rfl
    | true =>
      rw [compileForm, if_pos rfl]
      rfl

/-- A compiler that knows one component, whose constructor takes a title. -/
def titledCompiler : Compiler where
  config := { Config.standard with sanitizer := "clean".toList }
  host := Host.ofTables
    [("App\\View\\Components\\Card".toList, some ["title".toList])] []
  splitter := Echo.standard

/-- A binding that a literal overwrites, one that overwrites a literal, and plain values. -/
def titledText : Text :=
  " title=\"t\" :a=\"$x\" a=\"b\" c=\"d\" :c=\"f()\" :n=\" -1.5e3 \" e :$g".toList

/-- The entries for the attributes that are not for the constructor. -/
def titledEntries : Text :=
  "'a' => 'b','c' => clean(f()),'n' =>  -1.5e3 ,'e' => true,'g' => clean($g)".toList

theorem compileForm_sanitizes_titled :
    titledCompiler.resolve "card".toList =
        .ok ⟨.type "App\\View\\Components\\Card".toList, .byConvention⟩ ∧
      (titledCompiler.attributes titledText).bound =
        ["c".toList, "n".toList, "e".toList, "g".toList] ∧
      (titledCompiler.split (.type "App\\View\\Components\\Card".toList)
          (titledCompiler.attributes titledText).items).data =
        [⟨"title".toList, "'t'".toList, .literal⟩] ∧
      IsEntryList titledCompiler.config titledCompiler.splitter
        ("App\\View\\Components\\Card".toList ≠ titledCompiler.config.dynamicType)
        (Token.ofText (titledCompiler.expand titledText))
        (titledCompiler.split (.type "App\\View\\Components\\Card".toList)
          (titledCompiler.attributes titledText).items).rest titledEntries ∧
      titledCompiler.compileForm (.opening "card".toList titledText true) =
        .ok (componentHead titledCompiler.config
            (.type "App\\View\\Components\\Card".toList) "card".toList
            (Component.camelKeys
              (titledCompiler.split (.type "App\\View\\Components\\Card".toList)
                (titledCompiler.attributes titledText).items).data) ++
          titledEntries ++ "]); ?>".toList ++ Directive.selfClosing) := by
  have hr : titledCompiler.resolve "card".toList =
      .ok ⟨.type "App\\View\\Components\\Card".toList, .byConvention⟩ := by
    decide +kernel
  have hattributes : titledCompiler.attributes titledText =
      ⟨[⟨"title".toList, "'t'".toList, .literal⟩, ⟨['a'], "'b'".toList, .literal⟩,
          ⟨['c'], "f()".toList, .bound⟩, ⟨['n'], " -1.5e3 ".toList, .bound⟩,
          ⟨['e'], "true".toList, .bound⟩, ⟨['g'], "$g".toList, .bound⟩],
        [['c'], ['n'], ['e'], ['g']]⟩ := by
    decide +kernel
  have hne : renderingType titledCompiler.config (.type "App\\View\\Components\\Card".toList) ≠
      titledCompiler.config.dynamicType := by
    decide
  have hentries : Directive.entries titledCompiler.config
      (some (titledCompiler.attributes titledText).bound)
      (titledCompiler.split (.type "App\\View\\Components\\Card".toList)
        (titledCompiler.attributes titledText).items).rest = titledEntries := by
    rw [hattributes]
    decide +kernel
  have hwritten := titledCompiler.compileForm_opening hr titledText true
  dsimp only at hwritten
  rw [if_pos hne, hentries] at hwritten
  obtain ⟨out, hout, hform⟩ :=
    (compileForm_sanitizes titledCompiler).1 "card".toList titledText true _ hr
  rw [hwritten, Except.ok.injEq, List.append_cancel_right_eq, List.append_cancel_right_eq,
    List.append_cancel_left_eq] at hform
  rw [← hform] at hout
  exact ⟨hr, by rw [hattributes]; rfl, by rw [hattributes]; decide, hout, hwritten⟩

end Compiler
end TemplateTags
