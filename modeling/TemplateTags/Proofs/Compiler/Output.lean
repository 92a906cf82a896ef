import TemplateTags.Compiler.Basic
import TemplateTags.Proofs.Attribute.Angle
import TemplateTags.Proofs.Tag.Start
import TemplateTags.Proofs.Text.Casing

/-!
# What is written for a tag starts no tag

A directive is put together from texts of its own, from names that the compiler was given
or found, and from the attributes of the tag.  If none of the names and no attribute has an
angle bracket, then the only brackets of the directive are those of its host blocks, each
before a question mark.  So the directive is sealed, and it also breaks any start of a tag
in the text before it.

* `Config.AngleFree`, `Compiler.AngleFree`: the names that the compiler was given.
* `Compiler.Harmless`: the attributes of a tag, and the name that it resolves to.
* `Compiler.isSealed_of_compileForm`, `Compiler.breaks_of_compileForm`: what is written for
  such a tag.
-/

namespace TemplateTags

open Text (isSealed isSealed_append isSealed_of_notMem Breaks)

/-! ## Names -/

namespace Text

theorem notMem_commaSeparated {l : List Text} (h : ∀ t ∈ l, '<' ∉ t) :
    '<' ∉ commaSeparated l := by
  unfold commaSeparated
  induction l with
  | nil => simp
  | cons t l ih =>
    have ht := h t (List.mem_cons_self ..)
    cases l with
    | nil =>
      rw [List.intercalate_singleton]
      exact ht
    | cons u l =>
      have hl := ih fun v hv => h v (List.mem_cons_of_mem _ hv)
      rw [List.intercalate_cons_cons, List.mem_append, List.mem_append, not_or, not_or]
      exact ⟨⟨ht, by decide⟩, hl⟩

end Text

/-! ## Directives -/

/-- No angle bracket stands in the host names that directives use. -/
structure Config.AngleFree (config : Config) : Prop where
  sanitizer : '<' ∉ config.sanitizer
  classHelper : '<' ∉ config.classHelper
  styleHelper : '<' ∉ config.styleHelper
  anonymousType : '<' ∉ config.anonymousType
  bagType : '<' ∉ config.bagType

theorem Config.AngleFree.callee {config : Config} (h : config.AngleFree) (helper : Helper) :
    '<' ∉ config.callee helper := by
  cases helper with
  | cssClass => exact h.classHelper
  | cssStyle => exact h.styleHelper

namespace Directive

variable {config : Config} {l : List Attribute}

theorem notMem_entry {n v : Text} (hn : '<' ∉ n) (hv : '<' ∉ v) : '<' ∉ entry n v := by
  simp [entry, hn, hv]

theorem notMem_entries (hc : config.AngleFree) (bound : Option (List Text))
    (hl : ∀ a ∈ l, a.AngleFree) : '<' ∉ entries config bound l := by
  refine Text.notMem_commaSeparated fun t ht => ?_
  obtain ⟨a, ha, rfl⟩ := List.mem_map.1 ht
  obtain ⟨hname, hvalue⟩ := hl a ha
  unfold attributeEntry
  split
  · refine notMem_entry hname ?_
    simp [hc.sanitizer, hvalue]
  · exact notMem_entry hname hvalue

theorem notMem_renderingType (hc : config.AngleFree) {target : Component.Target}
    (ht : '<' ∉ target.name) : '<' ∉ renderingType config target := by
  cases target with
  | type n => exact ht
  | view n => exact hc.anonymousType
  | rawView n => exact hc.anonymousType

theorem notMem_viewEntries {v d : Text} (hv : '<' ∉ v) (hd : '<' ∉ d) :
    '<' ∉ viewEntries v d := by
  unfold viewEntries
  simp only [List.mem_append, not_or]
  exact ⟨⟨⟨⟨by decide, hv⟩, by decide⟩, hd⟩, by decide⟩

theorem notMem_constructorEntries {target : Component.Target} (ht : '<' ∉ target.name)
    {d : Text} (hd : '<' ∉ d) : '<' ∉ constructorEntries target d := by
  cases target with
  | type n => exact hd
  | view n =>
    have hn : '<' ∉ n := ht
    exact notMem_viewEntries (by simp [hn]) hd
  | rawView n =>
    have hn : '<' ∉ n := ht
    refine notMem_viewEntries ?_ hd
    simp only [List.mem_append, not_or]
    exact ⟨⟨by decide, hn⟩, by decide⟩

/-- The only brackets of the directive are those of its four host blocks. -/
theorem isSealed_componentOpen (hc : config.AngleFree) {target : Component.Target}
    (ht : '<' ∉ target.name) {name : Text} (hn : '<' ∉ name) {data attributes : List Attribute}
    (hdata : ∀ a ∈ data, a.AngleFree) (hattributes : ∀ a ∈ attributes, a.AngleFree)
    (bound : List Text) :
    isSealed (componentOpen config target name data attributes bound) = true := by
  have htype := isSealed_of_notMem (notMem_renderingType hc ht)
  have hconstructor := isSealed_of_notMem
    (notMem_constructorEntries ht (notMem_entries hc none hdata))
  have hentries := fun marks => isSealed_of_notMem (notMem_entries hc marks hattributes)
  unfold componentOpen
  simp only [List.append_assoc]
  refine isSealed_append (by decide +kernel) (isSealed_append htype ?_)
  refine isSealed_append (by decide +kernel) (isSealed_append (isSealed_of_notMem hn) ?_)
  refine isSealed_append (by decide +kernel) (isSealed_append hconstructor ?_)
  refine isSealed_append (by decide +kernel) (isSealed_append (isSealed_of_notMem hc.bagType) ?_)
  refine isSealed_append (by decide +kernel) (isSealed_append htype ?_)
  refine isSealed_append (by decide +kernel) (isSealed_append (by decide +kernel) ?_)
  exact isSealed_append (by decide +kernel) (isSealed_append (hentries _) (by decide +kernel))

theorem isSealed_slotOpen (hc : config.AngleFree) {name : Text} (hn : '<' ∉ name)
    (hl : ∀ a ∈ l, a.AngleFree) (bound : List Text) :
    isSealed (slotOpen config name l bound) = true := by
  have hentries := notMem_entries hc (some bound) hl
  unfold slotOpen
  refine isSealed_of_notMem ?_
  simp only [List.mem_append, not_or]
  exact ⟨⟨⟨⟨by decide, hn⟩, by decide⟩, hentries⟩, by decide⟩

end Directive

/-! ## Tags -/

namespace Compiler

open Attribute (Token Listing)
open Tag (Reads Derives)

/-- The compiler finds echoes in the usual way, and no angle bracket stands in the names
that it was given. -/
structure AngleFree (compiler : Compiler) : Prop where
  config : compiler.config.AngleFree
  splitter : ∃ escape, compiler.splitter = Echo.split escape ∧ '<' ∉ escape

/-- No angle bracket stands in the attribute text of the tag, nor in the name of the type or
view that the tag resolves to. -/
structure Harmless (compiler : Compiler) (f : Tag.Form) : Prop where
  attributes : '<' ∉ f.attributes
  target : ∀ name text s, f = .opening name text s → ∀ r, compiler.resolve name = .ok r →
    '<' ∉ r.target.name

variable {compiler : Compiler}

theorem notMem_expand (hc : compiler.AngleFree) {text : Text} (h : '<' ∉ text) :
    '<' ∉ compiler.expand text :=
  Attribute.notMem_expand hc.config.callee h

theorem angleFree_of_tokens (hc : compiler.AngleFree) {text : Text} (h : '<' ∉ text)
    {l : List Token} (hl : ∀ k ∈ l, k ∈ Token.ofText (compiler.expand text)) :
    ∀ a ∈ (Listing.ofTokens compiler.splitter l).items, a.AngleFree := by
  obtain ⟨escape, hsplitter, hescape⟩ := hc.splitter
  rw [hsplitter]
  exact Listing.angleFree_ofTokens hescape (notMem_expand hc h) hl

theorem angleFree_camelKeys {l : List Attribute} (hl : ∀ a ∈ l, a.AngleFree) :
    ∀ a ∈ Component.camelKeys l, a.AngleFree := by
  intro a ha
  obtain ⟨b, hb, rfl⟩ := List.mem_map.1 (Keyed.mem_of_mem_ofList _ ha)
  exact ⟨Text.notMem_camel (by decide) (hl b hb).1, (hl b hb).2⟩

theorem mem_of_mem_split {target : Component.Target} {l : List Attribute} {a : Attribute}
    (h : a ∈ (compiler.split target l).data ∨ a ∈ (compiler.split target l).rest) :
    a ∈ l := by
  unfold split Component.split at h
  split at h
  · exact h.elim id id
  · exact h.elim (fun h => (List.mem_filter.1 h).1) fun h => (List.mem_filter.1 h).1

theorem isSealed_componentDirective (hc : compiler.AngleFree) {name text : Text}
    (hn : '<' ∉ name) (ht : '<' ∉ text) {target : Component.Target}
    (htarget : '<' ∉ target.name) :
    isSealed (compiler.componentDirective name text target) = true := by
  have hitems := angleFree_of_tokens hc ht fun _ hk => hk
  exact Directive.isSealed_componentOpen hc.config htarget hn
    (angleFree_camelKeys fun a ha => hitems a (mem_of_mem_split (Or.inl ha)))
    (fun a ha => hitems a (mem_of_mem_split (Or.inr ha))) _

theorem notMem_literalSlotName {name : Text} (h : '<' ∉ name) :
    '<' ∉ literalSlotName name := by
  unfold literalSlotName
  split
  · simp [Text.notMem_camel (by decide : Character.IsCaseless '<') h]
  · simp [h]

theorem notMem_of_slotName? {k : Token} (hk : ∀ v, k.value = some v → '<' ∉ v) {e : Text}
    (h : slotName? k = some e) : '<' ∉ e := by
  unfold slotName? at h
  split at h
  · exact absurd h (by simp)
  · next v hv =>
    have hunquote : '<' ∉ v.unquote := fun hm => hk v hv (Attribute.mem_of_mem_unquote hm)
    split at h
    · cases h
      exact notMem_literalSlotName hunquote
    · split at h
      · cases h
        exact hunquote
      · exact absurd h (by simp)

theorem notMem_takeSlotName {t : Text} (ht : '<' ∉ t) :
    '<' ∉ (takeSlotName (Token.ofText t)).1 := by
  unfold takeSlotName
  cases h : ((Token.ofText t).filterMap slotName?).getLast? with
  | none =>
    show '<' ∉ ['\'', '\'']
    decide
  | some e =>
    obtain ⟨k, hk, hname⟩ := List.mem_filterMap.1 (List.mem_of_getLast? h)
    refine notMem_of_slotName? (fun v hv hm => ?_) hname
    exact ht (((Token.infix_of_mem_ofText hk).2 v hv).subset hm)

theorem isSealed_slotDirective (hc : compiler.AngleFree) {inline : Option Text} {text : Text}
    (hi : ∀ n, inline = some n → '<' ∉ n) (ht : '<' ∉ text) :
    isSealed (compiler.slotDirective inline text) = true := by
  unfold slotDirective
  cases inline with
  | some n =>
    exact Directive.isSealed_slotOpen hc.config (notMem_literalSlotName (hi n rfl))
      (angleFree_of_tokens hc ht fun _ hk => hk) _
  | none =>
    exact Directive.isSealed_slotOpen hc.config (notMem_takeSlotName (notMem_expand hc ht))
      (angleFree_of_tokens hc ht fun _ hk => (List.mem_filter.1 hk).1) _

/-! ## Forms -/

theorem openComponent_eq_ok {name text d : Text} (h : compiler.openComponent name text = .ok d) :
    ∃ r, compiler.resolve name = .ok r ∧
      d = compiler.componentDirective name text r.target := by
  unfold openComponent at h
  cases hr : compiler.resolve name with
  | error e =>
    rw [hr] at h
    exact absurd h (by simp [bind, Except.bind])
  | ok r =>
    rw [hr] at h
    cases h
    exact ⟨r, rfl, rfl⟩

/-- What is written for a tag is that of the tag that does not close what it opens, with
something behind it. -/
theorem compileForm_cases {f : Tag.Form} {d : Text} (h : compiler.compileForm f = .ok d) :
    (∃ name text s r e, f = .opening name text s ∧ compiler.resolve name = .ok r ∧
      (e = [] ∨ e = Directive.selfClosing) ∧
      d = compiler.componentDirective name text r.target ++ e) ∨
    (∃ inline text s e, f = .slotOpening inline text s ∧
      (e = [] ∨ e = Directive.slotClose) ∧ d = compiler.slotDirective inline text ++ e) ∨
    d = Directive.componentClose ∨ d = Directive.slotClose := by
  cases f with
  | opening name text s =>
    cases s with
    | false =>
      obtain ⟨r, hr, rfl⟩ := openComponent_eq_ok h
      exact Or.inl ⟨name, text, false, r, [], rfl, hr, Or.inl rfl, (List.append_nil _).symm⟩
    | true =>
      cases ho : compiler.openComponent name text with
      | error e =>
        rw [compileForm, ho] at h
        exact absurd h (by simp [bind, Except.bind])
      | ok d' =>
        rw [compileForm, ho] at h
        cases h
        obtain ⟨r, hr, rfl⟩ := openComponent_eq_ok ho
        exact Or.inl ⟨name, text, true, r, _, rfl, hr, Or.inr rfl, rfl⟩
  | closing name =>
    cases h
    exact Or.inr (Or.inr (Or.inl rfl))
  | slotOpening inline text s =>
    cases s with
    | false =>
      cases h
      exact Or.inr (Or.inl ⟨inline, text, false, [], rfl, Or.inl rfl, (List.append_nil _).symm⟩)
    | true =>
      cases h
      exact Or.inr (Or.inl ⟨inline, text, true, _, rfl, Or.inr rfl, rfl⟩)
  | slotClosing =>
    cases h
    exact Or.inr (Or.inr (Or.inr rfl))

/-- **What is written for a harmless tag is sealed.** -/
theorem isSealed_of_compileForm (hc : compiler.AngleFree) {f : Tag.Form} {a d : Text}
    (hread : Reads f a) (hf : compiler.Harmless f) (h : compiler.compileForm f = .ok d) :
    isSealed d = true := by
  rcases compileForm_cases h with ⟨name, text, s, r, e, rfl, hr, he, rfl⟩ |
    ⟨inline, text, s, e, rfl, he, rfl⟩ | rfl | rfl
  · have hname : '<' ∉ name := by
      cases hread.1 with
      | opening _ _ hn _ _ => exact Text.notMem_of_forall hn (by decide)
    refine isSealed_append ?_ ?_
    · exact isSealed_componentDirective hc hname hf.attributes (hf.target _ _ _ rfl r hr)
    · rcases he with rfl | rfl
      · rfl
      · decide
  · have hinline : ∀ n, inline = some n → '<' ∉ n := by
      rintro n rfl
      cases hread.1 with
      | slotOpening _ hn _ _ =>
        cases hn with
        | inline hn => exact Text.notMem_of_forall (Tag.isTagName_of_isInlineName hn) (by decide)
    refine isSealed_append (isSealed_slotDirective hc hinline hf.attributes) ?_
    rcases he with rfl | rfl
    · rfl
    · decide
  · decide
  · decide

/-- What is written for a tag breaks the start of a tag in the text before it. -/
theorem breaks_of_compileForm {f : Tag.Form} {d : Text} (h : compiler.compileForm f = .ok d)
    (r : Text) : Breaks (d ++ r) := by
  rcases compileForm_cases h with ⟨name, text, s, t, e, rfl, -, -, rfl⟩ |
    ⟨inline, text, s, e, rfl, -, rfl⟩ | rfl | rfl
  · exact Or.inr (Or.inr (Or.inl rfl))
  · exact Or.inr (Or.inr (Or.inr ⟨_, rfl⟩))
  · exact Or.inr (Or.inr (Or.inr ⟨_, rfl⟩))
  · exact Or.inr (Or.inr (Or.inr ⟨_, rfl⟩))

end Compiler
end TemplateTags
