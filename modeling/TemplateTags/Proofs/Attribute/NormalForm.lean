import TemplateTags.Proofs.Attribute.RoundTrip

/-!
# Attribute text without shorthands

Canonical attribute text consists of names with and without values, each behind white space,
and no name with a value has a single colon before it.  Whatever the values hold, be it a short
binding, an echo of the attribute bag or the call of a helper, none of the four expansions
finds anything in such a text.

Every sequence of attributes in any of their forms is expanded to canonical text, so a second
expansion changes nothing.  It also follows that such a sequence is left as it is exactly if it
is canonical to begin with.

* `IsCanonical` is the grammar of canonical text; `isCanonical_iff` reads it entry by entry.
* `shortBinding_expand_of_isCanonical` and its siblings: each expansion fixes canonical text.
* `isCanonical_expand_write`: all of them together end in it.
-/

namespace TemplateTags
namespace Attribute

/-! ## The grammar -/

/-- The name starts with a colon that is not one of two. -/
def HasSingleColon (n : Text) : Prop := [':'] <+: n ∧ ¬ [':', ':'] <+: n

instance (n : Text) : Decidable (HasSingleColon n) := inferInstanceAs (Decidable (_ ∧ _))

/-- The spelling is a name, or a name without a single colon before it and with a value. -/
inductive Spelling.IsCanonical : Spelling → Prop
  | valueless {n : Text} (hn : IsName n) : IsCanonical (.valueless n)
  | assigned {n : Text} {v : Written} (hn : IsName n) (hv : v.WellFormed)
      (hcolon : ¬ HasSingleColon n) : IsCanonical (.assigned n v)

/-- Attribute text in which no shorthand is left. -/
inductive IsCanonical : Text → Prop
  | space {t : Text} (ht : ∀ c ∈ t, Character.isSpace c = true) : IsCanonical t
  | cons {w t : Text} {sp : Spelling} (hne : w ≠ [])
      (hw : ∀ c ∈ w, Character.isSpace c = true) (hsp : sp.IsCanonical) (ht : IsCanonical t) :
      IsCanonical (w ++ (sp.print ++ t))

variable {l : List Entry} {s t : Text}

theorem Spelling.IsCanonical.wellFormed {sp : Spelling} (h : sp.IsCanonical) :
    sp.WellFormed := by
  cases h with
  | valueless hn => exact .valueless hn
  | assigned hn hv hcolon => exact .assigned hn hv

theorem Spelling.IsCanonical.isNamed {sp : Spelling} (h : sp.IsCanonical) : sp.IsNamed := by
  cases h with
  | valueless hn => exact trivial
  | assigned hn hv hcolon => exact trivial

/-- Canonical text is a sequence of canonical entries. -/
theorem isCanonical_iff : IsCanonical t ↔
    ∃ l s, t = write l s ∧ (∀ e ∈ l, e.WellFormed ∧ e.spelling.IsCanonical) ∧
      ∀ c ∈ s, Character.isSpace c = true := by
  constructor
  · intro h
    induction h with
    | @space t ht => exact ⟨[], t, rfl, fun e he => (List.not_mem_nil he).elim, ht⟩
    | @cons w t sp hne hw hsp _ ih =>
      obtain ⟨l, s, rfl, hl, hs⟩ := ih
      exact ⟨⟨w, sp⟩ :: l, s, rfl,
        List.forall_mem_cons.2 ⟨⟨⟨hne, hw, hsp.wellFormed⟩, hsp⟩, hl⟩, hs⟩
  · rintro ⟨l, s, rfl, hl, hs⟩
    induction l with
    | nil => exact .space hs
    | cons e l ih =>
      obtain ⟨⟨he, hsp⟩, hrest⟩ := List.forall_mem_cons.1 hl
      exact .cons he.ne_nil he.space hsp (ih hrest)

/-! ## Canonical text is left as it is -/

/-- The first three expansions look for other spellings than names and values. -/
theorem Entry.expand_of_isNamed {e : Entry} (h : e.spelling.IsNamed) :
    e.expandShort = e ∧ e.expandBag = e ∧ ∀ callee, e.expandHelper callee = e := by
  obtain ⟨w, sp⟩ := e
  cases sp with
  | valueless n => exact ⟨rfl, rfl, fun _ => rfl⟩
  | assigned n v => exact ⟨rfl, rfl, fun _ => rfl⟩
  | short n => exact h.elim
  | helper h' g => exact h.elim
  | bag w' b => exact h.elim

theorem not_isColonName_of_not_hasSingleColon {n : Text} (h : ¬ HasSingleColon n) :
    ¬ IsColonName n := by
  rintro ⟨d, m, rfl, hd⟩
  refine h ⟨⟨d :: m, rfl⟩, ?_⟩
  rintro ⟨r, hr⟩
  exact hd (List.cons.inj (List.cons.inj hr).2).1.symm

theorem Entry.expandColon_of_isCanonical {e : Entry} (h : e.spelling.IsCanonical) :
    e.expandColon = e := by
  obtain ⟨w, sp⟩ := e
  cases h with
  | valueless hn => rfl
  | assigned hn hv hcolon =>
    exact Entry.expandColon_of_not (not_isColonName_of_not_hasSingleColon hcolon)

theorem write_map_of_forall {g : Entry → Entry} (h : ∀ e ∈ l, g e = e) (s : Text) :
    write (l.map g) s = write l s := by
  rw [List.map_congr_left h, List.map_id']

section Fixed

variable (callee : Helper → Text) (h : IsCanonical t)

include h

theorem shortBinding_expand_of_isCanonical : shortBinding.expand t = t := by
  obtain ⟨l, s, rfl, hl, hs⟩ := isCanonical_iff.1 h
  rw [shortBinding_expand_write (fun e he => (hl e he).1) hs]
  exact write_map_of_forall (fun e he => (Entry.expand_of_isNamed (hl e he).2.isNamed).1) s

theorem bagEcho_expand_of_isCanonical : bagEcho.expand t = t := by
  obtain ⟨l, s, rfl, hl, hs⟩ := isCanonical_iff.1 h
  rw [bagEcho_expand_write (fun e he => (hl e he).1) hs]
  exact write_map_of_forall (fun e he => (Entry.expand_of_isNamed (hl e he).2.isNamed).2.1) s

theorem expandHelpers_of_isCanonical : expandHelpers callee t = t := by
  obtain ⟨l, s, rfl, hl, hs⟩ := isCanonical_iff.1 h
  rw [expandHelpers_write callee (fun e he => (hl e he).1) hs]
  · exact write_map_of_forall
      (fun e he => (Entry.expand_of_isNamed (hl e he).2.isNamed).2.2 callee) s
  · intro e he w b hbag
    have hnamed := (hl e he).2.isNamed
    rw [hbag] at hnamed
    exact hnamed

theorem colonBinding_expand_of_isCanonical : colonBinding.expand t = t := by
  obtain ⟨l, s, rfl, hl, hs⟩ := isCanonical_iff.1 h
  rw [colonBinding_expand_write (fun e he => (hl e he).1) hs fun e he => (hl e he).2.isNamed]
  exact write_map_of_forall (fun e he => Entry.expandColon_of_isCanonical (hl e he).2) s

theorem expand_of_isCanonical : expand callee t = t := by
  rw [expand, shortBinding_expand_of_isCanonical h, bagEcho_expand_of_isCanonical h,
    expandHelpers_of_isCanonical callee h, colonBinding_expand_of_isCanonical h]

end Fixed

/-! ## Every form becomes canonical -/

/-- The last expansion leaves no single colon before the name of a value, unless the colon is
the whole name. -/
theorem Entry.isCanonical_expandColon {e : Entry} (he : e.WellFormed)
    (hnamed : e.spelling.IsNamed) (hcolon : ∀ v, e.spelling ≠ .assigned [':'] v) :
    e.expandColon.spelling.IsCanonical := by
  have hwell := he.expandColon.spelling
  obtain ⟨w, sp⟩ := e
  cases he.spelling with
  | valueless hn => exact .valueless hn
  | @assigned n v hn hv =>
    by_cases hname : IsColonName n
    · obtain ⟨d, m, rfl, hd⟩ := hname
      rw [Entry.expandColon, if_neg hd] at hwell ⊢
      cases hwell with
      | assigned hn hv =>
        refine .assigned hn hv fun h => ?_
        obtain ⟨⟨r, hr⟩, -⟩ := h
        have hhead : some ':' = some 'b' := congrArg List.head? hr
        exact absurd hhead (by decide)
    · rw [Entry.expandColon_of_not hname]
      refine .assigned hn hv fun h => ?_
      obtain ⟨⟨m, rfl⟩, hnot⟩ := h
      cases m with
      | nil => exact hcolon v rfl
      | cons d m => exact hname ⟨d, m, rfl, fun hd => hnot ⟨m, by rw [hd]; rfl⟩⟩
  | short hne hn => exact hnamed.elim
  | helper h hg hval hshort hbag => exact hnamed.elim
  | bag hw hb hword hquote hval hshort => exact hnamed.elim

/-- No form is, or becomes, a value under a lone colon. -/
theorem Item.expandHelper_ne (callee : Helper → Text) (i : Item) (v : Written) :
    (i.entry.expandShort.expandBag.expandHelper callee).spelling ≠ .assigned [':'] v := by
  obtain ⟨w, f, hne, hw, hf⟩ := i
  intro h
  cases hf with
  | literal hn hv hcolon hbind =>
    cases h
    exact hcolon rfl
  | @bound m n v hn hv hcolon =>
    cases m with
    | colon =>
      cases h
      exact hn.ne_nil rfl
    | word => cases h
  | escaped hn hv => cases h
  | short hne hn =>
    cases h
    exact hne rfl
  | valueless hn hbind hcolon => cases h
  | helper h' hg hval hshort hbag =>
    cases h' <;> cases h
  | bag hw hb hword hquote hval hshort => cases h

theorem Item.isCanonical_canonical {callee : Helper → Text} (hcallee : ∀ h, '"' ∉ callee h)
    (i : Item) : (i.entry.canonical callee).spelling.IsCanonical :=
  Entry.isCanonical_expandColon
    (i.wellFormed_entry.expandShort.expandBag.expandHelper hcallee)
    (i.entry.isNamed_expandHelper callee) (i.expandHelper_ne callee)

theorem isCanonical_expand_write {callee : Helper → Text} (hcallee : ∀ h, '"' ∉ callee h)
    (items : List Item) (hs : ∀ c ∈ s, Character.isSpace c = true) :
    IsCanonical (expand callee (write (items.map Item.entry) s)) := by
  have hwell : ∀ e ∈ items.map Item.entry, e.WellFormed :=
    List.forall_mem_map.2 fun i _ => i.wellFormed_entry
  rw [expand_write callee hwell hs hcallee, List.map_map]
  refine isCanonical_iff.2 ⟨_, s, rfl, List.forall_mem_map.2 fun i _ => ?_, hs⟩
  exact ⟨i.wellFormed_entry.canonical callee hcallee, i.isCanonical_canonical hcallee⟩

/-- **Expanding ends in canonical text, which it leaves as it is.**  Each of the four expansions
fixes every canonical text, and so do all of them in sequence.  Attributes in any of their
forms, in any order and with any white space before and behind them, are expanded to canonical
text; so expanding them twice is expanding them once, and they stay as they are exactly if they
are canonical. -/
theorem expand_fixes_canonical (callee : Helper → Text) (hcallee : ∀ h, '"' ∉ callee h) :
    (∀ t, IsCanonical t → shortBinding.expand t = t ∧ bagEcho.expand t = t ∧
        expandHelpers callee t = t ∧ colonBinding.expand t = t ∧ expand callee t = t) ∧
      ∀ (items : List Item) (s : Text), (∀ c ∈ s, Character.isSpace c = true) →
        IsCanonical (expand callee (write (items.map Item.entry) s)) ∧
          expand callee (expand callee (write (items.map Item.entry) s)) =
            expand callee (write (items.map Item.entry) s) ∧
          (expand callee (write (items.map Item.entry) s) = write (items.map Item.entry) s ↔
            IsCanonical (write (items.map Item.entry) s)) := by
  constructor
  · intro t ht
    exact ⟨shortBinding_expand_of_isCanonical ht, bagEcho_expand_of_isCanonical ht,
      expandHelpers_of_isCanonical callee ht, colonBinding_expand_of_isCanonical ht,
      expand_of_isCanonical callee ht⟩
  · intro items s hs
    have hcanonical := isCanonical_expand_write hcallee items hs
    refine ⟨hcanonical, expand_of_isCanonical callee hcanonical, fun h => ?_,
      expand_of_isCanonical callee⟩
    rwa [h] at hcanonical

/-- Canonical text whose values look like shorthands. -/
def lookalikes : Text :=
  " title=\" :$a \x7b\x7b $attributes \x7d\x7d @class(1) :b=2\" ::on=:$c\n:d ".toList

theorem isCanonical_lookalikes : IsCanonical lookalikes :=
  @IsCanonical.cons [' '] _
    (.assigned "title".toList
      (.quoted '"' " :$a \x7b\x7b $attributes \x7d\x7d @class(1) :b=2".toList))
    (by decide) (by decide)
    (.assigned ⟨by decide, by decide⟩ (.quoted (by decide) (by decide)) (by decide)) <|
  @IsCanonical.cons [' '] _ (.assigned "::on".toList (.bare ":$c".toList)) (by decide)
    (by decide)
    (.assigned ⟨by decide, by decide⟩ (.bare (by decide) (by decide) (by decide) (by decide))
      (by decide)) <|
  @IsCanonical.cons ['\n'] _ (.valueless ":d".toList) (by decide) (by decide)
    (.valueless ⟨by decide, by decide⟩) <|
  .space (by decide)

theorem expand_fixes_canonical_card :
    (∀ h, '"' ∉ Config.standard.callee h) ∧ IsCanonical lookalikes ∧
      expand Config.standard.callee lookalikes = lookalikes ∧
      IsCanonical (expand Config.standard.callee cardOpening.attributeText) ∧
      expand Config.standard.callee (expand Config.standard.callee cardOpening.attributeText) =
        expand Config.standard.callee cardOpening.attributeText := by
  have hcallee : ∀ h, '"' ∉ Config.standard.callee h := by
    intro h
    cases h <;> decide
  obtain ⟨hfixed, hexpanded⟩ := expand_fixes_canonical Config.standard.callee hcallee
  obtain ⟨-, -, -, -, hlook⟩ := hfixed lookalikes isCanonical_lookalikes
  obtain ⟨hcard, htwice, -⟩ := hexpanded cardOpening.items [] (by decide)
  exact ⟨hcallee, isCanonical_lookalikes, hlook, hcard, htwice⟩

end Attribute
end TemplateTags
