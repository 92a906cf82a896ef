import TemplateTags.Proofs.Document.Tiling

/-!
# Opening and closing tags of one name

An element is written with one name in its two tags, `<x-n>` and `</x-n>`.  Whether a tag
belongs to a slot is decided from its name on either side, but not in the same way:

* an opening tag is one of a slot if its name is `slot`, or `slot:` with an inline name
  behind the colon; with anything else behind the colon it opens a component
  (`NamesSlot`, `derives_openText_iff`);
* a closing tag is one of a slot if its name is `slot`, or `slot:` with anything behind the
  colon (`StartsSlot`, `derives_closeText_iff`).

So the two tags agree on every name but one kind: `slot:` with something behind it that is
no inline name (`Misnamed`).  Such an element opens a component and closes a slot.  The
reverse does not happen, since each name of a slot starts like one.
-/

namespace TemplateTags

namespace Tag

/-- The opening tag with the name `n` and no attributes. -/
def openText (n : Text) : Text := "<x-".toList ++ n ++ ['>']

/-- The closing tag with the name `n`. -/
def closeText (n : Text) : Text := "</x-".toList ++ n ++ ['>']

/-- The name is the word `slot`, perhaps with a colon and an inline name behind it. -/
def NamesSlot (n : Text) : Prop := n = slotWord ∨ ∃ r, n = slotWord ++ ':' :: r ∧ IsInlineName r

/-- The name is the word `slot`, perhaps with a colon and anything behind it. -/
def StartsSlot (n : Text) : Prop := n = slotWord ∨ ∃ r, n = slotWord ++ ':' :: r

/-- The name is the word `slot` and a colon with something behind it that is no inline
name. -/
def Misnamed (n : Text) : Prop := ∃ r, n = slotWord ++ ':' :: r ∧ ¬ IsInlineName r

theorem openText_eq (n : Text) : openText n = '<' :: "x-".toList ++ (n ++ ['>']) := by
  have hstart : "<x-".toList = '<' :: "x-".toList := by decide
  rw [openText, hstart, List.append_assoc]

theorem closeText_eq (n : Text) : closeText n = '<' :: '/' :: "x-".toList ++ (n ++ ['>']) := by
  have hstart : "</x-".toList = '<' :: '/' :: "x-".toList := by decide
  rw [closeText, hstart, List.append_assoc]

/-! ## What follows the word `slot` -/

theorem namesSlot_iff {n : Text} :
    NamesSlot n ↔ ∃ inline r, IsSlotName inline r ∧ n = slotWord ++ r := by
  constructor
  · rintro (rfl | ⟨r, rfl, hr⟩)
    · exact ⟨none, [], .absent, (List.append_nil _).symm⟩
    · exact ⟨some r, ':' :: r, .inline hr, rfl⟩
  · rintro ⟨inline, r, hr, rfl⟩
    cases hr with
    | absent => exact Or.inl (List.append_nil _)
    | inline hr => exact Or.inr ⟨_, rfl, hr⟩

/-- Of a name that starts with `slot`, only a colon can follow the word as such. -/
theorem startsSlot_append_iff {r : Text} (hr : ∀ c ∈ r, Character.isTagName c = true) :
    StartsSlot (slotWord ++ r) ↔ EndsSlotWord (r ++ ['>']) := by
  cases r with
  | nil =>
    refine iff_of_true (Or.inl (List.append_nil _)) fun c hc => Or.inr ?_
    cases hc
    decide
  | cons d r =>
    have hd := hr d (List.mem_cons_self ..)
    constructor
    · rintro (h | ⟨u, h⟩) c hc
      · exact absurd (List.append_right_eq_self.1 h) (List.cons_ne_nil d r)
      · rw [← Option.some.inj hc]
        exact Or.inl (List.cons.inj (List.append_cancel_left h)).1
    · intro h
      rcases h d rfl with rfl | hnot
      · exact Or.inr ⟨r, rfl⟩
      · rw [hd] at hnot
        cases hnot

/-- The names of slots are those that start like one and are not misnamed. -/
theorem namesSlot_iff_startsSlot {n : Text} : NamesSlot n ↔ StartsSlot n ∧ ¬ Misnamed n := by
  constructor
  · rintro (rfl | ⟨r, rfl, hr⟩)
    · refine ⟨Or.inl rfl, ?_⟩
      rintro ⟨r, h, -⟩
      exact absurd (List.append_right_eq_self.1 h.symm) (List.cons_ne_nil _ r)
    · refine ⟨Or.inr ⟨r, rfl⟩, ?_⟩
      rintro ⟨u, h, hu⟩
      rw [(List.cons.inj (List.append_cancel_left h)).2] at hr
      exact hu hr
  · rintro ⟨rfl | ⟨r, rfl⟩, hmis⟩
    · exact Or.inl rfl
    · exact Or.inr ⟨r, rfl, not_not.1 fun hr => hmis ⟨r, rfl, hr⟩⟩

/-! ## The readings of the two tags -/

/-- Attribute text made of the characters of a name is empty. -/
theorem IsAttributeText.eq_nil {a r : Text} (ha : IsAttributeText a r)
    (hn : ∀ c ∈ a, Character.isTagName c = true) : a = [] := by
  have hsolid : ∀ c ∈ a, ¬ Character.isSpace c = true := fun c hc hs => by
    have hc' := hn c hc
    rw [Character.not_isTagName_of_isSpace hs] at hc'
    cases hc'
  cases ha with
  | space hw => exact List.eq_nil_iff_forall_not_mem.2 fun c hc => hsolid c hc (hw c hc)
  | cons hne hw _ _ =>
    obtain ⟨c, hc⟩ := List.exists_mem_of_ne_nil _ hne
    exact absurd (hw c hc) (hsolid c (by simp [hc]))

variable {n : Text}

/-- A body with its end that makes up a name with `>` behind it is that name. -/
theorem IsEnding.eq_of_append {b a e : Text} {s : Bool} (he : IsEnding (b ++ a) s e)
    {r : Text} (ha : IsAttributeText a r) (hn : ∀ c ∈ n, Character.isTagName c = true)
    (h : b ++ a ++ e = n ++ ['>']) : s = false ∧ a = [] ∧ b = n ∧ n.getLast? ≠ some '-' := by
  cases he with
  | selfClosing =>
    have hbody : b ++ a ++ ['/'] ++ ['>'] = n ++ ['>'] := by simpa using h
    have hslash : '/' ∈ n := by
      rw [← List.append_cancel_right hbody]
      simp
    exact absurd (hn '/' hslash) (by decide)
  | plain heq hminus =>
    have hbody := List.append_cancel_right h
    rw [hbody] at hminus
    have hnil : a = [] := ha.eq_nil fun c hc => hn c (by rw [← hbody]; simp [hc])
    rw [hnil, List.append_nil] at hbody
    exact ⟨rfl, hnil, hbody, hminus⟩

/-- How an opening tag without attributes can be read. -/
theorem derives_openText_iff (hn : ∀ c ∈ n, Character.isTagName c = true) {f : Form} :
    Derives f (openText n) ↔ n.getLast? ≠ some '-' ∧
      (n ≠ [] ∧ f = .opening n [] false ∨
        ∃ inline r, IsSlotName inline r ∧ n = slotWord ++ r ∧
          f = .slotOpening inline [] false) := by
  rw [openText_eq]
  constructor
  · intro h
    generalize hx : '<' :: "x-".toList ++ (n ++ ['>']) = x at h
    cases h with
    | @slotOpening m r a e inline s hm hr ha he =>
      obtain ⟨-, htext⟩ := eq_of_isMark isMark_hyphen hm (List.cons.inj hx).2
      obtain ⟨rfl, rfl, hbody, hlast⟩ := he.eq_of_append ha hn htext.symm
      exact ⟨hlast, Or.inr ⟨inline, r, hr, hbody.symm, rfl⟩⟩
    | @opening m k a e s hm hne hk ha he =>
      obtain ⟨-, htext⟩ := eq_of_isMark isMark_hyphen hm (List.cons.inj hx).2
      obtain ⟨rfl, rfl, rfl, hlast⟩ := he.eq_of_append ha hn htext.symm
      exact ⟨hlast, Or.inl ⟨hne, rfl⟩⟩
    | slotClosing hm ht hw => exact absurd (List.cons.inj (List.cons.inj hx).2).1 (by decide)
    | closing hm hk hw => exact absurd (List.cons.inj (List.cons.inj hx).2).1 (by decide)
  · rintro ⟨hlast, h⟩
    have heq : n.getLast? ≠ some '=' := fun h =>
      absurd (hn '=' (List.mem_of_getLast? h)) (by decide)
    have hend : IsEnding (n ++ []) false ['>'] := by
      rw [List.append_nil]
      exact .plain heq hlast
    have hspace : IsAttributeText [] ['>'] := .space (by decide)
    rcases h with ⟨hne, rfl⟩ | ⟨inline, r, hr, rfl, rfl⟩
    · have h := Derives.opening isMark_hyphen hne hn hspace hend
      rwa [List.append_nil] at h
    · have h := Derives.slotOpening isMark_hyphen hr hspace hend
      rwa [List.append_nil] at h

/-- How a closing tag can be read. -/
theorem derives_closeText_iff (hn : ∀ c ∈ n, Character.isTagName c = true) {f : Form} :
    Derives f (closeText n) ↔ f = .closing n ∨ StartsSlot n ∧ f = .slotClosing := by
  rw [closeText_eq]
  constructor
  · intro h
    generalize hx : '<' :: '/' :: "x-".toList ++ (n ++ ['>']) = x at h
    cases h with
    | slotOpening hm hr ha he =>
      obtain ⟨c, u, rfl, hc⟩ := hm.exists_cons
      exact absurd (List.cons.inj (List.cons.inj hx).2).1.symm hc
    | opening hm hne hk ha he =>
      obtain ⟨c, u, rfl, hc⟩ := hm.exists_cons
      exact absurd (List.cons.inj (List.cons.inj hx).2).1.symm hc
    | @slotClosing m t hm ht hw =>
      obtain ⟨-, htext⟩ := eq_of_isMark isMark_hyphen hm (List.cons.inj (List.cons.inj hx).2).2
      obtain rfl := List.append_cancel_right htext
      have ht : ∀ c ∈ t, Character.isTagName c = true := fun c hc => hn c (by simp [hc])
      exact Or.inr ⟨(startsSlot_append_iff ht).2 hw, rfl⟩
    | @closing m k w hm hk hw =>
      obtain ⟨-, htext⟩ := eq_of_isMark isMark_hyphen hm (List.cons.inj (List.cons.inj hx).2).2
      obtain rfl := List.append_cancel_right htext
      have hnil : w = [] := IsAttributeText.eq_nil (r := []) (.space hw) fun c hc =>
        hn c (by simp [hc])
      rw [hnil, List.append_nil]
      exact Or.inl rfl
  · rintro (rfl | ⟨hstart, rfl⟩)
    · have h := Derives.closing (w := []) isMark_hyphen hn (by decide)
      rwa [List.append_nil] at h
    · obtain ⟨r, rfl⟩ : ∃ r, n = slotWord ++ r := by
        rcases hstart with rfl | ⟨r, rfl⟩
        · exact ⟨[], (List.append_nil _).symm⟩
        · exact ⟨_, rfl⟩
      have hr : ∀ c ∈ r, Character.isTagName c = true := fun c hc => hn c (by simp [hc])
      exact .slotClosing isMark_hyphen (Text.notMem_of_forall hr (by decide))
        ((startsSlot_append_iff hr).1 hstart)

end Tag

namespace Document

open Tag (Kind Reads NamesSlot StartsSlot Misnamed openText closeText)

/-! ## The kinds of the two tags -/

/-- The document is one tag, of the given kind. -/
def IsTag (k : Kind) (t : Text) : Prop := ∃ g, pieces t = [.tag g] ∧ g.form.kind = k

variable {n t : Text}

theorem isTag_of_reads {f : Tag.Form} (h : Reads f t) : IsTag f.kind t :=
  ⟨_, pieces_of_reads h, rfl⟩

theorem IsTag.exists_reads {k : Kind} (h : IsTag k t) : ∃ f, Reads f t ∧ f.kind = k := by
  obtain ⟨g, hg, hk⟩ := h
  exact ⟨g.form, reads_of_pieces hg, hk⟩

/-- A document is a tag of one kind at most. -/
theorem IsTag.unique {k k' : Kind} (h : IsTag k t) (h' : IsTag k' t) : k = k' := by
  obtain ⟨g, hg, rfl⟩ := h
  obtain ⟨g', hg', rfl⟩ := h'
  rw [hg] at hg'
  cases hg'
  rfl

/-- An opening tag without attributes opens a slot if its name is one of a slot. -/
theorem isTag_openText (hne : n ≠ []) (hn : ∀ c ∈ n, Character.isTagName c = true)
    (hlast : n.getLast? ≠ some '-') :
    (NamesSlot n → IsTag .slotOpening (openText n)) ∧
      (¬ NamesSlot n → IsTag .opening (openText n)) := by
  constructor
  · intro hslot
    obtain ⟨inline, r, hr, he⟩ := Tag.namesSlot_iff.1 hslot
    have hd := (Tag.derives_openText_iff hn).2 ⟨hlast, Or.inr ⟨inline, r, hr, he, rfl⟩⟩
    exact isTag_of_reads ⟨hd, fun h => by cases h⟩
  · intro hslot
    have hd := (Tag.derives_openText_iff hn).2 ⟨hlast, Or.inl ⟨hne, rfl⟩⟩
    refine isTag_of_reads ⟨hd, fun _ g hg => ?_⟩
    rcases ((Tag.derives_openText_iff hn).1 hg).2 with ⟨-, rfl⟩ | ⟨inline, r, hr, he, -⟩
    · rfl
    · exact absurd (Tag.namesSlot_iff.2 ⟨inline, r, hr, he⟩) hslot

/-- A closing tag closes a slot if its name starts like one. -/
theorem isTag_closeText (hn : ∀ c ∈ n, Character.isTagName c = true) :
    (StartsSlot n → IsTag .slotClosing (closeText n)) ∧
      (¬ StartsSlot n → IsTag .closing (closeText n)) := by
  constructor
  · intro hstart
    have hd := (Tag.derives_closeText_iff hn).2 (Or.inr ⟨hstart, rfl⟩)
    exact isTag_of_reads ⟨hd, fun h => by cases h⟩
  · intro hstart
    have hd := (Tag.derives_closeText_iff hn).2 (Or.inl rfl)
    refine isTag_of_reads ⟨hd, fun _ g hg => ?_⟩
    rcases (Tag.derives_closeText_iff hn).1 hg with rfl | ⟨h, -⟩
    · rfl
    · exact absurd h hstart

/-- Two kinds that a tag has under opposite conditions. -/
theorem isTag_iff_of_imp {p : Prop} {k k' : Kind} (hk : k ≠ k')
    (h : (p → IsTag k t) ∧ (¬ p → IsTag k' t)) :
    (IsTag k t ↔ p) ∧ (IsTag k' t ↔ ¬ p) := by
  constructor
  · refine ⟨fun ht => ?_, h.1⟩
    by_contra hp
    exact hk (ht.unique (h.2 hp))
  · exact ⟨fun ht hp => hk ((h.1 hp).unique ht), h.2⟩

/-- **The two tags of an element agree on all names but the misnamed ones.**  Let `n` be a
name for which the opening tag is a tag.  Then both tags belong to a slot or both belong to
a component, unless `n` is `slot:` with something behind it that is no inline name; in this
case the opening tag is one of a component and the closing tag is one of a slot. -/
theorem isTag_alike_iff {n : Text} (hne : n ≠ [])
    (hn : ∀ c ∈ n, Character.isTagName c = true) (htag : ∃ k, IsTag k (openText n)) :
    ((IsTag .slotOpening (openText n) ↔ IsTag .slotClosing (closeText n)) ∧
        (IsTag .opening (openText n) ↔ IsTag .closing (closeText n)) ↔ ¬ Misnamed n) ∧
      (IsTag .slotOpening (openText n) ∨ IsTag .opening (openText n)) ∧
      (IsTag .slotClosing (closeText n) ∨ IsTag .closing (closeText n)) ∧
      (Misnamed n → IsTag .opening (openText n) ∧ IsTag .slotClosing (closeText n)) := by
  obtain ⟨k, hk⟩ := htag
  obtain ⟨f, hf, -⟩ := hk.exists_reads
  have hlast := ((Tag.derives_openText_iff hn).1 hf.1).1
  obtain ⟨hslotOpen, hopen⟩ := isTag_iff_of_imp (by decide) (isTag_openText hne hn hlast)
  obtain ⟨hslotClose, hclose⟩ := isTag_iff_of_imp (by decide) (isTag_closeText hn)
  have hstart : Misnamed n → StartsSlot n := fun ⟨r, h, _⟩ => Or.inr ⟨r, h⟩
  rw [hslotOpen, hopen, hslotClose, hclose, Tag.namesSlot_iff_startsSlot]
  refine ⟨?_, ?_, ?_, ?_⟩
  · constructor
    · rintro ⟨h, -⟩ hmis
      exact (h.2 (hstart hmis)).2 hmis
    · intro hmis
      have hiff : StartsSlot n ∧ ¬ Misnamed n ↔ StartsSlot n := and_iff_left hmis
      exact ⟨hiff, not_congr hiff⟩
  · exact Classical.em _
  · exact Classical.em _
  · intro hmis
    exact ⟨fun h => h.2 hmis, hstart hmis⟩

theorem isTag_alike_iff_header :
    "slot:card-header".toList ≠ [] ∧
      (∀ c ∈ "slot:card-header".toList, Character.isTagName c = true) ∧
      (∃ k, IsTag k (openText "slot:card-header".toList)) ∧
      ((IsTag .slotOpening (openText "slot:card-header".toList) ↔
            IsTag .slotClosing (closeText "slot:card-header".toList)) ∧
          (IsTag .opening (openText "slot:card-header".toList) ↔
            IsTag .closing (closeText "slot:card-header".toList)) ↔
        ¬ Misnamed "slot:card-header".toList) := by
  have hne : "slot:card-header".toList ≠ [] := by decide
  have hn : ∀ c ∈ "slot:card-header".toList, Character.isTagName c = true := by decide
  have htag : ∃ k, IsTag k (openText "slot:card-header".toList) :=
    ⟨.slotOpening, ⟨.slotOpening (some "card-header".toList) [] false,
      openText "slot:card-header".toList,
      ⟨Position.start, Position.start.walk (openText "slot:card-header".toList)⟩⟩,
      by decide +kernel, rfl⟩
  exact ⟨hne, hn, htag, (isTag_alike_iff hne hn htag).1⟩

/-- The tags of an element need not agree: `<x-slot:>` opens a component, and `</x-slot:>`
closes a slot. -/
theorem not_isTag_alike :
    ¬ ∀ n : Text, n ≠ [] → (∀ c ∈ n, Character.isTagName c = true) →
      (∃ k, IsTag k (openText n)) →
      (IsTag .slotOpening (openText n) ↔ IsTag .slotClosing (closeText n)) ∧
        (IsTag .opening (openText n) ↔ IsTag .closing (closeText n)) := by
  intro h
  have hopen : IsTag .opening (openText "slot:".toList) :=
    ⟨⟨.opening "slot:".toList [] false, openText "slot:".toList,
      ⟨Position.start, Position.start.walk (openText "slot:".toList)⟩⟩, by decide +kernel, rfl⟩
  have hclose : IsTag .slotClosing (closeText "slot:".toList) :=
    ⟨⟨.slotClosing, closeText "slot:".toList,
      ⟨Position.start, Position.start.walk (closeText "slot:".toList)⟩⟩, by decide +kernel, rfl⟩
  have hboth := (h "slot:".toList (by decide) (by decide) ⟨_, hopen⟩).2.1 hopen
  exact absurd (hboth.unique hclose) (by decide)

end Document
end TemplateTags
