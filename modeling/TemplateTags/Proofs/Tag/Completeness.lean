import TemplateTags.Proofs.Tag.Soundness

/-!
# What the recognisers find

Each recogniser takes whole what the grammar allows, provided that it stops there: an
attribute has white space or the end of the tag behind it (`EndsAttribute`).  The grammar
asks for no longest run, but such a neighbour makes every run the longest one.  The one
exception is a bare value in front of `/>`, where the recogniser takes the slash first and
then gives it back.

The lemmas are named after the recogniser, and all say that it takes `a` from `a ++ r`.
-/

namespace TemplateTags
namespace Tag

open Attribute (bagVariable)
open Text (strip? strip?_eq_some_iff Stops)

/-! ## What can follow an attribute -/

/-- White space or the end of a tag comes next. -/
def EndsAttribute (r : Text) : Prop :=
  (∃ c t, r = c :: t ∧ Character.isSpace c = true) ∨ endsHere r = true

theorem endsHere_iff {r : Text} :
    endsHere r = true ↔ (∃ t, r = '>' :: t) ∨ ∃ t, r = '/' :: '>' :: t := by
  constructor
  · intro h
    unfold endsHere at h
    split at h
    · exact Or.inl ⟨_, rfl⟩
    · exact Or.inr ⟨_, rfl⟩
    · simp at h
  · rintro (⟨t, rfl⟩ | ⟨t, rfl⟩)
    · rfl
    · rfl

/-- A class without white space and without the characters that start an end is stopped. -/
theorem EndsAttribute.stops {p : Char → Bool} {r : Text} (h : EndsAttribute r)
    (hspace : ∀ c, Character.isSpace c = true → p c = false) (hgt : p '>' = false)
    (hslash : p '/' = false) : Stops p r := by
  rcases h with ⟨c, t, rfl, hc⟩ | h
  · exact Text.stops_cons.2 (hspace c hc)
  · rcases endsHere_iff.1 h with ⟨t, rfl⟩ | ⟨t, rfl⟩
    · exact Text.stops_cons.2 hgt
    · exact Text.stops_cons.2 hslash

theorem EndsAttribute.stops_attributeName {r : Text} (h : EndsAttribute r) :
    Stops Character.isAttributeName r :=
  h.stops (fun _ hc => Character.not_isAttributeName_of_isSpace hc) (by decide) (by decide)

theorem EndsAttribute.stops_tagName {r : Text} (h : EndsAttribute r) :
    Stops Character.isTagName r :=
  h.stops_attributeName.mono fun _ hc => Character.isAttributeName_of_isTagName hc

theorem EndsAttribute.stops_word {r : Text} (h : EndsAttribute r) : Stops Character.isWord r :=
  h.stops_tagName.mono fun _ hc => Character.isTagName_of_isWord hc

/-- None of the characters that could continue an attribute comes next. -/
theorem EndsAttribute.head?_ne {r : Text} (h : EndsAttribute r) {c : Char}
    (hspace : Character.isSpace c = false) (hgt : c ≠ '>') (hslash : c ≠ '/') :
    r.head? ≠ some c := by
  intro hc
  have hs : Stops (· == c) r := by
    refine h.stops (fun d hd => ?_) (by simpa using hgt.symm) (by simpa using hslash.symm)
    have hne : d ≠ c := by
      rintro rfl
      simp [hspace] at hd
    simpa using hne
  simpa using hs c hc

/-! ## Values -/

theorem quotedValue?_append {q : Char} {v : Text} (hq : Character.isQuote q = true)
    (hv : q ∉ v) (r : Text) : quotedValue? (q :: v ++ [q] ++ r) = some (q :: v ++ [q], r) := by
  have ht : q :: v ++ [q] ++ r = q :: (v ++ q :: r) := by simp
  rw [ht]
  simp [quotedValue?, hq, Text.takeWhile_of_notMem hv, Text.dropWhile_of_notMem hv]

theorem quotedValue?_eq_none {t : Text} (h : Stops Character.isQuote t) :
    quotedValue? t = none := by
  cases t with
  | nil => rfl
  | cons c t => simp [quotedValue?, Text.stops_cons.1 h]

/-- A bare value is taken up to where an attribute can end. -/
theorem bareValue?_append {v r : Text} (hv : ∀ c ∈ v, Character.isBareValue c = true)
    (hslash : v.getLast? = some '/' → r.head? ≠ some '>') (hempty : v = [] → ['/', '>'] <+: r)
    (hr : EndsAttribute r) : bareValue? (v ++ r) = some (v, r) := by
  by_cases hend : ∃ t, r = '/' :: '>' :: t
  · -- the slash is taken with the value and given back
    obtain ⟨t, rfl⟩ := hend
    have hrun : ∀ c ∈ v ++ ['/'], Character.isBareValue c = true := by
      intro c hc
      rcases List.mem_append.1 hc with hc | hc
      · exact hv c hc
      · rw [List.mem_singleton.1 hc]
        decide
    have hstop : Stops Character.isBareValue ('>' :: t) := Text.stops_cons.2 (by decide)
    have htake := Text.takeWhile_of_stops hrun hstop
    have hdrop := Text.dropWhile_of_stops hrun hstop
    rw [List.append_assoc, List.singleton_append] at htake hdrop
    simp [bareValue?, htake, hdrop]
  · have hstop : Stops Character.isBareValue r := by
      rcases hr with ⟨c, t, rfl, hc⟩ | hr
      · exact Text.stops_cons.2 (Character.not_isBareValue_of_isSpace hc)
      · rcases endsHere_iff.1 hr with ⟨t, rfl⟩ | hr
        · exact Text.stops_cons.2 (by decide)
        · exact absurd hr hend
    have hne : v ≠ [] := by
      intro h
      obtain ⟨t, ht⟩ := hempty h
      exact hend ⟨t, ht.symm⟩
    have hlast : ¬ (v.getLast? = some '/' ∧ r.head? = some '>') := by
      rintro ⟨h₁, h₂⟩
      exact hslash h₁ h₂
    rw [bareValue?, Text.takeWhile_of_stops hv hstop, Text.dropWhile_of_stops hv hstop,
      if_neg hne, if_neg hlast]

theorem not_isQuote_of_isBareValue {c : Char} (h : Character.isBareValue c = true) :
    Character.isQuote c = false := by
  simp only [Character.isBareValue, Bool.and_eq_true, Bool.not_eq_true'] at h
  exact h.1.1.1.2

theorem value?_append {v r : Text} (hv : IsValue v r) (hr : EndsAttribute r) :
    value? (v ++ r) = some (v, r) := by
  cases hv with
  | quoted hq hv => rw [value?, quotedValue?_append hq hv, Option.some_or]
  | bare hv hslash hempty =>
    have hnone : quotedValue? (v ++ r) = none := by
      refine quotedValue?_eq_none ?_
      cases v with
      | nil =>
        obtain ⟨t, rfl⟩ := hempty rfl
        exact Text.stops_cons.2 (by decide)
      | cons c v =>
        exact Text.stops_cons.2
          (not_isQuote_of_isBareValue (hv c (List.mem_cons_self ..)))
    rw [value?, hnone, Option.none_or, bareValue?_append hv hslash hempty hr]

/-! ## Attributes -/

theorem bagEcho?_append {w b : Text} (hw : ∀ c ∈ w, Character.isSpace c = true) (hb : '}' ∉ b)
    (r : Text) :
    bagEcho? (['{', '{'] ++ w ++ bagVariable ++ b ++ ['}', '}'] ++ r) =
      some (['{', '{'] ++ w ++ bagVariable ++ b ++ ['}', '}'], r) := by
  have hspace : Stops Character.isSpace (bagVariable ++ (b ++ (['}', '}'] ++ r))) :=
    Text.stops_cons.2 (by decide)
  have htake : (b ++ (['}', '}'] ++ r)).takeWhile (· != '}') = b := Text.takeWhile_of_notMem hb _
  have hdrop : (b ++ (['}', '}'] ++ r)).dropWhile (· != '}') = ['}', '}'] ++ r :=
    Text.dropWhile_of_notMem hb _
  simp only [bagEcho?, List.append_assoc, Text.strip?_append, Option.bind_eq_bind,
    Option.bind_some, Text.takeWhile_of_stops hw hspace, Text.dropWhile_of_stops hw hspace,
    htake, hdrop, Option.pure_def]

theorem shortBinding?_append {n r : Text} (hne : n ≠ [])
    (hn : ∀ c ∈ n, Character.isWord c = true) (hr : Stops Character.isWord r) :
    shortBinding? ([':', '$'] ++ n ++ r) = some ([':', '$'] ++ n, r) := by
  rw [List.append_assoc]
  simp only [shortBinding?, Text.strip?_append, Option.bind_eq_bind, Option.bind_some,
    Text.takeWhile_of_stops hn hr, Text.dropWhile_of_stops hn hr, if_neg hne, Option.pure_def]

/-- The first three shapes do not fit where a name stands that is followed by none of the
characters `(` and `$`. -/
theorem special_eq_none {n r : Text} (hne : n ≠ [])
    (hn : ∀ c ∈ n, Character.isAttributeName c = true) (hr : Stops Character.isAttributeName r)
    (hp : r.head? ≠ some '(') (hd : r.head? ≠ some '$') :
    ((helperCall? (n ++ r)).or (bagEcho? (n ++ r))).or (shortBinding? (n ++ r)) = none := by
  have hhelper : helperCall? (n ++ r) = none := by
    rw [helperCall?, Helper.call?_eq_none hn hr hp, Option.map_none]
  have hbag : bagEcho? (n ++ r) = none := by
    obtain ⟨c, m, rfl⟩ := List.exists_cons_of_ne_nil hne
    have hc : '{' ≠ c := by
      rintro rfl
      exact absurd (hn '{' (List.mem_cons_self ..)) (by decide)
    simp [bagEcho?, strip?, hc]
  have hshort : shortBinding? (n ++ r) = none := by
    have hstrip : strip? [':', '$'] (n ++ r) = none := by
      rw [Text.strip?_eq_none_iff]
      intro u hu
      -- the run of name characters would be a single colon
      have hcut : n ++ r = [':'] ++ '$' :: u := hu
      obtain ⟨-, rfl⟩ := Text.eq_of_stops hcut hn hr (by decide) (Text.stops_cons.2 (by decide))
      exact hd rfl
    rw [shortBinding?, hstrip]
    rfl
  rw [hhelper, hbag, hshort]
  rfl

theorem attribute?_append {a r : Text} (ha : IsAttribute a r) (hr : EndsAttribute r) :
    attribute? (a ++ r) = some (a, r) := by
  cases ha with
  | @helper h g r hg =>
    have hcall : helperCall? (h.mark ++ g ++ r) = some (h.mark ++ g, r) := by
      rw [helperCall?, Helper.call?_append h hg r]
      rfl
    rw [attribute?, hcall]
    rfl
  | @bag w b r hw hb =>
    have hhelper : helperCall? (['{', '{'] ++ w ++ bagVariable ++ b ++ ['}', '}'] ++ r) =
      none := rfl
    rw [attribute?, hhelper, bagEcho?_append hw hb]
    rfl
  | @short n r hne hn =>
    have hfirst : (helperCall? ([':', '$'] ++ n ++ r)).or (bagEcho? ([':', '$'] ++ n ++ r)) =
      none := rfl
    rw [attribute?, hfirst, shortBinding?_append hne hn hr.stops_word]
    rfl
  | name hne hn =>
    have hstop := hr.stops_attributeName
    have heq : strip? ['='] r = none := by
      rw [Text.strip?_eq_none_iff]
      rintro u rfl
      exact hr.head?_ne (by decide) (by decide) (by decide) rfl
    rw [attribute?, special_eq_none hne hn hstop (hr.head?_ne (by decide) (by decide) (by decide))
      (hr.head?_ne (by decide) (by decide) (by decide)), Option.none_or, namedAttribute?,
      Text.takeWhile_of_stops hn hstop, Text.dropWhile_of_stops hn hstop, if_neg hne, heq]
  | @assigned n v r hne hn hv =>
    have hstop : Stops Character.isAttributeName ('=' :: v ++ r) := Text.stops_cons.2 (by decide)
    rw [List.append_assoc, attribute?, special_eq_none hne hn hstop (by simp) (by simp),
      Option.none_or, namedAttribute?, Text.takeWhile_of_stops hn hstop,
      Text.dropWhile_of_stops hn hstop, if_neg hne]
    simp [value?_append hv hr]

/-- An attribute starts neither with white space nor with what starts an end. -/
theorem IsAttribute.exists_cons {a r : Text} (h : IsAttribute a r) :
    ∃ c t, a = c :: t ∧ Character.isSpace c = false ∧ c ≠ '>' ∧ c ≠ '/' := by
  have of_name : ∀ n : Text, n ≠ [] → (∀ c ∈ n, Character.isAttributeName c = true) →
      ∃ c t, n = c :: t ∧ Character.isSpace c = false ∧ c ≠ '>' ∧ c ≠ '/' := by
    intro n hne hn
    obtain ⟨c, t, rfl⟩ := List.exists_cons_of_ne_nil hne
    have hc := hn c (List.mem_cons_self ..)
    refine ⟨c, t, rfl, Character.not_isSpace_of_isAttributeName hc, ?_, ?_⟩
    · rintro rfl
      exact absurd hc (by decide)
    · rintro rfl
      exact absurd hc (by decide)
  cases h with
  | helper h hg => exact ⟨'@', _, rfl, by decide, by decide, by decide⟩
  | bag hw hb => exact ⟨'{', _, rfl, by decide, by decide, by decide⟩
  | short hne hn => exact ⟨':', _, rfl, by decide, by decide, by decide⟩
  | name hne hn => exact of_name _ hne hn
  | assigned hne hn hv =>
    obtain ⟨c, t, rfl, hc⟩ := of_name _ hne hn
    exact ⟨c, _, rfl, hc⟩

/-- Attribute text in front of an end starts where an attribute can end. -/
theorem IsAttributeText.endsAttribute {a r : Text} (h : IsAttributeText a r)
    (hr : endsHere r = true) : EndsAttribute (a ++ r) := by
  have of_space : ∀ w t : Text, w ≠ [] → (∀ c ∈ w, Character.isSpace c = true) →
      EndsAttribute (w ++ t) := by
    intro w t hne hw
    obtain ⟨c, u, rfl⟩ := List.exists_cons_of_ne_nil hne
    exact Or.inl ⟨c, u ++ t, rfl, hw c (List.mem_cons_self ..)⟩
  cases h with
  | space hw =>
    by_cases hne : a = []
    · rw [hne]
      exact Or.inr hr
    · exact of_space a r hne hw
  | cons hne hw ha hs =>
    rw [List.append_assoc, List.append_assoc]
    exact of_space _ _ hne hw

theorem stops_space_of_endsHere {r : Text} (h : endsHere r = true) :
    Stops Character.isSpace r := by
  rcases endsHere_iff.1 h with ⟨t, rfl⟩ | ⟨t, rfl⟩
  · exact Text.stops_cons.2 (by decide)
  · exact Text.stops_cons.2 (by decide)

/-- The step of the recogniser of attribute text. -/
theorem attributes?_eq (t : Text) :
    attributes? t =
      if endsHere (t.dropWhile Character.isSpace) then
        some (t.takeWhile Character.isSpace, t.dropWhile Character.isSpace)
      else if t.takeWhile Character.isSpace = [] then none
      else (attribute? (t.dropWhile Character.isSpace)).bind fun x =>
        (attributes? x.2).map fun s => (t.takeWhile Character.isSpace ++ x.1 ++ s.1, s.2) := by
  rw [attributes?]
  split
  · rfl
  · split
    · rfl
    · split
      · next h => rw [h, Option.bind_none]
      · next h => rw [h, Option.bind_some]

theorem attributes?_append {a r : Text} (ha : IsAttributeText a r) (hr : endsHere r = true) :
    attributes? (a ++ r) = some (a, r) := by
  induction ha with
  | space hw =>
    have hstop := stops_space_of_endsHere hr
    rw [attributes?_eq, Text.dropWhile_of_stops hw hstop, Text.takeWhile_of_stops hw hstop,
      if_pos hr]
  | @cons w b s r hne hw hb hs ih =>
    obtain ⟨c, t, rfl, hc, hgt, hslash⟩ := hb.exists_cons
    have hstop : Stops Character.isSpace (c :: t ++ (s ++ r)) := Text.stops_cons.2 hc
    have hend : endsHere (c :: t ++ (s ++ r)) = false := by
      rw [Bool.eq_false_iff]
      intro h
      rcases endsHere_iff.1 h with ⟨u, hu⟩ | ⟨u, hu⟩
      · exact hgt (List.cons.inj hu).1
      · exact hslash (List.cons.inj hu).1
    have hattr := attribute?_append hb (hs.endsAttribute hr)
    rw [List.append_assoc, List.append_assoc, attributes?_eq,
      Text.dropWhile_of_stops hw hstop, Text.takeWhile_of_stops hw hstop, hend, hattr,
      if_neg Bool.false_ne_true, if_neg hne, Option.bind_some, ih hr, Option.map_some,
      List.append_assoc]

/-! ## Tags -/

theorem ending?_append {body e : Text} {s : Bool} (h : IsEnding body s e) (r : Text) :
    ending? body (e ++ r) = some (s, e, r) := by
  cases h with
  | selfClosing => rfl
  | plain heq hminus =>
    show (if body.getLast? = some '=' ∨ body.getLast? = some '-' then none
      else some (false, ['>'], r)) = some (false, ['>'], r)
    exact if_neg (not_or.2 ⟨heq, hminus⟩)

theorem IsEnding.endsHere {body e : Text} {s : Bool} (h : IsEnding body s e) (r : Text) :
    endsHere (e ++ r) = true := by
  cases h <;> rfl

/-- Attribute text is found in front of any continuation of an end. -/
theorem attributes?_append_ending {body a e : Text} {s : Bool} (ha : IsAttributeText a e)
    (he : IsEnding body s e) (r : Text) : attributes? (a ++ (e ++ r)) = some (a, e ++ r) :=
  attributes?_append ((IsAttributeText.congr he.getLast?).2 ha) (he.endsHere r)

theorem endsAttribute_append_ending {body a e : Text} {s : Bool} (ha : IsAttributeText a e)
    (he : IsEnding body s e) (r : Text) : EndsAttribute (a ++ (e ++ r)) :=
  ((IsAttributeText.congr he.getLast?).2 ha).endsAttribute (he.endsHere r)

theorem opening?_append {n a e : Text} {s : Bool} (hne : n ≠ [])
    (hn : ∀ c ∈ n, Character.isTagName c = true) (ha : IsAttributeText a e)
    (he : IsEnding (n ++ a) s e) (r : Text) :
    opening? (n ++ a ++ e ++ r) = some ⟨.opening n a s, n ++ a ++ e, r⟩ := by
  have hstop := (endsAttribute_append_ending ha he r).stops_tagName
  rw [List.append_assoc, List.append_assoc, opening?, Text.takeWhile_of_stops hn hstop,
    Text.dropWhile_of_stops hn hstop, if_neg hne]
  simp only [attributes?_append_ending ha he, ending?_append he, Option.bind_eq_bind,
    Option.bind_some, Option.pure_def]

/-- The step of the recogniser of inline names. -/
theorem inlineName?_eq (t : Text) :
    inlineName? t =
      if t.takeWhile Character.isWord = [] then none
      else
        match (strip? ['-'] (t.dropWhile Character.isWord)).bind inlineName? with
        | none => some (t.takeWhile Character.isWord, t.dropWhile Character.isWord)
        | some s => some (t.takeWhile Character.isWord ++ '-' :: s.1, s.2) := by
  rw [inlineName?]
  split
  · rfl
  · split
    · next h => rw [h, Option.bind_none]
    · next u h =>
      cases hu : inlineName? u <;> rw [h, Option.bind_some, hu]

theorem inlineName?_append {n r : Text} (hn : IsInlineName n) (hr : EndsAttribute r) :
    inlineName? (n ++ r) = some (n, r) := by
  induction hn with
  | word hne hw =>
    have hstop := hr.stops_word
    have hminus : strip? ['-'] r = none := by
      rw [Text.strip?_eq_none_iff]
      rintro u rfl
      exact hr.head?_ne (by decide) (by decide) (by decide) rfl
    rw [inlineName?_eq, Text.takeWhile_of_stops hw hstop, Text.dropWhile_of_stops hw hstop,
      if_neg hne, hminus, Option.bind_none]
  | @hyphen w n hne hw _ ih =>
    have hstop : Stops Character.isWord ('-' :: n ++ r) := Text.stops_cons.2 (by decide)
    have hminus : strip? ['-'] ('-' :: n ++ r) = some (n ++ r) := rfl
    rw [List.append_assoc, inlineName?_eq, Text.takeWhile_of_stops hw hstop,
      Text.dropWhile_of_stops hw hstop, if_neg hne, hminus, Option.bind_some, ih]

theorem slotName?_append {n : Option Text} {a r : Text} (hn : IsSlotName n a)
    (hr : EndsAttribute r) : slotName? (a ++ r) = some (n, a, r) := by
  cases hn with
  | absent =>
    have hcolon : strip? [':'] ([] ++ r) = none := by
      rw [Text.strip?_eq_none_iff]
      rintro u rfl
      exact hr.head?_ne (by decide) (by decide) (by decide) rfl
    rw [slotName?, hcolon]
    rfl
  | inline hn =>
    show (inlineName? (_ ++ r)).map _ = _
    rw [inlineName?_append hn hr]
    rfl

theorem afterSlotWord?_append {r : Text} (h : EndsSlotWord r) :
    afterSlotWord? (slotWord ++ r) = some r := by
  have hall : (r.head?.all fun c => c = ':' || !Character.isTagName c) = true := by
    cases hr : r.head? with
    | none => rfl
    | some c => simpa using h c hr
  simp only [afterSlotWord?, Text.strip?_append, Option.bind_eq_bind, Option.bind_some, hall,
    if_true, Option.pure_def]

theorem endsSlotWord_append {n : Option Text} {a r : Text} (hn : IsSlotName n a)
    (hr : EndsAttribute r) : EndsSlotWord (a ++ r) := by
  intro c hc
  cases hn with
  | absent => exact Or.inr (hr.stops_tagName c hc)
  | inline hn => exact Or.inl (Option.some.inj hc).symm

theorem slotOpening?_append {n a e : Text} {inline : Option Text} {s : Bool}
    (hn : IsSlotName inline n) (ha : IsAttributeText a e)
    (he : IsEnding (slotWord ++ n ++ a) s e) (r : Text) :
    slotOpening? (slotWord ++ n ++ a ++ e ++ r) =
      some ⟨.slotOpening inline a s, slotWord ++ n ++ a ++ e, r⟩ := by
  have hend := endsAttribute_append_ending ha he r
  have hslot := afterSlotWord?_append (endsSlotWord_append hn hend)
  have hassoc : slotWord ++ n ++ a ++ e ++ r = slotWord ++ (n ++ (a ++ (e ++ r))) := by
    simp only [List.append_assoc]
  rw [hassoc]
  simp only [slotOpening?, hslot, slotName?_append hn hend, attributes?_append_ending ha he,
    ending?_append he, Option.bind_eq_bind, Option.bind_some, Option.pure_def]

end Tag
end TemplateTags
