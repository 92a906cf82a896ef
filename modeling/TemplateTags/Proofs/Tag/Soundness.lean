import TemplateTags.Proofs.Helper
import TemplateTags.Proofs.Tag.Grammar

/-!
# What the recognisers take

Each recogniser of a tag takes something that the grammar allows in front of what it
leaves.  There is one lemma for each recogniser, in the order in which they are built up,
ending with `derives_of_match?`.
-/

namespace TemplateTags
namespace Tag

open Attribute (bagVariable)
open Text (strip? strip?_eq_some_iff)

/-! ## Values and attributes -/

theorem notMem_takeWhile_ne (q : Char) (t : Text) : q ∉ t.takeWhile (· != q) := by
  intro h
  simpa using List.mem_takeWhile_imp h

theorem isValue_of_quotedValue? {t v r : Text} (h : quotedValue? t = some (v, r)) :
    IsValue v r := by
  cases t with
  | nil => simp [quotedValue?] at h
  | cons q t =>
    simp only [quotedValue?] at h
    split at h
    · next hq =>
      obtain ⟨s, _, e⟩ := Option.map_eq_some_iff.1 h
      cases e
      exact .quoted hq (notMem_takeWhile_ne q t)
    · simp at h

theorem isValue_of_bareValue? {t v r : Text} (h : bareValue? t = some (v, r)) :
    IsValue v r := by
  have hrun : ∀ c ∈ t.takeWhile Character.isBareValue, Character.isBareValue c = true :=
    fun c hc => List.mem_takeWhile_imp hc
  unfold bareValue? at h
  split at h
  · simp at h
  · next hne =>
    split at h
    · next hl =>
      -- the slash that is given back stands directly before `>`
      cases h
      obtain ⟨u, hu⟩ := List.getLast?_eq_some_iff.1 hl.1
      obtain ⟨s, hs⟩ : ∃ s, t.dropWhile Character.isBareValue = '>' :: s :=
        List.head?_eq_some_iff.1 hl.2
      refine .bare (fun c hc => hrun c (List.dropLast_subset _ hc)) ?_ ?_
      · intro _
        simp
      · intro _
        rw [hs]
        exact ⟨s, rfl⟩
    · next hl =>
      cases h
      exact .bare hrun (fun h₁ h₂ => hl ⟨h₁, h₂⟩) fun h₁ => absurd h₁ hne

theorem isValue_of_value? {t v r : Text} (h : value? t = some (v, r)) : IsValue v r := by
  rcases Option.or_eq_some_iff.1 h with h | ⟨_, h⟩
  · exact isValue_of_quotedValue? h
  · exact isValue_of_bareValue? h

theorem isAttribute_of_helperCall? {t a r : Text} (h : helperCall? t = some (a, r)) :
    IsAttribute a r := by
  obtain ⟨s, hs, e⟩ := Option.map_eq_some_iff.1 h
  cases e
  exact .helper s.1 (Helper.isGroup_of_call? hs)

theorem isAttribute_of_bagEcho? {t a r : Text} (h : bagEcho? t = some (a, r)) :
    IsAttribute a r := by
  simp only [bagEcho?, Option.bind_eq_bind, Option.bind_eq_some_iff, Option.pure_def,
    Option.some.injEq, Prod.mk.injEq] at h
  obtain ⟨u, _, b, _, s, _, rfl, rfl⟩ := h
  exact .bag (fun c hc => List.mem_takeWhile_imp hc) (notMem_takeWhile_ne _ b)

theorem isAttribute_of_shortBinding? {t a r : Text} (h : shortBinding? t = some (a, r)) :
    IsAttribute a r := by
  simp only [shortBinding?, Option.bind_eq_bind, Option.bind_eq_some_iff, Option.pure_def,
    Option.ite_none_left_eq_some, Option.some.injEq, Prod.mk.injEq] at h
  obtain ⟨u, _, hne, rfl, rfl⟩ := h
  exact .short hne fun c hc => List.mem_takeWhile_imp hc

theorem isAttribute_of_namedAttribute? {t a r : Text} (h : namedAttribute? t = some (a, r)) :
    IsAttribute a r := by
  have hrun : ∀ c ∈ t.takeWhile Character.isAttributeName,
      Character.isAttributeName c = true := fun c hc => List.mem_takeWhile_imp hc
  unfold namedAttribute? at h
  split at h
  · simp at h
  · next hne =>
    split at h
    · cases h
      exact .name hne hrun
    · obtain ⟨s, hs, e⟩ := Option.map_eq_some_iff.1 h
      cases e
      exact .assigned hne hrun (isValue_of_value? hs)

theorem isAttribute_of_attribute? {t a r : Text} (h : attribute? t = some (a, r)) :
    IsAttribute a r := by
  rcases Option.or_eq_some_iff.1 h with h | ⟨_, h⟩
  · rcases Option.or_eq_some_iff.1 h with h | ⟨_, h⟩
    · rcases Option.or_eq_some_iff.1 h with h | ⟨_, h⟩
      · exact isAttribute_of_helperCall? h
      · exact isAttribute_of_bagEcho? h
    · exact isAttribute_of_shortBinding? h
  · exact isAttribute_of_namedAttribute? h

theorem isAttributeText_of_attributes? {t a r : Text} (h : attributes? t = some (a, r)) :
    IsAttributeText a r := by
  have hrun : ∀ (u : Text), ∀ c ∈ u.takeWhile Character.isSpace, Character.isSpace c = true :=
    fun u c hc => List.mem_takeWhile_imp hc
  fun_induction attributes? t generalizing a r with
  | case1 t _ =>
    cases h
    exact .space (hrun t)
  | case2 => simp at h
  | case3 => simp at h
  | case4 t _ hne b u hb ih =>
    obtain ⟨s, hs, e⟩ := Option.map_eq_some_iff.1 h
    cases e
    have ha : IsAttribute b (s.1 ++ s.2) := by
      rw [← eq_of_attributes? hs]
      exact isAttribute_of_attribute? hb
    exact .cons hne (hrun t) ha (ih hs)

/-! ## Tags -/

theorem isEnding_of_ending? {body t e r : Text} {s : Bool}
    (h : ending? body t = some (s, e, r)) : IsEnding body s e := by
  unfold ending? at h
  split at h
  · cases h
    exact .selfClosing
  · split at h
    · simp at h
    · next hb =>
      cases h
      rw [not_or] at hb
      exact .plain hb.1 hb.2
  · simp at h

/-- An end of a tag hides what follows it. -/
theorem IsEnding.getLast? {body e : Text} {s : Bool} (h : IsEnding body s e) :
    e.getLast? = some '>' := by
  cases h <;> rfl

/-- Attribute text and an end, taken one after the other. -/
theorem isAttributeText_of_ending? {body t a r e u : Text} {s : Bool}
    (ha : attributes? t = some (a, r)) (he : ending? body r = some (s, e, u)) :
    IsAttributeText a e := by
  have h := isAttributeText_of_attributes? ha
  rw [eq_of_ending? he] at h
  exact (IsAttributeText.congr (isEnding_of_ending? he).getLast?).1 h

theorem isInlineName_of_inlineName? {t n r : Text} (h : inlineName? t = some (n, r)) :
    IsInlineName n := by
  have hrun : ∀ (u : Text), ∀ c ∈ u.takeWhile Character.isWord, Character.isWord c = true :=
    fun u c hc => List.mem_takeWhile_imp hc
  fun_induction inlineName? t generalizing n r with
  | case1 => simp at h
  | case2 t hne _ =>
    cases h
    exact .word hne (hrun t)
  | case3 t hne =>
    cases h
    exact .word hne (hrun t)
  | case4 t hne u _ s hs ih =>
    cases h
    exact .hyphen hne (hrun t) (ih hs)

theorem isSlotName_of_slotName? {t a r : Text} {n : Option Text}
    (h : slotName? t = some (n, a, r)) : IsSlotName n a := by
  unfold slotName? at h
  split at h
  · cases h
    exact .absent
  · obtain ⟨s, hs, e⟩ := Option.map_eq_some_iff.1 h
    cases e
    exact .inline (isInlineName_of_inlineName? hs)

theorem isMark_of_mark? {t m r : Text} (h : mark? t = some (m, r)) : IsMark m := by
  simp only [mark?, Option.bind_eq_bind, Option.bind_eq_some_iff] at h
  obtain ⟨u, _, h⟩ := h
  split at h
  · split at h
    · next hc =>
      cases h
      exact ⟨_, _, fun d hd => List.mem_takeWhile_imp hd, hc, rfl⟩
    · simp at h
  · simp at h

theorem endsSlotWord_of_afterSlotWord? {t r : Text} (h : afterSlotWord? t = some r) :
    t = slotWord ++ r ∧ EndsSlotWord r := by
  refine ⟨eq_of_afterSlotWord? h, ?_⟩
  simp only [afterSlotWord?, Option.bind_eq_bind, Option.bind_eq_some_iff, Option.pure_def,
    Option.ite_none_right_eq_some, Option.some.injEq] at h
  obtain ⟨u, _, hu, rfl⟩ := h
  intro c hc
  rw [Option.mem_def.1 hc] at hu
  simpa using hu

theorem derives_of_slotOpening? {m t : Text} {k : Match} (hm : IsMark m)
    (h : slotOpening? t = some k) : Derives k.form ('<' :: m ++ k.source) := by
  simp only [slotOpening?, Option.bind_eq_bind, Option.bind_eq_some_iff, Option.pure_def,
    Option.some.injEq] at h
  obtain ⟨u, _, n, hn, a, ha, e, he, rfl⟩ := h
  exact .slotOpening hm (isSlotName_of_slotName? hn) (isAttributeText_of_ending? ha he)
    (isEnding_of_ending? he)

theorem derives_of_opening? {m t : Text} {k : Match} (hm : IsMark m)
    (h : opening? t = some k) : Derives k.form ('<' :: m ++ k.source) := by
  unfold opening? at h
  split at h
  · simp at h
  · next hne =>
    simp only [Option.bind_eq_bind, Option.bind_eq_some_iff, Option.pure_def,
      Option.some.injEq] at h
    obtain ⟨a, ha, e, he, rfl⟩ := h
    exact .opening hm hne (fun c hc => List.mem_takeWhile_imp hc)
      (isAttributeText_of_ending? ha he) (isEnding_of_ending? he)

theorem derives_of_slotClosing? {m t u : Text} {k : Match} (hm : IsMark m)
    (hu : afterSlotWord? t = some u) (h : slotClosing? t = some k) :
    Derives k.form ('<' :: '/' :: m ++ k.source) := by
  obtain ⟨r, hr, rfl⟩ := Option.map_eq_some_iff.1 h
  obtain ⟨rfl, hw⟩ := endsSlotWord_of_afterSlotWord? hu
  have hslot : ∀ c ∈ slotWord, (c != '>') = true := by decide
  rw [List.dropWhile_append_of_pos hslot] at hr
  -- up to the first `>` the text is the same as the source
  have hsplit : u = u.takeWhile (· != '>') ++ '>' :: r := by
    rw [← List.singleton_append, ← strip?_eq_some_iff.1 hr,
      List.takeWhile_append_dropWhile]
  have hw' : EndsSlotWord (u.takeWhile (· != '>') ++ ['>']) := by
    intro c hc
    refine hw c ?_
    rw [hsplit]
    cases hx : u.takeWhile (· != '>') with
    | nil => rw [hx] at hc; exact hc
    | cons d x => rw [hx] at hc; exact hc
  have hd : Derives .slotClosing _ := .slotClosing hm (notMem_takeWhile_ne '>' u) hw'
  simpa only [List.takeWhile_append_of_pos hslot] using hd

theorem derives_of_closing? {m t : Text} {k : Match} (hm : IsMark m)
    (h : closing? t = some k) : Derives k.form ('<' :: '/' :: m ++ k.source) := by
  obtain ⟨r, _, rfl⟩ := Option.map_eq_some_iff.1 h
  exact .closing hm (fun c hc => List.mem_takeWhile_imp hc)
    fun c hc => List.mem_takeWhile_imp hc

theorem derives_of_anyClosing? {t : Text} {k : Match} (h : anyClosing? t = some k) :
    Derives k.form ('<' :: '/' :: k.source) := by
  simp only [anyClosing?, Option.bind_eq_bind, Option.bind_eq_some_iff] at h
  obtain ⟨s, hs, h⟩ := h
  have hm := isMark_of_mark? hs
  split at h
  · next hw =>
    obtain ⟨u, hu⟩ := Option.isSome_iff_exists.1 hw
    obtain ⟨j, hj, rfl⟩ := Option.map_eq_some_iff.1 h
    exact derives_of_slotClosing? hm hu hj
  · obtain ⟨j, hj, rfl⟩ := Option.map_eq_some_iff.1 h
    exact derives_of_closing? hm hj

theorem derives_of_anyOpening? {t : Text} {k : Match} (h : anyOpening? t = some k) :
    Derives k.form ('<' :: k.source) := by
  simp only [anyOpening?, Option.bind_eq_bind, Option.bind_eq_some_iff] at h
  obtain ⟨s, hs, h⟩ := h
  have hm := isMark_of_mark? hs
  obtain ⟨j, hj, rfl⟩ := Option.map_eq_some_iff.1 h
  rcases Option.or_eq_some_iff.1 hj with hj | ⟨_, hj⟩
  · exact derives_of_slotOpening? hm hj
  · exact derives_of_opening? hm hj

/-- What a match takes is a tag of its form. -/
theorem derives_of_match? {t : Text} {k : Match} (h : match? t = some k) :
    Derives k.form k.source := by
  unfold match? at h
  split at h
  · obtain ⟨j, hj, rfl⟩ := Option.map_eq_some_iff.1 h
    exact derives_of_anyClosing? hj
  · obtain ⟨j, hj, rfl⟩ := Option.map_eq_some_iff.1 h
    exact derives_of_anyOpening? hj
  · simp at h

end Tag
end TemplateTags
