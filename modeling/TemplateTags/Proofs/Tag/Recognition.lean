import TemplateTags.Proofs.Tag.Completeness

/-!
# Recognising exactly the grammar

`match?` finds a tag at the start of a text exactly when some start of the text is a tag of
the grammar.  There is never a choice of how long that start is, since the text of a tag
says where it ends; and of the two ways to read one text, as a slot and as a component, the
slot is taken.

* `match?_append`: a text of the grammar is matched whole in front of any other text.
* `eq_of_derives_of_prefix`: two starts of one text that are both tags are the same.
* `form_eq_of_derives`: a text is a slot tag of at most one form, and a component tag of at
  most one form.
* `match?_iff_reads` puts these together.

An opening slot is also an opening component whose name starts with `slot`
(`opening?_of_slotOpening?`), which is why a slot and a component never compete with
texts of different lengths.
-/

namespace TemplateTags
namespace Tag

open Text (strip? strip?_eq_some_iff Stops)

/-! ## The start of a tag -/

theorem IsMark.exists_cons {m : Text} (h : IsMark m) : ∃ c t, m = c :: t ∧ c ≠ '/' := by
  obtain ⟨w, d, hw, -, rfl⟩ := h
  cases w with
  | nil => exact ⟨'x', _, rfl, by decide⟩
  | cons c w =>
    refine ⟨c, _, rfl, ?_⟩
    rintro rfl
    exact absurd (hw '/' (List.mem_cons_self ..)) (by decide)

/-- The mark that most tags have. -/
theorem isMark_hyphen : IsMark "x-".toList := ⟨[], '-', by decide, Or.inl rfl, rfl⟩

theorem mark?_append {m : Text} (h : IsMark m) (r : Text) : mark? (m ++ r) = some (m, r) := by
  obtain ⟨w, c, hw, hc, rfl⟩ := h
  have hstop : Stops Character.isSpace (['x', c] ++ r) := Text.stops_cons.2 (by decide)
  rw [List.append_assoc, mark?, Text.takeWhile_of_stops hw hstop,
    Text.dropWhile_of_stops hw hstop]
  show (if c = '-' ∨ c = ':' then some (w ++ ['x', c], r) else none) = some (w ++ ['x', c], r)
  exact if_pos hc

/-- How an opening tag is matched from behind its mark. -/
theorem match?_opening {m : Text} (hm : IsMark m) (t : Text) :
    match? ('<' :: m ++ t) =
      ((slotOpening? t).or (opening? t)).map (Match.after ('<' :: m)) := by
  obtain ⟨c, u, hcu, hc⟩ := hm.exists_cons
  have hmatch : match? ('<' :: m ++ t) = (anyOpening? (m ++ t)).map (Match.after ['<']) := by
    rw [hcu]
    unfold match?
    split
    · next h =>
      simp only [List.cons_append, List.cons.injEq, true_and] at h
      exact absurd h.1 hc
    · next h =>
      simp only [List.cons_append, List.cons.injEq, true_and] at h
      rw [← h]
      rfl
    · next h => exact absurd rfl (h _)
  rw [hmatch]
  simp only [anyOpening?, mark?_append hm, Option.bind_eq_bind, Option.bind_some, Option.map_map]
  rfl

/-- How a closing tag is matched from behind its mark. -/
theorem match?_closing {m : Text} (hm : IsMark m) (t : Text) :
    match? ('<' :: '/' :: m ++ t) =
      (if (afterSlotWord? t).isSome then slotClosing? t else closing? t).map
        (Match.after ('<' :: '/' :: m)) := by
  show (anyClosing? (m ++ t)).map (Match.after ['<', '/']) = _
  simp only [anyClosing?, mark?_append hm, Option.bind_eq_bind, Option.bind_some]
  split
  · rw [Option.map_map]
    rfl
  · rw [Option.map_map]
    rfl

/-! ## Opening tags -/

theorem isTagName_of_isInlineName {n : Text} (h : IsInlineName n) :
    ∀ c ∈ n, Character.isTagName c = true := by
  induction h with
  | word _ hw => exact fun c hc => Character.isTagName_of_isWord (hw c hc)
  | hyphen _ hw _ ih =>
    intro c hc
    rcases List.mem_append.1 hc with hc | hc
    · exact Character.isTagName_of_isWord (hw c hc)
    · rcases List.mem_cons.1 hc with rfl | hc
      · decide
      · exact ih c hc

theorem isTagName_of_isSlotName {n : Text} {inline : Option Text} (h : IsSlotName inline n) :
    ∀ c ∈ slotWord ++ n, Character.isTagName c = true := by
  intro c hc
  rcases List.mem_append.1 hc with hc | hc
  · exact (by decide : ∀ d ∈ slotWord, Character.isTagName d = true) c hc
  · cases h with
    | absent => simp at hc
    | inline hn =>
      rcases List.mem_cons.1 hc with rfl | hc
      · decide
      · exact isTagName_of_isInlineName hn c hc

/-- What is found as a slot is also found as a component, in the same text. -/
theorem opening?_of_slotOpening? {t : Text} {k : Match} (h : slotOpening? t = some k) :
    ∃ f, opening? t = some ⟨f, k.source, k.rest⟩ := by
  have ht := eq_of_slotOpening? h
  simp only [slotOpening?, Option.bind_eq_bind, Option.bind_eq_some_iff, Option.pure_def,
    Option.some.injEq] at h
  obtain ⟨u, _, n, hn, a, ha, e, he, rfl⟩ := h
  have hname := isTagName_of_isSlotName (isSlotName_of_slotName? hn)
  rw [ht]
  exact ⟨_, opening?_append (by simp [slotWord]) hname (isAttributeText_of_ending? ha he)
    (isEnding_of_ending? he) e.2.2⟩

/-! ## Closing tags -/

/-- Up to its first `>` a text is cut as its closing tag is. -/
theorem slotClosing?_append {t : Text} (ht : '>' ∉ t) (r : Text) :
    slotClosing? (t ++ ['>'] ++ r) = some ⟨.slotClosing, t ++ ['>'], r⟩ := by
  have htake : (t ++ (['>'] ++ r)).takeWhile (· != '>') = t := Text.takeWhile_of_notMem ht r
  have hdrop : (t ++ (['>'] ++ r)).dropWhile (· != '>') = ['>'] ++ r :=
    Text.dropWhile_of_notMem ht r
  rw [List.append_assoc]
  simp only [slotClosing?, htake, hdrop, Text.strip?_append, Option.map_some]

theorem closing?_append {n w : Text} (hn : ∀ c ∈ n, Character.isTagName c = true)
    (hw : ∀ c ∈ w, Character.isSpace c = true) (r : Text) :
    closing? (n ++ w ++ ['>'] ++ r) = some ⟨.closing n, n ++ w ++ ['>'], r⟩ := by
  have hspace : Stops Character.isSpace (['>'] ++ r) := Text.stops_cons.2 (by decide)
  have hname : Stops Character.isTagName (w ++ (['>'] ++ r)) := by
    cases w with
    | nil => exact Text.stops_cons.2 (by decide)
    | cons c w =>
      exact Text.stops_cons.2
        (Character.not_isTagName_of_isSpace (hw c (List.mem_cons_self ..)))
  rw [List.append_assoc, List.append_assoc]
  simp only [closing?, Text.takeWhile_of_stops hn hname, Text.dropWhile_of_stops hn hname,
    Text.takeWhile_of_stops hw hspace, Text.dropWhile_of_stops hw hspace, Text.strip?_append,
    Option.map_some]

theorem notMem_of_isTagName {n w : Text} (hn : ∀ c ∈ n, Character.isTagName c = true)
    (hw : ∀ c ∈ w, Character.isSpace c = true) : '>' ∉ n ++ w := by
  rw [List.mem_append, not_or]
  exact ⟨Text.notMem_of_forall hn (by decide), Text.notMem_of_forall hw (by decide)⟩

/-! ## The grammar is matched exactly -/

/-- A text of the grammar is matched whole in front of any other text, as a slot if it can
be read as one. -/
theorem match?_append {f : Form} {a : Text} (h : Derives f a) (r : Text) :
    ∃ g, match? (a ++ r) = some ⟨g, a, r⟩ ∧ (g = f ∨ g.isSlot = true ∧ f.isSlot = false) := by
  cases h with
  | @slotOpening m n a e inline s hm hn ha he =>
    refine ⟨.slotOpening inline a s, ?_, Or.inl rfl⟩
    rw [List.append_assoc, match?_opening hm, slotOpening?_append hn ha he]
    rfl
  | @opening m n a e s hm hne hn ha he =>
    have hopen := opening?_append hne hn ha he r
    rw [List.append_assoc, match?_opening hm]
    cases hslot : slotOpening? (n ++ a ++ e ++ r) with
    | none =>
      refine ⟨.opening n a s, ?_, Or.inl rfl⟩
      rw [hopen]
      rfl
    | some k =>
      -- the component that hides behind the slot has the same text
      obtain ⟨g, hg⟩ := opening?_of_slotOpening? hslot
      have hk := Option.some.inj (hg.symm.trans hopen)
      simp only [Match.mk.injEq] at hk
      refine ⟨k.form, ?_, Or.inr ⟨?_, rfl⟩⟩
      · show some (Match.mk k.form ('<' :: m ++ k.source) k.rest) = _
        rw [hk.2.1, hk.2.2]
      · simp only [slotOpening?, Option.bind_eq_bind, Option.bind_eq_some_iff, Option.pure_def,
          Option.some.injEq] at hslot
        obtain ⟨u, _, n, _, a, _, e, _, rfl⟩ := hslot
        rfl
  | @slotClosing m t hm ht hw =>
    have hslot : '>' ∉ slotWord ++ t := by
      rw [List.mem_append, not_or]
      exact ⟨by decide, ht⟩
    have hw' : EndsSlotWord (t ++ (['>'] ++ r)) := by
      cases t with
      | nil => exact hw
      | cons c t => exact hw
    have hword : (afterSlotWord? (slotWord ++ t ++ ['>'] ++ r)).isSome = true := by
      rw [List.append_assoc, List.append_assoc, afterSlotWord?_append hw']
      rfl
    refine ⟨.slotClosing, ?_, Or.inl rfl⟩
    rw [List.append_assoc, match?_closing hm, if_pos hword, slotClosing?_append hslot]
    rfl
  | @closing m n w hm hn hw =>
    rw [List.append_assoc, match?_closing hm]
    split
    · refine ⟨.slotClosing, ?_, Or.inr ⟨rfl, rfl⟩⟩
      rw [slotClosing?_append (notMem_of_isTagName hn hw)]
      rfl
    · refine ⟨.closing n, ?_, Or.inl rfl⟩
      rw [closing?_append hn hw]
      rfl

/-- Two starts of one text that are both tags are the same. -/
theorem eq_of_derives_of_prefix {f g : Form} {a b s : Text} (ha : Derives f a)
    (hb : Derives g b) (has : a <+: s) (hbs : b <+: s) : a = b := by
  obtain ⟨r, rfl⟩ := has
  obtain ⟨u, hu⟩ := hbs
  obtain ⟨f', hf, -⟩ := match?_append ha r
  obtain ⟨g', hg, -⟩ := match?_append hb u
  rw [hu, hf] at hg
  exact congrArg Match.source (Option.some.inj hg)

/-- The marks of two tags with the same text are the same. -/
theorem eq_of_isMark {m m' t t' : Text} (hm : IsMark m) (hm' : IsMark m')
    (h : m ++ t = m' ++ t') : m = m' ∧ t = t' := by
  have hmark := mark?_append hm t
  rw [h, mark?_append hm' t', Option.some.injEq, Prod.mk.injEq] at hmark
  exact ⟨hmark.1.symm, hmark.2.symm⟩

/-- A text is a slot tag of at most one form, and a component tag of at most one form. -/
theorem form_eq_of_derives {f g : Form} {a : Text} (hf : Derives f a) (hg : Derives g a)
    (hs : f.isSlot = g.isSlot) : f = g := by
  by_cases hslot : f.isSlot = true
  · obtain ⟨f', hf', hff⟩ := match?_append hf []
    obtain ⟨g', hg', hgg⟩ := match?_append hg []
    have hff : f' = f := hff.resolve_right fun h => by simp [hslot] at h
    have hgg : g' = g := hgg.resolve_right fun h => by simp [← hs, hslot] at h
    rw [hf', Option.some.injEq, Match.mk.injEq] at hg'
    rw [← hff, ← hgg, hg'.1]
  · -- two component tags, read from behind their marks
    generalize hx : a = x at hg
    cases hf with
    | slotOpening hm hn ha he => exact absurd rfl hslot
    | slotClosing hm ht hw => exact absurd rfl hslot
    | @opening m n b e s hm hne hn hb he =>
      cases hg with
      | slotOpening hm' hn' hb' he' => exact absurd hs Bool.false_ne_true
      | slotClosing hm' ht' hw' => exact absurd hs Bool.false_ne_true
      | @opening m' n' b' e' s' hm' hne' hn' hb' he' =>
        obtain ⟨rfl, ht⟩ := eq_of_isMark hm hm' (List.cons.inj hx).2
        have hopen := opening?_append hne hn hb he []
        rw [ht, opening?_append hne' hn' hb' he' [], Option.some.injEq, Match.mk.injEq] at hopen
        exact hopen.1.symm
      | closing hm' hn' hw' =>
        obtain ⟨c, u, rfl, hc⟩ := hm.exists_cons
        exact absurd (List.cons.inj (List.cons.inj hx).2).1 hc
    | @closing m n w hm hn hw =>
      cases hg with
      | slotOpening hm' hn' hb' he' => exact absurd hs Bool.false_ne_true
      | slotClosing hm' ht' hw' => exact absurd hs Bool.false_ne_true
      | opening hm' hne' hn' hb' he' =>
        obtain ⟨c, u, rfl, hc⟩ := hm'.exists_cons
        exact absurd (List.cons.inj (List.cons.inj hx).2).1.symm hc
      | @closing m' n' w' hm' hn' hw' =>
        obtain ⟨rfl, ht⟩ := eq_of_isMark hm hm' (List.cons.inj (List.cons.inj hx).2).2
        have hclose := closing?_append hn hw []
        rw [ht, closing?_append hn' hw' [], Option.some.injEq, Match.mk.injEq] at hclose
        exact hclose.1.symm

/-- The text is a tag that is read in the given form: as a slot, if it can be. -/
def Reads (f : Form) (a : Text) : Prop :=
  Derives f a ∧ (f.isSlot = false → ∀ g, Derives g a → g.isSlot = false)

/-- A match says which start of the text is a tag and how it is read. -/
theorem match?_eq_some_iff {s a r : Text} {f : Form} :
    match? s = some ⟨f, a, r⟩ ↔ s = a ++ r ∧ Reads f a := by
  constructor
  · intro h
    obtain ⟨rfl, -⟩ := eq_of_match? h
    refine ⟨rfl, derives_of_match? h, ?_⟩
    intro hf g hg
    obtain ⟨g', hg', hgg | ⟨-, hgg⟩⟩ := match?_append hg r
    · rw [h, Option.some.injEq, Match.mk.injEq] at hg'
      rw [← hgg, ← hg'.1, hf]
    · exact hgg
  · rintro ⟨rfl, hd, hread⟩
    obtain ⟨g, hg, rfl | ⟨hslot, hf⟩⟩ := match?_append hd r
    · exact hg
    · have hg' := hread hf g (derives_of_match? hg)
      rw [hslot] at hg'
      exact absurd hg' (by decide)

/-- **The recogniser accepts exactly an unambiguous grammar.**  A text has a match if and
only if some start of it is a tag; there is one such start at most, which is the source of
the match; its form is the only one in which the source can be read as a slot, or else the
only one in which it can be read as a component. -/
theorem match?_iff_reads (s : Text) :
    ((match? s).isSome = true ↔ ∃ f a, a <+: s ∧ Derives f a) ∧
      (∀ f g a b, a <+: s → b <+: s → Derives f a → Derives g b → a = b) ∧
      (∀ k, match? s = some k ↔ s = k.source ++ k.rest ∧ Reads k.form k.source) ∧
      ∀ f g a, Derives f a → Derives g a → f.isSlot = g.isSlot → f = g := by
  refine ⟨?_, ?_, ?_, ?_⟩
  · constructor
    · intro h
      obtain ⟨k, hk⟩ := Option.isSome_iff_exists.1 h
      exact ⟨k.form, k.source, ⟨k.rest, (eq_of_match? hk).1.symm⟩, derives_of_match? hk⟩
    · rintro ⟨f, a, ⟨r, rfl⟩, hd⟩
      obtain ⟨g, hg, -⟩ := match?_append hd r
      rw [hg]
      rfl
  · intro f g a b ha hb hf hg
    exact eq_of_derives_of_prefix hf hg ha hb
  · intro k
    exact match?_eq_some_iff
  · intro f g a
    exact form_eq_of_derives

end Tag
end TemplateTags
