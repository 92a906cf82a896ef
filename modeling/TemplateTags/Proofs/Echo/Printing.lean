import Mathlib.Data.List.Chain
import TemplateTags.Echo
import TemplateTags.Proofs.Text.Cut
import TemplateTags.Proofs.Text.Runs

/-!
# Writing echoes and finding them again

Literal text is written as a sequence of parts: plain text, echoes in any of the three styles,
and echoes behind an at sign, which are plain text as well.  Two things could go wrong when the
segments are read back.  The three openers start alike, so an echo might be taken for one of
another style; and the expression of an echo is arbitrary host code, so a closer might be found
too early.  White space around the expression rules out both: it ends the opener, and no closer
reaches over it.

* `Written` is an echo as it is written and `Part` a part of literal text; both hold what makes
  them readable.
* `find?_print`: a written echo is found in front of any text.
* `segments` reads the segments off the parts: each maximal run of plain parts is one text.
* `Parted`: the form that the segments of every text have, however it was written.
-/

namespace TemplateTags
namespace Echo

open Text (Stops strip? strip?_append strip?_eq_some_iff)

/-! ## What is found -/

theorem exists_of_close? {s : Style} {t : Text} {f : Found} (h : close? s t = some f) :
    ∃ a r, t = a ++ s.closer ++ r ∧
      f = ⟨s, Text.trim a, s.opener ++ a ++ s.closer, r⟩ := by
  simp only [close?, Option.bind_eq_bind, Option.bind_eq_some_iff, Option.pure_def,
    Option.ite_none_left_eq_some, Option.some.injEq] at h
  obtain ⟨⟨a, r⟩, hcut, -, rfl⟩ := h
  exact ⟨a, r, Text.eq_of_cut? hcut, rfl⟩

/-- What is found is an echo in one of the styles, and what follows it. -/
theorem exists_of_find? {t : Text} {f : Found} (h : find? t = some f) :
    ∃ s a r, t = s.opener ++ (a ++ s.closer ++ r) ∧
      f = ⟨s, Text.trim a, s.opener ++ a ++ s.closer, r⟩ := by
  have hstyle : ∃ s r, strip? s.opener t = some r ∧ close? s r = some f := by
    unfold find? at h
    split at h
    · next r hr => exact ⟨.raw, r, hr, h⟩
    · split at h
      · next r hr => exact ⟨.triple, r, hr, h⟩
      · split at h
        · next r hr => exact ⟨.double, r, hr, h⟩
        · cases h
  obtain ⟨s, u, hu, hclose⟩ := hstyle
  obtain ⟨a, r, rfl, hf⟩ := exists_of_close? hclose
  exact ⟨s, a, r, strip?_eq_some_iff.1 hu, hf⟩

/-! ## Written echoes -/

/-- An echo as it is written, with white space on both sides of its expression. -/
structure Written where
  style : Style
  before : Text
  expression : Text
  after : Text
  before_ne_nil : before ≠ []
  isWhiteSpace_before : ∀ c ∈ before, Character.isWhiteSpace c = true
  after_ne_nil : after ≠ []
  isWhiteSpace_after : ∀ c ∈ after, Character.isWhiteSpace c = true
  expression_ne_nil : expression ≠ []
  /-- The expression has no white space at its start. -/
  stops_expression : Stops Character.isWhiteSpace expression
  /-- The expression has no white space at its end. -/
  stops_reverse : Stops Character.isWhiteSpace expression.reverse
  /-- The echo does not end within its expression. -/
  not_infix : ¬ style.closer <:+: expression

/-- An opener decides on the style if no brace follows it. -/
theorem find?_opener (s : Style) {c : Char} (hc : c ≠ '{') (t : Text) :
    find? (s.opener ++ c :: t) = close? s (c :: t) := by
  cases s with
  | raw => rfl
  | triple => rfl
  | double =>
    have htriple : strip? Style.triple.opener (Style.double.opener ++ c :: t) = none := by
      show (if '{' = c then strip? [] t else none) = none
      rw [if_neg (Ne.symm hc)]
    have hraw : strip? Style.raw.opener (Style.double.opener ++ c :: t) = none := rfl
    rw [find?, hraw, htriple, strip?_append]

theorem Style.notMem_closer (s : Style) {c : Char} (hc : Character.isWhiteSpace c = true) :
    c ∉ s.closer := by
  have hsolid : ∀ d ∈ s.closer, Character.isWhiteSpace d = false := by
    cases s <;> decide
  intro hm
  rw [hsolid c hm] at hc
  cases hc

theorem Style.not_infix_dropLast (s : Style) : ¬ s.closer <:+: s.closer.dropLast := by
  intro h
  have hlength := h.length_le
  cases s <;> exact absurd hlength (by decide)

namespace Written

variable (e : Written)

/-- What stands between the delimiters. -/
def inner : Text := e.before ++ e.expression ++ e.after

/-- The text of the echo. -/
def print : Text := e.style.opener ++ e.inner ++ e.style.closer

/-- The host expression that the echo stands for. -/
def value (escape : Text) : Text :=
  match e.style with
  | .raw => e.expression
  | .triple => escape ++ ['('] ++ e.expression ++ [')']
  | .double => escape ++ ['('] ++ e.expression ++ [')']

theorem trim_inner : Text.trim e.inner = e.expression := by
  have hstart : Stops Character.isWhiteSpace (e.expression ++ e.after) := by
    have hstops := e.stops_expression
    cases hexpr : e.expression with
    | nil => exact absurd hexpr e.expression_ne_nil
    | cons c t =>
      rw [hexpr] at hstops
      exact hstops
  have hafter : ∀ c ∈ e.after.reverse, Character.isWhiteSpace c = true := fun c hc =>
    e.isWhiteSpace_after c (List.mem_reverse.1 hc)
  rw [Text.trim, Text.trimBy, inner, List.append_assoc,
    Text.dropWhile_of_stops e.isWhiteSpace_before hstart, Text.trimEndBy, List.reverse_append,
    Text.dropWhile_of_stops hafter e.stops_reverse, List.reverse_reverse]

/-- The closer does not start before it is written. -/
theorem not_infix_inner : ¬ e.style.closer <:+: e.inner ++ e.style.closer.dropLast := by
  intro h
  rw [inner, List.append_assoc, List.append_assoc] at h
  rcases Text.infix_or_infix_of_separated (x := []) e.before_ne_nil
    (fun c hc => e.style.notMem_closer (e.isWhiteSpace_before c hc)) h with h | h
  · exact e.style.not_infix_dropLast (h.trans List.nil_infix)
  · rcases Text.infix_or_infix_of_separated e.after_ne_nil
      (fun c hc => e.style.notMem_closer (e.isWhiteSpace_after c hc)) h with h | h
    · exact e.not_infix h
    · exact e.style.not_infix_dropLast h

theorem close?_inner (r : Text) :
    close? e.style (e.inner ++ e.style.closer ++ r) =
      some ⟨e.style, e.expression, e.print, r⟩ := by
  have hcut := Text.cut?_append_of_not_infix e.not_infix_inner r
  simp only [close?, hcut, Option.bind_eq_bind, Option.bind_some, e.trim_inner,
    if_neg e.expression_ne_nil]
  rfl

/-- White space follows the opener. -/
theorem exists_inner_cons : ∃ c t, e.inner = c :: t ∧ Character.isWhiteSpace c = true := by
  cases hbefore : e.before with
  | nil => exact absurd hbefore e.before_ne_nil
  | cons c t =>
    refine ⟨c, t ++ e.expression ++ e.after, by rw [inner, hbefore]; rfl, ?_⟩
    exact e.isWhiteSpace_before c (by rw [hbefore]; exact List.mem_cons_self ..)

/-- **A written echo is found in front of any text.** -/
theorem find?_print (r : Text) :
    find? (e.print ++ r) = some ⟨e.style, e.expression, e.print, r⟩ := by
  obtain ⟨c, t, hinner, hc⟩ := e.exists_inner_cons
  have hbrace : c ≠ '{' := by
    rintro rfl
    exact absurd hc (by decide)
  have hprint : e.print ++ r = e.style.opener ++ c :: (t ++ e.style.closer ++ r) := by
    simp [print, hinner]
  rw [hprint, find?_opener e.style hbrace, ← e.close?_inner r, hinner]
  rfl

theorem print_ne_nil : e.print ≠ [] := by
  rw [print]
  cases e.style <;> simp [Style.opener]

end Written

/-! ## Parts -/

/-- A part of literal text as it is written. -/
inductive Part where
  | text (content : Text) (ne_nil : content ≠ []) (notMem_brace : '{' ∉ content)
      (notMem_at : '@' ∉ content)
  | echo (e : Written)
  /-- An echo behind an at sign. -/
  | kept (e : Written)

namespace Part

/-- The text of the part. -/
def print : Part → Text
  | .text t _ _ _ => t
  | .echo e => e.print
  | .kept e => '@' :: e.print

/-- Whether the part is plain text. -/
def isPlain : Part → Bool
  | .text .. => true
  | .echo _ => false
  | .kept _ => true

/-- The plain text that the part stands for. -/
def content : Part → Text
  | .text t _ _ _ => t
  | .echo _ => []
  | .kept e => e.print

theorem content_ne_nil {p : Part} (h : p.isPlain = true) : p.content ≠ [] := by
  cases p with
  | text t hne hbrace hat => exact hne
  | echo e => cases h
  | kept e => exact e.print_ne_nil

end Part

/-- The segments that parts stand for: an expression for each echo, and one text for each
maximal run of other parts. -/
def segments (escape : Text) : List Part → List Segment
  | [] => []
  | .echo e :: ps => .expr (e.value escape) :: segments escape ps
  | p :: ps =>
    .text ((p :: ps.takeWhile Part.isPlain).flatMap Part.content) ::
      segments escape (ps.dropWhile Part.isPlain)
termination_by ps => ps.length
decreasing_by
  · exact Nat.lt_succ_self _
  · exact Nat.lt_succ_of_le (List.dropWhile_suffix _).length_le

variable (escape : Text)

theorem segments_cons_plain {p : Part} (h : p.isPlain = true) (ps : List Part) :
    segments escape (p :: ps) =
      .text ((p :: ps.takeWhile Part.isPlain).flatMap Part.content) ::
        segments escape (ps.dropWhile Part.isPlain) := by
  cases p with
  | text t hne hbrace hat =>
    rw [segments]
    intro e he
    cases he
  | echo e => cases h
  | kept e =>
    rw [segments]
    intro e he
    cases he

/-- A plain part joins the run behind it. -/
theorem segments_eq_consText {p : Part} (h : p.isPlain = true) (ps : List Part) :
    segments escape (p :: ps) = consText p.content (segments escape ps) := by
  have hne := Part.content_ne_nil h
  rw [segments_cons_plain escape h]
  cases ps with
  | nil => simp [segments, consText, hne]
  | cons q ps =>
    cases hq : q.isPlain with
    | true =>
      rw [segments_cons_plain escape hq, List.takeWhile_cons_of_pos hq,
        List.dropWhile_cons_of_pos hq]
      simp [consText]
    | false =>
      rw [List.takeWhile_cons_of_neg (by simp [hq]), List.dropWhile_cons_of_neg (by simp [hq])]
      cases q with
      | text t hne hbrace hat => cases hq
      | echo e => simp [segments, consText, hne]
      | kept e => cases hq

/-! ## Reading the parts -/

@[simp] theorem consText_nil (l : List Segment) : consText [] l = l := by
  match l with
  | [] => rfl
  | .text u :: l => rfl
  | .expr e :: l => rfl

theorem consText_text (t u : Text) (l : List Segment) :
    consText t (.text u :: l) = .text (t ++ u) :: l := rfl

theorem consText_expr {t : Text} (ht : t ≠ []) (e : Text) (l : List Segment) :
    consText t (.expr e :: l) = .text t :: .expr e :: l :=
  if_neg ht

theorem consText_append (a b : Text) (l : List Segment) :
    consText (a ++ b) l = consText a (consText b l) := by
  by_cases hb : b = []
  · rw [hb, List.append_nil, consText_nil]
  · match l with
    | [] => simp [consText, hb]
    | .text u :: l => simp [consText]
    | .expr e :: l => simp [consText, hb]

/-- One step of the splitter. -/
theorem split_cons (c : Char) (t : Text) :
    split escape (c :: t) =
      if c = '@' then
        (find? t).elim (consText [c] (split escape t)) fun f =>
          consText f.source (split escape f.rest)
      else
        (find? (c :: t)).elim (consText [c] (split escape t)) fun f =>
          .expr (f.print escape) :: split escape f.rest := by
  rw [split]
  split
  · split
    · next f hf => rw [hf, Option.elim_some]
    · next hf => rw [hf, Option.elim_none]
  · split
    · next f hf => rw [hf, Option.elim_some]
    · next hf => rw [hf, Option.elim_none]

/-- An echo starts with a brace. -/
theorem find?_cons_of_ne {c : Char} (hc : c ≠ '{') (t : Text) : find? (c :: t) = none := by
  have hstrip : ∀ s : Style, strip? s.opener (c :: t) = none := by
    intro s
    cases s <;> simp [Style.opener, strip?, Ne.symm hc]
  rw [find?, hstrip, hstrip, hstrip]

theorem split_text {u : Text} (hbrace : '{' ∉ u) (hat : '@' ∉ u) (t : Text) :
    split escape (u ++ t) = consText u (split escape t) := by
  induction u with
  | nil => rw [List.nil_append, consText_nil]
  | cons c u ih =>
    rw [List.mem_cons, not_or] at hbrace hat
    rw [List.cons_append, split_cons, if_neg (Ne.symm hat.1),
      find?_cons_of_ne (Ne.symm hbrace.1), Option.elim_none, ih hbrace.2 hat.2,
      ← consText_append]
    rfl

theorem Written.split_print (e : Written) (t : Text) :
    split escape (e.print ++ t) = .expr (e.value escape) :: split escape t := by
  have hfind := e.find?_print t
  have hcons : ∃ u, e.print ++ t = '{' :: u := by
    rw [print]
    cases e.style <;> exact ⟨_, rfl⟩
  obtain ⟨u, hu⟩ := hcons
  have hvalue : Found.print escape ⟨e.style, e.expression, e.print, t⟩ = e.value escape := by
    rw [Found.print, value]
    cases e.style <;> rfl
  rw [hu] at hfind ⊢
  rw [split_cons, if_neg (by decide), hfind, Option.elim_some, hvalue]

theorem Written.split_at_print (e : Written) (t : Text) :
    split escape ('@' :: (e.print ++ t)) = consText e.print (split escape t) := by
  rw [split_cons, if_pos rfl, e.find?_print, Option.elim_some]

/-- A plain part is put in front of the segments of what follows. -/
theorem Part.split_print_of_isPlain {p : Part} (h : p.isPlain = true) (t : Text) :
    split escape (p.print ++ t) = consText p.content (split escape t) := by
  cases p with
  | text u hne hbrace hat => exact split_text escape hbrace hat t
  | echo e => cases h
  | kept e => exact e.split_at_print escape t

/-- **The segments of written parts are those that the parts stand for.** -/
theorem split_flatMap_print (ps : List Part) :
    split escape (ps.flatMap Part.print) = segments escape ps := by
  induction ps with
  | nil => rw [List.flatMap_nil, split, segments]
  | cons p ps ih =>
    rw [List.flatMap_cons]
    cases hp : p.isPlain with
    | true => rw [Part.split_print_of_isPlain escape hp, ih, segments_eq_consText escape hp]
    | false =>
      cases p with
      | text u hne hbrace hat => cases hp
      | echo e =>
        rw [segments, ← ih]
        exact e.split_print escape _
      | kept e => cases hp

/-! ## The form of all segments -/

/-- No text is empty, and no two texts stand side by side. -/
structure Parted (l : List Segment) : Prop where
  notMem_nil : Segment.text [] ∉ l
  isChain : l.IsChain fun a b => ∀ t u, ¬ (a = .text t ∧ b = .text u)

theorem Parted.cons_expr {l : List Segment} (h : Parted l) (e : Text) :
    Parted (.expr e :: l) where
  notMem_nil := by simpa using h.notMem_nil
  isChain := List.isChain_cons.2 ⟨fun b _ t u hab => (by cases hab.1), h.isChain⟩

theorem Parted.consText {l : List Segment} (h : Parted l) {t : Text} (ht : t ≠ []) :
    Parted (consText t l) := by
  have hempty : ∀ u : Text, u ≠ [] → Segment.text [] ≠ .text u := fun u hu he =>
    hu (Segment.text.inj he).symm
  match l with
  | [] =>
    have hcons : Echo.consText t [] = [.text t] := if_neg ht
    rw [hcons]
    exact ⟨by simpa using hempty t ht, List.isChain_singleton _⟩
  | .text u :: l =>
    rw [consText_text]
    obtain ⟨hnext, hrest⟩ := List.isChain_cons.1 h.isChain
    refine ⟨?_, List.isChain_cons.2 ⟨fun b hb _ v hab => ?_, hrest⟩⟩
    · rw [List.mem_cons, not_or]
      exact ⟨hempty _ (by simp [ht]), (not_or.1 (mt List.mem_cons.2 h.notMem_nil)).2⟩
    · exact hnext b hb u v ⟨rfl, hab.2⟩
  | .expr e :: l =>
    rw [consText_expr ht]
    refine ⟨?_, List.isChain_cons_cons.2 ⟨fun _ _ hab => ?_, h.isChain⟩⟩
    · rw [List.mem_cons, not_or]
      exact ⟨hempty t ht, h.notMem_nil⟩
    · cases hab.2

theorem source_ne_nil_of_find? {t : Text} {f : Found} (h : find? t = some f) :
    f.source ≠ [] := by
  obtain ⟨s, a, r, -, rfl⟩ := exists_of_find? h
  cases s <;> simp [Style.opener]

theorem parted_split (t : Text) : Parted (split escape t) := by
  fun_induction split escape t with
  | case1 => exact ⟨List.not_mem_nil, List.isChain_nil⟩
  | case2 t f hf ih => exact ih.consText (source_ne_nil_of_find? hf)
  | case3 t hf ih => exact ih.consText (List.cons_ne_nil _ _)
  | case4 c t hc f hf ih => exact ih.cons_expr _
  | case5 c t hc hf ih => exact ih.consText (List.cons_ne_nil _ _)

/-- **Splitting reads back what was written.**  For every escaping function and every sequence
of parts, the segments of their text are an expression for each echo, escaped unless its style
is raw, and one text for each maximal run of plain text and echoes behind an at sign, the
latter without the at sign.  And however a text was written, none of its segments is an empty
text, and no two texts stand side by side. -/
theorem split_inverts_print (escape : Text) :
    (∀ ps : List Part, split escape (ps.flatMap Part.print) = segments escape ps) ∧
      ∀ t, Segment.text [] ∉ split escape t ∧
        (split escape t).IsChain fun a b => ∀ u v, ¬ (a = .text u ∧ b = .text v) :=
  ⟨split_flatMap_print escape, fun t =>
    ⟨(parted_split escape t).notMem_nil, (parted_split escape t).isChain⟩⟩

/-- An echo with a no-break space before its expression and a tab behind it. -/
def Written.spaced (s : Style) (expression : Text) (hne : expression ≠ [])
    (hstart : Stops Character.isWhiteSpace expression)
    (hend : Stops Character.isWhiteSpace expression.reverse)
    (hcloser : Text.cut? s.closer expression = none) : Written :=
  ⟨s, ['\u00a0'], expression, ['\t'], by decide, by decide, by decide, by decide, hne, hstart,
    hend, Text.cut?_eq_none_iff.1 hcloser⟩

/-- Parts of all kinds next to each other, with braces inside and behind an echo. -/
def greeting : List Part :=
  [.text "Hi ".toList (by decide) (by decide) (by decide),
    .kept (.spaced .double "$a".toList (by decide) (Text.stops_cons.2 (by decide))
      (Text.stops_cons.2 (by decide)) (by decide)),
    .echo (.spaced .double "$b['\x7d']".toList (by decide) (Text.stops_cons.2 (by decide))
      (Text.stops_cons.2 (by decide)) (by decide)),
    .text "\x7d".toList (by decide) (by decide) (by decide),
    .echo (.spaced .triple "\x7d\x7d".toList (by decide) (Text.stops_cons.2 (by decide))
      (Text.stops_cons.2 (by decide)) (by decide)),
    .echo (.spaced .raw "$c !".toList (by decide) (Text.stops_cons.2 (by decide))
      (Text.stops_cons.2 (by decide)) (by decide))]

theorem split_inverts_print_greeting :
    greeting.flatMap Part.print =
        ("Hi @\x7b\x7b\u00a0$a\t\x7d\x7d\x7b\x7b\u00a0$b['\x7d']\t\x7d\x7d\x7d" ++
          "\x7b\x7b\x7b\u00a0\x7d\x7d\t\x7d\x7d\x7d\x7b!!\u00a0$c !\t!!\x7d").toList ∧
      split ['e'] (greeting.flatMap Part.print) =
        [.text "Hi \x7b\x7b\u00a0$a\t\x7d\x7d".toList, .expr "e($b['\x7d'])".toList,
          .text "\x7d".toList, .expr "e(\x7d\x7d)".toList, .expr "$c !".toList] := by
  refine ⟨by decide, ((split_inverts_print ['e']).1 greeting).trans ?_⟩
  decide +kernel

end Echo
end TemplateTags
