import TemplateTags.Document
import TemplateTags.Proofs.Tag.Recognition

/-!
# The pieces of a document

Whether a tag starts at some place of a document depends on the text of that tag alone.  So
the pieces of a document can be found one by one, and each is again a document with a single
piece.

`Unmatched u r` says that no tag starts in `u` when `r` comes behind it.  This is what the
text before the first tag satisfies (`firstTag?_eq_some_iff`) and what is needed to find the
pieces of a document that is put together from parts (`piecesFrom_append_tag`,
`piecesFrom_of_unmatched`).

* `pieces_of_reads`, `pieces_of_unmatched`: a tag or a text without tags is one piece.
* `reads_of_mem_piecesFrom`, `unmatched_of_mem_piecesFrom`: each piece is of that kind.
* `walk_of_piecesFrom`: a tag stands where the sources of the pieces before it end.
-/

namespace TemplateTags

namespace Tag

open Text (Stops)

/-- A tag at the start of a text is found in every longer text. -/
theorem match?_append_right {t : Text} {k : Match} (h : match? t = some k) (r : Text) :
    match? (t ++ r) = some ⟨k.form, k.source, k.rest ++ r⟩ := by
  obtain ⟨ht, hread⟩ := match?_eq_some_iff.1 h
  refine match?_eq_some_iff.2 ⟨?_, hread⟩
  rw [ht, List.append_assoc]

theorem match?_append_of_reads {f : Form} {a : Text} (h : Reads f a) (r : Text) :
    match? (a ++ r) = some ⟨f, a, r⟩ :=
  match?_eq_some_iff.2 ⟨rfl, h⟩

theorem Reads.ne_nil {f : Form} {a : Text} (h : Reads f a) : a ≠ [] :=
  (eq_of_match? (match?_append_of_reads h [])).2

end Tag

namespace Document

open Tag (match? Reads)

/-! ## Texts without tags -/

/-- No tag starts in the first text when the second one follows. -/
def Unmatched (u r : Text) : Prop := ∀ x y, u = x ++ y → y ≠ [] → match? (y ++ r) = none

variable {t u v r b a : Text}

theorem unmatched_nil (r : Text) : Unmatched [] r := by
  intro x y h hne
  exact absurd (List.append_eq_nil_iff.1 h.symm).2 hne

theorem unmatched_cons {c : Char} :
    Unmatched (c :: u) r ↔ match? (c :: u ++ r) = none ∧ Unmatched u r := by
  constructor
  · intro h
    refine ⟨h [] (c :: u) rfl (List.cons_ne_nil _ _), ?_⟩
    intro x y hxy hne
    exact h (c :: x) y (by rw [hxy]; rfl) hne
  · rintro ⟨hc, hu⟩ x y hxy hne
    cases x with
    | nil =>
      rw [← List.nil_append y, ← hxy]
      exact hc
    | cons d x => exact hu x y (List.cons.inj hxy).2 hne

/-- What no tag starts in by the standards of a longer text is a text without tags. -/
theorem Unmatched.alone (h : Unmatched u r) : Unmatched u [] := by
  intro x y hxy hne
  by_contra hm
  obtain ⟨k, hk⟩ := Option.ne_none_iff_exists'.1 hm
  rw [List.append_nil] at hk
  have hlong := Tag.match?_append_right hk r
  rw [h x y hxy hne] at hlong
  exact absurd hlong (by simp)

theorem Unmatched.append (hu : Unmatched u (v ++ r)) (hv : Unmatched v r) :
    Unmatched (u ++ v) r := by
  induction u with
  | nil => exact hv
  | cons c u ih =>
    obtain ⟨hc, hu⟩ := unmatched_cons.1 hu
    rw [List.cons_append, unmatched_cons]
    refine ⟨?_, ih hu⟩
    rw [← hc, List.cons_append, List.cons_append, List.append_assoc]

/-! ## The first tag -/

theorem firstTag?_eq_none_iff : firstTag? t = none ↔ Unmatched t [] := by
  induction t with
  | nil => simp [firstTag?, unmatched_nil]
  | cons c t ih =>
    rw [unmatched_cons, firstTag?, List.append_nil, ← ih]
    cases hm : match? (c :: t) with
    | none => simp
    | some m => simp

/-- The first tag is where a tag starts, with none in the text before it. -/
theorem firstTag?_eq_some_iff {m : Tag.Match} :
    firstTag? t = some (b, m) ↔
      t = b ++ (m.source ++ m.rest) ∧ Unmatched b (m.source ++ m.rest) ∧
        Reads m.form m.source := by
  induction t generalizing b with
  | nil =>
    simp only [firstTag?, false_iff, reduceCtorEq]
    rintro ⟨h, -, hread⟩
    exact hread.ne_nil (List.append_eq_nil_iff.1 (List.append_eq_nil_iff.1 h.symm).2).1
  | cons c t ih =>
    rw [firstTag?]
    cases hm : match? (c :: t) with
    | some k =>
      simp only [Option.some.injEq, Prod.mk.injEq]
      obtain ⟨hk, hread⟩ := Tag.match?_eq_some_iff.1 hm
      constructor
      · rintro ⟨rfl, rfl⟩
        exact ⟨hk, unmatched_nil _, hread⟩
      · rintro ⟨ht, hu, hread'⟩
        cases b with
        | nil =>
          have hm' := Tag.match?_append_of_reads hread' m.rest
          rw [List.nil_append] at ht
          rw [← ht, hm] at hm'
          exact ⟨rfl, Option.some.inj hm'⟩
        | cons d b =>
          -- a tag starts at once, so there is no text before it
          have hnone := (unmatched_cons.1 hu).1
          rw [← ht, hm] at hnone
          exact absurd hnone (by simp)
    | none =>
      simp only [Option.map_eq_some_iff, Prod.exists, Prod.mk.injEq]
      constructor
      · rintro ⟨b', m', h, rfl, rfl⟩
        obtain ⟨rfl, hu, hread⟩ := ih.1 h
        exact ⟨rfl, unmatched_cons.2 ⟨hm, hu⟩, hread⟩
      · rintro ⟨ht, hu, hread⟩
        cases b with
        | nil =>
          rw [ht, List.nil_append, Tag.match?_append_of_reads hread m.rest] at hm
          exact absurd hm (by simp)
        | cons d b =>
          rw [List.cons_append, List.cons.injEq] at ht
          refine ⟨b, m, ih.2 ⟨ht.2, (unmatched_cons.1 hu).2, hread⟩, ?_, rfl⟩
          rw [ht.1]

/-! ## Pieces -/

theorem piecesFrom_of_unmatched (p : Position) (h : Unmatched t []) :
    piecesFrom p t = Piece.ofText t := by
  rw [piecesFrom]
  split
  · rfl
  · next hs =>
    rw [firstTag?_eq_none_iff.2 h] at hs
    exact absurd hs (by simp)

/-- The pieces of a document with a given first tag. -/
theorem piecesFrom_append_tag (p : Position) {f : Tag.Form} (hu : Unmatched b (a ++ r))
    (ha : Reads f a) :
    piecesFrom p (b ++ (a ++ r)) =
      Piece.ofText b ++ .tag ⟨f, a, ⟨p.walk b, (p.walk b).walk a⟩⟩ ::
        piecesFrom ((p.walk b).walk a) r := by
  have hfirst : firstTag? (b ++ (a ++ r)) = some (b, ⟨f, a, r⟩) :=
    firstTag?_eq_some_iff.2 ⟨rfl, hu, ha⟩
  rw [piecesFrom]
  split
  · next hs =>
    rw [hfirst] at hs
    exact absurd hs (by simp)
  · next b' m hs =>
    rw [hfirst, Option.some.injEq, Prod.mk.injEq] at hs
    obtain ⟨rfl, rfl⟩ := hs
    rfl

/-- The pieces of a document are found by going from tag to tag. -/
theorem piecesFrom_induction {motive : Position → Text → Prop}
    (last : ∀ p t, Unmatched t [] → motive p t)
    (tag : ∀ p b a r f, Unmatched b (a ++ r) → Reads f a →
      motive ((p.walk b).walk a) r → motive p (b ++ (a ++ r))) (p : Position) (t : Text) :
    motive p t := by
  fun_induction piecesFrom p t with
  | case1 p t h => exact last p t (firstTag?_eq_none_iff.1 h)
  | case2 p t b m h ih =>
    obtain ⟨rfl, hu, hread⟩ := firstTag?_eq_some_iff.1 h
    exact tag p b m.source m.rest m.form hu hread ih

theorem pieces_of_unmatched (hne : t ≠ []) (h : Unmatched t []) : pieces t = [.text t] := by
  rw [pieces, piecesFrom_of_unmatched _ h, Piece.ofText, if_neg hne]

theorem pieces_of_reads {f : Tag.Form} (h : Reads f a) :
    pieces a = [.tag ⟨f, a, ⟨Position.start, Position.start.walk a⟩⟩] := by
  have hp := piecesFrom_append_tag Position.start (unmatched_nil (a ++ [])) h
  rw [piecesFrom_of_unmatched _ (unmatched_nil _)] at hp
  rw [pieces]
  simpa [Position.walk, Piece.ofText] using hp

theorem mem_ofText {q : Piece} : q ∈ Piece.ofText t ↔ t ≠ [] ∧ q = .text t := by
  unfold Piece.ofText
  split
  · next h => simp [h]
  · next h => simp [h]

/-- Each text is not empty, and is a text without tags. -/
theorem unmatched_of_mem_piecesFrom (p : Position) (t : Text) :
    ∀ u, Piece.text u ∈ piecesFrom p t → u ≠ [] ∧ Unmatched u [] := by
  induction p, t using piecesFrom_induction with
  | last p t h =>
    intro u hu
    rw [piecesFrom_of_unmatched p h, mem_ofText] at hu
    obtain ⟨hne, he⟩ := hu
    cases he
    exact ⟨hne, h⟩
  | tag p b a r f hb ha ih =>
    intro u hu
    rw [piecesFrom_append_tag p hb ha, List.mem_append, List.mem_cons] at hu
    rcases hu with hu | hu | hu
    · obtain ⟨hne, he⟩ := mem_ofText.1 hu
      cases he
      exact ⟨hne, hb.alone⟩
    · cases hu
    · exact ih u hu

/-- Each tag is read from its source in its form. -/
theorem reads_of_mem_piecesFrom (p : Position) (t : Text) :
    ∀ g, Piece.tag g ∈ piecesFrom p t → Reads g.form g.source := by
  induction p, t using piecesFrom_induction with
  | last p t h =>
    intro g hg
    rw [piecesFrom_of_unmatched p h, mem_ofText] at hg
    cases hg.2
  | tag p b a r f hb ha ih =>
    intro g hg
    rw [piecesFrom_append_tag p hb ha, List.mem_append, List.mem_cons] at hg
    rcases hg with hg | hg | hg
    · cases (mem_ofText.1 hg).2
    · cases hg
      exact ha
    · exact ih g hg

@[simp] theorem flatMap_source_ofText (t : Text) :
    (Piece.ofText t).flatMap Piece.source = t := by
  unfold Piece.ofText
  split
  · next h => rw [h]; rfl
  · simp [Piece.source]

/-- A tag stands where the sources of the pieces before it end. -/
theorem walk_of_piecesFrom (p : Position) (t : Text) :
    ∀ l g l', piecesFrom p t = l ++ Piece.tag g :: l' →
      g.span.start = p.walk (l.flatMap Piece.source) := by
  induction p, t using piecesFrom_induction with
  | last p t h =>
    intro l g l' hl
    rw [piecesFrom_of_unmatched p h] at hl
    have hg : Piece.tag g ∈ Piece.ofText t := by
      rw [hl]
      simp
    cases (mem_ofText.1 hg).2
  | tag p b a r f hb ha ih =>
    intro l g l' hl
    rw [piecesFrom_append_tag p hb ha] at hl
    rcases List.append_eq_append_iff.1 hl with ⟨k, rfl, hk⟩ | ⟨k, hk, hl'⟩
    · cases k with
      | nil =>
        obtain ⟨he, -⟩ := List.cons.inj hk
        cases he
        simp
      | cons q k =>
        -- the tag comes later: it starts behind the one that is here
        obtain ⟨rfl, hrest⟩ := List.cons.inj hk
        rw [ih k g l' hrest, ← Position.walk_append, ← Position.walk_append]
        simp [Piece.source]
    · cases k with
      | nil =>
        obtain ⟨he, -⟩ := List.cons.inj hl'
        cases he
        rw [List.append_nil] at hk
        rw [← hk, flatMap_source_ofText]
      | cons q k =>
        obtain ⟨rfl, -⟩ := List.cons.inj hl'
        have hg : Piece.tag g ∈ Piece.ofText b := by
          rw [hk]
          simp
        cases (mem_ofText.1 hg).2

end Document
end TemplateTags
