import Mathlib.Data.List.Chain
import TemplateTags.Proofs.Document
import TemplateTags.Proofs.Position

/-!
# The pieces of a document tile it

Nothing of a document is lost or read twice: the texts and the spans of the tags, one after
the other, are the document.  The spans are positions that were carried along while the
document was read, so this has two parts.  The sources of the pieces make up the document
(`flatMap_source_piecesFrom`), and the span of a tag is where its source stands
(`walk_of_piecesFrom`, `stop_of_mem_piecesFrom`); together they give the text in a span
(`text?_span`).

* `isChain_piecesFrom`: no two texts are neighbours.
* `pairwise_piecesFrom`: a tag starts where the tags before it have ended.
* `pieces_tile` puts all of it together.
-/

namespace TemplateTags

namespace Tag

/-- A tag starts with `<` and ends with `>`. -/
theorem Derives.exists_body {f : Form} {a : Text} (h : Derives f a) :
    ∃ b, a = '<' :: b ++ ['>'] := by
  suffices hlast : ∃ x, a = '<' :: x ∧ x.getLast? = some '>' by
    obtain ⟨x, rfl, hx⟩ := hlast
    obtain ⟨b, rfl⟩ := List.getLast?_eq_some_iff.1 hx
    exact ⟨b, rfl⟩
  have hend : ∀ {m x e : Text}, e.getLast? = some '>' → (m ++ (x ++ e)).getLast? = some '>' :=
    fun he => List.mem_getLast?_append_of_mem_getLast? (List.mem_getLast?_append_of_mem_getLast? he)
  cases h with
  | slotOpening hm hn ha he => exact ⟨_, rfl, hend he.getLast?⟩
  | opening hm hne hn ha he => exact ⟨_, rfl, hend he.getLast?⟩
  | slotClosing hm ht hw => exact ⟨_, rfl, hend rfl⟩
  | closing hm hn hw => exact ⟨_, rfl, hend rfl⟩

end Tag

namespace Piece

/-- The text of a piece in its document: for a tag, what stands in its span. -/
def textIn? (source : Text) : Piece → Option Text
  | .text t => some t
  | .tag g => g.span.text? source

/-- Whether the piece is text. -/
def isText : Piece → Bool
  | .text _ => true
  | .tag _ => false

end Piece

namespace Document

/-! ## Sources and spans -/

/-- The sources of the pieces make up the text. -/
theorem flatMap_source_piecesFrom (p : Position) (t : Text) :
    (piecesFrom p t).flatMap Piece.source = t := by
  induction p, t using piecesFrom_induction with
  | last p t h => rw [piecesFrom_of_unmatched p h, flatMap_source_ofText]
  | tag p b a r f hb ha ih =>
    rw [piecesFrom_append_tag p hb ha, List.flatMap_append, List.flatMap_cons,
      flatMap_source_ofText, ih]
    rfl

/-- A document with one piece that is a tag is the source of that tag. -/
theorem reads_of_pieces {t : Text} {g : Tag} (h : pieces t = [.tag g]) :
    Tag.Reads g.form t := by
  have ht := flatMap_source_piecesFrom Position.start t
  have hg : Piece.tag g ∈ pieces t := by
    rw [h]
    exact List.mem_cons_self ..
  rw [show piecesFrom Position.start t = [.tag g] from h, List.flatMap_singleton] at ht
  rw [← ht]
  exact reads_of_mem_piecesFrom _ _ g hg

/-- A tag ends behind its source. -/
theorem stop_of_mem_piecesFrom (p : Position) (t : Text) :
    ∀ g, Piece.tag g ∈ piecesFrom p t → g.span.stop = g.span.start.walk g.source := by
  induction p, t using piecesFrom_induction with
  | last p t h =>
    intro g hg
    rw [piecesFrom_of_unmatched p h, mem_ofText] at hg
    cases hg.2
  | tag p b a r f hb ha ih =>
    intro g hg
    rw [piecesFrom_append_tag p hb ha, List.mem_append, List.mem_cons] at hg
    rcases hg with hg | hg | hg
    · cases (mem_ofText.1 hg).2
    · cases hg
      rfl
    · exact ih g hg

/-- A tag stands between the sources of the other pieces, and its span starts and ends where
one gets by walking there. -/
theorem walk_of_pieces {t : Text} {g : Tag} {l l' : List Piece}
    (hl : pieces t = l ++ .tag g :: l') :
    t = l.flatMap Piece.source ++ g.source ++ l'.flatMap Piece.source ∧
      g.span.start = Position.start.walk (l.flatMap Piece.source) ∧
      g.span.stop = Position.start.walk (l.flatMap Piece.source ++ g.source) := by
  have hg : .tag g ∈ pieces t := hl ▸ List.mem_append_cons_self
  have hstart := walk_of_piecesFrom Position.start t l g l' hl
  have hstop := stop_of_mem_piecesFrom Position.start t g hg
  refine ⟨?_, hstart, ?_⟩
  · have ht : (pieces t).flatMap Piece.source = t := flatMap_source_piecesFrom _ t
    rw [hl, List.flatMap_append, List.flatMap_cons, ← List.append_assoc] at ht
    exact ht.symm
  · rw [hstop, hstart, Position.walk_append]

/-- Where a tag stands in the document: its source comes behind some text, and its span
starts and ends with the number of bytes up to there. -/
theorem exists_place {t : Text} {g : Tag} (hg : Piece.tag g ∈ pieces t) :
    ∃ a r, t = a ++ g.source ++ r ∧ g.span.start.offset = a.byteSize ∧
      g.span.stop.offset = (a ++ g.source).byteSize := by
  obtain ⟨l, l', hl⟩ := List.append_of_mem hg
  obtain ⟨ht, hstart, hstop⟩ := walk_of_pieces hl
  exact ⟨_, _, ht, by rw [hstart, Position.offset_start_walk],
    by rw [hstop, Position.offset_start_walk]⟩

/-- The text in the span of a tag is its source. -/
theorem text?_span {t : Text} {g : Tag} (hg : Piece.tag g ∈ pieces t) :
    g.span.text? t = some g.source := by
  obtain ⟨a, r, ht, hstart, hstop⟩ := exists_place hg
  rw [Span.text?, hstart, hstop, ht]
  exact Text.slice?_append a g.source r

theorem textIn?_of_mem {t : Text} {q : Piece} (hq : q ∈ pieces t) :
    q.textIn? t = some q.source := by
  cases q with
  | text u => rfl
  | tag g => exact text?_span hq

/-! ## Neighbours -/

/-- No two texts are neighbours. -/
theorem isChain_piecesFrom (p : Position) (t : Text) :
    (piecesFrom p t).IsChain fun q q' => q.isText = true → q'.isText = false := by
  induction p, t using piecesFrom_induction with
  | last p t h =>
    rw [piecesFrom_of_unmatched p h, Piece.ofText]
    split
    · exact List.IsChain.nil
    · exact List.isChain_singleton _
  | tag p b a r f hb ha ih =>
    -- a tag may stand before any piece, and a text before the tag
    have htag : ∀ g, (Piece.tag g :: piecesFrom ((p.walk b).walk a) r).IsChain
        fun q q' => q.isText = true → q'.isText = false := fun g =>
      List.isChain_cons.2 ⟨fun q _ hg => absurd hg Bool.false_ne_true, ih⟩
    rw [piecesFrom_append_tag p hb ha, Piece.ofText]
    split
    · exact htag _
    · exact List.isChain_cons.2 ⟨fun q hq _ => by cases hq; rfl, htag _⟩

theorem offset_le_of_mem_piecesFrom (p : Position) (t : Text) :
    ∀ g, Piece.tag g ∈ piecesFrom p t → p.offset ≤ g.span.start.offset := by
  intro g hg
  obtain ⟨l, l', hl⟩ := List.append_of_mem hg
  rw [walk_of_piecesFrom p t l g l' hl, Position.offset_walk]
  exact Nat.le_add_right _ _

theorem pairwise_ofText (R : Piece → Piece → Prop) (t : Text) :
    (Piece.ofText t).Pairwise R := by
  rw [Piece.ofText]
  split
  · exact List.Pairwise.nil
  · exact List.pairwise_singleton _ _

/-- A tag starts where the tags before it have ended, or later. -/
theorem pairwise_piecesFrom (p : Position) (t : Text) :
    (piecesFrom p t).Pairwise fun q q' => ∀ g g', q = .tag g → q' = .tag g' →
      g.span.stop.offset ≤ g'.span.start.offset := by
  induction p, t using piecesFrom_induction with
  | last p t h =>
    rw [piecesFrom_of_unmatched p h]
    exact pairwise_ofText _ t
  | tag p b a r f hb ha ih =>
    rw [piecesFrom_append_tag p hb ha, List.pairwise_append, List.pairwise_cons]
    refine ⟨pairwise_ofText _ b, ⟨?_, ih⟩, ?_⟩
    · rintro q hq g g' hg rfl
      cases hg
      exact offset_le_of_mem_piecesFrom _ r g' hq
    · rintro q hq q' - g g' rfl
      cases (mem_ofText.1 hq).2

/-! ## The document -/

/-- **The pieces of a document tile it.**  The texts and the texts in the spans of the tags
make up the document; no text is empty, holds a tag, or stands next to another text; the
span of a tag starts before a `<`, ends behind a `>`, both between characters; and each tag
ends before the next one starts. -/
theorem pieces_tile (t : Text) :
    (∃ parts : List Text,
      (pieces t).map (Piece.textIn? t) = parts.map some ∧ parts.flatten = t) ∧
    (∀ u, .text u ∈ pieces t → u ≠ [] ∧ firstTag? u = none) ∧
    ((pieces t).IsChain fun q q' => q.isText = true → q'.isText = false) ∧
    (∀ g, .tag g ∈ pieces t → ∃ a b r, t = a ++ ('<' :: b ++ ['>']) ++ r ∧
      g.span.start.offset = a.byteSize ∧
      g.span.stop.offset = (a ++ ('<' :: b ++ ['>'])).byteSize ∧
      g.span.start.offset < g.span.stop.offset) ∧
    (tags t).Pairwise fun g g' => g.span.start.offset < g'.span.start.offset ∧
      g.span.stop.offset ≤ g'.span.start.offset := by
  have hplace : ∀ g, .tag g ∈ pieces t → ∃ a b r, t = a ++ ('<' :: b ++ ['>']) ++ r ∧
      g.span.start.offset = a.byteSize ∧
      g.span.stop.offset = (a ++ ('<' :: b ++ ['>'])).byteSize ∧
      g.span.start.offset < g.span.stop.offset := by
    intro g hg
    obtain ⟨a, r, ht, hstart, hstop⟩ := exists_place hg
    obtain ⟨b, hb⟩ := (reads_of_mem_piecesFrom _ t g hg).1.exists_body
    have hpos := Text.byteSize_pos (List.cons_ne_nil '<' (b ++ ['>']))
    rw [hb] at ht hstop
    refine ⟨a, b, r, ht, hstart, hstop, ?_⟩
    rw [hstart, hstop, Text.byteSize_append]
    exact Nat.lt_add_of_pos_right hpos
  refine ⟨⟨(pieces t).map Piece.source, ?_, ?_⟩, ?_, isChain_piecesFrom _ t, hplace, ?_⟩
  · rw [List.map_map]
    exact List.map_congr_left fun q hq => textIn?_of_mem hq
  · rw [← List.flatMap_def]
    exact flatMap_source_piecesFrom _ t
  · intro u hu
    obtain ⟨hne, hun⟩ := unmatched_of_mem_piecesFrom _ t u hu
    exact ⟨hne, firstTag?_eq_none_iff.2 hun⟩
  · rw [tags, List.pairwise_filterMap]
    refine (pairwise_piecesFrom Position.start t).imp_of_mem ?_
    intro q q' hq _ h g hg g' hg'
    cases q with
    | text u => cases hg
    | tag k =>
      cases q' with
      | text u => cases hg'
      | tag k' =>
        cases hg
        cases hg'
        have hle := h g g' rfl rfl
        obtain ⟨-, -, -, -, -, -, hlt⟩ := hplace g hq
        exact ⟨Nat.lt_of_lt_of_le hlt hle, hle⟩

end Document
end TemplateTags
