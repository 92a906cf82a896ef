import TemplateTags.Tag.Match

/-!
# Documents as pieces

A document is read as a sequence of pieces: tags, and the texts between them.  Where
a tag could start but does not, the document goes on as text, so every document can
be read.  `Document.pieces` finds the pieces from the front; each tag comes with the
span in which it stands.

The sources of the pieces, one after the other, are the document, no text is empty,
and no two texts are neighbours.
-/

namespace TemplateTags

/-- A piece of a document. -/
inductive Piece where
  | text (content : Text)
  | tag (tag : Tag)
deriving DecidableEq, Repr

namespace Piece

/-- The part of the document that the piece stands for. -/
def source : Piece → Text
  | .text t => t
  | .tag g => g.source

/-- The text as a list of pieces: none if it is empty. -/
def ofText (t : Text) : List Piece := if t = [] then [] else [.text t]

end Piece

namespace Document

/-- The first tag of a text: what stands before it, and its match. -/
def firstTag? : Text → Option (Text × Tag.Match)
  | [] => none
  | c :: t =>
    match Tag.match? (c :: t) with
    | some m => some ([], m)
    | none => (firstTag? t).map fun s => (c :: s.1, s.2)

/-- The text before the first tag, its source and its rest make up the text, and the
source is not empty. -/
theorem eq_of_firstTag? {t b : Text} {m : Tag.Match} (h : firstTag? t = some (b, m)) :
    t = b ++ m.source ++ m.rest ∧ m.source ≠ [] := by
  induction t generalizing b m with
  | nil => simp [firstTag?] at h
  | cons c t ih =>
    unfold firstTag? at h
    split at h
    · next n hn =>
      cases h
      exact Tag.eq_of_match? hn
    · obtain ⟨s, hs, e⟩ := Option.map_eq_some_iff.1 h
      cases e
      obtain ⟨ht, hne⟩ := ih hs
      exact ⟨by rw [ht]; rfl, hne⟩

/-- The pieces of a text that starts at the given position. -/
def piecesFrom (p : Position) (t : Text) : List Piece :=
  match _ : firstTag? t with
  | none => Piece.ofText t
  | some (b, m) =>
    Piece.ofText b ++
      .tag ⟨m.form, m.source, ⟨p.walk b, (p.walk b).walk m.source⟩⟩ ::
        piecesFrom ((p.walk b).walk m.source) m.rest
termination_by t.length
decreasing_by
  rename_i h
  obtain ⟨ht, hne⟩ := eq_of_firstTag? h
  have hl := congrArg List.length ht
  have hp := List.length_pos_iff.2 hne
  rw [List.length_append, List.length_append] at hl
  omega

/-- The pieces of a document. -/
def pieces (t : Text) : List Piece := piecesFrom Position.start t

/-- The tags of a document. -/
def tags (t : Text) : List Tag :=
  (pieces t).filterMap fun
    | .tag g => some g
    | .text _ => none

end Document
end TemplateTags
