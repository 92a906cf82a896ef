import TemplateTags.Proofs.Compiler.Pieces
import TemplateTags.Proofs.Document.Tiling
import TemplateTags.Proofs.Position.Located

/-!
# Where tags and problems are said to be

The ends of a tag and the place of a problem are told to readers as line and column, and both
come from positions that were carried along while the document was read.  Counting the line
feeds and characters before them from scratch gives the same.

* `span_eq_located`: the ends of a tag, each at its own offset.
* `carry_ends`: the reader of documents may carry one position through the ends of all tags,
  and never has to go back.
* `exists_firstFailure`, `FirstFailure.run_eq`: the problem of a document is that of the first
  tag of the pass which cannot be compiled, placed where this tag starts.
* `exists_component?_eq`: what fails is always the name of a component, so that the problem
  can be given a place.

`located_from_scratch` puts these together with what is known of offsets.
-/

namespace TemplateTags

open Position (located carry)

namespace Piece

/-- The offsets of the ends of a tag. -/
def ends : Piece → List Nat
  | .text _ => []
  | .tag g => [g.span.start.offset, g.span.stop.offset]

end Piece

namespace Document

variable {t : Text} {g : Tag}

/-! ## Tags -/

theorem isBoundary_span (hg : .tag g ∈ pieces t) :
    t.IsBoundary g.span.start.offset ∧ t.IsBoundary g.span.stop.offset := by
  obtain ⟨a, r, ht, hstart, hstop⟩ := exists_place hg
  refine ⟨Or.inr ⟨a, g.source ++ r, ?_, hstart.symm⟩, Or.inr ⟨a ++ g.source, r, ht, hstop.symm⟩⟩
  rw [ht, List.append_assoc]

/-- The ends of a tag are where counting from scratch finds them. -/
theorem span_eq_located {l l' : List Piece} (hl : pieces t = l ++ .tag g :: l') :
    g.span.start = located t g.span.start.offset ∧
      g.span.stop = located t g.span.stop.offset := by
  obtain ⟨ht, hstart, hstop⟩ := walk_of_pieces hl
  constructor
  · rw [hstart, Position.offset_start_walk, ht, List.append_assoc, Position.located_append]
  · rw [hstop, Position.offset_start_walk, ht, Position.located_append]

theorem start_le_stop (hg : .tag g ∈ pieces t) :
    g.span.start.offset ≤ g.span.stop.offset := by
  obtain ⟨a, r, -, hstart, hstop⟩ := exists_place hg
  rw [hstart, hstop, Text.byteSize_append]
  exact Nat.le_add_right _ _

/-- The ends of the tags before a tag are not ahead of it. -/
theorem ends_le {l l' : List Piece} (h : pieces t = l ++ .tag g :: l') :
    ∀ n ∈ l.flatMap Piece.ends, t.IsBoundary n ∧ n ≤ g.span.start.offset := by
  intro n hn
  obtain ⟨q, hq, hn⟩ := List.mem_flatMap.1 hn
  have hpair := pairwise_piecesFrom Position.start t
  rw [show piecesFrom Position.start t = _ from h, List.pairwise_append] at hpair
  cases q with
  | text u => cases hn
  | tag k =>
    have hk : .tag k ∈ pieces t := h ▸ List.mem_append_left _ hq
    have hle := hpair.2.2 _ hq _ (List.mem_cons_self ..) k g rfl rfl
    simp only [Piece.ends, List.mem_cons, List.not_mem_nil, or_false] at hn
    rcases hn with rfl | rfl
    · exact ⟨(isBoundary_span hk).1, (start_le_stop hk).trans hle⟩
    · exact ⟨(isBoundary_span hk).2, hle⟩

/-- One position, carried through the ends of all tags, gives their spans. -/
theorem carry_ends {l l' : List Piece} (h : pieces t = l ++ .tag g :: l') :
    carry t (l.flatMap Piece.ends ++ [g.span.start.offset]) = some g.span.start ∧
      carry t ((l ++ [Piece.tag g]).flatMap Piece.ends) = some g.span.stop := by
  have hg : .tag g ∈ pieces t := h ▸ List.mem_append_cons_self
  obtain ⟨hstart, hstop⟩ := isBoundary_span hg
  obtain ⟨hls, hle⟩ := span_eq_located h
  have hbefore := ends_le h
  constructor
  · rw [Position.carry_concat hbefore hstart, ← hls]
  · have hall : ∀ n ∈ l.flatMap Piece.ends ++ [g.span.start.offset],
        t.IsBoundary n ∧ n ≤ g.span.stop.offset := by
      intro n hn
      rcases List.mem_append.1 hn with hn | hn
      · exact ⟨(hbefore n hn).1, (hbefore n hn).2.trans (start_le_stop hg)⟩
      · rw [List.mem_singleton.1 hn]
        exact ⟨hstart, start_le_stop hg⟩
    have hends : (l ++ [Piece.tag g]).flatMap Piece.ends =
        l.flatMap Piece.ends ++ [g.span.start.offset] ++ [g.span.stop.offset] := by
      simp [Piece.ends]
    rw [hends, Position.carry_concat hall hstop, ← hle]

end Document

namespace Problem

/-- The place of the problem. -/
def place? : Problem → Option Position
  | .unresolvedAlias _ _ place => place
  | .unresolvedComponent _ place => place
  | .invalidConfig _ => none

/-- A problem with a component can be given a place. -/
theorem place?_placedAt {e : Problem} {name : Text} (h : e.component? = some name)
    (p : Position) : (e.placedAt p).place? = some p := by
  cases e with
  | unresolvedAlias target component place => rfl
  | unresolvedComponent component place => rfl
  | invalidConfig reason => cases h

end Problem

namespace Compiler

open Document (pieces)

variable {compiler : Compiler} {pass : Pass} {source : Text}

/-! ## Problems -/

/-- What fails in a tag is the name of a component. -/
theorem exists_component?_eq {f : Tag.Form} {e : Problem} (h : compiler.compileForm f = .error e) :
    ∃ name, e.component? = some name := by
  have hopen : ∀ {name text}, compiler.openComponent name text = .error e →
      e.component? = some name := by
    intro name text hopen
    unfold openComponent resolve Component.resolve at hopen
    split at hopen
    · split at hopen
      · cases hopen
      · cases hopen
        rfl
    · split at hopen
      · cases hopen
      · cases hopen
        rfl
  cases f with
  | opening name text closed =>
    cases closed with
    | false => exact ⟨name, hopen h⟩
    | true =>
      cases ho : compiler.openComponent name text with
      | ok d =>
        rw [compileForm, ho] at h
        cases h
      | error e' =>
        rw [compileForm, ho] at h
        cases h
        exact ⟨name, hopen ho⟩
  | closing name => cases h
  | slotOpening inline text closed => cases closed <;> cases h
  | slotClosing => cases h

/-- The tag `g`, behind the pieces `l`, is the first one of the pass that cannot be
compiled. -/
structure FirstFailure (compiler : Compiler) (pass : Pass) (source : Text) (l : List Piece)
    (g : Tag) (cause : Problem) : Prop where
  behind : ∃ l', pieces source = l ++ .tag g :: l'
  accepts : pass.accepts g.form = true
  fails : compiler.compileForm g.form = .error cause
  first : ∀ k, .tag k ∈ l → pass.accepts k.form = true →
    ∃ o, compiler.compileForm k.form = .ok o

theorem exists_compilePiece_ok_iff {q : Piece} :
    (∃ o, compiler.compilePiece pass q = .ok o) ↔
      ∀ k, q = .tag k → pass.accepts k.form = true →
        ∃ o, compiler.compileForm k.form = .ok o := by
  cases q with
  | text u => simp [compilePiece, pure, Except.pure]
  | tag k =>
    cases hacc : pass.accepts k.form with
    | false => simp [compilePiece, hacc, pure, Except.pure]
    | true =>
      cases hf : compiler.compileForm k.form with
      | ok o => simp [compilePiece, compileTag, hacc, hf, Except.mapError]
      | error e => simp [compilePiece, compileTag, hacc, hf, Except.mapError]

/-- A piece fails if it is a tag of the pass that does, and is placed where the tag starts. -/
theorem compilePiece_eq_error_iff {q : Piece} {e : Problem} :
    compiler.compilePiece pass q = .error e ↔
      ∃ g cause, q = .tag g ∧ pass.accepts g.form = true ∧
        compiler.compileForm g.form = .error cause ∧ cause.placedAt g.span.start = e := by
  cases q with
  | text u => simp [compilePiece, pure, Except.pure]
  | tag k =>
    cases hacc : pass.accepts k.form with
    | false => simp [compilePiece, hacc, pure, Except.pure]
    | true =>
      cases hf : compiler.compileForm k.form with
      | ok o => simp [compilePiece, compileTag, hacc, hf, Except.mapError]
      | error e' => simp [compilePiece, compileTag, hacc, hf, Except.mapError]

/-- The problem of the first failure is the one that is reported. -/
theorem FirstFailure.run_eq {l : List Piece} {g : Tag} {cause : Problem}
    (h : compiler.FirstFailure pass source l g cause) :
    compiler.run pass source = .error (cause.placedAt g.span.start) := by
  obtain ⟨l', hl⟩ := h.behind
  refine compiler.run_eq_error pass hl (fun q hq => ?_)
    (compilePiece_eq_error_iff.2 ⟨g, cause, rfl, h.accepts, h.fails, rfl⟩)
  rw [exists_compilePiece_ok_iff]
  rintro k rfl
  exact h.first k hq

/-- A document that is not compiled has a first failure. -/
theorem exists_firstFailure {e : Problem} (h : compiler.run pass source = .error e) :
    ∃ l g cause, compiler.FirstFailure pass source l g cause := by
  rcases forall_ok_or_exists_error (compiler.compilePiece pass) (pieces source)
    with hok | ⟨l, q, l', e', hl, hok, hq⟩
  · obtain ⟨outs, houts⟩ := exists_map_eq_ok hok
    rw [compiler.run_eq_ok pass houts] at h
    cases h
  · obtain ⟨g, cause, rfl, hacc, hf, -⟩ := compilePiece_eq_error_iff.1 hq
    refine ⟨l, g, cause, ⟨l', hl⟩, hacc, hf, fun k hk hacck => ?_⟩
    exact exists_compilePiece_ok_iff.1 (hok _ hk) k rfl hacck

/-- The tag that fails first starts with the `<` behind the pieces before it. -/
theorem FirstFailure.exists_start {l : List Piece} {g : Tag} {cause : Problem}
    (h : compiler.FirstFailure pass source l g cause) :
    (∃ r, source = l.flatMap Piece.source ++ '<' :: r) ∧
      g.span.start = located source (Text.byteSize (l.flatMap Piece.source)) := by
  obtain ⟨l', hl⟩ := h.behind
  have hg : .tag g ∈ pieces source := hl ▸ List.mem_append_cons_self
  obtain ⟨hsource, hstart, -⟩ := Document.walk_of_pieces hl
  obtain ⟨b, hb⟩ := (Document.reads_of_mem_piecesFrom _ source g hg).1.exists_body
  constructor
  · refine ⟨b ++ ['>'] ++ l'.flatMap Piece.source, ?_⟩
    rw [hb] at hsource
    simpa using hsource
  · rw [List.append_assoc] at hsource
    rw [hstart, hsource, Position.located_append]

/-- **Positions are those that counting from scratch finds.**  A position that is carried on
to offsets between characters or behind the end, in any order, is at the largest of them, and
so is a position that is asked for by its offset.  The ends of a tag are at their offsets,
whether they are walked to with the pieces or one position is carried through the ends of all
tags.  And a pass fails exactly if it has a first tag that cannot be compiled; its problem
then has the place of the `<` with which that tag starts. -/
theorem located_from_scratch (source : Text) :
    (∀ offsets : List Nat, (∀ n ∈ offsets, source.IsBoundary n) →
        carry source offsets = some (located source (offsets.foldl max 0))) ∧
      (∀ n, source.IsBoundary n → Position.ofOffset? source n = some (located source n)) ∧
      (∀ l g l', pieces source = l ++ .tag g :: l' →
        g.span.start = located source g.span.start.offset ∧
        g.span.stop = located source g.span.stop.offset ∧
        carry source (l.flatMap Piece.ends ++ [g.span.start.offset]) = some g.span.start ∧
        carry source ((l ++ [Piece.tag g]).flatMap Piece.ends) = some g.span.stop) ∧
      ∀ (compiler : Compiler) (pass : Pass),
        (∀ e, compiler.run pass source = .error e →
          ∃ l g cause, compiler.FirstFailure pass source l g cause) ∧
        ∀ l g cause, compiler.FirstFailure pass source l g cause →
          ∃ (a r : Text) (e : Problem), source = a ++ '<' :: r ∧ a = l.flatMap Piece.source ∧
            compiler.run pass source = .error e ∧
            e = cause.placedAt (located source a.byteSize) ∧
            e.place? = some (located source a.byteSize) := by
  refine ⟨fun _ h => Position.carry_eq h, fun _ h => Position.ofOffset?_eq h,
    fun l g l' hl => ?_, fun compiler pass => ⟨fun e he => exists_firstFailure he,
      fun l g cause h => ?_⟩⟩
  · obtain ⟨hstart, hstop⟩ := Document.span_eq_located hl
    exact ⟨hstart, hstop, Document.carry_ends hl⟩
  · obtain ⟨⟨r, hr⟩, hstart⟩ := h.exists_start
    obtain ⟨name, hname⟩ := exists_component?_eq h.fails
    refine ⟨_, r, _, hr, rfl, ?_, rfl, Problem.place?_placedAt hname _⟩
    rw [h.run_eq, hstart]

/-- Behind a letter of two bytes, on the second line, a slot stands before a component. -/
def accentedSource : Text := "é\n<x-slot:a/><x-b>".toList

theorem located_from_scratch_accented :
    carry accentedSource [4, 3, 40, 2] = some ⟨19, 1, 16⟩ ∧
      ∃ e, plainCompiler.run .all accentedSource = .error e ∧ e.place? = some ⟨14, 1, 11⟩ := by
  obtain ⟨hcarry, -, -, hrun⟩ := located_from_scratch accentedSource
  constructor
  · rw [hcarry [4, 3, 40, 2] ?_]
    · decide
    · simp only [List.forall_mem_cons, List.not_mem_nil, false_implies, implies_true, and_true]
      exact ⟨Or.inr ⟨"é\n<".toList, "x-slot:a/><x-b>".toList, by decide, by decide⟩,
        Or.inr ⟨"é\n".toList, "<x-slot:a/><x-b>".toList, by decide, by decide⟩,
        Or.inl (by decide),
        Or.inr ⟨"é".toList, "\n<x-slot:a/><x-b>".toList, by decide, by decide⟩⟩
  · have hfirst : plainCompiler.FirstFailure .all accentedSource
        [.text "é\n".toList, .tag ⟨.slotOpening (some ['a']) [] true, "<x-slot:a/>".toList,
          ⟨⟨3, 1, 0⟩, ⟨14, 1, 11⟩⟩⟩]
        ⟨.opening ['b'] [] false, "<x-b>".toList, ⟨⟨14, 1, 11⟩, ⟨19, 1, 16⟩⟩⟩
        (.unresolvedComponent ['b'] none) := by
      refine ⟨⟨[], by decide +kernel⟩, rfl, by decide +kernel, fun k hk _ => ?_⟩
      simp only [List.mem_cons, reduceCtorEq, Piece.tag.injEq, List.not_mem_nil, or_false,
        false_or] at hk
      rw [hk]
      exact ⟨plainCompiler.slotDirective (some ['a']) [] ++ Directive.slotClose, rfl⟩
    obtain ⟨a, r, e, -, ha, he, -, hplace⟩ := (hrun plainCompiler .all).2 _ _ _ hfirst
    refine ⟨e, he, ?_⟩
    rw [hplace, ha]
    decide

end Compiler
end TemplateTags
