import TemplateTags.Compiler.Basic
import TemplateTags.Proofs.Document

/-!
# Compiling a document piece by piece

What the compiler writes for a piece of a document is what it writes for that piece alone.
So no piece can influence another: a document compiles if and only if all its pieces do, the
output is put together from theirs, and the first piece that fails is the one whose problem
is reported.  Only the place of the problem differs, since a piece on its own stands at the
start of its document.

* `run_text`, `run_tag`: what a pass does with a document of one piece.
* `compilePiece_of_run_ok`, `compilePiece_of_run_error`: a piece in a document against the
  same piece alone.
* `run_iff_pieces` is the statement for whole documents.
-/

namespace TemplateTags

namespace Problem

@[simp] theorem placedAt_placedAt (p q : Position) (e : Problem) :
    (e.placedAt q).placedAt p = e.placedAt p := by
  cases e <;> rfl

end Problem

namespace Compiler

open Document (pieces Unmatched)
open Tag (Reads)

/-! ## Sequences of results -/

section Sequence

variable {ε α β : Type} {f : α → Except ε β}

theorem mapM_eq_ok_iff {l : List α} {outs : List β} :
    l.mapM f = .ok outs ↔ l.map f = outs.map .ok := by
  induction l generalizing outs with
  | nil =>
    cases outs with
    | nil => simp [pure, Except.pure]
    | cons o outs => simp [pure, Except.pure]
  | cons x l ih =>
    rw [List.mapM_cons, List.map_cons]
    cases hx : f x with
    | error e => cases outs <;> simp [bind, Except.bind]
    | ok o =>
      cases hl : l.mapM f with
      | error e =>
        simp only [bind, Except.bind, reduceCtorEq, false_iff]
        cases outs with
        | nil => simp
        | cons o' outs =>
          intro h
          rw [List.map_cons, List.cons.injEq, ← ih, hl] at h
          exact absurd h.2 (by simp)
      | ok os =>
        have hos := ih.1 hl
        cases outs with
        | nil => simp [bind, Except.bind, pure, Except.pure]
        | cons o' outs =>
          rw [List.map_cons, List.cons.injEq, ← ih, hl]
          simp [bind, Except.bind, pure, Except.pure]

/-- The first failure is the failure of the whole. -/
theorem mapM_eq_error {l l' : List α} {x : α} {e : ε} (hl : ∀ y ∈ l, ∃ o, f y = .ok o)
    (hx : f x = .error e) : (l ++ x :: l').mapM f = .error e := by
  induction l with
  | nil => rw [List.nil_append, List.mapM_cons, hx]; rfl
  | cons y l ih =>
    obtain ⟨o, ho⟩ := hl y (List.mem_cons_self ..)
    rw [List.cons_append, List.mapM_cons, ho, ih fun z hz => hl z (List.mem_cons_of_mem _ hz)]
    rfl

/-- Results that are all there can be listed. -/
theorem exists_map_eq_ok {l : List α} (h : ∀ x ∈ l, ∃ o, f x = .ok o) :
    ∃ outs : List β, l.map f = outs.map .ok := by
  induction l with
  | nil => exact ⟨[], rfl⟩
  | cons x l ih =>
    obtain ⟨o, ho⟩ := h x (List.mem_cons_self ..)
    obtain ⟨outs, hl⟩ := ih fun y hy => h y (List.mem_cons_of_mem _ hy)
    exact ⟨o :: outs, by rw [List.map_cons, List.map_cons, ho, hl]⟩

/-- A sequence has all its results, or there is a first one that it lacks. -/
theorem forall_ok_or_exists_error (f : α → Except ε β) (l : List α) :
    (∀ x ∈ l, ∃ o, f x = .ok o) ∨
      ∃ a x b e, l = a ++ x :: b ∧ (∀ y ∈ a, ∃ o, f y = .ok o) ∧ f x = .error e := by
  induction l with
  | nil => exact Or.inl (by simp)
  | cons x l ih =>
    cases hx : f x with
    | error e => exact Or.inr ⟨[], x, l, e, rfl, by simp, hx⟩
    | ok o =>
      rcases ih with h | ⟨a, y, b, e, rfl, ha, hy⟩
      · refine Or.inl fun z hz => ?_
        rcases List.mem_cons.1 hz with rfl | hz
        · exact ⟨o, hx⟩
        · exact h z hz
      · refine Or.inr ⟨x :: a, y, b, e, rfl, fun z hz => ?_, hy⟩
        rcases List.mem_cons.1 hz with rfl | hz
        · exact ⟨o, hx⟩
        · exact ha z hz

end Sequence

/-! ## Documents of one piece -/

variable (compiler : Compiler) (pass : Pass)

theorem run_eq_ok {source : Text} {outs : List Text}
    (h : (pieces source).map (compiler.compilePiece pass) = outs.map .ok) :
    compiler.run pass source = .ok outs.flatten := by
  rw [run, mapM_eq_ok_iff.2 h]
  rfl

theorem run_eq_error {source : Text} {l l' : List Piece} {q : Piece} {e : Problem}
    (hs : pieces source = l ++ q :: l')
    (hl : ∀ p ∈ l, ∃ o, compiler.compilePiece pass p = .ok o)
    (hq : compiler.compilePiece pass q = .error e) : compiler.run pass source = .error e := by
  rw [run, hs, mapM_eq_error hl hq]
  rfl

/-- A text without tags is copied. -/
theorem run_text {t : Text} (h : Unmatched t []) : compiler.run pass t = .ok t := by
  by_cases hne : t = []
  · have houts : (pieces t).map (compiler.compilePiece pass) = ([] : List Text).map .ok := by
      rw [hne, pieces, Document.piecesFrom_of_unmatched _ (Document.unmatched_nil _)]
      rfl
    rw [compiler.run_eq_ok pass houts, hne]
    rfl
  · have houts : (pieces t).map (compiler.compilePiece pass) = [t].map .ok := by
      rw [Document.pieces_of_unmatched hne h]
      rfl
    rw [compiler.run_eq_ok pass houts, List.flatten_singleton]

/-- A tag on its own stands at the start. -/
theorem run_tag {f : Tag.Form} {a : Text} (h : Reads f a) :
    compiler.run pass a =
      if pass.accepts f then (compiler.compileForm f).mapError (Problem.placedAt Position.start)
      else .ok a := by
  rw [run, Document.pieces_of_reads h, List.mapM_cons, List.mapM_nil]
  simp only [compilePiece, compileTag]
  split
  · cases compiler.compileForm f with
    | ok o => simp [bind, Except.bind, pure, Except.pure, Except.mapError]
    | error e => rfl
  · simp [bind, Except.bind, pure, Except.pure]

/-! ## A piece in a document and the same piece alone -/

variable {compiler pass} {source : Text} {q : Piece}

theorem compilePiece_of_run_ok (hq : q ∈ pieces source) {o : Text}
    (h : compiler.run pass q.source = .ok o) : compiler.compilePiece pass q = .ok o := by
  cases q with
  | text t =>
    have hrun := compiler.run_text pass (Document.unmatched_of_mem_piecesFrom _ _ t hq).2
    exact hrun.symm.trans h
  | tag g =>
    have hrun := compiler.run_tag pass (Document.reads_of_mem_piecesFrom _ _ g hq)
    rw [Piece.source, hrun] at h
    rw [compilePiece, compileTag]
    split at h
    · next hacc =>
      rw [if_pos hacc]
      cases hf : compiler.compileForm g.form with
      | ok o' => rw [hf] at h; exact h
      | error e => rw [hf] at h; exact absurd h (by simp [Except.mapError])
    · next hacc =>
      rw [if_neg hacc]
      exact h

/-- A problem in a document differs from the problem of the piece alone in its place: it
has the place where the sources of the pieces before it end. -/
theorem compilePiece_of_run_error {l l' : List Piece} (hs : pieces source = l ++ q :: l')
    {e : Problem} (h : compiler.run pass q.source = .error e) :
    compiler.compilePiece pass q =
      .error (e.placedAt (Position.start.walk (l.flatMap Piece.source))) := by
  have hq : q ∈ pieces source := by
    rw [hs]
    simp
  cases q with
  | text t =>
    have hrun := compiler.run_text pass (Document.unmatched_of_mem_piecesFrom _ _ t hq).2
    exact absurd (hrun.symm.trans h) (by simp)
  | tag g =>
    have hrun := compiler.run_tag pass (Document.reads_of_mem_piecesFrom _ _ g hq)
    rw [Piece.source, hrun] at h
    rw [compilePiece, compileTag, Document.walk_of_piecesFrom _ _ l g l' hs]
    split at h
    · next hacc =>
      rw [if_pos hacc]
      cases hf : compiler.compileForm g.form with
      | ok o => rw [hf] at h; exact absurd h (by simp [Except.mapError])
      | error e' =>
        rw [hf] at h
        cases h
        simp [Except.mapError]
    · exact absurd h (by simp)

/-- If every piece compiles on its own, the output of the document is theirs in order. -/
theorem run_eq_ok_of_run {outs : List Text}
    (houts : (pieces source).map (fun q => compiler.run pass q.source) = outs.map .ok) :
    compiler.run pass source = .ok outs.flatten := by
  refine compiler.run_eq_ok pass ?_
  rw [← houts]
  refine List.map_congr_left fun q hq => ?_
  have hmem : compiler.run pass q.source ∈ outs.map Except.ok := by
    rw [← houts]
    exact List.mem_map_of_mem hq
  obtain ⟨o, -, ho⟩ := List.mem_map.1 hmem
  rw [compilePiece_of_run_ok hq ho.symm, ho]

/-- The first piece that does not compile on its own gives the problem of the document. -/
theorem run_eq_error_of_run {l l' : List Piece} {q : Piece} {e : Problem}
    (hs : pieces source = l ++ q :: l')
    (hl : ∀ p ∈ l, ∃ out, compiler.run pass p.source = .ok out)
    (hq : compiler.run pass q.source = .error e) :
    compiler.run pass source =
      .error (e.placedAt (Position.start.walk (l.flatMap Piece.source))) := by
  refine compiler.run_eq_error pass hs (fun p hp => ?_) (compilePiece_of_run_error hs hq)
  obtain ⟨o, ho⟩ := hl p hp
  have hmem : p ∈ pieces source := by
    rw [hs]
    exact List.mem_append_left _ hp
  exact ⟨o, compilePiece_of_run_ok hmem ho⟩

/-- **Compilation distributes over the pieces of a document.**  A document compiles if and
only if each of its pieces does on its own, and then its output is theirs in order, where a
text and a tag outside the pass stand for themselves.  Otherwise its problem is that of the
first piece that fails, at the place where that piece starts. -/
theorem run_iff_pieces (compiler : Compiler) (pass : Pass) (source : Text) :
    ((∀ q ∈ pieces source, ∃ out, compiler.run pass q.source = .ok out) ↔
        ∃ out, compiler.run pass source = .ok out) ∧
      (∀ outs : List Text,
        (pieces source).map (fun q => compiler.run pass q.source) = outs.map .ok →
          compiler.run pass source = .ok outs.flatten) ∧
      (∀ t, .text t ∈ pieces source → compiler.run pass t = .ok t) ∧
      (∀ g, .tag g ∈ pieces source → pass.accepts g.form = false →
        compiler.run pass g.source = .ok g.source) ∧
      ∀ l q l' e, pieces source = l ++ q :: l' →
        (∀ p ∈ l, ∃ out, compiler.run pass p.source = .ok out) →
        compiler.run pass q.source = .error e →
          compiler.run pass source =
            .error (e.placedAt (Position.start.walk (l.flatMap Piece.source))) := by
  refine ⟨⟨?_, ?_⟩, fun _ houts => run_eq_ok_of_run houts, ?_, ?_,
    fun _ _ _ _ hs hl hq => run_eq_error_of_run hs hl hq⟩
  · intro h
    obtain ⟨outs, houts⟩ := exists_map_eq_ok h
    exact ⟨_, run_eq_ok_of_run houts⟩
  · rintro ⟨out, hout⟩
    rcases forall_ok_or_exists_error (fun q => compiler.run pass q.source) (pieces source)
      with h | ⟨l, q, l', e, hs, hl, hq⟩
    · exact h
    · rw [run_eq_error_of_run hs hl hq] at hout
      exact absurd hout (by simp)
  · intro t ht
    exact compiler.run_text pass (Document.unmatched_of_mem_piecesFrom _ _ t ht).2
  · intro g hg hacc
    rw [compiler.run_tag pass (Document.reads_of_mem_piecesFrom _ _ g hg), hacc]
    rfl

/-- A compiler on a host that knows no component. -/
def plainCompiler : Compiler where
  config := Config.standard
  host := Host.ofTables [] []
  splitter := Echo.standard

-- The slot is compiled by both passes; the component fails where the second one comes to it.
example :
    plainCompiler.run .slots "a</x-slot><x-b>".toList = .ok "a @endslot<x-b>".toList ∧
      plainCompiler.run .all "a</x-slot><x-b>".toList =
        .error (.unresolvedComponent ['b'] (some ⟨10, 0, 10⟩)) := by
  decide +kernel

end Compiler
end TemplateTags
