import TemplateTags.Proofs.Compiler.Output
import TemplateTags.Proofs.Compiler.Pieces

/-!
# Compiling in stages

A document can be compiled in one pass, or in two: its slots and then its components, or the
other way round.  A second pass reads what the first one wrote, so it sees directives next to
texts and next to tags that were left.  As long as directives are sealed and texts hold no
start of a tag, it finds the same texts and the tags that were left, and nothing else.

## How it is proved

Places are the only thing that a pass changes for the tags behind.  `Compiler.outcome` is
what a pass gives with the place of a problem left out, and it obeys two equations,
`outcome_of_unmatched` and `outcome_append_tag`, in which no position occurs.

* `outcome_append_written`: what a pass writes for one tag is read by another one as both
  together read the tag.
* `outcome_outcome`: a pass on the output of another one gives what both give together.
* `outcome_all_eq_error`: a problem of the first pass is the problem of both together, if the
  second one has none.
* `compile_iff_stages` puts this together for the three ways to combine two passes.
-/

namespace TemplateTags

namespace Problem

/-- The problem without its place. -/
def unplaced : Problem → Problem
  | .unresolvedAlias target component _ => .unresolvedAlias target component none
  | .unresolvedComponent component _ => .unresolvedComponent component none
  | .invalidConfig reason => .invalidConfig reason

@[simp] theorem unplaced_placedAt (p : Position) (e : Problem) :
    (e.placedAt p).unplaced = e.unplaced := by
  cases e <;> rfl

end Problem

namespace Compiler

open Document (pieces piecesFrom Unmatched)
open Tag (Reads StartFree)
open Text (Breaks)

variable (compiler : Compiler) (pass : Pass)

/-! ## Outcomes -/

/-- What a pass writes for a tag of the given form and source, problems without place. -/
def written (f : Tag.Form) (a : Text) : Except Problem Text :=
  if pass.accepts f then (compiler.compileForm f).mapError Problem.unplaced else .ok a

/-- What a pass writes for pieces, problems without place. -/
def outcomeOf (l : List Piece) : Except Problem Text :=
  ((l.mapM (compiler.compilePiece pass)).map List.flatten).mapError Problem.unplaced

/-- What a pass gives for a document, problems without place. -/
def outcome (source : Text) : Except Problem Text := compiler.outcomeOf pass (pieces source)

theorem outcomeOf_nil : compiler.outcomeOf pass [] = .ok [] := rfl

theorem outcomeOf_text (t : Text) (l : List Piece) :
    compiler.outcomeOf pass (Piece.ofText t ++ l) =
      (compiler.outcomeOf pass l).map (t ++ ·) := by
  unfold Piece.ofText
  split
  · next h =>
    rw [h, List.nil_append]
    cases compiler.outcomeOf pass l <;> rfl
  · rw [List.singleton_append, outcomeOf, List.mapM_cons, outcomeOf]
    cases l.mapM (compiler.compilePiece pass) <;> rfl

theorem outcomeOf_tag (g : Tag) (l : List Piece) :
    compiler.outcomeOf pass (.tag g :: l) = do
      let d ← compiler.written pass g.form g.source
      let o ← compiler.outcomeOf pass l
      return d ++ o := by
  rw [outcomeOf, List.mapM_cons, outcomeOf, compilePiece, written]
  split
  · rw [compileTag]
    cases compiler.compileForm g.form with
    | error e => simp [Except.mapError, bind, Except.bind, Except.map]
    | ok d => cases l.mapM (compiler.compilePiece pass) <;> rfl
  · cases l.mapM (compiler.compilePiece pass) <;> rfl

/-- Where a document starts does not matter. -/
theorem outcomeOf_piecesFrom (p : Position) (t : Text) :
    compiler.outcomeOf pass (piecesFrom p t) = compiler.outcome pass t := by
  suffices h : ∀ q, compiler.outcomeOf pass (piecesFrom p t) =
      compiler.outcomeOf pass (piecesFrom q t) from h _
  induction p, t using Document.piecesFrom_induction with
  | last p t h =>
    intro q
    rw [Document.piecesFrom_of_unmatched p h, Document.piecesFrom_of_unmatched q h]
  | tag p b a r f hb ha ih =>
    intro q
    rw [Document.piecesFrom_append_tag p hb ha, Document.piecesFrom_append_tag q hb ha,
      outcomeOf_text, outcomeOf_text, outcomeOf_tag, outcomeOf_tag,
      ih ((q.walk b).walk a)]

theorem outcome_of_unmatched {t : Text} (h : Unmatched t []) :
    compiler.outcome pass t = .ok t := by
  rw [outcome, pieces, Document.piecesFrom_of_unmatched _ h,
    ← List.append_nil (Piece.ofText t), outcomeOf_text, outcomeOf_nil]
  show Except.ok (t ++ []) = _
  rw [List.append_nil]

theorem outcome_append_tag {b a r : Text} {f : Tag.Form} (hb : Unmatched b (a ++ r))
    (ha : Reads f a) :
    compiler.outcome pass (b ++ (a ++ r)) = do
      let d ← compiler.written pass f a
      let o ← compiler.outcome pass r
      return b ++ (d ++ o) := by
  rw [outcome, pieces, Document.piecesFrom_append_tag _ hb ha, outcomeOf_text, outcomeOf_tag,
    outcomeOf_piecesFrom]
  cases compiler.written pass f a with
  | error e => rfl
  | ok d => cases compiler.outcome pass r <;> rfl

/-- A text in which no tag starts is copied, whatever comes behind. -/
theorem outcome_append {u : Text} (t : Text) (hu : Unmatched u t) :
    compiler.outcome pass (u ++ t) = (compiler.outcome pass t).map (u ++ ·) := by
  induction Position.start, t using Document.piecesFrom_induction with
  | last p t h =>
    have hall : Unmatched (u ++ t) [] := Unmatched.append (by rwa [List.append_nil]) h
    rw [outcome_of_unmatched _ _ hall, outcome_of_unmatched _ _ h]
    rfl
  | tag p b a r f hb ha ih =>
    rw [← List.append_assoc u b, outcome_append_tag _ _ (Unmatched.append hu hb) ha,
      outcome_append_tag _ _ hb ha]
    cases compiler.written pass f a with
    | error e => rfl
    | ok d =>
      cases compiler.outcome pass r with
      | error e => rfl
      | ok o =>
        show Except.ok (u ++ b ++ (d ++ o)) = Except.ok (u ++ (b ++ (d ++ o)))
        rw [List.append_assoc u b]

theorem outcome_eq_run (source : Text) :
    compiler.outcome pass source = (compiler.run pass source).mapError Problem.unplaced := by
  rw [outcome, outcomeOf, run]
  cases (pieces source).mapM (compiler.compilePiece pass) <;> rfl

/-! ## A pass on the output of another -/

/-- What the pieces of a document have to be like for its output to be read again. -/
def Calm : Piece → Prop
  | .text u => StartFree u
  | .tag g => compiler.Harmless g.form

theorem startFree_nil : StartFree [] := by
  intro s hs h
  exact absurd (h.subset hs.mem_x) (by simp)

theorem breaks_of_reads {f : Tag.Form} {a : Text} (h : Reads f a) (r : Text) :
    Breaks (a ++ r) := by
  obtain ⟨s, k, hs, rfl⟩ := Tag.exists_isStart_of_derives h.1
  obtain ⟨t, rfl, -⟩ := hs.exists_tail
  exact Or.inr (Or.inl rfl)

variable {compiler pass}

theorem written_eq_ok_of_accepts {f : Tag.Form} {a d : Text} (hf : pass.accepts f = true) :
    compiler.written pass f a = .ok d ↔ compiler.compileForm f = .ok d := by
  rw [written, if_pos hf]
  cases compiler.compileForm f <;> simp [Except.mapError]

theorem written_eq_written_all {f : Tag.Form} {a : Text} (hf : pass.accepts f = true) :
    compiler.written pass f a = compiler.written .all f a := by
  rw [written, if_pos hf]
  rfl

/-- What a pass writes for a tag is read by another one as both together read the tag.
Between them the two passes accept all tags. -/
theorem outcome_append_written {first second : Pass}
    (hboth : ∀ f, first.accepts f = false → second.accepts f = true)
    (hc : compiler.AngleFree) {b a d : Text} {f : Tag.Form} (hb : StartFree b)
    (ha : Reads f a) (hf : compiler.Harmless f) (hd : compiler.written first f a = .ok d)
    (t : Text) :
    compiler.outcome second (b ++ (d ++ t)) = do
      let d' ← compiler.written .all f a
      let o ← compiler.outcome second t
      return b ++ (d' ++ o) := by
  by_cases hacc : first.accepts f = true
  · -- the tag became a directive, which the second pass copies
    have hform := (written_eq_ok_of_accepts hacc).1 hd
    have hall : compiler.written .all f a = .ok d := (written_eq_ok_of_accepts rfl).2 hform
    have hsealed := isSealed_of_compileForm hc ha hf hform
    have hu : Unmatched (b ++ d) t := Unmatched.append
      (Document.unmatched_of_startFree hb (breaks_of_compileForm hform t))
      (Document.unmatched_of_isSealed hsealed t)
    rw [← List.append_assoc, outcome_append _ _ t hu, hall]
    cases compiler.outcome second t with
    | error e => rfl
    | ok o =>
      show Except.ok (b ++ d ++ o) = Except.ok (b ++ (d ++ o))
      rw [List.append_assoc]
  · -- the tag was left, and the second pass finds it where it was
    rw [written, if_neg hacc] at hd
    cases hd
    have hsecond := hboth f (Bool.eq_false_iff.2 hacc)
    have hu := Document.unmatched_of_startFree hb (breaks_of_reads ha t)
    rw [outcome_append_tag _ _ hu ha, written_eq_written_all hsecond]

/-- **A pass on the output of another one gives what both give together.** -/
theorem outcome_outcome {first second : Pass}
    (hboth : ∀ f, first.accepts f = false → second.accepts f = true)
    (hc : compiler.AngleFree) (p : Position) (t : Text)
    (hcalm : ∀ q ∈ piecesFrom p t, compiler.Calm q) {o : Text}
    (h : compiler.outcome first t = .ok o) :
    compiler.outcome second o = compiler.outcome .all t := by
  induction p, t using Document.piecesFrom_induction generalizing o with
  | last p t ht =>
    rw [outcome_of_unmatched _ _ ht] at h
    cases h
    rw [outcome_of_unmatched _ _ ht, outcome_of_unmatched _ _ ht]
  | tag p b a r f hb ha ih =>
    rw [Document.piecesFrom_append_tag p hb ha] at hcalm
    have hfree : StartFree b := by
      by_cases hne : b = []
      · rw [hne]
        exact startFree_nil
      · exact hcalm (.text b) (List.mem_append_left _ (Document.mem_ofText.2 ⟨hne, rfl⟩))
    have hharmless : compiler.Harmless f :=
      hcalm _ (List.mem_append_right _ (List.mem_cons_self ..))
    have hrest := fun q hq => hcalm q (List.mem_append_right _ (List.mem_cons_of_mem _ hq))
    rw [outcome_append_tag _ _ hb ha] at h
    cases hd : compiler.written first f a with
    | error e =>
      rw [hd] at h
      cases h
    | ok d =>
      cases ho : compiler.outcome first r with
      | error e =>
        rw [hd, ho] at h
        cases h
      | ok o' =>
        rw [hd, ho] at h
        cases h
        rw [outcome_append_tag _ .all hb ha, ← ih hrest ho]
        exact outcome_append_written hboth hc hfree ha hharmless hd o'

/-- A pass over tags that always compile never fails. -/
theorem exists_outcome_eq_ok
    (hok : ∀ f, pass.accepts f = true → ∃ d, compiler.compileForm f = .ok d) (t : Text) :
    ∃ o, compiler.outcome pass t = .ok o := by
  induction Position.start, t using Document.piecesFrom_induction with
  | last p t ht => exact ⟨t, outcome_of_unmatched _ _ ht⟩
  | tag p b a r f hb ha ih =>
    obtain ⟨o, ho⟩ := ih
    have hd : ∃ d, compiler.written pass f a = .ok d := by
      by_cases hacc : pass.accepts f = true
      · obtain ⟨d, hd⟩ := hok f hacc
        exact ⟨d, (written_eq_ok_of_accepts hacc).2 hd⟩
      · exact ⟨a, by rw [written, if_neg hacc]⟩
    obtain ⟨d, hd⟩ := hd
    exact ⟨b ++ (d ++ o), by rw [outcome_append_tag _ _ hb ha, hd, ho]; rfl⟩

/-- If the tags outside a pass always compile, a problem of the pass is the first one of the
document. -/
theorem outcome_all_eq_error
    (hok : ∀ f, pass.accepts f = false → ∃ d, compiler.compileForm f = .ok d) {t : Text}
    {e : Problem} (h : compiler.outcome pass t = .error e) :
    compiler.outcome .all t = .error e := by
  induction Position.start, t using Document.piecesFrom_induction with
  | last p t ht =>
    rw [outcome_of_unmatched _ _ ht] at h
    cases h
  | tag p b a r f hb ha ih =>
    rw [outcome_append_tag _ _ hb ha] at h ⊢
    have hlater : ∀ {d}, compiler.written pass f a = .ok d →
        compiler.outcome pass r = .error e := by
      intro d hd
      cases ho : compiler.outcome pass r with
      | ok o => rw [hd, ho] at h; cases h
      | error e' => rw [hd, ho] at h; cases h; rfl
    by_cases hacc : pass.accepts f = true
    · rw [← written_eq_written_all hacc]
      cases hd : compiler.written pass f a with
      | error e' => rw [hd] at h; exact h
      | ok d =>
        rw [ih (hlater hd)]
        rfl
    · -- the tag is outside the pass, so the problem is one of the rest
      obtain ⟨d, hd⟩ := hok f (Bool.eq_false_iff.2 hacc)
      have hall : compiler.written .all f a = .ok d := (written_eq_ok_of_accepts rfl).2 hd
      have hleft : compiler.written pass f a = .ok a := by rw [written, if_neg hacc]
      rw [hall, ih (hlater hleft)]
      rfl

theorem exists_compileForm_of_isSlot (compiler : Compiler) {f : Tag.Form}
    (h : f.isSlot = true) : ∃ d, compiler.compileForm f = .ok d := by
  cases f with
  | opening name text s => cases h
  | closing name => cases h
  | slotOpening inline text s =>
    cases s with
    | false => exact ⟨_, rfl⟩
    | true => exact ⟨_, rfl⟩
  | slotClosing => exact ⟨_, rfl⟩

/-! ## One pass and two -/

/-- Two passes that accept all tags between them give what one pass gives, problems compared
without their places. -/
theorem run_run {first second : Pass}
    (hboth : ∀ f, first.accepts f = false → second.accepts f = true)
    (hc : compiler.AngleFree) {source : Text}
    (hcalm : ∀ q ∈ pieces source, compiler.Calm q)
    (hfail : ∀ e, compiler.outcome first source = .error e →
      compiler.outcome .all source = .error e) :
    (compiler.run first source >>= compiler.run second).mapError Problem.unplaced =
      compiler.outcome .all source := by
  have hfirst := compiler.outcome_eq_run first source
  cases hr : compiler.run first source with
  | error e =>
    rw [hr] at hfirst
    rw [hfail _ hfirst]
    rfl
  | ok o =>
    rw [hr] at hfirst
    rw [← outcome_outcome hboth hc _ source hcalm hfirst, outcome_eq_run]
    rfl

theorem eq_ok_of_mapError {r : Except Problem Text} {o : Text}
    (h : r.mapError Problem.unplaced = .ok o) : r = .ok o := by
  cases r with
  | ok o' => exact h
  | error e => cases h

theorem exists_of_mapError {r : Except Problem Text} {e : Problem}
    (h : r.mapError Problem.unplaced = .error e) : ∃ e', r = .error e' ∧ e'.unplaced = e := by
  cases r with
  | ok o => cases h
  | error e' =>
    cases h
    exact ⟨e', rfl, rfl⟩

section Orders

variable {source : Text} (hc : compiler.AngleFree) (hcalm : ∀ q ∈ pieces source, compiler.Calm q)

include hc hcalm

/-- Slots first: the first pass never fails. -/
theorem compileStaged_eq_outcome :
    (compiler.compileStaged source).mapError Problem.unplaced = compiler.outcome .all source := by
  have hrest : ∀ f, Pass.slots.accepts f = false → Pass.components.accepts f = true := by
    intro f hf
    rw [Pass.accepts, show f.isSlot = false from hf]
    rfl
  have hok : ∀ f, Pass.slots.accepts f = true → ∃ d, compiler.compileForm f = .ok d :=
    fun f hf => exists_compileForm_of_isSlot compiler hf
  refine run_run hrest hc hcalm fun e he => ?_
  obtain ⟨o, ho⟩ := exists_outcome_eq_ok hok source
  rw [ho] at he
  cases he

/-- Components first: a problem of the first pass is the first one of the document. -/
theorem components_slots_eq_outcome :
    (compiler.run .components source >>= compiler.run .slots).mapError Problem.unplaced =
      compiler.outcome .all source := by
  have hslot : ∀ f, Pass.components.accepts f = false → f.isSlot = true := fun f hf => by
    simpa [Pass.accepts] using hf
  exact run_run hslot hc hcalm fun e he =>
    outcome_all_eq_error (fun f hf => exists_compileForm_of_isSlot compiler (hslot f hf)) he

end Orders

/-- **One pass agrees with two passes in either order, and output is stable.**  Let no text
of the document hold the start of a tag, and let no attribute text, no name that a tag
resolves to and no name that the compiler was given hold an angle bracket.  If the document
compiles, both orders give the same output, and compiling the output changes nothing.  If
not, both orders fail with the same problem, up to its place. -/
theorem compile_iff_stages (compiler : Compiler) (hc : compiler.AngleFree) (source : Text)
    (htext : ∀ u, .text u ∈ pieces source → StartFree u)
    (htag : ∀ g, .tag g ∈ pieces source → compiler.Harmless g.form) :
    (∀ out, compiler.compile source = .ok out →
      compiler.compileStaged source = .ok out ∧
      (compiler.run .components source >>= compiler.run .slots) = .ok out ∧
      compiler.compile out = .ok out) ∧
    ∀ e, compiler.compile source = .error e →
      (∃ e', compiler.compileStaged source = .error e' ∧ e'.unplaced = e.unplaced) ∧
      ∃ e', (compiler.run .components source >>= compiler.run .slots) = .error e' ∧
        e'.unplaced = e.unplaced := by
  have hcalm : ∀ q ∈ pieces source, compiler.Calm q := by
    intro q hq
    cases q with
    | text u => exact htext u hq
    | tag g => exact htag g hq
  have hslots := compileStaged_eq_outcome hc hcalm
  have hcomponents := components_slots_eq_outcome hc hcalm
  constructor
  · intro out hout
    have hall : compiler.outcome .all source = .ok out := by
      rw [outcome_eq_run, show compiler.run .all source = .ok out from hout]
      rfl
    refine ⟨eq_ok_of_mapError (hslots.trans hall), eq_ok_of_mapError (hcomponents.trans hall), ?_⟩
    have hagain : compiler.outcome .all out = compiler.outcome .all source :=
      outcome_outcome (fun _ _ => rfl) hc _ source hcalm hall
    rw [hall, outcome_eq_run] at hagain
    exact eq_ok_of_mapError hagain
  · intro e he
    have hall : compiler.outcome .all source = .error e.unplaced := by
      rw [outcome_eq_run, show compiler.run .all source = .error e from he]
      rfl
    exact ⟨exists_of_mapError (hslots.trans hall), exists_of_mapError (hcomponents.trans hall)⟩

/-- A compiler that knows one anonymous component. -/
def cardCompiler : Compiler where
  config := Config.standard
  host := Host.ofTables [] ["components.card".toList]
  splitter := Echo.standard

/-- Brackets that start no tag stand before a slot and before a component, and an attribute
has an echo. -/
def cardSource : Text :=
  "a < <x-slot:head>b</x-slot:head> </<x-card t=\"1 \x7b\x7b $y \x7d\x7d\" :z=\"$w\"/>".toList

theorem compile_iff_stages_card :
    cardCompiler.AngleFree ∧
      (∀ u, .text u ∈ pieces cardSource → StartFree u) ∧
      (∀ g, .tag g ∈ pieces cardSource → cardCompiler.Harmless g.form) ∧
      ∃ out, cardCompiler.compile cardSource = .ok out ∧
        cardCompiler.compileStaged cardSource = .ok out ∧
        (cardCompiler.run .components cardSource >>= cardCompiler.run .slots) = .ok out ∧
        cardCompiler.compile out = .ok out := by
  have hc : cardCompiler.AngleFree :=
    ⟨⟨by decide, by decide, by decide, by decide, by decide⟩, ['e'], rfl, by decide⟩
  have hx : ∀ q ∈ pieces cardSource, ∀ u, q = .text u → 'x' ∉ u := by
    have hall : (pieces cardSource).all (fun
        | .text u => !u.contains 'x'
        | .tag _ => true) = true := by decide +kernel
    rintro q hq u rfl
    simpa using List.all_eq_true.1 hall _ hq
  have htext : ∀ u, .text u ∈ pieces cardSource → StartFree u := fun u hu s hs hi =>
    hx _ hu u rfl (hi.subset hs.mem_x)
  have hplain : (pieces cardSource).all (fun
      | .text _ => true
      | .tag g => !g.form.attributes.contains '<' &&
        (cardCompiler.resolve g.form.name).toOption.all (fun r => !r.target.name.contains '<')) =
      true := by decide +kernel
  have htag : ∀ g, .tag g ∈ pieces cardSource → cardCompiler.Harmless g.form := by
    intro g hg
    have h := List.all_eq_true.1 hplain _ hg
    rw [Bool.and_eq_true] at h
    refine ⟨by simpa using h.1, fun name text s hform r hr => ?_⟩
    have htarget := h.2
    rw [hform, Tag.Form.name, hr] at htarget
    simpa [Except.toOption] using htarget
  have hok : (cardCompiler.compile cardSource).toOption.isSome = true := by decide +kernel
  obtain ⟨out, hout⟩ : ∃ out, cardCompiler.compile cardSource = .ok out := by
    cases hr : cardCompiler.compile cardSource with
    | ok out => exact ⟨out, rfl⟩
    | error e =>
      rw [hr] at hok
      cases hok
  exact ⟨hc, htext, htag, out, hout,
    (compile_iff_stages cardCompiler hc cardSource htext htag).1 out hout⟩

end Compiler
end TemplateTags
