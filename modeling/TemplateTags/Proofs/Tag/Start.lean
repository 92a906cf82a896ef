import TemplateTags.Proofs.Document

/-!
# Where a tag can start

A tag starts with an angle bracket, perhaps a slash, and the mark of tags.  A text in which
this does not occur holds no tag, but a tag might still start in it and go on in the text
behind: a bracket at its end is enough.  Two conditions rule this out from either side.

* A text is *sealed* if each of its brackets stands directly before a question mark.  No tag
  starts in it, whatever comes behind (`unmatched_of_isSealed`).
* A text *breaks* the start of a tag if it cannot go on with one.  No tag starts in a text
  without such starts if a breaking text comes behind (`unmatched_of_startFree`).

The first is meant for directives, the second for the texts of a document with a tag or a
directive behind them.
-/

namespace TemplateTags
namespace Tag

/-- What every tag starts with: `<`, perhaps `/`, white space, `x`, and a hyphen or a
colon. -/
def IsStart (s : Text) : Prop := ∃ m, IsMark m ∧ (s = '<' :: m ∨ s = '<' :: '/' :: m)

/-- The start of a tag does not occur in the text. -/
def StartFree (t : Text) : Prop := ∀ s, IsStart s → ¬ s <:+: t

theorem exists_isStart_of_derives {f : Form} {a : Text} (h : Derives f a) :
    ∃ s r, IsStart s ∧ a = s ++ r := by
  cases h with
  | @slotOpening m n a e inline s hm hn ha he =>
    exact ⟨'<' :: m, slotWord ++ n ++ a ++ e, ⟨m, hm, Or.inl rfl⟩, rfl⟩
  | @opening m n a e s hm hne hn ha he =>
    exact ⟨'<' :: m, n ++ a ++ e, ⟨m, hm, Or.inl rfl⟩, rfl⟩
  | @slotClosing m t hm ht hw =>
    exact ⟨'<' :: '/' :: m, slotWord ++ t ++ ['>'], ⟨m, hm, Or.inr rfl⟩, rfl⟩
  | @closing m n w hm hn hw =>
    exact ⟨'<' :: '/' :: m, n ++ w ++ ['>'], ⟨m, hm, Or.inr rfl⟩, rfl⟩

theorem exists_isStart_of_match? {t : Text} {k : Match} (h : match? t = some k) :
    ∃ s r, IsStart s ∧ t = s ++ r := by
  obtain ⟨ht, hread⟩ := match?_eq_some_iff.1 h
  obtain ⟨s, r, hs, ha⟩ := exists_isStart_of_derives hread.1
  exact ⟨s, r ++ k.rest, hs, by rw [ht, ha, List.append_assoc]⟩

/-- Behind the bracket, a start has only a slash, white space, the letter and its hyphen or
colon, and it does not end with white space. -/
theorem IsStart.exists_tail {s : Text} (h : IsStart s) :
    ∃ t, s = '<' :: t ∧ (∀ c ∈ t, c ≠ '<' ∧ c ≠ '#' ∧ c ≠ '@' ∧ c ≠ '?') ∧
      ∀ c ∈ t.getLast?, c ≠ ' ' := by
  obtain ⟨m, ⟨w, c, hw, hc, rfl⟩, hs⟩ := h
  have hspace : ∀ d ∈ w, d ≠ '<' ∧ d ≠ '#' ∧ d ≠ '@' ∧ d ≠ '?' := fun d hd =>
    (by decide : ∀ d ∈ Character.blanks, d ≠ '<' ∧ d ≠ '#' ∧ d ≠ '@' ∧ d ≠ '?') d
      (Character.isSpace_iff.1 (hw d hd))
  have hmark : ∀ d ∈ w ++ ['x', c], d ≠ '<' ∧ d ≠ '#' ∧ d ≠ '@' ∧ d ≠ '?' := by
    intro d hd
    rcases List.mem_append.1 hd with hd | hd
    · exact hspace d hd
    · rcases hc with rfl | rfl
      · exact (by decide : ∀ d ∈ ['x', '-'], d ≠ '<' ∧ d ≠ '#' ∧ d ≠ '@' ∧ d ≠ '?') d hd
      · exact (by decide : ∀ d ∈ ['x', ':'], d ≠ '<' ∧ d ≠ '#' ∧ d ≠ '@' ∧ d ≠ '?') d hd
  have hlast : c ≠ ' ' := by
    rcases hc with rfl | rfl
    · decide
    · decide
  rcases hs with rfl | rfl
  · refine ⟨w ++ ['x', c], rfl, hmark, ?_⟩
    simp [hlast]
  · refine ⟨'/' :: (w ++ ['x', c]), rfl, ?_, ?_⟩
    · intro d hd
      rcases List.mem_cons.1 hd with rfl | hd
      · decide
      · exact hmark d hd
    · rw [← List.cons_append, List.getLast?_append]
      simp [hlast]

theorem IsStart.mem_x {s : Text} (h : IsStart s) : 'x' ∈ s := by
  obtain ⟨m, ⟨w, c, -, -, rfl⟩, rfl | rfl⟩ := h
  · simp
  · simp

end Tag

/-! ## Sealed texts -/

namespace Text

/-- Each angle bracket of the text stands directly before a question mark. -/
def isSealed : Text → Bool
  | [] => true
  | c :: t => (c != '<' || t.head? == some '?') && isSealed t

theorem isSealed_of_notMem {t : Text} (h : '<' ∉ t) : isSealed t = true := by
  induction t with
  | nil => rfl
  | cons c t ih =>
    rw [List.mem_cons, not_or] at h
    rw [isSealed, ih h.2, Bool.and_true, Bool.or_eq_true]
    exact Or.inl (bne_iff_ne.2 (Ne.symm h.1))

theorem isSealed_append {s t : Text} (hs : isSealed s = true) (ht : isSealed t = true) :
    isSealed (s ++ t) = true := by
  induction s with
  | nil => exact ht
  | cons c s ih =>
    rw [isSealed, Bool.and_eq_true] at hs
    rw [List.cons_append, isSealed, ih hs.2, Bool.and_true]
    cases s with
    | nil =>
      have hc : (c != '<') = true := by simpa using hs.1
      rw [hc, Bool.true_or]
    | cons d s => exact hs.1

theorem isSealed_of_suffix {s t : Text} (h : s <:+ t) (ht : isSealed t = true) :
    isSealed s = true := by
  obtain ⟨x, rfl⟩ := h
  induction x with
  | nil => exact ht
  | cons c x ih =>
    rw [List.cons_append, isSealed, Bool.and_eq_true] at ht
    exact ih ht.2

/-- What follows cannot go on with the start of a tag: there is nothing, or a bracket, or
what a directive starts with. -/
def Breaks (r : Text) : Prop :=
  r = [] ∨ r.head? = some '<' ∨ r.head? = some '#' ∨ [' ', '@'] <+: r

end Text

/-! ## Texts in which no tag starts -/

namespace Document

open Tag (IsStart StartFree exists_isStart_of_match? match?)
open Text (isSealed Breaks)

variable {u r : Text}

theorem unmatched_of_isSealed (h : isSealed u = true) (r : Text) : Unmatched u r := by
  intro x y hxy hne
  by_contra hm
  obtain ⟨k, hk⟩ := Option.ne_none_iff_exists'.1 hm
  obtain ⟨s, z, hs, hz⟩ := exists_isStart_of_match? hk
  obtain ⟨t, rfl, ht, -⟩ := hs.exists_tail
  have hy : isSealed y = true := Text.isSealed_of_suffix ⟨x, hxy.symm⟩ h
  -- the bracket is in `y`, so the question mark would be the next character of the start
  cases y with
  | nil => exact hne rfl
  | cons c y =>
    rw [List.cons_append, List.cons_append, List.cons.injEq] at hz
    obtain ⟨rfl, hz⟩ := hz
    rw [isSealed, Bool.and_eq_true] at hy
    have hhead : y.head? = some '?' := by simpa using hy.1
    obtain ⟨y, rfl⟩ : ∃ y', y = '?' :: y' := List.head?_eq_some_iff.1 hhead
    cases t with
    | nil =>
      obtain ⟨m, ⟨w, c, -, -, rfl⟩, e | e⟩ := hs
      · exact absurd e (by simp)
      · exact absurd e (by simp)
    | cons d t =>
      rw [List.cons_append, List.cons_append, List.cons.injEq] at hz
      exact (ht d (List.mem_cons_self ..)).2.2.2 hz.1.symm

theorem unmatched_of_startFree (h : StartFree u) (hr : Breaks r) : Unmatched u r := by
  intro x y hxy hne
  by_contra hm
  obtain ⟨k, hk⟩ := Option.ne_none_iff_exists'.1 hm
  obtain ⟨s, z, hs, hz⟩ := exists_isStart_of_match? hk
  rcases List.append_eq_append_iff.1 hz with ⟨p, rfl, rfl⟩ | ⟨p, rfl, -⟩
  · -- the start begins in `y` and goes on with `p` in the text behind
    by_cases hp : p = []
    · refine h _ hs ⟨x, [], ?_⟩
      rw [hxy, hp, List.append_nil, List.append_nil]
    · obtain ⟨t, ht, hchars, hlast⟩ := hs.exists_tail
      cases y with
      | nil => exact hne rfl
      | cons c y =>
        obtain ⟨-, rfl⟩ := List.cons.inj ht
        have hpchars : ∀ d ∈ p, d ≠ '<' ∧ d ≠ '#' ∧ d ≠ '@' ∧ d ≠ '?' := fun d hd =>
          hchars d (List.mem_append_right _ hd)
        cases p with
        | nil => exact hp rfl
        | cons d p =>
          have hd := hpchars d (List.mem_cons_self ..)
          rcases hr with hr | hr | hr | hr
          · exact absurd hr (by simp)
          · exact hd.1 (Option.some.inj hr)
          · exact hd.2.1 (Option.some.inj hr)
          · rw [List.cons_append, List.cons_prefix_cons] at hr
            obtain ⟨rfl, hr⟩ := hr
            cases p with
            | nil =>
              have hend : ' ' ∈ (y ++ [' ']).getLast? := by simp
              exact hlast ' ' hend rfl
            | cons e p =>
              rw [List.cons_append, List.cons_prefix_cons] at hr
              exact (hpchars e (by simp)).2.2.1 hr.1.symm
  · exact h s hs ⟨x, p, by rw [hxy, List.append_assoc]⟩

end Document
end TemplateTags
