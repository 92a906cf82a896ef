import TemplateTags.Attribute.Shorthand
import TemplateTags.Proofs.Attribute.Run

/-!
# Expanding a shorthand attribute by attribute

Attribute text is a sequence of attributes with white space before each.  A shorthand is
expanded in all its plain runs at once, and a run can reach over many attributes.  Still the
expansion can be followed from left to right, since what is done to an attribute depends on
that attribute and on nothing behind it.

* `replace_append`: a text is copied if no shorthand is found behind its white space;
* `replace_space`, `replace_found`: white space before something that is no shorthand, or
  is one;
* `expand_append`, `expand_append_value`: an attribute without a quoted value, or with one,
  in front of the attributes that follow.

What follows an attribute is `Spaced`: empty, or begun by white space.
-/

namespace TemplateTags

namespace Text

/-- The text is empty or starts with white space. -/
def Spaced (t : Text) : Prop := ∀ c ∈ t.head?, Character.isSpace c = true

variable {t u w : Text}

theorem spaced_nil : Spaced [] := by
  intro c hc
  simp at hc

theorem spaced_of_forall (h : ∀ c ∈ w, Character.isSpace c = true) : Spaced w := fun c hc =>
  h c (List.mem_of_mem_head? hc)

theorem Spaced.append (h : Spaced t) (hne : t ≠ []) (u : Text) : Spaced (t ++ u) := by
  cases t with
  | nil => exact absurd rfl hne
  | cons c t => exact h

/-- The start of a spaced text is spaced. -/
theorem Spaced.of_append (h : Spaced (t ++ u)) : Spaced t := by
  cases t with
  | nil => exact spaced_nil
  | cons c t => exact h

theorem Spaced.stops {p : Char → Bool} (h : Spaced t)
    (hp : ∀ c, Character.isSpace c = true → p c = false) : Stops p t := fun c hc =>
  hp c (h c hc)

theorem not_isQuote_of_isSpace (c : Char) (h : Character.isSpace c = true) :
    Character.isQuote c = false :=
  (by decide : ∀ d ∈ Character.blanks, Character.isQuote d = false) c
    (Character.isSpace_iff.1 h)

end Text

namespace Shorthand

open Attribute (Run)
open Attribute.Run (Unvalued)
open Text (Stops Spaced)

/-- The shorthand does not start with white space. -/
def Tight (s : Shorthand) : Prop :=
  ∀ c t, Character.isWhiteSpace c = true → s.find? (c :: t) = none

variable {s : Shorthand} {t u w y z p v : Text}

theorem find?_nil (s : Shorthand) : s.find? [] = none := by
  by_contra h
  obtain ⟨f, hf⟩ := Option.ne_none_iff_exists'.1 h
  obtain ⟨ht, hne⟩ := s.eq_of_find? hf
  exact hne (List.append_eq_nil_iff.1 ht.symm).1

theorem Tight.find?_of_spaced (hs : s.Tight) (h : Spaced t) : s.find? t = none := by
  cases t with
  | nil => exact s.find?_nil
  | cons c t => exact hs c t (Character.isWhiteSpace_of_isSpace (h c rfl))

/-! ## Behind white space -/

theorem replace_nil (s : Shorthand) : s.replace [] = [] := by
  unfold replace
  rfl

/-- One step of replacing. -/
theorem replace_cons (s : Shorthand) (c : Char) (t : Text) :
    s.replace (c :: t) =
      if Character.isWhiteSpace c then
        match s.find? (s.afterSpace t) with
        | some f => ' ' :: f.written ++ s.replace f.rest
        | none => c :: s.replace t
      else c :: s.replace t := by
  rw [replace.eq_def]
  show (if Character.isWhiteSpace c = true then _ else _) = _
  congr 1
  cases s.find? (s.afterSpace t) with
  | none => rfl
  | some f => rfl

theorem replace_cons_of_none {c : Char}
    (h : Character.isWhiteSpace c = true → s.find? (s.afterSpace t) = none) :
    s.replace (c :: t) = c :: s.replace t := by
  rw [replace_cons]
  split
  · next hc => rw [h hc]
  · rfl

theorem replace_cons_of_some {c : Char} {f : Found} (hc : Character.isWhiteSpace c = true)
    (h : s.find? (s.afterSpace t) = some f) :
    s.replace (c :: t) = ' ' :: f.written ++ s.replace f.rest := by
  rw [replace_cons, if_pos hc, h]

/-- A text is copied if no shorthand is found behind its white space. -/
theorem replace_append
    (h : ∀ a c b, y = a ++ c :: b → Character.isWhiteSpace c = true →
      s.find? (s.afterSpace (b ++ p)) = none) : s.replace (y ++ p) = y ++ s.replace p := by
  induction y with
  | nil => rfl
  | cons c y ih =>
    rw [List.cons_append, replace_cons_of_none (h [] c y rfl)]
    have hy := ih fun a d b hab => h (c :: a) d b (by rw [hab]; rfl)
    rw [hy]
    rfl

theorem replace_append_of_solid (h : ∀ c ∈ y, Character.isWhiteSpace c = false) (p : Text) :
    s.replace (y ++ p) = y ++ s.replace p := by
  refine replace_append fun a c b hab hc => ?_
  have hmem : c ∈ y := by
    rw [hab]
    simp
  rw [h c hmem] at hc
  cases hc

theorem afterSpace_append (hs : s.atBoundary = true)
    (hw : ∀ c ∈ w, Character.isSpace c = true) (hz : Stops Character.isWhiteSpace z) :
    s.afterSpace (w ++ z) = z := by
  rw [afterSpace, if_pos hs]
  exact Text.dropWhile_of_stops (fun c hc => Character.isWhiteSpace_of_isSpace (hw c hc)) hz

/-- White space before something that is no shorthand is copied. -/
theorem replace_space (hs : s.Tight) (hw : ∀ c ∈ w, Character.isSpace c = true)
    (hz : Stops Character.isWhiteSpace z) (hfind : s.find? z = none) :
    s.replace (w ++ z) = w ++ s.replace z := by
  refine replace_append fun a c b hab _ => ?_
  have hb : ∀ d ∈ b, Character.isSpace d = true := fun d hd => hw d (by rw [hab]; simp [hd])
  by_cases hbound : s.atBoundary = true
  · rw [afterSpace_append hbound hb hz]
    exact hfind
  · rw [afterSpace, if_neg hbound]
    cases b with
    | nil => exact hfind
    | cons d b =>
      exact hs d _ (Character.isWhiteSpace_of_isSpace (hb d (List.mem_cons_self ..)))

/-- What white space before a shorthand becomes. -/
def spaceBefore (s : Shorthand) (w : Text) : Text :=
  if s.atBoundary then [' '] else w.dropLast ++ [' ']

theorem spaceBefore_ne_nil (s : Shorthand) (w : Text) : s.spaceBefore w ≠ [] := by
  unfold spaceBefore
  split
  · simp
  · simp

theorem isSpace_of_mem_spaceBefore (hw : ∀ c ∈ w, Character.isSpace c = true) :
    ∀ c ∈ s.spaceBefore w, Character.isSpace c = true := by
  intro c hc
  unfold spaceBefore at hc
  split at hc
  · rw [List.mem_singleton.1 hc]
    rfl
  · rcases List.mem_append.1 hc with hc | hc
    · exact hw c (List.dropLast_subset w hc)
    · rw [List.mem_singleton.1 hc]
      rfl

/-- A shorthand behind white space is replaced. -/
theorem replace_found {f : Found} (hs : s.Tight) (hne : w ≠ [])
    (hw : ∀ c ∈ w, Character.isSpace c = true) (hz : Stops Character.isWhiteSpace z)
    (hfind : s.find? z = some f) :
    s.replace (w ++ z) = s.spaceBefore w ++ (f.written ++ s.replace f.rest) := by
  by_cases hbound : s.atBoundary = true
  · cases w with
    | nil => exact absurd rfl hne
    | cons c w =>
      have hc := Character.isWhiteSpace_of_isSpace (hw c (List.mem_cons_self ..))
      have hafter := afterSpace_append hbound (fun d hd => hw d (List.mem_cons_of_mem _ hd)) hz
      rw [List.cons_append, replace_cons_of_some hc (by rw [hafter]; exact hfind), spaceBefore,
        if_pos hbound]
      rfl
  · -- only the last character of the white space is replaced
    have hlast := List.dropLast_concat_getLast hne
    have hmem := hw _ (List.getLast_mem hne)
    have hc := Character.isWhiteSpace_of_isSpace hmem
    have hafter : s.find? (s.afterSpace z) = some f := by
      rw [afterSpace, if_neg hbound]
      exact hfind
    have hcopy : s.replace (w.dropLast ++ (w.getLast hne :: z)) =
        w.dropLast ++ s.replace (w.getLast hne :: z) := by
      refine replace_append fun a c b hab _ => ?_
      rw [afterSpace, if_neg hbound]
      cases b with
      | nil => exact hs _ _ hc
      | cons d b =>
        refine hs d _ (Character.isWhiteSpace_of_isSpace (hw d (List.dropLast_subset w ?_)))
        rw [hab]
        simp
    have hsplit : w ++ z = w.dropLast ++ (w.getLast hne :: z) := by
      rw [List.append_cons, hlast]
    rw [hsplit, hcopy, replace_cons_of_some hc hafter, spaceBefore, if_neg hbound]
    simp

/-! ## Attribute by attribute -/

theorem expandPlain_of_spaced (hs : s.Tight) (first : Bool) (h : Spaced t) :
    s.expandPlain first t = s.replace t := by
  have hstart : s.findStart? t = none := by
    unfold findStart?
    split
    · exact hs.find?_of_spaced h
    · rfl
  rw [expandPlain, hstart]

/-- In spaced text the first run is like the others. -/
theorem expand_of_spaced (hs : s.Tight) (h : Spaced t) :
    s.expand t = (Run.ofText t).flatMap (s.expandRun false) := by
  have hruns := Run.flatMap_content_ofText t
  unfold expand
  cases hr : Run.ofText t with
  | nil => rfl
  | cons r l =>
    rw [hr, List.flatMap_cons] at hruns
    rw [List.flatMap_cons]
    cases r with
    | quoted c => rfl
    | plain c =>
      have hc : Spaced c := Spaced.of_append (by rw [← hruns] at h; exact h)
      show s.expandPlain true c ++ _ = s.expandPlain false c ++ _
      rw [expandPlain_of_spaced hs true hc, expandPlain_of_spaced hs false hc]

/-- Expanding keeps white space in front. -/
theorem spaced_expand (hs : s.Tight) (h : Spaced t) : Spaced (s.expand t) := by
  cases t with
  | nil =>
    rw [expand, Run.ofText_of_toQuote?_none rfl]
    exact Text.spaced_nil
  | cons c t =>
    obtain ⟨b, l, hruns⟩ := Run.exists_ofText_cons c t
    rw [expand, hruns]
    show Spaced (s.expandPlain true (c :: b) ++ _)
    rw [expandPlain_of_spaced hs true (t := c :: b) h, replace_cons]
    split
    · split
      · exact fun d hd => by cases hd; rfl
      · exact h
    · exact h

/-- An attribute without a quoted value, in front of others. -/
theorem expand_append {y' : Text} (hs : s.Tight) (hne : y ≠ []) (hy : Spaced y)
    (hval : Unvalued y) (hu : Spaced u)
    (h : ∀ p, Spaced p → s.replace (y ++ p) = y' ++ s.replace p) :
    s.expand (y ++ u) = y' ++ s.expand u := by
  have halone : s.expandPlain false y = y' := by
    have hnil := h [] Text.spaced_nil
    rw [expandPlain_of_spaced hs _ hy]
    rw [List.append_nil, replace_nil, List.append_nil] at hnil
    exact hnil
  have hruns := Run.flatMap_content_ofText u
  rw [expand_of_spaced hs (hy.append hne u), expand_of_spaced hs hu,
    Run.ofText_append hval (hu.stops Text.not_isQuote_of_isSpace)]
  cases hr : Run.ofText u with
  | nil =>
    show (if y = [] then [] else [Run.plain y]).flatMap (s.expandRun false) = y' ++ []
    rw [if_neg hne, List.flatMap_cons, List.flatMap_nil]
    show s.expandPlain false y ++ [] = y' ++ []
    rw [halone]
  | cons r l =>
    cases r with
    | quoted c =>
      show (if y = [] then .quoted c :: l else Run.plain y :: .quoted c :: l).flatMap
        (s.expandRun false) = _
      rw [if_neg hne, List.flatMap_cons]
      show s.expandPlain false y ++ _ = _
      rw [halone]
    | plain c =>
      rw [hr, List.flatMap_cons] at hruns
      have hc : Spaced c := Spaced.of_append (by rw [← hruns] at hu; exact hu)
      rw [Run.consPlain, List.flatMap_cons, List.flatMap_cons]
      show s.expandPlain false (y ++ c) ++ _ = y' ++ (s.expandPlain false c ++ _)
      rw [expandPlain_of_spaced hs _ (hy.append hne c), expandPlain_of_spaced hs _ hc, h c hc,
        List.append_assoc]

/-- An attribute with a quoted value, in front of others. -/
theorem expand_append_value {q : Char} (hs : s.Tight) (hne : y ≠ []) (hy : Spaced y)
    (hval : Unvalued y) (hq : Character.isQuote q = true) (hv : q ∉ v) (hu : Spaced u) :
    s.expand (y ++ ['='] ++ (q :: v ++ [q]) ++ u) =
      s.replace (y ++ ['=']) ++ (q :: v ++ [q]) ++ s.expand u := by
  have hall : Spaced (y ++ ['='] ++ (q :: v ++ [q]) ++ u) := by
    rw [List.append_assoc, List.append_assoc]
    exact hy.append hne _
  rw [expand_of_spaced hs hall, expand_of_spaced hs hu, Run.ofText_append_value hval hq hv,
    List.flatMap_cons, List.flatMap_cons]
  show s.expandPlain false (y ++ ['=']) ++ ((q :: v ++ [q]) ++ _) = _
  rw [expandPlain_of_spaced hs _ (hy.append hne _), ← List.append_assoc]

end Shorthand
end TemplateTags
