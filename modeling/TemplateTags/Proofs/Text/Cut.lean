import Mathlib.Data.List.Infix
import TemplateTags.Text.Basic

/-!
# Cutting a text at a mark

`Text.cut?` finds the first place at which a given text occurs.  It finds none exactly if
the text does not occur (`cut?_eq_none_iff`), and it stops at a given occurrence if the
mark cannot start any earlier (`cut?_append_of_not_infix`), for which it is enough that its
first character does not (`cut?_append_of_notMem`).  Characters that the mark does not have
separate the places where it can occur (`infix_or_infix_of_separated`).
-/

namespace TemplateTags
namespace Text

theorem startsWith_iff {p t : Text} : startsWith p t = true ↔ p <+: t := by
  rw [startsWith, Option.isSome_iff_exists]
  constructor
  · rintro ⟨r, hr⟩
    exact ⟨r, (strip?_eq_some_iff.1 hr).symm⟩
  · rintro ⟨r, hr⟩
    exact ⟨r, strip?_eq_some_iff.2 hr.symm⟩

/-- There is no cut exactly if the mark does not occur. -/
theorem cut?_eq_none_iff {p t : Text} : cut? p t = none ↔ ¬ p <:+: t := by
  induction t with
  | nil =>
    rw [cut?, Option.map_eq_none_iff, ← Option.not_isSome_iff_eq_none, List.infix_nil,
      ← List.prefix_nil]
    exact not_congr startsWith_iff
  | cons c t ih =>
    rw [List.infix_cons_iff, not_or, ← ih, ← startsWith_iff, cut?, startsWith]
    cases strip? p (c :: t) with
    | some r => simp
    | none => simp

theorem hasInfix_iff {p t : Text} : hasInfix p t = true ↔ p <:+: t := by
  rw [hasInfix, Option.isSome_iff_ne_none, ne_eq, cut?_eq_none_iff, not_not]

/-- A mark is found behind a text without its first character. -/
theorem cut?_append_of_notMem {c : Char} {a : Text} (h : c ∉ a) (p r : Text) :
    cut? (c :: p) (a ++ (c :: p) ++ r) = some (a, r) := by
  induction a with
  | nil =>
    have hstrip : strip? (c :: p) (c :: (p ++ r)) = some r := strip?_eq_some_iff.2 rfl
    rw [List.nil_append, List.cons_append, cut?, hstrip]
  | cons d a ih =>
    obtain ⟨hcd, ha⟩ := not_or.1 (mt List.mem_cons.2 h)
    rw [List.cons_append, List.cons_append, cut?, strip?, if_neg hcd, ih ha]
    rfl

/-- A mark is found behind a text in which it does not start earlier. -/
theorem cut?_append_of_not_infix {p a : Text} (h : ¬ p <:+: a ++ p.dropLast) (r : Text) :
    cut? p (a ++ p ++ r) = some (a, r) := by
  induction a with
  | nil =>
    cases p with
    | nil => exact absurd List.nil_infix h
    | cons c p => exact cut?_append_of_notMem List.not_mem_nil p r
  | cons d a ih =>
    rw [List.cons_append, List.infix_cons_iff, not_or] at h
    have hstrip : strip? p (d :: (a ++ p ++ r)) = none := by
      rw [← Option.not_isSome_iff_eq_none, ← startsWith, startsWith_iff]
      intro hp
      -- what is stripped would end before the last character of the given occurrence
      have hbefore : d :: (a ++ p.dropLast) <+: d :: (a ++ p ++ r) := by
        refine (List.prefix_cons_inj d).2 ?_
        rw [List.append_assoc, List.prefix_append_right_inj]
        exact (List.dropLast_prefix p).trans (List.prefix_append p r)
      refine h.1 (List.prefix_of_prefix_length_le hp hbefore ?_)
      rw [List.length_cons, List.length_append, List.length_dropLast]
      omega
    rw [List.cons_append, List.cons_append, cut?, hstrip, ih h.2]
    rfl

theorem infix_or_infix_of_notMem {p x y : Text} {c : Char} (hc : c ∉ p)
    (h : p <:+: x ++ c :: y) : p <:+: x ∨ p <:+: y := by
  rcases List.infix_append_iff.1 h with h | h | ⟨a, b, rfl, ha, hb⟩
  · exact Or.inl h
  · rcases List.infix_cons_iff.1 h with h | h
    · cases p with
      | nil => exact Or.inl List.nil_infix
      | cons d p =>
        rw [(List.cons_prefix_cons.1 h).1] at hc
        exact absurd (List.mem_cons_self ..) hc
    · exact Or.inr h
  · cases b with
    | nil =>
      rw [List.append_nil]
      exact Or.inl ha.isInfix
    | cons d b =>
      rw [(List.cons_prefix_cons.1 hb).1] at hc
      exact absurd (List.mem_append_right _ (List.mem_cons_self ..)) hc

/-- A mark does not reach over characters that it does not have. -/
theorem infix_or_infix_of_separated {p w x y : Text} (hne : w ≠ []) (hw : ∀ c ∈ w, c ∉ p)
    (h : p <:+: x ++ (w ++ y)) : p <:+: x ∨ p <:+: y := by
  induction w generalizing x with
  | nil => exact absurd rfl hne
  | cons c w ih =>
    refine (infix_or_infix_of_notMem (hw c (List.mem_cons_self ..)) h).imp_right fun h => ?_
    cases w with
    | nil => exact h
    | cons d w =>
      rcases ih (x := []) (List.cons_ne_nil _ _) (fun e he => hw e (List.mem_cons_of_mem _ he)) h
        with h | h
      · rw [List.infix_nil.1 h]
        exact List.nil_infix
      · exact h

end Text
end TemplateTags
