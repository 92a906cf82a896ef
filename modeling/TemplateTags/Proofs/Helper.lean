import TemplateTags.Helper
import TemplateTags.Proofs.Group

/-!
# Reading helper calls

A helper call is a mark with a group directly behind it.  It is read whole whatever follows
(`call?_append`), and none is found where a name stands that no parenthesis follows
(`call?_eq_none`): the mark of a call consists of name characters, so that name would have
to be the mark itself.
-/

namespace TemplateTags
namespace Helper

open Text (strip? strip?_eq_some_iff Stops)

theorem isAttributeName_of_mem_mark (h : Helper) :
    ∀ c ∈ h.mark, Character.isAttributeName c = true := by
  cases h <;> decide

theorem argumentsOf?_append (h : Helper) {g : Text} (hg : Group.IsGroup g) (r : Text) :
    h.argumentsOf? (h.mark ++ g ++ r) = some (g, r) := by
  rw [List.append_assoc]
  simp only [argumentsOf?, Text.strip?_append, Option.bind_eq_bind, Option.bind_some]
  exact Group.take?_append hg r

/-- A helper call is read whole, whatever follows it. -/
theorem call?_append (h : Helper) {g : Text} (hg : Group.IsGroup g) (r : Text) :
    call? (h.mark ++ g ++ r) = some (h, g, r) := by
  cases h with
  | cssClass =>
    rw [call?, argumentsOf?_append .cssClass hg]
    rfl
  | cssStyle =>
    have hne : argumentsOf? .cssClass (mark .cssStyle ++ g ++ r) = none := rfl
    rw [call?, hne, argumentsOf?_append .cssStyle hg]
    rfl

/-- What a call holds behind its mark is a group. -/
theorem isGroup_of_call? {h : Helper} {t g r : Text} (e : call? t = some (h, g, r)) :
    Group.IsGroup g := by
  have of_arguments : ∀ k : Helper, k.argumentsOf? t = some (g, r) → Group.IsGroup g := by
    intro k hk
    simp only [argumentsOf?, Option.bind_eq_bind, Option.bind_eq_some_iff] at hk
    obtain ⟨u, _, hu⟩ := hk
    exact Group.isGroup_of_take? hu
  rcases Option.or_eq_some_iff.1 e with e | ⟨_, e⟩
  · obtain ⟨s, hs, e⟩ := Option.map_eq_some_iff.1 e
    cases e
    exact of_arguments _ hs
  · obtain ⟨s, hs, e⟩ := Option.map_eq_some_iff.1 e
    cases e
    exact of_arguments _ hs

/-- A name that no parenthesis follows is not the start of a call. -/
theorem call?_eq_none {n r : Text} (hn : ∀ c ∈ n, Character.isAttributeName c = true)
    (hr : Stops Character.isAttributeName r) (hp : r.head? ≠ some '(') :
    call? (n ++ r) = none := by
  by_contra hne
  obtain ⟨⟨h, g, u⟩, e⟩ := Option.ne_none_iff_exists'.1 hne
  obtain ⟨a, -, rfl⟩ := isGroup_of_call? e
  have he : n ++ r = h.mark ++ ('(' :: a ++ [')'] ++ u) := by
    rw [eq_of_call? e, List.append_assoc]
  obtain ⟨-, rfl⟩ := Text.eq_of_stops he hn hr (isAttributeName_of_mem_mark h)
    (Text.stops_cons.2 (by decide))
  exact hp rfl

end Helper
end TemplateTags
