import TemplateTags.Text.Basic
import TemplateTags.Text.Character

/-!
# Quoted runs of attribute text

In attribute text a quoted value stands directly behind an equals sign and reaches up to
the next equal quote, or to the end of the text if there is none.  What stands in such a
value is not to be touched when shorthands are expanded.  `Run.ofText` cuts attribute
text into the quoted values and the plain runs between them; a plain run before a value
ends with the equals sign.
-/

namespace TemplateTags
namespace Attribute

/-- A part of attribute text. -/
inductive Run where
  /-- Text outside quoted values. -/
  | plain (content : Text)
  /-- A quoted value with its quotes. -/
  | quoted (content : Text)
deriving DecidableEq, Repr

namespace Run

/-- The text of a run. -/
def content : Run → Text
  | .plain t => t
  | .quoted t => t

/-- The quoted value that starts with the quote `q`, given the text behind that quote,
and what follows the value. -/
def value (q : Char) (t : Text) : Text × Text :=
  match t.dropWhile (· != q) with
  | [] => (q :: t, [])
  | _ :: r => (q :: t.takeWhile (· != q) ++ [q], r)

/-- The first quoted value of a text: the text through the equals sign before it, its
quote, and the text behind that quote. -/
def toQuote? : Text → Option (Text × Char × Text)
  | [] => none
  | [_] => none
  | c :: q :: t =>
    if c = '=' && Character.isQuote q then some ([c], q, t)
    else (toQuote? (q :: t)).map fun s => (c :: s.1, s.2)

theorem value_eq (q : Char) (t : Text) : (value q t).1 ++ (value q t).2 = q :: t := by
  unfold value
  split
  · simp
  · next c r h =>
    have hc : c = q := by
      have := List.head?_dropWhile_not (fun x => x != q) t
      rw [h] at this
      simpa using this
    calc (q :: t.takeWhile (· != q) ++ [q]) ++ r
        = q :: (t.takeWhile (· != q) ++ c :: r) := by simp [hc]
      _ = q :: t := by rw [← h, List.takeWhile_append_dropWhile]

theorem length_value_le (q : Char) (t : Text) : (value q t).2.length ≤ t.length := by
  have h := congrArg List.length (value_eq q t)
  have hp : 0 < (value q t).1.length := by
    unfold value
    split
    · simp
    · simp
  rw [List.length_append, List.length_cons] at h
  omega

/-- The text before a value, its quote and the text behind the quote make up the text. -/
theorem eq_of_toQuote? {t b r : Text} {q : Char} (h : toQuote? t = some (b, q, r)) :
    t = b ++ q :: r := by
  fun_induction toQuote? t generalizing b q r with
  | case1 => simp at h
  | case2 => simp at h
  | case3 => cases h; rfl
  | case4 c p t _ ih =>
    obtain ⟨⟨_, _, _⟩, hs, e⟩ := Option.map_eq_some_iff.1 h
    cases e
    rw [ih hs]
    rfl

/-- The runs of attribute text. -/
def ofText (t : Text) : List Run :=
  match _ : toQuote? t with
  | none => if t = [] then [] else [.plain t]
  | some (b, q, r) => .plain b :: .quoted (value q r).1 :: ofText (value q r).2
termination_by t.length
decreasing_by
  rename_i h
  have hl := congrArg List.length (eq_of_toQuote? h)
  have hv := length_value_le q r
  rw [List.length_append, List.length_cons] at hl
  omega

end Run
end Attribute
end TemplateTags
