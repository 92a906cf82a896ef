import TemplateTags.Attribute.Basic
import TemplateTags.Attribute.Shorthand
import TemplateTags.Helper
import TemplateTags.Text.Word

/-!
# Expanding attribute text

Attribute text is brought into a form with just two ways to give a value, `name=value`
for literal text and `bind:name=value` for an expression.  Four shorthands are expanded
on the way, in this order:

1. a short binding `:$name` becomes `:name="$name"`;
2. an echo of the attribute bag becomes a binding of `attributes`;
3. a helper call becomes a binding of `class` or `style` to a call of a host function;
4. a binding `:name=` becomes `bind:name=`, unless a second colon escapes it.

The first three write bindings with a plain colon, which the last one picks up.
-/

namespace TemplateTags
namespace Attribute

open Text (strip? strip?_eq_some_iff)

/-- The text that binds an expression to a name. -/
def binding (name expr : Text) : Text := ':' :: name ++ ['=', '"'] ++ expr ++ ['"']

/-! ## Short bindings -/

/-- Finds `:$name`. -/
def findShortBinding? (t : Text) : Option Shorthand.Found := do
  let r ← strip? [':', '$'] t
  let name := r.takeWhile Character.isWordUnicode
  if name = [] then none
  else return ⟨':' :: '$' :: name, binding name ('$' :: name),
    r.dropWhile Character.isWordUnicode⟩

theorem eq_of_findShortBinding? {t : Text} {f : Shorthand.Found}
    (h : findShortBinding? t = some f) : t = f.taken ++ f.rest ∧ f.taken ≠ [] := by
  simp only [findShortBinding?, Option.bind_eq_bind, Option.bind_eq_some_iff, Option.pure_def,
    Option.ite_none_left_eq_some, Option.some.injEq] at h
  obtain ⟨u, hu, _, rfl⟩ := h
  refine ⟨?_, List.cons_ne_nil _ _⟩
  rw [strip?_eq_some_iff.1 hu]
  simp [List.takeWhile_append_dropWhile]

/-- The short binding of a variable to the name that it has. -/
def shortBinding : Shorthand := ⟨findShortBinding?, false, eq_of_findShortBinding?⟩

/-! ## The attribute bag -/

/-- Finds an echo of the attribute bag.  The expression is written without the white space
at its end. -/
def findBagEcho? (t : Text) : Option Shorthand.Found := do
  let r ← strip? ['{', '{'] t
  let b ← strip? bagVariable (r.dropWhile Character.isWhiteSpace)
  if b.head?.any Character.isWordUnicode then none
  else
    let rest ← strip? ['}', '}'] (b.dropWhile (· != '}'))
    return ⟨['{', '{'] ++ r.takeWhile Character.isWhiteSpace ++ bagVariable ++
        b.takeWhile (· != '}') ++ ['}', '}'],
      binding bagName (bagVariable ++ Text.trimEnd (b.takeWhile (· != '}'))), rest⟩

theorem eq_of_findBagEcho? {t : Text} {f : Shorthand.Found} (h : findBagEcho? t = some f) :
    t = f.taken ++ f.rest ∧ f.taken ≠ [] := by
  simp only [findBagEcho?, Option.bind_eq_bind, Option.bind_eq_some_iff, Option.pure_def,
    Option.ite_none_left_eq_some, Option.some.injEq] at h
  obtain ⟨u, hu, b, hb, _, s, hs, rfl⟩ := h
  refine ⟨?_, by simp⟩
  have hd : u = u.takeWhile Character.isWhiteSpace ++ (bagVariable ++ b) := by
    rw [← strip?_eq_some_iff.1 hb, List.takeWhile_append_dropWhile]
  have he : b = b.takeWhile (· != '}') ++ (['}', '}'] ++ s) := by
    rw [← strip?_eq_some_iff.1 hs, List.takeWhile_append_dropWhile]
  rw [strip?_eq_some_iff.1 hu]
  simp only [List.append_assoc]
  rw [← he, ← hd]

/-- The echo that forwards the attribute bag. -/
def bagEcho : Shorthand := ⟨findBagEcho?, true, eq_of_findBagEcho?⟩

/-! ## Bindings -/

/-- Finds `:name=`, where the name does not start with another colon. -/
def findColonBinding? (t : Text) : Option Shorthand.Found := do
  let r ← strip? [':'] t
  let name := r.takeWhile Character.isAttributeNameUnicode
  if name = [] ∨ name.head? = some ':' then none
  else
    let rest ← strip? ['='] (r.dropWhile Character.isAttributeNameUnicode)
    return ⟨':' :: name ++ ['='], bindMark ++ name ++ ['='], rest⟩

theorem eq_of_findColonBinding? {t : Text} {f : Shorthand.Found}
    (h : findColonBinding? t = some f) : t = f.taken ++ f.rest ∧ f.taken ≠ [] := by
  simp only [findColonBinding?, Option.bind_eq_bind, Option.bind_eq_some_iff, Option.pure_def,
    Option.ite_none_left_eq_some, Option.some.injEq] at h
  obtain ⟨u, hu, _, s, hs, rfl⟩ := h
  refine ⟨?_, by simp⟩
  have hd : u = u.takeWhile Character.isAttributeNameUnicode ++ (['='] ++ s) := by
    rw [← strip?_eq_some_iff.1 hs, List.takeWhile_append_dropWhile]
  rw [strip?_eq_some_iff.1 hu]
  exact congrArg (':' :: ·) (hd.trans (by simp))

/-- The binding with a plain colon. -/
def colonBinding : Shorthand := ⟨findColonBinding?, true, eq_of_findColonBinding?⟩

/-! ## Helper calls -/

/-- The text with single quotes for double quotes, fit to stand between double quotes. -/
def singleQuoted (t : Text) : Text := t.map fun c => if c = '"' then '\'' else c

/-- Expands helper calls into bindings to calls of the given host functions.  Quoted values
are copied. -/
def expandHelpers (callee : Helper → Text) : Text → Text
  | [] => []
  | c :: t =>
    match _ : Helper.call? (c :: t) with
    | some (h, args, r) =>
      binding h.name (callee h ++ singleQuoted args) ++ expandHelpers callee r
    | none =>
      match t with
      | [] => [c]
      | q :: r =>
        if c = '=' && Character.isQuote q then
          c :: (Run.value q r).1 ++ expandHelpers callee (Run.value q r).2
        else c :: expandHelpers callee (q :: r)
termination_by t => t.length
decreasing_by
  · rename_i e
    have hl := congrArg List.length (Helper.eq_of_call? e)
    simp only [Helper.mark, List.length_append, List.length_cons] at hl ⊢
    omega
  · have hv := Run.length_value_le q r
    simp only [List.length_cons]
    omega
  · simp

/-! ## All of them -/

/-- Expands all shorthands of attribute text, helper calls into calls of the given host
functions. -/
def expand (callee : Helper → Text) (t : Text) : Text :=
  colonBinding.expand (expandHelpers callee (bagEcho.expand (shortBinding.expand t)))

end Attribute
end TemplateTags
