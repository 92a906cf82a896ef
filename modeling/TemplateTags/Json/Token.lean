import TemplateTags.Json.Quoted

/-!
# Tokens of JSON

A JSON text is a sequence of tokens with blanks, tabs, line feeds and carriage returns
between them: six signs, string literals, numbers and the three words `true`, `false`
and `null`.  `Token.ofText?` reads the tokens of a whole text and fails if some part of
it is none.
-/

namespace TemplateTags
namespace Json

/-- A token of a JSON text. -/
inductive Token where
  | openArray
  | closeArray
  | openObject
  | closeObject
  | comma
  | colon
  /-- A string literal, as the text that it denotes, if it denotes any. -/
  | string (text : Option Text)
  | number (literal : Text)
  | bool (b : Bool)
  | null
deriving DecidableEq, Repr

namespace Token

open Text (strip? strip?_eq_some_iff)

/-- The characters that may stand between tokens. -/
def isBlank (c : Char) : Bool := c = ' ' || c = '\t' || c = '\n' || c = '\r'

/-! ## Numbers -/

/-- One or more digits. -/
def digits? (t : Text) : Option (Text × Text) :=
  if t.takeWhile Char.isDigit = [] then none
  else some (t.takeWhile Char.isDigit, t.dropWhile Char.isDigit)

/-- The whole part of a number: a zero, or digits that do not start with one. -/
def whole? : Text → Option (Text × Text)
  | '0' :: t => some (['0'], t)
  | t => digits? t

/-- The fraction of a number, empty if there is none. -/
def fraction : Text → Text × Text
  | '.' :: t =>
    match digits? t with
    | some s => ('.' :: s.1, s.2)
    | none => ([], '.' :: t)
  | t => ([], t)

/-- An optional sign. -/
def sign : Text → Text × Text
  | '+' :: t => (['+'], t)
  | '-' :: t => (['-'], t)
  | t => ([], t)

/-- The exponent of a number, empty if there is none. -/
def exponent : Text → Text × Text
  | [] => ([], [])
  | c :: t =>
    if c = 'e' || c = 'E' then
      match digits? (sign t).2 with
      | some s => (c :: (sign t).1 ++ s.1, s.2)
      | none => ([], c :: t)
    else ([], c :: t)

/-- An unsigned number. -/
def magnitude? (t : Text) : Option (Text × Text) := do
  let w ← whole? t
  let f := fraction w.2
  let e := exponent f.2
  return (w.1 ++ f.1 ++ e.1, e.2)

/-- A number. -/
def number? : Text → Option (Text × Text)
  | '-' :: t => (magnitude? t).map fun s => ('-' :: s.1, s.2)
  | t => magnitude? t

/-! ## Tokens -/

/-- A word or a number. -/
def word? (t : Text) : Option (Token × Text) :=
  (((strip? "true".toList t).map fun r => (.bool true, r)).or
    ((strip? "false".toList t).map fun r => (.bool false, r))).or
    (((strip? "null".toList t).map fun r => (.null, r)).or
      ((number? t).map fun s => (.number s.1, s.2)))

/-- The token at the start of a text. -/
def next? : Text → Option (Token × Text)
  | '[' :: t => some (.openArray, t)
  | ']' :: t => some (.closeArray, t)
  | '{' :: t => some (.openObject, t)
  | '}' :: t => some (.closeObject, t)
  | ',' :: t => some (.comma, t)
  | ':' :: t => some (.colon, t)
  | '"' :: t => (Quoted.marks? t).map fun s => (.string (Quoted.decode? s.1), s.2)
  | t => word? t

/-! ### A token takes at least one character -/

theorem length_lt_of_digits? {t a r : Text} (h : digits? t = some (a, r)) :
    r.length < t.length := by
  unfold digits? at h
  split at h
  · simp at h
  · next hne =>
    cases h
    have hp := List.length_pos_iff.2 hne
    have ht := congrArg List.length (List.takeWhile_append_dropWhile (p := Char.isDigit) (l := t))
    rw [List.length_append] at ht
    omega

theorem length_lt_of_whole? {t a r : Text} (h : whole? t = some (a, r)) :
    r.length < t.length := by
  unfold whole? at h
  split at h
  · cases h
    simp
  · exact length_lt_of_digits? h

theorem length_fraction_le (t : Text) : (fraction t).2.length ≤ t.length := by
  unfold fraction
  split
  · split
    · next s hs =>
      have := length_lt_of_digits? hs
      simp only [List.length_cons]
      omega
    · exact Nat.le_refl _
  · exact Nat.le_refl _

theorem length_sign_le (t : Text) : (sign t).2.length ≤ t.length := by
  unfold sign
  split
  · simp
  · simp
  · exact Nat.le_refl _

theorem length_exponent_le (t : Text) : (exponent t).2.length ≤ t.length := by
  unfold exponent
  split
  · exact Nat.le_refl _
  · split
    · split
      · next t _ _ s hs =>
        have := length_lt_of_digits? hs
        have := length_sign_le t
        simp only [List.length_cons]
        omega
      · exact Nat.le_refl _
    · exact Nat.le_refl _

theorem length_lt_of_magnitude? {t a r : Text} (h : magnitude? t = some (a, r)) :
    r.length < t.length := by
  simp only [magnitude?, Option.bind_eq_bind, Option.bind_eq_some_iff, Option.pure_def,
    Option.some.injEq, Prod.mk.injEq] at h
  obtain ⟨w, hw, _, rfl⟩ := h
  have := length_lt_of_whole? hw
  have := length_fraction_le w.2
  have := length_exponent_le (fraction w.2).2
  omega

theorem length_lt_of_number? {t a r : Text} (h : number? t = some (a, r)) :
    r.length < t.length := by
  unfold number? at h
  split at h
  · obtain ⟨s, hs, e⟩ := Option.map_eq_some_iff.1 h
    cases e
    have := length_lt_of_magnitude? hs
    simp only [List.length_cons]
    omega
  · exact length_lt_of_magnitude? h

theorem length_lt_of_strip? {p t r : Text} (hp : p ≠ []) (h : strip? p t = some r) :
    r.length < t.length := by
  rw [strip?_eq_some_iff.1 h, List.length_append]
  have := List.length_pos_iff.2 hp
  omega

theorem length_lt_of_word? {t r : Text} {k : Token} (h : word? t = some (k, r)) :
    r.length < t.length := by
  rcases Option.or_eq_some_iff.1 h with h | ⟨_, h⟩
  · rcases Option.or_eq_some_iff.1 h with h | ⟨_, h⟩
    · obtain ⟨s, hs, e⟩ := Option.map_eq_some_iff.1 h
      cases e
      exact length_lt_of_strip? (by simp) hs
    · obtain ⟨s, hs, e⟩ := Option.map_eq_some_iff.1 h
      cases e
      exact length_lt_of_strip? (by simp) hs
  · rcases Option.or_eq_some_iff.1 h with h | ⟨_, h⟩
    · obtain ⟨s, hs, e⟩ := Option.map_eq_some_iff.1 h
      cases e
      exact length_lt_of_strip? (by simp) hs
    · obtain ⟨s, hs, e⟩ := Option.map_eq_some_iff.1 h
      cases e
      exact length_lt_of_number? hs

theorem length_lt_of_next? {t r : Text} {k : Token} (h : next? t = some (k, r)) :
    r.length < t.length := by
  unfold next? at h
  split at h
  case h_7 =>
    obtain ⟨s, hs, e⟩ := Option.map_eq_some_iff.1 h
    cases e
    exact Nat.lt_succ_of_lt (Quoted.length_lt_of_marks? hs)
  case h_8 => exact length_lt_of_word? h
  all_goals
    cases h
    exact Nat.lt_succ_self _

/-- The tokens of a whole text. -/
def ofText? (t : Text) : Option (List Token) :=
  if t.dropWhile isBlank = [] then some []
  else
    match _ : next? (t.dropWhile isBlank) with
    | none => none
    | some (k, r) => (ofText? r).map (k :: ·)
termination_by t.length
decreasing_by
  rename_i h
  have hl := length_lt_of_next? h
  have hd := (List.dropWhile_suffix isBlank (l := t)).length_le
  omega

end Token
end Json
end TemplateTags
