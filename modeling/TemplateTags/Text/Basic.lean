/-!
# Texts

A text is the list of its characters.  Everything the library reads or writes is
one: templates, attribute text, names, directives, configuration documents.  The
list view is what the recognisers need, since each of them looks at the first
characters, takes some, and hands the remaining list to the next.

The module holds the cutting operations that are shared by all of them:

* `Text.strip? p t` is what follows `p` at the start of `t`;
* `Text.cut? p t` is the pair of texts before and after the first `p` in `t`;
* `Text.after p t` is what follows the first `p`, or all of `t` without one;
* `Text.trimEndBy` and `Text.trimBy` drop a class of characters from the ends;
* `Text.byteSize` is the length of the UTF-8 form, in which offsets are counted,
  and `Text.splitBytes?` cuts at such an offset.
-/

namespace TemplateTags

/-- A text, as the list of its characters. -/
abbrev Text := List Char

namespace Text

/-- What follows `p`, if the text starts with `p`. -/
def strip? : (p t : Text) → Option Text
  | [], t => some t
  | _ :: _, [] => none
  | a :: p, c :: t => if a = c then strip? p t else none

/-- A text starts with `p` exactly when it is `p` followed by what `strip?` gives. -/
theorem strip?_eq_some_iff {p t r : Text} : strip? p t = some r ↔ t = p ++ r := by
  induction p generalizing t with
  | nil => simp [strip?]
  | cons a p ih =>
    cases t with
    | nil => simp [strip?]
    | cons c t =>
      by_cases h : a = c
      · simp [strip?, h, ih]
      · simp only [strip?, if_neg h, List.cons_append, List.cons.injEq]
        exact ⟨(nomatch ·), fun e => absurd e.1.symm h⟩

/-- Whether the text starts with `p`. -/
def startsWith (p t : Text) : Bool := (strip? p t).isSome

/-- The texts before and after the first occurrence of `p`. -/
def cut? (p : Text) : Text → Option (Text × Text)
  | [] => (strip? p []).map fun r => ([], r)
  | c :: t =>
    match strip? p (c :: t) with
    | some r => some ([], r)
    | none => (cut? p t).map fun s => (c :: s.1, s.2)

/-- The two parts of a cut and the text between them make up the whole. -/
theorem eq_of_cut? {p t a r : Text} (h : cut? p t = some (a, r)) : t = a ++ p ++ r := by
  induction t generalizing a r with
  | nil =>
    obtain ⟨s, hs, e⟩ := Option.map_eq_some_iff.1 h
    cases e
    simpa using strip?_eq_some_iff.1 hs
  | cons c t ih =>
    unfold cut? at h
    split at h
    · next s hs =>
      cases h
      simpa using strip?_eq_some_iff.1 hs
    · obtain ⟨s, hs, e⟩ := Option.map_eq_some_iff.1 h
      cases e
      simp [ih hs]

/-- Whether `p` occurs in the text. -/
def hasInfix (p t : Text) : Bool := (cut? p t).isSome

/-- What follows the first occurrence of `p`; the whole text if `p` is empty or
does not occur. -/
def after (p t : Text) : Text :=
  if p = [] then t
  else
    match cut? p t with
    | some s => s.2
    | none => t

/-- The text without the longest run at its end of characters in a class. -/
def trimEndBy (p : Char → Bool) (t : Text) : Text := (t.reverse.dropWhile p).reverse

/-- The text without the runs at its two ends of characters in a class. -/
def trimBy (p : Char → Bool) (t : Text) : Text := trimEndBy p (t.dropWhile p)

/-- The number of bytes of the UTF-8 form of the text. -/
def byteSize : Text → Nat
  | [] => 0
  | c :: t => c.utf8Size + byteSize t

@[simp] theorem byteSize_nil : byteSize [] = 0 := rfl

@[simp] theorem byteSize_cons (c : Char) (t : Text) :
    byteSize (c :: t) = c.utf8Size + byteSize t := rfl

@[simp] theorem byteSize_append (s t : Text) :
    byteSize (s ++ t) = byteSize s + byteSize t := by
  induction s with
  | nil => rw [List.nil_append, byteSize_nil, Nat.zero_add]
  | cons c s ih => rw [List.cons_append, byteSize_cons, byteSize_cons, ih, Nat.add_assoc]

/-- The two parts of the text on either side of byte `n` of its UTF-8 form.  There
are none if `n` lies inside a character or past the end. -/
def splitBytes? : Nat → Text → Option (Text × Text)
  | 0, t => some ([], t)
  | _ + 1, [] => none
  | n + 1, c :: t =>
    if c.utf8Size ≤ n + 1 then
      (splitBytes? (n + 1 - c.utf8Size) t).map fun s => (c :: s.1, s.2)
    else none

/-- The part of the text from byte `a` up to byte `b`.  There is none if `b` lies
before `a`, or if an end lies inside a character or past the end. -/
def slice? (t : Text) (a b : Nat) : Option Text :=
  if a ≤ b then
    match splitBytes? a t with
    | some s => (splitBytes? (b - a) s.2).map Prod.fst
    | none => none
  else none

/-- The decimal digits of a number. -/
def ofNat (n : Nat) : Text := Nat.toDigits 10 n

/-- The texts of a list with a comma between neighbours. -/
def commaSeparated (ts : List Text) : Text := List.intercalate [','] ts

end Text
end TemplateTags
