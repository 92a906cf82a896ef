import TemplateTags.Text.Basic

/-!
# String literals of JSON

A string literal stands between double quotes.  In writing, the double quote, the
backslash and the control characters below the blank are escaped and everything else
is written as it is.  In reading, any character can be escaped, and a character beyond
the first 65536 may be escaped as a pair of surrogates.

Reading has two steps.  `Quoted.marks?` reads the literal into marks, each a character
or an escaped code unit, up to the closing quote; this step decides whether there is a
literal at all.  `Quoted.decode?` then joins the surrogate pairs; it fails on the half
of one.
-/

namespace TemplateTags
namespace Json
namespace Quoted

/-- What one escape sequence or one plain character of a literal stands for. -/
inductive Mark where
  | char (c : Char)
  /-- A code unit of the UTF-16 form. -/
  | unit (n : Nat)
deriving DecidableEq, Repr

/-- The value of a hexadecimal digit in either case. -/
def hexDigit? (c : Char) : Option Nat :=
  if c.isDigit then some (c.toNat - '0'.toNat)
  else if 'a' ≤ c ∧ c ≤ 'f' then some (c.toNat - 'a'.toNat + 10)
  else if 'A' ≤ c ∧ c ≤ 'F' then some (c.toNat - 'A'.toNat + 10)
  else none

/-- The value of four hexadecimal digits. -/
def hexUnit? (a b c d : Char) : Option Nat := do
  let w ← hexDigit? a
  let x ← hexDigit? b
  let y ← hexDigit? c
  let z ← hexDigit? d
  return ((w * 16 + x) * 16 + y) * 16 + z

/-- The character that a backslash and the given character stand for. -/
def escape? : Char → Option Char
  | '"' => some '"'
  | '\\' => some '\\'
  | '/' => some '/'
  | 'b' => some '\x08'
  | 'f' => some '\x0c'
  | 'n' => some '\n'
  | 'r' => some '\r'
  | 't' => some '\t'
  | _ => none

/-- The marks up to the closing quote, and what follows it. -/
def marks? : Text → Option (List Mark × Text)
  | [] => none
  | '"' :: t => some ([], t)
  | '\\' :: 'u' :: a :: b :: c :: d :: t =>
    match hexUnit? a b c d with
    | some n => (marks? t).map fun s => (.unit n :: s.1, s.2)
    | none => none
  | '\\' :: c :: t =>
    match escape? c with
    | some e => (marks? t).map fun s => (.char e :: s.1, s.2)
    | none => none
  | c :: t =>
    if c.toNat < 0x20 || c = '\\' then none
    else (marks? t).map fun s => (.char c :: s.1, s.2)

/-- The marks of a literal take at least its closing quote. -/
theorem length_lt_of_marks? {t r : Text} {l : List Mark} (h : marks? t = some (l, r)) :
    r.length < t.length := by
  fun_induction marks? t generalizing l r with
  | case1 => simp at h
  | case2 => cases h; simp
  | case3 a b c d t n _ ih =>
    obtain ⟨s, hs, e⟩ := Option.map_eq_some_iff.1 h
    cases e
    have := ih hs
    simp only [List.length_cons]
    omega
  | case4 => simp at h
  | case5 c t _ e _ ih =>
    obtain ⟨s, hs, e⟩ := Option.map_eq_some_iff.1 h
    cases e
    have := ih hs
    simp only [List.length_cons]
    omega
  | case6 => simp at h
  | case7 => simp at h
  | case8 c t _ _ _ _ ih =>
    obtain ⟨s, hs, e⟩ := Option.map_eq_some_iff.1 h
    cases e
    have := ih hs
    simp only [List.length_cons]
    omega

/-- The text that marks denote.  A high surrogate must be followed by a low one, and a
low one must follow a high one. -/
def decode? : List Mark → Option Text
  | [] => some []
  | .char c :: l => (decode? l).map (c :: ·)
  | .unit n :: .unit m :: l =>
    if 0xd800 ≤ n ∧ n < 0xdc00 then
      if 0xdc00 ≤ m ∧ m < 0xe000 then
        (decode? l).map (Char.ofNat (0x10000 + (n - 0xd800) * 0x400 + (m - 0xdc00)) :: ·)
      else none
    else if 0xdc00 ≤ n ∧ n < 0xe000 then none
    else (decode? (.unit m :: l)).map (Char.ofNat n :: ·)
  | .unit n :: l =>
    if 0xd800 ≤ n ∧ n < 0xe000 then none else (decode? l).map (Char.ofNat n :: ·)

/-- The hexadecimal digit, in lower case, for a number below sixteen. -/
def hexDigit (n : Nat) : Char := Nat.digitChar n

/-- How a character is written in a literal. -/
def escape (c : Char) : Text :=
  match c with
  | '"' => ['\\', '"']
  | '\\' => ['\\', '\\']
  | '\x08' => ['\\', 'b']
  | '\t' => ['\\', 't']
  | '\n' => ['\\', 'n']
  | '\x0c' => ['\\', 'f']
  | '\r' => ['\\', 'r']
  | c =>
    if c.toNat < 0x20 then
      ['\\', 'u', '0', '0', hexDigit (c.toNat / 16), hexDigit (c.toNat % 16)]
    else [c]

/-- The literal for a text. -/
def encode (t : Text) : Text := '"' :: t.flatMap escape ++ ['"']

end Quoted
end Json
end TemplateTags
