import TemplateTags.Text.WhiteSpace

/-!
# Numerals

An expression that is a plain decimal numeral needs no sanitising.  A numeral is

    white space* sign? (digit+ (`.` digit*)? | `.` digit+) (`e` sign? digit+)? white space*

with ASCII digits and either case of the exponent mark.  Each part of the grammar
is a function from a text to what follows that part.
-/

namespace TemplateTags
namespace Numeral

/-- What follows an optional sign. -/
def afterSign : Text → Text
  | c :: t => if c = '+' || c = '-' then t else c :: t
  | [] => []

/-- What follows one or more digits. -/
def afterDigits? : Text → Option Text
  | c :: t => if c.isDigit then some (t.dropWhile Char.isDigit) else none
  | [] => none

/-- What follows the digits of a numeral, with their decimal point. -/
def afterMantissa? (t : Text) : Option Text :=
  match afterDigits? t with
  | some ('.' :: r) => some (r.dropWhile Char.isDigit)
  | some r => some r
  | none =>
    match t with
    | '.' :: r => afterDigits? r
    | _ => none

/-- What follows an optional exponent. -/
def afterExponent : Text → Text
  | c :: t =>
    if c = 'e' || c = 'E' then (afterDigits? (afterSign t)).getD (c :: t) else c :: t
  | [] => []

/-- Whether the text is a decimal numeral between white space. -/
def isNumeral (t : Text) : Bool :=
  match afterMantissa? (afterSign t.trimStart) with
  | some r => (afterExponent r).all Character.isWhiteSpace
  | none => false

end Numeral
end TemplateTags
