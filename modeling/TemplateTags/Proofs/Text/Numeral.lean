import TemplateTags.Proofs.Attribute.Spelling
import TemplateTags.Text.Numeral

/-!
# The grammar of numerals

A numeral is described here by what it is made of,

    numeral  := white space* sign mantissa exponent white space*
    sign     := nothing | `+` | `-`
    mantissa := digit+ | digit+ `.` digit* | `.` digit+
    exponent := nothing | (`e` | `E`) sign digit+

and `isNumeral_iff` says that the recogniser accepts just these.  Each part of the
recogniser returns what follows its part of the grammar.  That it takes such a part is shown
first; that it takes all of it depends on what comes next, which always is a character that
cannot continue the part.
-/

namespace TemplateTags
namespace Numeral

open Text (Stops)

/-! ## The grammar -/

/-- An optional sign. -/
def IsSign (s : Text) : Prop := s = [] ∨ s = ['+'] ∨ s = ['-']

/-- One or more digits. -/
def IsDigits (d : Text) : Prop := d ≠ [] ∧ ∀ c ∈ d, c.isDigit = true

/-- Digits with or without a decimal point. -/
inductive IsMantissa : Text → Prop
  | whole {d : Text} (hd : IsDigits d) : IsMantissa d
  | point {d f : Text} (hd : IsDigits d) (hf : ∀ c ∈ f, c.isDigit = true) :
      IsMantissa (d ++ '.' :: f)
  | fraction {f : Text} (hf : IsDigits f) : IsMantissa ('.' :: f)

/-- An optional exponent. -/
inductive IsExponent : Text → Prop
  | absent : IsExponent []
  | power {c : Char} {s d : Text} (hc : c = 'e' ∨ c = 'E') (hs : IsSign s) (hd : IsDigits d) :
      IsExponent (c :: (s ++ d))

/-- A decimal numeral between white space. -/
def IsDecimal (t : Text) : Prop :=
  ∃ w s m e v, t = w ++ (s ++ (m ++ (e ++ v))) ∧
    (∀ c ∈ w, Character.isWhiteSpace c = true) ∧ IsSign s ∧ IsMantissa m ∧ IsExponent e ∧
    ∀ c ∈ v, Character.isWhiteSpace c = true

/-! ## What is taken is of the grammar -/

theorem exists_sign (t : Text) : ∃ s, IsSign s ∧ t = s ++ afterSign t := by
  cases t with
  | nil => exact ⟨[], Or.inl rfl, rfl⟩
  | cons c t =>
    rw [afterSign]
    split
    · next h =>
      rcases (by simpa using h : c = '+' ∨ c = '-') with rfl | rfl
      · exact ⟨['+'], Or.inr (Or.inl rfl), rfl⟩
      · exact ⟨['-'], Or.inr (Or.inr rfl), rfl⟩
    · exact ⟨[], Or.inl rfl, rfl⟩

theorem exists_digits {t r : Text} (h : afterDigits? t = some r) :
    ∃ d, IsDigits d ∧ t = d ++ r := by
  cases t with
  | nil => cases h
  | cons c t =>
    rw [afterDigits?] at h
    split at h
    · next hc =>
      cases h
      refine ⟨c :: t.takeWhile Char.isDigit, ⟨List.cons_ne_nil _ _, ?_⟩, ?_⟩
      · intro x hx
        rcases List.mem_cons.1 hx with rfl | hx
        · exact hc
        · exact List.mem_takeWhile_imp hx
      · rw [List.cons_append, List.takeWhile_append_dropWhile]
    · cases h

theorem exists_mantissa {t r : Text} (h : afterMantissa? t = some r) :
    ∃ m, IsMantissa m ∧ t = m ++ r := by
  unfold afterMantissa? at h
  split at h
  · next u hu =>
    cases h
    obtain ⟨d, hd, rfl⟩ := exists_digits hu
    refine ⟨d ++ '.' :: u.takeWhile Char.isDigit,
      .point hd fun c hc => List.mem_takeWhile_imp hc, ?_⟩
    rw [List.append_assoc, List.cons_append, List.takeWhile_append_dropWhile]
  · next u _ hu =>
    cases h
    obtain ⟨d, hd, rfl⟩ := exists_digits hu
    exact ⟨d, .whole hd, rfl⟩
  · split at h
    · obtain ⟨f, hf, rfl⟩ := exists_digits h
      exact ⟨'.' :: f, .fraction hf, rfl⟩
    · cases h

theorem exists_exponent (t : Text) : ∃ e, IsExponent e ∧ t = e ++ afterExponent t := by
  cases t with
  | nil => exact ⟨[], .absent, rfl⟩
  | cons c t =>
    rw [afterExponent]
    split
    · next hc =>
      cases hd : afterDigits? (afterSign t) with
      | none => exact ⟨[], .absent, rfl⟩
      | some r =>
        obtain ⟨s, hs, ht⟩ := exists_sign t
        obtain ⟨d, hd, hr⟩ := exists_digits hd
        refine ⟨c :: (s ++ d), .power (by simpa using hc) hs hd, ?_⟩
        rw [Option.getD_some, List.cons_append, List.append_assoc, ← hr, ← ht]
    · exact ⟨[], .absent, rfl⟩

/-! ## All of a part is taken -/

/-- The two signs. -/
def isSignChar (c : Char) : Bool := c = '+' || c = '-'

/-- What the digits of a numeral and their decimal point consist of. -/
def isMantissaChar (c : Char) : Bool := c.isDigit || c = '.'

/-- What the end of a numeral consists of. -/
def isExponentChar (c : Char) : Bool := c.isDigit || (c = 'e' || c = 'E')

theorem isAttributeName_of_isDigit {c : Char} (h : c.isDigit = true) :
    Character.isAttributeName c = true :=
  Character.isAttributeName_of_isWord
    (Bool.or_eq_true_iff.2 (.inl (Bool.or_eq_true_iff.2 (.inr h))))

theorem isAttributeName_of_isMantissaChar {c : Char} (h : isMantissaChar c = true) :
    Character.isAttributeName c = true := by
  rcases Bool.or_eq_true_iff.1 h with h | h
  · exact isAttributeName_of_isDigit h
  · rw [of_decide_eq_true h]
    decide

theorem isAttributeName_of_isExponentChar {c : Char} (h : isExponentChar c = true) :
    Character.isAttributeName c = true := by
  rcases Bool.or_eq_true_iff.1 h with h | h
  · exact isAttributeName_of_isDigit h
  · rcases Bool.or_eq_true_iff.1 h with h | h <;> rw [of_decide_eq_true h] <;> decide

theorem not_isSignChar {c : Char} (h : isMantissaChar c = true) : isSignChar c = false := by
  by_contra hn
  rw [Bool.not_eq_false] at hn
  rcases Bool.or_eq_true_iff.1 hn with hn | hn <;> rw [of_decide_eq_true hn] at h <;>
    exact absurd h (by decide)

theorem afterSign_append {s r : Text} (hs : IsSign s) (hr : Stops isSignChar r) :
    afterSign (s ++ r) = r := by
  rcases hs with rfl | rfl | rfl
  · cases r with
    | nil => rfl
    | cons c r =>
      have hc : ¬ isSignChar c = true := by simp [Text.stops_cons.1 hr]
      exact if_neg hc
  · rfl
  · rfl

theorem afterDigits?_append {d r : Text} (hd : IsDigits d) (hr : Stops Char.isDigit r) :
    afterDigits? (d ++ r) = some r := by
  obtain ⟨hne, hdigit⟩ := hd
  cases d with
  | nil => exact absurd rfl hne
  | cons c d =>
    rw [List.cons_append, afterDigits?, if_pos (hdigit c (List.mem_cons_self ..)),
      Text.dropWhile_of_stops (fun x hx => hdigit x (List.mem_cons_of_mem _ hx)) hr]

theorem afterDigits?_eq_none {r : Text} (hr : Stops Char.isDigit r) : afterDigits? r = none := by
  cases r with
  | nil => rfl
  | cons c r => rw [afterDigits?, if_neg (by simp [Text.stops_cons.1 hr])]

theorem afterMantissa?_append {m r : Text} (hm : IsMantissa m)
    (hr : Stops isMantissaChar r) : afterMantissa? (m ++ r) = some r := by
  have hdigit : Stops Char.isDigit r := hr.mono fun c hc => by simp [isMantissaChar, hc]
  unfold afterMantissa?
  cases hm with
  | whole hd =>
    rw [afterDigits?_append hd hdigit]
    split
    · next u hu =>
      rw [Option.some.inj hu] at hr
      exact absurd (Text.stops_cons.1 hr) (by decide)
    · next u _ hu => exact hu.symm
    · next hu => cases hu
  | @point d f hd hf =>
    rw [List.append_assoc, List.cons_append,
      afterDigits?_append hd (Text.stops_cons.2 (by decide))]
    exact congrArg some (Text.dropWhile_of_stops hf hdigit)
  | fraction hf =>
    rw [List.cons_append, afterDigits?_eq_none (Text.stops_cons.2 (by decide))]
    exact afterDigits?_append hf hdigit

theorem IsMantissa.exists_cons {m : Text} (h : IsMantissa m) :
    ∃ c u, m = c :: u ∧ isMantissaChar c = true := by
  have hdigits : ∀ {d}, IsDigits d → ∃ c u, d = c :: u ∧ isMantissaChar c = true := by
    rintro d ⟨hne, hd⟩
    obtain ⟨c, u, rfl⟩ := List.exists_cons_of_ne_nil hne
    exact ⟨c, u, rfl, by simp [isMantissaChar, hd c (List.mem_cons_self ..)]⟩
  cases h with
  | whole hd => exact hdigits hd
  | point hd hf =>
    obtain ⟨c, u, rfl, hc⟩ := hdigits hd
    exact ⟨c, _, rfl, hc⟩
  | fraction hf => exact ⟨'.', _, rfl, by decide⟩

theorem afterExponent_append {e v : Text} (he : IsExponent e) (hv : Stops isExponentChar v) :
    afterExponent (e ++ v) = v := by
  cases he with
  | absent =>
    cases v with
    | nil => rfl
    | cons c v =>
      have hc : ¬ (c = 'e' || c = 'E') = true := fun h => by
        simpa [isExponentChar, h] using Text.stops_cons.1 hv
      exact if_neg hc
  | @power c s d hc hs hd =>
    have hdigit : Stops Char.isDigit v := hv.mono fun c hc => by simp [isExponentChar, hc]
    obtain ⟨x, u, hx, hmantissa⟩ := (IsMantissa.whole hd).exists_cons
    have hsign : Stops isSignChar (d ++ v) := by
      rw [hx]
      exact Text.stops_cons.2 (not_isSignChar hmantissa)
    rw [List.cons_append, List.append_assoc, afterExponent, if_pos (by simpa using hc),
      afterSign_append hs hsign, afterDigits?_append hd hdigit]
    rfl

/-! ## The recogniser -/

theorem stops_of_isWhiteSpace {q : Char → Bool} {v : Text}
    (hv : ∀ c ∈ v, Character.isWhiteSpace c = true)
    (hq : ∀ c, q c = true → Character.isAttributeName c = true) : Stops q v := by
  intro c hc
  by_contra hn
  rw [Bool.not_eq_false] at hn
  have hspace := hv c (List.mem_of_mem_head? hc)
  rw [Character.not_isWhiteSpace_of_isAttributeName (hq c hn)] at hspace
  cases hspace

/-- The recogniser accepts exactly the numerals. -/
theorem isNumeral_iff {t : Text} : isNumeral t = true ↔ IsDecimal t := by
  constructor
  · intro h
    unfold isNumeral at h
    split at h
    · next r hr =>
      obtain ⟨s, hs, htrim⟩ := exists_sign t.trimStart
      obtain ⟨m, hm, hsign⟩ := exists_mantissa hr
      obtain ⟨e, he, hrest⟩ := exists_exponent r
      refine ⟨t.takeWhile Character.isWhiteSpace, s, m, e, afterExponent r, ?_,
        fun c hc => List.mem_takeWhile_imp hc, hs, hm, he, List.all_eq_true.1 h⟩
      rw [← hrest, ← hsign, ← htrim]
      exact List.takeWhile_append_dropWhile.symm
    · cases h
  · rintro ⟨w, s, m, e, v, rfl, hw, hs, hm, he, hv⟩
    obtain ⟨c, u, hcons, hc⟩ := hm.exists_cons
    have htrim : Stops Character.isWhiteSpace (s ++ (m ++ (e ++ v))) := by
      rcases hs with rfl | rfl | rfl
      · rw [hcons]
        exact Text.stops_cons.2
          (Character.not_isWhiteSpace_of_isAttributeName (isAttributeName_of_isMantissaChar hc))
      · exact Text.stops_cons.2 (by decide)
      · exact Text.stops_cons.2 (by decide)
    have hsign : Stops isSignChar (m ++ (e ++ v)) := by
      rw [hcons]
      exact Text.stops_cons.2 (not_isSignChar hc)
    have hmantissa : Stops isMantissaChar (e ++ v) := by
      cases he with
      | absent => exact stops_of_isWhiteSpace hv fun _ => isAttributeName_of_isMantissaChar
      | power hc _ _ => rcases hc with rfl | rfl <;> exact Text.stops_cons.2 (by decide)
    have hexponent : Stops isExponentChar v :=
      stops_of_isWhiteSpace hv fun _ => isAttributeName_of_isExponentChar
    rw [isNumeral, Text.trimStart, Text.dropWhile_of_stops hw htrim, afterSign_append hs hsign,
      afterMantissa?_append hm hmantissa]
    dsimp only
    rw [afterExponent_append he hexponent]
    exact List.all_eq_true.2 hv

instance (t : Text) : Decidable (IsDecimal t) :=
  decidable_of_iff (isNumeral t = true) isNumeral_iff

example : IsDecimal " -1.5e3 ".toList ∧ ¬ IsDecimal "1e".toList := by decide

end Numeral
end TemplateTags
