import TemplateTags.Proofs.Group
import TemplateTags.Proofs.Position

/-!
# Counting parentheses

The reader of groups can be run with three registers: the number of parentheses that are
open, the quote that ends the part in which it stands, and whether the last character there
was a backslash.  The count goes up at an opening parenthesis, down at a closing one, and
the group ends where it comes down to zero.

## 1.  The registers and the places

`Group.take?` keeps the same information in another form.  A place tells the last two
registers, and the number of inner groups is one less than the count, since the outer
parenthesis is open as well (`registers`).  With this, the two readers take the same text
(`count?_eq_take?`).

## 2.  The count never falls below zero

A closing parenthesis outside quotes may take one from the count only if something is open.
The count is positive from the first parenthesis on: a step that makes it zero is the last
one.  `one_le_depth_step` says this of one step, `one_le_depth_of_visits` of a whole run.

## 3.  Texts without a group

A text that starts with a parenthesis and has no group at its start is the beginning of one:
what is missing is the end of the quoted part in which the text stops, if it stops in one,
and closing parentheses (`take?_eq_none_iff`).
-/

namespace TemplateTags
namespace Group

/-! ## The registers -/

/-- The registers of a reader that counts every open parenthesis. -/
structure Counter where
  /-- How many parentheses are open. -/
  depth : Nat
  /-- The quote that ends the part in which the reader stands. -/
  quote : Option Char
  /-- Whether the last character there was a backslash that escapes the next. -/
  escaped : Bool
deriving DecidableEq, Repr

namespace Counter

/-- Nothing is open. -/
def start : Counter := ⟨0, none, false⟩

/-- The registers after one more character. -/
def step (s : Counter) (c : Char) : Counter :=
  match s.quote with
  | some q =>
    if s.escaped then { s with escaped := false }
    else if c = '\\' then { s with escaped := true }
    else if c = q then { s with quote := none }
    else s
  | none =>
    if Character.isQuote c then { s with quote := some c }
    else if c = '(' then { s with depth := s.depth + 1 }
    else if c = ')' then { s with depth := s.depth - 1 }
    else s

/-- The character is a closing parenthesis outside quotes that brings the count to zero. -/
def Finishes (s : Counter) (c : Char) : Prop :=
  s.quote = none ∧ c = ')' ∧ (s.step c).depth = 0

instance (s : Counter) (c : Char) : Decidable (s.Finishes c) :=
  inferInstanceAs (Decidable (_ ∧ _ ∧ _))

/-- What is read from the given registers on until the count comes down to zero, and what
follows it. -/
def read? (s : Counter) : Text → Option (Text × Text)
  | [] => none
  | c :: t =>
    if s.Finishes c then some ([c], t)
    else (read? (s.step c) t).map fun p => (c :: p.1, p.2)

/-- The group at the start of a text, and what follows it. -/
def count? (t : Text) : Option (Text × Text) :=
  if t.head? = some '(' then start.read? t else none

/-- Reading the text with the registers `s`, the reader comes to the character `c` with the
registers `s'`. -/
inductive Visits : (s : Counter) → Text → (s' : Counter) → (c : Char) → Prop
  | here {s : Counter} {c : Char} {t : Text} : Visits s (c :: t) s c
  | next {s s' : Counter} {c d : Char} {t : Text} (hc : ¬ s.Finishes c)
      (h : Visits (s.step c) t s' d) : Visits s (c :: t) s' d

/-! ## The registers at a place -/

/-- The registers at a place with the given number of inner groups open. -/
def registers (d : Nat) : Place → Counter
  | .plain => ⟨d + 1, none, false⟩
  | .quoted q => ⟨d + 1, some q, false⟩
  | .escaped q => ⟨d + 1, some q, true⟩

/-- From the same place the two readers take the same text. -/
theorem read?_registers (p : Place) (d : Nat) (t : Text) :
    (registers d p).read? t = close? p d t := by
  fun_induction close? p d t with
  | case1 => rfl
  | case2 t => simp [read?, Finishes, registers, step, Character.isQuote]
  | case3 t d ih => simp [read?, Finishes, registers, step, Character.isQuote, ← ih]
  | case4 d t _ ih => simp [read?, Finishes, registers, step, Character.isQuote, ← ih]
  | case5 d q t hc ho hq ih => simp [read?, Finishes, registers, step, hc, hq, ← ih]
  | case6 d c t hc ho hq ih => simp [read?, Finishes, registers, step, hc, ho, hq, ← ih]
  | case7 q d t ih => simp [read?, Finishes, registers, step, ← ih]
  | case8 d q t hb ih => simp [read?, Finishes, registers, step, hb, ← ih]
  | case9 q d c t hb hc ih => simp [read?, Finishes, registers, step, hb, hc, ← ih]
  | case10 q d c t ih => simp [read?, Finishes, registers, step, ← ih]

/-- The two readers take the same group. -/
theorem count?_eq_take? (t : Text) : count? t = take? t := by
  cases t with
  | nil => rfl
  | cons c t =>
    by_cases hc : c = '('
    · subst hc
      have hread : start.read? ('(' :: t) =
          ((registers 0 .plain).read? t).map fun p => ('(' :: p.1, p.2) := rfl
      rw [count?, if_pos (by rfl), hread, read?_registers]
      rfl
    · have hhead : (c :: t).head? ≠ some '(' := fun h => hc (Option.some.inj h)
      rw [count?, if_neg hhead, take?, if_neg hc]

/-! ## The count stays positive -/

/-- A parenthesis is open, and a quoted part is one between quotes. -/
structure Sound (s : Counter) : Prop where
  one_le_depth : 1 ≤ s.depth
  isQuote : ∀ q ∈ s.quote, Character.isQuote q = true

/-- Only the last step brings the count to zero. -/
theorem one_le_depth_step {s : Counter} {c : Char} (hs : 1 ≤ s.depth) (hc : ¬ s.Finishes c) :
    1 ≤ (s.step c).depth := by
  obtain ⟨depth, quote, escaped⟩ := s
  cases quote with
  | some q =>
    -- the count does not change in a quoted part
    simp only [step]
    split_ifs <;> exact hs
  | none =>
    by_cases hclose : c = ')'
    · by_contra hzero
      exact hc ⟨rfl, hclose, by omega⟩
    · simp only [step]
      split_ifs
      · exact hs
      · exact Nat.le_add_left 1 depth
      · exact hs

theorem Sound.step {s : Counter} {c : Char} (hs : s.Sound) (hc : ¬ s.Finishes c) :
    (s.step c).Sound := by
  refine ⟨one_le_depth_step hs.one_le_depth hc, ?_⟩
  obtain ⟨depth, quote, escaped⟩ := s
  cases quote with
  | some p =>
    simp only [Counter.step]
    split_ifs
    · exact hs.isQuote
    · exact hs.isQuote
    · simp
    · exact hs.isQuote
  | none =>
    simp only [Counter.step]
    split_ifs with hquote
    · simpa using hquote
    all_goals simp

/-- The registers are sound at every character that a run comes to. -/
theorem Sound.of_visits {s s' : Counter} {t : Text} {c : Char} (hs : s.Sound)
    (h : Visits s t s' c) : s'.Sound := by
  induction h with
  | here => exact hs
  | next hc _ ih => exact ih (hs.step hc)

theorem sound_step_start : (start.step '(').Sound where
  one_le_depth := by decide
  isQuote q hq := by
    have hnone : (start.step '(').quote = none := rfl
    rw [hnone] at hq
    cases hq

/-- Nothing is closed that is not open. -/
theorem one_le_depth_of_visits {t : Text} {s : Counter} (ht : t.head? = some '(')
    (h : Visits start t s ')') : 1 ≤ s.depth := by
  obtain ⟨u, rfl⟩ := List.head?_eq_some_iff.1 ht
  cases h with
  | next _ h => exact (sound_step_start.of_visits h).one_le_depth

/-! ## Texts without a group -/

/-- What closes a group from the given registers on. -/
def closer (s : Counter) : Text :=
  match s.quote with
  | none => List.replicate s.depth ')'
  | some q => (if s.escaped then [q] else []) ++ q :: List.replicate s.depth ')'

theorem read?_replicate (d : Nat) (e : Bool) :
    read? ⟨d + 1, none, e⟩ (List.replicate (d + 1) ')') =
      some (List.replicate (d + 1) ')', []) := by
  induction d with
  | zero => cases e <;> rfl
  | succ d ih =>
    rw [List.replicate_succ, read?, if_neg (by simp [Finishes, step, Character.isQuote])]
    show (read? ⟨d + 1, none, e⟩ (List.replicate (d + 1) ')')).map _ = _
    rw [ih]
    rfl

theorem Sound.read?_closer {s : Counter} (hs : s.Sound) :
    s.read? s.closer = some (s.closer, []) := by
  obtain ⟨depth, quote, escaped⟩ := s
  have hdepth : 1 ≤ depth := hs.one_le_depth
  obtain ⟨d, rfl⟩ := Nat.exists_eq_add_of_le' hdepth
  cases quote with
  | none => exact read?_replicate d escaped
  | some q =>
    have hq : q ≠ '\\' := by
      rintro rfl
      exact absurd (hs.isQuote '\\' rfl) (by decide)
    have hlast : read? ⟨d + 1, some q, false⟩ (q :: List.replicate (d + 1) ')') =
        some (q :: List.replicate (d + 1) ')', []) := by
      simp [read?, Finishes, Counter.step, hq, read?_replicate]
    cases escaped with
    | false => exact hlast
    | true =>
      show (read? ⟨d + 1, some q, false⟩ (q :: List.replicate (d + 1) ')')).map _ = _
      rw [hlast]
      rfl

/-- A reader that comes to the end of the text has registers from which the group can still
be closed. -/
theorem Sound.exists_closer {s : Counter} (hs : s.Sound) {t : Text} (h : s.read? t = none) :
    ∃ s' : Counter, s'.Sound ∧ s.read? (t ++ s'.closer) = some (t ++ s'.closer, []) := by
  induction t generalizing s with
  | nil => exact ⟨s, hs, hs.read?_closer⟩
  | cons c t ih =>
    rw [read?] at h
    split at h
    · cases h
    · next hc =>
      obtain ⟨s', hs', hread⟩ := ih (hs.step hc) (Option.map_eq_none_iff.1 h)
      refine ⟨s', hs', ?_⟩
      rw [List.cons_append, read?, if_neg hc, hread]
      rfl

end Counter

/-- A text that starts with a parenthesis but has no group at its start can be completed to
one. -/
theorem exists_isGroup_append {t : Text} (ht : t.head? = some '(') (h : take? t = none) :
    ∃ s : Counter, s.Sound ∧ IsGroup (t ++ s.closer) := by
  obtain ⟨u, rfl⟩ := List.head?_eq_some_iff.1 ht
  rw [← Counter.count?_eq_take?, Counter.count?, if_pos ht] at h
  obtain ⟨s, hs, hread⟩ := Counter.sound_step_start.exists_closer (Option.map_eq_none_iff.1 h)
  refine ⟨s, hs, isGroup_of_take? (t := '(' :: u ++ s.closer) (r := []) ?_⟩
  rw [← Counter.count?_eq_take?, Counter.count?, if_pos (by rfl)]
  show ((Counter.start.step '(').read? (u ++ s.closer)).map _ = _
  rw [hread]
  rfl

/-- A text that can be completed to a group has no group at its start. -/
theorem take?_eq_none_of_isGroup_append {t x : Text} (hx : x ≠ []) (h : IsGroup (t ++ x)) :
    take? t = none := by
  by_contra hsome
  obtain ⟨⟨g, r⟩, hg⟩ := Option.ne_none_iff_exists'.1 hsome
  obtain ⟨rfl, hgroup⟩ := take?_eq_some_iff.1 hg
  have hread := take?_append h []
  rw [List.append_nil, List.append_assoc, take?_append hgroup, Option.some.injEq,
    Prod.mk.injEq] at hread
  exact hx (List.append_eq_nil_iff.1 hread.2).2

/-- A text has no group at its start if it does not start with a parenthesis, or if it stops
outside quotes or inside a quoted part before the group is closed. -/
theorem take?_eq_none_iff {t : Text} :
    take? t = none ↔ t.head? ≠ some '(' ∨
      (∃ d, IsGroup (t ++ List.replicate (d + 1) ')')) ∨
      ∃ e q d, e.length ≤ 1 ∧ Character.isQuote q = true ∧
        IsGroup (t ++ (e ++ q :: List.replicate (d + 1) ')')) := by
  constructor
  · intro h
    refine Classical.or_iff_not_imp_left.2 fun ht => ?_
    obtain ⟨⟨depth, quote, escaped⟩, hs, hgroup⟩ :=
      exists_isGroup_append (not_not.1 ht) h
    have hdepth : 1 ≤ depth := hs.one_le_depth
    obtain ⟨d, rfl⟩ := Nat.exists_eq_add_of_le' hdepth
    cases quote with
    | none => exact Or.inl ⟨d, hgroup⟩
    | some q =>
      refine Or.inr ⟨if escaped then [q] else [], q, d, ?_, hs.isQuote q rfl, hgroup⟩
      cases escaped <;> simp
  · rintro (ht | ⟨d, hgroup⟩ | ⟨e, q, d, -, -, hgroup⟩)
    · rw [← Counter.count?_eq_take?, Counter.count?, if_neg ht]
    · exact take?_eq_none_of_isGroup_append (by simp) hgroup
    · exact take?_eq_none_of_isGroup_append (by simp) hgroup

/-- **The reader takes exactly the balanced group at the start of a text.**  It takes `n`
bytes if and only if the first `n` bytes are a group, which holds of one `n` at most.  It
takes nothing if the text starts with no parenthesis, or stops outside quotes or inside a
quoted part before the group is closed.  A reader that counts the open parentheses takes the
same, and wherever it comes to a closing one outside quotes, at least one is open. -/
theorem take?_iff_balanced (t : Text) :
    (∀ n, ((take? t).map fun s => s.1.byteSize) = some n ↔
        ∃ g r, Text.splitBytes? n t = some (g, r) ∧ IsGroup g) ∧
      (∀ m n g g' r r', Text.splitBytes? m t = some (g, r) → IsGroup g →
        Text.splitBytes? n t = some (g', r') → IsGroup g' → m = n) ∧
      (take? t = none ↔ t.head? ≠ some '(' ∨
        (∃ d, IsGroup (t ++ List.replicate (d + 1) ')')) ∨
        ∃ e q d, e.length ≤ 1 ∧ Character.isQuote q = true ∧
          IsGroup (t ++ (e ++ q :: List.replicate (d + 1) ')'))) ∧
      Counter.count? t = take? t ∧
      ∀ s, t.head? = some '(' → Counter.Visits .start t s ')' → s.quote = none →
        1 ≤ s.depth := by
  refine ⟨fun n => ?_, ?_, take?_eq_none_iff, Counter.count?_eq_take? t, ?_⟩
  · simp only [Option.map_eq_some_iff, Prod.exists, take?_eq_some_iff,
      Text.splitBytes?_eq_some_iff]
    constructor
    · rintro ⟨g, r, ⟨ht, hg⟩, hn⟩
      exact ⟨g, r, ⟨ht, hn⟩, hg⟩
    · rintro ⟨g, r, ⟨ht, hn⟩, hg⟩
      exact ⟨g, r, ⟨ht, hg⟩, hn⟩
  · intro m n g g' r r' hm hg hn hg'
    obtain ⟨rfl, rfl⟩ := Text.splitBytes?_eq_some_iff.1 hm
    obtain ⟨ht, rfl⟩ := Text.splitBytes?_eq_some_iff.1 hn
    -- both groups are what the reader takes
    have hread := take?_append hg r
    rw [ht, take?_append hg', Option.some.injEq, Prod.mk.injEq] at hread
    rw [hread.1]
  · intro s ht h _
    exact Counter.one_le_depth_of_visits ht h

end Group
end TemplateTags
