import Mathlib.Data.List.Basic
import TemplateTags.Echo

/-!
# Literals of the host

The host reads a single-quoted literal up to the first quote that is not escaped.  Inside,
two backslashes denote one, a backslash with a quote denotes the quote, and every other
character denotes itself; `literal?` is this reader.

Plain text is put into a literal with its quotes escaped and its backslashes as they are.
What the host reads in its place, `reread`, is the text itself as long as every backslash
in it is `Inert`: it stands before a character that it does not escape
(`reread_of_inert`).  For any other text the host reads something else (`inert_of_reread`),
since it takes a backslash for the start of an escape and never makes up for it:

* two backslashes are read as one;
* a backslash before a quote makes the host read the escape of the quote as a backslash,
  and the quote as the end of the literal;
* a backslash at the end escapes the quote that should close the literal.

A text that is put into a literal as it is must have no quote either
(`closed?_append_iff`): the first one would close the literal.
-/

namespace TemplateTags
namespace HostLiteral

/-! ## The reader -/

/-- What a literal denotes from behind its opening quote on, and what follows it. -/
def closed? : Text → Option (Text × Text)
  | [] => none
  | '\'' :: t => some ([], t)
  | '\\' :: '\\' :: t => (closed? t).map (Prod.map ('\\' :: ·) id)
  | '\\' :: '\'' :: t => (closed? t).map (Prod.map ('\'' :: ·) id)
  | c :: t => (closed? t).map (Prod.map (c :: ·) id)

/-- What the literal at the start of a text denotes, and what follows it. -/
def literal? (t : Text) : Option (Text × Text) := (Text.strip? ['\''] t).bind closed?

variable {c : Char} {u r s : Text}

theorem map_cons_eq_some {o : Option (Text × Text)} {d : Char} :
    o.map (Prod.map (c :: ·) id) = some (d :: u, s) ↔ c = d ∧ o = some (u, s) := by
  cases o with
  | none => simp
  | some x => simp [Prod.ext_iff, and_assoc]

theorem closed?_cons (hq : c ≠ '\'') (hb : c ≠ '\\') (t : Text) :
    closed? (c :: t) = (closed? t).map (Prod.map (c :: ·) id) := by
  rw [closed?.eq_def]
  split <;> simp_all

theorem closed?_backslash_cons (hb : c ≠ '\\') (hq : c ≠ '\'') (t : Text) :
    closed? ('\\' :: c :: t) = (closed? (c :: t)).map (Prod.map ('\\' :: ·) id) := by
  rw [closed?]
  · decide
  · rintro t' - h
    exact hb (List.cons.inj h).1
  · rintro t' - h
    exact hq (List.cons.inj h).1

/-! ## Texts with their quotes escaped -/

/-- The text as it is put into a literal. -/
def escaped (u : Text) : Text := (Echo.Segment.text u).inString

@[simp] theorem escaped_nil : escaped [] = [] := rfl

theorem escaped_cons (h : c ≠ '\'') (u : Text) : escaped (c :: u) = c :: escaped u := by
  show (if c = '\'' then ['\\', '\''] else [c]) ++ escaped u = c :: escaped u
  rw [if_neg h]
  rfl

theorem escaped_append (u v : Text) : escaped (u ++ v) = escaped u ++ escaped v :=
  List.flatMap_append

/-- What the host reads in the place of a text, when the closing quote and the text `r`
follow. -/
def reread (u r : Text) : Option (Text × Text) := closed? (escaped u ++ '\'' :: r)

theorem reread_cons (h : c ≠ '\\') (u r : Text) :
    reread (c :: u) r = (reread u r).map (Prod.map (c :: ·) id) := by
  unfold reread
  by_cases hq : c = '\''
  · rw [hq]
    rfl
  · rw [escaped_cons hq, List.cons_append, closed?_cons hq h]

theorem reread_last (r : Text) :
    reread ['\\'] r = (closed? r).map (Prod.map ('\'' :: ·) id) := rfl

theorem reread_quote (u r : Text) :
    reread ('\\' :: '\'' :: u) r = some (['\\'], escaped u ++ '\'' :: r) := rfl

theorem reread_pair (u r : Text) :
    reread ('\\' :: '\\' :: u) r = (reread u r).map (Prod.map ('\\' :: ·) id) := rfl

theorem reread_lone (hb : c ≠ '\\') (hq : c ≠ '\'') (u r : Text) :
    reread ('\\' :: c :: u) r = (reread (c :: u) r).map (Prod.map ('\\' :: ·) id) := by
  unfold reread
  rw [escaped_cons (by decide), escaped_cons hq, List.cons_append, List.cons_append,
    closed?_backslash_cons hb hq]

/-- A text is taken apart as the host does: at a backslash it looks at the next character. -/
theorem backslash_induction {motive : Text → Prop} (nil : motive [])
    (cons : ∀ c u, c ≠ '\\' → motive u → motive (c :: u)) (last : motive ['\\'])
    (quote : ∀ u, motive ('\\' :: '\'' :: u))
    (pair : ∀ u, motive u → motive ('\\' :: '\\' :: u))
    (lone : ∀ c u, c ≠ '\\' → c ≠ '\'' → motive (c :: u) → motive ('\\' :: c :: u)) :
    ∀ u, motive u
  | [] => nil
  | [c] => by
    by_cases hc : c = '\\'
    · rw [hc]
      exact last
    · exact cons c [] hc nil
  | c :: d :: u => by
    have htail := backslash_induction nil cons last quote pair lone (d :: u)
    by_cases hc : c = '\\'
    · rw [hc]
      by_cases hq : d = '\''
      · rw [hq]
        exact quote u
      · by_cases hb : d = '\\'
        · rw [hb]
          exact pair u (backslash_induction nil cons last quote pair lone u)
        · exact lone d u hb hq htail
    · exact cons c (d :: u) hc htail

/-! ## Backslashes that escape nothing -/

/-- Every backslash stands before a character other than a backslash or a quote. -/
def Inert (u : Text) : Prop :=
  ∀ a b, u = a ++ '\\' :: b → ∃ c ∈ b.head?, c ≠ '\\' ∧ c ≠ '\''

theorem inert_nil : Inert [] := by
  intro a b h
  cases a <;> cases h

theorem inert_cons_iff :
    Inert (c :: u) ↔ (c = '\\' → ∃ d ∈ u.head?, d ≠ '\\' ∧ d ≠ '\'') ∧ Inert u := by
  constructor
  · intro h
    refine ⟨?_, fun a b hu => h (c :: a) b (by rw [hu]; rfl)⟩
    rintro rfl
    exact h [] u rfl
  · rintro ⟨hc, hu⟩ a b h
    cases a with
    | nil =>
      obtain ⟨rfl, rfl⟩ := List.cons.inj h
      exact hc rfl
    | cons d a => exact hu a b (List.cons.inj h).2

theorem inert_lone_iff (hb : c ≠ '\\') (hq : c ≠ '\'') :
    Inert ('\\' :: c :: u) ↔ Inert (c :: u) := by
  rw [inert_cons_iff]
  exact and_iff_right fun _ => ⟨c, rfl, hb, hq⟩

/-- A text whose backslashes are inert is read back as it is. -/
theorem reread_of_inert (h : Inert u) (r : Text) : reread u r = some (u, r) := by
  induction u using backslash_induction with
  | nil => rfl
  | cons c u hc ih =>
    rw [reread_cons hc, ih (inert_cons_iff.1 h).2]
    rfl
  | last =>
    obtain ⟨c, hc, -⟩ := (inert_cons_iff.1 h).1 rfl
    cases hc
  | quote u =>
    obtain ⟨c, hc, -, hq⟩ := (inert_cons_iff.1 h).1 rfl
    cases hc
    exact absurd rfl hq
  | pair u ih =>
    obtain ⟨c, hc, hb, -⟩ := (inert_cons_iff.1 h).1 rfl
    cases hc
    exact absurd rfl hb
  | lone c u hb hq ih =>
    rw [reread_lone hb hq, ih ((inert_lone_iff hb hq).1 h)]
    rfl

/-- A host that has fallen behind by some backslashes does not catch up. -/
theorem reread_ne_behind (u x r s : Text) (n : Nat) :
    reread u r ≠ some (List.replicate (n + 1) '\\' ++ (u ++ x), s) := by
  intro h
  rw [List.replicate_succ, List.cons_append] at h
  induction u using backslash_induction generalizing n with
  | nil => cases h
  | cons c u hc ih =>
    rw [reread_cons hc, map_cons_eq_some] at h
    exact hc h.1
  | last =>
    rw [reread_last, map_cons_eq_some] at h
    exact absurd h.1 (by decide)
  | quote u =>
    rw [reread_quote] at h
    have hlength := congrArg List.length (Prod.mk.inj (Option.some.inj h)).1
    simp only [List.length_append, List.length_cons, List.length_nil] at hlength
    omega
  | pair u ih =>
    -- one more backslash of the text has been passed over
    rw [reread_pair, map_cons_eq_some] at h
    refine ih (n + 1) (h.2.trans ?_)
    rw [← List.cons_append, ← List.replicate_succ, List.replicate_succ', List.replicate_succ']
    simp
  | lone c u hb hq ih =>
    rw [reread_lone hb hq, map_cons_eq_some, reread_cons hb] at h
    cases n with
    | zero => exact hb (map_cons_eq_some.1 h.2).1
    | succ n => exact hb (map_cons_eq_some.1 h.2).1

/-- A text with which the host starts to read back has inert backslashes only. -/
theorem inert_of_reread_append {x : Text} (h : reread u r = some (u ++ x, s)) : Inert u := by
  induction u using backslash_induction with
  | nil => exact inert_nil
  | cons c u hc ih =>
    rw [reread_cons hc, List.cons_append, map_cons_eq_some] at h
    exact inert_cons_iff.2 ⟨fun he => absurd he hc, ih h.2⟩
  | last =>
    rw [reread_last, List.cons_append, map_cons_eq_some] at h
    exact absurd h.1 (by decide)
  | quote u =>
    rw [reread_quote] at h
    cases (Prod.mk.inj (Option.some.inj h)).1
  | pair u ih =>
    rw [reread_pair, List.cons_append, map_cons_eq_some] at h
    exact absurd h.2 (reread_ne_behind u x r s 0)
  | lone c u hb hq ih =>
    rw [reread_lone hb hq, List.cons_append, map_cons_eq_some] at h
    exact (inert_lone_iff hb hq).2 (ih h.2)

/-- A text that the host reads back has inert backslashes only. -/
theorem inert_of_reread (h : reread u r = some (u, s)) : Inert u := by
  have hnil : reread u r = some (u ++ [], s) := by rw [h, List.append_nil]
  exact inert_of_reread_append hnil

/-! ## Texts as they are -/

theorem escaped_of_notMem (h : '\'' ∉ u) : escaped u = u := by
  induction u with
  | nil => rfl
  | cons c u ih =>
    rw [List.mem_cons, not_or] at h
    rw [escaped_cons (Ne.symm h.1), ih h.2]

/-- A text that is put between quotes as it is, is read back exactly if it has no quote and
its backslashes are inert. -/
theorem closed?_append_iff :
    closed? (u ++ '\'' :: r) = some (u, s) ↔ ('\'' ∉ u ∧ Inert u) ∧ s = r := by
  -- up to a quote the host reads the text as if its quotes were escaped
  have hread : ∀ {v} (w : Text), '\'' ∉ v → closed? (v ++ '\'' :: w) = reread v w :=
    fun w hv => by rw [reread, escaped_of_notMem hv]
  constructor
  · intro h
    by_cases hquote : '\'' ∈ u
    · obtain ⟨a, b, rfl, ha⟩ := List.eq_append_cons_of_mem hquote
      rw [List.append_assoc, List.cons_append, hread _ ha] at h
      rw [reread_of_inert (inert_of_reread_append h), Option.some.injEq, Prod.mk.injEq] at h
      exact absurd (List.self_eq_append_right.1 h.1) (List.cons_ne_nil _ b)
    · rw [hread r hquote] at h
      have hinert := inert_of_reread h
      rw [reread_of_inert hinert, Option.some.injEq, Prod.mk.injEq] at h
      exact ⟨⟨hquote, hinert⟩, h.2.symm⟩
  · rintro ⟨⟨hquote, hinert⟩, rfl⟩
    rw [hread s hquote, reread_of_inert hinert]

end HostLiteral
end TemplateTags
