import TemplateTags.Proofs.Attribute.Listing
import TemplateTags.Proofs.Echo.HostLiteral

/-!
# The values of literal attributes

The value of a literal attribute is a host expression: literals for the plain text, and
between them the expressions of the echoes, joined by dots.  It should denote the text of
the attribute with the echoes evaluated, and nothing of the text should be read as code.

`spliced l` is what the segments `l` amount to, the runs of plain text with the expressions
between them, and `Denotes v s` says that the host reads the value `v` so.  The value of an
attribute is the literals for its runs, joined (`stringLiteral_eq`), and each of them is
read back if the backslashes in the run are inert, and not otherwise.  So the value denotes
what it should exactly for attributes without other backslashes (`denotes_value_iff`);
`not_denotes_backslash` has two attributes for which it does not.
-/

namespace TemplateTags

open HostLiteral (literal? escaped reread Inert)

namespace Echo

/-! ## Values of spliced text -/

/-- Plain text with expressions in it: the text before the first one, and each expression
with the text behind it. -/
abbrev Spliced := Text × List (Text × Text)

/-- The maximal runs of plain text in segments, with the expressions between them. -/
def spliced : List Segment → Spliced
  | [] => ([], [])
  | .text t :: l => (t ++ (spliced l).1, (spliced l).2)
  | .expr e :: l => ([], (e, (spliced l).1) :: (spliced l).2)

/-- The runs of plain text. -/
def Spliced.runs (s : Spliced) : List Text := s.1 :: s.2.map Prod.snd

/-- The host reads the value as literals for the runs of plain text, joined by dots with the
expressions between them. -/
inductive Denotes : Text → Spliced → Prop
  | literal {v u : Text} (h : literal? v = some (u, [])) : Denotes v (u, [])
  | splice {v u e w u' : Text} {l : List (Text × Text)}
      (h : literal? v = some (u, '.' :: (e ++ '.' :: w))) (hw : Denotes w (u', l)) :
      Denotes v (u, (e, u') :: l)

/-- The literals for the runs of plain text, joined by dots with the expressions. -/
def write (u : Text) : List (Text × Text) → Text
  | [] => '\'' :: (escaped u ++ ['\''])
  | (e, u') :: l => '\'' :: (escaped u ++ '\'' :: '.' :: (e ++ '.' :: write u' l))

/-- The host string for literal text is made of the literals for its runs. -/
theorem stringLiteral_eq (splitter : Splitter) (t : Text) :
    stringLiteral splitter t = write (spliced (splitter t)).1 (spliced (splitter t)).2 := by
  suffices h : ∀ l : List Segment,
      '\'' :: l.flatMap Segment.inString ++ ['\''] = write (spliced l).1 (spliced l).2 from
    h (splitter t)
  intro l
  induction l with
  | nil => rfl
  | cons s l ih =>
    cases s with
    | text t =>
      have hwrite : ∀ u l, write (t ++ u) l = '\'' :: (escaped t ++ (write u l).tail) := by
        intro u l
        cases l with
        | nil => simp [write, HostLiteral.escaped_append]
        | cons x l => simp [write, HostLiteral.escaped_append]
      rw [spliced, hwrite, ← ih]
      simp [escaped]
    | expr e =>
      rw [spliced, write, ← ih]
      simp [Segment.inString]

theorem denotes_nil_iff {v u : Text} : Denotes v (u, []) ↔ literal? v = some (u, []) := by
  constructor
  · rintro ⟨h⟩
    exact h
  · exact .literal

theorem literal?_write_nil (u : Text) : literal? (write u []) = reread u [] := rfl

theorem literal?_write_cons (u e u' : Text) (l : List (Text × Text)) :
    literal? (write u ((e, u') :: l)) = reread u ('.' :: (e ++ '.' :: write u' l)) := rfl

/-- The host reads written text as it is meant exactly if all its backslashes are inert. -/
theorem denotes_write_iff (u : Text) (l : List (Text × Text)) :
    Denotes (write u l) (u, l) ↔ ∀ t ∈ Spliced.runs (u, l), Inert t := by
  induction l generalizing u with
  | nil =>
    rw [show Spliced.runs (u, []) = [u] from rfl, List.forall_mem_singleton, denotes_nil_iff,
      literal?_write_nil]
    exact ⟨HostLiteral.inert_of_reread, fun h => HostLiteral.reread_of_inert h []⟩
  | cons x l ih =>
    obtain ⟨e, u'⟩ := x
    rw [show Spliced.runs (u, (e, u') :: l) = u :: Spliced.runs (u', l) from rfl,
      List.forall_mem_cons, ← ih]
    constructor
    · intro h
      cases h with
      | @splice v u e w u' l h hw =>
        have hu := HostLiteral.inert_of_reread h
        rw [literal?_write_cons, HostLiteral.reread_of_inert hu] at h
        -- what follows the literal is what was written there
        have hrest := (Prod.mk.inj (Option.some.inj h)).2
        rw [List.cons.injEq, List.append_cancel_left_eq, List.cons.injEq] at hrest
        rw [hrest.2.2]
        exact ⟨hu, hw⟩
    · rintro ⟨hu, hw⟩
      exact .splice (HostLiteral.reread_of_inert hu _) hw

end Echo

namespace Attribute

open Echo (Denotes spliced Spliced)

theorem value_of_kind_literal {splitter : Echo.Splitter} {k : Token}
    (h : (ofToken splitter k).kind = .literal) :
    ∃ v, k.value = some v ∧
      (ofToken splitter k).value = Echo.stringLiteral splitter v.unquote := by
  have hbound : ∀ n e, (ofExpr n e).kind ≠ .literal := fun n e hk => by
    have hb := isBound_ofExpr n e
    rw [hk] at hb
    cases hb
  unfold ofToken at h ⊢
  split at h
  · exact absurd h (hbound _ _)
  · exact absurd h (hbound _ _)
  · exact absurd h (hbound _ _)
  · next v hv _ => exact ⟨v, hv, rfl⟩

/-- **Exactly the texts with inert backslashes stay in their host strings.**  The value of a
literal attribute comes from the value of a token, and it denotes the runs of plain text
there with the expressions between them if and only if every backslash in these runs stands
before a character other than a backslash or a quote.  In particular, the value of an
attribute without echoes is one literal that denotes its text if and only if this holds of
the text. -/
theorem denotes_value_iff {splitter : Echo.Splitter} {t : Text} {a : Attribute}
    (ha : a ∈ (Listing.parse splitter t).items) (hk : a.kind = .literal) :
    ∃ k v, k ∈ Token.ofText t ∧ k.value = some v ∧ ofToken splitter k = a ∧
      (Denotes a.value (spliced (splitter v.unquote)) ↔
        ∀ u ∈ (spliced (splitter v.unquote)).runs, Inert u) ∧
      (spliced (splitter v.unquote) = (v.unquote, []) →
        (literal? a.value = some (v.unquote, []) ↔ Inert v.unquote)) := by
  obtain ⟨k, hlast, rfl⟩ := Listing.mem_items_ofTokens_iff.1 ha
  obtain ⟨v, hv, hvalue⟩ := value_of_kind_literal hk
  have hiff : Denotes (ofToken splitter k).value (spliced (splitter v.unquote)) ↔
      ∀ u ∈ (spliced (splitter v.unquote)).runs, Inert u := by
    rw [hvalue, Echo.stringLiteral_eq]
    exact Echo.denotes_write_iff _ _
  refine ⟨k, v, Keyed.mem_of_last? _ hlast, hv, rfl, hiff, fun hplain => ?_⟩
  rw [hplain, Echo.denotes_nil_iff] at hiff
  exact hiff.trans List.forall_mem_singleton

/-- An attribute with a backslash and a quote in its plain text, on both sides of an echo. -/
def pathText : Text := "p=\"C:\\dir \x7b\x7b $x \x7d\x7d it's\"".toList

/-- The attribute that is read from it. -/
def pathAttribute : Attribute := ⟨"p".toList, "'C:\\dir '.e($x).' it\\'s'".toList, .literal⟩

theorem denotes_value_iff_path :
    pathAttribute ∈ (Listing.parse Echo.standard pathText).items ∧
      pathAttribute.kind = .literal ∧
      ∃ k v, k ∈ Token.ofText pathText ∧ k.value = some v ∧
        ofToken Echo.standard k = pathAttribute ∧
        (Denotes pathAttribute.value (spliced (Echo.standard v.unquote)) ↔
          ∀ u ∈ (spliced (Echo.standard v.unquote)).runs, Inert u) ∧
        (spliced (Echo.standard v.unquote) = (v.unquote, []) →
          (literal? pathAttribute.value = some (v.unquote, []) ↔ Inert v.unquote)) := by
  have ha : pathAttribute ∈ (Listing.parse Echo.standard pathText).items := by decide +kernel
  exact ⟨ha, rfl, denotes_value_iff ha rfl⟩

/-- A backslash at the end of an attribute keeps its literal open, and a backslash before a
quote closes the literal, so that the text behind it is read as code. -/
theorem not_denotes_backslash :
    Listing.parse Echo.standard "a=\"\\\"".toList =
        ⟨[⟨"a".toList, "'\\'".toList, .literal⟩], []⟩ ∧
      spliced (Echo.standard "\\".toList) = ("\\".toList, []) ∧
      literal? "'\\'".toList = none ∧
      ¬ Denotes "'\\'".toList ("\\".toList, []) ∧
      Listing.parse Echo.standard "a=\"\\'.f().\"".toList =
        ⟨[⟨"a".toList, "'\\\\'.f().'".toList, .literal⟩], []⟩ ∧
      spliced (Echo.standard "\\'.f().".toList) = ("\\'.f().".toList, []) ∧
      literal? "'\\\\'.f().'".toList = some ("\\".toList, ".f().'".toList) ∧
      ¬ Denotes "'\\\\'.f().'".toList ("\\'.f().".toList, []) := by
  have hopen : literal? "'\\'".toList = none := by decide
  have hcode : literal? "'\\\\'.f().'".toList = some ("\\".toList, ".f().'".toList) := by
    decide
  refine ⟨by decide +kernel, by decide +kernel, hopen, ?_, by decide +kernel,
    by decide +kernel, hcode, ?_⟩
  · rw [Echo.denotes_nil_iff, hopen]
    decide
  · rw [Echo.denotes_nil_iff, hcode]
    decide

end Attribute
end TemplateTags
