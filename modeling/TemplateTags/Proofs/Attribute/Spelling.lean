import TemplateTags.Attribute.Expand
import TemplateTags.Proofs.Attribute.Replace
import TemplateTags.Proofs.Group

/-!
# How attributes are spelled

A `Spelling` is an attribute as it is written in a tag: a name, a name with a value, a short
binding, a helper call, or an echo of the attribute bag.  An `Entry` is a spelling with the
white space before it, and attribute text is a list of entries with white space at its end
(`write`).

A spelling is well formed if it can be read back.  For names and values this is a matter of
their characters.  The arguments of a helper and the expression of a bag echo are copied by
expansions that look for other shorthands, so none of these may occur in them, and no quote
may stand directly behind an equals sign.
-/

namespace TemplateTags

/-! ## Characters -/

namespace Character

variable {c : Char}

theorem toNat_of_between {a b : UInt32} (h : a ≤ c.val ∧ c.val ≤ b) :
    a.toNat ≤ c.toNat ∧ c.toNat ≤ b.toNat :=
  ⟨UInt32.le_iff_toNat_le.1 h.1, UInt32.le_iff_toNat_le.1 h.2⟩

theorem toNat_of_isWord (h : isWord c = true) :
    (48 ≤ c.toNat ∧ c.toNat ≤ 57) ∨ (65 ≤ c.toNat ∧ c.toNat ≤ 90) ∨
      (97 ≤ c.toNat ∧ c.toNat ≤ 122) ∨ c.toNat = 95 := by
  have hpair {P Q : Prop} [Decidable P] [Decidable Q] (h : (decide P && decide Q) = true) :
      P ∧ Q := by simpa using h
  rcases Bool.or_eq_true_iff.1 h with h | h
  · rcases Bool.or_eq_true_iff.1 h with h | hdigit
    · rcases Bool.or_eq_true_iff.1 h with hupper | hlower
      · exact .inr (.inl (toNat_of_between (of_decide_eq_true hupper)))
      · exact .inr (.inr (.inl (toNat_of_between (hpair hlower))))
    · exact .inl (toNat_of_between (hpair hdigit))
  · exact .inr (.inr (.inr (congrArg Char.toNat (of_decide_eq_true h))))

theorem isWordUnicode_of_isWord (h : isWord c = true) : isWordUnicode c = true := by
  have hc := toNat_of_isWord h
  rw [isWordUnicode, if_pos (by omega)]
  exact h

theorem isAttributeName_iff :
    isAttributeName c = true ↔ isWord c = true ∨ c = '-' ∨ c = ':' ∨ c = '.' ∨ c = '@' := by
  simp [isAttributeName, isTagName, or_assoc]

theorem isAttributeNameUnicode_of_isAttributeName (h : isAttributeName c = true) :
    isAttributeNameUnicode c = true := by
  rcases isAttributeName_iff.1 h with h | h
  · simp [isAttributeNameUnicode, isWordUnicode_of_isWord h]
  · rcases h with rfl | rfl | rfl | rfl <;> decide

theorem not_isWhiteSpace_of_isAttributeName (h : isAttributeName c = true) :
    isWhiteSpace c = false := by
  rcases isAttributeName_iff.1 h with h | h
  · have hc := toNat_of_isWord h
    rw [Bool.eq_false_iff]
    intro hs
    simp only [isWhiteSpace, Bool.or_eq_true, Bool.and_eq_true, decide_eq_true_eq] at hs
    omega
  · rcases h with rfl | rfl | rfl | rfl <;> decide

/-- The ranges of white space beyond ASCII. -/
def whiteSpaceRanges : List (Nat × Nat) :=
  [(0x85, 0x85), (0xa0, 0xa0), (0x1680, 0x1680), (0x2000, 0x200a), (0x2028, 0x2029),
    (0x202f, 0x202f), (0x205f, 0x205f), (0x3000, 0x3000)]

theorem exists_whiteSpaceRange (h : isWhiteSpace c = true) (hc : ¬ c.toNat < 0x80) :
    ∃ b ∈ whiteSpaceRanges, b.1 ≤ c.toNat ∧ c.toNat ≤ b.2 := by
  simp only [isWhiteSpace, Bool.or_eq_true, Bool.and_eq_true, decide_eq_true_eq] at h
  simp only [whiteSpaceRanges, List.mem_cons, List.not_mem_nil, or_false, exists_eq_or_imp,
    exists_eq_left]
  omega

theorem not_isWhiteSpace_of_isWordUnicode (h : isWordUnicode c = true) :
    isWhiteSpace c = false := by
  rw [Bool.eq_false_iff]
  intro hspace
  unfold isWordUnicode at h
  split at h
  · rw [not_isWhiteSpace_of_isAttributeName (isAttributeName_of_isWord h)] at hspace
    cases hspace
  · next hascii =>
    obtain ⟨b, hb, hlow, hhigh⟩ := exists_whiteSpaceRange hspace hascii
    obtain ⟨r, hr, hword⟩ := List.any_eq_true.1 h
    have hapart : ∀ b ∈ whiteSpaceRanges, ∀ r ∈ WordRange.all, r.2 < b.1 ∨ b.2 < r.1 := by
      decide +kernel
    have hbr := hapart b hb r hr
    simp only [Bool.and_eq_true, decide_eq_true_eq] at hword
    omega

theorem not_isWordUnicode_of_isSpace (h : isSpace c = true) : isWordUnicode c = false :=
  (by decide : ∀ d ∈ blanks, isWordUnicode d = false) c (isSpace_iff.1 h)

end Character

namespace Attribute

open Attribute.Run (Unvalued)
open Text (Stops Spaced)

/-! ## Names and values -/

/-- The text is the name of an attribute. -/
structure IsName (n : Text) : Prop where
  ne_nil : n ≠ []
  chars : ∀ c ∈ n, Character.isAttributeName c = true

theorem IsName.cons {n : Text} (h : ∀ c ∈ n, Character.isAttributeName c = true) {d : Char}
    (hd : Character.isAttributeName d = true) : IsName (d :: n) where
  ne_nil := List.cons_ne_nil _ _
  chars c hc := by
    rcases List.mem_cons.1 hc with rfl | hc
    · exact hd
    · exact h c hc

theorem IsName.notMem {n : Text} (h : IsName n) {d : Char}
    (hd : Character.isAttributeName d = false) : d ∉ n :=
  Text.notMem_of_forall h.chars hd

theorem IsName.solid {n : Text} (h : IsName n) :
    ∀ c ∈ n, Character.isWhiteSpace c = false := fun c hc =>
  Character.not_isWhiteSpace_of_isAttributeName (h.chars c hc)

/-- A value as it is written. -/
inductive Written where
  | quoted (quote : Char) (content : Text)
  | bare (content : Text)
deriving DecidableEq, Repr

namespace Written

/-- The text of the value. -/
def print : Written → Text
  | .quoted q v => q :: v ++ [q]
  | .bare v => v

/-- The value itself. -/
def content : Written → Text
  | .quoted _ v => v
  | .bare v => v

/-- A value between quotes does not hold its quote; one without quotes is a run of bare
characters that no expansion takes for anything else. -/
inductive WellFormed : Written → Prop
  | quoted {q : Char} {v : Text} (hq : Character.isQuote q = true) (hv : q ∉ v) :
      WellFormed (.quoted q v)
  | bare {v : Text} (hne : v ≠ []) (hv : ∀ c ∈ v, Character.isBareValue c = true)
      (hsolid : ∀ c ∈ v, Character.isWhiteSpace c = false) (hat : '@' ∉ v) :
      WellFormed (.bare v)

end Written

/-! ## Spellings -/

/-- An attribute as it is written. -/
inductive Spelling where
  | valueless (name : Text)
  | assigned (name : Text) (value : Written)
  /-- The short binding of a variable. -/
  | short (name : Text)
  /-- A helper call; the arguments come with their parentheses. -/
  | helper (h : Helper) (arguments : Text)
  /-- An echo of the attribute bag, with the white space before the variable and what
  follows the variable. -/
  | bag (space expr : Text)
deriving DecidableEq, Repr

namespace Spelling

/-- The text of the attribute. -/
def print : Spelling → Text
  | .valueless n => n
  | .assigned n v => n ++ '=' :: v.print
  | .short n => [':', '$'] ++ n
  | .helper h g => h.mark ++ g
  | .bag w b => ['{', '{'] ++ w ++ bagVariable ++ b ++ ['}', '}']

/-- The attribute can be read back. -/
inductive WellFormed : Spelling → Prop
  | valueless {n : Text} (hn : IsName n) : WellFormed (.valueless n)
  | assigned {n : Text} {v : Written} (hn : IsName n) (hv : v.WellFormed) :
      WellFormed (.assigned n v)
  | short {n : Text} (hne : n ≠ []) (hn : ∀ c ∈ n, Character.isWord c = true) :
      WellFormed (.short n)
  | helper (h : Helper) {g : Text} (hg : Group.IsGroup g) (hval : Unvalued g)
      (hshort : ¬ [':', '$'] <:+: g) (hbag : ¬ ['{', '{'] <:+: g) : WellFormed (.helper h g)
  | bag {w b : Text} (hw : ∀ c ∈ w, Character.isSpace c = true) (hb : '}' ∉ b)
      (hword : Stops Character.isWordUnicode b) (hquote : '"' ∉ b) (hval : Unvalued b)
      (hshort : ¬ [':', '$'] <:+: b) : WellFormed (.bag w b)

end Spelling

/-! ## Entries -/

/-- A spelling with the white space before it. -/
structure Entry where
  space : Text
  spelling : Spelling
deriving DecidableEq, Repr

/-- Entries need white space before them. -/
structure Entry.WellFormed (e : Entry) : Prop where
  ne_nil : e.space ≠ []
  space : ∀ c ∈ e.space, Character.isSpace c = true
  spelling : e.spelling.WellFormed

/-- The attribute text with the given entries and with white space at its end. -/
def write : List Entry → Text → Text
  | [], t => t
  | e :: l, t => e.space ++ (e.spelling.print ++ write l t)

variable {l : List Entry} {t : Text}

theorem spaced_write (hl : ∀ e ∈ l, e.WellFormed)
    (ht : ∀ c ∈ t, Character.isSpace c = true) : Spaced (write l t) := by
  cases l with
  | nil => exact Text.spaced_of_forall ht
  | cons e l =>
    have he := hl e (List.mem_cons_self ..)
    exact (Text.spaced_of_forall he.space).append he.ne_nil _

/-- What is done to a single entry in front of any spaced text is done to all entries. -/
theorem map_write {x : Text → Text} {g : Entry → Entry} {P : Entry → Prop}
    (hx : ∀ e u, e.WellFormed → P e → Spaced u →
      x (e.space ++ (e.spelling.print ++ u)) = (g e).space ++ ((g e).spelling.print ++ x u))
    (ht : ∀ c ∈ t, Character.isSpace c = true) (hend : x t = t)
    (hl : ∀ e ∈ l, e.WellFormed) (hP : ∀ e ∈ l, P e) :
    x (write l t) = write (l.map g) t := by
  induction l with
  | nil => exact hend
  | cons e l ih =>
    have hrest := fun d hd => hl d (List.mem_cons_of_mem _ hd)
    rw [write, List.map_cons, write,
      hx e _ (hl e (List.mem_cons_self ..)) (hP e (List.mem_cons_self ..)) (spaced_write hrest ht),
      ih hrest fun d hd => hP d (List.mem_cons_of_mem _ hd)]

end Attribute
end TemplateTags
