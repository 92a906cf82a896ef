import TemplateTags.Json.Reader
import TemplateTags.Json.Writer
import TemplateTags.Proofs.Text.Runs

/-!
# Reading what was written in JSON

A value is written as a sequence of tokens, and white space between them means nothing.
`Json.tokens` is that sequence, and `Token.spell` is its text with white space of any choice
in front of each token and at the end; `Json.render` is the text without white space
(`render_eq`).

Reading goes back over the same three layers.

* A string literal denotes the text that was escaped (`Quoted.marks?_escape`).
* A text of tokens has these tokens (`Token.ofText?_spell`).
* The reader makes the value out of its tokens, whatever is open around it
  (`foldlM_tokens`).

So a value is read back from each of its texts (`parse?_of_spells`).  Numbers are left out
of this, since what stands behind a number could be read as part of it.
-/

namespace TemplateTags
namespace Json

/-! ## String literals -/

namespace Quoted

theorem hexDigit?_hexDigit {n : Nat} (h : n < 16) : hexDigit? (hexDigit n) = some n :=
  (by decide : ∀ n < 16, hexDigit? (hexDigit n) = some n) n h

/-- Two hexadecimal digits write every number below 256. -/
theorem hexUnit?_hexDigit {n : Nat} (h : n < 256) :
    hexUnit? '0' '0' (hexDigit (n / 16)) (hexDigit (n % 16)) = some n := by
  have hzero : hexDigit? '0' = some 0 := by decide
  have hhigh : hexDigit? (hexDigit (n / 16)) = some (n / 16) :=
    hexDigit?_hexDigit (by omega)
  have hlow : hexDigit? (hexDigit (n % 16)) = some (n % 16) :=
    hexDigit?_hexDigit (by omega)
  have hsum : ((0 * 16 + 0) * 16 + n / 16) * 16 + n % 16 = n := by omega
  rw [hexUnit?, hzero, hhigh, hlow]
  exact congrArg some hsum

/-- A code unit outside the surrogates stands for its character. -/
theorem decode?_unit {n : Nat} (h : n < 0xd800) (l : List Mark) :
    decode? (.unit n :: l) = (decode? l).map (Char.ofNat n :: ·) := by
  have hhigh : ¬ (0xd800 ≤ n ∧ n < 0xdc00) := by omega
  have hlow : ¬ (0xdc00 ≤ n ∧ n < 0xe000) := by omega
  have hany : ¬ (0xd800 ≤ n ∧ n < 0xe000) := by omega
  cases l with
  | nil => exact if_neg hany
  | cons m l =>
    cases m with
    | char c => exact if_neg hany
    | unit m => rw [decode?, if_neg hhigh, if_neg hlow]

/-- A character that needs no escape. -/
theorem marks?_cons {c : Char} (hquote : c ≠ '"') (hslash : c ≠ '\\') (hc : ¬ c.toNat < 0x20)
    (t : Text) : marks? (c :: t) = (marks? t).map fun s => (.char c :: s.1, s.2) := by
  have hplain : ¬ (decide (c.toNat < 0x20) || decide (c = '\\')) = true := by
    rw [decide_eq_false hc, decide_eq_false hslash]
    decide
  rw [marks?, if_neg hplain]
  · exact hquote
  · exact fun _ _ _ _ _ h _ => hslash h
  · exact fun _ _ h _ => hslash h

/-- An escaped character is one mark, and the mark stands for the character. -/
theorem exists_mark (c : Char) :
    ∃ m : Mark, (∀ t, marks? (escape c ++ t) = (marks? t).map fun s => (m :: s.1, s.2)) ∧
      ∀ l, decode? (m :: l) = (decode? l).map (c :: ·) := by
  unfold escape
  split
  case h_8 hquote hslash _ _ _ _ _ =>
    by_cases hc : c.toNat < 0x20
    · refine ⟨.unit c.toNat, fun t => ?_, fun l => ?_⟩
      · rw [if_pos hc]
        simp only [List.cons_append, List.nil_append]
        rw [marks?, hexUnit?_hexDigit (by omega)]
      · rw [decode?_unit (by omega), Char.ofNat_toNat]
    · refine ⟨.char c, fun t => ?_, fun l => rfl⟩
      rw [if_neg hc, List.singleton_append, marks?_cons hquote hslash hc]
  all_goals exact ⟨.char _, fun t => rfl, fun l => rfl⟩

/-- The literal for a text denotes the text. -/
theorem marks?_escape (t r : Text) :
    ∃ l, marks? (t.flatMap escape ++ '"' :: r) = some (l, r) ∧ decode? l = some t := by
  induction t with
  | nil => exact ⟨[], rfl, rfl⟩
  | cons c t ih =>
    obtain ⟨l, hl, hdecode⟩ := ih
    obtain ⟨m, hmarks, hm⟩ := exists_mark c
    refine ⟨m :: l, ?_, ?_⟩
    · rw [List.flatMap_cons, List.append_assoc, hmarks, hl]
      rfl
    · rw [hm, hdecode]
      rfl

end Quoted

/-! ## Tokens -/

namespace Token

/-- How a token is written. -/
def text : Token → Text
  | .openArray => ['[']
  | .closeArray => [']']
  | .openObject => ['{']
  | .closeObject => ['}']
  | .comma => [',']
  | .colon => [':']
  | .string t => renderString t
  | .number l => l
  | .bool true => "true".toList
  | .bool false => "false".toList
  | .null => "null".toList

/-- The token is a number, the only one whose text may go on behind its end. -/
def isNumber : Token → Bool
  | .number _ => true
  | _ => false

theorem next?_renderString (t : Option Text) (r : Text) :
    next? (renderString t ++ r) = some (.string t, r) := by
  cases t with
  | none => rfl
  | some t =>
    obtain ⟨l, hl, hdecode⟩ := Quoted.marks?_escape t r
    have htext : renderString (some t) ++ r = '"' :: (t.flatMap Quoted.escape ++ '"' :: r) :=
      congrArg ('"' :: ·) (List.append_assoc (t.flatMap Quoted.escape) ['"'] r)
    rw [htext, next?, hl, Option.map_some, hdecode]

/-- A token that is no number is read off the text that it starts. -/
theorem next?_text {k : Token} (h : k.isNumber = false) (r : Text) :
    next? (k.text ++ r) = some (k, r) := by
  cases k with
  | string t => exact next?_renderString t r
  | number l => cases h
  | bool b => cases b <;> rfl
  | _ => rfl

/-- A token starts with a character that is not blank. -/
theorem exists_text_eq_cons {k : Token} (h : k.isNumber = false) :
    ∃ c t, k.text = c :: t ∧ isBlank c = false := by
  cases k with
  | string t =>
    cases t with
    | none => exact ⟨_, _, rfl, by decide⟩
    | some t => exact ⟨_, _, rfl, by decide⟩
  | number l => cases h
  | bool b => cases b <;> exact ⟨_, _, rfl, by decide⟩
  | _ => exact ⟨_, _, rfl, by decide⟩

/-- A token with the white space in front of it. -/
structure Placed where
  space : Text
  token : Token
  isBlank_of_mem : ∀ c ∈ space, isBlank c = true

/-- The text of tokens, each with its white space, and white space `w` behind the last. -/
def spell : List Placed → Text → Text
  | [], w => w
  | p :: l, w => p.space ++ (p.token.text ++ spell l w)

theorem ofText?_blank {w : Text} (hw : ∀ c ∈ w, isBlank c = true) : ofText? w = some [] := by
  rw [ofText?, if_pos (List.dropWhile_eq_nil_iff.2 hw)]

/-- The first token of a text. -/
theorem ofText?_append (p : Placed) (h : p.token.isNumber = false) (r : Text) :
    ofText? (p.space ++ (p.token.text ++ r)) = (ofText? r).map (p.token :: ·) := by
  obtain ⟨c, t, htext, hc⟩ := exists_text_eq_cons h
  have hdrop : (p.space ++ (p.token.text ++ r)).dropWhile isBlank = p.token.text ++ r := by
    apply Text.dropWhile_of_stops p.isBlank_of_mem
    rw [htext]
    exact Text.stops_cons.2 hc
  have hne : p.token.text ++ r ≠ [] := by
    rw [htext]
    exact List.cons_ne_nil _ _
  have hnext := next?_text h r
  rw [ofText?, hdrop, if_neg hne]
  split
  · next hnone =>
    rw [hnext] at hnone
    cases hnone
  · next hsome =>
    rw [hnext] at hsome
    cases hsome
    rfl

/-- The tokens of a text are those that were written. -/
theorem ofText?_spell (l : List Placed) {w : Text} (hw : ∀ c ∈ w, isBlank c = true)
    (hl : ∀ k ∈ l.map Placed.token, k.isNumber = false) :
    ofText? (spell l w) = some (l.map Placed.token) := by
  induction l with
  | nil => exact ofText?_blank hw
  | cons p l ih =>
    rw [List.map_cons, List.forall_mem_cons] at hl
    rw [spell, ofText?_append p hl.1, ih hl.2]
    rfl

/-- The text without white space. -/
theorem spell_nil_space (l : List Token) :
    spell (l.map fun k => ⟨[], k, List.forall_mem_nil _⟩) [] = l.flatMap text := by
  induction l with
  | nil => rfl
  | cons k l ih =>
    rw [List.map_cons, spell, ih]
    rfl

end Token

/-! ## Values -/

mutual

/-- The tokens that a value is written with. -/
def tokens : Json → List Token
  | .null => [.null]
  | .bool b => [.bool b]
  | .number l => [.number l]
  | .string t => [.string t]
  | .array items => .openArray :: itemTokens items ++ [.closeArray]
  | .object members => .openObject :: memberTokens members ++ [.closeObject]

/-- The tokens of the items of an array, with commas between them. -/
def itemTokens : List Json → List Token
  | [] => []
  | [v] => tokens v
  | v :: w :: l => tokens v ++ .comma :: itemTokens (w :: l)

/-- The tokens of the members of an object, with commas between them. -/
def memberTokens : List (Option Text × Json) → List Token
  | [] => []
  | [(k, v)] => .string k :: .colon :: tokens v
  | (k, v) :: m :: l => .string k :: .colon :: tokens v ++ .comma :: memberTokens (m :: l)

end

mutual

/-- A value is written as its tokens without white space. -/
theorem render_eq : ∀ v : Json, v.render = v.tokens.flatMap Token.text
  | .null => rfl
  | .bool true => rfl
  | .bool false => rfl
  | .number l => (List.append_nil l).symm
  | .string t => (List.append_nil (renderString t)).symm
  | .array items => by
    show '[' :: renderItems items ++ [']'] =
      (Token.openArray :: itemTokens items ++ [Token.closeArray]).flatMap Token.text
    rw [renderItems_eq items, List.flatMap_append]
    rfl
  | .object members => by
    show '{' :: renderMembers members ++ ['}'] =
      (Token.openObject :: memberTokens members ++ [Token.closeObject]).flatMap Token.text
    rw [renderMembers_eq members, List.flatMap_append]
    rfl

theorem renderItems_eq : ∀ l : List Json, renderItems l = (itemTokens l).flatMap Token.text
  | [] => rfl
  | [v] => render_eq v
  | v :: w :: l => by
    rw [renderItems, itemTokens, render_eq v, renderItems_eq (w :: l), List.flatMap_append]
    rfl

theorem renderMembers_eq : ∀ l : List (Option Text × Json),
    renderMembers l = (memberTokens l).flatMap Token.text
  | [] => rfl
  | [(k, v)] => by
    rw [renderMembers, memberTokens, render_eq v]
    rfl
  | (k, v) :: m :: l => by
    rw [renderMembers, memberTokens, render_eq v, renderMembers_eq (m :: l)]
    simp only [List.flatMap_append, List.flatMap_cons, List.append_assoc]
    rfl

end

open Reader (Frame State step)

mutual

/-- The reader makes a value out of its tokens. -/
theorem foldlM_tokens : ∀ (v : Json) (canClose : Bool) (stack : List Frame) (r : List Token),
    (v.tokens ++ r).foldlM step (.value canClose stack) = r.foldlM step (.done v stack)
  | .null, _, _, _ => rfl
  | .bool _, _, _, _ => rfl
  | .number _, _, _, _ => rfl
  | .string _, _, _, _ => rfl
  | .array [], _, _, _ => rfl
  | .array (v :: l), canClose, stack, r => by
    have hitems := foldlM_itemTokens (v :: l) (List.cons_ne_nil v l) true [] stack r
    rw [tokens, List.cons_append, List.cons_append, List.append_assoc]
    exact hitems
  | .object [], _, _, _ => rfl
  | .object (m :: l), canClose, stack, r => by
    have hmembers := foldlM_memberTokens (m :: l) (List.cons_ne_nil m l) true [] stack r
    rw [tokens, List.cons_append, List.cons_append, List.append_assoc]
    exact hmembers

/-- The items of an array join those that the reader has already. -/
theorem foldlM_itemTokens : ∀ l : List Json, l ≠ [] → ∀ (canClose : Bool) (items : List Json)
    (stack : List Frame) (r : List Token),
    (itemTokens l ++ .closeArray :: r).foldlM step (.value canClose (.array items :: stack)) =
      r.foldlM step (.done (.array (items.reverse ++ l)) stack)
  | [], hne, _, _, _, _ => absurd rfl hne
  | [v], _, canClose, items, stack, r => by
    rw [itemTokens, foldlM_tokens v, ← List.reverse_cons]
    rfl
  | v :: w :: l, _, canClose, items, stack, r => by
    have hrest := foldlM_itemTokens (w :: l) (List.cons_ne_nil w l) false (v :: items) stack r
    rw [List.reverse_cons, List.append_assoc] at hrest
    rw [itemTokens, List.append_assoc, foldlM_tokens v]
    exact hrest

/-- The members of an object join those that the reader has already. -/
theorem foldlM_memberTokens : ∀ l : List (Option Text × Json), l ≠ [] →
    ∀ (canClose : Bool) (members : List (Option Text × Json)) (stack : List Frame)
      (r : List Token),
    (memberTokens l ++ .closeObject :: r).foldlM step (.key canClose members stack) =
      r.foldlM step (.done (.object (members.reverse ++ l)) stack)
  | [], hne, _, _, _, _ => absurd rfl hne
  | [(k, v)], _, canClose, members, stack, r => by
    have hvalue := foldlM_tokens v false (.object members k :: stack) (.closeObject :: r)
    rw [memberTokens, ← List.reverse_cons]
    exact hvalue
  | (k, v) :: m :: l, _, canClose, members, stack, r => by
    have hvalue := foldlM_tokens v false (.object members k :: stack)
      (.comma :: (memberTokens (m :: l) ++ .closeObject :: r))
    have hrest := foldlM_memberTokens (m :: l) (List.cons_ne_nil m l) false ((k, v) :: members)
      stack r
    rw [List.reverse_cons, List.append_assoc] at hrest
    rw [memberTokens, List.append_assoc]
    exact hvalue.trans hrest

end

/-! ## Texts of a value -/

/-- The text is the value, with any white space between its tokens and around it. -/
def Spells (v : Json) (t : Text) : Prop :=
  ∃ (l : List Token.Placed) (w : Text), l.map Token.Placed.token = v.tokens ∧
    (∀ c ∈ w, Token.isBlank c = true) ∧ t = Token.spell l w

theorem spells_render (v : Json) : v.Spells v.render := by
  refine ⟨v.tokens.map fun k => ⟨[], k, List.forall_mem_nil _⟩, [], ?_, List.forall_mem_nil _, ?_⟩
  · rw [List.map_map]
    exact List.map_id _
  · rw [Token.spell_nil_space, render_eq]

/-- No part of the value is a number. -/
def NumberFree (v : Json) : Prop := ∀ k ∈ v.tokens, k.isNumber = false

theorem numberFree_null : NumberFree .null := List.forall_mem_singleton.2 rfl

theorem numberFree_ofText (t : Text) : NumberFree (ofText t) := List.forall_mem_singleton.2 rfl

theorem numberFree_array {l : List Json} (h : ∀ v ∈ l, v.NumberFree) :
    NumberFree (.array l) := by
  have hitems : ∀ k ∈ itemTokens l, k.isNumber = false := by
    induction l with
    | nil => exact List.forall_mem_nil _
    | cons v l ih =>
      rw [List.forall_mem_cons] at h
      cases l with
      | nil => exact h.1
      | cons w l =>
        rw [itemTokens, List.forall_mem_append, List.forall_mem_cons]
        exact ⟨h.1, rfl, ih h.2⟩
  rw [NumberFree, tokens, List.forall_mem_append, List.forall_mem_cons]
  exact ⟨⟨rfl, hitems⟩, List.forall_mem_singleton.2 rfl⟩

theorem numberFree_object {l : List (Option Text × Json)} (h : ∀ m ∈ l, m.2.NumberFree) :
    NumberFree (.object l) := by
  have hmembers : ∀ k ∈ memberTokens l, k.isNumber = false := by
    induction l with
    | nil => exact List.forall_mem_nil _
    | cons m l ih =>
      obtain ⟨k, v⟩ := m
      rw [List.forall_mem_cons] at h
      have hfirst : ∀ x ∈ .string k :: .colon :: tokens v, x.isNumber = false :=
        List.forall_mem_cons.2 ⟨rfl, List.forall_mem_cons.2 ⟨rfl, h.1⟩⟩
      cases l with
      | nil => exact hfirst
      | cons m l =>
        rw [memberTokens, List.forall_mem_append]
        exact ⟨hfirst, List.forall_mem_cons.2 ⟨rfl, ih h.2⟩⟩
  rw [NumberFree, tokens, List.forall_mem_append, List.forall_mem_cons]
  exact ⟨⟨rfl, hmembers⟩, List.forall_mem_singleton.2 rfl⟩

/-- A value is read back from its texts. -/
theorem parse?_of_spells {v : Json} {t : Text} (hv : v.NumberFree) (ht : v.Spells t) :
    parse? t = some v := by
  obtain ⟨l, w, hl, hw, rfl⟩ := ht
  have htokens : Token.ofText? (Token.spell l w) = some v.tokens := by
    rw [NumberFree, ← hl] at hv
    rw [Token.ofText?_spell l hw hv, hl]
  have hread : v.tokens.foldlM step (.value false []) = some (.done v []) := by
    have h := foldlM_tokens v false [] []
    rwa [List.append_nil] at h
  simp [parse?, htokens, hread]

end Json
end TemplateTags
