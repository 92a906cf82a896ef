import TemplateTags.Proofs.Attribute.Angle
import TemplateTags.Proofs.Attribute.Listing
import TemplateTags.Proofs.Attribute.RoundTrip

/-!
# Tags with a single attribute

What is said of one way to write an attribute is said of a tag that has this attribute and no
other.  Here is what such statements share.

* `Tag.pieces_single`: the tag is the one piece of its text.
* `parse_binding`: a binding with a colon, alone in its text, is read as one attribute.
* `Shorthand.exists_expand_eq`: the start of a text is copied if no shorthand is found in it.
* `count_expand`: expanding attribute text keeps the number of characters of each kind that
  the expansions neither write nor look for, such as the dollar sign.
* `exists_value_of_mem_items`: the expression of an attribute is the value of a token, and so
  a part of the text.

The last two bound what an attribute can hold: if a text has no more dollar signs than one
expression in it, then all of them are in that expression.
-/

namespace TemplateTags

namespace Tag

/-! ## The tag -/

/-- An opening tag with one attribute. -/
def single (a : Text) : Text := "<x-c ".toList ++ a ++ ['>']

variable {a : Text} {c : Char}

theorem single_eq (a : Text) :
    single a = '<' :: "x-".toList ++ (['c'] ++ ' ' :: a ++ ['>']) := by
  unfold single
  have hstart : "<x-c ".toList = '<' :: "x-".toList ++ ['c', ' '] := by decide
  rw [hstart]
  simp only [List.append_assoc, List.cons_append, List.nil_append]

theorem reads_single (ha : IsAttribute a ['>']) (hlast : a.getLast? = some c) (heq : c ≠ '=')
    (hminus : c ≠ '-') : Reads (.opening ['c'] (' ' :: a) false) (single a) := by
  have htext : IsAttributeText (' ' :: a) ['>'] := by
    have h : IsAttributeText ([' '] ++ a ++ []) ['>'] :=
      .cons (by decide) (by decide) ha (.space (by decide))
    rwa [List.append_nil] at h
  have hbody : (['c'] ++ ' ' :: a).getLast? = some c := by
    show (['c', ' '] ++ a).getLast? = some c
    exact List.mem_getLast?_append_of_mem_getLast? hlast
  have hend : IsEnding (['c'] ++ ' ' :: a) false ['>'] := by
    refine .plain ?_ ?_
    · rw [hbody]
      exact fun h => heq (Option.some.inj h)
    · rw [hbody]
      exact fun h => hminus (Option.some.inj h)
  refine ⟨?_, fun _ f hf => ?_⟩
  · rw [single_eq]
    exact .opening isMark_hyphen (by decide) (by decide) htext hend
  · generalize hx : single a = x at hf
    rw [single_eq] at hx
    cases hf with
    | opening hm hne hn ha he => rfl
    | closing hm hn hw => rfl
    | slotClosing hm ht hw => exact absurd (List.cons.inj (List.cons.inj hx).2).1 (by decide)
    | slotOpening hm hn ha he =>
      obtain ⟨-, hname⟩ := eq_of_isMark isMark_hyphen hm (List.cons.inj hx).2
      exact absurd (List.cons.inj hname).1 (by decide)

/-- A tag with one attribute is the one piece of its text. -/
theorem pieces_single (ha : IsAttribute a ['>']) (hlast : a.getLast? = some c) (heq : c ≠ '=')
    (hminus : c ≠ '-') :
    Document.pieces (single a) =
      [.tag ⟨.opening ['c'] (' ' :: a) false, single a,
        ⟨Position.start, Position.start.walk (single a)⟩⟩] :=
  Document.pieces_of_reads (reads_single ha hlast heq hminus)

end Tag

open Text (Stops strip?)

/-! ## Characters that stay -/

namespace Character

/-- The characters that expansions of attribute text look for and write, dollar signs apart. -/
def isMarkup (c : Char) : Bool :=
  isWordUnicode c || isWhiteSpace c || [':', '=', '"', '\'', '{', '}', '@'].contains c

theorem isMarkup_of_isWordUnicode {c : Char} (h : isWordUnicode c = true) :
    isMarkup c = true := by
  rw [isMarkup, h]
  rfl

theorem isMarkup_of_isWhiteSpace {c : Char} (h : isWhiteSpace c = true) :
    isMarkup c = true := by
  rw [isMarkup, h, Bool.or_true]
  rfl

end Character

namespace Text

variable {p : Char → Bool} {d : Char}

theorem count_of_forall {t : Text} (ht : ∀ c ∈ t, p c = true) (hd : p d = false) :
    t.count d = 0 :=
  List.count_eq_zero.2 (notMem_of_forall ht hd)

theorem count_dropWhile (hd : p d = false) (t : Text) : (t.dropWhile p).count d = t.count d := by
  have htake : (t.takeWhile p).count d = 0 :=
    count_of_forall (fun c hc => List.mem_takeWhile_imp hc) hd
  calc (t.dropWhile p).count d
      = (t.takeWhile p).count d + (t.dropWhile p).count d := by rw [htake, Nat.zero_add]
    _ = t.count d := by rw [← List.count_append, List.takeWhile_append_dropWhile]

theorem count_trimEnd (hd : Character.isWhiteSpace d = false) (t : Text) :
    (trimEnd t).count d = t.count d := by
  show ((t.reverse.dropWhile Character.isWhiteSpace).reverse).count d = t.count d
  rw [List.count_reverse, count_dropWhile hd, List.count_reverse]

end Text

namespace Shorthand

variable {s : Shorthand} {d : Char}

theorem count_afterSpace (hd : Character.isWhiteSpace d = false) (t : Text) :
    (s.afterSpace t).count d = t.count d := by
  unfold afterSpace
  split
  · exact Text.count_dropWhile hd t
  · rfl

theorem count_cons_isWhiteSpace (hd : Character.isWhiteSpace d = false) {c : Char}
    (hc : Character.isWhiteSpace c = true) (t : Text) : (c :: t).count d = t.count d :=
  List.count_cons_of_ne fun he => by
    rw [he, hd] at hc
    cases hc

variable (hd : Character.isWhiteSpace d = false)
  (hs : ∀ t f, s.find? t = some f → f.written.count d = f.taken.count d)

include hd hs

theorem count_replace (t : Text) : (s.replace t).count d = t.count d := by
  fun_induction replace s t with
  | case1 => rfl
  | case2 c t hc f hf ih =>
    calc (' ' :: f.written ++ s.replace f.rest).count d
        = f.written.count d + (s.replace f.rest).count d := by
          rw [List.count_append, count_cons_isWhiteSpace hd rfl]
      _ = f.taken.count d + f.rest.count d := by rw [hs _ f hf, ih]
      _ = (s.afterSpace t).count d := by rw [← List.count_append, ← (s.eq_of_find? hf).1]
      _ = (c :: t).count d := by
          rw [count_afterSpace hd, count_cons_isWhiteSpace hd hc]
  | case3 c t hc hf ih => rw [List.count_cons, List.count_cons, ih]
  | case4 c t hc ih => rw [List.count_cons, List.count_cons, ih]

theorem count_expandRun (first : Bool) (r : Attribute.Run) :
    (s.expandRun first r).count d = r.content.count d := by
  cases r with
  | quoted t => rfl
  | plain t =>
    show (s.expandPlain first t).count d = t.count d
    unfold expandPlain
    split
    · next f hf =>
      have hfind : s.find? t = some f := by
        unfold findStart? at hf
        split at hf
        · exact hf
        · cases hf
      have hwritten : (if first = true then ' ' :: f.written else f.taken).count d =
          f.taken.count d := by
        split
        · rw [count_cons_isWhiteSpace hd rfl, hs t f hfind]
        · rfl
      rw [List.count_append, hwritten, count_replace hd hs, ← List.count_append,
        ← (s.eq_of_find? hfind).1]
    · exact count_replace hd hs t

theorem count_flatMap_expandRun (l : List Attribute.Run) :
    (l.flatMap (s.expandRun false)).count d = (l.flatMap Attribute.Run.content).count d := by
  induction l with
  | nil => rfl
  | cons r l ih =>
    rw [List.flatMap_cons, List.flatMap_cons, List.count_append, List.count_append,
      count_expandRun hd hs, ih]

/-- A shorthand that is written with as many characters `d` as it takes keeps their number. -/
theorem count_expand (t : Text) : (s.expand t).count d = t.count d := by
  have hcontent := Attribute.Run.flatMap_content_ofText t
  unfold expand
  split
  · next hl =>
    rw [hl] at hcontent
    rw [← hcontent]
    rfl
  · next r l hl =>
    rw [hl, List.flatMap_cons] at hcontent
    rw [← hcontent, List.count_append, List.count_append, count_expandRun hd hs,
      count_flatMap_expandRun hd hs]

end Shorthand

/-! ## The start of a text -/

namespace Shorthand

open Attribute (Run)

variable {s : Shorthand} {z u : Text}

theorem replace_cons_solid (hs : s.Tight) (hne : z ≠ [])
    (hsolid : ∀ c ∈ z, Character.isWhiteSpace c = false) (hfind : s.find? (z ++ u) = none) :
    s.replace (' ' :: z ++ u) = ' ' :: z ++ s.replace u := by
  have hstop : Stops Character.isWhiteSpace (z ++ u) := by
    cases z with
    | nil => exact absurd rfl hne
    | cons c z => exact Text.stops_cons.2 (hsolid c (List.mem_cons_self ..))
  have hspace := replace_space (w := [' ']) hs (by decide) hstop hfind
  rw [replace_append_of_solid hsolid] at hspace
  exact hspace

/-- If replacing copies a text in front of a plain start, then so does expanding. -/
theorem exists_expand_eq (hs : s.Tight) (hspaced : Text.Spaced z) (hne : z ≠ []) (heq : '=' ∉ z)
    (hcopy : s.replace (z ++ Run.plainStart u) = z ++ s.replace (Run.plainStart u)) :
    ∃ r, s.expand (z ++ u) = z ++ (s.replace (Run.plainStart u) ++ r) ∧
      r.head? = (Run.toQuote? u).map fun k => k.2.1 := by
  have hrun : s.expandPlain false (z ++ Run.plainStart u) =
      z ++ s.replace (Run.plainStart u) := by
    rw [expandPlain_of_spaced hs false (hspaced.append hne _), hcopy]
  have hquote := Run.toQuote?_append_of_notMem heq u
  rw [expand_of_spaced hs (hspaced.append hne u)]
  cases hu : Run.toQuote? u with
  | none =>
    have hstart : Run.plainStart u = u := by rw [Run.plainStart, hu]; rfl
    rw [hstart] at hrun ⊢
    rw [hu, Option.map_none] at hquote
    refine ⟨[], ?_, rfl⟩
    rw [Run.ofText_of_toQuote?_none hquote, if_neg (by simp [hne]), List.flatMap_cons,
      List.flatMap_nil]
    show s.expandPlain false (z ++ u) ++ [] = _
    rw [hrun, List.append_assoc]
  | some k =>
    obtain ⟨x, q, y⟩ := k
    have hstart : Run.plainStart u = x := by rw [Run.plainStart, hu]; rfl
    rw [hstart] at hrun ⊢
    rw [hu, Option.map_some] at hquote
    rw [Run.ofText_of_toQuote?_some hquote, List.flatMap_cons, List.flatMap_cons]
    refine ⟨(Run.value q y).1 ++
      (Run.ofText (Run.value q y).2).flatMap (s.expandRun false), ?_, ?_⟩
    · show s.expandPlain false (z ++ x) ++ _ = _
      rw [hrun, List.append_assoc]
      rfl
    · unfold Run.value
      split <;> rfl

end Shorthand

namespace Attribute

theorem find?_shortBinding_cons {c : Char} (hc : c ≠ ':') (z : Text) :
    shortBinding.find? (c :: z) = none :=
  findShortBinding?_eq_none fun hp => hc (List.cons_prefix_cons.1 hp).1.symm

section Count

variable {d : Char} (hd : Character.isMarkup d = false)

include hd

theorem not_isWhiteSpace_of_not_isMarkup : Character.isWhiteSpace d = false := by
  rw [Bool.eq_false_iff]
  intro h
  rw [Character.isMarkup_of_isWhiteSpace h] at hd
  cases hd

theorem count_markup {t : Text} (ht : ∀ c ∈ t, Character.isMarkup c = true) : t.count d = 0 :=
  Text.count_of_forall ht hd

theorem count_binding (n e : Text) : (binding n e).count d = n.count d + e.count d := by
  have hcolon : [':'].count d = 0 := count_markup hd (by decide)
  have hopen : ['=', '"'].count d = 0 := count_markup hd (by decide)
  have hclose : ['"'].count d = 0 := count_markup hd (by decide)
  have htext : binding n e = [':'] ++ n ++ ['=', '"'] ++ e ++ ['"'] := rfl
  rw [htext]
  simp only [List.count_append, hcolon, hopen, hclose]
  omega

theorem count_of_findShortBinding? {t : Text} {f : Shorthand.Found}
    (h : findShortBinding? t = some f) : f.written.count d = f.taken.count d := by
  obtain ⟨n, r, -, hn, rfl⟩ := exists_of_findShortBinding? h
  have hname : n.count d = 0 := count_markup hd fun c hc =>
    Character.isMarkup_of_isWordUnicode (hn c hc)
  have hcolon : ':' ≠ d := by
    rintro rfl
    exact absurd hd (by decide)
  show (binding _ _).count d = (':' :: ('$' :: n)).count d
  rw [count_binding hd, hname, Nat.zero_add, List.count_cons_of_ne hcolon]

theorem count_of_findBagEcho? {t : Text} {f : Shorthand.Found}
    (h : findBagEcho? t = some f) : f.written.count d = f.taken.count d := by
  obtain ⟨w, b, r, hw, -, rfl⟩ := exists_of_findBagEcho? h
  have hspace : w.count d = 0 := count_markup hd fun c hc =>
    Character.isMarkup_of_isWhiteSpace (hw c hc)
  have hname : bagName.count d = 0 := count_markup hd (by decide)
  have hopen : ['{', '{'].count d = 0 := count_markup hd (by decide)
  have hclose : ['}', '}'].count d = 0 := count_markup hd (by decide)
  show (binding _ _).count d = _
  rw [count_binding hd, List.count_append,
    Text.count_trimEnd (not_isWhiteSpace_of_not_isMarkup hd)]
  simp only [List.count_append, hspace, hname, hopen, hclose]
  omega

theorem count_of_findColonBinding? {t : Text} {f : Shorthand.Found}
    (h : findColonBinding? t = some f) : f.written.count d = f.taken.count d := by
  obtain ⟨n, r, -, -, rfl⟩ := exists_of_findColonBinding? h
  have hmark : bindMark.count d = 0 := count_markup hd (by decide)
  have hcolon : ':' ≠ d := by
    rintro rfl
    exact absurd hd (by decide)
  show (bindMark ++ _ ++ ['=']).count d = (':' :: _ ++ ['=']).count d
  rw [List.count_append, List.count_append, hmark, Nat.zero_add, List.count_append,
    List.count_cons_of_ne hcolon]

theorem count_singleQuoted (t : Text) : (singleQuoted t).count d = t.count d := by
  have hdouble : '"' ≠ d := by
    rintro rfl
    exact absurd hd (by decide)
  have hsingle : '\'' ≠ d := by
    rintro rfl
    exact absurd hd (by decide)
  induction t with
  | nil => rfl
  | cons c t ih =>
    have hcons : singleQuoted (c :: t) =
        (if c = '"' then '\'' else c) :: singleQuoted t := rfl
    rw [hcons, List.count_cons, List.count_cons, ih]
    split
    · next hc => rw [hc, beq_false_of_ne hsingle, beq_false_of_ne hdouble]
    · rfl

/-- A call is written with the characters of its arguments. -/
theorem count_call {callee : Helper → Text} (hcallee : ∀ h, d ∉ callee h) (h : Helper)
    (args : Text) :
    (binding h.name (callee h ++ singleQuoted args)).count d = (h.mark ++ args).count d := by
  have hname : h.name.count d = 0 := count_markup hd (by cases h <;> decide)
  have hmark : h.mark.count d = 0 := count_markup hd (by cases h <;> decide)
  rw [count_binding hd, hname, List.count_append, List.count_eq_zero.2 (hcallee h),
    count_singleQuoted hd, List.count_append, hmark]
  omega

theorem count_expandHelpers {callee : Helper → Text} (hcallee : ∀ h, d ∉ callee h) (t : Text) :
    (expandHelpers callee t).count d = t.count d := by
  fun_induction expandHelpers callee t with
  | case1 => rfl
  | case2 c t h args r e ih =>
    rw [Helper.eq_of_call? e, List.count_append, count_call hd hcallee, ih,
      ← List.count_append]
  | case3 c e => rfl
  | case4 c q r hq e ih =>
    have hvalue := congrArg (List.count d) (Run.value_eq q r)
    rw [List.count_append] at hvalue
    rw [List.cons_append, List.count_cons, List.count_append, ih, hvalue, ← List.count_cons]
  | case5 c q r e hq ih => rw [List.count_cons, ih, ← List.count_cons]

/-- Expanding attribute text keeps the number of characters that are no markup. -/
theorem count_expand {callee : Helper → Text} (hcallee : ∀ h, d ∉ callee h) (t : Text) :
    (expand callee t).count d = t.count d := by
  have hspace := not_isWhiteSpace_of_not_isMarkup hd
  rw [expand, Shorthand.count_expand hspace fun _ _ => count_of_findColonBinding? hd,
    count_expandHelpers hd hcallee,
    Shorthand.count_expand hspace fun _ _ => count_of_findBagEcho? hd,
    Shorthand.count_expand hspace fun _ _ => count_of_findShortBinding? hd]

end Count

/-! ## Attributes as parts of the text -/

theorem isInfix_unquote (t : Text) : Text.unquote t <:+: t := by
  cases t with
  | nil => exact List.infix_refl _
  | cons c t =>
    rw [Text.unquote]
    split
    · exact (List.dropLast_prefix t).isInfix.trans (List.suffix_cons c t).isInfix
    · exact List.infix_refl _

variable {splitter : Echo.Splitter} {a : Attribute}

/-- The expression of an attribute is the value of a token. -/
theorem exists_value_of_mem_items {l : List Token}
    (ha : a ∈ (Listing.ofTokens splitter l).items) (hkind : a.kind ≠ .literal)
    (htrue : a.value ≠ "true".toList) :
    ∃ k v, k ∈ l ∧ k.value = some v ∧ Text.unquote v = a.value := by
  obtain ⟨k, hlast, rfl⟩ := Listing.mem_items_ofTokens_iff.1 ha
  have hmem := Keyed.mem_of_last? _ hlast
  cases hv : k.value with
  | none =>
    have hvalue : (ofToken splitter k).value = "true".toList := by
      cases hname : strip? bindMark k.name with
      | none =>
        simp only [ofToken, hv, hname]
        rfl
      | some n =>
        simp only [ofToken, hv, hname]
        rfl
    exact absurd hvalue htrue
  | some v =>
    cases hname : strip? bindMark k.name with
    | none =>
      refine absurd ?_ hkind
      simp only [ofToken, hv, hname]
    | some n =>
      refine ⟨k, v, hmem, hv, ?_⟩
      simp only [ofToken, hv, hname]
      rfl

theorem Token.count_unquote_le {t v : Text} {k : Token} (hk : k ∈ ofText t)
    (hv : k.value = some v) (d : Char) : v.unquote.count d ≤ t.count d :=
  ((isInfix_unquote v).trans ((infix_of_mem_ofText hk).2 v hv)).sublist.count_le d

/-- An expression holds no more of any character than the text that it is read from. -/
theorem count_value_le {t : Text} (ha : a ∈ (Listing.parse splitter t).items)
    (hkind : a.kind ≠ .literal) (htrue : a.value ≠ "true".toList) (d : Char) :
    a.value.count d ≤ t.count d := by
  obtain ⟨k, v, hk, hv, hvalue⟩ := exists_value_of_mem_items ha hkind htrue
  rw [← hvalue]
  exact Token.count_unquote_le hk hv d

/-! ## A binding in front of other text -/

section Binding

variable {n v : Text}

/-- A binding with its mark. -/
def markedBinding (n v : Text) : Text := ' ' :: bindMark ++ n ++ '=' :: ('"' :: v ++ ['"'])

theorem count_markedBinding {d : Char} (hd : Character.isMarkup d = false) (n v : Text) :
    (markedBinding n v).count d = n.count d + v.count d := by
  have hstart : (' ' :: bindMark).count d = 0 := count_markup hd (by decide)
  have hopen : ['=', '"'].count d = 0 := count_markup hd (by decide)
  have hclose : ['"'].count d = 0 := count_markup hd (by decide)
  have htext : markedBinding n v = (' ' :: bindMark) ++ n ++ ['=', '"'] ++ v ++ ['"'] := by
    simp [markedBinding]
  rw [htext]
  simp only [List.count_append, hstart, hopen, hclose]
  omega

theorem expandHelpers_of_notMem (callee : Helper → Text) {z : Text} (hat : '@' ∉ z)
    (heq : '=' ∉ z) (u : Text) : expandHelpers callee (z ++ u) = z ++ expandHelpers callee u := by
  induction z with
  | nil => rfl
  | cons c z ih =>
    rw [List.mem_cons, not_or] at hat heq
    rw [List.cons_append, expandHelpers_cons callee (call?_cons_eq_none (Ne.symm hat.1) _)
      fun he => absurd he.symm heq.1, ih hat.2 heq.2]
    rfl

theorem expandHelpers_binding (callee : Helper → Text) (hat : '@' ∉ n) (heq : '=' ∉ n)
    (hv : '"' ∉ v) (u : Text) :
    expandHelpers callee (' ' :: binding n v ++ u) =
      ' ' :: binding n v ++ expandHelpers callee u := by
  have htext : ∀ r, ' ' :: binding n v ++ r =
      (' ' :: ':' :: n) ++ ('=' :: ('"' :: v ++ ['"']) ++ r) := fun r => by
    simp [binding]
  have hat' : '@' ∉ ' ' :: ':' :: n := by simp [hat]
  have heq' : '=' ∉ ' ' :: ':' :: n := by simp [heq]
  rw [htext, htext, expandHelpers_of_notMem callee hat' heq',
    expandHelpers_value callee (by decide) hv]

variable (hn : IsName n) (hcolon : n.head? ≠ some ':')

include hn hcolon

theorem colonBinding_replace_name :
    colonBinding.replace ((' ' :: ':' :: n) ++ ['=']) = ' ' :: bindMark ++ n ++ ['='] := by
  match n, hn, hcolon with
  | [], hn, _ => exact absurd rfl hn.ne_nil
  | d :: m, hn, hcolon =>
    have hd : d ≠ ':' := fun he => hcolon (by rw [he]; rfl)
    have hfind : colonBinding.find? (':' :: d :: m ++ ['=']) = _ :=
      findColonBinding?_of_isColonName (IsName.cons hn.chars (by decide)) hd []
    have hstop : Stops Character.isWhiteSpace (':' :: d :: m ++ ['=']) :=
      Text.stops_cons.2 (by decide)
    have hfound := Shorthand.replace_found (w := [' ']) colonBinding_tight (by decide)
      (by decide) hstop hfind
    rw [Shorthand.replace_nil, List.append_nil] at hfound
    exact hfound

/-- The colon becomes the mark, and what follows is expanded like text behind a value. -/
theorem colonBinding_expand_binding (hv : '"' ∉ v) (u : Text) :
    colonBinding.expand (' ' :: binding n v ++ u) =
      markedBinding n v ++ (Run.ofText u).flatMap (colonBinding.expandRun false) := by
  have heq : '=' ∉ ' ' :: ':' :: n := by
    simp [hn.notMem (by decide : Character.isAttributeName '=' = false)]
  have htext : ' ' :: binding n v ++ u =
      (' ' :: ':' :: n) ++ ['='] ++ ('"' :: v ++ ['"']) ++ u := by simp [binding]
  have hspaced : Text.Spaced (' ' :: binding n v ++ u) := fun c hc => by
    cases hc
    rfl
  have hname : Text.Spaced ((' ' :: ':' :: n) ++ ['=']) := fun c hc => by
    cases hc
    rfl
  rw [Shorthand.expand_of_spaced colonBinding_tight hspaced, htext,
    Run.ofText_append_value (Run.unvalued_of_notMem heq) (by decide) hv,
    List.flatMap_cons, List.flatMap_cons]
  show colonBinding.expandPlain false ((' ' :: ':' :: n) ++ ['=']) ++
    (('"' :: v ++ ['"']) ++ _) = _
  rw [Shorthand.expandPlain_of_spaced colonBinding_tight false hname,
    colonBinding_replace_name hn hcolon]
  simp [markedBinding]

omit hcolon

theorem Token.ofText_markedBinding (hne : v ≠ []) (hv : '"' ∉ v) (u : Text) :
    ofText (markedBinding n v ++ u) =
      ⟨bindMark ++ n, some (Written.quoted '"' v).print⟩ :: ofText u := by
  have hname : IsName (bindMark ++ n) := ⟨by simp [hn.ne_nil], fun c hc => by
    rcases List.mem_append.1 hc with hc | hc
    · exact (by decide : ∀ c ∈ bindMark, Character.isAttributeName c = true) c hc
    · exact hn.chars c hc⟩
  have htext : markedBinding n v ++ u =
      [' '] ++ ((bindMark ++ n) ++ ('=' :: ('"' :: v ++ ['"'] ++ u))) := by
    simp [markedBinding]
  have hstop : Stops Character.isAttributeName ('=' :: ('"' :: v ++ ['"'] ++ u)) :=
    Text.stops_cons.2 (by decide)
  have hassigned : assigned ('=' :: ('"' :: v ++ ['"'] ++ u)) = (some ('"' :: v ++ ['"']), u) := by
    have hvalue : value? ('"' :: v ++ ['"'] ++ u) = some ('"' :: v ++ ['"'], u) := by
      rw [value?, quotedValue?_quoted (by decide) hne hv]
      rfl
    rw [assigned, show strip? ['='] ('=' :: ('"' :: v ++ ['"'] ++ u)) =
      some ('"' :: v ++ ['"'] ++ u) from rfl]
    simp only [hvalue]
  rw [htext, ofText_space (by decide), ofText_name hname hstop, hassigned]
  rfl

/-- An expression in a text that starts with a binding is the bound one, or it stands in the
text behind the binding. -/
theorem value_eq_or_count_le (hne : v ≠ []) (hv : '"' ∉ v) {u : Text}
    (ha : a ∈ (Listing.parse splitter (markedBinding n v ++ u)).items) (hkind : a.kind ≠ .literal)
    (htrue : a.value ≠ "true".toList) : a.value = v ∨ ∀ d, a.value.count d ≤ u.count d := by
  rw [Listing.parse, Token.ofText_markedBinding hn hne hv] at ha
  obtain ⟨k, w, hk, hw, hvalue⟩ := exists_value_of_mem_items ha hkind htrue
  rw [← hvalue]
  rcases List.mem_cons.1 hk with rfl | hk
  · left
    rw [← Option.some.inj hw]
    exact unquote_print (.quoted (by decide) hv)
  · exact Or.inr (Token.count_unquote_le hk hw)

/-- A binding with a colon, alone in its text, is one attribute. -/
theorem parse_binding (splitter : Echo.Splitter) (hcolon : n.head? ≠ some ':') (hne : v ≠ [])
    (hv : '"' ∉ v) :
    Listing.parse splitter (colonBinding.expand (' ' :: binding n v)) =
      ⟨[ofExpr n v], [n]⟩ := by
  have hexpand := colonBinding_expand_binding hn hcolon hv []
  have hnil : Run.ofText [] = [] := Run.ofText_of_toQuote?_none rfl
  rw [List.append_nil, hnil, List.flatMap_nil] at hexpand
  have hbound := isBound_ofExpr n v
  have htokens := Token.ofText_markedBinding hn hne hv []
  rw [Token.ofText] at htokens
  rw [hexpand, Listing.parse, htokens, Listing.ofTokens, List.map_singleton,
    ofToken_bound splitter hcolon (.quoted (by decide) hv)]
  show Listing.add .empty (ofExpr n v) = _
  rw [Listing.add, if_pos hbound]
  rfl

end Binding

end Attribute

end TemplateTags
