import TemplateTags.Proofs.Attribute.Single

/-!
# Forwarding the attribute bag

An echo of the attribute bag in a tag should forward the bag with the expression that stands
in the echo.  The recogniser takes any text without closing braces as the rest of the
expression, but two things are done to that text before it is bound to `attributes`: the
short bindings in it are expanded, and double quotes are put around it.

`Verbatim b` says that neither shows: no quote in `b` ends the quoted value or starts one of
its own, and no short binding is found in it.  `spread_iff_verbatim` says that the bag is
forwarded as it should be exactly for such texts; `not_spread` has three for which it is not.

## When the echo is not replaced

If `b` has a quoted value or a short binding in it, then a quoted value starts before the
braces of the echo are closed (`Unclosed`).  No echo is found then, and the start of the echo
is copied by each expansion (`exists_expand_bagStart`), with its dollar sign.  So the other
attributes hold fewer dollar signs than the expression should.
-/

namespace TemplateTags

open Text (Stops strip?)
open Attribute.Run (Unvalued)

namespace Attribute

/-- The echo of the attribute bag with the text `b` behind the variable. -/
def bagText (b : Text) : Text := ['{', '{'] ++ [' '] ++ bagVariable ++ b ++ ['}', '}']

/-- The text can stand in an echo of the bag: it has no double quotes, no quote stands
directly behind an equals sign, and no short binding stands behind white space. -/
structure Verbatim (b : Text) : Prop where
  notMem_quote : '"' ∉ b
  unvalued : Unvalued b
  not_short : ∀ c d, [c, ':', '$', d] <:+: b → Character.isWhiteSpace c = true →
    Character.isWordUnicode d = false

/-- How the attribute text starts. -/
def bagStart : Text := [' ', '{', '{', ' '] ++ bagVariable

theorem cons_bagText (b : Text) : ' ' :: bagText b = bagStart ++ (b ++ ['}', '}']) := by
  simp [bagText, bagStart]

variable {b t u z : Text}

/-! ## Short bindings in the echo -/

/-- A quoted value starts before any closing brace. -/
def Unclosed (t : Text) : Prop :=
  ∃ x q y, t = x ++ '=' :: q :: y ∧ '}' ∉ x ∧ Character.isQuote q = true

theorem Unclosed.cons {c : Char} (hc : c ≠ '}') (h : Unclosed t) : Unclosed (c :: t) := by
  obtain ⟨x, q, y, rfl, hx, hq⟩ := h
  exact ⟨c :: x, q, y, rfl, by simp [hx, Ne.symm hc], hq⟩

theorem Unclosed.append (h : Unclosed t) (u : Text) : Unclosed (t ++ u) := by
  obtain ⟨x, q, y, rfl, hx, hq⟩ := h
  exact ⟨x, q, y ++ u, by simp, hx, hq⟩

/-- What is written for a short binding starts a quoted value. -/
theorem unclosed_of_findShortBinding? {f : Shorthand.Found} (h : findShortBinding? t = some f)
    (u : Text) : Unclosed (f.written ++ u) := by
  obtain ⟨n, r, -, hn, rfl⟩ := exists_of_findShortBinding? h
  have hname : '}' ∉ n := Text.notMem_of_forall hn (by decide)
  exact Unclosed.append
    ⟨':' :: n, '"', '$' :: n ++ ['"'], by simp [binding], by simp [hname], rfl⟩ u

/-- Replacing short bindings in a text without closing braces starts a quoted value there, or
there are none. -/
theorem unclosed_or_copied (hz : '}' ∉ z) (u : Text) :
    Unclosed (shortBinding.replace (z ++ u)) ∨
      ∀ x c y, z = x ++ c :: y → Character.isWhiteSpace c = true →
        findShortBinding? (y ++ u) = none := by
  induction z with
  | nil => exact Or.inr fun x c y h => by simp at h
  | cons c z ih =>
    rw [List.mem_cons, not_or] at hz
    by_cases hfound : Character.isWhiteSpace c = true ∧ findShortBinding? (z ++ u) ≠ none
    · obtain ⟨hc, hne⟩ := hfound
      obtain ⟨f, hf⟩ := Option.ne_none_iff_exists'.1 hne
      left
      rw [List.cons_append, Shorthand.replace_cons_of_some (s := shortBinding) hc hf]
      exact (unclosed_of_findShortBinding? hf _).cons (by decide)
    · have hnone : Character.isWhiteSpace c = true → findShortBinding? (z ++ u) = none :=
        fun hc => by
          by_contra h
          exact hfound ⟨hc, h⟩
      rcases ih hz.2 with h | h
      · left
        rw [List.cons_append, Shorthand.replace_cons_of_none (s := shortBinding) hnone]
        exact h.cons (Ne.symm hz.1)
      · refine Or.inr fun x d y hxy hd => ?_
        cases x with
        | nil =>
          obtain ⟨rfl, rfl⟩ := List.cons.inj hxy
          exact hnone hd
        | cons e x => exact h x d y (List.cons.inj hxy).2 hd

/-! ## Copying the start of the echo -/

theorem replace_bagStart {s : Shorthand} (hs : s.Tight)
    (hopen : s.find? (['{', '{'] ++ (' ' :: bagVariable ++ z)) = none)
    (hvar : s.find? (bagVariable ++ z) = none) :
    s.replace (bagStart ++ z) = bagStart ++ s.replace z := by
  have htext : ∀ z, bagStart ++ z = ' ' :: ['{', '{'] ++ (' ' :: bagVariable ++ z) := fun z => by
    simp [bagStart]
  rw [htext, htext, Shorthand.replace_cons_solid hs (by decide) (by decide) hopen,
    Shorthand.replace_cons_solid hs (by decide) (by decide) hvar]

theorem toQuote?_append_braces (hval : Unvalued b) : Run.toQuote? (b ++ ['}', '}']) = none :=
  Run.unvalued_iff.1 (hval.append (Run.unvalued_of_notMem (by decide))
    (Text.stops_cons.2 (by decide)))

theorem plainStart_append_braces (hval : Unvalued b) :
    Run.plainStart (b ++ ['}', '}']) = b ++ ['}', '}'] := by
  rw [Run.plainStart, toQuote?_append_braces hval]
  rfl

/-- Expanding a shorthand copies the start of an echo where it is not found. -/
theorem exists_expand_bagStart {s : Shorthand} (hs : s.Tight)
    (hopen : s.find? (['{', '{'] ++ (' ' :: bagVariable ++ Run.plainStart u)) = none)
    (hvar : s.find? (bagVariable ++ Run.plainStart u) = none) :
    ∃ r, s.expand (bagStart ++ u) = bagStart ++ (s.replace (Run.plainStart u) ++ r) ∧
      r.head? = (Run.toQuote? u).map fun k => k.2.1 :=
  Shorthand.exists_expand_eq hs (fun c hc => by cases hc; rfl) (by decide) (by decide)
    (replace_bagStart hs hopen hvar)

theorem toQuote?_of_unclosed (h : Unclosed u) :
    ∃ x q y, Run.toQuote? u = some (x ++ ['='], q, y) ∧ '}' ∉ x ∧
      Character.isQuote q = true := by
  obtain ⟨x, q, y, rfl, hx, hq⟩ := h
  induction x with
  | nil =>
    refine ⟨[], q, y, ?_, by simp, hq⟩
    rw [List.nil_append, Run.toQuote?, if_pos (by rw [hq]; rfl)]
    rfl
  | cons c x ih =>
    rw [List.mem_cons, not_or] at hx
    obtain ⟨x', q', y', hquote, hx', hq'⟩ := ih hx.2
    rw [List.cons_append]
    cases hr : x ++ '=' :: q :: y with
    | nil => simp at hr
    | cons e r =>
      rw [hr] at hquote
      rw [Run.toQuote?]
      split
      · next hce =>
        -- an earlier value starts here
        rw [Bool.and_eq_true, decide_eq_true_eq] at hce
        exact ⟨[], e, r, by rw [hce.1]; rfl, by simp, hce.2⟩
      · refine ⟨c :: x', q', y', by rw [hquote]; rfl, ?_, hq'⟩
        simp [hx', hx.1]

/-- What is left of the text when it is not verbatim: the start of the echo stays, and a
quoted value starts before the echo is closed. -/
theorem exists_shortBinding_expand (hb : '}' ∉ b)
    (h : Unvalued b → ¬ ∀ c d, [c, ':', '$', d] <:+: b → Character.isWhiteSpace c = true →
      Character.isWordUnicode d = false) :
    ∃ u, shortBinding.expand (' ' :: bagText b) = bagStart ++ u ∧ Unclosed u := by
  obtain ⟨r, hexpand, hr⟩ := exists_expand_bagStart (u := b ++ ['}', '}']) shortBinding_tight
    (find?_shortBinding_cons (by decide) _) (find?_shortBinding_cons (by decide) _)
  refine ⟨_, by rw [cons_bagText, hexpand], ?_⟩
  by_cases hval : Unvalued b
  · rw [plainStart_append_braces hval]
    refine Unclosed.append ((unclosed_or_copied hb _).resolve_right fun hcopied => h hval ?_) r
    rintro c d ⟨x, y, hxy⟩ hc
    have hplace := hcopied x c (':' :: '$' :: d :: y) (by rw [← hxy]; simp) hc
    exact findShortBinding?_eq_none_iff.1 hplace d _ rfl
  · have hopen : Unclosed (b ++ ['}', '}']) := by
      unfold Unvalued at hval
      push Not at hval
      obtain ⟨x, q, y, rfl, hq⟩ := hval
      refine ⟨x, q, y ++ ['}', '}'], by simp, fun hm => hb (by simp [hm]), by simpa using hq⟩
    obtain ⟨x, q, y, hquote, hx, hq⟩ := toQuote?_of_unclosed hopen
    have hstart : Run.plainStart (b ++ ['}', '}']) = x ++ ['='] := by
      rw [Run.plainStart, hquote]
      rfl
    rw [hstart]
    have hx' : '}' ∉ x ++ ['='] := by simp [hx]
    rcases unclosed_or_copied hx' [] with hleft | hcopied
    · rw [List.append_nil] at hleft
      exact hleft.append r
    · rw [hquote, Option.map_some] at hr
      obtain ⟨r, rfl⟩ := List.head?_eq_some_iff.1 hr
      have hcopy := Shorthand.replace_append (s := shortBinding) (p := []) hcopied
      rw [List.append_nil, Shorthand.replace_nil, List.append_nil] at hcopy
      rw [hcopy]
      exact ⟨x, q, r, by simp, hx, hq⟩

theorem findBagEcho?_eq_none_of_notMem (ht : '}' ∉ t) : findBagEcho? t = none := by
  by_contra h
  obtain ⟨f, hf⟩ := Option.ne_none_iff_exists'.1 h
  have htext := (eq_of_findBagEcho? hf).1
  obtain ⟨w, b, r, -, -, rfl⟩ := exists_of_findBagEcho? hf
  rw [htext] at ht
  simp at ht

/-- An echo in which a quoted value starts is left in the text. -/
theorem exists_expand_bagText (callee : Helper → Text) (hb : '}' ∉ b)
    (h : Unvalued b → ¬ ∀ c d, [c, ':', '$', d] <:+: b → Character.isWhiteSpace c = true →
      Character.isWordUnicode d = false) :
    ∃ u, expand callee (' ' :: bagText b) = bagStart ++ u := by
  obtain ⟨u, hshort, hopen⟩ := exists_shortBinding_expand hb h
  obtain ⟨x, q, y, hquote, hx, -⟩ := toQuote?_of_unclosed hopen
  have hbag : ∃ r, bagEcho.expand (bagStart ++ u) = bagStart ++ r := by
    have hstart : '}' ∉ Run.plainStart u := by
      rw [Run.plainStart, hquote]
      simp [hx]
    have hecho : '}' ∉ ['{', '{'] ++ (' ' :: bagVariable ++ Run.plainStart u) := by
      have hvar : '}' ∉ bagVariable := by decide
      simp [hstart, hvar]
    obtain ⟨r, hr, -⟩ := exists_expand_bagStart bagEcho_tight (findBagEcho?_eq_none_of_notMem hecho)
      (findBagEcho?_eq_none (not_bag_prefix_of_head? rfl (by decide)))
    exact ⟨_, hr⟩
  obtain ⟨r, hbag⟩ := hbag
  have hhelper : expandHelpers callee (bagStart ++ r) = bagStart ++ expandHelpers callee r :=
    expandHelpers_of_notMem callee (by decide) (by decide) r
  obtain ⟨r', hcolon, -⟩ := exists_expand_bagStart (u := expandHelpers callee r) colonBinding_tight
    (findColonBinding?_of_head? (by simp))
    (findColonBinding?_of_head? (show some '$' ≠ some ':' by decide))
  exact ⟨_, by rw [expand, hshort, hbag, hhelper, hcolon]⟩

/-! ## Replacing the echo -/

theorem shortBinding_expand_bagText (hval : Unvalued b)
    (hshort : ∀ c d, [c, ':', '$', d] <:+: b → Character.isWhiteSpace c = true →
      Character.isWordUnicode d = false) :
    shortBinding.expand (' ' :: bagText b) = ' ' :: bagText b := by
  obtain ⟨r, hexpand, hr⟩ := exists_expand_bagStart (u := b ++ ['}', '}']) shortBinding_tight
    (find?_shortBinding_cons (by decide) _) (find?_shortBinding_cons (by decide) _)
  rw [toQuote?_append_braces hval, Option.map_none, List.head?_eq_none_iff] at hr
  have hcopy : shortBinding.replace (b ++ ['}', '}']) = b ++ shortBinding.replace ['}', '}'] := by
    refine Shorthand.replace_append fun x c y hxy hc => ?_
    show findShortBinding? (y ++ ['}', '}']) = none
    refine findShortBinding?_eq_none_iff.2 fun d z hz => ?_
    rw [Bool.eq_false_iff]
    intro hd
    have hbrace : d ∉ ['}', '}'] := fun hm => by
      rw [show d = '}' by simpa using hm] at hd
      exact absurd hd (by decide)
    have hinfix : ([c, ':', '$'] ++ [d]) <:+: b ++ ['}', '}'] :=
      ⟨x, z, by simp [hxy, hz]⟩
    rw [hshort c d (infix_of_infix_append_right hbrace hinfix) hc] at hd
    cases hd
  have hbraces := Shorthand.replace_append_of_solid (s := shortBinding) (y := ['}', '}'])
    (by decide) []
  rw [List.append_nil, Shorthand.replace_nil, List.append_nil] at hbraces
  rw [cons_bagText, hexpand, plainStart_append_braces hval, hcopy, hbraces, hr, List.append_nil]

theorem bagEcho_expand_bagText (hb : '}' ∉ b) (hword : Stops Character.isWordUnicode b)
    (hval : Unvalued b) :
    bagEcho.expand (' ' :: bagText b) =
      ' ' :: binding bagName (bagVariable ++ Text.trimEnd b) := by
  have hspace : ∀ c ∈ [' '], Character.isSpace c = true := by decide
  have hstop : ∀ p, Stops Character.isWhiteSpace (bagText b ++ p) := fun p =>
    Text.stops_cons.2 (by decide)
  have hexpand := Shorthand.expand_unvalued (w := [' ']) (z := bagText b)
    (y := ' ' :: binding bagName (bagVariable ++ Text.trimEnd b)) bagEcho_tight
    (by decide) hspace (unvalued_bag hspace hval) Text.spaced_nil fun p _ => by
      have hfind : bagEcho.find? (bagText b ++ p) = _ := findBagEcho?_append hspace hb hword p
      rw [Shorthand.replace_found bagEcho_tight (by decide) hspace (hstop p) hfind]
      rfl
  have hnil := Shorthand.expand_space bagEcho_tight (w := []) (by simp)
  rw [List.append_nil, hnil, List.append_nil] at hexpand
  exact hexpand

/-- A double quote in the echo ends the value early. -/
theorem exists_ofText_of_mem_quote (callee : Helper → Text) {x y : Text} (hx : '"' ∉ x) :
    ∃ u, colonBinding.expand (expandHelpers callee
        (' ' :: binding bagName (bagVariable ++ (x ++ '"' :: y)))) =
      markedBinding bagName (bagVariable ++ x) ++ u := by
  have hvalue : '"' ∉ bagVariable ++ x := by
    rw [List.mem_append, not_or]
    exact ⟨by decide, hx⟩
  have htext : ' ' :: binding bagName (bagVariable ++ (x ++ '"' :: y)) =
      ' ' :: binding bagName (bagVariable ++ x) ++ (y ++ ['"']) := by
    simp [binding]
  rw [htext, expandHelpers_binding callee (by decide) (by decide) hvalue,
    colonBinding_expand_binding ⟨by decide, by decide⟩ (by decide) hvalue]
  exact ⟨_, rfl⟩

/-- The attribute that forwards the bag. -/
def bagAttribute (b : Text) : Attribute := ⟨bagName, bagVariable ++ Text.trimEnd b, .spread⟩

theorem parse_expand_bagText (callee : Helper → Text) (splitter : Echo.Splitter)
    (hb : '}' ∉ b) (hword : Stops Character.isWordUnicode b) (h : Verbatim b) :
    Listing.parse splitter (expand callee (' ' :: bagText b)) = ⟨[bagAttribute b], [bagName]⟩ := by
  have hvalue : '"' ∉ bagVariable ++ Text.trimEnd b := by
    rw [List.mem_append, not_or]
    exact ⟨by decide, fun hm => h.notMem_quote (Text.mem_of_mem_trimEnd hm)⟩
  have hne : bagVariable ++ Text.trimEnd b ≠ [] := fun he =>
    absurd (List.append_eq_nil_iff.1 he).1 (by decide)
  have hname : IsName bagName := ⟨by decide, by decide⟩
  have hhelper := expandHelpers_binding callee (n := bagName) (by decide) (by decide) hvalue []
  rw [List.append_nil, expandHelpers_nil, List.append_nil] at hhelper
  rw [expand, shortBinding_expand_bagText h.unvalued h.not_short,
    bagEcho_expand_bagText hb hword h.unvalued, hhelper,
    parse_binding hname splitter (by decide) hne hvalue, ofExpr_bag]
  rfl

/-- The expression of the bag has as many dollar signs as the attribute text. -/
theorem count_bagAttribute (b : Text) :
    (bagAttribute b).value.count '$' = (' ' :: bagText b).count '$' := by
  have hstart : bagStart.count '$' = bagVariable.count '$' := by decide
  have hbraces : ['}', '}'].count '$' = 0 := by decide
  show (bagVariable ++ Text.trimEnd b).count '$' = _
  rw [cons_bagText, List.count_append, List.count_append, List.count_append, hstart, hbraces,
    Text.count_trimEnd (by decide), Nat.add_zero]

theorem kind_bagAttribute_ne (b : Text) : (bagAttribute b).kind ≠ .literal :=
  show Kind.spread ≠ .literal by decide

theorem value_bagAttribute_ne (b : Text) : (bagAttribute b).value ≠ "true".toList := by
  intro h
  have hcount : (bagVariable ++ Text.trimEnd b).count '$' = "true".toList.count '$' :=
    congrArg (List.count '$') h
  rw [List.count_append, show bagVariable.count '$' = 1 by decide,
    show "true".toList.count '$' = 0 by decide] at hcount
  omega

section Converse

variable {callee : Helper → Text} {splitter : Echo.Splitter} (hcallee : ∀ h, '$' ∉ callee h)
  (hmem : bagAttribute b ∈ (Listing.parse splitter (expand callee (' ' :: bagText b))).items)

include hcallee hmem

/-- The expression of the bag takes all dollar signs, so none stand before the tokens. -/
theorem expand_bagText_ne (u : Text) : expand callee (' ' :: bagText b) ≠ bagStart ++ u := by
  intro hu
  have hcount := count_expand (d := '$') (by decide) hcallee (' ' :: bagText b)
  rw [← count_bagAttribute, hu] at hcount
  have htext : bagStart ++ u = [' ', '{', '{', ' ', '$'] ++ (bagName ++ u) := by
    rw [← List.append_assoc, show bagStart = [' ', '{', '{', ' ', '$'] ++ bagName by decide]
  rw [hu, Listing.parse, htext, Token.ofText_skip (by decide)] at hmem
  have hle := count_value_le hmem (kind_bagAttribute_ne b) (value_bagAttribute_ne b) '$'
  rw [htext, List.count_append, show [' ', '{', '{', ' ', '$'].count '$' = 1 by decide] at hcount
  omega

/-- No quoted value starts in the echo, and no short binding is found in it. -/
theorem unvalued_of_mem_items (hb : '}' ∉ b) :
    Unvalued b ∧ ∀ c d, [c, ':', '$', d] <:+: b → Character.isWhiteSpace c = true →
      Character.isWordUnicode d = false := by
  by_contra h
  obtain ⟨u, hu⟩ := exists_expand_bagText callee hb fun hval hshort => h ⟨hval, hshort⟩
  exact expand_bagText_ne hcallee hmem u hu

/-- There is no double quote in the echo. -/
theorem notMem_quote_of_mem_items (hb : '}' ∉ b) (hword : Stops Character.isWordUnicode b) :
    '"' ∉ b := by
  intro hquote
  obtain ⟨hval, hshort⟩ := unvalued_of_mem_items hcallee hmem hb
  have htrim : '"' ∈ Text.trimEnd b := by
    rw [← List.count_pos_iff, Text.count_trimEnd (by decide)]
    exact List.count_pos_iff.2 hquote
  obtain ⟨x, y, hxy, hx⟩ := List.eq_append_cons_of_mem htrim
  obtain ⟨u, hu⟩ := exists_ofText_of_mem_quote callee (y := y) hx
  have hexpand : expand callee (' ' :: bagText b) =
      markedBinding bagName (bagVariable ++ x) ++ u := by
    rw [expand, shortBinding_expand_bagText hval hshort, bagEcho_expand_bagText hb hword hval, hxy,
      hu]
  have hne : bagVariable ++ x ≠ [] := fun he =>
    absurd (List.append_eq_nil_iff.1 he).1 (by decide)
  have hvalue : '"' ∉ bagVariable ++ x := by
    rw [List.mem_append, not_or]
    exact ⟨by decide, hx⟩
  have hcount := count_expand (d := '$') (by decide) hcallee (' ' :: bagText b)
  rw [← count_bagAttribute, hexpand, List.count_append, count_markedBinding (by decide),
    List.count_append, show bagVariable.count '$' = 1 by decide] at hcount
  rw [hexpand] at hmem
  rcases value_eq_or_count_le ⟨by decide, by decide⟩ hne hvalue hmem (kind_bagAttribute_ne b)
    (value_bagAttribute_ne b) with hshorter | hle
  · -- the value stops at the quote
    replace hshorter : bagVariable ++ Text.trimEnd b = bagVariable ++ x := hshorter
    rw [hxy, List.append_cancel_left_eq] at hshorter
    simp at hshorter
  · -- the dollar sign of the variable stands in the first value
    have hrest := hle '$'
    omega

end Converse

/-! ## Texts that are forwarded -/

theorem pieces_bagText (hb : '}' ∉ b) :
    Document.pieces (Tag.single (bagText b)) =
      [.tag ⟨.opening ['c'] (' ' :: bagText b) false, Tag.single (bagText b),
        ⟨Position.start, Position.start.walk (Tag.single (bagText b))⟩⟩] := by
  have hlast : (bagText b).getLast? = some '}' := by
    rw [bagText, List.getLast?_append_of_ne_nil _ (by decide)]
    rfl
  exact Tag.pieces_single (.bag (by decide) hb) hlast (by decide) (by decide)

/-- **Exactly the verbatim texts are forwarded with the bag.**  A tag with an echo of the bag
is always recognised, as one opening tag.  If the text behind the variable is verbatim, then
the tag has one attribute, which forwards the bag with the whole expression.  Otherwise no
attribute of the tag does, unless the names of helper functions have dollar signs in them. -/
theorem spread_iff_verbatim {b : Text} (hb : '}' ∉ b) (hword : Stops Character.isWordUnicode b)
    (callee : Helper → Text) (splitter : Echo.Splitter) :
    Document.pieces (Tag.single (bagText b)) =
        [.tag ⟨.opening ['c'] (' ' :: bagText b) false, Tag.single (bagText b),
          ⟨Position.start, Position.start.walk (Tag.single (bagText b))⟩⟩] ∧
      (Verbatim b → Listing.parse splitter (expand callee (' ' :: bagText b)) =
        ⟨[bagAttribute b], [bagName]⟩) ∧
      ((∀ h, '$' ∉ callee h) →
        bagAttribute b ∈ (Listing.parse splitter (expand callee (' ' :: bagText b))).items →
        Verbatim b) := by
  refine ⟨pieces_bagText hb, parse_expand_bagText callee splitter hb hword,
    fun hcallee hmem => ?_⟩
  obtain ⟨hval, hshort⟩ := unvalued_of_mem_items hcallee hmem hb
  exact ⟨notMem_quote_of_mem_items hcallee hmem hb hword, hval, hshort⟩

/-- A method call with single quotes, a comparison and a conditional in its arguments. -/
def mergeText : Text := "->merge(['c' => $a == 1 ? 'on' : Css::$off]) ".toList

theorem spread_iff_verbatim_merge :
    '}' ∉ mergeText ∧ Stops Character.isWordUnicode mergeText ∧ Verbatim mergeText ∧
      (∀ h, '$' ∉ Config.standard.callee h) ∧
      Document.pieces (Tag.single (bagText mergeText)) =
        [.tag ⟨.opening ['c'] (' ' :: bagText mergeText) false, Tag.single (bagText mergeText),
          ⟨Position.start, Position.start.walk (Tag.single (bagText mergeText))⟩⟩] ∧
      Listing.parse Echo.standard (expand Config.standard.callee (' ' :: bagText mergeText)) =
        ⟨[⟨bagName, "$attributes->merge(['c' => $a == 1 ? 'on' : Css::$off])".toList, .spread⟩],
          [bagName]⟩ := by
  have hb : '}' ∉ mergeText := by decide
  have hword : Stops Character.isWordUnicode mergeText := Text.stops_cons.2 (by decide)
  have hcallee : ∀ h, '$' ∉ Config.standard.callee h := by
    intro h
    cases h <;> decide
  have hshort : ∀ c ∈ mergeText, Character.isWhiteSpace c = true →
      ¬ [c, ':', '$'] <:+: mergeText := by
    decide +kernel
  have hverbatim : Verbatim mergeText :=
    ⟨by decide, Run.unvalued_iff.2 (by decide), fun c d h hc =>
      absurd (List.IsInfix.trans ⟨[], [d], rfl⟩ h) (hshort c (h.subset (by simp)) hc)⟩
  have hvalue : bagVariable ++ Text.trimEnd mergeText =
      "$attributes->merge(['c' => $a == 1 ? 'on' : Css::$off])".toList := by decide
  obtain ⟨hpieces, hparse, -⟩ :=
    spread_iff_verbatim hb hword Config.standard.callee Echo.standard
  refine ⟨hb, hword, hverbatim, hcallee, hpieces, ?_⟩
  rw [hparse hverbatim, bagAttribute, hvalue]

/-- A double quote ends the expression early; a short binding in a conditional, and a string
that is compared without a blank before it, keep the echo from being found. -/
theorem not_spread :
    Listing.parse Echo.standard (expand Config.standard.callee
        (' ' :: bagText "->merge([\"class\" => \"x\"]) ".toList)) =
      ⟨[⟨bagName, "$attributes->merge([".toList, .spread⟩,
          ⟨"class".toList, "true".toList, .bound⟩, ⟨"x".toList, "true".toList, .bound⟩],
        [bagName, "class".toList, "x".toList]⟩ ∧
    Listing.parse Echo.standard (expand Config.standard.callee
        (' ' :: bagText "->merge($a ? $b :$c) ".toList)) =
      ⟨[⟨"attributes-".toList, "true".toList, .bound⟩, ⟨"merge".toList, "true".toList, .bound⟩,
          ⟨"a".toList, "true".toList, .bound⟩, ⟨"b".toList, "true".toList, .bound⟩,
          ⟨"c".toList, "$c".toList, .bound⟩],
        ["attributes-".toList, "merge".toList, "a".toList, "b".toList, "c".toList]⟩ ∧
    Listing.parse Echo.standard (expand Config.standard.callee
        (' ' :: bagText "->when($a=='b') ".toList)) =
      ⟨[⟨"attributes-".toList, "true".toList, .bound⟩, ⟨"when".toList, "true".toList, .bound⟩,
          ⟨"a".toList, "'=\\'b\\')'".toList, .literal⟩],
        ["attributes-".toList, "when".toList]⟩ := by
  refine ⟨?_, ?_, ?_⟩ <;> decide +kernel

end Attribute
end TemplateTags
