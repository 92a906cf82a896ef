import TemplateTags.Proofs.Attribute.Spelling
import TemplateTags.Proofs.Helper

/-!
# Expanding attribute text entry by entry

The first three expansions write a binding with a colon: for a short binding, for an echo of
the attribute bag, and for a helper call.  Each of them turns spellings of one kind into names
with values and leaves the others as they are, so it is a map on the entries of attribute
text: `Entry.expandShort`, `Entry.expandBag`, `Entry.expandHelper`.

For each of them there is a lemma for one entry in front of any spaced text
(`shortBinding_expand_entry`, `bagEcho_expand_entry`, `expandHelpers_entry`).  The lemmas for
helper calls leave bag echoes out, since these are gone by then.

What a shorthand takes and what is written for it is said once, whatever stands around it
(`exists_of_findShortBinding?`, `exists_of_findBagEcho?`, `exists_of_findColonBinding?`).
-/

namespace TemplateTags

open Text (Stops Spaced strip? strip?_append strip?_eq_some_iff)
open Attribute (IsName Written)
open Attribute.Run (Unvalued unvalued_of_notMem)

/-! ## Entries that are copied -/

namespace Shorthand

variable {s : Shorthand} {w w' n n' z u : Text}

theorem unvalued_append_of_notMem (hw : '=' ∉ w) (hz : Unvalued z) : Unvalued (w ++ z) := by
  induction w with
  | nil => exact hz
  | cons c w ih =>
    rw [List.mem_cons, not_or] at hw
    exact Attribute.Run.unvalued_cons.2 ⟨fun he => absurd he.symm hw.1, ih hw.2⟩

/-- An attribute without a quoted value, behind its white space. -/
theorem expand_unvalued {y : Text} (hs : s.Tight) (hne : w ≠ [])
    (hw : ∀ c ∈ w, Character.isSpace c = true) (hz : Unvalued z) (hu : Spaced u)
    (h : ∀ p, Spaced p → s.replace (w ++ (z ++ p)) = y ++ s.replace p) :
    s.expand (w ++ (z ++ u)) = y ++ s.expand u := by
  have hval := unvalued_append_of_notMem (Text.notMem_of_forall hw (by decide)) hz
  have hspaced : Spaced (w ++ z) := (Text.spaced_of_forall hw).append hne z
  rw [← List.append_assoc]
  refine expand_append hs (by simp [hne]) hspaced hval hu fun p hp => ?_
  rw [List.append_assoc]
  exact h p hp

/-- A solid text at which no shorthand is found is copied. -/
theorem expand_solid (hs : s.Tight) (hne : w ≠ []) (hw : ∀ c ∈ w, Character.isSpace c = true)
    (hz : Unvalued z) (hzne : z ≠ []) (hsolid : ∀ c ∈ z, Character.isWhiteSpace c = false)
    (hu : Spaced u) (hfind : ∀ p, Spaced p → s.find? (z ++ p) = none) :
    s.expand (w ++ (z ++ u)) = w ++ (z ++ s.expand u) := by
  rw [← List.append_assoc w z (s.expand u)]
  refine expand_unvalued hs hne hw hz hu fun p hp => ?_
  have hstop : Stops Character.isWhiteSpace (z ++ p) := by
    cases z with
    | nil => exact absurd rfl hzne
    | cons c z => exact Text.stops_cons.2 (hsolid c (List.mem_cons_self ..))
  rw [replace_space hs hw hstop (hfind p hp), replace_append_of_solid hsolid,
    List.append_assoc]

/-- A bare value is no quoted value. -/
theorem unvalued_bare {v : Text} (hne : v ≠ [])
    (hv : ∀ c ∈ v, Character.isBareValue c = true) : Unvalued ('=' :: v) := by
  have hfirst : Stops Character.isQuote v := by
    cases v with
    | nil => exact absurd rfl hne
    | cons c v =>
      have hc := hv c (List.mem_cons_self ..)
      simp only [Character.isBareValue, Bool.and_eq_true] at hc
      exact Text.stops_cons.2 (by simpa using hc.1.1.1.2)
  have hnoeq : '=' ∉ v := Text.notMem_of_forall hv (by decide)
  exact Attribute.Run.unvalued_cons.2 ⟨fun _ => hfirst, unvalued_of_notMem hnoeq⟩

/-- A name with a value, given what becomes of the name. -/
theorem expand_assigned {v : Written} (hs : s.Tight) (hne : w ≠ [])
    (hw : ∀ c ∈ w, Character.isSpace c = true) (hn : IsName n) (hv : v.WellFormed)
    (hu : Spaced u)
    (hrep : ∀ r, s.replace (w ++ (n ++ '=' :: r)) = w' ++ (n' ++ '=' :: s.replace r)) :
    s.expand (w ++ ((n ++ '=' :: v.print) ++ u)) =
      w' ++ ((n' ++ '=' :: v.print) ++ s.expand u) := by
  have heq : '=' ∉ n := hn.notMem (by decide)
  cases hv with
  | @quoted q v hq hv =>
    have hval := unvalued_append_of_notMem (Text.notMem_of_forall hw (by decide))
      (unvalued_of_notMem heq)
    have hspaced : Spaced (w ++ n) := (Text.spaced_of_forall hw).append hne n
    have hexpand := expand_append_value hs (by simp [hne]) hspaced hval hq hv hu
    have hname := hrep []
    rw [replace_nil] at hname
    rw [List.append_assoc w n, hname] at hexpand
    simpa [Written.print] using hexpand
  | @bare v hvne hv hsolid hat =>
    have hval : Unvalued (n ++ '=' :: v) := unvalued_append_of_notMem heq
      (unvalued_bare hvne hv)
    show s.expand (w ++ ((n ++ '=' :: v) ++ u)) = w' ++ ((n' ++ '=' :: v) ++ s.expand u)
    rw [← List.append_assoc w']
    refine expand_unvalued hs hne hw hval hu fun p _ => ?_
    have hrest := hrep (v ++ p)
    rw [replace_append_of_solid hsolid] at hrest
    simpa using hrest

/-- A name at which no shorthand is found is copied with its white space. -/
theorem replace_name (hs : s.Tight) (hw : ∀ c ∈ w, Character.isSpace c = true) (hn : IsName n)
    (hfind : ∀ r, s.find? (n ++ '=' :: r) = none) (r : Text) :
    s.replace (w ++ (n ++ '=' :: r)) = w ++ (n ++ '=' :: s.replace r) := by
  have hsolid : ∀ c ∈ n ++ ['='], Character.isWhiteSpace c = false := by
    intro c hc
    rcases List.mem_append.1 hc with hc | hc
    · exact hn.solid c hc
    · rw [List.mem_singleton.1 hc]
      decide
  have hstop : Stops Character.isWhiteSpace (n ++ '=' :: r) := by
    cases n with
    | nil => exact absurd rfl hn.ne_nil
    | cons c n => exact Text.stops_cons.2 (hn.solid c (List.mem_cons_self ..))
  rw [replace_space hs hw hstop (hfind r)]
  have hcopy := replace_append_of_solid (s := s) hsolid r
  simp only [List.append_assoc, List.singleton_append] at hcopy
  rw [hcopy]

/-- White space alone is copied. -/
theorem expand_space (hs : s.Tight) (hw : ∀ c ∈ w, Character.isSpace c = true) :
    s.expand w = w := by
  have hval : Unvalued w := unvalued_of_notMem (Text.notMem_of_forall hw (by decide))
  have hspaced := Text.spaced_of_forall hw
  rw [expand_of_spaced hs hspaced,
    Attribute.Run.ofText_of_toQuote?_none (Attribute.Run.toQuote?_of_unvalued hval)]
  split
  · next h => rw [h]; rfl
  · show s.expandPlain false w ++ [] = w
    have hcopy := replace_space hs hw (Text.stops_nil (p := Character.isWhiteSpace)) s.find?_nil
    rw [expandPlain_of_spaced hs _ hspaced]
    rw [List.append_nil, replace_nil, List.append_nil] at hcopy
    rw [hcopy, List.append_nil]

end Shorthand

namespace Attribute

variable {w n z p u t : Text}

/-! ## What shorthands take and write -/

theorem exists_of_findShortBinding? {f : Shorthand.Found} (h : findShortBinding? t = some f) :
    ∃ n r, n ≠ [] ∧ (∀ c ∈ n, Character.isWordUnicode c = true) ∧
      f = ⟨[':', '$'] ++ n, binding n ('$' :: n), r⟩ := by
  simp only [findShortBinding?, Option.bind_eq_bind, Option.bind_eq_some_iff, Option.pure_def,
    Option.ite_none_left_eq_some, Option.some.injEq] at h
  obtain ⟨r, -, hne, rfl⟩ := h
  exact ⟨_, _, hne, fun c hc => List.mem_takeWhile_imp hc, rfl⟩

theorem exists_of_findBagEcho? {f : Shorthand.Found} (h : findBagEcho? t = some f) :
    ∃ w b r, (∀ c ∈ w, Character.isWhiteSpace c = true) ∧ '}' ∉ b ∧
      f = ⟨['{', '{'] ++ w ++ bagVariable ++ b ++ ['}', '}'],
        binding bagName (bagVariable ++ Text.trimEnd b), r⟩ := by
  simp only [findBagEcho?, Option.bind_eq_bind, Option.bind_eq_some_iff, Option.pure_def,
    Option.ite_none_left_eq_some, Option.some.injEq] at h
  obtain ⟨r, -, b, -, -, s, -, rfl⟩ := h
  have hbrace : '}' ∉ b.takeWhile (· != '}') := fun hm =>
    absurd (List.mem_takeWhile_imp hm) (by decide)
  exact ⟨_, _, s, fun c hc => List.mem_takeWhile_imp hc, hbrace, rfl⟩

theorem exists_of_findColonBinding? {f : Shorthand.Found} (h : findColonBinding? t = some f) :
    ∃ n r, ¬ (n = [] ∨ n.head? = some ':') ∧
      (∀ c ∈ n, Character.isAttributeNameUnicode c = true) ∧
      f = ⟨':' :: n ++ ['='], bindMark ++ n ++ ['='], r⟩ := by
  simp only [findColonBinding?, Option.bind_eq_bind, Option.bind_eq_some_iff, Option.pure_def,
    Option.ite_none_left_eq_some, Option.some.injEq] at h
  obtain ⟨r, -, hne, s, -, rfl⟩ := h
  exact ⟨_, s, hne, fun c hc => List.mem_takeWhile_imp hc, rfl⟩

/-! ## Texts in front of spaced text -/

theorem strip?_of_not_isPrefix {a : Text} (h : ¬ a <+: t) : strip? a t = none := by
  by_contra hs
  obtain ⟨r, hr⟩ := Option.ne_none_iff_exists'.1 hs
  exact h ⟨r, (strip?_eq_some_iff.1 hr).symm⟩

/-- What spaced text starts with is white space. -/
theorem head?_ne_of_spaced (hp : Spaced p) {c : Char} (hc : Character.isSpace c = false) :
    p.head? ≠ some c := by
  intro h
  rw [hp c h] at hc
  cases hc

/-- Two characters that start a text with spaced text behind it start the text itself. -/
theorem pair_prefix_of_append {c d : Char} {b : Text} (hp : Spaced p)
    (hc : Character.isSpace c = false) (hd : Character.isSpace d = false)
    (h : [c, d] <+: b ++ p) : [c, d] <+: b := by
  match b with
  | [] =>
    obtain ⟨r, hr⟩ := h
    exact absurd (by rw [← List.nil_append p, ← hr]; rfl) (head?_ne_of_spaced hp hc)
  | [a] =>
    rw [List.singleton_append, List.cons_prefix_cons] at h
    obtain ⟨r, hr⟩ := h.2
    exact absurd (by rw [← hr]; rfl) (head?_ne_of_spaced hp hd)
  | a :: a' :: b =>
    rw [List.cons_append, List.cons_append, List.cons_prefix_cons, List.cons_prefix_cons] at h
    rw [List.cons_prefix_cons, List.cons_prefix_cons]
    exact ⟨h.1, h.2.1, List.nil_prefix⟩

/-! ## Short bindings -/

theorem findShortBinding?_eq_none (h : ¬ [':', '$'] <+: t) : findShortBinding? t = none := by
  rw [findShortBinding?, strip?_of_not_isPrefix h]
  rfl

theorem shortBinding_tight : shortBinding.Tight := by
  intro c t hc
  refine findShortBinding?_eq_none fun h => ?_
  rw [List.cons_prefix_cons] at h
  rw [← h.1] at hc
  exact absurd hc (by decide)

theorem not_short_prefix_of_isName (hn : IsName n) {r : Text} (hr : r.head? ≠ some '$') :
    ¬ [':', '$'] <+: n ++ r := by
  intro h
  match n, hn with
  | [], hn => exact hn.ne_nil rfl
  | [c], _ =>
    rw [List.singleton_append, List.cons_prefix_cons] at h
    obtain ⟨k, hk⟩ := h.2
    exact hr (by rw [← hk]; rfl)
  | c :: d :: n, hn =>
    rw [List.cons_append, List.cons_append, List.cons_prefix_cons, List.cons_prefix_cons] at h
    have hd := hn.chars d (by simp)
    rw [← h.2.1] at hd
    exact absurd hd (by decide)

theorem findShortBinding?_eq_none_iff :
    findShortBinding? t = none ↔
      ∀ d y, t = ':' :: '$' :: d :: y → Character.isWordUnicode d = false := by
  constructor
  · rintro h d y rfl
    rw [Bool.eq_false_iff]
    intro hd
    have hs : strip? [':', '$'] (':' :: '$' :: d :: y) = some (d :: y) := rfl
    rw [findShortBinding?, hs] at h
    simp [hd] at h
  · intro h
    by_cases hp : [':', '$'] <+: t
    · obtain ⟨r, rfl⟩ := hp
      have hname : r.takeWhile Character.isWordUnicode = [] := by
        cases r with
        | nil => rfl
        | cons d y => rw [List.takeWhile_cons, h d y rfl, if_neg Bool.false_ne_true]
      rw [findShortBinding?, strip?_append]
      simp only [Option.bind_eq_bind, Option.bind_some, hname, if_true]
    · exact findShortBinding?_eq_none hp

theorem findShortBinding?_append (hne : n ≠ [])
    (hword : ∀ c ∈ n, Character.isWordUnicode c = true)
    (hstop : Stops Character.isWordUnicode p) :
    findShortBinding? ([':', '$'] ++ n ++ p) =
      some ⟨':' :: '$' :: n, binding n ('$' :: n), p⟩ := by
  rw [findShortBinding?, List.append_assoc, strip?_append]
  simp only [Option.bind_eq_bind, Option.bind_some, Text.takeWhile_of_stops hword hstop,
    Text.dropWhile_of_stops hword hstop, if_neg hne]
  rfl

/-- A text without `:$` is copied. -/
theorem shortBinding_replace_append (hz : ¬ [':', '$'] <:+: z) (hp : Spaced p) :
    shortBinding.replace (z ++ p) = z ++ shortBinding.replace p := by
  refine Shorthand.replace_append fun a c b hab _ => ?_
  show findShortBinding? (b ++ p) = none
  refine findShortBinding?_eq_none fun h => hz ?_
  obtain ⟨k, hk⟩ := pair_prefix_of_append hp (by decide) (by decide) h
  refine ⟨a ++ [c], k, ?_⟩
  rw [hab, ← hk]
  simp

/-- An occurrence that starts with a character of the second text only lies in it. -/
theorem infix_of_infix_append_left {c : Char} {x a b : Text} (hc : c ∉ a)
    (h : (c :: x) <:+: a ++ b) : (c :: x) <:+: b := by
  obtain ⟨k, m, hkm⟩ := h
  rw [List.append_assoc] at hkm
  rcases List.append_eq_append_iff.1 hkm with ⟨j, rfl, hj⟩ | ⟨j, rfl, hj⟩
  · cases j with
    | nil => exact ⟨[], m, hj⟩
    | cons d j =>
      obtain ⟨rfl, -⟩ := List.cons.inj hj
      exact absurd (by simp) hc
  · exact ⟨j, m, by rw [hj, List.append_assoc]⟩

/-- An occurrence that ends with a character of the first text only lies in it. -/
theorem infix_of_infix_append_right {c : Char} {x a b : Text} (hc : c ∉ b)
    (h : (x ++ [c]) <:+: a ++ b) : (x ++ [c]) <:+: a := by
  obtain ⟨k, m, hkm⟩ := h
  rcases List.append_eq_append_iff.1 hkm with ⟨j, hj, rfl⟩ | ⟨j, hj, rfl⟩
  · exact ⟨k, j, hj.symm⟩
  · rcases List.eq_nil_or_concat j with rfl | ⟨j, d, rfl⟩
    · exact ⟨k, [], by rw [List.append_nil] at hj ⊢; exact hj⟩
    · rw [List.concat_eq_append, ← List.append_assoc, ← List.append_assoc] at hj
      obtain ⟨-, hd⟩ := List.append_inj' hj rfl
      cases hd
      exact absurd (by simp) hc

/-- What the expansion of short bindings makes of an entry. -/
def Entry.expandShort : Entry → Entry
  | ⟨w, .short n⟩ =>
    ⟨shortBinding.spaceBefore w, .assigned (':' :: n) (.quoted '"' ('$' :: n))⟩
  | e => e

theorem unvalued_bag {b : Text} (hw : ∀ c ∈ w, Character.isSpace c = true) (hb : Unvalued b) :
    Unvalued (['{', '{'] ++ w ++ bagVariable ++ b ++ ['}', '}']) := by
  have hfront : '=' ∉ ['{', '{'] ++ w ++ bagVariable := by
    have hspace : '=' ∉ w := Text.notMem_of_forall hw (by decide)
    rw [List.mem_append, List.mem_append, not_or, not_or]
    exact ⟨⟨by decide, hspace⟩, by decide⟩
  rw [List.append_assoc]
  exact Shorthand.unvalued_append_of_notMem hfront
    (hb.append (unvalued_of_notMem (by decide)) (Text.stops_cons.2 (by decide)))

theorem not_short_infix_bag {b : Text} (hw : ∀ c ∈ w, Character.isSpace c = true)
    (hb : ¬ [':', '$'] <:+: b) :
    ¬ [':', '$'] <:+: ['{', '{'] ++ w ++ bagVariable ++ b ++ ['}', '}'] := by
  intro h
  have hfront : ':' ∉ ['{', '{'] ++ w ++ bagVariable := by
    have hspace : ':' ∉ w := Text.notMem_of_forall hw (by decide)
    rw [List.mem_append, List.mem_append, not_or, not_or]
    exact ⟨⟨by decide, hspace⟩, by decide⟩
  rw [List.append_assoc] at h
  have hrest := infix_of_infix_append_left hfront h
  exact hb (infix_of_infix_append_right (x := [':']) (by decide) hrest)

theorem notMem_short {n : Text} (hn : ∀ c ∈ n, Character.isWord c = true) {d : Char}
    (hd : Character.isWord d = false) (hmark : d ∉ [':', '$']) : d ∉ [':', '$'] ++ n := by
  rw [List.mem_append, not_or]
  exact ⟨hmark, Text.notMem_of_forall hn hd⟩

theorem unvalued_helper (h : Helper) {g : Text} (hg : Unvalued g) : Unvalued (h.mark ++ g) :=
  Shorthand.unvalued_append_of_notMem (by cases h <;> decide) hg

theorem shortBinding_expand_append (hne : w ≠ []) (hw : ∀ c ∈ w, Character.isSpace c = true)
    (hval : Unvalued z) (hz : ¬ [':', '$'] <:+: z) {c : Char} (hhead : z.head? = some c)
    (hc : Character.isWhiteSpace c = false) (hu : Spaced u) :
    shortBinding.expand (w ++ (z ++ u)) = w ++ (z ++ shortBinding.expand u) := by
  rw [← List.append_assoc w z (shortBinding.expand u)]
  refine Shorthand.expand_unvalued shortBinding_tight hne hw hval hu fun p hp => ?_
  have hstop : Stops Character.isWhiteSpace (z ++ p) := by
    obtain ⟨z, rfl⟩ := List.head?_eq_some_iff.1 hhead
    exact Text.stops_cons.2 hc
  have hfind : shortBinding.find? (z ++ p) = none := findShortBinding?_eq_none fun h =>
    hz (pair_prefix_of_append hp (by decide) (by decide) h).isInfix
  rw [Shorthand.replace_space shortBinding_tight hw hstop hfind,
    shortBinding_replace_append hz hp, List.append_assoc]

theorem shortBinding_expand_entry (e : Entry) (u : Text) (he : e.WellFormed) (hu : Spaced u) :
    shortBinding.expand (e.space ++ (e.spelling.print ++ u)) =
      e.expandShort.space ++ (e.expandShort.spelling.print ++ shortBinding.expand u) := by
  obtain ⟨w, sp⟩ := e
  obtain ⟨hne, hw, hsp⟩ := he
  cases hsp with
  | @valueless n hn =>
    refine Shorthand.expand_solid shortBinding_tight hne hw
      (unvalued_of_notMem (hn.notMem (by decide))) hn.ne_nil hn.solid hu fun p hp => ?_
    exact findShortBinding?_eq_none
      (not_short_prefix_of_isName hn (head?_ne_of_spaced hp (by decide)))
  | @assigned n v hn hv =>
    refine Shorthand.expand_assigned shortBinding_tight hne hw hn hv hu ?_
    refine Shorthand.replace_name shortBinding_tight hw hn fun r => ?_
    exact findShortBinding?_eq_none (not_short_prefix_of_isName hn (by simp))
  | @short n hnne hn =>
    have hval : Unvalued ([':', '$'] ++ n) :=
      unvalued_of_notMem (notMem_short hn (by decide) (by decide))
    refine (Shorthand.expand_unvalued shortBinding_tight hne hw hval hu fun p hp => ?_).trans
      (List.append_assoc ..)
    have hfind : shortBinding.find? ([':', '$'] ++ n ++ p) = _ :=
      findShortBinding?_append hnne (fun c hc => Character.isWordUnicode_of_isWord (hn c hc))
        (hp.stops fun _ => Character.not_isWordUnicode_of_isSpace)
    have hstop : Stops Character.isWhiteSpace ([':', '$'] ++ n ++ p) :=
      Text.stops_cons.2 (by decide)
    rw [Shorthand.replace_found shortBinding_tight hne hw hstop hfind, ← List.append_assoc]
    simp [binding, Entry.expandShort, Spelling.print, Written.print]
  | @helper h g hg hval hshort hbag =>
    refine shortBinding_expand_append hne hw (unvalued_helper h hval) ?_ rfl (by decide) hu
    exact fun hi => hshort (infix_of_infix_append_left (by cases h <;> decide) hi)
  | @bag w' b hw' hb hword hquote hval hshort =>
    exact shortBinding_expand_append hne hw (unvalued_bag hw' hval)
      (not_short_infix_bag hw' hshort) rfl (by decide) hu

/-! ## The attribute bag -/

theorem findBagEcho?_eq_none (h : ¬ ['{', '{'] <+: t) : findBagEcho? t = none := by
  rw [findBagEcho?, strip?_of_not_isPrefix h]
  rfl

theorem bagEcho_tight : bagEcho.Tight := by
  intro c t hc
  refine findBagEcho?_eq_none fun h => ?_
  rw [List.cons_prefix_cons] at h
  rw [← h.1] at hc
  exact absurd hc (by decide)

theorem not_bag_prefix_of_head? {c : Char} (h : t.head? = some c) (hc : c ≠ '{') :
    ¬ ['{', '{'] <+: t := by
  obtain ⟨t, rfl⟩ := List.head?_eq_some_iff.1 h
  intro hi
  rw [List.cons_prefix_cons] at hi
  exact hc hi.1.symm

theorem findBagEcho?_append {b : Text} (hw : ∀ c ∈ w, Character.isSpace c = true)
    (hb : '}' ∉ b) (hword : Stops Character.isWordUnicode b) (p : Text) :
    findBagEcho? (['{', '{'] ++ w ++ bagVariable ++ b ++ ['}', '}'] ++ p) =
      some ⟨['{', '{'] ++ w ++ bagVariable ++ b ++ ['}', '}'],
        binding bagName (bagVariable ++ Text.trimEnd b), p⟩ := by
  have hspace : ∀ c ∈ w, Character.isWhiteSpace c = true := fun c hc =>
    Character.isWhiteSpace_of_isSpace (hw c hc)
  have hvar : Stops Character.isWhiteSpace (bagVariable ++ (b ++ (['}', '}'] ++ p))) :=
    Text.stops_cons.2 (by decide)
  have htake : (b ++ (['}', '}'] ++ p)).takeWhile (· != '}') = b := Text.takeWhile_of_notMem hb _
  have hdrop : (b ++ (['}', '}'] ++ p)).dropWhile (· != '}') = ['}', '}'] ++ p :=
    Text.dropWhile_of_notMem hb _
  have hhead : (b ++ (['}', '}'] ++ p)).head?.any Character.isWordUnicode = false := by
    cases b with
    | nil =>
      show Character.isWordUnicode '}' = false
      decide
    | cons c b => exact Text.stops_cons.1 hword
  have htext : ['{', '{'] ++ w ++ bagVariable ++ b ++ ['}', '}'] ++ p =
      ['{', '{'] ++ (w ++ (bagVariable ++ (b ++ (['}', '}'] ++ p)))) := by
    simp only [List.append_assoc]
  rw [htext, findBagEcho?, strip?_append]
  simp only [Option.bind_eq_bind, Option.bind_some, Text.dropWhile_of_stops hspace hvar,
    Text.takeWhile_of_stops hspace hvar, strip?_append, hhead, Bool.false_eq_true, if_false,
    htake, hdrop]
  rfl

/-- A text without `{{` that does not end with white space is copied. -/
theorem bagEcho_replace_append (hz : ¬ ['{', '{'] <:+: z) {d : Char}
    (hlast : z.getLast? = some d) (hd : Character.isWhiteSpace d = false) (hp : Spaced p) :
    bagEcho.replace (z ++ p) = z ++ bagEcho.replace p := by
  refine Shorthand.replace_append fun a c b hab hc => ?_
  have hmem : d ∈ b := by
    rw [hab, List.append_cons] at hlast
    cases b with
    | nil =>
      rw [List.append_nil, List.getLast?_concat, Option.some.injEq] at hlast
      rw [hlast, hd] at hc
      cases hc
    | cons e b =>
      have hend := List.getLast?_eq_some_getLast (List.cons_ne_nil e b)
      rw [List.getLast?_append, hend, Option.some_or, Option.some.injEq] at hlast
      rw [← hlast]
      exact List.getLast_mem _
  -- the white space does not reach through to the text behind
  have hne : (b.dropWhile Character.isWhiteSpace).isEmpty = false := by
    rw [List.isEmpty_eq_false_iff]
    intro he
    have hall := List.dropWhile_eq_nil_iff.1 he d hmem
    rw [hd] at hall
    cases hall
  have hafter : bagEcho.afterSpace (b ++ p) = b.dropWhile Character.isWhiteSpace ++ p := by
    show (b ++ p).dropWhile Character.isWhiteSpace = _
    rw [List.dropWhile_append, hne]
    rfl
  rw [hafter]
  refine findBagEcho?_eq_none fun h => hz ?_
  have hpair := pair_prefix_of_append hp (by decide) (by decide) h
  have hsuffix : b <:+ z := ⟨a ++ [c], by rw [hab]; simp⟩
  exact hpair.isInfix.trans ((List.dropWhile_suffix _).trans hsuffix).isInfix

/-- What the expansion of bag echoes makes of an entry. -/
def Entry.expandBag : Entry → Entry
  | ⟨w, .bag _ b⟩ =>
    ⟨bagEcho.spaceBefore w,
      .assigned (':' :: bagName) (.quoted '"' (bagVariable ++ Text.trimEnd b))⟩
  | e => e

theorem head?_append_of_isName (hn : IsName n) (r : Text) :
    ∃ c, (n ++ r).head? = some c ∧ c ≠ '{' := by
  cases n with
  | nil => exact absurd rfl hn.ne_nil
  | cons c n =>
    have hc := hn.chars c (List.mem_cons_self ..)
    refine ⟨c, rfl, ?_⟩
    rintro rfl
    exact absurd hc (by decide)

theorem bagEcho_expand_entry (e : Entry) (u : Text) (he : e.WellFormed) (hu : Spaced u) :
    bagEcho.expand (e.space ++ (e.spelling.print ++ u)) =
      e.expandBag.space ++ (e.expandBag.spelling.print ++ bagEcho.expand u) := by
  obtain ⟨w, sp⟩ := e
  obtain ⟨hne, hw, hsp⟩ := he
  cases hsp with
  | @valueless n hn =>
    refine Shorthand.expand_solid bagEcho_tight hne hw
      (unvalued_of_notMem (hn.notMem (by decide))) hn.ne_nil hn.solid hu fun p _ => ?_
    obtain ⟨c, hhead, hc⟩ := head?_append_of_isName hn p
    exact findBagEcho?_eq_none (not_bag_prefix_of_head? hhead hc)
  | @assigned n v hn hv =>
    refine Shorthand.expand_assigned bagEcho_tight hne hw hn hv hu ?_
    refine Shorthand.replace_name bagEcho_tight hw hn fun r => ?_
    obtain ⟨c, hhead, hc⟩ := head?_append_of_isName hn ('=' :: r)
    exact findBagEcho?_eq_none (not_bag_prefix_of_head? hhead hc)
  | @short n hnne hn =>
    have hval : Unvalued ([':', '$'] ++ n) :=
      unvalued_of_notMem (notMem_short hn (by decide) (by decide))
    have hsolid : ∀ c ∈ [':', '$'] ++ n, Character.isWhiteSpace c = false := by
      intro c hc
      rcases List.mem_append.1 hc with hc | hc
      · exact (by decide : ∀ d ∈ [':', '$'], Character.isWhiteSpace d = false) c hc
      · exact Character.not_isWhiteSpace_of_isAttributeName
          (Character.isAttributeName_of_isWord (hn c hc))
    exact Shorthand.expand_solid bagEcho_tight hne hw hval (List.cons_ne_nil _ _) hsolid hu
      fun p _ => findBagEcho?_eq_none (not_bag_prefix_of_head? rfl (by decide))
  | @helper h g hg hval hshort hbag =>
    refine (Shorthand.expand_unvalued bagEcho_tight hne hw (unvalued_helper h hval) hu
      fun p hp => ?_).trans (List.append_assoc ..)
    have hstop : Stops Character.isWhiteSpace (h.mark ++ g ++ p) :=
      Text.stops_cons.2 (by decide)
    have hfind : bagEcho.find? (h.mark ++ g ++ p) = none :=
      findBagEcho?_eq_none (not_bag_prefix_of_head? rfl (by decide))
    have hinfix : ¬ ['{', '{'] <:+: h.mark ++ g := fun hi =>
      hbag (infix_of_infix_append_left (by cases h <;> decide) hi)
    have hlast : (h.mark ++ g).getLast? = some ')' := by
      obtain ⟨a, -, rfl⟩ := hg
      rw [← List.append_assoc, List.getLast?_concat]
    rw [Shorthand.replace_space bagEcho_tight hw hstop hfind,
      bagEcho_replace_append hinfix hlast (by decide) hp, ← List.append_assoc]
    rfl
  | @bag w' b hw' hb hword hquote hval hshort =>
    refine (Shorthand.expand_unvalued bagEcho_tight hne hw (unvalued_bag hw' hval) hu
      fun p _ => ?_).trans (List.append_assoc ..)
    have hfind : bagEcho.find? (['{', '{'] ++ w' ++ bagVariable ++ b ++ ['}', '}'] ++ p) = _ :=
      findBagEcho?_append hw' hb hword p
    have hstop : Stops Character.isWhiteSpace
        (['{', '{'] ++ w' ++ bagVariable ++ b ++ ['}', '}'] ++ p) :=
      Text.stops_cons.2 (by decide)
    rw [Shorthand.replace_found bagEcho_tight hne hw hstop hfind, ← List.append_assoc]
    simp only [binding, Entry.expandBag, Spelling.print, Written.print, List.append_assoc,
      List.cons_append, List.nil_append]

/-! ## Helper calls -/

section Helpers

variable (callee : Helper → Text)

theorem call?_cons_eq_none {c : Char} (hc : c ≠ '@') (t : Text) :
    Helper.call? (c :: t) = none := by
  by_contra h
  obtain ⟨⟨k, g, r⟩, hk⟩ := Option.ne_none_iff_exists'.1 h
  exact hc (List.cons.inj (Helper.eq_of_call? hk)).1

theorem expandHelpers_nil : expandHelpers callee [] = [] := by rw [expandHelpers]

theorem expandHelpers_call (h : Helper) {g : Text} (hg : Group.IsGroup g) (r : Text) :
    expandHelpers callee (h.mark ++ g ++ r) =
      binding h.name (callee h ++ singleQuoted g) ++ expandHelpers callee r := by
  have hcall := Helper.call?_append h hg r
  show expandHelpers callee ('@' :: (h.name ++ g ++ r)) = _
  rw [expandHelpers]
  split
  · next k args rest hk =>
    rw [show '@' :: (h.name ++ g ++ r) = h.mark ++ g ++ r from rfl, hcall] at hk
    cases hk
    rfl
  · next hk =>
    rw [show '@' :: (h.name ++ g ++ r) = h.mark ++ g ++ r from rfl, hcall] at hk
    cases hk

theorem expandHelpers_cons {c : Char} (hcall : Helper.call? (c :: t) = none)
    (hq : c = '=' → Stops Character.isQuote t) :
    expandHelpers callee (c :: t) = c :: expandHelpers callee t := by
  rw [expandHelpers]
  split
  · next hk =>
    rw [hcall] at hk
    cases hk
  · cases t with
    | nil => rw [expandHelpers_nil]
    | cons q r =>
      have hneg : ¬ ((decide (c = '=') && Character.isQuote q) = true) := by
        rw [Bool.and_eq_true, decide_eq_true_eq]
        rintro ⟨hc, hquote⟩
        rw [Text.stops_cons.1 (hq hc)] at hquote
        cases hquote
      simp only [if_neg hneg]

theorem expandHelpers_value {q : Char} {v : Text} (hq : Character.isQuote q = true)
    (hv : q ∉ v) (u : Text) :
    expandHelpers callee ('=' :: (q :: v ++ [q]) ++ u) =
      '=' :: (q :: v ++ [q]) ++ expandHelpers callee u := by
  have htext : '=' :: (q :: v ++ [q]) ++ u = '=' :: q :: (v ++ q :: u) := by simp
  rw [htext, expandHelpers]
  split
  · next hk =>
    rw [call?_cons_eq_none (by decide)] at hk
    cases hk
  · simp only [hq, Run.value_append hv, decide_true, Bool.and_true, if_true]

/-- A text without at signs and without quoted values is copied. -/
theorem expandHelpers_append (hat : '@' ∉ z) (hz : Unvalued z)
    (hu : Stops Character.isQuote u) :
    expandHelpers callee (z ++ u) = z ++ expandHelpers callee u := by
  induction z with
  | nil => rfl
  | cons c z ih =>
    rw [List.mem_cons, not_or] at hat
    obtain ⟨hc, hz⟩ := Run.unvalued_cons.1 hz
    have hstop : c = '=' → Stops Character.isQuote (z ++ u) := by
      intro he
      cases z with
      | nil => exact hu
      | cons d z => exact hc he
    rw [List.cons_append, expandHelpers_cons callee (call?_cons_eq_none (Ne.symm hat.1) _) hstop,
      ih hat.2 hz]
    rfl

/-- A name that no parenthesis follows is copied, at signs included. -/
theorem expandHelpers_name {r : Text} (hn : ∀ c ∈ n, Character.isAttributeName c = true)
    (hr : Stops Character.isAttributeName r) (hparen : r.head? ≠ some '(') :
    expandHelpers callee (n ++ r) = n ++ expandHelpers callee r := by
  induction n with
  | nil => rfl
  | cons c n ih =>
    have hc := hn c (List.mem_cons_self ..)
    have hne : c ≠ '=' := by
      rintro rfl
      exact absurd hc (by decide)
    have hcall : Helper.call? (c :: (n ++ r)) = none := Helper.call?_eq_none hn hr hparen
    rw [List.cons_append, expandHelpers_cons callee hcall fun he => absurd he hne,
      ih fun d hd => hn d (List.mem_cons_of_mem _ hd)]
    rfl

/-- What the expansion of helper calls makes of an entry. -/
def Entry.expandHelper : Entry → Entry
  | ⟨w, .helper h g⟩ =>
    ⟨w, .assigned (':' :: h.name) (.quoted '"' (callee h ++ singleQuoted g))⟩
  | e => e

theorem expandHelpers_space (hw : ∀ c ∈ w, Character.isSpace c = true)
    (hu : Stops Character.isQuote u) :
    expandHelpers callee (w ++ u) = w ++ expandHelpers callee u :=
  expandHelpers_append callee (Text.notMem_of_forall hw (by decide))
    (unvalued_of_notMem (Text.notMem_of_forall hw (by decide))) hu

theorem not_isQuote_of_isAttributeName {c : Char} (h : Character.isAttributeName c = true) :
    Character.isQuote c = false := by
  rw [Bool.eq_false_iff]
  intro hq
  rcases Character.isQuote_iff.1 hq with rfl | rfl
  · exact absurd h (by decide)
  · exact absurd h (by decide)

theorem stops_isQuote_of_isName (hn : IsName n) (r : Text) :
    Stops Character.isQuote (n ++ r) := by
  cases n with
  | nil => exact absurd rfl hn.ne_nil
  | cons c n =>
    exact Text.stops_cons.2 (not_isQuote_of_isAttributeName (hn.chars c (List.mem_cons_self ..)))

/-- An equals sign and its value are copied. -/
theorem expandHelpers_written {v : Written} (hv : v.WellFormed) (hu : Spaced u) :
    expandHelpers callee ('=' :: v.print ++ u) = '=' :: v.print ++ expandHelpers callee u := by
  cases hv with
  | quoted hq hv => exact expandHelpers_value callee hq hv u
  | @bare v hne hv hsolid hat =>
    refine expandHelpers_append callee ?_ (Shorthand.unvalued_bare hne hv)
      (hu.stops Text.not_isQuote_of_isSpace)
    rw [List.mem_cons, not_or]
    exact ⟨by decide, hat⟩

theorem expandHelpers_entry (e : Entry) (u : Text) (he : e.WellFormed)
    (hbag : ∀ w b, e.spelling ≠ .bag w b) (hu : Spaced u) :
    expandHelpers callee (e.space ++ (e.spelling.print ++ u)) =
      (e.expandHelper callee).space ++
        ((e.expandHelper callee).spelling.print ++ expandHelpers callee u) := by
  obtain ⟨w, sp⟩ := e
  obtain ⟨hne, hspace, hsp⟩ := he
  have hw : ∀ c ∈ w, Character.isSpace c = true := hspace
  have hquote : Stops Character.isQuote u := hu.stops Text.not_isQuote_of_isSpace
  cases hsp with
  | @valueless n hn =>
    show expandHelpers callee (w ++ (n ++ u)) = w ++ (n ++ expandHelpers callee u)
    rw [expandHelpers_space callee hw (stops_isQuote_of_isName hn u),
      expandHelpers_name callee hn.chars
        (hu.stops fun _ => Character.not_isAttributeName_of_isSpace)
        (head?_ne_of_spaced hu (by decide))]
  | @assigned n v hn hv =>
    show expandHelpers callee (w ++ (n ++ '=' :: v.print ++ u)) =
      w ++ (n ++ '=' :: v.print ++ expandHelpers callee u)
    have hstop : Stops Character.isAttributeName ('=' :: v.print ++ u) :=
      Text.stops_cons.2 (by decide)
    have hparen : ('=' :: v.print ++ u).head? ≠ some '(' := by simp
    rw [List.append_assoc, List.append_assoc,
      expandHelpers_space callee hw (stops_isQuote_of_isName hn _),
      expandHelpers_name callee hn.chars hstop hparen, expandHelpers_written callee hv hu]
  | @short n hnne hn =>
    have hat : '@' ∉ [':', '$'] ++ n := notMem_short hn (by decide) (by decide)
    have heq : '=' ∉ [':', '$'] ++ n := notMem_short hn (by decide) (by decide)
    show expandHelpers callee (w ++ ([':', '$'] ++ n ++ u)) =
      w ++ ([':', '$'] ++ n ++ expandHelpers callee u)
    have hstop : Stops Character.isQuote ([':', '$'] ++ n ++ u) := Text.stops_cons.2 (by decide)
    rw [expandHelpers_space callee hw hstop,
      expandHelpers_append callee hat (unvalued_of_notMem heq) hquote]
  | @helper h g hg hval hshort hbag =>
    show expandHelpers callee (w ++ (h.mark ++ g ++ u)) = _
    have hstop : Stops Character.isQuote (h.mark ++ g ++ u) := Text.stops_cons.2 (by decide)
    rw [expandHelpers_space callee hw hstop, expandHelpers_call callee h hg]
    simp [Entry.expandHelper, Spelling.print, Written.print, binding]
  | @bag w' b hw' hb hword hquote hval hshort => exact absurd rfl (hbag w' b)

end Helpers

end Attribute
end TemplateTags
