import TemplateTags.Proofs.Attribute.Single

/-!
# Calling a helper

A helper call in a tag should become one binding, to a call of the host function with the
arguments that were written, and with single quotes for double quotes in them.  The
recogniser takes any group as the arguments.  But short bindings and echoes of the attribute
bag are expanded before helper calls are, and the arguments are not kept from it.

`Settled t` says that these two expansions leave the attribute text as it is.
`call_iff_settled` says that the call is bound as it should be exactly if its text is settled.
`not_call` has two calls that are not, and one whose arguments are no group in the end.

## Nothing is put back

Once something in the arguments is expanded, no attribute holds them as they were.  What
carries the argument is the number of dollar signs that stand behind a colon or an opening
brace, perhaps with white space between (`exposed`).  Each of the two shorthands has such a
dollar sign, and it is written behind a quote.  So the number goes down by one with every
shorthand that is expanded (`exists_exposes_expand`), and it does not depend on which quotes
are used.

## Which quotes end a quoted part

The quotes in the arguments come in two kinds, and only the kind that starts a quoted part
ends it.  After the replacement all are of one kind.  So the arguments are still a group
exactly if they were one with the kinds not told apart (`take?_singleQuoted_iff`).
-/

namespace TemplateTags

open Text (Stops Spaced)
open Attribute (singleQuoted)

/-! ## Groups with quotes of one kind -/

namespace Group

/-- What stands between two quotes that are not told apart. -/
inductive Unquoted : Text → Prop
  | nil : Unquoted []
  | char {c : Char} {t : Text} (hq : Character.isQuote c = false) (hb : c ≠ '\\')
      (ht : Unquoted t) : Unquoted (c :: t)
  | escape {c : Char} {t : Text} (ht : Unquoted t) : Unquoted ('\\' :: c :: t)

/-- A sequence of items in which either quote ends a quoted part. -/
inductive LooseItems : Text → Prop
  | nil : LooseItems []
  | group {a t : Text} (ha : LooseItems a) (ht : LooseItems t) :
      LooseItems ('(' :: a ++ ')' :: t)
  | quoted {p q : Char} {a t : Text} (hp : Character.isQuote p = true)
      (hq : Character.isQuote q = true) (ha : Unquoted a) (ht : LooseItems t) :
      LooseItems (p :: a ++ q :: t)
  | char {c : Char} {t : Text} (ho : c ≠ '(') (hc : c ≠ ')')
      (hq : Character.isQuote c = false) (ht : LooseItems t) : LooseItems (c :: t)

/-- A group in which either quote ends a quoted part. -/
def IsLooseGroup (g : Text) : Prop := ∃ a, LooseItems a ∧ g = '(' :: a ++ [')']

variable {a t : Text} {c d : Char}

theorem singleQuoted_cons_of_not_isQuote (hc : Character.isQuote c = false) (t : Text) :
    singleQuoted (c :: t) = c :: singleQuoted t := by
  have hne : c ≠ '"' := by
    rintro rfl
    exact absurd hc (by decide)
  show (if c = '"' then '\'' else c) :: singleQuoted t = _
  rw [if_neg hne]

theorem singleQuoted_cons_of_isQuote (hc : Character.isQuote c = true) (t : Text) :
    singleQuoted (c :: t) = '\'' :: singleQuoted t := by
  rcases Character.isQuote_iff.1 hc with rfl | rfl <;> rfl

theorem singleQuoted_append (t u : Text) :
    singleQuoted (t ++ u) = singleQuoted t ++ singleQuoted u := List.map_append

theorem exists_of_singleQuoted_eq_append {x y : Text} (h : singleQuoted t = x ++ y) :
    ∃ u v, t = u ++ v ∧ singleQuoted u = x ∧ singleQuoted v = y :=
  List.map_eq_append_iff.1 h

/-- What a character comes from: itself, or a quote if it is a single quote. -/
theorem exists_of_singleQuoted_eq_cons {x : Text} (h : singleQuoted t = d :: x) :
    ∃ c u, t = c :: u ∧ singleQuoted u = x ∧
      (Character.isQuote c = false ∧ c = d ∨ Character.isQuote c = true ∧ d = '\'') := by
  cases t with
  | nil => cases h
  | cons c t =>
    cases hc : Character.isQuote c with
    | false =>
      rw [singleQuoted_cons_of_not_isQuote hc] at h
      obtain ⟨hd, ht⟩ := List.cons.inj h
      exact ⟨c, t, rfl, ht, Or.inl ⟨hc, hd⟩⟩
    | true =>
      rw [singleQuoted_cons_of_isQuote hc] at h
      obtain ⟨hd, ht⟩ := List.cons.inj h
      exact ⟨c, t, rfl, ht, Or.inr ⟨hc, hd.symm⟩⟩

theorem eq_cons_of_singleQuoted {x : Text} (hd : d ≠ '\'') (h : singleQuoted t = d :: x) :
    ∃ u, t = d :: u ∧ singleQuoted u = x := by
  obtain ⟨c, u, rfl, hu, ⟨-, rfl⟩ | ⟨-, hsingle⟩⟩ := exists_of_singleQuoted_eq_cons h
  · exact ⟨u, rfl, hu⟩
  · exact absurd hsingle hd

theorem quoted_singleQuoted (h : Unquoted a) : Quoted '\'' (singleQuoted a) := by
  induction h with
  | nil => exact .nil
  | char hq hb _ ih =>
    rw [singleQuoted_cons_of_not_isQuote hq]
    refine .char ?_ hb ih
    rintro rfl
    exact absurd hq (by decide)
  | escape _ ih => exact .escape ih

theorem unquoted_of_quoted {x : Text} (hx : Quoted '\'' x) (h : singleQuoted a = x) :
    Unquoted a := by
  induction hx generalizing a with
  | nil =>
    rw [List.map_eq_nil_iff.1 h]
    exact .nil
  | char hq hb _ ih =>
    obtain ⟨d, u, rfl, hu, ⟨hd, rfl⟩ | ⟨-, hsingle⟩⟩ := exists_of_singleQuoted_eq_cons h
    · exact .char hd hb (ih hu)
    · exact absurd hsingle hq
  | escape _ ih =>
    obtain ⟨u, rfl, hu⟩ := eq_cons_of_singleQuoted (by decide) h
    obtain ⟨e, v, rfl, hv, -⟩ := exists_of_singleQuoted_eq_cons hu
    exact .escape (ih hv)

theorem items_singleQuoted (h : LooseItems t) : Items (singleQuoted t) := by
  induction h with
  | nil => exact .nil
  | @group a t _ _ iha iht =>
    have htext : singleQuoted ('(' :: a ++ ')' :: t) =
        '(' :: singleQuoted a ++ ')' :: singleQuoted t := singleQuoted_append ('(' :: a) (')' :: t)
    rw [htext]
    exact .group iha iht
  | @quoted p q a t hp hq ha _ iht =>
    rw [singleQuoted_append, singleQuoted_cons_of_isQuote hp, singleQuoted_cons_of_isQuote hq]
    exact .quoted (by decide) (quoted_singleQuoted ha) iht
  | char ho hc hq _ iht =>
    rw [singleQuoted_cons_of_not_isQuote hq]
    exact .char ho hc hq iht

theorem looseItems_of_items {x : Text} (hx : Items x) (h : singleQuoted t = x) :
    LooseItems t := by
  induction hx generalizing t with
  | nil =>
    rw [List.map_eq_nil_iff.1 h]
    exact .nil
  | group _ _ iha iht =>
    obtain ⟨u, v, rfl, hu, hv⟩ := exists_of_singleQuoted_eq_append h
    obtain ⟨a, rfl, ha⟩ := eq_cons_of_singleQuoted (by decide) hu
    obtain ⟨w, rfl, hw⟩ := eq_cons_of_singleQuoted (by decide) hv
    exact .group (iha ha) (iht hw)
  | quoted hq ha _ iht =>
    obtain ⟨u, v, rfl, hu, hv⟩ := exists_of_singleQuoted_eq_append h
    obtain ⟨d, b, rfl, hb, ⟨hd, rfl⟩ | ⟨hd, rfl⟩⟩ := exists_of_singleQuoted_eq_cons hu
    · rw [hd] at hq
      cases hq
    · obtain ⟨e, w, rfl, hw, ⟨he, rfl⟩ | ⟨he, -⟩⟩ := exists_of_singleQuoted_eq_cons hv
      · cases he
      · exact .quoted hd he (unquoted_of_quoted ha hb) (iht hw)
  | char ho hc hq _ iht =>
    obtain ⟨d, u, rfl, hu, ⟨hd, rfl⟩ | ⟨-, rfl⟩⟩ := exists_of_singleQuoted_eq_cons h
    · exact .char ho hc hd (iht hu)
    · cases hq

/-- The arguments of a call stay a group exactly if they are one with the two kinds of quotes
not told apart. -/
theorem take?_singleQuoted_iff {g : Text} :
    take? (singleQuoted g) = some (singleQuoted g, []) ↔ IsLooseGroup g := by
  rw [take?_eq_some_iff, List.append_nil, and_iff_right rfl]
  constructor
  · rintro ⟨a, ha, h⟩
    obtain ⟨u, v, rfl, hu, hv⟩ := exists_of_singleQuoted_eq_append h
    obtain ⟨b, rfl, hb⟩ := eq_cons_of_singleQuoted (by decide) hu
    obtain ⟨w, rfl, hw⟩ := eq_cons_of_singleQuoted (by decide) hv
    rw [List.map_eq_nil_iff.1 hw]
    exact ⟨b, looseItems_of_items ha hb, rfl⟩
  · rintro ⟨a, ha, rfl⟩
    exact ⟨singleQuoted a, items_singleQuoted ha, singleQuoted_append ('(' :: a) [')']⟩

end Group

/-! ## Exposed dollar signs -/

namespace Attribute

/-- Whether a dollar sign would be exposed behind the character, given whether it would be
before it. -/
def bares (b : Bool) (c : Char) : Bool :=
  c == ':' || c == '{' || b && Character.isWhiteSpace c

/-- The number of dollar signs behind a colon or an opening brace, perhaps with white space
between, where `b` says whether the text itself stands so. -/
def exposed : Bool → Text → Nat
  | _, [] => 0
  | b, c :: t => (b && c == '$').toNat + exposed (bares b c) t

/-- The second text has `n` exposed dollar signs more than the first, and what follows does not
tell the two apart. -/
def Exposes (n : Nat) (x y : Text) : Prop :=
  ∀ b, exposed b y = exposed b x + n ∧ y.foldl bares b = x.foldl bares b

variable {m n : Nat} {t x x' y y' : Text}

theorem exposed_append (b : Bool) (x y : Text) :
    exposed b (x ++ y) = exposed b x + exposed (x.foldl bares b) y := by
  induction x generalizing b with
  | nil => simp [exposed]
  | cons c x ih => rw [List.cons_append, exposed, exposed, ih, List.foldl_cons, Nat.add_assoc]

theorem exposed_of_notMem (h : '$' ∉ t) (b : Bool) : exposed b t = 0 := by
  induction t generalizing b with
  | nil => rfl
  | cons c t ih =>
    rw [List.mem_cons, not_or] at h
    rw [exposed, ih h.2, beq_false_of_ne (Ne.symm h.1), Bool.and_false]
    rfl

theorem bares_of_ne {c : Char} (hcolon : c ≠ ':') (hbrace : c ≠ '{') (b : Bool) :
    bares b c = (b && Character.isWhiteSpace c) := by
  rw [bares, beq_false_of_ne hcolon, beq_false_of_ne hbrace]
  rfl

theorem foldl_bares_of_notMem (hcolon : ':' ∉ t) (hbrace : '{' ∉ t) :
    t.foldl bares false = false := by
  induction t with
  | nil => rfl
  | cons c t ih =>
    rw [List.mem_cons, not_or] at hcolon hbrace
    rw [List.foldl_cons, bares_of_ne (Ne.symm hcolon.1) (Ne.symm hbrace.1)]
    exact ih hcolon.2 hbrace.2

theorem foldl_bares_of_space (h : ∀ c ∈ t, Character.isWhiteSpace c = true) (b : Bool) :
    t.foldl bares b = b := by
  induction t with
  | nil => rfl
  | cons c t ih =>
    have hc := h c (List.mem_cons_self ..)
    have hne : ∀ d, Character.isWhiteSpace d = false → c ≠ d := fun d hd he => by
      rw [he, hd] at hc
      cases hc
    rw [List.foldl_cons, bares_of_ne (hne ':' (by decide)) (hne '{' (by decide)), hc,
      Bool.and_true]
    exact ih fun d hd => h d (List.mem_cons_of_mem _ hd)

theorem exposed_of_space (h : ∀ c ∈ t, Character.isWhiteSpace c = true) (b : Bool) :
    exposed b t = 0 :=
  exposed_of_notMem (Text.notMem_of_forall h (by decide)) b

theorem exposed_singleQuoted (b : Bool) (t : Text) : exposed b (singleQuoted t) = exposed b t := by
  induction t generalizing b with
  | nil => rfl
  | cons c t ih =>
    cases hc : Character.isQuote c with
    | false => rw [Group.singleQuoted_cons_of_not_isQuote hc, exposed, exposed, ih]
    | true =>
      rw [Group.singleQuoted_cons_of_isQuote hc, exposed, exposed, ih]
      rcases Character.isQuote_iff.1 hc with rfl | rfl <;> cases b <;> rfl

theorem Exposes.refl (x : Text) : Exposes 0 x x := fun _ => ⟨rfl, rfl⟩

theorem Exposes.append (h : Exposes m x y) (h' : Exposes n x' y') :
    Exposes (m + n) (x ++ x') (y ++ y') := by
  intro b
  obtain ⟨hcount, hend⟩ := h b
  obtain ⟨hcount', hend'⟩ := h' (x.foldl bares b)
  constructor
  · rw [exposed_append, exposed_append, hcount, hend, hcount']
    omega
  · rw [List.foldl_append, List.foldl_append, hend, hend']

theorem exposes_zero_of_space (hx : ∀ c ∈ x, Character.isWhiteSpace c = true)
    (hy : ∀ c ∈ y, Character.isWhiteSpace c = true) : Exposes 0 x y := fun b => by
  rw [exposed_of_space hx, exposed_of_space hy, foldl_bares_of_space hx, foldl_bares_of_space hy]
  exact ⟨rfl, rfl⟩

/-- The expression of a binding stands behind a quote. -/
theorem exposed_binding {n : Text} (hn : '$' ∉ n) (e : Text) (b : Bool) :
    exposed b (binding n e) = exposed false e ∧ (binding n e).foldl bares b = false := by
  have hquote : ∀ b, bares b '"' = false := fun b => by cases b <;> decide
  have hopen : '$' ∉ ':' :: n ++ ['=', '"'] := by simp [hn]
  have hend : (':' :: n ++ ['=', '"']).foldl bares b = false := by
    rw [List.foldl_append]
    exact hquote _
  constructor
  · rw [binding, exposed_append, exposed_append, exposed_of_notMem hopen, hend,
      exposed_of_notMem (t := ['"']) (by decide), Nat.zero_add, Nat.add_zero]
  · rw [binding, List.foldl_append]
    exact hquote _

theorem exposes_of_findShortBinding? {f : Shorthand.Found} (h : findShortBinding? t = some f) :
    Exposes 1 f.written f.taken := by
  obtain ⟨n, r, -, hn, rfl⟩ := exists_of_findShortBinding? h
  intro b
  have hname : ∀ d, Character.isWordUnicode d = false → d ∉ n := fun d hd =>
    Text.notMem_of_forall hn hd
  have hdollar := hname '$' (by decide)
  have hstart : exposed b [':', '$'] = 1 ∧ [':', '$'].foldl bares b = false := by
    cases b <;> decide
  obtain ⟨hwritten, hend⟩ := exposed_binding hdollar ('$' :: n) b
  show exposed b ([':', '$'] ++ n) = exposed b (binding n ('$' :: n)) + 1 ∧
    ([':', '$'] ++ n).foldl bares b = (binding n ('$' :: n)).foldl bares b
  have hexpr : exposed false ('$' :: n) = 0 := by
    rw [exposed, exposed_of_notMem hdollar]
    rfl
  rw [exposed_append, List.foldl_append, hstart.1, hstart.2, exposed_of_notMem hdollar, hwritten,
    hend, foldl_bares_of_notMem (hname ':' (by decide)) (hname '{' (by decide)), hexpr]
  exact ⟨rfl, rfl⟩

theorem exists_trimEnd_append (t : Text) :
    ∃ w, (∀ c ∈ w, Character.isWhiteSpace c = true) ∧ t = Text.trimEnd t ++ w := by
  refine ⟨(t.reverse.takeWhile Character.isWhiteSpace).reverse, fun c hc => ?_, ?_⟩
  · exact List.mem_takeWhile_imp (List.mem_reverse.1 hc)
  · show t = (t.reverse.dropWhile Character.isWhiteSpace).reverse ++ _
    rw [← List.reverse_append, List.takeWhile_append_dropWhile, List.reverse_reverse]

theorem exposes_of_findBagEcho? {f : Shorthand.Found} (h : findBagEcho? t = some f) :
    Exposes 1 f.written f.taken := by
  obtain ⟨w, a, r, hspace, -, rfl⟩ := exists_of_findBagEcho? h
  intro b
  have hopen : exposed b ['{', '{'] = 0 ∧ ['{', '{'].foldl bares b = true := by
    cases b <;> decide
  have hvar : exposed true bagVariable = 1 ∧ bagVariable.foldl bares true = false := by decide
  have hstart : exposed b (['{', '{'] ++ w ++ bagVariable) = 1 ∧
      (['{', '{'] ++ w ++ bagVariable).foldl bares b = false := by
    have hbare : (['{', '{'] ++ w).foldl bares b = true := by
      rw [List.foldl_append, hopen.2, foldl_bares_of_space hspace]
    rw [exposed_append, hbare, List.foldl_append, hbare, exposed_append, hopen.1,
      exposed_of_space hspace, hvar.1, hvar.2]
    exact ⟨rfl, rfl⟩
  have hclose : ∀ b, exposed b ['}', '}'] = 0 ∧ ['}', '}'].foldl bares b = false := fun b => by
    cases b <;> decide
  have hquoted : exposed false bagVariable = 0 ∧ bagVariable.foldl bares false = false := by
    decide
  have htrim : exposed false (Text.trimEnd a) = exposed false a := by
    obtain ⟨v, hv, ha⟩ := exists_trimEnd_append a
    conv_rhs => rw [ha, exposed_append, exposed_of_space hv, Nat.add_zero]
  obtain ⟨hwritten, hend⟩ := exposed_binding (n := bagName) (by decide)
    (bagVariable ++ Text.trimEnd a) b
  constructor
  · show exposed b (['{', '{'] ++ w ++ bagVariable ++ a ++ ['}', '}']) = exposed b (binding _ _) + 1
    rw [hwritten, exposed_append false, hquoted.1, hquoted.2, htrim, exposed_append, exposed_append,
      hstart.1, hstart.2, (hclose _).1]
    omega
  · show (['{', '{'] ++ w ++ bagVariable ++ a ++ ['}', '}']).foldl bares b =
      (binding _ _).foldl bares b
    rw [hend, List.foldl_append, (hclose _).2]

end Attribute

namespace Shorthand

open Attribute (Run Exposes)

variable {s : Shorthand}

theorem exists_afterSpace (s : Shorthand) (t : Text) :
    ∃ w, (∀ c ∈ w, Character.isWhiteSpace c = true) ∧ t = w ++ s.afterSpace t := by
  unfold afterSpace
  split
  · exact ⟨_, fun c hc => List.mem_takeWhile_imp hc, List.takeWhile_append_dropWhile.symm⟩
  · exact ⟨[], by simp, rfl⟩

theorem replace_of_forall_infix {t : Text} (h : ∀ u, u <:+: t → s.find? u = none) :
    s.replace t = t := by
  have hcopy := replace_append (s := s) (y := t) (p := []) fun x c y hxy _ => by
    obtain ⟨w, -, hy⟩ := s.exists_afterSpace y
    rw [List.append_nil]
    refine h _ ⟨x ++ c :: w, [], ?_⟩
    rw [List.append_nil, List.append_assoc, List.cons_append, ← hy, hxy]
  rwa [List.append_nil, replace_nil, List.append_nil] at hcopy

/-- A text in which a shorthand is found nowhere is left as it is. -/
theorem expand_of_forall_infix (hs : s.Tight) {t : Text} (ht : Spaced t)
    (h : ∀ u, u <:+: t → s.find? u = none) : s.expand t = t := by
  have hrun : ∀ r : Run, r.content <:+: t → s.expandRun false r = r.content := by
    intro r hr
    cases r with
    | quoted p => rfl
    | plain p =>
      have hstart : s.findStart? p = none := by
        rw [findStart?, h p hr, ite_self]
      show s.expandPlain false p = p
      rw [expandPlain, hstart]
      exact replace_of_forall_infix fun u hu => h u (hu.trans hr)
  have hruns : ∀ l : List Run, l.flatMap Run.content <:+: t →
      l.flatMap (s.expandRun false) = l.flatMap Run.content := by
    intro l hl
    induction l with
    | nil => rfl
    | cons r l ih =>
      rw [List.flatMap_cons] at hl ⊢
      rw [List.flatMap_cons, hrun r ((List.prefix_append _ _).isInfix.trans hl),
        ih ((List.suffix_append _ _).isInfix.trans hl)]
  rw [expand_of_spaced hs ht, hruns _ (by rw [Run.flatMap_content_ofText])]
  exact Run.flatMap_content_ofText t

/-- Each replacement covers a dollar sign, or there is none. -/
theorem exists_exposes_replace (hs : ∀ t f, s.find? t = some f → Exposes 1 f.written f.taken)
    (t : Text) : ∃ n, Exposes n (s.replace t) t ∧ (n = 0 → s.replace t = t) := by
  fun_induction replace s t with
  | case1 => exact ⟨0, .refl _, fun _ => rfl⟩
  | case2 c t hc f hf ih =>
    obtain ⟨n, hn, -⟩ := ih
    obtain ⟨w, hw, ht⟩ := s.exists_afterSpace t
    have hspace : Exposes 0 [' '] (c :: w) :=
      Attribute.exposes_zero_of_space (by decide) (List.forall_mem_cons.2 ⟨hc, hw⟩)
    have htext : c :: t = c :: w ++ (f.taken ++ f.rest) := by
      rw [← (s.eq_of_find? hf).1, List.cons_append, ← ht]
    refine ⟨0 + (1 + n), ?_, fun h0 => by omega⟩
    rw [htext]
    exact hspace.append ((hs _ f hf).append hn)
  | case3 c t hc hf ih =>
    obtain ⟨n, hn, heq⟩ := ih
    refine ⟨0 + n, (Exposes.refl [c]).append hn, fun h0 => ?_⟩
    rw [heq (by omega)]
  | case4 c t hc ih =>
    obtain ⟨n, hn, heq⟩ := ih
    refine ⟨0 + n, (Exposes.refl [c]).append hn, fun h0 => ?_⟩
    rw [heq (by omega)]

theorem exists_exposes_expandRun
    (hs : ∀ t f, s.find? t = some f → Exposes 1 f.written f.taken) (r : Run) :
    ∃ n, Exposes n (s.expandRun false r) r.content ∧
      (n = 0 → s.expandRun false r = r.content) := by
  cases r with
  | quoted t => exact ⟨0, .refl _, fun _ => rfl⟩
  | plain t =>
    show ∃ n, Exposes n (s.expandPlain false t) t ∧ (n = 0 → s.expandPlain false t = t)
    unfold expandPlain
    split
    · next f hf =>
      have hfind : s.find? t = some f := by
        unfold findStart? at hf
        split at hf
        · exact hf
        · cases hf
      obtain ⟨n, hn, heq⟩ := exists_exposes_replace hs f.rest
      have htext := (s.eq_of_find? hfind).1
      refine ⟨0 + n, ?_, fun h0 => ?_⟩
      · conv => rw [htext]
        exact (Exposes.refl f.taken).append hn
      · rw [heq (by omega)]
        exact htext.symm
    · exact exists_exposes_replace hs t

/-- Each shorthand that is expanded in spaced text covers a dollar sign, or there is none. -/
theorem exists_exposes_expand (htight : s.Tight)
    (hs : ∀ t f, s.find? t = some f → Exposes 1 f.written f.taken) {t : Text}
    (ht : Spaced t) : ∃ n, Exposes n (s.expand t) t ∧ (n = 0 → s.expand t = t) := by
  have hruns : ∀ l : List Run, ∃ n,
      Exposes n (l.flatMap (s.expandRun false)) (l.flatMap Run.content) ∧
        (n = 0 → l.flatMap (s.expandRun false) = l.flatMap Run.content) := by
    intro l
    induction l with
    | nil => exact ⟨0, .refl _, fun _ => rfl⟩
    | cons r l ih =>
      obtain ⟨n, hn, heq⟩ := ih
      obtain ⟨m, hm, heq'⟩ := exists_exposes_expandRun hs r
      refine ⟨m + n, hm.append hn, fun h0 => ?_⟩
      rw [List.flatMap_cons, List.flatMap_cons, heq (by omega), heq' (by omega)]
  have hexposes := hruns (Run.ofText t)
  rw [Run.flatMap_content_ofText, ← expand_of_spaced htight ht] at hexposes
  exact hexposes

end Shorthand

namespace Attribute

/-! ## Settled calls -/

/-- Nothing in the text is expanded before helper calls are. -/
structure Settled (t : Text) : Prop where
  short : shortBinding.expand t = t
  bag : bagEcho.expand t = t

/-- Arguments without the signs with which short bindings and echoes start are settled. -/
theorem settled_of_not_infix (h : Helper) {g : Text} (hshort : ¬ [':', '$'] <:+: g)
    (hbag : ¬ ['{', '{'] <:+: g) : Settled (' ' :: h.mark ++ g) := by
  have hspaced : Spaced (' ' :: h.mark ++ g) := fun c hc => by
    cases hc
    rfl
  constructor
  · refine Shorthand.expand_of_forall_infix shortBinding_tight hspaced fun u hu => ?_
    exact findShortBinding?_eq_none fun hp =>
      hshort (infix_of_infix_append_left (by cases h <;> decide) (hp.isInfix.trans hu))
  · refine Shorthand.expand_of_forall_infix bagEcho_tight hspaced fun u hu => ?_
    exact findBagEcho?_eq_none fun hp =>
      hbag (infix_of_infix_append_left (by cases h <;> decide) (hp.isInfix.trans hu))

/-- The attribute that a call stands for, with the given host functions. -/
def callAttribute (callee : Helper → Text) (h : Helper) (g : Text) : Attribute :=
  ⟨h.name, callee h ++ singleQuoted g, .bound⟩

variable {callee : Helper → Text} {h : Helper} {g u : Text}

theorem isName_name (h : Helper) : IsName h.name := by
  cases h <;> exact ⟨by decide, by decide⟩

theorem notMem_callee_append (hcallee : '"' ∉ callee h) (g : Text) :
    '"' ∉ callee h ++ singleQuoted g := by
  cases Written.WellFormed.helperValue hcallee g with
  | quoted _ hv => exact hv

theorem callee_append_ne_nil (hg : Group.IsGroup g) : callee h ++ singleQuoted g ≠ [] := by
  obtain ⟨a, -, rfl⟩ := hg
  exact fun he => List.cons_ne_nil _ _ (List.append_eq_nil_iff.1 he).2

theorem expandHelpers_space_call (callee : Helper → Text) (hg : Group.IsGroup g) (r : Text) :
    expandHelpers callee (' ' :: h.mark ++ g ++ r) =
      ' ' :: binding h.name (callee h ++ singleQuoted g) ++ expandHelpers callee r := by
  have hspace := expandHelpers_of_notMem callee (z := [' ']) (by decide) (by decide)
    (h.mark ++ g ++ r)
  rw [expandHelpers_call callee h hg] at hspace
  exact hspace

theorem parse_expand_call (splitter : Echo.Splitter) (hg : Group.IsGroup g)
    (hcallee : '"' ∉ callee h) (hsettled : Settled (' ' :: h.mark ++ g)) :
    Listing.parse splitter (expand callee (' ' :: h.mark ++ g)) =
      ⟨[callAttribute callee h g], [h.name]⟩ := by
  have hhelper := expandHelpers_space_call (h := h) callee hg []
  rw [List.append_nil, expandHelpers_nil, List.append_nil] at hhelper
  have hcolon : h.name.head? ≠ some ':' := by cases h <;> decide
  rw [expand, hsettled.short, hsettled.bag, hhelper,
    parse_binding (isName_name h) splitter hcolon (callee_append_ne_nil hg)
      (notMem_callee_append hcallee g),
    kind_of_ne_bagName (by cases h <;> decide)]
  rfl

/-! ## Calls that are not settled -/

/-- How the attribute text starts. -/
def callStart (h : Helper) : Text := ' ' :: h.mark ++ ['(']

theorem exists_expand_callStart {s : Shorthand} (hs : s.Tight)
    (hat : ∀ t, s.find? ('@' :: t) = none) (h : Helper) (u : Text) :
    ∃ r, s.expand (callStart h ++ u) = callStart h ++ r := by
  have hsolid : ∀ c ∈ h.mark ++ ['('], Character.isWhiteSpace c = false := by
    cases h <;> decide
  have hcopy : s.replace (callStart h ++ Run.plainStart u) =
      callStart h ++ s.replace (Run.plainStart u) :=
    Shorthand.replace_cons_solid hs (List.cons_ne_nil _ _) hsolid (hat _)
  obtain ⟨r, hr, -⟩ := Shorthand.exists_expand_eq hs (fun c hc => by cases hc; rfl)
    (List.cons_ne_nil _ _) (by cases h <;> decide) hcopy
  exact ⟨_, hr⟩

theorem call?_eq_none_of_take? (hu : Group.take? ('(' :: u) = none) :
    Helper.call? (h.mark ++ '(' :: u) = none := by
  by_contra hne
  obtain ⟨⟨k, a, r⟩, hk⟩ := Option.ne_none_iff_exists'.1 hne
  have ha := Helper.isGroup_of_call? hk
  have hstop : Stops Character.isAttributeName (a ++ r) := by
    obtain ⟨b, -, rfl⟩ := ha
    exact Text.stops_cons.2 (by decide)
  have htext : h.mark ++ '(' :: u = k.mark ++ (a ++ r) := by
    rw [Helper.eq_of_call? hk, List.append_assoc]
  obtain ⟨-, hrest⟩ := Text.eq_of_stops htext (Helper.isAttributeName_of_mem_mark h)
    (Text.stops_cons.2 (by decide)) (Helper.isAttributeName_of_mem_mark k) hstop
  rw [hrest, Group.take?_append ha] at hu
  cases hu

/-- A mark with no group behind its parenthesis is copied. -/
theorem expandHelpers_callStart (callee : Helper → Text) (hu : Group.take? ('(' :: u) = none) :
    expandHelpers callee (callStart h ++ u) = callStart h ++ expandHelpers callee u := by
  have hcall : Helper.call? ('@' :: (h.name ++ ['('] ++ u)) = none := by
    rw [List.append_assoc]
    exact call?_eq_none_of_take? hu
  have hname : '@' ∉ h.name ++ ['('] ∧ '=' ∉ h.name ++ ['('] := by cases h <;> decide
  have htext : ∀ r, callStart h ++ r = [' '] ++ '@' :: (h.name ++ ['('] ++ r) := fun r => by
    simp [callStart, Helper.mark]
  rw [htext, htext, expandHelpers_of_notMem callee (by decide) (by decide),
    expandHelpers_cons callee hcall fun he => absurd he (by decide),
    expandHelpers_of_notMem callee hname.1 hname.2]

theorem Token.ofText_callStart (h : Helper) (u : Text) :
    ofText (callStart h ++ u) = ⟨h.mark, none⟩ :: ofText u := by
  have hname : IsName h.mark := ⟨List.cons_ne_nil _ _, Helper.isAttributeName_of_mem_mark h⟩
  have hstop : Stops Character.isAttributeName ('(' :: u) := Text.stops_cons.2 (by decide)
  have hassigned : assigned ('(' :: u) = (none, '(' :: u) := rfl
  have htext : callStart h ++ u = [' '] ++ (h.mark ++ '(' :: u) := by simp [callStart]
  rw [htext, ofText_skip (by decide), ofText_name hname hstop, hassigned]
  exact congrArg (_ :: ·) (ofText_skip (w := ['(']) (by decide) u)

section Converse

variable {splitter : Echo.Splitter} (hparen : ∀ k, '(' ∉ callee k) (hg : Group.IsGroup g)
  (hmem : callAttribute callee h g ∈
    (Listing.parse splitter (expand callee (' ' :: h.mark ++ g))).items)

include hparen

theorem count_callAttribute :
    (callAttribute callee h g).value.count '(' = (' ' :: h.mark ++ g).count '(' := by
  have hmark : (' ' :: h.mark).count '(' = 0 := by cases h <;> decide
  show (callee h ++ singleQuoted g).count '(' = _
  rw [List.count_append, List.count_append, hmark, List.count_eq_zero.2 (hparen h),
    count_singleQuoted (by decide)]

include hg

theorem value_callAttribute_ne : (callAttribute callee h g).value ≠ "true".toList := by
  intro htrue
  have hcount := count_callAttribute (h := h) (g := g) hparen
  obtain ⟨a, -, rfl⟩ := hg
  rw [htrue, show "true".toList.count '(' = 0 by decide, List.count_append, List.cons_append,
    List.count_cons_self] at hcount
  omega

include hmem

/-- The call is still found, with the same arguments up to the kind of their quotes. -/
theorem exists_arguments (hcallee : '"' ∉ callee h)
    (hu : bagEcho.expand (shortBinding.expand (' ' :: h.mark ++ g)) = callStart h ++ u) :
    ∃ a r, '(' :: u = a ++ r ∧ singleQuoted a = singleQuoted g := by
  have hcount := count_expand (d := '(') (by decide) hparen (' ' :: h.mark ++ g)
  rw [← count_callAttribute hparen] at hcount
  have hkind : (callAttribute callee h g).kind ≠ .literal := show Kind.bound ≠ .literal by decide
  rw [expand, hu] at hmem hcount
  cases htake : Group.take? ('(' :: u) with
  | none =>
    obtain ⟨r, hr⟩ := exists_expand_callStart colonBinding_tight
      (fun t => findColonBinding?_of_head? (by simp)) h (expandHelpers callee u)
    rw [expandHelpers_callStart callee htake, hr] at hmem hcount
    rw [Listing.parse, Token.ofText_callStart] at hmem
    obtain ⟨k, v, hk, hv, hvalue⟩ := exists_value_of_mem_items hmem hkind
      (value_callAttribute_ne hparen hg)
    -- the parenthesis behind the mark is in no value
    have hstart : (callStart h).count '(' = 1 := by cases h <;> decide
    rw [List.count_append, hstart] at hcount
    rcases List.mem_cons.1 hk with rfl | hk
    · cases hv
    · have hle := Token.count_unquote_le hk hv '('
      rw [hvalue] at hle
      omega
  | some s =>
    obtain ⟨a, r⟩ := s
    have hrest := Group.eq_of_take? htake
    have ha := Group.isGroup_of_take? htake
    have htext : callStart h ++ u = ' ' :: h.mark ++ a ++ r := by
      rw [List.append_assoc, ← hrest]
      simp [callStart]
    have hcolon : h.name.head? ≠ some ':' := by cases h <;> decide
    have hquote := notMem_callee_append hcallee a
    rw [htext, expandHelpers_space_call callee ha,
      colonBinding_expand_binding (isName_name h) hcolon hquote] at hmem hcount
    rcases value_eq_or_count_le (isName_name h) (callee_append_ne_nil ha) hquote hmem hkind
      (value_callAttribute_ne hparen hg) with heq | hle
    · exact ⟨a, r, hrest, (List.append_cancel_left heq).symm⟩
    · -- the parenthesis of the first call is not in the text behind it
      have hfirst : 0 < a.count '(' := by
        obtain ⟨b, -, rfl⟩ := ha
        exact List.count_pos_iff.2 (List.mem_cons_self ..)
      have hrest := hle '('
      rw [List.count_append, count_markedBinding (by decide), List.count_append,
        count_singleQuoted (by decide)] at hcount
      omega

/-- A call that is bound as it should be is settled. -/
theorem settled_of_mem_items (hcallee : '"' ∉ callee h) : Settled (' ' :: h.mark ++ g) := by
  have htext : ∃ u, ' ' :: h.mark ++ g = callStart h ++ u := by
    obtain ⟨a, -, rfl⟩ := hg
    exact ⟨a ++ [')'], by simp [callStart]⟩
  have hspaced : ∀ u, Spaced (callStart h ++ u) := fun u c hc => by
    cases hc
    rfl
  obtain ⟨u, hu⟩ := htext
  obtain ⟨v, hv⟩ := exists_expand_callStart shortBinding_tight
    (find?_shortBinding_cons (by decide)) h u
  obtain ⟨w, hw⟩ := exists_expand_callStart bagEcho_tight
    (fun t => findBagEcho?_eq_none (not_bag_prefix_of_head? rfl (by decide))) h v
  obtain ⟨m, hm, hshort⟩ := Shorthand.exists_exposes_expand shortBinding_tight
    (fun _ _ => exposes_of_findShortBinding?) (hspaced u)
  obtain ⟨n, hn, hbag⟩ := Shorthand.exists_exposes_expand bagEcho_tight
    (fun _ _ => exposes_of_findBagEcho?) (hspaced v)
  obtain ⟨a, r, hrest, ha⟩ := exists_arguments hparen hg hmem hcallee (by rw [hu, hv, hw])
  rw [hv] at hm
  rw [hw] at hn
  -- all exposed dollar signs of the arguments are still there
  have hexposed : exposed false (callStart h ++ u) ≤ exposed false (callStart h ++ w) := by
    have hwhole : callStart h ++ w = ' ' :: h.mark ++ (a ++ r) := by
      rw [← hrest]
      simp [callStart]
    rw [← hu, hwhole, exposed_append, exposed_append, exposed_append _ a,
      ← exposed_singleQuoted _ a, ha, exposed_singleQuoted]
    omega
  have hfirst := (hm false).1
  have hsecond := (hn false).1
  have hcopied : callStart h ++ v = callStart h ++ u := hv ▸ hshort (by omega)
  have hcopied' := hbag (by omega)
  rw [hu]
  exact ⟨hshort (by omega), hcopied ▸ hcopied'⟩

end Converse

/-! ## Calls that are bound -/

theorem pieces_call (h : Helper) (hg : Group.IsGroup g) :
    Document.pieces (Tag.single (h.mark ++ g)) =
      [.tag ⟨.opening ['c'] (' ' :: h.mark ++ g) false, Tag.single (h.mark ++ g),
        ⟨Position.start, Position.start.walk (Tag.single (h.mark ++ g))⟩⟩] := by
  have hlast : (h.mark ++ g).getLast? = some ')' := by
    obtain ⟨a, -, rfl⟩ := hg
    rw [← List.append_assoc, List.getLast?_concat]
  exact Tag.pieces_single (.helper h hg) hlast (by decide) (by decide)

/-- **Exactly the settled calls are bound with their arguments.**  A tag with a helper call is
always recognised, as one opening tag.  If the text of the call is settled, for which it is
enough that the arguments hold neither `:$` nor two opening braces, then the tag has one
attribute, which is bound to a call of the host function with the arguments in single quotes.
Otherwise no attribute of the tag is, unless the names of host functions have parentheses in
them.  The arguments in single quotes are a group exactly if the arguments are one with the
kinds of quotes not told apart. -/
theorem call_iff_settled (h : Helper) {g : Text} (hg : Group.take? g = some (g, []))
    {callee : Helper → Text} (hcallee : '"' ∉ callee h) (splitter : Echo.Splitter) :
    Document.pieces (Tag.single (h.mark ++ g)) =
        [.tag ⟨.opening ['c'] (' ' :: h.mark ++ g) false, Tag.single (h.mark ++ g),
          ⟨Position.start, Position.start.walk (Tag.single (h.mark ++ g))⟩⟩] ∧
      (¬ [':', '$'] <:+: g → ¬ ['{', '{'] <:+: g → Settled (' ' :: h.mark ++ g)) ∧
      (Settled (' ' :: h.mark ++ g) →
        Listing.parse splitter (expand callee (' ' :: h.mark ++ g)) =
          ⟨[callAttribute callee h g], [h.name]⟩) ∧
      ((∀ k, '(' ∉ callee k) →
        callAttribute callee h g ∈
          (Listing.parse splitter (expand callee (' ' :: h.mark ++ g))).items →
        Settled (' ' :: h.mark ++ g)) ∧
      (Group.take? (singleQuoted g) = some (singleQuoted g, []) ↔ Group.IsLooseGroup g) := by
  have hgroup := Group.isGroup_of_take? hg
  exact ⟨pieces_call h hgroup, settled_of_not_infix h, parse_expand_call splitter hgroup hcallee,
    fun hparen hmem => settled_of_mem_items hparen hgroup hmem hcallee,
    Group.take?_singleQuoted_iff⟩

/-- Arguments with quotes of both kinds, parentheses in them, and a conditional. -/
def conditionalArguments : Text :=
  "(['a' => $on, \"b (\" => $x == 1 ? Css::$c : f(')')])".toList

theorem call_iff_settled_conditional :
    Group.take? conditionalArguments = some (conditionalArguments, []) ∧
      (∀ k, '"' ∉ Config.standard.callee k ∧ '(' ∉ Config.standard.callee k) ∧
      Settled (' ' :: Helper.cssClass.mark ++ conditionalArguments) ∧
      Document.pieces (Tag.single (Helper.cssClass.mark ++ conditionalArguments)) =
        [.tag ⟨.opening ['c'] (' ' :: Helper.cssClass.mark ++ conditionalArguments) false,
          Tag.single (Helper.cssClass.mark ++ conditionalArguments),
          ⟨Position.start,
            Position.start.walk (Tag.single (Helper.cssClass.mark ++ conditionalArguments))⟩⟩] ∧
      Listing.parse Echo.standard (expand Config.standard.callee
          (' ' :: Helper.cssClass.mark ++ conditionalArguments)) =
        ⟨[⟨"class".toList, Config.standard.callee .cssClass ++
          "(['a' => $on, 'b (' => $x == 1 ? Css::$c : f(')')])".toList, .bound⟩],
          ["class".toList]⟩ ∧
      Group.IsLooseGroup conditionalArguments := by
  have hg : Group.take? conditionalArguments = some (conditionalArguments, []) := by
    decide +kernel
  have hcallee : ∀ k, '"' ∉ Config.standard.callee k ∧ '(' ∉ Config.standard.callee k := by
    intro k
    cases k <;> decide
  have hsettled : Settled (' ' :: Helper.cssClass.mark ++ conditionalArguments) :=
    ⟨by decide +kernel, by decide +kernel⟩
  have hsingle : singleQuoted conditionalArguments =
      "(['a' => $on, 'b (' => $x == 1 ? Css::$c : f(')')])".toList := by decide
  have htake : Group.take? (singleQuoted conditionalArguments) =
      some (singleQuoted conditionalArguments, []) := by decide +kernel
  obtain ⟨hpieces, -, hparse, -, hloose⟩ :=
    call_iff_settled .cssClass hg (hcallee .cssClass).1 Echo.standard
  refine ⟨hg, hcallee, hsettled, hpieces, ?_, hloose.1 htake⟩
  rw [hparse hsettled, callAttribute, hsingle]
  rfl

/-- A short binding in a conditional is expanded in the arguments, an echo of the bag in a
string leaves no call, and a single quote between double quotes ends its string. -/
theorem not_call :
    Group.take? "($a ? $b :$c)".toList = some ("($a ? $b :$c)".toList, []) ∧
      Listing.parse Echo.standard (expand Config.standard.callee
          (" @class($a ? $b :$c)".toList)) =
        ⟨[⟨"class".toList, Config.standard.callee .cssClass ++ "($a ? $b :c='$c')".toList,
          .bound⟩], ["class".toList]⟩ ∧
      Group.take? "(\" \x7b\x7b $attributes ( \x7d\x7d\")".toList =
        some ("(\" \x7b\x7b $attributes ( \x7d\x7d\")".toList, []) ∧
      Listing.parse Echo.standard (expand Config.standard.callee
          (" @class(\" \x7b\x7b $attributes ( \x7d\x7d\")".toList)) =
        ⟨[⟨"@class".toList, "true".toList, .bound⟩, ⟨bagName, "$attributes (".toList, .spread⟩],
          ["@class".toList, bagName]⟩ ∧
      Group.take? "(\"it's\")".toList = some ("(\"it's\")".toList, []) ∧
      Listing.parse Echo.standard (expand Config.standard.callee
          (" @class(\"it's\")".toList)) =
        ⟨[⟨"class".toList, Config.standard.callee .cssClass ++ "('it's')".toList, .bound⟩],
          ["class".toList]⟩ ∧
      Group.take? "('it's')".toList = none := by
  refine ⟨by decide, by decide +kernel, by decide, by decide +kernel, by decide,
    by decide +kernel, by decide⟩

end Attribute
end TemplateTags
