import TemplateTags.Proofs.Attribute.Canonical
import TemplateTags.Proofs.Tag.Soundness

/-!
# What becomes of each character of attribute text

Reading attribute text as tokens passes over whatever cannot be read, and so never fails.
What it passes over is nevertheless determined: the text is the names with their values, in
order, and gaps between them in which no character of a name stands.

## 1.  Values

A name has a value if an equals sign follows directly and then a character that is neither
white space nor `>`.  The value is `Quoted` if it starts with a quote that comes again, but not
at once; otherwise it is the longest run of such characters (`IsValue`).  This settles for
every text `u` behind a name what is taken from it (`assigned_eq_iff`).

## 2.  Accounts

`Accounts t g l` gives an account of all of `t`: it starts with the gap `g`, and `l` lists each
token with the gap behind it.  An account with a first token is one of the text behind that
token, with a name and its value in front (`accounts_cons_iff`), and reading goes the same way.
So every text has an account, and every account lists the tokens that are read
(`exists_accounts`, `Accounts.ofText_eq`).
-/

namespace TemplateTags
namespace Attribute
namespace Token

open Text (Stops strip? strip?_eq_some_iff strip?_append)

variable {t u g r s v : Text} {l : List (Token × Text)}

/-! ## Values -/

/-- At the start of `r` stands `v`: a quote, some text without it, and the quote again. -/
def Quoted (r v : Text) : Prop :=
  ∃ q m s, Character.isQuote q = true ∧ m ≠ [] ∧ q ∉ m ∧ v = q :: m ++ [q] ∧ r = v ++ s

/-- At the start of `r` stands `v`, and it is the longest run there of characters other than
white space and `>`. -/
def Bare (r v : Text) : Prop :=
  ∃ s, r = v ++ s ∧ (∀ c ∈ v, isRunChar c = true) ∧ Stops isRunChar s

/-- The value at the start of a text is quoted if it can be, and bare otherwise. -/
def IsValue (r v : Text) : Prop := Quoted r v ∨ (∀ w, ¬ Quoted r w) ∧ Bare r v

/-- An equals sign follows, and a character other than white space and `>`. -/
def HasValue (u : Text) : Prop := ∃ c r, u = '=' :: c :: r ∧ isRunChar c = true

/-- The value of a name is right, if `u` is the text behind the name. -/
def Assigned (value : Option Text) (u : Text) : Prop :=
  (value = none ↔ ¬ HasValue u) ∧ ∀ v, value = some v → ∃ r, u = '=' :: r ∧ IsValue r v

theorem quotedValue?_eq_some_iff :
    quotedValue? r = some (v, s) ↔ Quoted r v ∧ r = v ++ s := by
  constructor
  · intro h
    cases r with
    | nil => cases h
    | cons q t =>
      rw [quotedValue?] at h
      split at h
      · next hq =>
        obtain ⟨x, hx, e⟩ := Option.map_eq_some_iff.1 h
        cases e
        have ht : q :: t = q :: t.takeWhile (· != q) ++ [q] ++ s := by
          have hcut := List.takeWhile_append_dropWhile (p := (· != q)) (l := t)
          rw [strip?_eq_some_iff.1 hx] at hcut
          rw [List.cons_append, List.cons_append, List.append_assoc, hcut]
        exact ⟨⟨q, _, s, hq.1, hq.2, Tag.notMem_takeWhile_ne q t, rfl, ht⟩, ht⟩
      · cases h
  · rintro ⟨⟨q, m, s', hq, hne, hm, rfl, -⟩, rfl⟩
    exact quotedValue?_quoted hq hne hm s

theorem quotedValue?_eq_none_iff : quotedValue? r = none ↔ ∀ w, ¬ Quoted r w := by
  constructor
  · rintro h w ⟨q, m, s, hq, hne, hm, rfl, rfl⟩
    rw [quotedValue?_quoted hq hne hm] at h
    cases h
  · intro h
    cases hr : quotedValue? r with
    | none => rfl
    | some x => exact absurd (quotedValue?_eq_some_iff.1 hr).1 (h x.1)

theorem runValue?_eq_some_iff :
    runValue? r = some (v, s) ↔ v ≠ [] ∧ Bare r v ∧ r = v ++ s := by
  constructor
  · intro h
    rw [runValue?] at h
    split at h
    · cases h
    · next hne =>
      cases h
      have hr := (List.takeWhile_append_dropWhile (p := isRunChar) (l := r)).symm
      exact ⟨hne, ⟨_, hr, fun c hc => List.mem_takeWhile_imp hc, Text.stops_dropWhile _ r⟩, hr⟩
  · rintro ⟨hne, ⟨s', hr, hv, hs⟩, rfl⟩
    obtain rfl := List.append_cancel_left hr
    exact runValue?_of_stops hne hv hs

theorem value?_eq_some_iff :
    value? r = some (v, s) ↔ v ≠ [] ∧ IsValue r v ∧ r = v ++ s := by
  rw [value?, Option.or_eq_some_iff, quotedValue?_eq_some_iff, quotedValue?_eq_none_iff,
    runValue?_eq_some_iff]
  constructor
  · rintro (⟨hq, hr⟩ | ⟨hn, hne, hb, hr⟩)
    · obtain ⟨q, m, -, -, -, -, rfl, -⟩ := id hq
      exact ⟨List.cons_ne_nil _ _, Or.inl hq, hr⟩
    · exact ⟨hne, Or.inr ⟨hn, hb⟩, hr⟩
  · rintro ⟨hne, hq | ⟨hn, hb⟩, hr⟩
    · exact Or.inl ⟨hq, hr⟩
    · exact Or.inr ⟨hn, hne, hb, hr⟩

/-- There is a value unless white space or `>` follows, or nothing. -/
theorem exists_value?_eq_some_iff :
    (∃ x, value? r = some x) ↔ HasValue ('=' :: r) := by
  constructor
  · rintro ⟨⟨v, s⟩, h⟩
    obtain ⟨hne, hv, rfl⟩ := value?_eq_some_iff.1 h
    obtain ⟨c, v, rfl⟩ := List.exists_cons_of_ne_nil hne
    refine ⟨c, v ++ s, rfl, ?_⟩
    rcases hv with ⟨q, m, s', hq, -, -, he, -⟩ | ⟨-, s', -, hrun, -⟩
    · rw [(List.cons.inj he).1]
      exact isRunChar_of_isQuote hq
    · exact hrun c (List.mem_cons_self ..)
  · rintro ⟨c, r, he, hc⟩
    cases he
    have hne : (c :: r).takeWhile isRunChar ≠ [] := by simp [hc]
    cases hq : quotedValue? (c :: r) with
    | some x => exact ⟨x, by rw [value?, hq]; rfl⟩
    | none => exact ⟨_, by rw [value?, hq, runValue?, if_neg hne]; rfl⟩

theorem IsValue.ne_nil (h : HasValue ('=' :: r)) (hv : IsValue r v) : v ≠ [] := by
  obtain ⟨c, r, he, hc⟩ := h
  cases he
  rcases hv with ⟨q, m, s, -, -, -, rfl, -⟩ | ⟨-, s, hr, -, hs⟩
  · exact List.cons_ne_nil _ _
  · -- the empty run is not the longest one
    rintro rfl
    rw [← List.nil_append s, ← hr, Text.stops_cons, hc] at hs
    cases hs

/-! ## The text behind a name -/

/-- The value with its equals sign. -/
def assignment : Option Text → Text
  | none => []
  | some v => '=' :: v

theorem assigned_of_not_hasValue (h : ¬ HasValue u) : assigned u = (none, u) := by
  rw [assigned]
  split
  · rfl
  · next r hr =>
    split
    · next x hx =>
      rw [strip?_eq_some_iff.1 hr] at h
      exact absurd (exists_value?_eq_some_iff.1 ⟨x, hx⟩) h
    · rfl

theorem assigned_of_value? (h : value? r = some (v, s)) : assigned ('=' :: r) = (some v, s) := by
  have hstrip : strip? ['='] ('=' :: r) = some r := strip?_append ['='] r
  rw [assigned, hstrip]
  simp only [h]

/-- What is taken from the text behind a name is its value, if it has one. -/
theorem assigned_eq_iff {value : Option Text} :
    assigned u = (value, s) ↔ Assigned value u ∧ u = assignment value ++ s := by
  by_cases hu : HasValue u
  · obtain ⟨c, r, rfl, hc⟩ := id hu
    obtain ⟨⟨v, s'⟩, hvalue⟩ := exists_value?_eq_some_iff.2 hu
    obtain ⟨-, hv, hr⟩ := value?_eq_some_iff.1 hvalue
    constructor
    · intro h
      rw [assigned_of_value? hvalue] at h
      cases h
      refine ⟨⟨by simp [hu], fun w hw => ?_⟩, congrArg _ hr⟩
      cases hw
      exact ⟨_, rfl, hv⟩
    · rintro ⟨⟨hnone, hsome⟩, hs⟩
      cases value with
      | none => exact absurd hu (hnone.1 rfl)
      | some w =>
        obtain ⟨r', he, hw⟩ := hsome w rfl
        cases he
        exact assigned_of_value? (value?_eq_some_iff.2 ⟨hw.ne_nil hu, hw, (List.cons.inj hs).2⟩)
  · rw [assigned_of_not_hasValue hu, Prod.mk.injEq]
    constructor
    · rintro ⟨rfl, rfl⟩
      exact ⟨⟨by simp [hu], by simp⟩, rfl⟩
    · rintro ⟨⟨hnone, -⟩, hs⟩
      obtain rfl := hnone.2 hu
      exact ⟨rfl, hs⟩

/-! ## Accounts -/

/-- The token as it is written. -/
def text (k : Token) : Text := k.name ++ assignment k.value

/-- Tokens as they are written, each with the gap behind it. -/
def written (l : List (Token × Text)) : Text := l.flatMap fun p => p.1.text ++ p.2

/-- No character of a name stands in the gap. -/
def IsGap (g : Text) : Prop := ∀ c ∈ g, Character.isAttributeName c = false

/-- An account of all characters of `t`: a gap, and then tokens with gaps behind them.  Each
name is a run that does not go on in `t`, and its value is what the text behind it says. -/
structure Accounts (t g : Text) (l : List (Token × Text)) : Prop where
  eq : t = g ++ written l
  gap : IsGap g
  gaps : ∀ p ∈ l, IsGap p.2
  names : ∀ p ∈ l, IsName p.1.name
  stops : ∀ x p y, l = x ++ p :: y →
    Stops Character.isAttributeName (assignment p.1.value ++ p.2 ++ written y)
  values : ∀ x p y, l = x ++ p :: y →
    Assigned p.1.value (assignment p.1.value ++ p.2 ++ written y)

theorem accounts_nil_iff : Accounts t g [] ↔ t = g ∧ IsGap g := by
  constructor
  · intro h
    exact ⟨h.eq.trans (List.append_nil g), h.gap⟩
  · rintro ⟨rfl, hg⟩
    exact ⟨(List.append_nil _).symm, hg, by simp, by simp, by simp, by simp⟩

/-- The first token of an account, and the account of the text behind it. -/
theorem accounts_cons_iff {p : Token × Text} :
    Accounts t g (p :: l) ↔ IsGap g ∧ IsName p.1.name ∧
      ∃ u r, t = g ++ (p.1.name ++ u) ∧ Stops Character.isAttributeName u ∧
        assigned u = (p.1.value, r) ∧ Accounts r p.2 l := by
  constructor
  · intro h
    have hstops := h.stops [] p l rfl
    have hvalue := h.values [] p l rfl
    rw [List.append_assoc] at hstops hvalue
    refine ⟨h.gap, h.names p (List.mem_cons_self ..), _, p.2 ++ written l, ?_, hstops,
      assigned_eq_iff.2 ⟨hvalue, rfl⟩, rfl, h.gaps p (List.mem_cons_self ..),
      fun q hq => h.gaps q (List.mem_cons_of_mem _ hq),
      fun q hq => h.names q (List.mem_cons_of_mem _ hq),
      fun x q y hl => h.stops (p :: x) q y (congrArg _ hl),
      fun x q y hl => h.values (p :: x) q y (congrArg _ hl)⟩
    rw [h.eq]
    simp [written, text]
  · rintro ⟨hg, hname, u, r, rfl, hstops, hassigned, h⟩
    obtain ⟨hvalue, hu⟩ := assigned_eq_iff.1 hassigned
    rw [h.eq, ← List.append_assoc] at hu
    refine ⟨?_, hg, List.forall_mem_cons.2 ⟨h.gap, h.gaps⟩,
      List.forall_mem_cons.2 ⟨hname, h.names⟩, ?_, ?_⟩
    · rw [hu]
      simp [written, text]
    · intro x q y hl
      rcases List.cons_eq_append_iff.1 hl with ⟨rfl, he⟩ | ⟨x, rfl, he⟩
      · cases he
        rwa [← hu]
      · exact h.stops x q y he
    · intro x q y hl
      rcases List.cons_eq_append_iff.1 hl with ⟨rfl, he⟩ | ⟨x, rfl, he⟩
      · cases he
        rwa [← hu]
      · exact h.values x q y he

/-- An account lists the tokens that are read. -/
theorem Accounts.ofText_eq (h : Accounts t g l) : ofText t = l.map Prod.fst := by
  induction l generalizing t g with
  | nil =>
    obtain ⟨rfl, hg⟩ := accounts_nil_iff.1 h
    have hskip := ofText_skip hg []
    rwa [List.append_nil, ofText] at hskip
  | cons p l ih =>
    obtain ⟨hg, hname, u, r, rfl, hstops, hassigned, hr⟩ := accounts_cons_iff.1 h
    rw [ofText_skip hg, ofText_name hname hstops, hassigned, ih hr]
    rfl

/-- Every text has an account. -/
theorem exists_accounts (t : Text) : ∃ g l, Accounts t g l := by
  fun_induction ofText t with
  | case1 => exact ⟨[], [], accounts_nil_iff.2 ⟨rfl, by simp [IsGap]⟩⟩
  | case2 c t hc ih =>
    obtain ⟨g, l, h⟩ := ih
    have hname : IsName (c :: t.takeWhile Character.isAttributeName) :=
      .cons (fun _ hd => List.mem_takeWhile_imp hd) hc
    refine ⟨[], (⟨_, (assigned (t.dropWhile Character.isAttributeName)).1⟩, g) :: l,
      accounts_cons_iff.2 ⟨by simp [IsGap], hname, _, _, ?_, Text.stops_dropWhile _ t, rfl, h⟩⟩
    rw [List.nil_append, List.cons_append, List.takeWhile_append_dropWhile]
  | case3 c t hc ih =>
    obtain ⟨g, l, h⟩ := ih
    have hgap : IsGap (c :: g) := List.forall_mem_cons.2 ⟨Bool.eq_false_iff.2 hc, h.gap⟩
    exact ⟨c :: g, l, congrArg _ h.eq, hgap, h.gaps, h.names, h.stops, h.values⟩

/-! ## Rounds -/

/-- One round of reading: a token and what is left behind it where a name starts, and all but
the first character elsewhere. -/
def round : Text → Option Token × Text
  | [] => (none, [])
  | c :: t =>
    if Character.isAttributeName c then
      let u := t.dropWhile Character.isAttributeName
      (some ⟨c :: t.takeWhile Character.isAttributeName, (assigned u).1⟩, (assigned u).2)
    else (none, t)

theorem ofText_eq_round (t : Text) : ofText t = (round t).1.toList ++ ofText (round t).2 := by
  cases t with
  | nil => rw [round, ofText]; rfl
  | cons c t =>
    rw [ofText, round]
    split
    · rfl
    · rfl

/-- Every round takes at least one character away from the text. -/
theorem length_round_lt (h : t ≠ []) : (round t).2.length < t.length := by
  cases t with
  | nil => exact absurd rfl h
  | cons c t =>
    rw [round]
    split
    · have hu := length_assigned_le (t.dropWhile Character.isAttributeName)
      have ht := (List.dropWhile_suffix Character.isAttributeName (l := t)).length_le
      exact Nat.lt_succ_of_le (hu.trans ht)
    · exact Nat.lt_succ_self _

/-- **Reading tokens accounts for every character.**  Tokens are read from a text exactly if
they are listed in an account of it: if the text is made of them and of gaps, where no
character of a name stands in a gap, each name is a run that does not go on, and each value
is absent or present, quoted or bare, as the text behind the name has it.  So the tokens are
uniquely determined; and they are found in rounds, each of which takes something away. -/
theorem ofText_iff_accounts (t : Text) :
    (∀ ks, ofText t = ks ↔ ∃ g l, Accounts t g l ∧ l.map Prod.fst = ks) ∧
      (∃! ks, ∃ g l, Accounts t g l ∧ l.map Prod.fst = ks) ∧
      ofText t = (round t).1.toList ++ ofText (round t).2 ∧
      (t ≠ [] → (round t).2.length < t.length) := by
  have hiff : ∀ ks, ofText t = ks ↔ ∃ g l, Accounts t g l ∧ l.map Prod.fst = ks := by
    intro ks
    constructor
    · rintro rfl
      obtain ⟨g, l, h⟩ := exists_accounts t
      exact ⟨g, l, h, h.ofText_eq.symm⟩
    · rintro ⟨g, l, h, rfl⟩
      exact h.ofText_eq
  refine ⟨hiff, ⟨_, (hiff _).1 rfl, fun ks hks => ((hiff ks).2 hks).symm⟩, ofText_eq_round t,
    length_round_lt⟩

end Token
end Attribute
end TemplateTags
