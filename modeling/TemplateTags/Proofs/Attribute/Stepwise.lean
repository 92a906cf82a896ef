import Mathlib.Data.List.Basic
import TemplateTags.Proofs.Attribute.Replace

/-!
# Expanding a shorthand character by character

What is done to attribute text is done to its runs, and the runs are found by looking ahead for
quoted values.  Still it can be followed from left to right: a character joins the first plain
run of what follows it, unless it is an equals sign before a quote, and then a quoted value
ends the run.

* `Run.flatMap_ofText_append`, `Run.flatMap_ofText_value`: what comes of the runs of a text, by
  its first characters.  `Run.gather` collects from a text what is seen behind white space in
  its plain runs, together with its quoted values.
* `Shorthand.expandBehind` expands a shorthand in text that stands behind other attribute text.
  If the shorthand is recognised by what stands before the next white space or equals sign
  (`Shorthand.Local`), then each character is copied, unless it is white space before the
  shorthand (`expandBehind_cons`), and so is each quoted value (`expandBehind_value`).  These
  are the cases of `expandBehind_induction`.
* At the start of attribute text a shorthand is expanded as if it stood behind a blank
  (`expand_of_findStart?_ne_none`).
* `expand_expand`: if nothing is left to be expanded, then a second expansion changes nothing.

What was no shorthand before the expansion is none after it, though white space in it may have
become a blank and other shorthands in it may have been replaced (`look_expandBehind`).
-/

namespace TemplateTags

open Text (Stops)

/-- The characters that are neither white space nor the equals sign. -/
def Character.isInner (c : Char) : Bool := !isWhiteSpace c && c != '='

theorem Character.isInner_iff {c : Char} :
    isInner c = true ↔ isWhiteSpace c = false ∧ c ≠ '=' := by
  simp [isInner]

/-! ## Runs from left to right -/

namespace Attribute.Run

variable {α : Type} {f : Run → List α} {x t u r : Text} {c q : Char}

/-- What comes of the runs behind the first plain one. -/
def behindStart (f : Run → List α) (t : Text) : List α :=
  (toQuote? t).elim [] fun s =>
    f (.quoted (value s.2.1 s.2.2).1) ++ (ofText (value s.2.1 s.2.2).2).flatMap f

/-- The text from the first quoted value on. -/
def plainRest (t : Text) : Text := (toQuote? t).elim [] fun s => s.2.1 :: s.2.2

theorem plainStart_append_plainRest (t : Text) : plainStart t ++ plainRest t = t := by
  rw [plainStart, plainRest]
  cases h : toQuote? t with
  | none => exact List.append_nil t
  | some s => exact (eq_of_toQuote? h).symm

theorem stops_plainStart {p : Char → Bool} (h : Stops p t) : Stops p (plainStart t) := by
  rw [← plainStart_append_plainRest t] at h
  exact h.of_append

theorem flatMap_ofText (hf : f (.plain []) = []) (t : Text) :
    (ofText t).flatMap f = f (.plain (plainStart t)) ++ behindStart f t := by
  rw [plainStart, behindStart]
  cases h : toQuote? t with
  | none =>
    rw [ofText_of_toQuote?_none h]
    split
    · next ht => simp [ht, hf]
    · simp
  | some s =>
    rw [ofText_of_toQuote?_some (b := s.1) (q := s.2.1) (r := s.2.2) h]
    simp

theorem mem_of_toQuote? {k : Text × Char × Text} (h : toQuote? t = some k) : '=' ∈ k.1 := by
  fun_induction toQuote? t generalizing k with
  | case1 => cases h
  | case2 => cases h
  | case3 c q t hc =>
    rw [Bool.and_eq_true, decide_eq_true_eq] at hc
    cases h
    exact List.mem_singleton.2 hc.1.symm
  | case4 c q t hc ih =>
    obtain ⟨k, hk, rfl⟩ := Option.map_eq_some_iff.1 h
    exact List.mem_cons_of_mem _ (ih hk)

theorem exists_plainStart_cons (c : Char) (t : Text) : ∃ k, plainStart (c :: t) = c :: k := by
  rw [plainStart]
  cases h : toQuote? (c :: t) with
  | none => exact ⟨t, rfl⟩
  | some k =>
    obtain ⟨b, l, hruns⟩ := exists_ofText_cons c t
    rw [ofText_of_toQuote?_some (b := k.1) (q := k.2.1) (r := k.2.2) h, List.cons.injEq,
      plain.injEq] at hruns
    exact ⟨b, hruns.1⟩

/-- The text joins the first plain run of what follows it. -/
def Joins (x u : Text) : Prop := toQuote? (x ++ u) = (toQuote? u).map fun s => (x ++ s.1, s.2)

theorem joins_of_notMem (h : '=' ∉ x) : Joins x u := toQuote?_append_of_notMem h u

theorem joins_singleton (h : c = '=' → Stops Character.isQuote u) : Joins [c] u := by
  by_cases hc : c = '='
  · exact toQuote?_append (unvalued_cons.2 ⟨fun _ => Text.stops_nil, unvalued_nil⟩) (h hc)
  · exact joins_of_notMem (by simpa using Ne.symm hc)

theorem Joins.plainStart_eq (h : Joins x u) : plainStart (x ++ u) = x ++ plainStart u := by
  rw [plainStart, plainStart, h]
  cases toQuote? u with
  | none => rfl
  | some s => rfl

theorem Joins.behindStart_eq (h : Joins x u) : behindStart f (x ++ u) = behindStart f u := by
  rw [behindStart, behindStart, h]
  cases toQuote? u with
  | none => rfl
  | some s => rfl

theorem flatMap_ofText_append (hf : f (.plain []) = []) (h : Joins x u) :
    (ofText (x ++ u)).flatMap f = f (.plain (x ++ plainStart u)) ++ behindStart f u := by
  rw [flatMap_ofText hf, h.plainStart_eq, h.behindStart_eq]

theorem flatMap_ofText_value (hq : Character.isQuote q = true) (r : Text) :
    (ofText ('=' :: q :: r)).flatMap f =
      f (.plain ['=']) ++ (f (.quoted (value q r).1) ++ (ofText (value q r).2).flatMap f) := by
  have hquote : toQuote? ('=' :: q :: r) = some (['='], q, r) :=
    toQuote?_append_value unvalued_nil hq r
  rw [ofText_of_toQuote?_some hquote]
  rfl

/-- A quoted value keeps its end whatever follows it, provided that it has one. -/
theorem exists_value_append (h : (value q r).2 = [] → u = []) :
    ∃ r', (value q r).1 ++ u = q :: r' ∧ value q r' = ((value q r).1, u) := by
  by_cases hend : (value q r).2 = []
  · have htext := value_eq q r
    rw [hend] at htext
    rw [h hend]
    exact ⟨r, htext, Prod.ext rfl hend⟩
  · have hclosed : ∃ v, q ∉ v ∧ (value q r).1 = q :: v ++ [q] := by
      unfold value at hend ⊢
      split at hend
      · exact absurd rfl hend
      · exact ⟨_, fun hm => by simpa using List.mem_takeWhile_imp hm, rfl⟩
    obtain ⟨v, hv, heq⟩ := hclosed
    rw [heq]
    exact ⟨v ++ q :: u, by simp, value_append hv u⟩

theorem flatMap_ofText_value_append (hq : Character.isQuote q = true)
    (h : (value q r).2 = [] → u = []) :
    (ofText ('=' :: ((value q r).1 ++ u))).flatMap f =
      f (.plain ['=']) ++ (f (.quoted (value q r).1) ++ (ofText u).flatMap f) := by
  obtain ⟨r', htext, hvalue⟩ := exists_value_append h
  rw [htext, flatMap_ofText_value hq, hvalue]

/-! ### Gathering from plain runs and quoted values -/

/-- What is seen behind the white space of a text, from left to right. -/
def behindSpace (look : Text → Option α) : Text → List α
  | [] => []
  | c :: t =>
    (if Character.isWhiteSpace c then (look t).toList else []) ++ behindSpace look t

/-- What is seen in a run: behind the white space of plain text, and of a quoted value. -/
def seen (look : Text → Option α) (g : Text → List α) : Run → List α
  | .plain u => behindSpace look u
  | .quoted v => g v

/-- What is seen in the runs of a text, in order. -/
def gather (look : Text → Option α) (g : Text → List α) (t : Text) : List α :=
  (ofText t).flatMap (seen look g)

/-- What is seen at the start of a text is seen whatever follows. -/
def Lasting (look : Text → Option α) : Prop := ∀ t u, look (t ++ u) = none → look t = none

variable {look : Text → Option α} {g : Text → List α}

theorem behindSpace_cons_of_none (h : Character.isWhiteSpace c = true → look t = none) :
    behindSpace look (c :: t) = behindSpace look t := by
  rw [behindSpace]
  split
  · next hc => rw [h hc]; rfl
  · rfl

theorem behindSpace_cons_eq_nil_iff : behindSpace look (c :: t) = [] ↔
    (Character.isWhiteSpace c = true → look t = none) ∧ behindSpace look t = [] := by
  rw [behindSpace, List.append_eq_nil_iff]
  split
  · next hc => simp [hc]
  · next hc => simp [hc]

theorem behindSpace_of_append (h : behindSpace look (x ++ t) = []) : behindSpace look t = [] := by
  induction x with
  | nil => exact h
  | cons c x ih => exact ih (behindSpace_cons_eq_nil_iff.1 h).2

theorem behindSpace_inner (hx : ∀ c ∈ x, Character.isInner c = true) (t : Text) :
    behindSpace look (x ++ t) = behindSpace look t := by
  induction x with
  | nil => rfl
  | cons c x ih =>
    have hc := (Character.isInner_iff.1 (hx c (List.mem_cons_self ..))).1
    rw [List.cons_append, behindSpace_cons_of_none fun h => absurd h (by simp [hc])]
    exact ih fun d hd => hx d (List.mem_cons_of_mem _ hd)

theorem gather_nil : gather look g [] = [] := by
  rw [gather, ofText_of_toQuote?_none rfl]
  rfl

theorem gather_append (h : Joins x u) :
    gather look g (x ++ u) =
      behindSpace look (x ++ plainStart u) ++ behindStart (seen look g) u :=
  flatMap_ofText_append rfl h

theorem gather_eq (t : Text) :
    gather look g t = behindSpace look (plainStart t) ++ behindStart (seen look g) t :=
  gather_append (x := []) (joins_of_notMem List.not_mem_nil)

theorem gather_cons (hlook : Lasting look) (hc : c = '=' → Stops Character.isQuote t)
    (h : Character.isWhiteSpace c = true → look t = none) :
    gather look g (c :: t) = gather look g t := by
  have hskip : behindSpace look (c :: plainStart t) = behindSpace look (plainStart t) :=
    behindSpace_cons_of_none fun hspace => hlook _ (plainRest t) (by
      rw [plainStart_append_plainRest]
      exact h hspace)
  have happend : gather look g ([c] ++ t) = _ := gather_append (joins_singleton hc)
  rw [List.singleton_append, List.singleton_append, hskip] at happend
  rw [happend, gather_eq t]

theorem gather_inner (hx : ∀ c ∈ x, Character.isInner c = true) (t : Text) :
    gather look g (x ++ t) = gather look g t := by
  rw [gather_append (joins_of_notMem (Text.notMem_of_forall hx (by decide))),
    behindSpace_inner hx, gather_eq t]

theorem gather_value (hq : Character.isQuote q = true) (r : Text) :
    gather look g ('=' :: q :: r) = g (value q r).1 ++ gather look g (value q r).2 :=
  flatMap_ofText_value hq r

theorem gather_value_append (hq : Character.isQuote q = true) (h : (value q r).2 = [] → u = []) :
    gather look g ('=' :: ((value q r).1 ++ u)) = g (value q r).1 ++ gather look g u :=
  flatMap_ofText_value_append hq h

end Attribute.Run

/-! ## Expanding from left to right -/

namespace Shorthand

open Attribute (Run)
open Attribute.Run (Joins plainStart plainRest behindStart)

variable {s : Shorthand} {c q : Char} {t u x : Text}

/-- What is found behind a character of white space. -/
def look (s : Shorthand) (t : Text) : Option Found := s.find? (s.afterSpace t)

/-- Replaces all occurrences in attribute text that stands behind other attribute text. -/
def expandBehind (s : Shorthand) (t : Text) : Text := (Run.ofText t).flatMap (s.expandRun false)

theorem look_of_space (hs : s.atBoundary = true)
    (hx : ∀ c ∈ x, Character.isWhiteSpace c = true) (ht : Stops Character.isWhiteSpace t) :
    s.look (x ++ t) = s.find? t := by
  rw [look, afterSpace, if_pos hs, Text.dropWhile_of_stops hx ht]

theorem expandBehind_nil (s : Shorthand) : s.expandBehind [] = [] := by
  rw [expandBehind, Run.ofText_of_toQuote?_none rfl]
  rfl

theorem findStart?_eq_none_iff :
    s.findStart? t = none ↔ (s.atBoundary = true → s.find? t = none) := by
  unfold findStart?
  split
  · next h => simp [h]
  · next h => simp [h]

/-- The induction along the steps of the expansion. -/
theorem expandBehind_induction {motive : Text → Prop} (s : Shorthand) (nil : motive [])
    (value : ∀ q r, Character.isQuote q = true → motive (Run.value q r).2 →
      motive ('=' :: q :: r))
    (found : ∀ c t, Character.isWhiteSpace c = true → s.look t ≠ none →
      (∀ u : Text, u.length ≤ t.length → motive u) → motive (c :: t))
    (copy : ∀ c t, (c = '=' → Stops Character.isQuote t) →
      (Character.isWhiteSpace c = true → s.look t = none) → motive t → motive (c :: t))
    (t : Text) : motive t := by
  induction hlen : t.length using Nat.strong_induction_on generalizing t with
  | _ n ih =>
    cases t with
    | nil => exact nil
    | cons c t =>
      rw [List.length_cons] at hlen
      have hshort : ∀ u : Text, u.length ≤ t.length → motive u := fun u hu =>
        ih u.length (by omega) u rfl
      by_cases hvalue : c = '=' ∧ ¬ Stops Character.isQuote t
      · obtain ⟨rfl, hstop⟩ := hvalue
        cases t with
        | nil => exact absurd Text.stops_nil hstop
        | cons q r =>
          rw [Text.stops_cons, Bool.not_eq_false] at hstop
          have hle := Run.length_value_le q r
          exact value q r hstop (hshort _ (by rw [List.length_cons]; omega))
      · have hc : c = '=' → Stops Character.isQuote t := fun he =>
          by_contra fun hstop => hvalue ⟨he, hstop⟩
        by_cases hfound : Character.isWhiteSpace c = true ∧ s.look t ≠ none
        · exact found c t hfound.1 hfound.2 hshort
        · exact copy c t hc (fun hspace => by_contra fun h => hfound ⟨hspace, h⟩)
            (hshort t (Nat.le_refl _))

/-- The shorthand is recognised by what stands before the next white space or equals sign,
and by that equals sign. -/
structure Local (s : Shorthand) : Prop where
  solid : ∀ {t f}, s.find? t = some f → ∀ c ∈ f.taken, Character.isWhiteSpace c = false
  find?_of_append : ∀ {t u}, s.find? (t ++ u) = none → s.find? t = none
  find?_congr : ∀ {x t u}, (∀ c ∈ x, Character.isInner c = true) →
    Stops Character.isInner t → Stops Character.isInner u →
    (u.head? = some '=' → t.head? = some '=') → s.find? (x ++ t) = none → s.find? (x ++ u) = none

namespace Local

theorem tight (hs : s.Local) : s.Tight := by
  intro c t hc
  by_contra h
  obtain ⟨f, hf⟩ := Option.ne_none_iff_exists'.1 h
  obtain ⟨htext, hne⟩ := s.eq_of_find? hf
  obtain ⟨d, k, hk⟩ := List.exists_cons_of_ne_nil hne
  rw [hk, List.cons_append, List.cons.injEq] at htext
  have hd := hs.solid hf d (by rw [hk]; exact List.mem_cons_self ..)
  rw [← htext.1, hc] at hd
  cases hd

theorem look_of_append (hs : s.Local) (h : s.look (t ++ u) = none) : s.look t = none := by
  unfold look afterSpace at h ⊢
  split
  · next hbound =>
    rw [if_pos hbound, List.dropWhile_append] at h
    split at h
    · next hempty =>
      rw [List.isEmpty_iff.1 hempty]
      exact s.find?_nil
    · exact hs.find?_of_append h
  · next hbound =>
    rw [if_neg hbound] at h
    exact hs.find?_of_append h

/-- Copying a shorthand at the start of a run is what replacing does anyway. -/
theorem expandPlain_false (hs : s.Local) (t : Text) : s.expandPlain false t = s.replace t := by
  rw [expandPlain]
  split
  · next f hf =>
    have hfind : s.find? t = some f := by
      unfold findStart? at hf
      split at hf
      · exact hf
      · cases hf
    rw [if_neg Bool.false_ne_true, ← replace_append_of_solid (hs.solid hfind),
      ← (s.eq_of_find? hfind).1]
  · rfl

theorem expandRun_nil (hs : s.Local) : s.expandRun false (.plain []) = [] :=
  (hs.expandPlain_false []).trans s.replace_nil

theorem expandBehind_append (hs : s.Local) (h : Joins x u) :
    s.expandBehind (x ++ u) =
      s.replace (x ++ plainStart u) ++ behindStart (s.expandRun false) u := by
  rw [expandBehind, Run.flatMap_ofText_append hs.expandRun_nil h, expandRun,
    hs.expandPlain_false]

theorem expandBehind_eq (hs : s.Local) (t : Text) :
    s.expandBehind t = s.replace (plainStart t) ++ behindStart (s.expandRun false) t :=
  hs.expandBehind_append (x := []) (Run.joins_of_notMem List.not_mem_nil)

/-! ### One step -/

/-- A character is copied, unless it is white space before the shorthand. -/
theorem expandBehind_cons (hs : s.Local) (hc : c = '=' → Stops Character.isQuote t)
    (h : Character.isWhiteSpace c = true → s.look t = none) :
    s.expandBehind (c :: t) = c :: s.expandBehind t := by
  have hcopy : s.replace (c :: plainStart t) = c :: s.replace (plainStart t) :=
    replace_cons_of_none fun hspace => hs.look_of_append (u := plainRest t) (by
      rw [Run.plainStart_append_plainRest]
      exact h hspace)
  have happend := hs.expandBehind_append (Run.joins_singleton hc)
  rw [List.singleton_append, List.singleton_append] at happend
  rw [happend, hcopy, hs.expandBehind_eq t]
  rfl

/-- A quoted value is copied. -/
theorem expandBehind_value (hs : s.Local) (hq : Character.isQuote q = true) (r : Text) :
    s.expandBehind ('=' :: q :: r) =
      '=' :: ((Run.value q r).1 ++ s.expandBehind (Run.value q r).2) := by
  have hequals : s.expandRun false (.plain ['=']) = ['='] := by
    rw [expandRun, hs.expandPlain_false,
      replace_cons_of_none fun hspace => absurd hspace (by decide), replace_nil]
  rw [expandBehind, Run.flatMap_ofText_value hq, hequals]
  rfl

/-- A text with neither white space nor equals signs is copied. -/
theorem expandBehind_inner (hs : s.Local) (hx : ∀ c ∈ x, Character.isInner c = true)
    (t : Text) : s.expandBehind (x ++ t) = x ++ s.expandBehind t := by
  rw [hs.expandBehind_append (Run.joins_of_notMem (Text.notMem_of_forall hx (by decide))),
    replace_append_of_solid fun c hc => (Character.isInner_iff.1 (hx c hc)).1,
    hs.expandBehind_eq t, List.append_assoc]

/-- The first character stays, or is white space that becomes a blank. -/
theorem head?_expandBehind (hs : s.Local) (c : Char) (t : Text) :
    (s.expandBehind (c :: t)).head? = some c ∨
      Character.isWhiteSpace c = true ∧ (s.expandBehind (c :: t)).head? = some ' ' := by
  obtain ⟨b, l, hruns⟩ := Run.exists_ofText_cons c t
  rw [expandBehind, hruns, List.flatMap_cons, expandRun, hs.expandPlain_false, replace_cons]
  split
  · next hc =>
    split
    · exact .inr ⟨hc, rfl⟩
    · exact .inl rfl
  · exact .inl rfl

theorem stops_expandBehind (hs : s.Local) {p : Char → Bool} (h : Stops p t)
    (hp : p ' ' = false ∨ ∀ c, Character.isWhiteSpace c = true → p c = true) :
    Stops p (s.expandBehind t) := by
  cases t with
  | nil => rwa [expandBehind_nil]
  | cons c t =>
    intro d hd
    rcases hs.head?_expandBehind c t with hhead | ⟨hc, hhead⟩
    · rw [hhead] at hd
      exact h d hd
    · rw [hhead] at hd
      cases hd
      rcases hp with hp | hp
      · exact hp
      · rw [Text.stops_cons, hp c hc] at h
        cases h

/-! ### The same place before and after -/

/-- Where no shorthand is found, none is found after the expansion. -/
theorem find?_expandBehind (hs : s.Local) (h : s.find? t = none) :
    s.find? (s.expandBehind t) = none := by
  obtain ⟨x, u, rfl, hinner, hstop⟩ := Text.exists_eq_append_stops Character.isInner t
  -- what decides is copied, and an equals sign follows it after the expansion as before
  rw [hs.expandBehind_inner hinner]
  refine hs.find?_congr hinner hstop (hs.stops_expandBehind hstop (.inl rfl)) ?_ h
  cases u with
  | nil =>
    rw [expandBehind_nil]
    exact id
  | cons c u =>
    intro hhead
    rcases hs.head?_expandBehind c u with hfirst | ⟨-, hfirst⟩
    · rw [hfirst] at hhead
      exact hhead
    · rw [hfirst] at hhead
      cases hhead

theorem expandBehind_space (hs : s.Local) (hbound : s.atBoundary = true)
    (hx : ∀ c ∈ x, Character.isWhiteSpace c = true) (ht : Stops Character.isWhiteSpace t)
    (h : s.find? t = none) : s.expandBehind (x ++ t) = x ++ s.expandBehind t := by
  induction x with
  | nil => rfl
  | cons c x ih =>
    have hc := hx c (List.mem_cons_self ..)
    have hrest : ∀ d ∈ x, Character.isWhiteSpace d = true := fun d hd =>
      hx d (List.mem_cons_of_mem _ hd)
    have hne : c = '=' → Stops Character.isQuote (x ++ t) := by
      rintro rfl
      exact absurd hc (by decide)
    rw [List.cons_append, hs.expandBehind_cons hne fun _ => by rwa [look_of_space hbound hrest ht],
      ih hrest]
    rfl

theorem look_expandBehind (hs : s.Local) (h : s.look t = none) :
    s.look (s.expandBehind t) = none := by
  by_cases hbound : s.atBoundary = true
  · obtain ⟨x, u, rfl, hspace, hstop⟩ := Text.exists_eq_append_stops Character.isWhiteSpace t
    rw [look_of_space hbound hspace hstop] at h
    rw [hs.expandBehind_space hbound hspace hstop h,
      look_of_space hbound hspace (hs.stops_expandBehind hstop (.inr fun _ => id))]
    exact hs.find?_expandBehind h
  · rw [look, afterSpace, if_neg hbound] at h ⊢
    exact hs.find?_expandBehind h

/-- A shorthand at the start of attribute text stands at the start of its first run. -/
theorem find?_plainStart (hs : s.Local) : s.find? (plainStart t) = none ↔ s.find? t = none := by
  constructor
  · intro h
    rw [plainStart] at h
    cases hquote : Run.toQuote? t with
    | none => rwa [hquote] at h
    | some k =>
      rw [hquote, Option.elim_some] at h
      have hequals := Run.mem_of_toQuote? hquote
      obtain ⟨x, y, hsplit, hinner, hstop⟩ :=
        Text.exists_eq_append_stops Character.isInner k.1
      rw [Run.eq_of_toQuote? hquote]
      rw [hsplit] at h hequals ⊢
      rw [List.append_assoc]
      -- the equals sign before the first value is in the run, so what decides ends in the run
      cases y with
      | nil =>
        rw [List.append_nil] at hequals
        exact absurd (hinner _ hequals) (by decide)
      | cons c y => exact hs.find?_congr hinner hstop hstop id h
  · intro h
    rw [← Run.plainStart_append_plainRest t] at h
    exact hs.find?_of_append h

theorem expand_eq_plainStart (hs : s.Local) (t : Text) :
    s.expand t = s.expandPlain true (plainStart t) ++ behindStart (s.expandRun false) t := by
  rw [expand, plainStart, behindStart]
  cases hquote : Run.toQuote? t with
  | none =>
    rw [Run.ofText_of_toQuote?_none hquote]
    by_cases ht : t = []
    · rw [if_pos ht, ht, Option.elim_none, expandPlain_of_spaced hs.tight true Text.spaced_nil,
        replace_nil]
      rfl
    · rw [if_neg ht]
      rfl
  | some k =>
    rw [Run.ofText_of_toQuote?_some (b := k.1) (q := k.2.1) (r := k.2.2) hquote]
    rfl

theorem expand_of_findStart?_none (hs : s.Local) (h : s.findStart? t = none) :
    s.expand t = s.expandBehind t := by
  have hstart : s.findStart? (plainStart t) = none := by
    rw [findStart?_eq_none_iff] at h ⊢
    exact fun hbound => hs.find?_plainStart.2 (h hbound)
  rw [hs.expand_eq_plainStart, expandPlain, hstart, hs.expandBehind_eq]

/-- A shorthand at the start of attribute text is replaced as if it stood behind a blank. -/
theorem expand_of_findStart?_ne_none (hs : s.Local) (h : s.findStart? t ≠ none) :
    s.expand t = s.expandBehind (' ' :: t) := by
  rw [Ne, findStart?_eq_none_iff, Classical.not_imp, ← hs.find?_plainStart] at h
  obtain ⟨hbound, hne⟩ := h
  obtain ⟨f, hf⟩ := Option.ne_none_iff_exists'.1 hne
  have hstop : Stops Character.isWhiteSpace (plainStart t) := by
    intro c hc
    rw [Bool.eq_false_iff]
    intro hspace
    obtain ⟨u, hu⟩ := List.head?_eq_some_iff.1 hc
    rw [hu] at hne
    exact hne (hs.tight c u hspace)
  have hlook : s.look (plainStart t) = some f :=
    (look_of_space (x := []) hbound (by simp) hstop).trans hf
  have happend := hs.expandBehind_append (x := [' ']) (u := t) (Run.joins_of_notMem (by decide))
  rw [List.singleton_append, List.singleton_append,
    replace_cons_of_some (by decide) hlook] at happend
  rw [hs.expand_eq_plainStart, happend, expandPlain, findStart?, if_pos hbound, hf]
  rfl

end Local

/-! ## What is left -/

/-- The places of the shorthand in the plain runs of a text. -/
def remaining (s : Shorthand) : Text → List Found := Run.gather s.look fun _ => []

theorem replace_of_behindSpace (h : Run.behindSpace s.look t = []) : s.replace t = t := by
  induction t with
  | nil => exact s.replace_nil
  | cons c t ih =>
    obtain ⟨hc, ht⟩ := Run.behindSpace_cons_eq_nil_iff.1 h
    rw [replace_cons_of_none hc, ih ht]

namespace Local

theorem expandBehind_of_remaining (hs : s.Local) (h : s.remaining t = []) :
    s.expandBehind t = t := by
  have hrun : ∀ r ∈ Run.ofText t, s.expandRun false r = r.content := by
    intro r hr
    have hnone := List.flatMap_eq_nil_iff.1 h r hr
    cases r with
    | quoted v => rfl
    | plain u => exact (hs.expandPlain_false u).trans (replace_of_behindSpace hnone)
  rw [expandBehind, List.flatMap_congr hrun, Run.flatMap_content_ofText]

theorem lasting_look (hs : s.Local) : Run.Lasting s.look := fun _ _ => hs.look_of_append

variable {α : Type} {look : Text → Option α} {g : Text → List α}

theorem gather_expandBehind_value (hs : s.Local) (hq : Character.isQuote q = true) (r : Text) :
    Run.gather look g (s.expandBehind ('=' :: q :: r)) =
      g (Run.value q r).1 ++ Run.gather look g (s.expandBehind (Run.value q r).2) := by
  rw [hs.expandBehind_value hq, Run.gather_value_append hq]
  intro hend
  rw [hend, expandBehind_nil]

theorem gather_expandBehind_cons (hs : s.Local) (hlook : Run.Lasting look)
    (hc : c = '=' → Stops Character.isQuote t)
    (h : Character.isWhiteSpace c = true → s.look t = none)
    (hseen : Character.isWhiteSpace c = true → look (s.expandBehind t) = none) :
    Run.gather look g (s.expandBehind (c :: t)) = Run.gather look g (s.expandBehind t) := by
  rw [hs.expandBehind_cons hc h]
  exact Run.gather_cons hlook (fun he => hs.stops_expandBehind (hc he) (.inl rfl)) hseen

/-- No shorthand is left, provided that none is left where one was replaced. -/
theorem remaining_expandBehind (hs : s.Local)
    (found : ∀ c t, Character.isWhiteSpace c = true → s.look t ≠ none →
      (∀ u : Text, u.length ≤ t.length → s.remaining (s.expandBehind u) = []) →
      s.remaining (s.expandBehind (c :: t)) = [])
    (t : Text) : s.remaining (s.expandBehind t) = [] := by
  induction t using expandBehind_induction s with
  | nil => rw [expandBehind_nil, remaining, Run.gather_nil]
  | value q r hq ih => rw [remaining, hs.gather_expandBehind_value hq]; exact ih
  | found c t hc hf ih => exact found c t hc hf ih
  | copy c t hc h ih =>
    rw [remaining, hs.gather_expandBehind_cons hs.lasting_look hc h
      fun hspace => hs.look_expandBehind (h hspace)]
    exact ih

/-- If the expansion leaves none of the shorthand, then a second one changes nothing. -/
theorem expand_expand (hs : s.Local) (h : ∀ t, s.remaining (s.expandBehind t) = [])
    (t : Text) : s.expand (s.expand t) = s.expand t := by
  have hsecond : ∀ u, s.findStart? (s.expandBehind u) = none →
      s.expand (s.expandBehind u) = s.expandBehind u := fun u hu => by
    rw [hs.expand_of_findStart?_none hu, hs.expandBehind_of_remaining (h u)]
  by_cases hstart : s.findStart? t = none
  · rw [hs.expand_of_findStart?_none hstart]
    refine hsecond t (findStart?_eq_none_iff.2 fun hbound => ?_)
    exact hs.find?_expandBehind (findStart?_eq_none_iff.1 hstart hbound)
  · rw [hs.expand_of_findStart?_ne_none hstart]
    refine hsecond (' ' :: t) (findStart?_eq_none_iff.2 fun _ => ?_)
    exact hs.find?_expandBehind (hs.tight ' ' t (by decide))

theorem remaining_expand (hs : s.Local) (h : ∀ t, s.remaining (s.expandBehind t) = [])
    (t : Text) : s.remaining (s.expand t) = [] := by
  by_cases hstart : s.findStart? t = none
  · rw [hs.expand_of_findStart?_none hstart, h]
  · rw [hs.expand_of_findStart?_ne_none hstart, h]

end Local

end Shorthand
end TemplateTags
