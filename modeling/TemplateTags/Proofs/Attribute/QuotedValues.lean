import TemplateTags.Proofs.Attribute.Canonical
import TemplateTags.Proofs.Attribute.Stepwise

/-!
# Quoted values under expansion

Expanding a shorthand leaves quoted values alone.  But the expanded text is cut into runs once
more by the next expansion, and what is written for a shorthand may hold equals signs and
quotes.  So it is a matter of proof that no replacement opens a quoted value, closes one or
moves its ends, in well-formed attribute text and in any other.

The main statement, `quotedValues_expand`, says this of short bindings and of bindings with a
colon.  A short binding is replaced by a binding with one quoted value of its own, and a binding
with a colon keeps its equals sign, whatever stands behind it.  Nothing of the kind holds of an
echo of the attribute bag, since its expression is put between quotes as it is.

Both shorthands are recognised by what stands before the next white space or equals sign
(`shortBinding_local`, `colonBinding_local`), so the expansions can be followed character by
character.  What was written for one of them is not recognised again
(`findShortBinding?_binding`, `look_bindMark`), and so nothing is left to be expanded
(`shortBinding_remaining`, `colonBinding_remaining`).
-/

namespace TemplateTags

open Text (Stops)

/-! ## Characters -/

namespace Character

variable {c : Char}

theorem isInner_of_isWordUnicode (h : isWordUnicode c = true) : isInner c = true := by
  refine isInner_iff.2 ⟨not_isWhiteSpace_of_isWordUnicode h, ?_⟩
  rintro rfl
  exact absurd h (by decide)

theorem isInner_of_isAttributeNameUnicode (h : isAttributeNameUnicode c = true) :
    isInner c = true := by
  simp only [isAttributeNameUnicode, Bool.or_eq_true, decide_eq_true_eq, or_assoc] at h
  rcases h with h | rfl | rfl | rfl | rfl
  · exact isInner_of_isWordUnicode h
  all_goals decide

end Character

namespace Attribute

open Attribute.Run (Joins plainStart behindStart gather)

variable {c : Char} {n r t u w : Text}

/-! ## Short bindings -/

theorem exists_of_findShortBinding?_ne_none (h : findShortBinding? t ≠ none) :
    ∃ n r, n ≠ [] ∧ (∀ c ∈ n, Character.isWordUnicode c = true) ∧
      Stops Character.isWordUnicode r ∧ t = ':' :: '$' :: (n ++ r) := by
  rw [Ne, findShortBinding?_eq_none_iff] at h
  push Not at h
  obtain ⟨d, y, rfl, hd⟩ := h
  refine ⟨(d :: y).takeWhile Character.isWordUnicode, (d :: y).dropWhile Character.isWordUnicode,
    ?_, fun c hc => List.mem_takeWhile_imp hc, Text.stops_dropWhile _ _, ?_⟩
  · simp [hd]
  · rw [List.takeWhile_append_dropWhile]

theorem shortBinding_local : shortBinding.Local where
  solid {t f} hf c hc := by
    obtain ⟨n, r, -, hn, rfl⟩ := exists_of_findShortBinding? hf
    rcases List.mem_append.1 hc with hc | hc
    · exact (by decide : ∀ d ∈ [':', '$'], Character.isWhiteSpace d = false) c hc
    · exact Character.not_isWhiteSpace_of_isWordUnicode (hn c hc)
  find?_of_append {t u} h := by
    refine findShortBinding?_eq_none_iff.2 fun d y hy => ?_
    exact findShortBinding?_eq_none_iff.1 h d (y ++ u) (by rw [hy]; rfl)
  find?_congr {x t u} hx _ hu _ h := by
    refine findShortBinding?_eq_none_iff.2 fun d y hy => ?_
    rw [Bool.eq_false_iff]
    intro hd
    -- the colon, the dollar sign and the word character all stand in `x`
    have hinner : ∀ c ∈ [':', '$', d], Character.isInner c = true := by
      intro c hc
      simp only [List.mem_cons, List.not_mem_nil, or_false] at hc
      rcases hc with rfl | rfl | rfl
      · decide
      · decide
      · exact Character.isInner_of_isWordUnicode hd
    obtain ⟨z, rfl⟩ := Text.exists_append_of_stops (b := [':', '$', d]) hy hx hu hinner
    rw [findShortBinding?_eq_none_iff.1 h d (z ++ t) (by simp)] at hd
    cases hd

/-- A short binding behind white space stands in a plain run. -/
theorem joins_shortBinding (hc : Character.isWhiteSpace c = true)
    (hn : ∀ d ∈ n, Character.isWordUnicode d = true) : Joins (c :: ':' :: '$' :: n) r := by
  refine Run.joins_of_notMem ?_
  have hspace : '=' ≠ c := by
    rintro rfl
    exact absurd hc (by decide)
  have hname : '=' ∉ n := Text.notMem_of_forall hn (by decide)
  simp [hspace, hname]

/-- A short binding behind white space is replaced. -/
theorem expandBehind_shortBinding (hc : Character.isWhiteSpace c = true) (hne : n ≠ [])
    (hn : ∀ d ∈ n, Character.isWordUnicode d = true) (hr : Stops Character.isWordUnicode r) :
    shortBinding.expandBehind (c :: ':' :: '$' :: (n ++ r)) =
      ' ' :: (binding n ('$' :: n) ++ shortBinding.expandBehind r) := by
  have hlook : shortBinding.look (':' :: '$' :: (n ++ plainStart r)) = _ :=
    findShortBinding?_append hne hn (Run.stops_plainStart hr)
  calc shortBinding.expandBehind (c :: ':' :: '$' :: (n ++ r))
      = shortBinding.replace (c :: ':' :: '$' :: (n ++ plainStart r)) ++
          behindStart (shortBinding.expandRun false) r :=
        shortBinding_local.expandBehind_append (joins_shortBinding hc hn)
    _ = ' ' :: (binding n ('$' :: n) ++ shortBinding.expandBehind r) := by
        rw [Shorthand.replace_cons_of_some hc hlook, shortBinding_local.expandBehind_eq r]
        simp

/-! ## Bindings with a colon -/

/-- The text can stand between the colon of a binding and its equals sign. -/
structure IsBindable (n : Text) : Prop where
  ne_nil : n ≠ []
  head?_ne : n.head? ≠ some ':'
  chars : ∀ c ∈ n, Character.isAttributeNameUnicode c = true

theorem IsBindable.isInner (hn : IsBindable n) : ∀ c ∈ ':' :: n, Character.isInner c = true := by
  intro c hc
  rcases List.mem_cons.1 hc with rfl | hc
  · decide
  · exact Character.isInner_of_isAttributeNameUnicode (hn.chars c hc)

theorem findColonBinding?_of_isBindable (hn : IsBindable n) (r : Text) :
    findColonBinding? (':' :: (n ++ '=' :: r)) =
      some ⟨':' :: n ++ ['='], bindMark ++ n ++ ['='], r⟩ := by
  rw [findColonBinding?_cons hn.chars (Text.stops_cons.2 (by decide)),
    if_neg (by simp [hn.ne_nil, hn.head?_ne])]
  rfl

theorem exists_of_findColonBinding?_ne_none (h : findColonBinding? t ≠ none) :
    ∃ n r, IsBindable n ∧ t = ':' :: (n ++ '=' :: r) := by
  obtain ⟨f, hf⟩ := Option.ne_none_iff_exists'.1 h
  obtain ⟨n, r, hname, hchars, rfl⟩ := exists_of_findColonBinding? hf
  rw [not_or] at hname
  refine ⟨n, r, ⟨hname.1, hname.2, hchars⟩, ?_⟩
  rw [(eq_of_findColonBinding? hf).1]
  simp

theorem colonBinding_local : colonBinding.Local where
  solid {t f} hf c hc := by
    obtain ⟨n, r, -, hn, rfl⟩ := exists_of_findColonBinding? hf
    simp only [List.cons_append, List.mem_cons, List.mem_append, List.not_mem_nil, or_false] at hc
    rcases hc with rfl | hc | rfl
    · decide
    · exact (Character.isInner_iff.1
        (Character.isInner_of_isAttributeNameUnicode (hn c hc))).1
    · decide
  find?_of_append {t u} h := by
    by_contra hne
    obtain ⟨n, r, hn, rfl⟩ := exists_of_findColonBinding?_ne_none hne
    have hlonger : ':' :: (n ++ '=' :: r) ++ u = ':' :: (n ++ '=' :: (r ++ u)) := by simp
    rw [hlonger] at h
    exact absurd (h.symm.trans (findColonBinding?_of_isBindable hn (r ++ u))) (by simp)
  find?_congr {x t u} hx ht hu hhead h := by
    by_contra hne
    obtain ⟨n, r, hn, hr⟩ := exists_of_findColonBinding?_ne_none hne
    obtain ⟨rfl, rfl⟩ := Text.eq_of_stops (b := ':' :: n) hr hx hu hn.isInner
      (Text.stops_cons.2 (by decide))
    obtain ⟨r', rfl⟩ := List.head?_eq_some_iff.1 (hhead rfl)
    exact absurd (h.symm.trans (findColonBinding?_of_isBindable hn r')) (by simp)

theorem exists_of_look_colonBinding (h : colonBinding.look t ≠ none) :
    ∃ w n r, (∀ c ∈ w, Character.isWhiteSpace c = true) ∧ IsBindable n ∧
      t = w ++ ':' :: (n ++ '=' :: r) := by
  obtain ⟨n, r, hn, hr⟩ := exists_of_findColonBinding?_ne_none h
  refine ⟨t.takeWhile Character.isWhiteSpace, n, r, fun c hc => List.mem_takeWhile_imp hc, hn, ?_⟩
  rw [← hr]
  exact List.takeWhile_append_dropWhile.symm

theorem notMem_colonBinding (hc : Character.isWhiteSpace c = true)
    (hw : ∀ d ∈ w, Character.isWhiteSpace d = true) (hn : IsBindable n) :
    '=' ∉ c :: (w ++ ':' :: n) := by
  have hspace : '=' ∉ c :: w := Text.notMem_of_forall (p := Character.isWhiteSpace)
    (List.forall_mem_cons.2 ⟨hc, hw⟩) (by decide)
  have hname : '=' ∉ ':' :: n := Text.notMem_of_forall hn.isInner (by decide)
  rw [← List.cons_append, List.mem_append, not_or]
  exact ⟨hspace, hname⟩

/-- A binding behind white space is replaced.  The equals sign stays: a quoted value may start
behind it. -/
theorem expandBehind_colonBinding (hc : Character.isWhiteSpace c = true)
    (hw : ∀ d ∈ w, Character.isWhiteSpace d = true) (hn : IsBindable n) (r : Text) :
    colonBinding.expandBehind (c :: (w ++ ':' :: (n ++ '=' :: r))) =
      ' ' :: (bindMark ++ n ++ colonBinding.expandBehind ('=' :: r)) := by
  obtain ⟨k, hk⟩ := Run.exists_plainStart_cons '=' r
  have hlook : colonBinding.look (w ++ ':' :: (n ++ '=' :: k)) =
      some ⟨':' :: n ++ ['='], bindMark ++ n ++ ['='], k⟩ :=
    (Shorthand.look_of_space rfl hw (Text.stops_cons.2 (by decide))).trans
      (findColonBinding?_of_isBindable hn k)
  have hequals : colonBinding.replace ('=' :: k) = '=' :: colonBinding.replace k :=
    Shorthand.replace_cons_of_none fun h => absurd h (by decide)
  have hassoc : ∀ y, c :: (w ++ ':' :: (n ++ y)) = c :: (w ++ ':' :: n) ++ y := by simp
  rw [hassoc, colonBinding_local.expandBehind_append
      (Run.joins_of_notMem (notMem_colonBinding hc hw hn)), hk, ← hassoc,
    Shorthand.replace_cons_of_some hc hlook, colonBinding_local.expandBehind_eq ('=' :: r), hk,
    hequals]
  simp

/-! ## What is left -/

variable {α : Type} {look : Text → Option α} {g : Text → List α}

/-- The binding that is written for a short one has one quoted value. -/
theorem gather_binding (hlook : Run.Lasting look)
    (hn : ∀ d ∈ n, Character.isWordUnicode d = true)
    (hnone : look (binding n ('$' :: n) ++ u) = none) :
    gather look g (' ' :: (binding n ('$' :: n) ++ u)) =
      g ('"' :: '$' :: n ++ ['"']) ++ gather look g u := by
  have htext : binding n ('$' :: n) ++ u =
      ':' :: n ++ '=' :: '"' :: ('$' :: n ++ '"' :: u) := by simp [binding]
  have hinner : ∀ d ∈ ':' :: n, Character.isInner d = true :=
    List.forall_mem_cons.2 ⟨by decide, fun d hd => Character.isInner_of_isWordUnicode (hn d hd)⟩
  have hquote : '"' ∉ '$' :: n := by
    simp [Text.notMem_of_forall hn (by decide : Character.isWordUnicode '"' = false)]
  rw [Run.gather_cons hlook (fun h => absurd h (by decide)) fun _ => hnone, htext,
    Run.gather_inner hinner, Run.gather_value rfl, Run.value_append hquote]

theorem findShortBinding?_binding (hne : n ≠ [])
    (hn : ∀ d ∈ n, Character.isWordUnicode d = true) (e u : Text) :
    findShortBinding? (binding n e ++ u) = none := by
  refine findShortBinding?_eq_none_iff.2 fun d y hy => ?_
  obtain ⟨k, m, rfl⟩ := List.exists_cons_of_ne_nil hne
  have hfirst : k = '$' := by
    simp only [binding, List.cons_append, List.cons.injEq] at hy
    exact hy.2.1
  rw [hfirst] at hn
  exact absurd (hn '$' (List.mem_cons_self ..)) (by decide)

theorem shortBinding_remaining (t : Text) :
    shortBinding.remaining (shortBinding.expandBehind t) = [] := by
  refine shortBinding_local.remaining_expandBehind (fun c t hc hfound ih => ?_) t
  obtain ⟨n, r, hne, hn, hr, rfl⟩ := exists_of_findShortBinding?_ne_none hfound
  rw [expandBehind_shortBinding hc hne hn hr, Shorthand.remaining,
    gather_binding shortBinding_local.lasting_look hn (findShortBinding?_binding hne hn _ _)]
  exact ih r (by simp; omega)

/-- The name that is written for a binding is passed over. -/
theorem gather_bindMark (hlook : Run.Lasting look) (hn : IsBindable n)
    (hnone : look (bindMark ++ n ++ u) = none) :
    gather look g (' ' :: (bindMark ++ n ++ u)) = gather look g u := by
  have hinner : ∀ d ∈ bindMark ++ n, Character.isInner d = true := fun d hd =>
    (List.mem_append.1 hd).elim ((by decide : ∀ d ∈ bindMark, Character.isInner d = true) d)
      fun hd => hn.isInner d (List.mem_cons_of_mem _ hd)
  rw [Run.gather_cons hlook (fun h => absurd h (by decide)) fun _ => hnone,
    Run.gather_inner hinner]

theorem look_bindMark (u : Text) : colonBinding.look (bindMark ++ u) = none := by
  have hmark : bindMark ++ u = [] ++ 'b' :: (['i', 'n', 'd', ':'] ++ u) := rfl
  rw [hmark, Shorthand.look_of_space rfl (by simp) (Text.stops_cons.2 (by decide))]
  exact findColonBinding?_of_head? (by simp)

theorem colonBinding_remaining (t : Text) :
    colonBinding.remaining (colonBinding.expandBehind t) = [] := by
  refine colonBinding_local.remaining_expandBehind (fun c t hc hfound ih => ?_) t
  obtain ⟨w, n, r, hw, hn, rfl⟩ := exists_of_look_colonBinding hfound
  rw [expandBehind_colonBinding hc hw hn, Shorthand.remaining,
    gather_bindMark colonBinding_local.lasting_look hn (by
      rw [List.append_assoc]
      exact look_bindMark _)]
  exact ih ('=' :: r) (by simp; omega)

/-! ## Quoted values -/

/-- The quoted values of attribute text, in order. -/
def quotedValues (t : Text) : List Text :=
  (Run.ofText t).flatMap fun
    | .plain _ => []
    | .quoted v => [v]

theorem quotedValues_eq (t : Text) :
    quotedValues t = gather (fun _ => none) (fun v => [v]) t := by
  have hplain : ∀ u, Run.behindSpace (fun _ => (none : Option Text)) u = [] := by
    intro u
    induction u with
    | nil => rfl
    | cons c u ih => rw [Run.behindSpace_cons_of_none fun _ => rfl, ih]
  refine List.flatMap_congr fun k _ => ?_
  cases k with
  | plain u => exact (hplain u).symm
  | quoted v => rfl

/-- The value of the short binding at the start of a text. -/
def shortValue? : Text → Option Text
  | ':' :: '$' :: d :: r =>
    if Character.isWordUnicode d then
      some ('"' :: '$' :: (d :: r).takeWhile Character.isWordUnicode ++ ['"'])
    else none
  | _ => none

theorem shortValue?_eq_none_iff : shortValue? t = none ↔ findShortBinding? t = none := by
  rw [findShortBinding?_eq_none_iff]
  constructor
  · rintro h d y rfl
    simpa [shortValue?] using h
  · intro h
    unfold shortValue?
    split
    · next d r => rw [h d r rfl, if_neg Bool.false_ne_true]
    · rfl

theorem lasting_shortValue? : Run.Lasting shortValue? := fun _ _ h =>
  shortValue?_eq_none_iff.2 (shortBinding_local.find?_of_append (shortValue?_eq_none_iff.1 h))

theorem gather_shortBinding {g : Text → List Text} (hc : Character.isWhiteSpace c = true)
    (hne : n ≠ []) (hn : ∀ d ∈ n, Character.isWordUnicode d = true)
    (hr : Stops Character.isWordUnicode r) :
    gather shortValue? g (c :: ':' :: '$' :: (n ++ r)) =
      ('"' :: '$' :: n ++ ['"']) :: gather shortValue? g r := by
  have hvalue : shortValue? (':' :: '$' :: (n ++ plainStart r)) =
      some ('"' :: '$' :: n ++ ['"']) := by
    obtain ⟨d, m, rfl⟩ := List.exists_cons_of_ne_nil hne
    rw [List.cons_append, shortValue?, if_pos (hn d (List.mem_cons_self ..)), ← List.cons_append,
      Text.takeWhile_of_stops hn (Run.stops_plainStart hr)]
  have hinner : ∀ d ∈ ':' :: '$' :: n, Character.isInner d = true :=
    List.forall_mem_cons.2 ⟨by decide, List.forall_mem_cons.2
      ⟨by decide, fun d hd => Character.isInner_of_isWordUnicode (hn d hd)⟩⟩
  have hspace : Run.behindSpace shortValue? (c :: ':' :: '$' :: (n ++ plainStart r)) =
      ('"' :: '$' :: n ++ ['"']) :: Run.behindSpace shortValue? (plainStart r) := by
    rw [Run.behindSpace, if_pos hc, hvalue]
    exact congrArg _ (Run.behindSpace_inner hinner _)
  have happend : gather shortValue? g (c :: ':' :: '$' :: (n ++ r)) =
      Run.behindSpace shortValue? (c :: ':' :: '$' :: (n ++ plainStart r)) ++ _ :=
    Run.gather_append (joins_shortBinding hc hn)
  rw [happend, hspace, Run.gather_eq r]
  rfl

theorem quotedValues_shortBinding (t : Text) :
    quotedValues (shortBinding.expandBehind t) = gather shortValue? (fun v => [v]) t := by
  rw [quotedValues_eq]
  induction t using Shorthand.expandBehind_induction shortBinding with
  | nil => rw [Shorthand.expandBehind_nil, Run.gather_nil, Run.gather_nil]
  | value q r hq ih =>
    rw [shortBinding_local.gather_expandBehind_value hq, ih, Run.gather_value hq]
  | found c t hc hfound ih =>
    obtain ⟨n, r, hne, hn, hr, rfl⟩ := exists_of_findShortBinding?_ne_none hfound
    rw [expandBehind_shortBinding hc hne hn hr, gather_binding (fun _ _ => id) hn rfl,
      ih r (by simp; omega), gather_shortBinding hc hne hn hr]
    rfl
  | copy c t hc h ih =>
    rw [shortBinding_local.gather_expandBehind_cons (fun _ _ => id) hc h fun _ => rfl, ih,
      Run.gather_cons lasting_shortValue? hc fun hspace => shortValue?_eq_none_iff.2 (h hspace)]

theorem gather_of_notMem (hw : '=' ∉ w) (t : Text) :
    gather (fun _ => none) g (w ++ t) = gather (fun _ => none) g t := by
  induction w with
  | nil => rfl
  | cons c w ih =>
    rw [List.mem_cons, not_or] at hw
    rw [List.cons_append, Run.gather_cons (fun _ _ => id) (fun hc => absurd hc.symm hw.1)
      fun _ => rfl, ih hw.2]

theorem quotedValues_colonBinding (t : Text) :
    quotedValues (colonBinding.expandBehind t) = quotedValues t := by
  rw [quotedValues_eq, quotedValues_eq]
  induction t using Shorthand.expandBehind_induction colonBinding with
  | nil => rw [Shorthand.expandBehind_nil]
  | value q r hq ih =>
    rw [colonBinding_local.gather_expandBehind_value hq, ih, Run.gather_value hq]
  | found c t hc hfound ih =>
    obtain ⟨w, n, r, hw, hn, rfl⟩ := exists_of_look_colonBinding hfound
    have hassoc : c :: (w ++ ':' :: (n ++ '=' :: r)) = c :: (w ++ ':' :: n) ++ '=' :: r := by simp
    rw [expandBehind_colonBinding hc hw hn, hassoc,
      gather_of_notMem (notMem_colonBinding hc hw hn), gather_bindMark (fun _ _ => id) hn rfl,
      ih _ (by simp; omega)]
  | copy c t hc h ih =>
    rw [colonBinding_local.gather_expandBehind_cons (fun _ _ => id) hc h fun _ => rfl, ih,
      Run.gather_cons (fun _ _ => id) hc fun _ => rfl]

/-! ## Both expansions -/

/-- A binding stands in the text behind white space. -/
def HasBinding (t : Text) : Prop :=
  ∃ x c w n r, Character.isWhiteSpace c = true ∧ (∀ d ∈ w, Character.isWhiteSpace d = true) ∧
    IsBindable n ∧ t = x ++ c :: (w ++ ':' :: (n ++ '=' :: r))

theorem not_hasBinding (h : Run.behindSpace colonBinding.look t = []) : ¬ HasBinding t := by
  rintro ⟨x, c, w, n, r, hc, hw, hn, rfl⟩
  have hlook := (Run.behindSpace_cons_eq_nil_iff.1 (Run.behindSpace_of_append h)).1 hc
  rw [Shorthand.look_of_space rfl hw (Text.stops_cons.2 (by decide))] at hlook
  exact absurd (hlook.symm.trans (findColonBinding?_of_isBindable hn r)) (by simp)

theorem behindSpace_shortValue? (h : Run.behindSpace shortBinding.look t = []) :
    Run.behindSpace shortValue? t = [] := by
  induction t with
  | nil => rfl
  | cons c t ih =>
    obtain ⟨hc, ht⟩ := Run.behindSpace_cons_eq_nil_iff.1 h
    exact Run.behindSpace_cons_eq_nil_iff.2
      ⟨fun hspace => shortValue?_eq_none_iff.2 (hc hspace), ih ht⟩

/-- Expanding short bindings and bindings with a colon is idempotent, since neither leaves
anything to expand in a plain run.  The quoted values stay as they are and in their order; the
first of the two puts one in for each short binding. -/
theorem quotedValues_expand (t : Text) :
    (shortBinding.expand (shortBinding.expand t) = shortBinding.expand t ∧
      (∀ u, .plain u ∈ Run.ofText (shortBinding.expand t) →
        Run.behindSpace shortValue? u = []) ∧
      quotedValues (shortBinding.expand t) = (Run.ofText t).flatMap fun
        | .plain u => Run.behindSpace shortValue? u
        | .quoted v => [v]) ∧
    colonBinding.expand (colonBinding.expand t) = colonBinding.expand t ∧
      (∀ u, .plain u ∈ Run.ofText (colonBinding.expand t) → ¬ HasBinding u) ∧
      quotedValues (colonBinding.expand t) = quotedValues t := by
  refine ⟨⟨?_, fun u hu => ?_, ?_⟩, ?_, fun u hu => ?_, ?_⟩
  · exact shortBinding_local.expand_expand shortBinding_remaining t
  · have hnone := shortBinding_local.remaining_expand shortBinding_remaining t
    exact behindSpace_shortValue? (List.flatMap_eq_nil_iff.1 hnone _ hu)
  · rw [shortBinding_local.expand_of_findStart?_none rfl]
    exact quotedValues_shortBinding t
  · exact colonBinding_local.expand_expand colonBinding_remaining t
  · have hnone := colonBinding_local.remaining_expand colonBinding_remaining t
    exact not_hasBinding (List.flatMap_eq_nil_iff.1 hnone _ hu)
  · by_cases hstart : colonBinding.findStart? t = none
    · rw [colonBinding_local.expand_of_findStart?_none hstart, quotedValues_colonBinding]
    · rw [colonBinding_local.expand_of_findStart?_ne_none hstart, quotedValues_colonBinding,
        quotedValues_eq, quotedValues_eq]
      exact gather_of_notMem (w := [' ']) (by decide) t

end Attribute
end TemplateTags
