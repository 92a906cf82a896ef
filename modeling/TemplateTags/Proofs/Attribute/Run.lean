import TemplateTags.Attribute.Run
import TemplateTags.Proofs.Text.Runs

/-!
# Cutting attribute text into runs

A quoted value starts where a quote stands directly behind an equals sign.  A text without
such a place (`Unvalued`) is part of a single plain run, and joins the first plain run of
what follows it; a quoted value ends a run.  So the runs of attribute text can be found from
left to right, attribute by attribute:

* `ofText_append`: a text without quoted values in front of another text;
* `ofText_append_value`: the same with a quoted value behind it;
* `flatMap_content_ofText`: nothing is lost.
-/

namespace TemplateTags
namespace Attribute
namespace Run

open Text (Stops)

/-- No quote stands directly behind an equals sign. -/
def Unvalued (t : Text) : Prop := ∀ x q y, t = x ++ '=' :: q :: y → Character.isQuote q = false

variable {t u b v : Text} {q : Char}

theorem unvalued_nil : Unvalued [] := by
  intro x q y h
  simp at h

theorem Unvalued.of_append_right (h : Unvalued (t ++ u)) : Unvalued u := by
  rintro x q y rfl
  exact h (t ++ x) q y (by simp)

theorem unvalued_cons {c : Char} :
    Unvalued (c :: t) ↔ (c = '=' → Stops Character.isQuote t) ∧ Unvalued t := by
  constructor
  · intro h
    refine ⟨?_, h.of_append_right (t := [c])⟩
    rintro rfl q hq
    obtain ⟨y, rfl⟩ := List.head?_eq_some_iff.1 hq
    exact h [] q y rfl
  · rintro ⟨hc, ht⟩ x q y h
    cases x with
    | nil =>
      obtain ⟨rfl, rfl⟩ := List.cons.inj h
      exact hc rfl q rfl
    | cons d x => exact ht x q y (List.cons.inj h).2

/-- A text without an equals sign has no quoted values. -/
theorem unvalued_of_notMem (h : '=' ∉ t) : Unvalued t := by
  rintro x q y rfl
  exact absurd (List.mem_append_right x (List.mem_cons_self ..)) h

/-- Two texts without quoted values, the second of which starts with no quote. -/
theorem Unvalued.append (ht : Unvalued t) (hu : Unvalued u) (hs : Stops Character.isQuote u) :
    Unvalued (t ++ u) := by
  induction t with
  | nil => exact hu
  | cons c t ih =>
    obtain ⟨hc, ht⟩ := unvalued_cons.1 ht
    refine unvalued_cons.2 ⟨fun he => ?_, ih ht⟩
    cases t with
    | nil => exact hs
    | cons d t => exact hc he

/-! ## Finding the first value -/

theorem toQuote?_append (ht : Unvalued t) (hu : Stops Character.isQuote u) :
    toQuote? (t ++ u) = (toQuote? u).map fun s => (t ++ s.1, s.2) := by
  induction t with
  | nil => simp
  | cons c t ih =>
    obtain ⟨hc, ht⟩ := unvalued_cons.1 ht
    rw [List.cons_append]
    cases htu : t ++ u with
    | nil =>
      obtain ⟨rfl, rfl⟩ := List.append_eq_nil_iff.1 htu
      rfl
    | cons d r =>
      have hd : ¬ ((decide (c = '=') && Character.isQuote d) = true) := by
        rw [Bool.and_eq_true, decide_eq_true_eq]
        rintro ⟨rfl, hq⟩
        have hstop : Stops Character.isQuote (t ++ u) := by
          cases t with
          | nil => exact hu
          | cons e t => exact hc rfl
        rw [htu, Text.stops_cons, hq] at hstop
        exact absurd hstop (by decide)
      rw [toQuote?, if_neg hd, ← htu, ih ht, Option.map_map]
      rfl

/-- A text without an equals sign only stands before the first value. -/
theorem toQuote?_append_of_notMem (ht : '=' ∉ t) (u : Text) :
    toQuote? (t ++ u) = (toQuote? u).map fun s => (t ++ s.1, s.2) := by
  induction t with
  | nil => simp
  | cons c t ih =>
    rw [List.mem_cons, not_or] at ht
    rw [List.cons_append]
    cases htu : t ++ u with
    | nil =>
      obtain ⟨rfl, rfl⟩ := List.append_eq_nil_iff.1 htu
      rfl
    | cons d r =>
      have hc : ¬ ((decide (c = '=') && Character.isQuote d) = true) := by
        rw [Bool.and_eq_true, decide_eq_true_eq]
        exact fun h => ht.1 h.1.symm
      rw [toQuote?, if_neg hc, ← htu, ih ht.2, Option.map_map]
      rfl

theorem toQuote?_of_unvalued (ht : Unvalued t) : toQuote? t = none := by
  have h := toQuote?_append ht (Text.stops_nil (p := Character.isQuote))
  rw [List.append_nil] at h
  rw [h]
  rfl

theorem unvalued_iff : Unvalued t ↔ toQuote? t = none := by
  refine ⟨toQuote?_of_unvalued, fun h => ?_⟩
  fun_induction toQuote? t with
  | case1 => exact unvalued_nil
  | case2 c => exact unvalued_cons.2 ⟨fun _ => Text.stops_nil, unvalued_nil⟩
  | case3 c q t hcq => cases h
  | case4 c q t hcq ih =>
    refine unvalued_cons.2 ⟨fun hc => Text.stops_cons.2 ?_, ih (Option.map_eq_none_iff.1 h)⟩
    simpa [hc] using hcq

instance (t : Text) : Decidable (Unvalued t) := decidable_of_iff _ unvalued_iff.symm

theorem toQuote?_append_value (hb : Unvalued b) (hq : Character.isQuote q = true) (r : Text) :
    toQuote? (b ++ ['='] ++ q :: r) = some (b ++ ['='], q, r) := by
  have hstop : Stops Character.isQuote ('=' :: q :: r) := Text.stops_cons.2 (by decide)
  have hfirst : toQuote? ('=' :: q :: r) = some (['='], q, r) := by
    rw [toQuote?, if_pos (by rw [hq]; rfl)]
  rw [List.append_assoc, List.singleton_append, toQuote?_append hb hstop, hfirst]
  rfl

theorem value_append (hv : q ∉ v) (r : Text) : value q (v ++ q :: r) = (q :: v ++ [q], r) := by
  rw [value, Text.dropWhile_of_notMem hv, Text.takeWhile_of_notMem hv]

/-- The plain text before the first quoted value. -/
def plainStart (t : Text) : Text := (toQuote? t).elim t Prod.fst

/-! ## Runs -/

/-- The runs with plain text put in front of them. -/
def consPlain (t : Text) : List Run → List Run
  | .plain u :: l => .plain (t ++ u) :: l
  | l => if t = [] then l else .plain t :: l

theorem ofText_of_toQuote?_none (h : toQuote? t = none) :
    ofText t = if t = [] then [] else [.plain t] := by
  rw [ofText]
  split
  · rfl
  · next hs =>
    rw [h] at hs
    exact absurd hs (by simp)

theorem ofText_of_toQuote?_some {r : Text} (h : toQuote? t = some (b, q, r)) :
    ofText t = .plain b :: .quoted (value q r).1 :: ofText (value q r).2 := by
  rw [ofText]
  split
  · next hs =>
    rw [h] at hs
    exact absurd hs (by simp)
  · next hs =>
    rw [h, Option.some.injEq, Prod.mk.injEq, Prod.mk.injEq] at hs
    obtain ⟨rfl, rfl, rfl⟩ := hs
    rfl

/-- A text that is not empty starts with a plain run. -/
theorem exists_ofText_cons (c : Char) (t : Text) :
    ∃ b l, ofText (c :: t) = .plain (c :: b) :: l := by
  cases hq : toQuote? (c :: t) with
  | none => exact ⟨t, [], by rw [ofText_of_toQuote?_none hq, if_neg (List.cons_ne_nil c t)]⟩
  | some s =>
    obtain ⟨b, q, r⟩ := s
    rw [ofText_of_toQuote?_some hq]
    cases t with
    | nil => cases hq
    | cons d t =>
      rw [toQuote?] at hq
      split at hq
      · cases hq
        exact ⟨[], _, rfl⟩
      · obtain ⟨⟨k, _, _⟩, -, hk⟩ := Option.map_eq_some_iff.1 hq
        cases hk
        exact ⟨k, _, rfl⟩

/-- A text without quoted values joins the first plain run of what follows. -/
theorem ofText_append (ht : Unvalued t) (hu : Stops Character.isQuote u) :
    ofText (t ++ u) = consPlain t (ofText u) := by
  have happ := toQuote?_append ht hu
  cases hq : toQuote? u with
  | none =>
    rw [hq, Option.map_none] at happ
    rw [ofText_of_toQuote?_none happ, ofText_of_toQuote?_none hq]
    by_cases hu0 : u = []
    · subst hu0
      simp [consPlain]
    · rw [if_neg hu0, if_neg fun h => hu0 (List.append_eq_nil_iff.1 h).2]
      rfl
  | some s =>
    obtain ⟨b, q, r⟩ := s
    rw [hq, Option.map_some] at happ
    rw [ofText_of_toQuote?_some happ, ofText_of_toQuote?_some hq]
    rfl

/-- A quoted value ends a plain run. -/
theorem ofText_append_value (hb : Unvalued b) (hq : Character.isQuote q = true) (hv : q ∉ v)
    (u : Text) :
    ofText (b ++ ['='] ++ (q :: v ++ [q]) ++ u) =
      .plain (b ++ ['=']) :: .quoted (q :: v ++ [q]) :: ofText u := by
  have htext : b ++ ['='] ++ (q :: v ++ [q]) ++ u = b ++ ['='] ++ q :: (v ++ q :: u) := by simp
  rw [htext, ofText_of_toQuote?_some (toQuote?_append_value hb hq _), value_append hv]

/-- The runs make up the text. -/
theorem flatMap_content_ofText (t : Text) : (ofText t).flatMap content = t := by
  fun_induction ofText t with
  | case1 h => simp
  | case2 t h hne => simp [content]
  | case3 t b q r h ih =>
    rw [List.flatMap_cons, List.flatMap_cons, ih, eq_of_toQuote? h]
    show b ++ ((value q r).1 ++ (value q r).2) = b ++ q :: r
    rw [value_eq]

end Run
end Attribute
end TemplateTags
