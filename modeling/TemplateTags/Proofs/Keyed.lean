import Mathlib.Data.List.Induction
import Mathlib.Data.List.Nodup
import TemplateTags.Keyed

/-!
# What a keyed list holds

Putting items one after the other leaves, under each key, the item that was put last.  As
long as no two items share a key, putting an item removes the others under its key
(`mem_put_iff`) and erasing a key removes the items under it (`mem_erase_iff`), and both
keep the keys distinct.

`last? key k l` is the last item of an ordinary list under the key `k`.  The keyed list that
is made from `l` has these items (`mem_ofList_iff`, `get?_ofList`), and it has them in the
order in which their keys came first (`keys_ofList`).
-/

namespace TemplateTags
namespace Keyed

variable {κ α β : Type} (key : α → κ)

/-- An item whose key does not occur again is the only one under it. -/
theorem key_ne_of_mem {l : List α} {b c : α} {k : κ} (hc : key c ∉ l.map key)
    (hk : key c = k) (hb : b ∈ l) : key b ≠ k :=
  fun he => hc (List.mem_map.2 ⟨b, hb, he.trans hk.symm⟩)

variable [DecidableEq κ]

/-- The last item under a key. -/
def last? (k : κ) (l : List α) : Option α := (l.filter fun a => key a = k).getLast?

@[simp] theorem last?_nil (k : κ) : last? key k [] = none := rfl

theorem last?_concat (k : κ) (l : List α) (a : α) :
    last? key k (l ++ [a]) = if key a = k then some a else last? key k l := by
  unfold last?
  by_cases h : key a = k
  · simp [List.filter_append, h]
  · simp [List.filter_append, h]

theorem last?_map (f : β → α) (k : κ) (l : List β) :
    last? key k (l.map f) = (last? (fun b => key (f b)) k l).map f := by
  rw [last?, List.filter_map, List.getLast?_map]
  rfl

theorem mem_of_last? {k : κ} {l : List α} {a : α} (h : last? key k l = some a) : a ∈ l :=
  (List.mem_filter.1 (List.mem_of_getLast? h)).1

theorem last?_append_cons {l r : List α} {a : α} (h : ∀ b ∈ r, key b ≠ key a) :
    last? key (key a) (l ++ a :: r) = some a := by
  have hnone : r.filter (fun b => key b = key a) = [] := by
    simpa [List.filter_eq_nil_iff] using h
  have hcons : (a :: r).filter (fun b => key b = key a) = [a] := by
    rw [List.filter_cons_of_pos (by simp), hnone]
  rw [last?, List.filter_append, hcons, List.getLast?_concat]

theorem key_of_last? {k : κ} {l : List α} {a : α} (h : last? key k l = some a) : key a = k :=
  of_decide_eq_true (List.mem_filter.1 (List.mem_of_getLast? h)).2

/-- Items can be left out as long as none of those under the key is. -/
theorem last?_filter {p : α → Bool} {k : κ} {l : List α}
    (h : ∀ a ∈ l, key a = k → p a = true) : last? key k (l.filter p) = last? key k l := by
  rw [last?, List.filter_filter]
  refine congrArg List.getLast? (List.filter_congr fun a ha => ?_)
  by_cases hk : key a = k
  · rw [decide_eq_true hk, h a ha hk]
    rfl
  · rw [decide_eq_false hk]
    rfl

/-! ## Single steps -/

variable {l : List α} {a b c : α} {k : κ}

theorem mem_keys_put : k ∈ (put key b l).map key ↔ k = key b ∨ k ∈ l.map key := by
  induction l with
  | nil => simp [put]
  | cons c l ih =>
    rw [put]
    split
    · next hc =>
      simp only [List.map_cons, List.mem_cons, hc]
      tauto
    · simp only [List.map_cons, List.mem_cons, ih]
      tauto

theorem put_of_notMem (h : key a ∉ l.map key) : put key a l = l ++ [a] := by
  induction l with
  | nil => rfl
  | cons c l ih =>
    rw [List.map_cons, List.mem_cons, not_or] at h
    rw [put, if_neg (Ne.symm h.1), ih h.2]
    rfl

/-- A key that is there keeps its place. -/
theorem keys_put_of_mem (h : key a ∈ l.map key) : (put key a l).map key = l.map key := by
  induction l with
  | nil => cases h
  | cons c l ih =>
    rw [put]
    split
    · next hc => rw [List.map_cons, List.map_cons, hc]
    · next hc =>
      rw [List.map_cons, List.mem_cons] at h
      rw [List.map_cons, List.map_cons, ih (h.resolve_left (Ne.symm hc))]

theorem get?_of_mem (h : (l.map key).Nodup) (ha : a ∈ l) : get? key (key a) l = some a := by
  induction l with
  | nil => cases ha
  | cons c l ih =>
    obtain ⟨hc, hl⟩ := List.nodup_cons.1 h
    rcases List.mem_cons.1 ha with rfl | ha
    · exact List.find?_cons_of_pos (decide_eq_true rfl)
    · have hne : key c ≠ key a := fun he => key_ne_of_mem key hc he ha rfl
      rw [get?, List.find?_cons_of_neg (by simpa using hne)]
      exact ih hl ha

theorem get?_eq_some_iff (h : (l.map key).Nodup) :
    get? key k l = some a ↔ a ∈ l ∧ key a = k := by
  constructor
  · intro ha
    have hk := List.find?_some ha
    exact ⟨List.mem_of_find?_eq_some ha, of_decide_eq_true hk⟩
  · rintro ⟨ha, rfl⟩
    exact get?_of_mem key h ha

theorem get?_eq_none (h : k ∉ l.map key) : get? key k l = none :=
  List.find?_eq_none.2 fun a ha => by
    simpa using fun he => h (List.mem_map.2 ⟨a, ha, he⟩)

theorem nodup_put (h : (l.map key).Nodup) : ((put key a l).map key).Nodup := by
  induction l with
  | nil => simp [put]
  | cons c l ih =>
    obtain ⟨hc, hl⟩ := List.nodup_cons.1 h
    rw [put]
    split
    · next hk =>
      rw [hk] at hc
      exact List.nodup_cons.2 ⟨hc, hl⟩
    · next hk =>
      refine List.nodup_cons.2 ⟨?_, ih hl⟩
      rw [mem_keys_put]
      exact not_or.2 ⟨hk, hc⟩

theorem mem_put_iff (h : (l.map key).Nodup) :
    b ∈ put key a l ↔ b = a ∨ b ∈ l ∧ key b ≠ key a := by
  induction l with
  | nil => simp [put]
  | cons c l ih =>
    obtain ⟨hc, hl⟩ := List.nodup_cons.1 h
    rw [put]
    split
    · next hk =>
      rw [List.mem_cons, List.mem_cons]
      constructor
      · rintro (rfl | hb)
        · exact Or.inl rfl
        · exact Or.inr ⟨Or.inr hb, key_ne_of_mem key hc hk hb⟩
      · rintro (rfl | ⟨rfl | hb, hne⟩)
        · exact Or.inl rfl
        · exact absurd hk hne
        · exact Or.inr hb
    · next hk =>
      rw [List.mem_cons, List.mem_cons, ih hl]
      constructor
      · rintro (rfl | rfl | ⟨hb, hne⟩)
        · exact Or.inr ⟨Or.inl rfl, hk⟩
        · exact Or.inl rfl
        · exact Or.inr ⟨Or.inr hb, hne⟩
      · rintro (rfl | ⟨rfl | hb, hne⟩)
        · exact Or.inr (Or.inl rfl)
        · exact Or.inl rfl
        · exact Or.inr (Or.inr ⟨hb, hne⟩)

theorem erase_cons :
    erase key k (c :: l) = if key c = k then l else c :: erase key k l := by
  rw [erase, List.eraseP_cons, Bool.cond_decide]
  rfl

theorem nodup_erase (h : (l.map key).Nodup) : ((erase key k l).map key).Nodup :=
  h.sublist (List.eraseP_sublist.map key)

theorem mem_erase_iff (h : (l.map key).Nodup) :
    b ∈ erase key k l ↔ b ∈ l ∧ key b ≠ k := by
  induction l with
  | nil => simp [erase]
  | cons c l ih =>
    obtain ⟨hc, hl⟩ := List.nodup_cons.1 h
    by_cases hk : key c = k
    · rw [erase_cons, if_pos hk, List.mem_cons]
      constructor
      · intro hb
        exact ⟨Or.inr hb, key_ne_of_mem key hc hk hb⟩
      · rintro ⟨rfl | hb, hne⟩
        · exact absurd hk hne
        · exact hb
    · rw [erase_cons, if_neg hk, List.mem_cons, List.mem_cons, ih hl]
      constructor
      · rintro (rfl | ⟨hb, hne⟩)
        · exact ⟨Or.inl rfl, hk⟩
        · exact ⟨Or.inr hb, hne⟩
      · rintro ⟨rfl | hb, hne⟩
        · exact Or.inl rfl
        · exact Or.inr ⟨hb, hne⟩

/-! ## Many steps -/

theorem ofList_concat (l : List α) (a : α) :
    ofList key (l ++ [a]) = put key a (ofList key l) := by
  rw [ofList, List.foldl_append]
  rfl

/-- A list in which no two items share a key is a keyed list. -/
theorem ofList_of_nodup (h : (l.map key).Nodup) : ofList key l = l := by
  induction l using List.reverseRecOn with
  | nil => rfl
  | append_singleton l a ih =>
    rw [List.map_append, List.map_singleton, List.nodup_append_comm, List.singleton_append,
      List.nodup_cons] at h
    rw [ofList_concat, ih h.2, put_of_notMem key h.1]

theorem nodup_ofList (l : List α) : ((ofList key l).map key).Nodup := by
  induction l using List.reverseRecOn with
  | nil => exact List.nodup_nil
  | append_singleton l a ih =>
    rw [ofList_concat]
    exact nodup_put key ih

/-- The items of a keyed list are those that were put last under their keys. -/
theorem mem_ofList_iff : a ∈ ofList key l ↔ last? key (key a) l = some a := by
  induction l using List.reverseRecOn with
  | nil => simp [ofList]
  | append_singleton l b ih =>
    rw [ofList_concat, mem_put_iff key (nodup_ofList key l), ih, last?_concat]
    by_cases h : key b = key a
    · rw [if_pos h, Option.some.injEq, eq_comm]
      exact ⟨fun h' => h'.resolve_right fun hr => hr.2 h.symm, Or.inl⟩
    · rw [if_neg h]
      constructor
      · rintro (rfl | ⟨hl, -⟩)
        · exact absurd rfl h
        · exact hl
      · intro hl
        exact Or.inr ⟨hl, fun he => h he.symm⟩

theorem mem_of_mem_ofList (h : a ∈ ofList key l) : a ∈ l :=
  mem_of_last? key ((mem_ofList_iff key).1 h)

/-- Under each key is the item that was put last. -/
theorem get?_ofList (k : κ) (l : List α) : get? key k (ofList key l) = last? key k l := by
  ext a
  rw [get?_eq_some_iff key (nodup_ofList key l), mem_ofList_iff]
  constructor
  · rintro ⟨ha, rfl⟩
    exact ha
  · intro ha
    obtain rfl := key_of_last? key ha
    exact ⟨ha, rfl⟩

/-- The keys are those of the items that were put, in the order in which they came first. -/
theorem keys_ofList [BEq κ] [LawfulBEq κ] (l : List α) :
    (ofList key l).map key = (l.map key).eraseDups := by
  induction l using List.reverseRecOn with
  | nil => rfl
  | append_singleton l a ih =>
    have hmem : key a ∈ (ofList key l).map key ↔ key a ∈ l.map key := by
      rw [ih, List.mem_eraseDups]
    rw [ofList_concat, List.map_append, List.eraseDups_append, List.map_singleton,
      List.cons_removeAll, ← ih]
    by_cases h : key a ∈ l.map key
    · rw [keys_put_of_mem key (hmem.2 h), List.contains_iff_mem.2 h]
      simp
    · have hnew : (l.map key).contains (key a) = false :=
        Bool.eq_false_iff.2 (mt List.contains_iff_mem.1 h)
      rw [put_of_notMem key (mt hmem.1 h), List.map_append, hnew]
      simp [List.eraseDups_cons]

end Keyed
end TemplateTags
