import Mathlib.Order.Lattice.Nat
import TemplateTags.Proofs.Keyed

/-!
# Keyed lists and what was done to them

A keyed list is the result of a history of changes, each of which inserts an item or removes
what is under a key.  Its items can be read off the last change for each key, but their order
cannot: an item that is inserted again stays where the old one was, and one that is inserted
after its key was removed goes to the end.

So the place of a key goes back to one change, its birth: the earliest insertion under the key
that no removal of the key follows.  A change for another key leaves all births as they are,
and so does an insertion under a key that is there; any other insertion is itself a birth, and
later than all others.  That the keys stand in the order of their births is therefore kept by
every change (`pairwise_run`).

* `Reflects h l` says what the list `l` has to do with the history `h`; `reflects_run` proves
  it of every history.
* `result_eq_some_iff`, `result_eq_none_iff`: what a change gives back is what it takes out.
* `run_map`: a keyed list under a map that keeps the keys, such as the one that writes the key
  beside each item.
-/

namespace TemplateTags
namespace Keyed

variable {κ α β : Type}

/-- A change to a keyed list. -/
inductive Edit (κ α : Type) where
  | insert (a : α)
  | remove (k : κ)
deriving DecidableEq, Repr

namespace Edit

/-- The item that the change inserts. -/
def item? : Edit κ α → Option α
  | .insert a => some a
  | .remove _ => none

/-- The change with its item replaced. -/
def map (f : α → β) : Edit κ α → Edit κ β
  | .insert a => .insert (f a)
  | .remove k => .remove k

variable (key : α → κ)

/-- The key that the change is for. -/
def about : Edit κ α → κ
  | .insert a => key a
  | .remove k => k

variable [DecidableEq κ]

/-- The list after the change. -/
def apply (l : List α) : Edit κ α → List α
  | .insert a => put key a l
  | .remove k => Keyed.erase key k l

/-- What the change gives back: the item that was under its key. -/
def result (l : List α) (e : Edit κ α) : Option α := get? key (e.about key) l

end Edit

/-! ## Births -/

variable (key : α → κ)

/-- The change at place `i` inserts an item under the key, and no later one removes it. -/
def Lasts (h : List (Edit κ α)) (k : κ) (i : Nat) : Prop :=
  ∃ x a y, h = x ++ .insert a :: y ∧ x.length = i ∧ key a = k ∧ .remove k ∉ y

/-- The earliest insertion under the key that follows its last removal is at place `i`. -/
def Birth (h : List (Edit κ α)) (k : κ) (i : Nat) : Prop := IsLeast {i | Lasts key h k i} i

variable {h : List (Edit κ α)} {e : Edit κ α} {l x y : List α} {a b : α} {k : κ} {i : Nat}

/-- A later change is no removal of the key, or it is itself the insertion. -/
theorem lasts_concat_iff :
    Lasts key (h ++ [e]) k i ↔
      Lasts key h k i ∧ e ≠ .remove k ∨ i = h.length ∧ ∃ a, e = .insert a ∧ key a = k := by
  constructor
  · rintro ⟨x, a, y, hh, rfl, ha, hy⟩
    rcases y.eq_nil_or_concat' with rfl | ⟨y, e', rfl⟩
    · obtain ⟨rfl, he⟩ := List.append_inj' hh rfl
      exact Or.inr ⟨rfl, a, List.singleton_inj.1 he, ha⟩
    · rw [← List.cons_append, ← List.append_assoc] at hh
      obtain ⟨rfl, he⟩ := List.append_inj' hh rfl
      obtain rfl := List.singleton_inj.1 he
      rw [List.mem_append, not_or, List.mem_singleton] at hy
      exact Or.inl ⟨⟨x, a, y, rfl, rfl, ha, hy.1⟩, Ne.symm hy.2⟩
  · rintro (⟨⟨x, a, y, rfl, rfl, ha, hy⟩, he⟩ | ⟨rfl, a, rfl, ha⟩)
    · refine ⟨x, a, y ++ [e], by simp, rfl, ha, ?_⟩
      rw [List.mem_append, not_or, List.mem_singleton]
      exact ⟨hy, Ne.symm he⟩
    · exact ⟨h, a, [], rfl, rfl, ha, List.not_mem_nil⟩

theorem Lasts.lt_length (hi : Lasts key h k i) : i < h.length := by
  obtain ⟨x, a, y, rfl, rfl, -, -⟩ := hi
  rw [List.length_append, List.length_cons]
  omega

/-! ## Histories -/

variable [DecidableEq κ]

/-- The keyed list that results from a history of changes. -/
def run (h : List (Edit κ α)) : List α := h.foldl (Edit.apply key) []

/-- What a keyed list has to do with a history: its keys are distinct, and they are those for
which the last change is an insertion; under each is the item of that insertion; and the keys
stand in the order of their births. -/
structure Reflects (h : List (Edit κ α)) (l : List α) : Prop where
  nodup : (l.map key).Nodup
  mem_iff : ∀ k, k ∈ l.map key ↔ ∃ a, last? (Edit.about key) k h = some (.insert a)
  get?_iff : ∀ k a, get? key k l = some a ↔ last? (Edit.about key) k h = some (.insert a)
  exists_birth : ∀ k ∈ l.map key, ∃ i, Birth key h k i
  pairwise : (l.map key).Pairwise fun k k' =>
    ∀ i i', Birth key h k i → Birth key h k' i' → i < i'

/-! ## What is under a key -/

theorem run_concat (h : List (Edit κ α)) (e : Edit κ α) :
    run key (h ++ [e]) = e.apply key (run key h) := by
  rw [run, List.foldl_append]
  rfl

theorem nodup_apply (hl : (l.map key).Nodup) (e : Edit κ α) : ((e.apply key l).map key).Nodup := by
  cases e with
  | insert a => exact nodup_put key hl
  | remove k => exact nodup_erase key hl

theorem nodup_run (h : List (Edit κ α)) : ((run key h).map key).Nodup := by
  induction h using List.reverseRecOn with
  | nil => exact List.nodup_nil
  | append_singleton h e ih =>
    rw [run_concat]
    exact nodup_apply key ih e

/-- The items are those of the insertions that come last for their keys. -/
theorem mem_run_iff :
    a ∈ run key h ↔ last? (Edit.about key) (key a) h = some (.insert a) := by
  induction h using List.reverseRecOn with
  | nil => simp [run]
  | append_singleton h e ih =>
    rw [run_concat, last?_concat]
    cases e with
    | insert b =>
      rw [Edit.apply, mem_put_iff key (nodup_run key h), ih]
      by_cases hk : key b = key a
      · simp [Edit.about, hk, eq_comm]
      · have hne : a ≠ b := fun he => hk (by rw [he])
        simp [Edit.about, hk, hne, Ne.symm hk]
    | remove k =>
      rw [Edit.apply, mem_erase_iff key (nodup_run key h), ih]
      by_cases hk : k = key a
      · simp [Edit.about, hk]
      · simp [Edit.about, hk, Ne.symm hk]

theorem get?_run_iff :
    get? key k (run key h) = some a ↔ last? (Edit.about key) k h = some (.insert a) := by
  rw [get?_eq_some_iff key (nodup_run key h), mem_run_iff]
  constructor
  · rintro ⟨ha, rfl⟩
    exact ha
  · intro ha
    have hk : key a = k := key_of_last? (Edit.about key) ha
    exact ⟨by rwa [hk], hk⟩

theorem mem_keys_run_iff :
    k ∈ (run key h).map key ↔ ∃ a, last? (Edit.about key) k h = some (.insert a) := by
  rw [List.mem_map]
  exact exists_congr fun a => by
    rw [← get?_run_iff, get?_eq_some_iff key (nodup_run key h)]

/-! ## The order of the keys -/

theorem mem_keys_run_iff_lasts : k ∈ (run key h).map key ↔ ∃ i, Lasts key h k i := by
  induction h using List.reverseRecOn with
  | nil => simp [run, Lasts]
  | append_singleton h e ih =>
    simp only [lasts_concat_iff, exists_or, exists_and_right, ← ih, exists_eq, true_and]
    rw [run_concat]
    cases e with
    | insert a =>
      rw [Edit.apply, mem_keys_put]
      simp [or_comm, eq_comm]
    | remove k' =>
      have herase : k ∈ (Keyed.erase key k' (run key h)).map key ↔
          k ∈ (run key h).map key ∧ k' ≠ k := by
        simp only [List.mem_map, mem_erase_iff key (nodup_run key h)]
        constructor
        · rintro ⟨a, ⟨ha, hk⟩, rfl⟩
          exact ⟨⟨a, ha, rfl⟩, Ne.symm hk⟩
        · rintro ⟨⟨a, ha, rfl⟩, hk⟩
          exact ⟨a, ⟨ha, Ne.symm hk⟩, rfl⟩
      rw [Edit.apply, herase]
      simp

theorem exists_birth (hk : k ∈ (run key h).map key) : ∃ i, Birth key h k i := by
  have hne : {i | Lasts key h k i}.Nonempty := (mem_keys_run_iff_lasts key).1 hk
  exact ⟨_, Nat.sInf_mem hne, fun _ hj => Nat.sInf_le hj⟩

/-- A change that does not remove a key leaves its birth as it is. -/
theorem Birth.of_concat (hk : k ∈ (run key h).map key) (he : e ≠ .remove k)
    (hi : Birth key (h ++ [e]) k i) : Birth key h k i := by
  have hlater : ∀ {j}, Lasts key h k j → i ≤ j := fun hj =>
    hi.2 ((lasts_concat_iff key).2 (Or.inl ⟨hj, he⟩))
  refine ⟨?_, fun _ hj => hlater hj⟩
  rcases (lasts_concat_iff key).1 hi.1 with ⟨hold, -⟩ | ⟨rfl, -⟩
  · exact hold
  · obtain ⟨j, hj⟩ := (mem_keys_run_iff_lasts key).1 hk
    exact absurd hj.lt_length (Nat.not_lt.2 (hlater hj))

/-- A key that was not there is born with the change. -/
theorem Birth.eq_length (hk : k ∉ (run key h).map key) (hi : Birth key (h ++ [e]) k i) :
    i = h.length := by
  rcases (lasts_concat_iff key).1 hi.1 with ⟨hold, -⟩ | ⟨rfl, -⟩
  · exact absurd ((mem_keys_run_iff_lasts key).2 ⟨i, hold⟩) hk
  · rfl

/-- The keys stand in the order of their births. -/
theorem pairwise_run (h : List (Edit κ α)) :
    ((run key h).map key).Pairwise fun k k' =>
      ∀ i i', Birth key h k i → Birth key h k' i' → i < i' := by
  induction h using List.reverseRecOn with
  | nil => exact List.Pairwise.nil
  | append_singleton h e ih =>
    -- the births of keys that were there and are not removed are the old ones
    have hold : ((run key h).map key).Pairwise fun k k' => e ≠ .remove k → e ≠ .remove k' →
        ∀ i i', Birth key (h ++ [e]) k i → Birth key (h ++ [e]) k' i' → i < i' :=
      ih.imp_of_mem fun hk hk' hlt he he' i i' hi hi' =>
        hlt i i' (hi.of_concat key hk he) (hi'.of_concat key hk' he')
    rw [run_concat]
    cases e with
    | insert a =>
      have hne : ∀ k : κ, (.insert a : Edit κ α) ≠ .remove k := fun _ => by simp
      replace hold := hold.imp fun hlt => hlt (hne _) (hne _)
      by_cases hmem : key a ∈ (run key h).map key
      · rw [Edit.apply, keys_put_of_mem key hmem]
        exact hold
      · rw [Edit.apply, put_of_notMem key hmem, List.map_append, List.pairwise_append]
        refine ⟨hold, List.pairwise_singleton _ _, fun k hk k' hk' i i' hi hi' => ?_⟩
        rw [List.map_singleton, List.mem_singleton] at hk'
        subst hk'
        rw [hi'.eq_length key hmem]
        exact (hi.of_concat key hk (hne k)).1.lt_length
    | remove k₀ =>
      rw [Edit.apply]
      refine (hold.sublist (List.eraseP_sublist.map key)).imp_of_mem fun hk hk' hlt => ?_
      have hne : ∀ {k}, k ∈ (Keyed.erase key k₀ (run key h)).map key →
          (.remove k₀ : Edit κ α) ≠ .remove k := by
        intro k hk he
        obtain ⟨a, ha, rfl⟩ := List.mem_map.1 hk
        exact ((mem_erase_iff key (nodup_run key h)).1 ha).2 (Edit.remove.inj he).symm
      exact hlt (hne hk) (hne hk')

theorem reflects_run (h : List (Edit κ α)) : Reflects key h (run key h) where
  nodup := nodup_run key h
  mem_iff _ := mem_keys_run_iff key
  get?_iff _ _ := get?_run_iff key
  exists_birth _ hk := exists_birth key hk
  pairwise := pairwise_run key h

/-! ## What a change gives back -/

theorem put_append_cons (hx : ∀ c ∈ x, key c ≠ key a) (hb : key b = key a) :
    put key a (x ++ b :: y) = x ++ a :: y := by
  induction x with
  | nil => rw [List.nil_append, put, if_pos hb]; rfl
  | cons c x ih =>
    obtain ⟨hc, hx⟩ := List.forall_mem_cons.1 hx
    rw [List.cons_append, put, if_neg hc, ih hx]
    rfl

theorem erase_append_cons (hx : ∀ c ∈ x, key c ≠ k) (hb : key b = k) :
    Keyed.erase key k (x ++ b :: y) = x ++ y := by
  induction x with
  | nil => rw [List.nil_append, erase_cons, if_pos hb]; rfl
  | cons c x ih =>
    obtain ⟨hc, hx⟩ := List.forall_mem_cons.1 hx
    rw [List.cons_append, erase_cons, if_neg hc, ih hx]
    rfl

/-- What is given back is what made room for the item of the change. -/
theorem result_eq_some_iff (hl : (l.map key).Nodup) :
    e.result key l = some b ↔ key b = e.about key ∧
      ∃ x y, l = x ++ b :: y ∧ e.apply key l = x ++ e.item?.toList ++ y := by
  constructor
  · intro hb
    obtain ⟨hk, x, y, rfl, hx⟩ := List.find?_eq_some_iff_append.1 hb
    have hx' : ∀ c ∈ x, key c ≠ e.about key := by simpa using hx
    have hk' := of_decide_eq_true hk
    refine ⟨hk', x, y, rfl, ?_⟩
    rw [List.append_assoc]
    cases e with
    | insert a => exact put_append_cons key hx' hk'
    | remove k => exact erase_append_cons key hx' hk'
  · rintro ⟨hk, x, y, rfl, -⟩
    rw [Edit.result, get?_eq_some_iff key hl]
    exact ⟨by simp, hk⟩

/-- Nothing is given back if there was nothing, and then the item of the change comes last. -/
theorem result_eq_none_iff :
    e.result key l = none ↔
      e.about key ∉ l.map key ∧ e.apply key l = l ++ e.item?.toList := by
  constructor
  · intro hn
    have hk : e.about key ∉ l.map key := by
      intro hm
      obtain ⟨a, ha, hka⟩ := List.mem_map.1 hm
      exact absurd hka (by simpa using List.find?_eq_none.1 hn a ha)
    refine ⟨hk, ?_⟩
    cases e with
    | insert a => exact put_of_notMem key hk
    | remove k =>
      have hforall : ∀ a ∈ l, ¬ decide (key a = k) = true := fun a ha he =>
        hk (List.mem_map.2 ⟨a, ha, of_decide_eq_true he⟩)
      rw [Edit.apply, Keyed.erase, List.eraseP_of_forall_not hforall]
      exact (List.append_nil _).symm
  · rintro ⟨hk, -⟩
    exact get?_eq_none key hk

/-! ## Other items under the same keys -/

theorem map_put (f : α → β) (key : β → κ) (a : α) (l : List α) :
    put key (f a) (l.map f) = (put (fun x => key (f x)) a l).map f := by
  induction l with
  | nil => rfl
  | cons b l ih =>
    rw [List.map_cons, put, put]
    split
    · rfl
    · rw [ih]; rfl

/-- Replacing the items by others under the same keys can be done before or after. -/
theorem run_map (f : α → β) (key : β → κ) (h : List (Edit κ α)) :
    run key (h.map (Edit.map f)) = (run (fun a => key (f a)) h).map f := by
  induction h using List.reverseRecOn with
  | nil => rfl
  | append_singleton h e ih =>
    rw [List.map_append, List.map_singleton, run_concat, run_concat, ih]
    cases e with
    | insert a => exact map_put f key a _
    | remove k => exact List.eraseP_map

theorem run_map_insert (l : List α) : run key (l.map .insert) = ofList key l := by
  rw [run, List.foldl_map]
  rfl

end Keyed
end TemplateTags
