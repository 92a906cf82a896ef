import Mathlib.Data.List.DropRight
import TemplateTags.Proofs.Position

/-!
# Positions counted from scratch

A position is carried from offset to offset and never counted again.  Here it is counted
again: `Position.located source n` looks at the characters within the first `n` bytes of the
source, counts the line feeds among them, and the characters behind the last of these.

## 1.  Offsets

An offset can be asked for if it stands between two characters, at an end of the source, or
behind it (`Text.IsBoundary`).  There is then a start of the source that ends at the offset,
or with the source, and the position is the one that is reached by walking over it
(`exists_located_eq`).

## 2.  Carrying

One request moves the carried position to the larger of the two offsets
(`advance?_located`): forward by the text between the two, and not at all if the offset is
not ahead, or if both lie behind the end.  So any number of requests, in any order, leaves
the position at the largest offset (`carry_eq`).
-/

namespace TemplateTags
namespace Text

/-! ## Offsets -/

/-- The characters that lie within the first `n` bytes of the text. -/
def upTo : Nat → Text → Text
  | _, [] => []
  | n, c :: t => if c.utf8Size ≤ n then c :: upTo (n - c.utf8Size) t else []

/-- The offset stands between two characters of the text, at one of its ends, or behind it. -/
def IsBoundary (t : Text) (n : Nat) : Prop :=
  t.byteSize ≤ n ∨ ∃ a r, t = a ++ r ∧ a.byteSize = n

theorem isBoundary_zero (t : Text) : IsBoundary t 0 := Or.inr ⟨[], t, rfl, rfl⟩

theorem upTo_append (a r : Text) : upTo a.byteSize (a ++ r) = a := by
  induction a with
  | nil =>
    cases r with
    | nil => rfl
    | cons c r =>
      have hc := c.utf8Size_pos
      rw [List.nil_append, upTo, byteSize_nil, if_neg (by omega)]
  | cons c a ih =>
    rw [List.cons_append, upTo, byteSize_cons, if_pos (Nat.le_add_right _ _),
      Nat.add_sub_cancel_left, ih]

theorem upTo_of_byteSize_le {t : Text} {n : Nat} (h : t.byteSize ≤ n) : upTo n t = t := by
  induction t generalizing n with
  | nil => rfl
  | cons c t ih =>
    rw [byteSize_cons] at h
    rw [upTo, if_pos (by omega), ih (by omega)]

/-- Of two starts of a text the one with fewer bytes is a start of the other. -/
theorem exists_append_of_byteSize_le {a r b s : Text} (h : a ++ r = b ++ s)
    (hle : a.byteSize ≤ b.byteSize) : ∃ x, b = a ++ x := by
  rcases List.append_eq_append_iff.1 h with ⟨x, hb, -⟩ | ⟨x, ha, -⟩
  · exact ⟨x, hb⟩
  · have hx : x = [] := by
      by_contra hne
      have hpos := byteSize_pos hne
      rw [ha, byteSize_append] at hle
      omega
    rw [hx, List.append_nil] at ha
    exact ⟨[], by rw [ha, List.append_nil]⟩

end Text

namespace Position

open Text (upTo IsBoundary)

variable {source : Text} {m n : Nat}

/-- The position at a byte offset of the source, counted from scratch: the offset, or the
size of the source if it is smaller, the line feeds before it, and the characters before it
and behind the last of these line feeds. -/
def located (source : Text) (n : Nat) : Position where
  offset := min n source.byteSize
  line := (source.upTo n).count '\n'
  column := ((source.upTo n).rtakeWhile (· != '\n')).length

/-- Walking over a text counts what is in it. -/
theorem start_walk (t : Text) :
    start.walk t = ⟨t.byteSize, t.count '\n', (t.rtakeWhile (· != '\n')).length⟩ := by
  induction t using List.reverseRecOn with
  | nil => rfl
  | append_singleton t c ih =>
    rw [walk_append, ih]
    show step _ c = _
    by_cases hc : c = '\n'
    · subst hc
      simp [step]
    · simp [step, hc]

theorem located_append (a r : Text) : located (a ++ r) a.byteSize = start.walk a := by
  rw [start_walk, located, Text.upTo_append, Text.byteSize_append,
    Nat.min_eq_left (Nat.le_add_right _ _)]

/-- Behind the end there is no other position than the end. -/
theorem located_of_byteSize_le (h : source.byteSize ≤ n) :
    located source n = start.walk source := by
  rw [start_walk, located, Text.upTo_of_byteSize_le h, Nat.min_eq_right h]

@[simp] theorem located_zero (source : Text) : located source 0 = start :=
  located_append [] source

theorem offset_located (source : Text) (n : Nat) :
    (located source n).offset = min n source.byteSize := rfl

/-- At an offset ends a start of the source, and its position is reached by walking there. -/
theorem exists_located_eq (h : IsBoundary source n) :
    ∃ a r, source = a ++ r ∧ a.byteSize = min n source.byteSize ∧
      located source n = start.walk a := by
  rcases h with h | ⟨a, r, rfl, rfl⟩
  · exact ⟨source, [], (List.append_nil _).symm, (Nat.min_eq_right h).symm,
      located_of_byteSize_le h⟩
  · refine ⟨a, r, rfl, ?_, located_append a r⟩
    rw [Text.byteSize_append, Nat.min_eq_left (Nat.le_add_right _ _)]

/-! ## Carrying -/

/-- Carries the position on to one offset after the other, from the start of the source. -/
def carry (source : Text) (offsets : List Nat) : Option Position :=
  offsets.foldlM (advance? source) start

/-- A request moves the position forward to an offset that is ahead. -/
theorem advance?_of_lt (hm : IsBoundary source m) (hn : IsBoundary source n)
    (h : min m source.byteSize < n) :
    (located source m).advance? source n = some (located source n) := by
  obtain ⟨a, r, ha, hsize, hlm⟩ := exists_located_eq hm
  obtain ⟨b, s, hb, hsize', hln⟩ := exists_located_eq hn
  have hle : a.byteSize ≤ b.byteSize := by omega
  obtain ⟨x, rfl⟩ := Text.exists_append_of_byteSize_le (ha.symm.trans hb) hle
  have hslice : source.slice? a.byteSize (a ++ x).byteSize = some x := by
    rw [hb]
    exact Text.slice?_append a x s
  rw [advance?, offset_located, if_neg (Nat.not_le.2 h), ← hsize, ← hsize', hslice, hlm, hln,
    walk_append]
  rfl

/-- A request leaves the position at the larger of the two offsets. -/
theorem advance?_located (hm : IsBoundary source m) (hn : IsBoundary source n) :
    (located source m).advance? source n = some (located source (max m n)) := by
  by_cases h : min m source.byteSize < n
  · rw [advance?_of_lt hm hn h]
    rcases Nat.le_total m n with hmn | hnm
    · rw [Nat.max_eq_right hmn]
    · -- the carried position is at the end, and so are both offsets
      rw [Nat.max_eq_left hnm]
      rcases Nat.eq_or_lt_of_le hnm with rfl | hlt
      · rfl
      · rw [located_of_byteSize_le (by omega), located_of_byteSize_le (by omega)]
  · rw [advance?, offset_located, if_pos (Nat.not_lt.1 h), Nat.max_eq_left (by omega)]

theorem foldlM_advance? (offsets : List Nat) (hm : IsBoundary source m)
    (h : ∀ n ∈ offsets, IsBoundary source n) :
    offsets.foldlM (advance? source) (located source m) =
      some (located source (offsets.foldl max m)) := by
  induction offsets generalizing m with
  | nil => rfl
  | cons n offsets ih =>
    obtain ⟨hn, hrest⟩ := List.forall_mem_cons.1 h
    have hmax : IsBoundary source (max m n) := by
      rcases Nat.le_total m n with hmn | hnm
      · rwa [Nat.max_eq_right hmn]
      · rwa [Nat.max_eq_left hnm]
    rw [List.foldlM_cons, advance?_located hm hn, List.foldl_cons, ← ih hmax hrest]
    rfl

/-- Requests in any order leave the position at the largest offset. -/
theorem carry_eq {offsets : List Nat} (h : ∀ n ∈ offsets, IsBoundary source n) :
    carry source offsets = some (located source (offsets.foldl max 0)) := by
  rw [carry, ← located_zero source, foldlM_advance? offsets (Text.isBoundary_zero source) h]

theorem ofOffset?_eq (h : IsBoundary source n) :
    ofOffset? source n = some (located source n) := by
  rw [ofOffset?, ← located_zero source, advance?_located (Text.isBoundary_zero source) h,
    Nat.zero_max]

/-- The last of the offsets counts if none before it is larger. -/
theorem carry_concat {offsets : List Nat} (h : ∀ k ∈ offsets, IsBoundary source k ∧ k ≤ n)
    (hn : IsBoundary source n) : carry source (offsets ++ [n]) = some (located source n) := by
  have hall : ∀ k ∈ offsets ++ [n], IsBoundary source k := by
    intro k hk
    rcases List.mem_append.1 hk with hk | hk
    · exact (h k hk).1
    · rwa [List.mem_singleton.1 hk]
  have hmax : offsets.foldl max 0 ≤ n := by
    refine List.foldlRecOn (motive := (· ≤ n)) offsets max (Nat.zero_le n) ?_
    intro k hk j hj
    exact Nat.max_le.2 ⟨hk, (h j hj).2⟩
  rw [carry_eq hall, List.foldl_append, List.foldl_cons, List.foldl_nil, Nat.max_eq_right hmax]

end Position
end TemplateTags
