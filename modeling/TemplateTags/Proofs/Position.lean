import TemplateTags.Position

/-!
# Positions and byte offsets

A position counts the bytes before it, and a part of a text is asked for by the bytes at
which it starts and ends.  The two agree: a text cut at the size of one of its starts falls
apart into that start and the rest (`splitBytes?_append`), so a part between two others is
found by the sizes of what stands before it and of what it ends (`slice?_append`), and
walking over a text moves the offset by the size of that text (`offset_walk`).
-/

namespace TemplateTags
namespace Text

theorem byteSize_pos {t : Text} (h : t ≠ []) : 0 < t.byteSize := by
  cases t with
  | nil => exact absurd rfl h
  | cons c t =>
    have hc := c.utf8Size_pos
    rw [byteSize_cons]
    omega

/-- A text is cut at the size of one of its starts. -/
theorem splitBytes?_append (a r : Text) : splitBytes? a.byteSize (a ++ r) = some (a, r) := by
  induction a with
  | nil => simp [splitBytes?]
  | cons c a ih =>
    have hc := c.utf8Size_pos
    have hsize : byteSize (c :: a) = c.utf8Size + byteSize a - 1 + 1 := by
      rw [byteSize_cons]
      omega
    have hrest : c.utf8Size + byteSize a - 1 + 1 - c.utf8Size = byteSize a := by omega
    rw [hsize, List.cons_append, splitBytes?, if_pos (by omega), hrest, ih]
    rfl

/-- The first bytes of a text, where they are whole characters. -/
theorem splitBytes?_eq_some_iff {n : Nat} {t a r : Text} :
    splitBytes? n t = some (a, r) ↔ t = a ++ r ∧ a.byteSize = n := by
  constructor
  · intro h
    fun_induction splitBytes? n t generalizing a r with
    | case1 t =>
      cases h
      exact ⟨rfl, rfl⟩
    | case2 => cases h
    | case3 n c t hc ih =>
      obtain ⟨⟨b, s⟩, hs, e⟩ := Option.map_eq_some_iff.1 h
      cases e
      obtain ⟨rfl, hb⟩ := ih hs
      refine ⟨rfl, ?_⟩
      show c.utf8Size + b.byteSize = n + 1
      omega
    | case4 => cases h
  · rintro ⟨rfl, rfl⟩
    exact splitBytes?_append a r

/-- A part of a text stands between the size of what comes before and the size up to its
end. -/
theorem slice?_append (a b r : Text) :
    slice? (a ++ b ++ r) a.byteSize (a ++ b).byteSize = some b := by
  have hsize : (a ++ b).byteSize - a.byteSize = b.byteSize := by
    rw [byteSize_append]
    omega
  rw [slice?, if_pos (by rw [byteSize_append]; omega), List.append_assoc, splitBytes?_append,
    hsize]
  simp only [splitBytes?_append, Option.map_some]

end Text

namespace Position

@[simp] theorem offset_step (p : Position) (c : Char) :
    (p.step c).offset = p.offset + c.utf8Size := by
  unfold step
  split <;> rfl

/-- Walking over a text moves the offset by its size. -/
theorem offset_walk (p : Position) (t : Text) :
    (p.walk t).offset = p.offset + t.byteSize := by
  induction t generalizing p with
  | nil => rfl
  | cons c t ih =>
    show ((p.step c).walk t).offset = p.offset + (c.utf8Size + Text.byteSize t)
    rw [ih, offset_step, Nat.add_assoc]

theorem offset_start_walk (t : Text) : (start.walk t).offset = t.byteSize := by
  rw [offset_walk, start, Nat.zero_add]

end Position
end TemplateTags
