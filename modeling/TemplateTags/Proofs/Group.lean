import TemplateTags.Group
import TemplateTags.Proofs.Text.Runs

/-!
# The grammar of parenthesised groups

The reader of `TemplateTags.Group` counts open parentheses.  Here is the grammar that it
recognises, with no counter in it:

    group  := `(` item* `)`
    item   := group | quoted | a character other than parentheses and quotes
    quoted := q (a character other than q and the backslash | a backslash and any character)* q

where `q` is either quote.  `IsGroup` is this grammar, and

* `take?_append`: a group is read whole, whatever follows it;
* `isGroup_of_take?`: what the reader takes is a group.

So a text starts with at most one group, and it is the one that the reader takes
(`take?_eq_some_iff`).

## What the counter means

With `d` inner groups open, what is left to read is `d + 1` sequences of items, each ended
by a closing parenthesis.  This is `Closes d`.  An opening parenthesis turns two of the
sequences into one (`Closes.open`), and this is the only place where the counter matters.
-/

namespace TemplateTags
namespace Group

/-! ## The grammar -/

/-- What stands between two quotes `q`. -/
inductive Quoted (q : Char) : Text → Prop
  | nil : Quoted q []
  | char {c : Char} {t : Text} (hq : c ≠ q) (hb : c ≠ '\\') (ht : Quoted q t) :
      Quoted q (c :: t)
  | escape {c : Char} {t : Text} (ht : Quoted q t) : Quoted q ('\\' :: c :: t)

/-- A sequence of items. -/
inductive Items : Text → Prop
  | nil : Items []
  | group {a t : Text} (ha : Items a) (ht : Items t) : Items ('(' :: a ++ ')' :: t)
  | quoted {q : Char} {a t : Text} (hq : Character.isQuote q = true) (ha : Quoted q a)
      (ht : Items t) : Items (q :: a ++ q :: t)
  | char {c : Char} {t : Text} (ho : c ≠ '(') (hc : c ≠ ')')
      (hq : Character.isQuote c = false) (ht : Items t) : Items (c :: t)

/-- A group: items between parentheses. -/
def IsGroup (g : Text) : Prop := ∃ a, Items a ∧ g = '(' :: a ++ [')']

/-! ## Groups are read whole -/

theorem close?_quoted {q : Char} (hq : Character.isQuote q = true) {a : Text}
    (ha : Quoted q a) (d : Nat) (r : Text) :
    close? (.quoted q) d (a ++ q :: r) =
      (close? .plain d r).map fun s => (a ++ q :: s.1, s.2) := by
  induction ha with
  | nil =>
    have hb : q ≠ '\\' := by
      rintro rfl
      exact absurd hq (by decide)
    simp [close?, hb]
  | char hc hb _ ih => simp [close?, hc, hb, ih, Function.comp_def]
  | escape _ ih => simp [close?, ih, Function.comp_def]

theorem close?_items {a : Text} (ha : Items a) (d : Nat) (r : Text) :
    close? .plain d (a ++ r) = (close? .plain d r).map fun s => (a ++ s.1, s.2) := by
  induction ha generalizing d r with
  | nil => simp
  | group _ _ iha iht =>
    -- the inner items are read with one more group open, which their end closes
    simp [close?, iha, iht, Function.comp_def]
  | @quoted q a t hq ha _ iht =>
    have ho : q ≠ '(' ∧ q ≠ ')' := by
      constructor <;> (rintro rfl; exact absurd hq (by decide))
    have h := close?_quoted hq ha d (t ++ r)
    simp [close?, ho.1, ho.2, hq, h, iht, Function.comp_def]
  | char ho hc hq _ iht => simp [close?, ho, hc, hq, iht, Function.comp_def]

/-- A group is read whole, whatever follows it. -/
theorem take?_append {g : Text} (hg : IsGroup g) (r : Text) : take? (g ++ r) = some (g, r) := by
  obtain ⟨a, ha, rfl⟩ := hg
  have h := close?_items ha 0 (')' :: r)
  simp [take?, h, close?]

/-! ## What is read is a group -/

/-- What is left to read with `d` inner groups open. -/
def Closes : Nat → Text → Prop
  | 0, t => ∃ a, Items a ∧ t = a ++ [')']
  | d + 1, t => ∃ a b, Items a ∧ Closes d b ∧ t = a ++ ')' :: b

/-- What is left to read from a place. -/
def ClosesFrom (d : Nat) : Place → Text → Prop
  | .plain, t => Closes d t
  | .quoted q, t =>
    Character.isQuote q = true → ∃ a b, Quoted q a ∧ Closes d b ∧ t = a ++ q :: b
  | .escaped q, t =>
    Character.isQuote q = true → ∃ c a b, Quoted q a ∧ Closes d b ∧ t = c :: a ++ q :: b

/-- An item in front joins the first sequence. -/
theorem Closes.cons {d : Nat} {x t : Text} (hx : ∀ a, Items a → Items (x ++ a))
    (h : Closes d t) : Closes d (x ++ t) := by
  cases d with
  | zero =>
    obtain ⟨a, ha, rfl⟩ := h
    exact ⟨x ++ a, hx a ha, by simp⟩
  | succ d =>
    obtain ⟨a, b, ha, hb, rfl⟩ := h
    exact ⟨x ++ a, b, hx a ha, hb, by simp⟩

/-- An opening parenthesis makes the first sequence a group in the second. -/
theorem Closes.open {d : Nat} {t : Text} (h : Closes (d + 1) t) : Closes d ('(' :: t) := by
  obtain ⟨a, b, ha, hb, rfl⟩ := h
  have hx : ∀ i, Items i → Items (('(' :: a ++ [')']) ++ i) := fun i hi => by
    simpa using Items.group ha hi
  simpa using hb.cons hx

/-- What the reader takes from a place is what is left to read from there. -/
theorem closesFrom_of_close? {p : Place} {d : Nat} {t a r : Text}
    (h : close? p d t = some (a, r)) : ClosesFrom d p a := by
  fun_induction close? p d t generalizing a r with
  | case1 => simp at h
  | case2 =>
    cases h
    exact ⟨[], .nil, rfl⟩
  | case3 t d ih =>
    obtain ⟨s, hs, e⟩ := Option.map_eq_some_iff.1 h
    cases e
    exact ⟨[], s.1, .nil, ih hs, rfl⟩
  | case4 d t _ ih =>
    obtain ⟨s, hs, e⟩ := Option.map_eq_some_iff.1 h
    cases e
    exact Closes.open (ih hs)
  | case5 d q t _ _ hq ih =>
    obtain ⟨s, hs, e⟩ := Option.map_eq_some_iff.1 h
    cases e
    obtain ⟨x, b, hx, hb, he⟩ := ih hs hq
    have hcons : ∀ i, Items i → Items ((q :: x ++ [q]) ++ i) := fun i hi => by
      simpa using Items.quoted hq hx hi
    show Closes d (q :: s.1)
    rw [he]
    simpa using hb.cons hcons
  | case6 d c t hc ho hq ih =>
    obtain ⟨s, hs, e⟩ := Option.map_eq_some_iff.1 h
    cases e
    have hcons : ∀ i, Items i → Items ([c] ++ i) := fun i hi =>
      Items.char ho hc (by simpa using hq) hi
    exact Closes.cons hcons (ih hs)
  | case7 q d t ih =>
    intro hq
    obtain ⟨s, hs, e⟩ := Option.map_eq_some_iff.1 h
    cases e
    obtain ⟨c, x, b, hx, hb, he⟩ := ih hs hq
    exact ⟨'\\' :: c :: x, b, .escape hx, hb, by simp [he]⟩
  | case8 d q t _ ih =>
    intro _
    obtain ⟨s, hs, e⟩ := Option.map_eq_some_iff.1 h
    cases e
    exact ⟨[], s.1, .nil, ih hs, rfl⟩
  | case9 q d c t hb hc ih =>
    intro hq
    obtain ⟨s, hs, e⟩ := Option.map_eq_some_iff.1 h
    cases e
    obtain ⟨x, b, hx, hclose, he⟩ := ih hs hq
    exact ⟨c :: x, b, .char hc hb hx, hclose, by simp [he]⟩
  | case10 q d c t ih =>
    intro hq
    obtain ⟨s, hs, e⟩ := Option.map_eq_some_iff.1 h
    cases e
    obtain ⟨x, b, hx, hb, he⟩ := ih hs hq
    exact ⟨c, x, b, hx, hb, by simp [he]⟩

/-- What the reader takes is a group. -/
theorem isGroup_of_take? {t g r : Text} (h : take? t = some (g, r)) : IsGroup g := by
  cases t with
  | nil => simp [take?] at h
  | cons c t =>
    simp only [take?] at h
    split at h
    · next hc =>
      obtain ⟨s, hs, e⟩ := Option.map_eq_some_iff.1 h
      cases e
      obtain ⟨a, ha, he⟩ := closesFrom_of_close? hs
      exact ⟨a, ha, by simp [hc, he]⟩
    · simp at h

/-- The reader takes exactly the group at the start of a text. -/
theorem take?_eq_some_iff {t g r : Text} : take? t = some (g, r) ↔ t = g ++ r ∧ IsGroup g := by
  constructor
  · intro h
    exact ⟨eq_of_take? h, isGroup_of_take? h⟩
  · rintro ⟨rfl, hg⟩
    exact take?_append hg r

end Group
end TemplateTags
