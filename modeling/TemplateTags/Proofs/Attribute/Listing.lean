import TemplateTags.Attribute.Parse
import TemplateTags.Proofs.Keyed
import TemplateTags.Proofs.Text.Cut

/-!
# The last token under a name decides

Tokens that stand for attributes of the same name overwrite each other, and the names of the
bound attributes are kept in a list of their own.  The two lists stay in step: both the
attribute under a name and its mark are those of the last token under that name, whatever
came before.

* `Token.IsBound`: the token gives an expression, since it has no value or starts with the
  mark of a binding.
* `ListsLast`: what a listing of attributes has to hold, in which order, and what it marks.
* `mem_items_ofTokens_iff`, `mem_bound_ofTokens_iff`: what the two lists hold.
* `parse_lists_last`: the attributes and the marks of attribute text, in order.
-/

namespace TemplateTags
namespace Attribute

variable {splitter : Echo.Splitter}

/-- The token gives an expression and no literal text. -/
def Token.IsBound (k : Token) : Prop := k.value = none ∨ bindMark <+: k.name

/-- The last of the tokens that stand for an attribute of the given name. -/
def lastUnder? (splitter : Echo.Splitter) (name : Text) (l : List Token) : Option Token :=
  Keyed.last? (fun k => (ofToken splitter k).name) name l

theorem isBound_ofExpr (name expr : Text) : (ofExpr name expr).kind.isBound = true := by
  unfold ofExpr
  dsimp only
  split <;> rfl

theorem Kind.isBound_iff {k : Kind} : k.isBound = true ↔ k = .bound ∨ k = .spread := by
  cases k <;> decide

/-- A token gives an expression exactly if its attribute is bound. -/
theorem isBound_ofToken_iff {k : Token} :
    (ofToken splitter k).kind.isBound = true ↔ k.IsBound := by
  have hmark : (Text.strip? bindMark k.name).isSome = true ↔ bindMark <+: k.name :=
    Text.startsWith_iff
  unfold ofToken Token.IsBound
  split
  · next hvalue _ => simp [isBound_ofExpr, hvalue]
  · next hvalue _ => simp [isBound_ofExpr, hvalue]
  · next hname => simp [isBound_ofExpr, ← hmark, hname]
  · next hvalue hname => simp [Kind.isBound, ← hmark, hvalue, hname]

namespace Listing

/-- The listing has the names of the attributes in the order in which they come first, under
each name the attribute that comes last, and marks the names under which that one is bound. -/
structure ListsLast (s : Listing) (l : List Attribute) : Prop where
  names : s.items.map Attribute.name = (l.map Attribute.name).eraseDups
  last : ∀ name, Keyed.get? Attribute.name name s.items = Keyed.last? Attribute.name name l
  marked : ∀ name, name ∈ s.bound ↔
    ∃ a, Keyed.last? Attribute.name name l = some a ∧ (a.kind = .bound ∨ a.kind = .spread)

theorem ofList_concat (l : List Attribute) (a : Attribute) :
    ofList (l ++ [a]) = (ofList l).add a := by
  rw [ofList, List.foldl_append]
  rfl

theorem items_ofList (l : List Attribute) :
    (ofList l).items = Keyed.ofList Attribute.name l := by
  induction l using List.reverseRecOn with
  | nil => rfl
  | append_singleton l a ih =>
    rw [ofList_concat, Keyed.ofList_concat, ← ih]
    rfl

theorem nodup_bound_ofList (l : List Attribute) : ((ofList l).bound.map id).Nodup := by
  induction l using List.reverseRecOn with
  | nil => exact List.nodup_nil
  | append_singleton l a ih =>
    rw [ofList_concat, add]
    dsimp only
    split
    · exact Keyed.nodup_put id ih
    · exact Keyed.nodup_erase id ih

/-- A name counts as bound exactly if the last attribute of that name is bound. -/
theorem mem_bound_ofList_iff {l : List Attribute} {name : Text} :
    name ∈ (ofList l).bound ↔
      ∃ a, Keyed.last? Attribute.name name l = some a ∧ a.kind.isBound = true := by
  induction l using List.reverseRecOn with
  | nil => simp [ofList, empty]
  | append_singleton l a ih =>
    have hnodup := nodup_bound_ofList l
    rw [ofList_concat, add, Keyed.last?_concat]
    dsimp only
    by_cases hname : a.name = name
    · rw [if_pos hname]
      split
      · next hbound => simp [Keyed.mem_put_iff id hnodup, hname, hbound]
      · next hbound => simp [Keyed.mem_erase_iff id hnodup, hname, hbound]
    · rw [if_neg hname, ← ih]
      have hne : name ≠ a.name := fun h => hname h.symm
      split
      · simp [Keyed.mem_put_iff id hnodup, hne]
      · simp [Keyed.mem_erase_iff id hnodup, hne]

/-- The attributes are those of the last tokens under their names. -/
theorem mem_items_ofTokens_iff {l : List Token} {a : Attribute} :
    a ∈ (ofTokens splitter l).items ↔
      ∃ k, lastUnder? splitter a.name l = some k ∧ ofToken splitter k = a := by
  rw [ofTokens, items_ofList, Keyed.mem_ofList_iff, Keyed.last?_map]
  exact Option.map_eq_some_iff

/-- The bound names are those under which the last token gives an expression. -/
theorem mem_bound_ofTokens_iff {l : List Token} {name : Text} :
    name ∈ (ofTokens splitter l).bound ↔
      ∃ k, lastUnder? splitter name l = some k ∧ k.IsBound := by
  rw [ofTokens, mem_bound_ofList_iff, Keyed.last?_map]
  constructor
  · rintro ⟨a, ha, hbound⟩
    obtain ⟨k, hk, rfl⟩ := Option.map_eq_some_iff.1 ha
    exact ⟨k, hk, isBound_ofToken_iff.1 hbound⟩
  · rintro ⟨k, hk, hbound⟩
    exact ⟨_, Option.map_eq_some_iff.2 ⟨k, hk, rfl⟩, isBound_ofToken_iff.2 hbound⟩

/-- Adding attributes one by one lists the last of each name. -/
theorem listsLast_ofList (l : List Attribute) : (ofList l).ListsLast l where
  names := by rw [items_ofList, Keyed.keys_ofList]
  last name := by rw [items_ofList, Keyed.get?_ofList]
  marked name := by simp only [mem_bound_ofList_iff, Kind.isBound_iff]

/-- **The last attribute under a name decides.**  For every text and every splitter, the names
of the listing are those of the attributes that are read, in the order in which they come
first.  The attribute under a name is the one that comes last, and the name is marked exactly
if this one is bound.  So only the last token under a name counts, however the earlier ones
are spelled: it marks the name if it gives an expression, and else clears the mark. -/
theorem parse_lists_last (splitter : Echo.Splitter) (t : Text) :
    (parse splitter t).items.map Attribute.name =
        (((Token.ofText t).map (ofToken splitter)).map Attribute.name).eraseDups ∧
      (∀ name, Keyed.get? Attribute.name name (parse splitter t).items =
        Keyed.last? Attribute.name name ((Token.ofText t).map (ofToken splitter))) ∧
      (∀ name, name ∈ (parse splitter t).bound ↔
        ∃ a, Keyed.get? Attribute.name name (parse splitter t).items = some a ∧
          (a.kind = .bound ∨ a.kind = .spread)) ∧
      ∀ before k after, Token.ofText t = before ++ k :: after →
        (∀ j ∈ after, (ofToken splitter j).name ≠ (ofToken splitter k).name) →
        Keyed.get? Attribute.name (ofToken splitter k).name (parse splitter t).items =
            some (ofToken splitter k) ∧
          ((ofToken splitter k).name ∈ (parse splitter t).bound ↔ k.IsBound) := by
  have hlists : (parse splitter t).ListsLast ((Token.ofText t).map (ofToken splitter)) :=
    listsLast_ofList _
  refine ⟨hlists.names, hlists.last, fun name => ?_, fun before k after htokens hafter => ?_⟩
  · rw [hlists.last, hlists.marked]
  · have hlast : Keyed.last? Attribute.name (ofToken splitter k).name
        ((Token.ofText t).map (ofToken splitter)) = some (ofToken splitter k) := by
      rw [htokens, List.map_append, List.map_cons]
      exact Keyed.last?_append_cons Attribute.name (List.forall_mem_map.2 hafter)
    refine ⟨(hlists.last _).trans hlast, ?_⟩
    rw [hlists.marked, hlast, ← @isBound_ofToken_iff splitter, Kind.isBound_iff]
    simp

/-- The binding of `x` is cleared by a literal and comes back with the bare name. -/
theorem parse_lists_last_restored :
    Token.ofText "bind:x=$a y=1 x=2 x".toList =
        [⟨"bind:x".toList, some "$a".toList⟩, ⟨['y'], some ['1']⟩, ⟨['x'], some ['2']⟩] ++
          ⟨['x'], none⟩ :: [] ∧
      Keyed.get? Attribute.name ['x'] (parse Echo.standard "bind:x=$a y=1 x=2 x".toList).items =
        some ⟨['x'], "true".toList, .bound⟩ ∧
      (parse Echo.standard "bind:x=$a y=1 x=2 x".toList).bound = [['x']] := by
  have htokens : Token.ofText "bind:x=$a y=1 x=2 x".toList =
      [⟨"bind:x".toList, some "$a".toList⟩, ⟨['y'], some ['1']⟩, ⟨['x'], some ['2']⟩] ++
        ⟨['x'], none⟩ :: [] := by
    decide +kernel
  have hlast := (parse_lists_last Echo.standard _).2.2.2 _ _ _ htokens (by simp)
  exact ⟨htokens, hlast.1, by decide +kernel⟩

end Listing
end Attribute
end TemplateTags
