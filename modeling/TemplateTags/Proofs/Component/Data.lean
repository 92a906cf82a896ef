import TemplateTags.Component.Data
import TemplateTags.Proofs.Keyed

/-!
# What a constructor receives

Attributes are split by the camel case of their names: those that name a parameter are data,
the others stay attributes.  The names are distinct as long as they are as written, and both
parts keep them so.  Then the data get the names of the parameters, and now names that were
different can become the same: `user-name`, `user_name` and `userName` all give a value for
the parameter `userName`.  The constructor gets one value for each parameter, the one that was
written last, in the place of the one that was written first.

* `foldl_put`: sorting the attributes one by one into two keyed lists gives the split.
* `names_camelKeys`, `get?_camelKeys`: what is left after the renaming.
* `split_loses_nothing` puts these together.
-/

namespace TemplateTags
namespace Component

/-! ## Sorting one by one -/

/-- The two parts with one more attribute, put where its name belongs. -/
def Split.put (ps : List Text) (s : Split) (a : Attribute) : Split :=
  if ps.contains a.name.camel then { s with data := Keyed.put Attribute.name a s.data }
  else { s with rest := Keyed.put Attribute.name a s.rest }

variable {ps : List Text} {l : List Attribute}

theorem foldl_put_eq (ps : List Text) (l : List Attribute) :
    l.foldl (Split.put ps) ⟨[], []⟩ =
      ⟨Keyed.ofList Attribute.name (split (some ps) l).data,
        Keyed.ofList Attribute.name (split (some ps) l).rest⟩ := by
  induction l using List.reverseRecOn with
  | nil => rfl
  | append_singleton l a ih =>
    rw [List.foldl_append, ih, List.foldl_cons, List.foldl_nil, Split.put]
    by_cases h : a.name.camel ∈ ps
    · rw [if_pos (List.contains_iff_mem.2 h), ← Keyed.ofList_concat]
      simp [split, List.filter_append, h]
    · rw [if_neg (mt List.contains_iff_mem.1 h), ← Keyed.ofList_concat]
      simp [split, List.filter_append, h]

/-- Attributes with distinct names are sorted without one taking the place of another. -/
theorem foldl_put (h : (l.map Attribute.name).Nodup) :
    l.foldl (Split.put ps) ⟨[], []⟩ = split (some ps) l := by
  have hpart : ∀ p : Attribute → Bool,
      Keyed.ofList Attribute.name (l.filter p) = l.filter p := fun p =>
    Keyed.ofList_of_nodup _ (h.sublist (List.filter_sublist.map _))
  rw [foldl_put_eq]
  exact congrArg₂ Split.mk (hpart _) (hpart _)

/-! ## Renaming -/

/-- The new names come in the order in which they are first given. -/
theorem names_camelKeys (l : List Attribute) :
    (camelKeys l).map Attribute.name = (l.map fun a => a.name.camel).eraseDups := by
  rw [camelKeys, Keyed.keys_ofList, List.map_map]
  rfl

/-- Under a new name is what was last given a name that becomes the new one. -/
theorem get?_camelKeys (k : Text) (l : List Attribute) :
    Keyed.get? Attribute.name k (camelKeys l) =
      (Keyed.last? (fun a => a.name.camel) k l).map fun a => { a with name := k } := by
  rw [camelKeys, Keyed.get?_ofList, Keyed.last?_map]
  refine Option.map_congr fun a ha => ?_
  rw [← Keyed.key_of_last? _ ha]

/-! ## Data for a constructor -/

theorem mem_data_iff {a : Attribute} :
    a ∈ (split (some ps) l).data ↔ a ∈ l ∧ a.name.camel ∈ ps := by
  simp [split]

theorem mem_rest_iff {a : Attribute} :
    a ∈ (split (some ps) l).rest ↔ a ∈ l ∧ a.name.camel ∉ ps := by
  simp [split]

theorem names_data : (split (some ps) l).data.map (fun a => a.name.camel) =
    (l.map fun a => a.name.camel).filter (· ∈ ps) := by
  rw [List.filter_map]
  simp [split, Function.comp_def]

/-- **A constructor gets each parameter once, and nothing is lost.**  The attributes whose
names in camel case are parameters are data and the others are the rest, in order and
unchanged, and sorting them one by one into keyed lists comes to the same.  Each attribute is in
exactly one of the two.  The data under their new names have distinct names, all of them
parameters, in the order in which the attributes give them first; and under each parameter is
the value and the kind of the last attribute for it.  Without parameters to go by both parts
are the whole list. -/
theorem split_loses_nothing (ps : List Text) (l : List Attribute) :
    (split (some ps) l).rest = l.filter (fun a => a.name.camel ∉ ps) ∧
      (split (some ps) l).data = l.filter (fun a => a.name.camel ∈ ps) ∧
      ((l.map Attribute.name).Nodup →
        l.foldl (Split.put ps) ⟨[], []⟩ = split (some ps) l) ∧
      ((split (some ps) l).data ++ (split (some ps) l).rest).Perm l ∧
      (∀ a ∈ l, Xor (a ∈ (split (some ps) l).data) (a ∈ (split (some ps) l).rest)) ∧
      ((camelKeys (split (some ps) l).data).map Attribute.name).Nodup ∧
      (∀ a ∈ camelKeys (split (some ps) l).data, a.name ∈ ps) ∧
      (camelKeys (split (some ps) l).data).map Attribute.name =
        ((l.map fun a => a.name.camel).filter (· ∈ ps)).eraseDups ∧
      (∀ k ∈ ps, Keyed.get? Attribute.name k (camelKeys (split (some ps) l).data) =
        (Keyed.last? (fun a => a.name.camel) k l).map fun a => ⟨k, a.value, a.kind⟩) ∧
      split none l = ⟨l, l⟩ := by
  have hnames := names_camelKeys (split (some ps) l).data
  rw [names_data] at hnames
  refine ⟨by simp [split], by simp [split], foldl_put, List.filter_append_perm _ l,
    fun a ha => ?_, Keyed.nodup_ofList _ _, fun a ha => ?_, hnames, fun k hk => ?_, rfl⟩
  · rw [mem_data_iff, mem_rest_iff]
    by_cases hp : a.name.camel ∈ ps
    · exact Or.inl ⟨⟨ha, hp⟩, fun h => h.2 hp⟩
    · exact Or.inr ⟨⟨ha, hp⟩, fun h => hp h.2⟩
  · have hname : a.name ∈ (camelKeys (split (some ps) l).data).map Attribute.name :=
      List.mem_map_of_mem ha
    rw [hnames, List.mem_eraseDups, List.mem_filter] at hname
    exact of_decide_eq_true hname.2
  · rw [get?_camelKeys]
    refine congrArg (Option.map _) (Keyed.last?_filter _ fun a _ hname => ?_)
    rw [hname]
    exact List.contains_iff_mem.2 hk

/-- Three spellings of one parameter, and an attribute for none. -/
def userAttributes : List Attribute :=
  [⟨"user-name".toList, "'a'".toList, .literal⟩, ⟨"class".toList, "'b'".toList, .literal⟩,
    ⟨"user_name".toList, "$c".toList, .bound⟩, ⟨"userName".toList, "$d".toList, .bound⟩]

theorem split_loses_nothing_user :
    (userAttributes.map Attribute.name).Nodup ∧
      userAttributes.foldl (Split.put ["userName".toList]) ⟨[], []⟩ =
        split (some ["userName".toList]) userAttributes ∧
      camelKeys (split (some ["userName".toList]) userAttributes).data =
        [⟨"userName".toList, "$d".toList, .bound⟩] := by
  have hnodup : (userAttributes.map Attribute.name).Nodup := by decide
  exact ⟨hnodup, (split_loses_nothing _ userAttributes).2.2.1 hnodup, by decide⟩

end Component
end TemplateTags
