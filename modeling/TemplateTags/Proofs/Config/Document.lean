import TemplateTags.Config.Document
import TemplateTags.Proofs.Json.RoundTrip
import TemplateTags.Proofs.Keyed

/-!
# Configuration documents and the standard configuration

A configuration document lays some fields of a configuration over the standard one.  What is
read from it does not depend on the order of its members, on members with unknown keys, or on
white space.

* `Field` names the fields of a configuration, and `overlay c l` is the configuration that has
  the fields `l` from `c` and the others from the standard configuration.
* `Interleaved keys fields members` says that the members are the given fields in order, with
  members in between whose keys are unknown.  Looking a key up among such members gives the
  field (`exists_record?`); this is used for the configuration and for its directories.
* `IsDocument c l t` says that `t` is the text of such an object for the fields `l` of `c`.

`read_document` is the result: the document for some fields gives the overlay, and so the
document for a whole configuration gives the configuration back.
-/

namespace TemplateTags
namespace Config

/-! ## Looking up the members of a record -/

/-- The members are the fields in order, with members of other keys in between. -/
inductive Interleaved (known : List Text) :
    List (Text × Json) → List (Option Text × Json) → Prop
  | nil : Interleaved known [] []
  | field {k : Text} {v : Json} {fields : List (Text × Json)}
      {members : List (Option Text × Json)} (h : Interleaved known fields members) :
      Interleaved known ((k, v) :: fields) ((some k, v) :: members)
  | unknown {k t : Text} {fields : List (Text × Json)} {members : List (Option Text × Json)}
      (hk : k ∉ known) (h : Interleaved known fields members) :
      Interleaved known fields ((some k, .ofText t) :: members)

variable {known : List Text} {fields : List (Text × Json)}
  {members : List (Option Text × Json)}

theorem interleaved_map (known : List Text) (fields : List (Text × Json)) :
    Interleaved known fields (fields.map fun e => (some e.1, e.2)) := by
  induction fields with
  | nil => exact .nil
  | cons e fields ih => exact .field ih

theorem Interleaved.isSome (h : Interleaved known fields members) :
    ∀ m ∈ members, m.1.isSome = true := by
  induction h with
  | nil => exact List.forall_mem_nil _
  | field _ ih => exact List.forall_mem_cons.2 ⟨rfl, ih⟩
  | unknown _ _ ih => exact List.forall_mem_cons.2 ⟨rfl, ih⟩

theorem Interleaved.numberFree (h : Interleaved known fields members)
    (hfields : ∀ e ∈ fields, e.2.NumberFree) : ∀ m ∈ members, m.2.NumberFree := by
  induction h with
  | nil => exact List.forall_mem_nil _
  | field _ ih =>
    rw [List.forall_mem_cons] at hfields ⊢
    exact ⟨hfields.1, ih hfields.2⟩
  | unknown _ _ ih => exact List.forall_mem_cons.2 ⟨Json.numberFree_ofText _, ih hfields⟩

/-- The members under a known key are the fields under it. -/
theorem Interleaved.filter_eq (h : Interleaved known fields members) {k : Text}
    (hk : k ∈ known) :
    (members.filter fun m => m.1 = some k) =
      (fields.filter fun e => e.1 = k).map fun e => (some e.1, e.2) := by
  induction h with
  | nil => rfl
  | @field k' v fields members _ ih =>
    by_cases he : k' = k
    · simp [he, ih]
    · simp [he, ih]
  | @unknown k' t fields members hk' _ ih =>
    have he : k' ≠ k := fun he => hk' (he ▸ hk)
    simp [he, ih]

/-- The members of a record are looked up as its fields. -/
theorem exists_record? (h : Interleaved known fields members)
    (hnodup : (fields.map Prod.fst).Nodup) :
    ∃ field, record? known (.object members) = some field ∧
      ∀ k ∈ known, field k = (Keyed.get? Prod.fst k fields).map Prod.snd := by
  have hsome : (members.all fun m => m.1.isSome) = true := List.all_eq_true.2 h.isSome
  have honce : (known.all fun k => (members.filter fun m => m.1 = some k).length ≤ 1) = true := by
    refine List.all_eq_true.2 fun k hk => ?_
    have hcount := List.nodup_iff_count_le_one.1 hnodup k
    rw [List.count, List.countP_map, List.countP_eq_length_filter] at hcount
    rw [h.filter_eq hk, List.length_map]
    simpa [Function.comp_def, beq_eq_decide] using hcount
  refine ⟨_, by rw [record?, hsome, honce]; rfl, fun k hk => ?_⟩
  rw [← List.head?_filter, h.filter_eq hk, List.head?_map, List.head?_filter, Option.map_map]
  rfl

/-- The value of a key that is written. -/
theorem get?_map_of_mem {k : Text} {v : Json} (hnodup : (fields.map Prod.fst).Nodup)
    (hmem : (k, v) ∈ fields) : (Keyed.get? Prod.fst k fields).map Prod.snd = some v := by
  rw [Keyed.get?_of_mem Prod.fst hnodup hmem]
  rfl

theorem get?_map_of_notMem {k : Text} (hk : k ∉ fields.map Prod.fst) :
    (Keyed.get? Prod.fst k fields).map Prod.snd = none := by
  rw [Keyed.get?_eq_none Prod.fst hk]
  rfl

/-! ## Tables and directories -/

theorem table?_tableJson {l : List (Text × Text)} (h : (l.map Prod.fst).Nodup) :
    table? (tableJson l) = some l := by
  have hentries : ((l.map fun e => (some e.1, Json.ofText e.2)).mapM fun m => do
      let k ← m.1
      let t ← m.2.text?
      return (k, t)) = some l := by
    clear h
    induction l with
    | nil => rfl
    | cons e l ih =>
      rw [List.map_cons, List.mapM_cons, ih]
      rfl
  rw [tableJson, table?, hentries]
  exact congrArg some (Keyed.ofList_of_nodup Prod.fst h)

theorem numberFree_tableJson (l : List (Text × Text)) : (tableJson l).NumberFree :=
  Json.numberFree_object fun m hm => by
    obtain ⟨e, -, rfl⟩ := List.mem_map.1 hm
    exact Json.numberFree_ofText e.2

/-- The fields of the record of a directory.  The hint may be left out if there is none. -/
inductive PathFields (p : AnonymousPath) : List (Text × Json) → Prop
  | all : PathFields p [("path".toList, .ofText p.path),
      ("prefix".toList, p.hint.elim .null .ofText), ("prefixHash".toList, .ofText p.hash)]
  | unhinted (h : p.hint = none) :
      PathFields p [("path".toList, .ofText p.path), ("prefixHash".toList, .ofText p.hash)]

/-- The value is an object for a directory, its fields in any order. -/
def WritesPath (p : AnonymousPath) (v : Json) : Prop :=
  ∃ listed fields members, PathFields p listed ∧ fields.Perm listed ∧
    Interleaved pathKeys fields members ∧ v = .object members

variable {p : AnonymousPath}

theorem writesPath_pathJson (p : AnonymousPath) : WritesPath p (pathJson p) :=
  ⟨_, _, _, .all, .refl _, interleaved_map _ _, rfl⟩

theorem path?_of_writesPath {v : Json} (h : WritesPath p v) : path? v = some p := by
  obtain ⟨listed, fields, members, hlisted, hperm, hmembers, rfl⟩ := h
  have hkeys : (listed.map Prod.fst).Nodup := by
    cases hlisted with
    | all => exact (by decide : pathKeys.Nodup)
    | unhinted => exact (by decide : ["path".toList, "prefixHash".toList].Nodup)
  have hnodup : (fields.map Prod.fst).Nodup := (hperm.map Prod.fst).nodup_iff.2 hkeys
  obtain ⟨field, hrecord, hfield⟩ := exists_record? hmembers hnodup
  have hvalue : ∀ k ∈ pathKeys, ∀ v, (k, v) ∈ listed → field k = some v := fun k hk v hv => by
    rw [hfield k hk, get?_map_of_mem hnodup (hperm.mem_iff.2 hv)]
  have hpath : field "path".toList = some (.ofText p.path) := by
    refine hvalue _ (by decide) _ ?_
    cases hlisted <;> simp
  have hhash : field "prefixHash".toList = some (.ofText p.hash) := by
    refine hvalue _ (by decide) _ ?_
    cases hlisted <;> simp
  have hhint : optional none nullable? (field "prefix".toList) = some p.hint := by
    cases hlisted with
    | all =>
      rw [hvalue "prefix".toList (by decide) (p.hint.elim .null .ofText) (by simp)]
      cases p.hint <;> rfl
    | unhinted hnone =>
      have hmiss : "prefix".toList ∉ fields.map Prod.fst := by
        rw [(hperm.map Prod.fst).mem_iff]
        exact (by decide : "prefix".toList ∉ ["path".toList, "prefixHash".toList])
      rw [hfield _ (by decide), get?_map_of_notMem hmiss, hnone]
      rfl
  rw [path?, hrecord]
  show ((field "path".toList).bind Json.text?).bind _ = _
  rw [hpath]
  show (optional none nullable? (field "prefix".toList)).bind _ = _
  rw [hhint]
  show ((field "prefixHash".toList).bind Json.text?).bind _ = _
  rw [hhash]
  rfl

theorem numberFree_of_writesPath {v : Json} (h : WritesPath p v) : v.NumberFree := by
  obtain ⟨listed, fields, members, hlisted, hperm, hmembers, rfl⟩ := h
  refine Json.numberFree_object (hmembers.numberFree fun e he => ?_)
  have hhint : Json.NumberFree (p.hint.elim .null .ofText) := by
    cases p.hint with
    | none => exact Json.numberFree_null
    | some t => exact Json.numberFree_ofText t
  have hlist : ∀ e ∈ listed, e.2.NumberFree := by
    cases hlisted with
    | all =>
      simp only [List.forall_mem_cons]
      exact ⟨Json.numberFree_ofText _, hhint, Json.numberFree_ofText _, List.forall_mem_nil _⟩
    | unhinted =>
      simp only [List.forall_mem_cons]
      exact ⟨Json.numberFree_ofText _, Json.numberFree_ofText _, List.forall_mem_nil _⟩
  exact hlist e (hperm.mem_iff.1 he)

theorem numberFree_paths {l : List AnonymousPath} {items : List Json}
    (h : List.Forall₂ WritesPath l items) : Json.NumberFree (.array items) := by
  refine Json.numberFree_array ?_
  induction h with
  | nil => exact List.forall_mem_nil _
  | cons hv _ ih => exact List.forall_mem_cons.2 ⟨numberFree_of_writesPath hv, ih⟩

theorem paths?_array {l : List AnonymousPath} {items : List Json}
    (h : List.Forall₂ WritesPath l items) : paths? (.array items) = some l := by
  show items.mapM path? = some l
  induction h with
  | nil => rfl
  | cons hv _ ih =>
    rw [List.mapM_cons, path?_of_writesPath hv, ih]
    rfl

/-! ## Fields of a configuration -/

/-- The fields of a configuration. -/
inductive Field where
  | aliases
  | namespaces
  | anonymousPaths
  | anonymousNamespaces
  | appNamespace
  | anonymousType
  | dynamicType
  | bagType
  | sanitizer
  | classHelper
  | styleHelper
deriving DecidableEq, Repr

namespace Field

/-- The fields in the order in which they are written. -/
def all : List Field :=
  [.aliases, .namespaces, .anonymousPaths, .anonymousNamespaces, .appNamespace, .anonymousType,
    .dynamicType, .bagType, .sanitizer, .classHelper, .styleHelper]

/-- The key under which a field is written. -/
def key : Field → Text
  | .aliases => "aliases".toList
  | .namespaces => "namespaces".toList
  | .anonymousPaths => "anonymousComponentPaths".toList
  | .anonymousNamespaces => "anonymousComponentNamespaces".toList
  | .appNamespace => "appNamespace".toList
  | .anonymousType => "anonymousComponentType".toList
  | .dynamicType => "dynamicComponentType".toList
  | .bagType => "attributeBagType".toList
  | .sanitizer => "sanitizer".toList
  | .classHelper => "classHelper".toList
  | .styleHelper => "styleHelper".toList

/-- The value that is written for a field. -/
def json (c : Config) : Field → Json
  | .aliases => tableJson c.aliases
  | .namespaces => tableJson c.namespaces
  | .anonymousPaths => .array (c.anonymousPaths.map pathJson)
  | .anonymousNamespaces => tableJson c.anonymousNamespaces
  | .appNamespace => .ofText c.appNamespace
  | .anonymousType => .ofText c.anonymousType
  | .dynamicType => .ofText c.dynamicType
  | .bagType => .ofText c.bagType
  | .sanitizer => .ofText c.sanitizer
  | .classHelper => .ofText c.classHelper
  | .styleHelper => .ofText c.styleHelper

/-- The value stands for a field of the configuration: it is the one that is written, up to
how the directories are. -/
def Writes (c : Config) : Field → Json → Prop
  | .anonymousPaths, v =>
    ∃ items, v = .array items ∧ List.Forall₂ WritesPath c.anonymousPaths items
  | f, v => v = f.json c

theorem mem_all (f : Field) : f ∈ all := by
  cases f <;> decide

theorem map_key_all : all.map key = Config.keys := rfl

theorem key_injective : Function.Injective key := fun f g h =>
  List.inj_on_of_nodup_map (by decide : (all.map key).Nodup) f.mem_all g.mem_all h

theorem key_mem_keys (f : Field) : f.key ∈ Config.keys :=
  map_key_all ▸ List.mem_map_of_mem f.mem_all

theorem writes_json (c : Config) (f : Field) : f.Writes c (f.json c) := by
  cases f with
  | anonymousPaths =>
    refine ⟨_, rfl, ?_⟩
    rw [List.forall₂_map_right_iff, List.forall₂_same]
    exact fun p _ => writesPath_pathJson p
  | _ => rfl

theorem numberFree_of_writes {c : Config} {f : Field} {v : Json} (h : f.Writes c v) :
    v.NumberFree := by
  cases f with
  | aliases | namespaces | anonymousNamespaces =>
    rw [show v = tableJson _ from h]
    exact numberFree_tableJson _
  | anonymousPaths =>
    obtain ⟨items, rfl, hitems⟩ := h
    exact numberFree_paths hitems
  | _ =>
    rw [show v = Json.ofText _ from h]
    exact Json.numberFree_ofText _

end Field

/-- The configuration with the fields `l` of the given one and the others as they are
standard. -/
def overlay (c : Config) (l : List Field) : Config where
  aliases := if .aliases ∈ l then c.aliases else standard.aliases
  namespaces := if .namespaces ∈ l then c.namespaces else standard.namespaces
  anonymousPaths := if .anonymousPaths ∈ l then c.anonymousPaths else standard.anonymousPaths
  anonymousNamespaces :=
    if .anonymousNamespaces ∈ l then c.anonymousNamespaces else standard.anonymousNamespaces
  appNamespace := if .appNamespace ∈ l then c.appNamespace else standard.appNamespace
  anonymousType := if .anonymousType ∈ l then c.anonymousType else standard.anonymousType
  dynamicType := if .dynamicType ∈ l then c.dynamicType else standard.dynamicType
  bagType := if .bagType ∈ l then c.bagType else standard.bagType
  sanitizer := if .sanitizer ∈ l then c.sanitizer else standard.sanitizer
  classHelper := if .classHelper ∈ l then c.classHelper else standard.classHelper
  styleHelper := if .styleHelper ∈ l then c.styleHelper else standard.styleHelper

theorem overlay_all (c : Config) : c.overlay Field.all = c := rfl

/-- No key of a table of the configuration is repeated. -/
structure Distinct (c : Config) : Prop where
  aliases : (c.aliases.map Prod.fst).Nodup
  namespaces : (c.namespaces.map Prod.fst).Nodup
  anonymousNamespaces : (c.anonymousNamespaces.map Prod.fst).Nodup

/-! ## Documents -/

/-- The fields are written in the given order. -/
abbrev WritesFields (c : Config) : List Field → List (Text × Json) → Prop :=
  List.Forall₂ fun f e => e.1 = f.key ∧ f.Writes c e.2

variable {c : Config} {l : List Field}

theorem keys_of_writesFields (h : WritesFields c l fields) :
    fields.map Prod.fst = l.map Field.key := by
  induction h with
  | nil => rfl
  | cons he _ ih => rw [List.map_cons, List.map_cons, he.1, ih]

theorem exists_of_writesFields (h : WritesFields c l fields) {f : Field} (hf : f ∈ l) :
    ∃ v, (f.key, v) ∈ fields ∧ f.Writes c v := by
  induction h with
  | nil => cases hf
  | @cons g e l fields he _ ih =>
    rcases List.mem_cons.1 hf with rfl | hf
    · exact ⟨e.2, by rw [← he.1]; exact List.mem_cons_self, he.2⟩
    · obtain ⟨v, hv, hw⟩ := ih hf
      exact ⟨v, List.mem_cons_of_mem _ hv, hw⟩

theorem numberFree_of_writesFields (h : WritesFields c l fields) :
    ∀ e ∈ fields, e.2.NumberFree := by
  induction h with
  | nil => exact List.forall_mem_nil _
  | cons he _ ih => exact List.forall_mem_cons.2 ⟨Field.numberFree_of_writes he.2, ih⟩

/-- The text is an object for the fields `l` of the configuration, in this order. -/
def IsDocument (c : Config) (l : List Field) (t : Text) : Prop :=
  ∃ fields members, WritesFields c l fields ∧ Interleaved keys fields members ∧
    Json.Spells (.object members) t

theorem toJson_eq (c : Config) :
    c.toJson =
      .object ((Field.all.map fun f => (f.key, f.json c)).map fun e => (some e.1, e.2)) := rfl

theorem isDocument_render (c : Config) : IsDocument c Field.all c.render := by
  refine ⟨_, _, ?_, interleaved_map _ _, toJson_eq c ▸ Json.spells_render c.toJson⟩
  rw [WritesFields, List.forall₂_map_right_iff, List.forall₂_same]
  exact fun f _ => ⟨rfl, f.writes_json c⟩

/-- A field that is looked up among the members of a document. -/
theorem optional_of_document {α : Type} {f : Field} {field : Text → Option Json} (get : Config → α)
    (read : Json → Option α) (hread : ∀ v, f.Writes c v → read v = some (get c))
    (hin : ∀ f ∈ l, ∃ v, field f.key = some v ∧ f.Writes c v)
    (hout : ∀ f ∉ l, field f.key = none) :
    optional (get standard) read (field f.key) =
      some (if f ∈ l then get c else get standard) := by
  by_cases hf : f ∈ l
  · obtain ⟨v, hv, hw⟩ := hin f hf
    rw [if_pos hf, hv]
    exact hread v hw
  · rw [if_neg hf, hout f hf]
    rfl

theorem bind_eq_some {α β : Type} {x : Option α} {f : α → Option β} {a : α} {b : β}
    (hx : x = some a) (hf : f a = some b) : (x >>= f) = some b :=
  Option.bind_eq_some_iff.2 ⟨a, hx, hf⟩

theorem ofJson?_of_writesFields (hc : c.Distinct) (hl : l.Nodup)
    (hfields : WritesFields c l fields) (hmembers : Interleaved keys fields members) :
    ofJson? (.object members) = some (c.overlay l) := by
  have hkeys := keys_of_writesFields hfields
  have hnodup : (fields.map Prod.fst).Nodup := hkeys ▸ hl.map Field.key_injective
  obtain ⟨field, hrecord, hfield⟩ := exists_record? hmembers hnodup
  have hin : ∀ f ∈ l, ∃ v, field f.key = some v ∧ f.Writes c v := fun f hf => by
    obtain ⟨v, hv, hw⟩ := exists_of_writesFields hfields hf
    exact ⟨v, by rw [hfield _ f.key_mem_keys, get?_map_of_mem hnodup hv], hw⟩
  have hout : ∀ f ∉ l, field f.key = none := fun f hf => by
    have hmiss : f.key ∉ fields.map Prod.fst := by
      rw [hkeys, List.mem_map_of_injective Field.key_injective]
      exact hf
    rw [hfield _ f.key_mem_keys, get?_map_of_notMem hmiss]
  have htext : ∀ {f : Field} (get : Config → Text), (∀ v, f.Writes c v → v = .ofText (get c)) →
      optional (get standard) Json.text? (field f.key) =
        some (if f ∈ l then get c else get standard) := fun get hwrites =>
    optional_of_document get _ (fun v hv => by rw [hwrites v hv]; rfl) hin hout
  have htable : ∀ {f : Field} (get : Config → List (Text × Text)),
      ((get c).map Prod.fst).Nodup → (∀ v, f.Writes c v → v = tableJson (get c)) →
      optional (get standard) table? (field f.key) =
        some (if f ∈ l then get c else get standard) := fun get hget hwrites =>
    optional_of_document get _ (fun v hv => by rw [hwrites v hv, table?_tableJson hget]) hin hout
  have haliases := htable (f := .aliases) Config.aliases hc.aliases fun _ h => h
  have hnamespaces := htable (f := .namespaces) Config.namespaces hc.namespaces fun _ h => h
  have hpaths := optional_of_document (f := .anonymousPaths) Config.anonymousPaths paths?
    (fun v ⟨_, hv, hitems⟩ => by rw [hv, paths?_array hitems]) hin hout
  have hanonymous := htable (f := .anonymousNamespaces) Config.anonymousNamespaces
    hc.anonymousNamespaces fun _ h => h
  have happ := htext (f := .appNamespace) Config.appNamespace fun _ h => h
  have htype := htext (f := .anonymousType) Config.anonymousType fun _ h => h
  have hdynamic := htext (f := .dynamicType) Config.dynamicType fun _ h => h
  have hbag := htext (f := .bagType) Config.bagType fun _ h => h
  have hsanitizer := htext (f := .sanitizer) Config.sanitizer fun _ h => h
  have hclass := htext (f := .classHelper) Config.classHelper fun _ h => h
  have hstyle := htext (f := .styleHelper) Config.styleHelper fun _ h => h
  exact bind_eq_some hrecord <| bind_eq_some haliases <| bind_eq_some hnamespaces <|
    bind_eq_some hpaths <| bind_eq_some hanonymous <| bind_eq_some happ <| bind_eq_some htype <|
    bind_eq_some hdynamic <| bind_eq_some hbag <| bind_eq_some hsanitizer <|
    bind_eq_some hclass <| bind_eq_some hstyle rfl

theorem read_of_isDocument (hc : c.Distinct) (hl : l.Nodup) {t : Text}
    (h : IsDocument c l t) : read t = .ok (c.overlay l) := by
  obtain ⟨fields, members, hfields, hmembers, ht⟩ := h
  have hfree : Json.NumberFree (.object members) :=
    Json.numberFree_object (hmembers.numberFree (numberFree_of_writesFields hfields))
  have hparse : parse? t = some (c.overlay l) :=
    bind_eq_some (Json.parse?_of_spells hfree ht) (ofJson?_of_writesFields hc hl hfields hmembers)
  rw [read, hparse]

/-- **Documents lay their fields over the standard configuration.**  A document for any
fields of a configuration without repeated keys, in any order, is read, and gives the
configuration with these fields and the standard values of the others; the tables and the
directories keep their order.  Members with unknown keys, white space, and hints of
directories that are left out make no difference.  In particular a configuration is read
back from the document for it. -/
theorem read_document {c : Config} (hc : c.Distinct) :
    (∀ (l : List Field) (t : Text), l.Nodup → IsDocument c l t →
        read t = .ok (c.overlay l)) ∧
      read c.render = .ok c := by
  refine ⟨fun l t hl ht => read_of_isDocument hc hl ht, ?_⟩
  have hall : Field.all.Nodup := by decide
  rw [read_of_isDocument hc hall (isDocument_render c), overlay_all]

/-- A configuration with characters that are escaped, and a directory without a hint. -/
def panelConfig : Config :=
  { standard with
    aliases := [("pan\"el".toList, "App\\Panel\n".toList), ("été".toList, "views.\t".toList)]
    anonymousPaths :=
      [⟨"/a".toList, none, "h1".toList⟩, ⟨"/b".toList, some "b".toList, "h2".toList⟩]
    sanitizer := "clean".toList }

/-- Three of its fields, with unknown keys among them. -/
def panelMembers : List (Option Text × Json) :=
  [(some "note".toList, .ofText "1".toList),
    (some "sanitizer".toList, .ofText "clean".toList),
    (some "anonymousComponentPaths".toList, .array
      [.object [(some "prefixHash".toList, .ofText "h1".toList),
          (some "note".toList, .ofText []), (some "path".toList, .ofText "/a".toList)],
        pathJson ⟨"/b".toList, some "b".toList, "h2".toList⟩]),
    (some "note".toList, .ofText "2".toList),
    (some "aliases".toList, tableJson panelConfig.aliases)]

/-- The document of these members, with white space before each token and at the end. -/
def panelText : Text :=
  Json.Token.spell
    ((Json.object panelMembers).tokens.map fun k => ⟨['\n', ' '], k, by decide⟩) ['\t']

theorem read_document_panel :
    panelConfig.Distinct ∧ [Field.sanitizer, .anonymousPaths, .aliases].Nodup ∧
      IsDocument panelConfig [.sanitizer, .anonymousPaths, .aliases] panelText ∧
      read panelText = .ok (panelConfig.overlay [.sanitizer, .anonymousPaths, .aliases]) ∧
      read panelConfig.render = .ok panelConfig := by
  have hc : panelConfig.Distinct := ⟨by decide, by decide, by decide⟩
  have hl : [Field.sanitizer, .anonymousPaths, .aliases].Nodup := by decide
  have hunhinted : WritesPath ⟨"/a".toList, none, "h1".toList⟩
      (.object [(some "prefixHash".toList, .ofText "h1".toList),
        (some "note".toList, .ofText []), (some "path".toList, .ofText "/a".toList)]) :=
    ⟨_, _, _, .unhinted rfl, .swap _ _ _, .field (.unknown (by decide) (.field .nil)), rfl⟩
  have ht : IsDocument panelConfig [.sanitizer, .anonymousPaths, .aliases] panelText := by
    refine ⟨_, panelMembers, ?_,
      .unknown (by decide) (.field (.field (.unknown (by decide) (.field .nil)))),
      _, _, ?_, ?_, rfl⟩
    · exact .cons ⟨rfl, rfl⟩ (.cons ⟨rfl, _, rfl, .cons hunhinted
        (.cons (writesPath_pathJson _) .nil)⟩ (.cons ⟨rfl, rfl⟩ .nil))
    · rw [List.map_map]
      exact List.map_id _
    · decide
  exact ⟨hc, hl, ht, (read_document hc).1 _ _ hl ht, (read_document hc).2⟩

end Config
end TemplateTags
