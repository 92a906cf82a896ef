import TemplateTags.Component.Resolve
import TemplateTags.Proofs.Text.Cut

/-!
# The candidates for a component

The search for an unregistered component tries several strategies one after the other, each
with a way of its own to take the name apart.  Seen from outside there is one list of types
and views, which depends on the configuration and the name alone, and the host decides which
of them is the first that exists.

`candidates` is that list, put together from what each strategy contributes:

* `namespaceCandidates`, at most one type, from the namespace registered under the hint;
* the conventional type;
* `pathCandidates`, for each directory of anonymous components;
* `placeCandidates`, for each registered view directory, and for the customary one.

A strategy finds what is the first to exist among its candidates (`find?_namespaceCandidates`
and the lemmas behind it).  `resolve_iff_candidates` is the statement for the whole search.
It needs that the hints of the directories hold no colon: otherwise the part of a name that
follows its first double colon is not what follows the hint.
-/

namespace TemplateTags
namespace Component

open Text (strip?)

/-- Whether the host knows the type or view.  A view that the host makes is not asked for. -/
def Target.existsIn (host : Host) : Target → Bool
  | .type n => host.hasType n
  | .view n => host.hasView n
  | .rawView _ => false

/-! ## The candidates of each strategy -/

/-- A view, and the index of the directory of its name. -/
def viewCandidates (view : Text) : List Target :=
  [.view view, .view (view ++ ".index".toList)]

/-- The part of a text before its first double colon, or all of it. -/
def upToHint (t : Text) : Text := ((splitHint? t).map Prod.fst).getD t

/-- The type in the namespace that is registered under the hint of the name. -/
def namespaceCandidates (config : Config) (name : Text) : List Target :=
  ((splitHint? name).bind fun s =>
    (Keyed.get? Prod.fst s.1 config.namespaces).map fun e =>
      Target.type (trimSeparators e.2 ++ ['\\'] ++ typeName (upToHint s.2))).toList

/-- The views below a directory of anonymous components.  A name without a hint is looked
for in every directory, a name with one only where its start is the hint of the directory. -/
def pathCandidates (name : Text) (path : AnonymousPath) : List Target :=
  if hintMark <:+: name then
    ((strip? (path.hintText ++ hintMark) name).map fun m =>
      viewCandidates (path.hash ++ hintMark ++ m)).getD []
  else viewCandidates (path.hash ++ hintMark ++ name)

/-- The views in the directory that is registered under a hint, for names with that hint. -/
def placeCandidates (name : Text) (place : Text × Text) : List Target :=
  ((strip? (place.1 ++ hintMark) name).map fun m =>
    viewCandidates (viewName m place.2)).getD []

/-- All that the name may stand for, in the order in which it is looked for. -/
def candidates (config : Config) (name : Text) : List Target :=
  namespaceCandidates config name ++
    .type (conventionalType config name) ::
      (config.anonymousPaths.flatMap (pathCandidates name) ++
        (config.anonymousNamespaces.flatMap (placeCandidates name) ++
          viewCandidates (viewName name customaryDirectory)))

/-! ## Each strategy finds the first of its candidates that exists -/

variable (config : Config) (host : Host) (name : Text)

theorem find?_namespaceCandidates :
    (namespaceCandidates config name).find? (·.existsIn host) =
      (namespacedType? config host name).map .type := by
  unfold namespaceCandidates namespacedType?
  cases splitHint? name with
  | none => rfl
  | some s =>
    cases hget : Keyed.get? Prod.fst s.1 config.namespaces with
    | none => simp [hget]
    | some e =>
      have hbase : (splitHint? s.2).elim s.2 Prod.fst = upToHint s.2 := by
        unfold upToHint
        cases splitHint? s.2 <;> rfl
      simp only [Option.bind_some, hget, Option.map_some, Option.toList_some, Option.bind_eq_bind,
        hbase, List.find?_singleton, Target.existsIn]
      split <;> rfl

theorem find?_conventional :
    [Target.type (conventionalType config name)].find? (·.existsIn host) =
      (conventionalType? config host name).map .type := by
  rw [List.find?_singleton, Target.existsIn, conventionalType?]
  split <;> rfl

theorem find?_viewCandidates (view : Text) :
    (viewCandidates view).find? (·.existsIn host) =
      (existingView? host view).map .view := by
  rw [viewCandidates, existingView?, List.find?_cons, Target.existsIn]
  cases host.hasView view with
  | true => rfl
  | false =>
    rw [List.find?_singleton, Target.existsIn]
    cases host.hasView (view ++ ".index".toList) <;> rfl

theorem find?_getD_viewCandidates (o : Option Text) (f : Text → Text) :
    ((o.map fun m => viewCandidates (f m)).getD []).find? (·.existsIn host) =
      (o.bind fun m => existingView? host (f m)).map .view := by
  cases o with
  | none => rfl
  | some m => exact find?_viewCandidates host (f m)

/-- What follows the hint of a directory is what follows the first double colon, if the
hint has no colon. -/
theorem nameInPath?_eq {path : AnonymousPath} (h : ':' ∉ path.hintText)
    (hname : hintMark <:+: name) :
    nameInPath? path name = strip? (path.hintText ++ hintMark) name := by
  rw [nameInPath?]
  cases hstrip : strip? (path.hintText ++ hintMark) name with
  | none =>
    rw [if_neg (by rw [Text.startsWith, hstrip]; exact Bool.false_ne_true),
      if_pos (Text.hasInfix_iff.2 hname)]
  | some m =>
    have hcut : Text.cut? hintMark (path.hintText ++ hintMark ++ m) = some (path.hintText, m) :=
      Text.cut?_append_of_notMem h _ m
    rw [if_pos (by rw [Text.startsWith, hstrip]; rfl), Text.strip?_eq_some_iff.1 hstrip,
      Text.after, if_neg (by decide : hintMark ≠ []), hcut]

theorem find?_pathCandidates {path : AnonymousPath} (h : ':' ∉ path.hintText) :
    (pathCandidates name path).find? (·.existsIn host) =
      (pathView? host name path).map .view := by
  rw [pathCandidates, pathView?]
  by_cases hname : hintMark <:+: name
  · rw [if_pos hname, find?_getD_viewCandidates, nameInPath?_eq name h hname]
    rfl
  · have hpath : nameInPath? path name = some name := by
      rw [nameInPath?, if_neg, if_neg (mt Text.hasInfix_iff.1 hname)]
      intro hstart
      have hinfix := (Text.startsWith_iff.1 hstart).isInfix
      exact hname ((List.suffix_append _ _).isInfix.trans hinfix)
    rw [if_neg hname, find?_viewCandidates, hpath]
    rfl

theorem find?_placeCandidates (place : Text × Text) :
    (placeCandidates name place).find? (·.existsIn host) =
      ((strip? (place.1 ++ hintMark) name).bind fun m =>
        existingView? host (viewName m place.2)).map .view :=
  find?_getD_viewCandidates host _ _

/-! ## The search -/

theorem find?_flatMap_pathCandidates
    (h : ∀ path ∈ config.anonymousPaths, ':' ∉ path.hintText) :
    (config.anonymousPaths.flatMap (pathCandidates name)).find? (·.existsIn host) =
      (config.anonymousPaths.findSome? (pathView? host name)).map .view := by
  generalize config.anonymousPaths = paths at h
  induction paths with
  | nil => rfl
  | cons path paths ih =>
    rw [List.flatMap_cons, List.find?_append, List.findSome?_cons,
      ih fun p hp => h p (List.mem_cons_of_mem _ hp),
      find?_pathCandidates host name (h path (List.mem_cons_self ..))]
    cases pathView? host name path <;> rfl

theorem find?_flatMap_placeCandidates :
    (config.anonymousNamespaces.flatMap (placeCandidates name) ++
        viewCandidates (viewName name customaryDirectory)).find? (·.existsIn host) =
      ((viewPlaces config name).findSome? fun p =>
        existingView? host (viewName p.1 p.2)).map .view := by
  rw [viewPlaces]
  induction config.anonymousNamespaces with
  | nil =>
    show (viewCandidates _).find? _ = _
    rw [find?_viewCandidates, List.filterMap_nil, List.nil_append, List.findSome?_singleton]
  | cons place places ih =>
    rw [List.flatMap_cons, List.append_assoc, List.find?_append, ih, find?_placeCandidates,
      List.filterMap_cons]
    cases strip? (place.1 ++ hintMark) name with
    | none => rfl
    | some m =>
      rw [Option.map_some, List.cons_append, List.findSome?_cons, Option.bind_some]
      cases existingView? host (viewName m place.2) <;> rfl

/-- The search finds the first candidate that exists, or else the name itself if it is handed
to the host. -/
theorem search?_eq (h : ∀ path ∈ config.anonymousPaths, ':' ∉ path.hintText) :
    (search? config host name).map Resolution.target =
      ((candidates config name).find? (·.existsIn host)).or (rawView? name) := by
  have hviews : ((anonymousView? config host name).map Target.view) =
      (config.anonymousPaths.flatMap (pathCandidates name) ++
        (config.anonymousNamespaces.flatMap (placeCandidates name) ++
          viewCandidates (viewName name customaryDirectory))).find? (·.existsIn host) := by
    rw [List.find?_append, find?_flatMap_pathCandidates config host name h,
      find?_flatMap_placeCandidates, anonymousView?, Option.map_or]
  rw [candidates, List.find?_append, ← List.singleton_append, List.find?_append,
    find?_namespaceCandidates, find?_conventional, ← hviews, search?]
  simp only [Option.map_or, Option.map_map, Function.comp_def, Option.map_id', Option.or_assoc]

/-- **The first candidate that exists is the one that is taken.**  A registered name stands
for the type or else the view under which it is registered, and for nothing else.  Any other
name stands for the first of its candidates that exists; if there is none, it stands for
itself if its hint is `mail`, and for nothing otherwise. -/
theorem resolve_iff_candidates (h : ∀ path ∈ config.anonymousPaths, ':' ∉ path.hintText) :
    (∀ key a, Keyed.get? Prod.fst name config.aliases = some (key, a) →
      (resolve config host name).map Resolution.target =
        if host.hasType a then .ok (.type a)
        else if host.hasView a then .ok (.view a)
        else .error (.unresolvedAlias a name none)) ∧
    (Keyed.get? Prod.fst name config.aliases = none →
      (∀ t, (candidates config name).find? (·.existsIn host) = some t →
        (resolve config host name).map Resolution.target = .ok t) ∧
      ((candidates config name).find? (·.existsIn host) = none →
        (resolve config host name).map Resolution.target =
          if "mail::".toList <+: name then .ok (.rawView name)
          else .error (.unresolvedComponent name none))) := by
  constructor
  · intro key a ha
    rw [resolve, ha]
    dsimp only
    rw [aliasTarget?]
    cases host.hasType a with
    | true => rfl
    | false => cases host.hasView a <;> rfl
  · intro hnone
    have hsearch := search?_eq config host name h
    have hresolve : (resolve config host name).map Resolution.target =
        ((search? config host name).map Resolution.target).elim
          (.error (.unresolvedComponent name none)) .ok := by
      rw [resolve, hnone]
      dsimp only
      cases search? config host name <;> rfl
    constructor
    · intro t ht
      rw [hresolve, hsearch, ht]
      rfl
    · intro hfind
      rw [hresolve, hsearch, hfind, Option.none_or, rawView?]
      by_cases hmail : rawHint <+: name
      · rw [if_pos (Text.startsWith_iff.2 hmail)]
        exact (if_pos hmail).symm
      · rw [if_neg (mt Text.startsWith_iff.1 hmail)]
        exact (if_neg hmail).symm

/-- A configuration in which one hint belongs to a type namespace, to a directory and to a
view directory. -/
def adminConfig : Config :=
  { Config.standard with
    namespaces := [("admin".toList, "Admin\\Ui\\".toList)]
    anonymousPaths := [⟨"/ui".toList, none, "a1".toList⟩,
      ⟨"/admin".toList, some "admin".toList, "c3".toList⟩]
    anonymousNamespaces := [("admin".toList, "panel".toList)] }

/-- A host without types that knows three views for the same name. -/
def adminHost : Host :=
  Host.ofTables []
    ["admin::components.table".toList, "panel.table".toList, "c3::table.index".toList]

theorem resolve_iff_candidates_admin :
    (∀ path ∈ adminConfig.anonymousPaths, ':' ∉ path.hintText) ∧
      candidates adminConfig "admin::table".toList =
        [.type "Admin\\Ui\\Table".toList,
          .type "App\\View\\Components\\Admin::table".toList,
          .view "c3::table".toList, .view "c3::table.index".toList,
          .view "panel.table".toList, .view "panel.table.index".toList,
          .view "admin::components.table".toList,
          .view "admin::components.table.index".toList] ∧
      (resolve adminConfig adminHost "admin::table".toList).map Resolution.target =
        .ok (.view "c3::table.index".toList) := by
  have hpaths : ∀ path ∈ adminConfig.anonymousPaths, ':' ∉ path.hintText := by decide
  exact ⟨hpaths, by decide +kernel,
    ((resolve_iff_candidates adminConfig adminHost "admin::table".toList hpaths).2 rfl).1 _
      (by decide +kernel)⟩

end Component
end TemplateTags
