import TemplateTags.Attribute.Parse
import TemplateTags.Proofs.Attribute.Passes

/-!
# Expanded attribute text

When all shorthands are expanded, attribute text consists of names with and without values.
The last expansion writes `bind:` for the single colon before the name of a binding.

* `Entry.canonical` is what the four expansions make of an entry, and `expand_write` says that
  they make this of each entry of attribute text.
* `Token.ofText_write` says that the tokens of such a text are its entries, in order.
-/

namespace TemplateTags
namespace Attribute

open Text (Stops Spaced strip? strip?_append strip?_eq_some_iff)
open Attribute.Run (Unvalued unvalued_of_notMem)

variable {w n p u t : Text} {l : List Entry}

/-! ## Bindings -/

theorem findColonBinding?_of_head? (h : t.head? ≠ some ':') : findColonBinding? t = none := by
  have hs : strip? [':'] t = none := strip?_of_not_isPrefix fun ⟨r, hr⟩ => h (by rw [← hr]; rfl)
  rw [findColonBinding?, hs]
  rfl

theorem colonBinding_tight : colonBinding.Tight := by
  intro c t hc
  refine findColonBinding?_of_head? fun h => ?_
  cases h
  exact absurd hc (by decide)

/-- What is found at a colon depends on the name behind it. -/
theorem findColonBinding?_cons {r : Text}
    (hname : ∀ c ∈ n, Character.isAttributeNameUnicode c = true)
    (hr : Stops Character.isAttributeNameUnicode r) :
    findColonBinding? (':' :: (n ++ r)) =
      if n = [] ∨ n.head? = some ':' then none
      else (strip? ['='] r).map fun k => ⟨':' :: n ++ ['='], bindMark ++ n ++ ['='], k⟩ := by
  rw [findColonBinding?, show strip? [':'] (':' :: (n ++ r)) = some (n ++ r) from rfl]
  simp only [Option.bind_eq_bind, Option.bind_some, Text.takeWhile_of_stops hname hr,
    Text.dropWhile_of_stops hname hr]
  split
  · rfl
  · cases strip? ['='] r <;> rfl

/-- A name with a single colon before it. -/
def IsColonName (n : Text) : Prop := ∃ d m, n = ':' :: d :: m ∧ d ≠ ':'

theorem findColonBinding?_of_isColonName {d : Char} {m : Text} (hn : IsName (':' :: d :: m))
    (hd : d ≠ ':') (r : Text) :
    findColonBinding? (':' :: d :: m ++ '=' :: r) =
      some ⟨':' :: d :: m ++ ['='], bindMark ++ d :: m ++ ['='], r⟩ := by
  have hm : ∀ c ∈ d :: m, Character.isAttributeNameUnicode c = true := fun c hc =>
    Character.isAttributeNameUnicode_of_isAttributeName (hn.chars c (List.mem_cons_of_mem _ hc))
  have hstop : Stops Character.isAttributeNameUnicode ('=' :: r) := Text.stops_cons.2 (by decide)
  have hcons := findColonBinding?_cons hm hstop
  rw [if_neg (by simp [hd])] at hcons
  exact hcons

theorem findColonBinding?_eq_none {r : Text} (hn : IsName n)
    (hr : Stops Character.isAttributeNameUnicode r) (h : r.head? = some '=' → ¬ IsColonName n) :
    findColonBinding? (n ++ r) = none := by
  match n, hn with
  | [], hn => exact absurd rfl hn.ne_nil
  | c :: n, hn =>
    by_cases hc : c = ':'
    · subst hc
      rw [List.cons_append,
        findColonBinding?_cons (fun d hd => Character.isAttributeNameUnicode_of_isAttributeName
          (hn.chars d (List.mem_cons_of_mem _ hd))) hr]
      split
      · rfl
      · next hcond =>
        -- the name would be one with a single colon, if an equals sign came behind it
        have hs : strip? ['='] r = none := by
          refine strip?_of_not_isPrefix fun ⟨k, hk⟩ => ?_
          refine h (by rw [← hk]; rfl) ?_
          cases n with
          | nil => exact absurd (Or.inl rfl) hcond
          | cons d m => exact ⟨d, m, rfl, fun he => hcond (Or.inr (by rw [he]; rfl))⟩
        rw [hs]
        rfl
    · exact findColonBinding?_of_head? fun he => hc (Option.some.inj he)

/-- What the expansion of bindings makes of an entry. -/
def Entry.expandColon : Entry → Entry
  | ⟨w, .assigned (':' :: d :: m) v⟩ =>
    if d = ':' then ⟨w, .assigned (':' :: d :: m) v⟩
    else ⟨colonBinding.spaceBefore w, .assigned (bindMark ++ d :: m) v⟩
  | e => e

theorem Entry.expandColon_of_not {v : Written} (h : ¬ IsColonName n) :
    Entry.expandColon ⟨w, .assigned n v⟩ = ⟨w, .assigned n v⟩ := by
  match n with
  | [] => rfl
  | [c] => by_cases hc : c = ':' <;> simp [Entry.expandColon, hc]
  | c :: d :: m =>
    by_cases hc : c = ':'
    · subst hc
      by_cases hd : d = ':'
      · rw [Entry.expandColon, if_pos hd]
      · exact absurd ⟨d, m, rfl, hd⟩ h
    · unfold Entry.expandColon
      split
      · next heq =>
        cases heq
        exact absurd rfl hc
      · rfl

/-- The spelling is a name with or without a value. -/
def Spelling.IsNamed : Spelling → Prop
  | .valueless _ => True
  | .assigned _ _ => True
  | _ => False

theorem colonBinding_expand_entry (e : Entry) (u : Text) (he : e.WellFormed)
    (hnamed : e.spelling.IsNamed) (hu : Spaced u) :
    colonBinding.expand (e.space ++ (e.spelling.print ++ u)) =
      e.expandColon.space ++ (e.expandColon.spelling.print ++ colonBinding.expand u) := by
  obtain ⟨w, sp⟩ := e
  obtain ⟨hne, hspace, hsp⟩ := he
  have hw : ∀ c ∈ w, Character.isSpace c = true := hspace
  cases hsp with
  | @valueless n hn =>
    refine Shorthand.expand_solid colonBinding_tight hne hw
      (unvalued_of_notMem (hn.notMem (by decide))) hn.ne_nil hn.solid hu fun p hp => ?_
    refine findColonBinding?_eq_none hn
      (hp.stops fun _ => Character.not_isAttributeNameUnicode_of_isSpace) fun h => ?_
    exact absurd h (head?_ne_of_spaced hp (by decide))
  | @assigned n v hn hv =>
    by_cases hcolon : IsColonName n
    · obtain ⟨d, m, rfl, hd⟩ := hcolon
      have hentry : Entry.expandColon ⟨w, .assigned (':' :: d :: m) v⟩ =
          ⟨colonBinding.spaceBefore w, .assigned (bindMark ++ d :: m) v⟩ := by
        rw [Entry.expandColon, if_neg hd]
      rw [hentry]
      refine Shorthand.expand_assigned colonBinding_tight hne hw hn hv hu fun r => ?_
      have hstop : Stops Character.isWhiteSpace (':' :: d :: m ++ '=' :: r) :=
        Text.stops_cons.2 (by decide)
      rw [Shorthand.replace_found colonBinding_tight hne hw hstop
        (findColonBinding?_of_isColonName hn hd r)]
      simp
    · rw [Entry.expandColon_of_not hcolon]
      refine Shorthand.expand_assigned colonBinding_tight hne hw hn hv hu ?_
      refine Shorthand.replace_name colonBinding_tight hw hn fun r => ?_
      exact findColonBinding?_eq_none hn (Text.stops_cons.2 (by decide)) fun _ => hcolon
  | short hnne hn => exact hnamed.elim
  | helper h hg hval hshort hbag => exact hnamed.elim
  | bag hw' hb hword hquote hval hshort => exact hnamed.elim

/-! ## All expansions -/

section WellFormed

variable {e : Entry}

theorem notMem_singleQuoted_quote (t : Text) : '"' ∉ singleQuoted t := by
  intro hm
  obtain ⟨c, -, hc⟩ := List.mem_map.1 hm
  split at hc
  · cases hc
  · next hne => exact hne hc

/-- The value of a short binding. -/
theorem Written.WellFormed.shortValue (hn : ∀ c ∈ n, Character.isWord c = true) :
    (Written.quoted '"' ('$' :: n)).WellFormed := by
  refine .quoted (by decide) ?_
  rw [List.mem_cons, not_or]
  exact ⟨by decide, Text.notMem_of_forall hn (by decide)⟩

/-- The value of an echo of the bag. -/
theorem Written.WellFormed.bagValue {b : Text} (hb : '"' ∉ b) :
    (Written.quoted '"' (bagVariable ++ Text.trimEnd b)).WellFormed := by
  refine .quoted (by decide) ?_
  rw [List.mem_append, not_or]
  exact ⟨by decide, fun hm => hb (Text.mem_of_mem_trimEnd hm)⟩

/-- The value of a helper. -/
theorem Written.WellFormed.helperValue {f : Text} (hf : '"' ∉ f) (g : Text) :
    (Written.quoted '"' (f ++ singleQuoted g)).WellFormed := by
  refine .quoted (by decide) ?_
  rw [List.mem_append, not_or]
  exact ⟨hf, notMem_singleQuoted_quote g⟩

/-- A shorthand that is replaced by a name with a value. -/
theorem Entry.WellFormed.replaced (he : e.WellFormed) (s : Shorthand) {v : Written}
    (hn : IsName n) (hv : v.WellFormed) :
    Entry.WellFormed ⟨s.spaceBefore e.space, .assigned n v⟩ where
  ne_nil := s.spaceBefore_ne_nil e.space
  space := Shorthand.isSpace_of_mem_spaceBefore he.space
  spelling := .assigned hn hv

theorem Entry.WellFormed.expandShort (he : e.WellFormed) : e.expandShort.WellFormed := by
  obtain ⟨w, sp⟩ := e
  cases sp with
  | short n =>
    cases he.spelling with
    | short hne hn =>
      exact he.replaced shortBinding
        (IsName.cons (fun c hc => Character.isAttributeName_of_isWord (hn c hc)) (by decide))
        (.shortValue hn)
  | valueless n => exact he
  | assigned n v => exact he
  | helper h g => exact he
  | bag w b => exact he

theorem Entry.WellFormed.expandBag (he : e.WellFormed) : e.expandBag.WellFormed := by
  obtain ⟨w, sp⟩ := e
  cases sp with
  | bag w' b =>
    cases he.spelling with
    | bag hw hb hword hquote hval hshort =>
      exact he.replaced bagEcho (IsName.cons (by decide) (by decide)) (.bagValue hquote)
  | valueless n => exact he
  | assigned n v => exact he
  | short n => exact he
  | helper h g => exact he

theorem Entry.WellFormed.expandHelper {callee : Helper → Text} (hc : ∀ h, '"' ∉ callee h)
    (he : e.WellFormed) : (e.expandHelper callee).WellFormed := by
  obtain ⟨w, sp⟩ := e
  cases sp with
  | helper h g =>
    refine ⟨he.ne_nil, he.space, ?_⟩
    exact .assigned (IsName.cons (by cases h <;> decide) (by decide)) (.helperValue (hc h) g)
  | valueless n => exact he
  | assigned n v => exact he
  | short n => exact he
  | bag w b => exact he

theorem Entry.WellFormed.expandColon (he : e.WellFormed) : e.expandColon.WellFormed := by
  unfold Entry.expandColon
  split
  · next w d m v =>
    split
    · exact he
    · cases he.spelling with
      | assigned hn hv =>
        refine he.replaced colonBinding ⟨by simp, fun c hc => ?_⟩ hv
        rcases List.mem_append.1 hc with hc | hc
        · exact (by decide : ∀ c ∈ bindMark, Character.isAttributeName c = true) c hc
        · exact hn.chars c (List.mem_cons_of_mem _ hc)
  · exact he

end WellFormed

/-- What the four expansions make of an entry. -/
def Entry.canonical (callee : Helper → Text) (e : Entry) : Entry :=
  (e.expandShort.expandBag.expandHelper callee).expandColon

variable (callee : Helper → Text)

theorem Entry.expandShort_expandBag_ne_bag (e : Entry) (w b : Text) :
    e.expandShort.expandBag.spelling ≠ .bag w b := by
  obtain ⟨w', sp⟩ := e
  cases sp <;> simp [Entry.expandShort, Entry.expandBag]

theorem Entry.isNamed_expandHelper (e : Entry) :
    (e.expandShort.expandBag.expandHelper callee).spelling.IsNamed := by
  obtain ⟨w, sp⟩ := e
  cases sp <;> exact trivial

theorem Entry.WellFormed.canonical {e : Entry} (hc : ∀ h, '"' ∉ callee h)
    (he : e.WellFormed) : (e.canonical callee).WellFormed :=
  (he.expandShort.expandBag.expandHelper hc).expandColon

section Write

variable (hl : ∀ e ∈ l, e.WellFormed) (ht : ∀ c ∈ t, Character.isSpace c = true)

include hl ht

theorem shortBinding_expand_write :
    shortBinding.expand (write l t) = write (l.map Entry.expandShort) t :=
  map_write (fun e u he _ hu => shortBinding_expand_entry e u he hu) ht
    (Shorthand.expand_space shortBinding_tight ht) hl fun _ _ => trivial

theorem bagEcho_expand_write :
    bagEcho.expand (write l t) = write (l.map Entry.expandBag) t :=
  map_write (fun e u he _ hu => bagEcho_expand_entry e u he hu) ht
    (Shorthand.expand_space bagEcho_tight ht) hl fun _ _ => trivial

theorem expandHelpers_write (hbag : ∀ e ∈ l, ∀ w b, e.spelling ≠ .bag w b) :
    expandHelpers callee (write l t) = write (l.map (Entry.expandHelper callee)) t := by
  have hend : expandHelpers callee t = t := by
    have h := expandHelpers_space callee ht (Text.stops_nil (p := Character.isQuote))
    rw [List.append_nil, expandHelpers_nil, List.append_nil] at h
    exact h
  exact map_write (fun e u he hP hu => expandHelpers_entry callee e u he hP hu) ht hend hl hbag

theorem colonBinding_expand_write (hnamed : ∀ e ∈ l, e.spelling.IsNamed) :
    colonBinding.expand (write l t) = write (l.map Entry.expandColon) t :=
  map_write (fun e u he hP hu => colonBinding_expand_entry e u he hP hu) ht
    (Shorthand.expand_space colonBinding_tight ht) hl hnamed

/-- **Attribute text is expanded entry by entry.** -/
theorem expand_write (hc : ∀ h, '"' ∉ callee h) :
    expand callee (write l t) = write (l.map (Entry.canonical callee)) t := by
  have hshort : ∀ e ∈ l.map Entry.expandShort, e.WellFormed :=
    List.forall_mem_map.2 fun e he => (hl e he).expandShort
  have hbag : ∀ e ∈ (l.map Entry.expandShort).map Entry.expandBag, e.WellFormed :=
    List.forall_mem_map.2 fun e he => (hshort e he).expandBag
  have hhelper : ∀ e ∈ ((l.map Entry.expandShort).map Entry.expandBag).map
      (Entry.expandHelper callee), e.WellFormed :=
    List.forall_mem_map.2 fun e he => (hbag e he).expandHelper hc
  rw [expand, shortBinding_expand_write hl ht, bagEcho_expand_write hshort ht,
    expandHelpers_write callee hbag ht, colonBinding_expand_write hhelper ht]
  · simp only [List.map_map]
    rfl
  · rw [List.map_map, List.map_map]
    exact List.forall_mem_map.2 fun e _ => e.isNamed_expandHelper callee
  · rw [List.map_map]
    exact List.forall_mem_map.2 fun e _ => e.expandShort_expandBag_ne_bag

end Write

/-! ## Tokens -/

/-- The token of a name with or without a value. -/
def Spelling.token : Spelling → Token
  | .assigned n v => ⟨n, some v.print⟩
  | s => ⟨s.print, none⟩

namespace Token

/-- Characters that cannot stand in a name are passed over. -/
theorem ofText_skip (hw : ∀ c ∈ w, Character.isAttributeName c = false) (u : Text) :
    ofText (w ++ u) = ofText u := by
  induction w with
  | nil => rfl
  | cons c w ih =>
    rw [List.cons_append, ofText, hw c (List.mem_cons_self ..), if_neg Bool.false_ne_true,
      ih fun d hd => hw d (List.mem_cons_of_mem _ hd)]

theorem ofText_space (hw : ∀ c ∈ w, Character.isSpace c = true) (u : Text) :
    ofText (w ++ u) = ofText u :=
  ofText_skip (fun c hc => Character.not_isAttributeName_of_isSpace (hw c hc)) u

theorem ofText_name {r : Text} (hn : IsName n) (hr : Stops Character.isAttributeName r) :
    ofText (n ++ r) = ⟨n, (assigned r).1⟩ :: ofText (assigned r).2 := by
  match n, hn with
  | [], hn => exact absurd rfl hn.ne_nil
  | c :: n, hn =>
    have hrest : ∀ d ∈ n, Character.isAttributeName d = true := fun d hd =>
      hn.chars d (List.mem_cons_of_mem _ hd)
    rw [List.cons_append, ofText, if_pos (hn.chars c (List.mem_cons_self ..)),
      Text.takeWhile_of_stops hrest hr, Text.dropWhile_of_stops hrest hr]

theorem stops_isRunChar (hu : Spaced u) : Stops isRunChar u :=
  hu.stops fun c hc => by simp [isRunChar, hc]

theorem runValue?_of_stops {v r : Text} (hne : v ≠ []) (hv : ∀ c ∈ v, isRunChar c = true)
    (hr : Stops isRunChar r) : runValue? (v ++ r) = some (v, r) := by
  rw [runValue?, Text.takeWhile_of_stops hv hr, Text.dropWhile_of_stops hv hr, if_neg hne]

/-- A run of characters in front of spaced text. -/
theorem runValue?_append {v : Text} (hne : v ≠ []) (hv : ∀ c ∈ v, isRunChar c = true)
    (hu : Spaced u) : runValue? (v ++ u) = some (v, u) :=
  runValue?_of_stops hne hv (stops_isRunChar hu)

theorem quotedValue?_quoted {q : Char} {v : Text} (hq : Character.isQuote q = true)
    (hne : v ≠ []) (hv : q ∉ v) (u : Text) :
    quotedValue? (q :: v ++ [q] ++ u) = some (q :: v ++ [q], u) := by
  have htext : q :: v ++ [q] ++ u = q :: (v ++ q :: u) := by simp
  rw [htext, quotedValue?, Text.takeWhile_of_notMem hv, Text.dropWhile_of_notMem hv,
    if_pos ⟨hq, hne⟩]
  show (strip? [q] ([q] ++ u)).map _ = _
  rw [strip?_append]
  rfl

theorem isRunChar_of_isQuote {q : Char} (hq : Character.isQuote q = true) :
    isRunChar q = true := by
  rcases Character.isQuote_iff.1 hq with rfl | rfl
  · decide
  · decide

theorem value?_written {v : Written} (hv : v.WellFormed) (hu : Spaced u) :
    value? (v.print ++ u) = some (v.print, u) := by
  cases hv with
  | @quoted q v hq hv =>
    by_cases hne : v = []
    · -- two quotes with nothing between them are read as a run
      have hnone : quotedValue? (q :: [] ++ [q] ++ u) = none := by
        show quotedValue? (q :: q :: u) = none
        rw [quotedValue?, if_neg]
        rintro ⟨-, h⟩
        exact h (by simp)
      have hchars : ∀ c ∈ [q, q], isRunChar c = true := by
        intro c hc
        have hcq : c = q := by simpa using hc
        rw [hcq]
        exact isRunChar_of_isQuote hq
      subst hne
      show (quotedValue? (q :: [] ++ [q] ++ u)).or (runValue? ([q, q] ++ u)) = _
      rw [hnone, runValue?_append (by simp) hchars hu]
      rfl
    · show (quotedValue? (q :: v ++ [q] ++ u)).or _ = _
      rw [quotedValue?_quoted hq hne hv]
      rfl
  | @bare v hne hv hsolid hat =>
    have hchars : ∀ c ∈ v, isRunChar c = true ∧ Character.isQuote c = false := by
      intro c hc
      have hbare := hv c hc
      simp only [Character.isBareValue, Bool.and_eq_true, Bool.not_eq_true'] at hbare
      obtain ⟨⟨⟨⟨hspace, hquote⟩, -⟩, -⟩, hgt⟩ := hbare
      exact ⟨by simp [isRunChar, hspace, hgt], hquote⟩
    have hnone : quotedValue? (v ++ u) = none := by
      cases v with
      | nil => exact absurd rfl hne
      | cons c v =>
        have hc := (hchars c (List.mem_cons_self ..)).2
        rw [List.cons_append, quotedValue?, if_neg]
        rintro ⟨h, -⟩
        rw [hc] at h
        cases h
    show (quotedValue? (v ++ u)).or (runValue? (v ++ u)) = _
    rw [hnone, runValue?_append hne (fun c hc => (hchars c hc).1) hu]
    rfl

theorem assigned_written {v : Written} (hv : v.WellFormed) (hu : Spaced u) :
    assigned ('=' :: v.print ++ u) = (some v.print, u) := by
  rw [assigned, show strip? ['='] ('=' :: v.print ++ u) = some (v.print ++ u) from rfl]
  simp only [value?_written hv hu]

end Token

end Attribute
end TemplateTags
