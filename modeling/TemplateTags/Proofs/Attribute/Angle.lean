import TemplateTags.Attribute.Expand
import TemplateTags.Attribute.Parse
import TemplateTags.Proofs.Attribute.Listing
import TemplateTags.Proofs.Attribute.Passes
import TemplateTags.Proofs.Echo.Printing

/-!
# Attributes bring no angle brackets of their own

Nothing that is done to attribute text writes an opening angle bracket: expanding shorthands
copies the text, or writes bindings made of parts of it and of the names of the helpers;
tokens are parts of the text; and an attribute is a part of a token with quotes, escapes and
echoes around it.  So the attributes of a tag contain `<` only if its attribute text does, or
a name that the compiler was given.

The statements follow the way of the text:

* `Attribute.notMem_expand`: expanding shorthands;
* `Attribute.Token.infix_of_mem_ofText`: tokens are parts of the text;
* `Echo.notMem_stringLiteral`: literal text with its echoes;
* `Attribute.Listing.angleFree_ofTokens`: the attributes.
-/

namespace TemplateTags

open Text (strip? strip?_eq_some_iff)

/-! ## Expanding shorthands -/

namespace Shorthand

variable (s : Shorthand) {x : Char}

theorem notMem_replace (hx : x ≠ ' ')
    (hs : ∀ t f, s.find? t = some f → x ∉ t → x ∉ f.written) {t : Text} (h : x ∉ t) :
    x ∉ s.replace t := by
  fun_induction replace s t with
  | case1 => exact h
  | case2 c t hc f hf ih =>
    have ht : x ∉ t := fun hm => h (List.mem_cons_of_mem _ hm)
    have hspace : x ∉ s.afterSpace t := by
      unfold afterSpace
      split
      · exact fun hm => ht ((List.dropWhile_suffix _).subset hm)
      · exact ht
    have hrest : x ∉ f.rest := by
      rw [(s.eq_of_find? hf).1] at hspace
      exact fun hm => hspace (List.mem_append_right _ hm)
    simp only [List.cons_append, List.mem_cons, List.mem_append, not_or]
    exact ⟨hx, hs _ f hf hspace, ih hrest⟩
  | case3 c t hc hf ih =>
    simp only [List.mem_cons, not_or] at h ⊢
    exact ⟨h.1, ih h.2⟩
  | case4 c t hc ih =>
    simp only [List.mem_cons, not_or] at h ⊢
    exact ⟨h.1, ih h.2⟩

theorem notMem_expandRun (hx : x ≠ ' ')
    (hs : ∀ t f, s.find? t = some f → x ∉ t → x ∉ f.written) (first : Bool)
    {r : Attribute.Run} (h : x ∉ r.content) : x ∉ s.expandRun first r := by
  cases r with
  | quoted t => exact h
  | plain t =>
    have ht : x ∉ t := h
    show x ∉ s.expandPlain first t
    unfold expandPlain
    split
    · next f hf =>
      have hfind : s.find? t = some f := by
        unfold findStart? at hf
        split at hf
        · exact hf
        · exact absurd hf (by simp)
      have htaken := ht
      rw [(s.eq_of_find? hfind).1, List.mem_append, not_or] at htaken
      rw [List.mem_append, not_or]
      refine ⟨?_, s.notMem_replace hx hs htaken.2⟩
      split
      · rw [List.mem_cons, not_or]
        exact ⟨hx, hs t f hfind ht⟩
      · exact htaken.1
    · exact s.notMem_replace hx hs ht

/-- A shorthand brings no character that it does not write. -/
theorem notMem_expand (hx : x ≠ ' ')
    (hs : ∀ t f, s.find? t = some f → x ∉ t → x ∉ f.written) {t : Text} (h : x ∉ t) :
    x ∉ s.expand t := by
  have hruns : ∀ r ∈ Attribute.Run.ofText t, x ∉ r.content := by
    intro r hr hm
    rw [← Attribute.Run.flatMap_content_ofText t] at h
    exact h (List.mem_flatMap.2 ⟨r, hr, hm⟩)
  unfold expand
  split
  · simp
  · next r l hl =>
    rw [hl] at hruns
    rw [List.mem_append, not_or]
    refine ⟨s.notMem_expandRun hx hs true (hruns r (List.mem_cons_self ..)), fun hm => ?_⟩
    obtain ⟨r', hr', hm⟩ := List.mem_flatMap.1 hm
    exact s.notMem_expandRun hx hs false (hruns r' (List.mem_cons_of_mem _ hr')) hm

end Shorthand

namespace Attribute

theorem notMem_binding {n e : Text} (hn : '<' ∉ n) (he : '<' ∉ e) : '<' ∉ binding n e := by
  simp [binding, hn, he]

theorem notMem_of_findShortBinding? {t : Text} {f : Shorthand.Found}
    (h : findShortBinding? t = some f) (ht : '<' ∉ t) : '<' ∉ f.written := by
  rw [(eq_of_findShortBinding? h).1] at ht
  obtain ⟨n, r, -, -, rfl⟩ := exists_of_findShortBinding? h
  have hname : '<' ∉ n := fun hm => ht (by simp [hm])
  refine notMem_binding hname ?_
  rw [List.mem_cons, not_or]
  exact ⟨by decide, hname⟩

theorem notMem_of_findBagEcho? {t : Text} {f : Shorthand.Found}
    (h : findBagEcho? t = some f) (ht : '<' ∉ t) : '<' ∉ f.written := by
  rw [(eq_of_findBagEcho? h).1] at ht
  obtain ⟨w, b, r, -, -, rfl⟩ := exists_of_findBagEcho? h
  have hb : '<' ∉ b := fun hm => ht (by simp [hm])
  refine notMem_binding (by decide) ?_
  rw [List.mem_append, not_or]
  exact ⟨by decide, fun hm => hb (Text.mem_of_mem_trimEnd hm)⟩

theorem notMem_of_findColonBinding? {t : Text} {f : Shorthand.Found}
    (h : findColonBinding? t = some f) (ht : '<' ∉ t) : '<' ∉ f.written := by
  rw [(eq_of_findColonBinding? h).1] at ht
  obtain ⟨n, r, -, -, rfl⟩ := exists_of_findColonBinding? h
  have hname : '<' ∉ n := fun hm => ht (by simp [hm])
  simp only [List.mem_append, not_or]
  exact ⟨⟨by decide, hname⟩, by decide⟩

theorem notMem_singleQuoted {t : Text} (h : '<' ∉ t) : '<' ∉ singleQuoted t := by
  intro hm
  obtain ⟨c, hc, he⟩ := List.mem_map.1 hm
  split at he
  · exact absurd he (by decide)
  · rw [he] at hc
    exact h hc

theorem notMem_expandHelpers {callee : Helper → Text} (hc : ∀ h, '<' ∉ callee h) {t : Text}
    (ht : '<' ∉ t) : '<' ∉ expandHelpers callee t := by
  fun_induction expandHelpers callee t with
  | case1 => exact ht
  | case2 c t h args r e ih =>
    rw [Helper.eq_of_call? e, List.append_assoc, List.mem_append, List.mem_append, not_or,
      not_or] at ht
    rw [List.mem_append, not_or]
    refine ⟨notMem_binding (by cases h <;> decide) ?_, ih ht.2.2⟩
    rw [List.mem_append, not_or]
    exact ⟨hc h, notMem_singleQuoted ht.2.1⟩
  | case3 c e => exact ht
  | case4 c q r hq e ih =>
    have hr : '<' ∉ (Run.value q r).1 ++ (Run.value q r).2 := by
      rw [Run.value_eq]
      exact fun hm => ht (List.mem_cons_of_mem _ hm)
    rw [List.mem_append, not_or] at hr
    simp only [List.cons_append, List.mem_cons, List.mem_append, not_or] at ht ⊢
    exact ⟨ht.1, hr.1, ih hr.2⟩
  | case5 c q r e hq ih =>
    rw [List.mem_cons, not_or] at ht ⊢
    exact ⟨ht.1, ih ht.2⟩

theorem notMem_expand {callee : Helper → Text} (hc : ∀ h, '<' ∉ callee h) {t : Text}
    (ht : '<' ∉ t) : '<' ∉ expand callee t := by
  have hshort := shortBinding.notMem_expand (x := '<') (by decide)
    (fun _ _ => notMem_of_findShortBinding?) ht
  have hbag := bagEcho.notMem_expand (x := '<') (by decide)
    (fun _ _ => notMem_of_findBagEcho?) hshort
  exact colonBinding.notMem_expand (by decide) (fun _ _ => notMem_of_findColonBinding?)
    (notMem_expandHelpers hc hbag)

/-! ## Tokens -/

namespace Token

theorem eq_append_of_value? {t a r : Text} (h : value? t = some (a, r)) : t = a ++ r := by
  rcases Option.or_eq_some_iff.1 h with h | ⟨_, h⟩
  · cases t with
    | nil => exact absurd h (by simp [quotedValue?])
    | cons q t =>
      rw [quotedValue?] at h
      split at h
      · obtain ⟨s, hs, e⟩ := Option.map_eq_some_iff.1 h
        cases e
        have ht := List.takeWhile_append_dropWhile (p := (· != q)) (l := t)
        rw [strip?_eq_some_iff.1 hs] at ht
        rw [List.cons_append, List.cons_append, List.append_assoc, ht]
      · exact absurd h (by simp)
  · unfold runValue? at h
    split at h
    · exact absurd h (by simp)
    · cases h
      exact List.takeWhile_append_dropWhile.symm

/-- A value and what follows it are parts of the text. -/
theorem infix_of_assigned (t : Text) :
    (∀ v, (assigned t).1 = some v → v <:+: t) ∧ (assigned t).2 <:+ t := by
  unfold assigned
  split
  · exact ⟨by simp, List.suffix_refl t⟩
  · next r hr =>
    have ht := strip?_eq_some_iff.1 hr
    split
    · next s hs =>
      have hs := eq_append_of_value? hs
      rw [ht, hs]
      refine ⟨fun v hv => ?_, ⟨['='] ++ s.1, List.append_assoc ..⟩⟩
      cases hv
      exact ⟨['='], s.2, List.append_assoc ..⟩
    · exact ⟨by simp, List.suffix_refl t⟩

/-- The tokens are parts of the text. -/
theorem infix_of_mem_ofText {t : Text} {k : Token} (h : k ∈ ofText t) :
    k.name <:+: t ∧ ∀ v, k.value = some v → v <:+: t := by
  fun_induction ofText t with
  | case1 => exact absurd h (by simp)
  | case2 c t hc ih =>
    have hdrop : t.dropWhile Character.isAttributeName <:+ c :: t :=
      (List.dropWhile_suffix _).trans (List.suffix_cons c t)
    obtain ⟨hvalue, hrest⟩ := infix_of_assigned (t.dropWhile Character.isAttributeName)
    rcases List.mem_cons.1 h with rfl | h
    · refine ⟨?_, fun v hv => (hvalue v hv).trans hdrop.isInfix⟩
      refine ⟨[], t.dropWhile Character.isAttributeName, ?_⟩
      rw [List.nil_append, List.cons_append, List.takeWhile_append_dropWhile]
    · have hsuffix := (hrest.trans hdrop).isInfix
      obtain ⟨hname, hval⟩ := ih h
      exact ⟨hname.trans hsuffix, fun v hv => (hval v hv).trans hsuffix⟩
  | case3 c t hc ih =>
    have hsuffix := (List.suffix_cons c t).isInfix
    obtain ⟨hname, hval⟩ := ih h
    exact ⟨hname.trans hsuffix, fun v hv => (hval v hv).trans hsuffix⟩

end Token

theorem mem_of_mem_unquote {t : Text} {c : Char} (h : c ∈ Text.unquote t) : c ∈ t := by
  cases t with
  | nil => exact h
  | cons d t =>
    rw [Text.unquote] at h
    split at h
    · exact List.mem_cons_of_mem _ (List.dropLast_subset t h)
    · exact h

end Attribute

/-! ## Echoes -/

namespace Echo

theorem mem_of_mem_trim {t : Text} {c : Char} (h : c ∈ Text.trim t) : c ∈ t :=
  (List.dropWhile_suffix _).subset (Text.mem_of_mem_trimEnd h)

theorem notMem_of_find? {t : Text} {f : Found} (h : find? t = some f) (ht : '<' ∉ t) :
    '<' ∉ f.source ∧ '<' ∉ f.expression ∧ '<' ∉ f.rest := by
  obtain ⟨s, a, r, rfl, rfl⟩ := exists_of_find? h
  simp only [List.mem_append, not_or] at ht ⊢
  obtain ⟨hopen, ⟨ha, hclose⟩, hr⟩ := ht
  exact ⟨⟨⟨hopen, ha⟩, hclose⟩, fun hm => ha (mem_of_mem_trim hm), hr⟩

/-- No angle bracket stands in the segment. -/
def Segment.AngleFree : Segment → Prop
  | .text t => '<' ∉ t
  | .expr e => '<' ∉ e

theorem angleFree_consText {t : Text} {l : List Segment} (ht : '<' ∉ t)
    (hl : ∀ s ∈ l, s.AngleFree) : ∀ s ∈ consText t l, s.AngleFree := by
  intro s hs
  unfold consText at hs
  split at hs
  · next u l =>
    rcases List.mem_cons.1 hs with rfl | hs
    · have hu : '<' ∉ u := hl (.text u) (List.mem_cons_self ..)
      show '<' ∉ t ++ u
      rw [List.mem_append, not_or]
      exact ⟨ht, hu⟩
    · exact hl s (List.mem_cons_of_mem _ hs)
  · split at hs
    · exact hl s hs
    · rcases List.mem_cons.1 hs with rfl | hs
      · exact ht
      · exact hl s hs

theorem angleFree_split {escape t : Text} (he : '<' ∉ escape) (ht : '<' ∉ t) :
    ∀ s ∈ split escape t, s.AngleFree := by
  fun_induction split escape t with
  | case1 => simp
  | case2 t f hf ih =>
    rw [List.mem_cons, not_or] at ht
    obtain ⟨hsource, -, hrest⟩ := notMem_of_find? hf ht.2
    exact angleFree_consText hsource (ih hrest)
  | case3 t hf ih =>
    rw [List.mem_cons, not_or] at ht
    exact angleFree_consText (by decide) (ih ht.2)
  | case4 c t hc f hf ih =>
    obtain ⟨-, hexpr, hrest⟩ := notMem_of_find? hf ht
    intro s hs
    rcases List.mem_cons.1 hs with rfl | hs
    · show '<' ∉ f.print escape
      unfold Found.print
      split
      · simp [he, hexpr]
      · exact hexpr
    · exact ih hrest s hs
  | case5 c t hc hf ih =>
    rw [List.mem_cons, not_or] at ht
    exact angleFree_consText (by simpa using ht.1) (ih ht.2)

theorem Segment.AngleFree.notMem_inString {s : Segment} (h : s.AngleFree) :
    '<' ∉ s.inString := by
  cases s with
  | text t =>
    intro hm
    obtain ⟨c, hc, hm⟩ := List.mem_flatMap.1 hm
    split at hm
    · exact absurd hm (by decide)
    · rw [List.mem_singleton] at hm
      rw [← hm] at hc
      exact h hc
  | expr e =>
    have he : '<' ∉ e := h
    simp [Segment.inString, he]

theorem notMem_stringLiteral {escape t : Text} (he : '<' ∉ escape) (ht : '<' ∉ t) :
    '<' ∉ stringLiteral (split escape) t := by
  have hbody : '<' ∉ stringBody (split escape) t := by
    intro hm
    obtain ⟨s, hs, hm⟩ := List.mem_flatMap.1 hm
    exact (angleFree_split he ht s hs).notMem_inString hm
  simp [stringLiteral, hbody]

end Echo

/-! ## Attributes and listings -/

namespace Attribute

/-- No angle bracket stands in the name of the attribute or in its value. -/
def AngleFree (a : Attribute) : Prop := '<' ∉ a.name ∧ '<' ∉ a.value

theorem notMem_unescapeColon {n : Text} (h : '<' ∉ n) : '<' ∉ unescapeColon n := by
  unfold unescapeColon
  split
  · next r hr =>
    rw [strip?_eq_some_iff.1 hr] at h
    simp only [List.cons_append, List.nil_append, List.mem_cons, not_or] at h ⊢
    exact h.2
  · exact h

theorem angleFree_ofToken {escape : Text} (he : '<' ∉ escape) {k : Token}
    (hn : '<' ∉ k.name) (hv : ∀ v, k.value = some v → '<' ∉ v) :
    (ofToken (Echo.split escape) k).AngleFree := by
  have hbind : ∀ {n}, strip? bindMark k.name = some n → '<' ∉ n := by
    intro n h hm
    rw [strip?_eq_some_iff.1 h] at hn
    exact hn (List.mem_append_right _ hm)
  have htrue : '<' ∉ "true".toList := by decide
  have hunquote : ∀ {v}, k.value = some v → '<' ∉ v.unquote := fun h hm =>
    hv _ h (mem_of_mem_unquote hm)
  unfold ofToken
  split
  · exact ⟨notMem_unescapeColon hn, htrue⟩
  · next n _ h => exact ⟨notMem_unescapeColon (hbind h), htrue⟩
  · next v n hvalue h => exact ⟨notMem_unescapeColon (hbind h), hunquote hvalue⟩
  · next v hvalue _ =>
    exact ⟨notMem_unescapeColon hn, Echo.notMem_stringLiteral he (hunquote hvalue)⟩

namespace Listing

/-- Attributes that are parts of a text without angle brackets have none. -/
theorem angleFree_ofTokens {escape t : Text} (he : '<' ∉ escape) (ht : '<' ∉ t)
    {l : List Token} (hl : ∀ k ∈ l, k ∈ Token.ofText t) :
    ∀ a ∈ (ofTokens (Echo.split escape) l).items, a.AngleFree := by
  intro a ha
  have ha : a ∈ l.map (ofToken (Echo.split escape)) := by
    rw [ofTokens, items_ofList] at ha
    exact Keyed.mem_of_mem_ofList _ ha
  obtain ⟨k, hk, rfl⟩ := List.mem_map.1 ha
  obtain ⟨hname, hvalue⟩ := Token.infix_of_mem_ofText (hl k hk)
  exact angleFree_ofToken he (fun hm => ht (hname.subset hm))
    fun v hv hm => ht ((hvalue v hv).subset hm)

end Listing
end Attribute
end TemplateTags
