import Mathlib.Data.List.Basic
import TemplateTags.Text.Casing

/-!
# Characters of cased names

The studly and the camel form of a name are made of the characters of its words, of which
only the first can change, and only if it is a letter.  So a character that has no other
case comes into such a form only from the name itself (`notMem_camel`).  A letter and its
capital lie 32 codes apart, and what is said of cases here is said of codes first
(`toNat_toUpper`, `toNat_toLower`).
-/

namespace TemplateTags

namespace Character

/-- The character is no ASCII letter, so that it has no other case. -/
def IsCaseless (d : Char) : Prop :=
  ¬ (65 ≤ d.toNat ∧ d.toNat ≤ 90) ∧ ¬ (97 ≤ d.toNat ∧ d.toNat ≤ 122)

instance (d : Char) : Decidable (IsCaseless d) := inferInstanceAs (Decidable (_ ∧ _))

variable {c d : Char}

/-- The code of a capital is 32 below that of the small letter. -/
theorem toNat_toUpper (c : Char) :
    c.toUpper.toNat = if 97 ≤ c.toNat ∧ c.toNat ≤ 122 then c.toNat - 32 else c.toNat := by
  have hsmall : 'a'.val ≤ c.val ∧ c.val ≤ 'z'.val ↔ 97 ≤ c.toNat ∧ c.toNat ≤ 122 :=
    and_congr UInt32.le_iff_toNat_le UInt32.le_iff_toNat_le
  unfold Char.toUpper
  split
  · next hc =>
    have hcode := hsmall.1 hc
    rw [if_pos hcode]
    -- the difference of the codes is negative, and wraps around
    have hwrap : ('A'.val - 'a'.val).toNat = 2 ^ 32 - 32 := by decide
    show (c.val + ('A'.val - 'a'.val)).toNat = c.toNat - 32
    rw [UInt32.toNat_add, Char.toNat_val, hwrap]
    omega
  · next hc => rw [if_neg (mt hsmall.2 hc)]

theorem toNat_toLower (c : Char) :
    c.toLower.toNat = if 65 ≤ c.toNat ∧ c.toNat ≤ 90 then c.toNat + 32 else c.toNat := by
  have hcapital : 'A'.val ≤ c.val ∧ c.val ≤ 'Z'.val ↔ 65 ≤ c.toNat ∧ c.toNat ≤ 90 :=
    and_congr UInt32.le_iff_toNat_le UInt32.le_iff_toNat_le
  unfold Char.toLower
  split
  · next hc =>
    have hcode := hcapital.1 hc
    rw [if_pos hcode]
    have hdiff : ('a'.val - 'A'.val).toNat = 32 := by decide
    show (c.val + ('a'.val - 'A'.val)).toNat = c.toNat + 32
    rw [UInt32.toNat_add, Char.toNat_val, hdiff]
    omega
  · next hc => rw [if_neg (mt hcapital.2 hc)]

theorem IsCaseless.eq_of_toUpper (hd : IsCaseless d) (h : c.toUpper = d) : c = d := by
  have hcode := toNat_toUpper c
  have hcapital := hd.1
  rw [h] at hcode
  apply Char.toNat_inj.1
  split at hcode <;> omega

theorem IsCaseless.eq_of_toLower (hd : IsCaseless d) (h : c.toLower = d) : c = d := by
  have hcode := toNat_toLower c
  have hsmall := hd.2
  rw [h] at hcode
  apply Char.toNat_inj.1
  split at hcode <;> omega

/-- A capital that was made small can be made a capital again. -/
theorem toUpper_toLower_toUpper (c : Char) : c.toUpper.toLower.toUpper = c.toUpper := by
  apply Char.toNat_inj.1
  simp only [toNat_toUpper, toNat_toLower]
  split_ifs <;> omega

end Character

namespace Text

variable {d : Char} {t : Text}

/-- What a text is split into has its characters, without those at which it is split. -/
theorem mem_of_mem_splitOnP {p : Char → Bool} {w : Text} {c : Char}
    (hw : w ∈ t.splitOnP p) (hc : c ∈ w) : c ∈ t ∧ p c = false := by
  induction t generalizing w with
  | nil =>
    rw [List.splitOnP_nil, List.mem_singleton] at hw
    rw [hw] at hc
    cases hc
  | cons d t ih =>
    rw [List.splitOnP_cons_eq_if_modifyHead] at hw
    have htail : ∀ {v}, v ∈ t.splitOnP p → c ∈ v → c ∈ d :: t ∧ p c = false := fun hv hcv =>
      (ih hv hcv).imp_left (List.mem_cons_of_mem d)
    split at hw
    · rcases List.mem_cons.1 hw with rfl | hw
      · cases hc
      · exact htail hw hc
    · next hd =>
      obtain ⟨v, l, hs⟩ := List.exists_cons_of_ne_nil (List.splitOnP_ne_nil p t)
      rw [hs, List.modifyHead_cons] at hw
      rw [hs] at htail
      rcases List.mem_cons.1 hw with rfl | hw
      · rcases List.mem_cons.1 hc with rfl | hc
        · exact ⟨List.mem_cons_self .., Bool.eq_false_iff.2 hd⟩
        · exact htail (List.mem_cons_self ..) hc
      · exact htail (List.mem_cons_of_mem _ hw) hc

theorem notMem_upperFirst (hd : Character.IsCaseless d) (h : d ∉ t) : d ∉ upperFirst t := by
  cases t with
  | nil => exact h
  | cons c t =>
    rw [List.mem_cons, not_or] at h
    rw [upperFirst, List.mem_cons, not_or]
    exact ⟨fun he => h.1 (hd.eq_of_toUpper he.symm).symm, h.2⟩

theorem notMem_lowerFirst (hd : Character.IsCaseless d) (h : d ∉ t) : d ∉ lowerFirst t := by
  cases t with
  | nil => exact h
  | cons c t =>
    rw [List.mem_cons, not_or] at h
    rw [lowerFirst, List.mem_cons, not_or]
    exact ⟨fun he => h.1 (hd.eq_of_toLower he.symm).symm, h.2⟩

/-- The camel form of a name has no caseless character that is not in its words. -/
theorem notMem_camel_of_words (hd : Character.IsCaseless d) (h : ∀ w ∈ words t, d ∉ w) :
    d ∉ camel t := by
  refine notMem_lowerFirst hd fun hm => ?_
  obtain ⟨w, hw, hm⟩ := List.mem_flatMap.1 hm
  exact notMem_upperFirst hd (h w hw) hm

/-- The camel form of a name has no other characters than letters and those of the name. -/
theorem notMem_camel (hd : Character.IsCaseless d) (h : d ∉ t) : d ∉ camel t :=
  notMem_camel_of_words hd fun _ hw hc =>
    h (mem_of_mem_splitOnP (List.mem_filter.1 hw).1 hc).1

end Text
end TemplateTags
