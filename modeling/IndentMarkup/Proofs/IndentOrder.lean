import IndentMarkup.Proofs.Scanning
import Mathlib.Data.List.TakeWhile

/-! The order of indents. Indents are compared by their leading blanks alone, and as texts: one is
deeper than another when it goes on behind it. This is the order of a tree. What lies above one
indent lies on one path to the root, so any two of those can be compared, and a common front of two
indents can be left out of the comparison. Where one indent is taken off another, a common front
can be left out as well, unless the two are incomparable and nothing is taken off. -/
namespace IndentMarkup

open Text (isBlank)

namespace Indent

/-! ## Leading blanks -/

theorem leading_of_blank {text : List Char} (h : ∀ c ∈ text, isBlank c = true) :
    leading text = text :=
  List.takeWhile_eq_self_iff.mpr h

/-- Blanks lead up to the first character that is none. -/
theorem leading_append {indent text : List Char} (hindent : ∀ c ∈ indent, isBlank c = true)
    (htext : ∀ c ∈ text.head?, isBlank c = false) : leading (indent ++ text) = indent := by
  have hnone : text.takeWhile isBlank = [] := by
    cases text with
    | nil => rfl
    | cons c rest => exact List.takeWhile_cons_of_neg (by simp [htext c rfl])
  rw [leading, List.takeWhile_append_of_pos hindent, hnone, List.append_nil]

theorem isBlank_append {front back : List Char} (hfront : ∀ c ∈ front, isBlank c = true)
    (hback : ∀ c ∈ back, isBlank c = true) : ∀ c ∈ front ++ back, isBlank c = true := by
  intro c hc
  rcases List.mem_append.mp hc with hc | hc
  · exact hfront c hc
  · exact hback c hc

/-! ## What a comparison says -/

variable {a b c : List Char}

/-- A comparison asks which of the leading blanks is a front of the other. -/
theorem compare_eq (a b : List Char) :
    compare a b =
      if leading a = leading b then .same
      else if leading b <+: leading a then .deeper
      else if leading a <+: leading b then .shallower
      else .incomparable := by
  simp only [compare, List.isPrefixOf_iff_prefix]

theorem compare_eq_same : compare a b = .same ↔ leading a = leading b := by
  rw [compare_eq]
  grind

theorem compare_eq_deeper :
    compare a b = .deeper ↔ leading b <+: leading a ∧ leading b ≠ leading a := by
  rw [compare_eq]
  grind

theorem compare_eq_incomparable :
    compare a b = .incomparable ↔ ¬ leading b <+: leading a ∧ ¬ leading a <+: leading b := by
  rw [compare_eq]
  grind

theorem prefix_antisymm {front whole : List Char} (h : front <+: whole) (h' : whole <+: front) :
    front = whole :=
  h.eq_of_length_le h'.length_le

theorem compare_eq_shallower :
    compare a b = .shallower ↔ leading a <+: leading b ∧ leading a ≠ leading b := by
  have hboth := @prefix_antisymm (leading a) (leading b)
  rw [compare_eq]
  grind

/-- Two indents compare the one way as they compare the other way, seen from the other one. -/
theorem compare_reverse (a b : List Char) : compare a b = (compare b a).reverse := by
  cases hcompare : compare b a with
  | same => exact compare_eq_same.mpr (compare_eq_same.mp hcompare).symm
  | deeper => exact compare_eq_shallower.mpr (compare_eq_deeper.mp hcompare)
  | shallower => exact compare_eq_deeper.mpr (compare_eq_shallower.mp hcompare)
  | incomparable => exact compare_eq_incomparable.mpr (compare_eq_incomparable.mp hcompare).symm

/-- What is neither deeper than another indent nor beside it is a front of it. -/
theorem leading_front (h : compare a b = .same ∨ compare a b = .shallower) :
    leading a <+: leading b := by
  rcases h with hsame | hshallower
  · exact compare_eq_same.mp hsame ▸ List.prefix_rfl
  · exact (compare_eq_shallower.mp hshallower).1

theorem deeper_trans (hab : compare a b = .deeper) (hbc : compare b c = .deeper) :
    compare a c = .deeper := by
  obtain ⟨hba, -⟩ := compare_eq_deeper.mp hab
  obtain ⟨hcb, hne⟩ := compare_eq_deeper.mp hbc
  refine compare_eq_deeper.mpr ⟨hcb.trans hba, fun heq => hne ?_⟩
  exact prefix_antisymm hcb (heq ▸ hba)

/-- Indents on the path from one indent to the root can be compared. -/
theorem comparable_above (ha : compare a c = .same ∨ compare a c = .shallower)
    (hb : compare b c = .same ∨ compare b c = .shallower) : compare a b ≠ .incomparable := by
  intro hnone
  obtain ⟨hba, hab⟩ := compare_eq_incomparable.mp hnone
  rcases List.prefix_or_prefix_of_prefix (leading_front ha) (leading_front hb) with hfront | hfront
  · exact hab hfront
  · exact hba hfront

/-- An indent that does not begin with another one is shallower or cannot be compared. -/
theorem compare_of_not_front (h : ¬ leading b <+: leading a) :
    compare a b = .shallower ∨ compare a b = .incomparable := by
  have hne : leading a ≠ leading b := by
    intro heq
    exact h (heq ▸ List.prefix_rfl)
  rw [compare_eq, if_neg hne, if_neg h]
  by_cases hfront : leading a <+: leading b
  · exact .inl (if_pos hfront)
  · exact .inr (if_neg hfront)

/-! ## A common front -/

/-- A margin in front of both indents does not change how they stand to one another. -/
theorem compare_margin {margin : Indent} (hmargin : ∀ c ∈ margin, isBlank c = true)
    (ha : ∀ c ∈ a, isBlank c = true) (hb : ∀ c ∈ b, isBlank c = true) :
    compare (margin ++ a) (margin ++ b) = compare a b := by
  simp only [compare_eq, leading_of_blank ha, leading_of_blank hb,
    leading_of_blank (isBlank_append hmargin ha), leading_of_blank (isBlank_append hmargin hb),
    List.append_cancel_left_eq, List.prefix_append_right_inj]

/-! ## Taking an indent off -/

/-- What is behind an indent is left when the indent is taken off. -/
theorem trim_append {indent : Indent} (hindent : ∀ c ∈ indent, isBlank c = true)
    (text : List Char) : trim (indent ++ text) indent = text := by
  have hleading : leading (indent ++ text) = indent ++ leading text :=
    List.takeWhile_append_of_pos hindent
  have hcompare : compare (indent ++ text) indent = .same ∨
      compare (indent ++ text) indent = .deeper := by
    rw [compare_eq_same, compare_eq_deeper, hleading, leading_of_blank hindent]
    by_cases hnone : indent ++ leading text = indent
    · exact .inl hnone
    · exact .inr ⟨List.prefix_append _ _, Ne.symm hnone⟩
  rcases hcompare with hcompare | hcompare <;> simp [trim, hcompare]

/-- Nothing is left of an indent that another one goes on behind. -/
theorem trim_of_shallower (ha : ∀ c ∈ a, isBlank c = true) (h : compare a b = .shallower) :
    trim a b = [] := by
  simpa [trim, h, List.dropWhile_eq_nil_iff] using ha

theorem trim_of_incomparable (h : compare a b = .incomparable) : trim a b = a := by
  simp [trim, h]

/-- A margin in front of both is taken off with the indent, unless nothing is taken off. -/
theorem trim_margin {margin : Indent} (hmargin : ∀ c ∈ margin, isBlank c = true)
    (ha : ∀ c ∈ a, isBlank c = true) (hb : ∀ c ∈ b, isBlank c = true) :
    trim (margin ++ a) (margin ++ b) =
      if compare a b = .incomparable then margin ++ a else trim a b := by
  have hdrop : (margin ++ a).drop (margin ++ b).length = a.drop b.length := by
    rw [List.length_append, ← List.drop_drop, List.drop_left]
  have hnone : (margin ++ a).dropWhile isBlank = a.dropWhile isBlank :=
    List.dropWhile_append_of_pos hmargin
  unfold trim
  rw [compare_margin hmargin ha hb, hdrop, hnone]
  cases compare a b <;> rfl

/-! ## The tree of indents -/

/-- **Indents are ordered as a tree of prefixes, and taking one off respects the order.** Only the
leading blanks count, and the other side sees the reverse. What a common front does not change is
the comparison; it changes what is left of an indent only where the two are incomparable. -/
theorem prefix_tree :
    (∀ (a b : Blanks) (text other : List Char),
      (∀ c ∈ text.head?, isBlank c = false) → (∀ c ∈ other.head?, isBlank c = false) →
        compare (a.chars ++ text) (b.chars ++ other) = compare a.chars b.chars) ∧
    (∀ a b : Blanks,
      (compare a.chars b.chars = .same ↔ a = b) ∧
      (compare a.chars b.chars = .deeper ↔ a.Deeper b) ∧
      (compare a.chars b.chars = .shallower ↔ b.Deeper a)) ∧
    (∀ a b, compare a b = (compare b a).reverse) ∧
    (∀ a b c, compare a b = .deeper → compare b c = .deeper → compare a c = .deeper) ∧
    (∀ a b c, (compare a c = .same ∨ compare a c = .shallower) →
      (compare b c = .same ∨ compare b c = .shallower) → compare a b ≠ .incomparable) ∧
    (∀ margin a b : Blanks,
      compare (margin.chars ++ a.chars) (margin.chars ++ b.chars) = compare a.chars b.chars ∧
      trim (margin.chars ++ a.chars) (margin.chars ++ b.chars) =
        if compare a.chars b.chars = .incomparable then margin.chars ++ a.chars
        else trim a.chars b.chars) ∧
    (∀ a b : Blanks,
      (∀ rest, a.chars = b.chars ++ rest → trim a.chars b.chars = rest) ∧
      (b.Deeper a → trim a.chars b.chars = []) ∧
      (¬ b.chars <+: a.chars → ¬ a.chars <+: b.chars → trim a.chars b.chars = a.chars)) := by
  have hblanks : ∀ a : Blanks, leading a.chars = a.chars := fun a => leading_of_blank a.blank
  refine ⟨fun a b text other htext hother => ?_, fun a b => ⟨?_, ?_, ?_⟩, compare_reverse,
    fun _ _ _ => deeper_trans, fun _ _ _ => comparable_above,
    fun margin a b => ⟨compare_margin margin.blank a.blank b.blank,
      trim_margin margin.blank a.blank b.blank⟩, fun a b => ⟨?_, ?_, ?_⟩⟩
  · rw [compare_eq, leading_append a.blank htext, leading_append b.blank hother, compare_eq,
      hblanks, hblanks]
  · rw [compare_eq_same, hblanks, hblanks, Blanks.ext_iff]
  · rw [compare_eq_deeper, hblanks, hblanks, Blanks.Deeper]
  · rw [compare_eq_shallower, hblanks, hblanks, Blanks.Deeper]
  · intro rest hrest
    rw [hrest, trim_append b.blank]
  · intro hdeeper
    refine trim_of_shallower a.blank (compare_eq_shallower.mpr ?_)
    rwa [hblanks, hblanks]
  · intro hb ha
    refine trim_of_incomparable (compare_eq_incomparable.mpr ?_)
    rw [hblanks, hblanks]
    exact ⟨hb, ha⟩

theorem prefix_tree_mixed :
    compare ['\t', ' ', ' ', 'x'] ['\t', ' '] = .deeper ∧ compare ['\t', ' '] ['\t'] = .deeper ∧
      compare ['\t', ' ', ' ', 'x'] ['\t'] = .deeper ∧
      compare ['\t'] ['\t', ' ', 'y'] ≠ .incomparable := by
  obtain ⟨-, -, -, htrans, habove, -, -⟩ := prefix_tree
  exact ⟨by decide, by decide,
    htrans ['\t', ' ', ' ', 'x'] ['\t', ' '] ['\t'] (by decide) (by decide),
    habove ['\t'] ['\t', ' ', 'y'] ['\t', ' '] (by decide) (by decide)⟩

end Indent

end IndentMarkup
