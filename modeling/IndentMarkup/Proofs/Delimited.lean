import IndentMarkup.Proofs.Prolonged
import IndentMarkup.Proofs.WrittenAttributes

/-! Lists that end with their bracket. Where something is left behind a part of a wrapped list, the
part does not depend on what follows further on, be it on the same line. A list with its closing
bracket is therefore the same list in front of any input. -/
namespace IndentMarkup.Parser

open Text (isBlank isSpace)

variable {α : Type} {source rest : Source α} {p : Char → Bool} {layout : Layout}

/-! ## Words and values -/

theorem run?_delimited {text : List Char} (h : run? p source = some (text, rest)) (hne : rest ≠ [])
    (tail : Source α) : run? p (source ++ tail) = some (text, rest ++ tail) := by
  unfold run? at h ⊢
  split at h
  · contradiction
  · rename_i c cs hchars
    obtain ⟨rfl, rfl⟩ := Prod.mk.inj (Option.some.inj h)
    rw [charsWhile_prolong tail (.inl hne), afterWhile_prolong tail (.inl hne), hchars]

theorem word?_delimited {word : Word α} (h : word? p source = some (word, rest)) (hne : rest ≠ [])
    (tail : Source α) : word? p (source ++ tail) = some (word, rest ++ tail) := by
  have hsource : source ≠ [] := by
    rintro rfl
    contradiction
  have hslot := slot?_prolong tail (p := fun _ => false) (.inl hsource)
  unfold word? at h ⊢
  cases hfound : slot? source with
  | some found =>
    rw [hfound] at h hslot
    obtain ⟨rfl, rfl⟩ := Prod.mk.inj (Option.some.inj h)
    rw [hslot]
    rfl
  | none =>
    rw [hfound] at h hslot
    obtain ⟨⟨text, after⟩, hrun, hword⟩ := Option.map_eq_some_iff.mp h
    obtain ⟨rfl, rfl⟩ := Prod.mk.inj hword
    rw [hslot, run?_delimited hrun hne]
    rfl

theorem word?_none_delimited (h : word? p source = none) (hne : source ≠ []) (tail : Source α) :
    word? p (source ++ tail) = none := by
  cases source with
  | nil => exact absurd rfl hne
  | cons symbol source =>
    cases symbol with
    | slot value => contradiction
    | char c =>
      cases hc : p c with
      | true => simp [word?, slot?, run?, charsWhile, hc] at h
      | false => simp [word?, slot?, run?, charsWhile, hc]

theorem quotedRest_delimited {quote : Char} {word : Word α}
    (h : quotedRest quote source = .ok (word, rest)) (tail : Source α) :
    quotedRest quote (source ++ tail) = .ok (word, rest ++ tail) := by
  unfold quotedRest at h ⊢
  simp only at h ⊢
  split at h
  · rename_i c after hc
    have hheld : Held (fun c => c != '\n' && c != quote)
        (afterWhile (fun c => c != '\n' && c != quote) source) tail := by
      refine .inl ?_
      rw [hc]
      exact List.cons_ne_nil _ _
    rw [afterWhile_prolong tail hheld, charsWhile_prolong tail hheld, hc, List.cons_append]
    simp only
    split at h
    · rename_i hquote
      obtain ⟨rfl, rfl⟩ := Prod.mk.inj (Except.ok.inj h)
      rw [if_pos hquote]
    · contradiction
  · contradiction

/-- What is left when a run has been dropped. -/
theorem drop_charsWhile (p : Char → Bool) (source : Source α) :
    source.drop (charsWhile p source).length = afterWhile p source := by
  have hlength : (Source.ofChars (charsWhile p source) : Source α).length =
      (charsWhile p source).length := Source.length_ofChars _
  have hdrop := @List.drop_left _ (Source.ofChars (charsWhile p source)) (afterWhile p source)
  rwa [charsWhile_append_afterWhile, hlength] at hdrop

theorem attributeValue_delimited {word : Word α}
    (h : attributeValue layout source = .ok (word, rest)) (hne : rest ≠ []) (tail : Source α) :
    attributeValue layout (source ++ tail) = .ok (word, rest ++ tail) := by
  unfold attributeValue at h
  split at h
  · obtain ⟨rfl, rfl⟩ := Prod.mk.inj (Except.ok.inj h)
    rfl
  · exact quotedRest_delimited h tail
  · exact quotedRest_delimited h tail
  · rename_i hslot hdouble hsingle
    obtain ⟨rfl, rfl⟩ := Prod.mk.inj (Except.ok.inj h)
    rw [unquoted_eq, drop_charsWhile] at hne ⊢
    have hsource : Held (fun _ => false) source tail := by
      refine .inl ?_
      rintro rfl
      exact hne rfl
    unfold attributeValue
    split
    · rename_i heq
      exact absurd heq (hsource.append_ne_cons (by simp) (hslot _) _)
    · rename_i heq
      exact absurd heq (hsource.append_ne_cons (by simp) hdouble _)
    · rename_i heq
      exact absurd heq (hsource.append_ne_cons (by simp) hsingle _)
    · dsimp only
      rw [unquoted_eq, drop_charsWhile, charsWhile_prolong tail (.inl hne),
        afterWhile_prolong tail (.inl hne)]

/-! ## Entries -/

theorem pairName?_delimited {name : Word α} (h : pairName? layout source = some (name, rest))
    (hne : rest ≠ []) (tail : Source α) :
    pairName? layout (source ++ tail) = some (name, rest ++ tail) := by
  obtain ⟨hgap, hword⟩ := pairName?_gaps h
  simp only [pairName?, Option.bind_eq_bind, Option.bind_eq_some_iff, Prod.exists] at h
  obtain ⟨_, after, hname, h⟩ := h
  have hafter := hword _ _ hname
  have hbehind : after ≠ [] := by
    rintro rfl
    exact hafter rfl
  split at h
  · rename_i last hequals
    obtain ⟨rfl, rfl⟩ := Prod.mk.inj (Option.some.inj h)
    simp only [pairName?, afterWhile_prolong tail (.inl hgap), word?_delimited hname hbehind,
      Option.bind_eq_bind, Option.bind_some, afterWhile_prolong tail (.inl hafter), hequals,
      List.cons_append, afterWhile_prolong tail (.inl hne)]
  · contradiction

theorem pair?_delimited {entry : Attribute α} (h : pair? layout source = .ok (some (entry, rest)))
    (hne : rest ≠ []) (tail : Source α) :
    pair? layout (source ++ tail) = .ok (some (entry, rest ++ tail)) := by
  unfold pair? at h
  split at h
  · exact absurd h (pure_none_ne _)
  · rename_i name start hname
    obtain ⟨⟨value, last⟩, hvalue, h⟩ := of_bind_ok h
    obtain ⟨rfl, rfl⟩ := Prod.mk.inj (Option.some.inj (Except.ok.inj h))
    have hstart : start ≠ [] := by
      rintro rfl
      exact hne (List.suffix_nil.mp (accounts_attributeValue hvalue).suffix)
    simp only [pair?, pairName?_delimited hname hstart, attributeValue_delimited hvalue hne]
    rfl

theorem pair?_none_delimited (h : pair? layout source = .ok none)
    (hgap : afterWhile layout.isGap source ≠ [])
    (hword : ∀ name after, word? isNameChar (afterWhile layout.isGap source) = some (name, after) →
      afterWhile layout.isGap after ≠ []) (tail : Source α) :
    pair? layout (source ++ tail) = .ok none := by
  have hnone : pairName? layout source = none := by
    cases hname : pairName? layout source with
    | none => rfl
    | some found =>
      simp only [pair?, hname] at h
      obtain ⟨_, -, h⟩ := of_bind_ok h
      exact absurd (Except.ok.inj h) (Option.some_ne_none _)
  have hsame : pairName? layout (source ++ tail) = none := by
    cases hname : word? isNameChar (afterWhile layout.isGap source) with
    | none =>
      simp only [pairName?, afterWhile_prolong tail (.inl hgap),
        word?_none_delimited hname hgap, Option.bind_eq_bind, Option.bind_none]
    | some found =>
      obtain ⟨name, after⟩ := found
      have hafter := hword name after hname
      have hbehind : after ≠ [] := by
        rintro rfl
        exact hafter rfl
      simp only [pairName?, hname, Option.bind_eq_bind, Option.bind_some] at hnone
      simp only [pairName?, afterWhile_prolong tail (.inl hgap), word?_delimited hname hbehind,
        Option.bind_eq_bind, Option.bind_some, afterWhile_prolong tail (.inl hafter)]
      cases hequals : afterWhile layout.isGap after with
      | nil => exact absurd hequals hafter
      | cons symbol last =>
        by_cases hsymbol : symbol = .char '='
        · subst hsymbol
          rw [hequals] at hnone
          contradiction
        · simp [hsymbol]
  simp only [pair?, hsame]

theorem bareName?_delimited {entry : Attribute α} (h : bareName? layout source = some (entry, rest))
    (hne : rest ≠ []) (tail : Source α) :
    bareName? layout (source ++ tail) = some (entry, rest ++ tail) := by
  obtain ⟨name, rfl, hword⟩ := of_bareName? h
  have hgap : afterWhile layout.isGap source ≠ [] := by
    intro hnil
    rw [hnil] at hword
    contradiction
  cases layout with
  | inline => contradiction
  | wrapped close =>
    simp only [bareName?, afterWhile_prolong tail (.inl hgap), word?_delimited hword hne,
      Option.map_some]

theorem attribute?_delimited {entry : Attribute α}
    (h : attribute? layout source = .ok (some (entry, rest)))
    (hgap : afterWhile layout.isGap rest ≠ []) (tail : Source α) :
    attribute? layout (source ++ tail) = .ok (some (entry, rest ++ tail)) := by
  have hsource := gap_of_attribute? h
  have hne : rest ≠ [] := by
    rintro rfl
    exact hgap rfl
  unfold attribute? at h ⊢
  obtain ⟨found, hsplat, h⟩ := of_bind_ok h
  rw [splat?_prolong tail (.inl hsource) hsplat]
  cases found with
  | some found =>
    obtain rfl := Option.some.inj (Except.ok.inj h)
    rfl
  | none =>
    obtain ⟨found, hpair, h⟩ := of_bind_ok h
    show (pair? layout (source ++ tail) >>= _) = _
    cases found with
    | some found =>
      obtain rfl := Option.some.inj (Except.ok.inj h)
      rw [pair?_delimited hpair hne]
      rfl
    | none =>
      have hbare := Except.ok.inj h
      obtain ⟨name, rfl, hname⟩ := of_bareName? hbare
      have hnone := pair?_none_delimited hpair hsource (fun _ _ hother => by
        obtain ⟨-, rfl⟩ := Prod.mk.inj (Option.some.inj (hname.symm.trans hother))
        exact hgap) tail
      rw [hnone]
      exact congrArg Except.ok (bareName?_delimited hbare hne tail)

/-! ## Lists -/

theorem literal?_none_delimited {c : Char} (h : literal? [c] source = none) (hne : source ≠ [])
    (tail : Source α) : literal? [c] (source ++ tail) = none := by
  cases source with
  | nil => exact absurd rfl hne
  | cons symbol source =>
    cases symbol with
    | slot value => rfl
    | char d =>
      by_cases hcd : c = d
      · simp [literal?, hcd] at h
      · simp [literal?, hcd]

/-- A list that has been closed is the same list whatever follows its bracket. -/
theorem wrappedAttributes_delimited {close : Char} {found : List (Attribute α)}
    (h : wrappedAttributes close source = .ok (found, rest)) (tail : Source α) :
    wrappedAttributes close (source ++ tail) = .ok (found, rest ++ tail) := by
  have hlonger : ∀ {start : Source α}, ¬ start.isEmpty = true →
      ¬ (start ++ tail).isEmpty = true := by
    intro start hne hempty
    have hnil := List.append_eq_nil_iff.mp (List.isEmpty_iff.mp hempty)
    exact hne (List.isEmpty_iff.mpr hnil.1)
  fun_induction wrappedAttributes close source generalizing found with
  | case1 => contradiction
  | case2 source hne after hbracket =>
    obtain ⟨rfl, rfl⟩ := Prod.mk.inj (Except.ok.inj h)
    have hgap : afterWhile isSpace source ≠ [] := by
      intro hnil
      rw [hnil] at hbracket
      contradiction
    rw [wrappedAttributes_eq, if_neg (hlonger hne), afterWhile_prolong tail (.inl hgap),
      literal?_eq_some.mp hbracket, List.append_assoc, literal?_append]
  | case3 => contradiction
  | case4 => contradiction
  | case5 source hne hbracket entry after hentry ih =>
    obtain ⟨⟨more, last⟩, hmore, h⟩ := of_bind_ok h
    obtain ⟨rfl, rfl⟩ := Prod.mk.inj (Except.ok.inj h)
    have hgap : afterWhile isSpace source ≠ [] := gap_of_attribute? hentry
    have hlast : afterWhile isSpace after ≠ [] := gap_of_wrappedAttributes hmore
    rw [wrappedAttributes_eq, if_neg (hlonger hne), afterWhile_prolong tail (.inl hgap),
      literal?_none_delimited hbracket hgap]
    show (attribute? (.wrapped close) (source ++ tail) >>= _) = _
    rw [attribute?_delimited hentry hlast]
    show (wrappedAttributes close (after ++ tail) >>= _) = _
    rw [ih hmore]
    rfl

end IndentMarkup.Parser
