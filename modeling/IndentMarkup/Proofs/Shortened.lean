import IndentMarkup.Proofs.ProlongedLines

/-! Less input behind the end of a line. What a header or a control flow line reads in front of a
line, it reads as well if the input ends there: where the shorter input is a failure the longer one
is, too. A wrapped attribute list may be a failure only because the input ends, but not if its
bracket stands in front of the line. -/
namespace IndentMarkup.Parser

open Text (isBlank isSpace)
open Source (ofChars)

variable {α : Type}

/-! ## Failures -/

def Fails {ε β : Type} (outcome : Except ε β) : Prop :=
  ∃ failure, outcome = .error failure

section

variable {ε β γ : Type} {first : Except ε β} {next : β → Except ε γ}

theorem Fails.bind (h : Fails first) (next : β → Except ε γ) : Fails (first >>= next) := by
  obtain ⟨failure, rfl⟩ := h
  exact ⟨failure, rfl⟩

theorem of_bind_fails (h : Fails (first >>= next)) :
    Fails first ∨ ∃ value, first = .ok value ∧ Fails (next value) := by
  cases first with
  | error failure => exact .inl ⟨failure, rfl⟩
  | ok value => exact .inr ⟨value, rfl, h⟩

theorem not_fails_ok (value : β) : ¬ Fails (.ok value : Except ε β) := by
  rintro ⟨failure, h⟩
  contradiction

/-- An outcome that comes from another one, be it a result or a failure, comes from a result if it
is one. -/
theorem exists_ok {before : Except ε β} {after : Except ε γ} {more : β → γ} {result : γ}
    (hok : ∀ value, before = .ok value → after = .ok (more value))
    (hfails : Fails before → Fails after) (h : after = .ok result) :
    ∃ value, before = .ok value ∧ more value = result := by
  cases before with
  | error failure =>
    obtain ⟨_, hfailed⟩ := hfails ⟨failure, rfl⟩
    rw [hfailed] at h
    contradiction
  | ok value => exact ⟨value, rfl, Except.ok.inj ((hok value rfl).symm.trans h)⟩

end

variable {source rest tail : Source α} {layout : Layout}

/-! ## Namings -/

theorem shorthands_fails (h : LineBetween source tail) (hfails : Fails (shorthands source)) :
    Fails (shorthands (source ++ tail)) := by
  fun_induction shorthands source with
  | case1 => exact absurd hfails (not_fails_ok _)
  | case2 mark rest name hname hword =>
    have hrest : LineBetween rest tail := h.of_char (by rintro rfl; contradiction)
    rw [List.cons_append, shorthands_eq]
    simp only [hname, word?_prolong tail hrest (p := isIdentifierChar) rfl, hword, Option.map_none]
    exact ⟨_, rfl⟩
  | case3 mark rest name hname value after hword ih =>
    have hrest : LineBetween rest tail := h.of_char (by rintro rfl; contradiction)
    rw [List.cons_append, shorthands_eq]
    simp only [hname, word?_prolong tail hrest (p := isIdentifierChar) rfl, hword, Option.map_some,
      prolong]
    rcases of_bind_fails hfails with hfails | ⟨_, -, hfails⟩
    · exact (ih (hrest.of_word? rfl hword) hfails).bind _
    · exact absurd hfails (not_fails_ok _)
  | case4 => exact absurd hfails (not_fails_ok _)

theorem naming_fails (h : LineBetween source tail) (hfails : Fails (naming source)) :
    Fails (naming (source ++ tail)) := by
  have hsame := base?_prolong tail h
  cases hbase : base? source with
  | none =>
    rw [hbase] at hsame
    simp only [naming, hbase] at hfails
    rcases of_bind_fails hfails with hfails | ⟨_, -, hfails⟩
    · simp only [naming, hsame]
      exact (shorthands_fails h hfails).bind _
    · split at hfails <;> exact absurd hfails (not_fails_ok _)
  | some found =>
    obtain ⟨base, start⟩ := found
    rw [hbase] at hsame
    simp only [naming, hbase] at hfails
    rcases of_bind_fails hfails with hfails | ⟨_, -, hfails⟩
    · simp only [naming, hsame, Option.map_some, prolong]
      exact (shorthands_fails (h.of_base? hbase) hfails).bind _
    · split at hfails <;> exact absurd hfails (not_fails_ok _)

theorem naming_shorten (h : LineBetween source tail) {found : Option (Naming α × Source α)}
    (hfound : naming (source ++ tail) = .ok found) :
    ∃ before, naming source = .ok before ∧ before.map (prolong tail) = found :=
  exists_ok (fun _ hbefore => (naming_prolong tail h hbefore).1) (naming_fails h) hfound

/-! ## Attributes on the line -/

theorem quotedRest_fails (h : LineBetween source tail) {quote : Char} (hquote : quote ≠ '\n')
    (hfails : Fails (quotedRest quote source)) : Fails (quotedRest quote (source ++ tail)) := by
  have hheld := h.held (p := fun c => c != '\n' && c != quote) rfl
  unfold quotedRest at hfails ⊢
  simp only at hfails ⊢
  rw [afterWhile_prolong tail hheld]
  cases hafter : afterWhile (fun c => c != '\n' && c != quote) source with
  | nil =>
    rw [hafter] at hheld
    obtain hne | ⟨-, more, rfl⟩ := hheld
    · exact absurd rfl hne
    · simp only [List.nil_append, if_neg hquote.symm]
      exact ⟨_, rfl⟩
  | cons symbol after =>
    cases symbol with
    | slot value => exact ⟨_, rfl⟩
    | char c =>
      rw [hafter] at hfails
      by_cases hc : c = quote
      · simp only [hc, if_true] at hfails
        exact absurd hfails (not_fails_ok _)
      · simp only [List.cons_append, if_neg hc]
        exact ⟨_, rfl⟩

theorem attributeValue_fails (h : LineBetween source tail)
    (hfails : Fails (attributeValue layout source)) :
    Fails (attributeValue layout (source ++ tail)) := by
  unfold attributeValue at hfails
  split at hfails
  · exact absurd hfails (not_fails_ok _)
  · exact quotedRest_fails (h.of_char (by decide)) (by decide) hfails
  · exact quotedRest_fails (h.of_char (by decide)) (by decide) hfails
  · exact absurd hfails (not_fails_ok _)

theorem attributeValue_shorten (h : LineBetween source tail) {found : Word α × Source α}
    (hfound : attributeValue layout (source ++ tail) = .ok found) :
    ∃ before, attributeValue layout source = .ok before ∧ prolong tail before = found :=
  exists_ok (fun _ hbefore => (attributeValue_prolong tail h hbefore).1) (attributeValue_fails h)
    hfound

theorem splat?_fails (h : LineBetween source tail) (hfails : Fails (splat? .inline source)) :
    Fails (splat? .inline (source ++ tail)) := by
  have hgap : LineBetween (afterWhile Layout.inline.isGap source) tail := h.afterWhile rfl
  have hheld : Held Layout.inline.isGap (afterWhile Layout.inline.isGap source) tail := h.held rfl
  unfold splat? at hfails ⊢
  rw [afterWhile_prolong tail hheld]
  split at hfails
  · rename_i after hstar
    rw [hstar] at hgap ⊢
    have hafter := hgap.of_char (by decide)
    have hafterGap : LineBetween (afterWhile Layout.inline.isGap after) tail := hafter.afterWhile rfl
    split at hfails
    · exact absurd hfails (not_fails_ok _)
    · rename_i hnone
      have hslot := slot?_prolong tail hafterGap.front
      rw [hnone] at hslot
      simp only [List.cons_append,
        afterWhile_prolong tail (hafter.held (p := Layout.inline.isGap) rfl), hslot, Option.map_none]
      exact ⟨_, rfl⟩
  · exact absurd hfails (not_fails_ok _)

theorem pair?_fails (h : LineBetween source tail) (hfails : Fails (pair? .inline source)) :
    Fails (pair? .inline (source ++ tail)) := by
  have hheld : ∀ {start : Source α}, LineBetween start tail →
      Held Layout.inline.isGap (afterWhile Layout.inline.isGap start) tail :=
    fun hstart => hstart.held rfl
  unfold pair? at hfails
  split at hfails
  · exact absurd hfails (not_fails_ok _)
  · rename_i name start hname
    have hstart := h.of_pairName? tail hname
    have hsame := pairName?_prolong tail h (hheld h)
      (fun _ _ hword => hheld (LineBetween.of_word? (h.afterWhile rfl) rfl hword))
      (fun _ _ hother => (h.of_pairName? tail hother).imp EndsLine.ne_nil fun hmore => ⟨rfl, hmore⟩)
    simp only [pair?, hsame, hname, Option.map_some, prolong]
    rcases of_bind_fails hfails with hfails | ⟨_, -, hfails⟩
    · exact (attributeValue_fails hstart hfails).bind _
    · exact absurd hfails (not_fails_ok _)

theorem attribute?_fails (h : LineBetween source tail)
    (hfails : Fails (attribute? .inline source)) :
    Fails (attribute? .inline (source ++ tail)) := by
  unfold attribute? at hfails ⊢
  have hheld : Held Layout.inline.isGap (afterWhile Layout.inline.isGap source) tail := h.held rfl
  rcases of_bind_fails hfails with hfails | ⟨found, hsplat, hfails⟩
  · exact (splat?_fails h hfails).bind _
  · rw [splat?_prolong tail hheld hsplat]
    cases found with
    | some found => exact absurd hfails (not_fails_ok _)
    | none =>
      show Fails (pair? .inline (source ++ tail) >>= _)
      rcases of_bind_fails hfails with hfails | ⟨found, -, hfails⟩
      · exact (pair?_fails h hfails).bind _
      · cases found <;> exact absurd hfails (not_fails_ok _)

theorem inlineAttributes_fails (h : LineBetween source tail)
    (hfails : Fails (inlineAttributes source)) : Fails (inlineAttributes (source ++ tail)) := by
  fun_induction inlineAttributes source with
  | case1 source failure hentry =>
    rw [inlineAttributes_eq]
    exact (attribute?_fails h ⟨failure, hentry⟩).bind _
  | case2 => exact absurd hfails (not_fails_ok _)
  | case3 source entry after hentry ih =>
    rw [inlineAttributes_eq, attribute?_inline_prolong tail h hentry]
    rcases of_bind_fails hfails with hfails | ⟨_, -, hfails⟩
    · exact (ih (h.of_attribute? tail hentry) hfails).bind _
    · exact absurd hfails (not_fails_ok _)

theorem inlineAttributes_shorten (h : LineBetween source tail)
    {found : List (Attribute α) × Source α}
    (hfound : inlineAttributes (source ++ tail) = .ok found) :
    ∃ before, inlineAttributes source = .ok before ∧ prolong tail before = found :=
  exists_ok (fun _ hbefore => (inlineAttributes_prolong tail h hbefore).1)
    (inlineAttributes_fails h) hfound

/-! ## Wrapped lists -/

/-- A wrapped list ends with its bracket. -/
theorem suffix_of_wrappedAttributes {close : Char} {found : List (Attribute α)}
    (h : wrappedAttributes close source = .ok (found, rest)) : .char close :: rest <:+ source := by
  fun_induction wrappedAttributes close source generalizing found with
  | case1 => contradiction
  | case2 source _ after hclose =>
    obtain ⟨-, rfl⟩ := Prod.mk.inj (Except.ok.inj h)
    have hgap := (accounts_afterWhile isSpace source).suffix
    rwa [literal?_eq_some.mp hclose] at hgap
  | case3 => contradiction
  | case4 => contradiction
  | case5 source _ _ entry after hentry ih =>
    obtain ⟨⟨more, last⟩, hmore, h⟩ := of_bind_ok h
    obtain ⟨-, rfl⟩ := Prod.mk.inj (Except.ok.inj h)
    exact (ih hmore).trans (accounts_attribute? hentry).suffix

theorem not_suffix_append (hne : rest ≠ []) (tail : Source α) : ¬ rest ++ tail <:+ tail := by
  intro hsuffix
  have hlength := hsuffix.length_le
  have hpos := List.length_pos_iff.mpr hne
  rw [List.length_append] at hlength
  omega

/-- A run behind which something is left in front of further input ends there. -/
theorem afterWhile_shorten {p : Char → Bool} (hne : rest ≠ [])
    (hsuffix : rest ++ tail <:+ afterWhile p (source ++ tail)) :
    afterWhile p source ≠ [] ∧ afterWhile p (source ++ tail) = afterWhile p source ++ tail := by
  have hfront : afterWhile p source ≠ [] := by
    intro hnil
    have hsource := charsWhile_append_afterWhile p source
    rw [hnil, List.append_nil] at hsource
    rw [← hsource, afterWhile_ofChars fun c hc => of_mem_charsWhile hc] at hsuffix
    exact not_suffix_append hne tail (hsuffix.trans (accounts_afterWhile p tail).suffix)
  exact ⟨hfront, afterWhile_prolong tail (.inl hfront)⟩

/-- What has more left than the further input is itself in front of it. -/
theorem exists_append_of_suffix {after : Source α} (hrest : rest ++ tail <:+ after)
    (hafter : after <:+ source ++ tail) : ∃ front, after = front ++ tail ∧ rest <:+ front ∧
      front <:+ source := by
  obtain ⟨front, rfl⟩ : tail <:+ after := (List.suffix_append rest tail).trans hrest
  exact ⟨front, rfl, List.suffix_append_self_iff.mp hrest, List.suffix_append_self_iff.mp hafter⟩

theorem splat?_shorten {entry : Attribute α} (hne : rest ≠ [])
    (hentry : splat? layout (source ++ tail) = .ok (some (entry, rest ++ tail))) :
    splat? layout source = .ok (some (entry, rest)) := by
  unfold splat? at hentry
  split at hentry
  · rename_i after hstar
    split at hentry
    · rename_i value last hslot
      obtain ⟨rfl, rfl⟩ := Prod.mk.inj (Option.some.inj (Except.ok.inj hentry))
      have hinner : rest ++ tail <:+ afterWhile layout.isGap after := (accounts_slot? hslot).suffix
      have hafter := hinner.trans (accounts_afterWhile _ after).suffix
      obtain ⟨hgap, hsame⟩ := @afterWhile_shorten _ source rest tail layout.isGap hne
        (hstar ▸ hafter.trans (List.suffix_cons _ after))
      rw [hsame] at hstar
      obtain ⟨front, hfront, rfl⟩ := List.append_eq_cons_iff.mp hstar |>.resolve_left
        fun hnil => hgap hnil.1
      obtain ⟨hgap', hsame'⟩ := afterWhile_shorten hne hinner
      rw [hsame'] at hslot
      cases hslots : afterWhile layout.isGap front with
      | nil => exact absurd hslots hgap'
      | cons symbol last =>
        rw [hslots] at hslot
        cases symbol with
        | char c => contradiction
        | slot value' =>
          obtain ⟨rfl, hlast⟩ := Prod.mk.inj (Option.some.inj hslot)
          obtain rfl := List.append_cancel_right hlast
          simp only [splat?, hfront, hslots, slot?]
    · contradiction
  · exact absurd hentry (pure_none_ne _)

theorem splat?_shorten_none (hgap : afterWhile layout.isGap source ≠ [])
    (hnone : splat? layout (source ++ tail) = .ok none) : splat? layout source = .ok none := by
  unfold splat? at hnone ⊢
  rw [afterWhile_prolong tail (.inl hgap)] at hnone
  split
  · rename_i after hstar
    rw [hstar, List.cons_append] at hnone
    simp only at hnone
    split at hnone
    · exact absurd (Except.ok.inj hnone) (Option.some_ne_none _)
    · contradiction
  · rfl

theorem word?_shorten {p : Char → Bool} (hp : p '\n' = false) (h : LineBetween source tail)
    {word : Word α} {after : Source α} (hword : word? p (source ++ tail) = some (word, after)) :
    ∃ front, after = front ++ tail ∧ word? p source = some (word, front) := by
  rw [word?_prolong tail h hp] at hword
  obtain ⟨⟨_, front⟩, hfound, heq⟩ := Option.map_eq_some_iff.mp hword
  obtain ⟨rfl, rfl⟩ := Prod.mk.inj heq
  exact ⟨front, rfl, hfound⟩

theorem pairName?_shorten (h : LineBetween source tail) {name : Word α} (hne : rest ≠ [])
    (hname : pairName? layout (source ++ tail) = some (name, rest ++ tail)) :
    pairName? layout source = some (name, rest) := by
  simp only [pairName?, Option.bind_eq_bind, Option.bind_eq_some_iff, Prod.exists] at hname
  obtain ⟨word, after, hword, hname⟩ := hname
  split at hname
  · rename_i last hequals
    obtain ⟨rfl, hrest⟩ := Prod.mk.inj (Option.some.inj hname)
    have hlast : rest ++ tail <:+ afterWhile layout.isGap last := hrest ▸ List.suffix_rfl
    have hafter : rest ++ tail <:+ afterWhile layout.isGap after :=
      hequals ▸ (hlast.trans (accounts_afterWhile _ last).suffix).trans (List.suffix_cons _ last)
    have hfront := (hafter.trans (accounts_afterWhile _ after).suffix).trans
      (accounts_word? hword).suffix
    obtain ⟨hgap, hsame⟩ := afterWhile_shorten hne hfront
    rw [hsame] at hword
    have hstart := h.of_suffix (accounts_afterWhile layout.isGap source).suffix hgap
    obtain ⟨front, rfl, hfound⟩ := word?_shorten rfl hstart hword
    obtain ⟨hgap', hsame'⟩ := afterWhile_shorten hne hafter
    rw [hsame'] at hequals
    obtain ⟨value, hmark, rfl⟩ := List.append_eq_cons_iff.mp hequals |>.resolve_left
      fun hnil => hgap' hnil.1
    obtain ⟨-, hsame''⟩ := afterWhile_shorten hne hlast
    rw [hsame''] at hrest
    obtain rfl := List.append_cancel_right hrest
    simp only [pairName?, hfound, hmark, Option.bind_eq_bind, Option.bind_some]
  · contradiction

theorem pairName?_shorten_none (h : LineBetween source tail)
    (hnone : pairName? layout (source ++ tail) = none) : pairName? layout source = none := by
  cases hname : pairName? layout source with
  | none => rfl
  | some found =>
    obtain ⟨hgap, hgaps⟩ := pairName?_gaps hname
    have hstart := h.of_suffix (accounts_afterWhile layout.isGap source).suffix hgap
    simp only [pairName?, Option.bind_eq_bind, Option.bind_eq_some_iff, Prod.exists] at hname
    obtain ⟨word, after, hword, hname⟩ := hname
    have hafter := hgaps word after hword
    rw [pairName?, afterWhile_prolong tail (.inl hgap), word?_prolong tail hstart rfl, hword] at hnone
    simp only [Option.map_some, prolong, Option.bind_eq_bind, Option.bind_some,
      afterWhile_prolong tail (.inl hafter)] at hnone
    split at hname
    · rename_i last hequals
      rw [hequals] at hnone
      contradiction
    · contradiction

theorem pair?_shorten (h : LineBetween source tail) {entry : Attribute α} (hne : rest ≠ [])
    (hentry : pair? layout (source ++ tail) = .ok (some (entry, rest ++ tail))) :
    pair? layout source = .ok (some (entry, rest)) := by
  unfold pair? at hentry
  split at hentry
  · exact absurd hentry (pure_none_ne _)
  · rename_i name start hname
    obtain ⟨⟨value, last⟩, hvalue, hentry⟩ := of_bind_ok hentry
    obtain ⟨rfl, rfl⟩ := Prod.mk.inj (Option.some.inj (Except.ok.inj hentry))
    obtain ⟨front, rfl, hrest, hfront⟩ := exists_append_of_suffix
      (accounts_attributeValue hvalue).suffix (accounts_pairName? hname).suffix
    have hfrontNe : front ≠ [] := by
      rintro rfl
      exact hne (List.suffix_nil.mp hrest)
    obtain ⟨⟨_, last⟩, hfound, heq⟩ :=
      attributeValue_shorten (h.of_suffix hfront hfrontNe) hvalue
    obtain ⟨rfl, hlast⟩ := Prod.mk.inj heq
    obtain rfl := List.append_cancel_right hlast
    simp only [pair?, pairName?_shorten h hfrontNe hname, hfound, bind, Except.bind]
    rfl

theorem pair?_shorten_none (h : LineBetween source tail)
    (hnone : pair? layout (source ++ tail) = .ok none) : pair? layout source = .ok none := by
  unfold pair? at hnone
  split at hnone
  · rename_i hname
    rw [pair?, pairName?_shorten_none h hname]
  · obtain ⟨_, -, hnone⟩ := of_bind_ok hnone
    exact absurd (Except.ok.inj hnone) (Option.some_ne_none _)

theorem bareName?_shorten (h : LineBetween source tail) {entry : Attribute α}
    (hgap : afterWhile layout.isGap source ≠ [])
    (hentry : bareName? layout (source ++ tail) = some (entry, rest ++ tail)) :
    bareName? layout source = some (entry, rest) := by
  cases layout with
  | inline => contradiction
  | wrapped close =>
    have hstart := h.of_suffix (accounts_afterWhile _ source).suffix hgap
    simp only [bareName?, afterWhile_prolong tail (.inl hgap),
      word?_prolong tail hstart (p := isNameChar) rfl, Option.map_map, Option.map_eq_some_iff] at hentry ⊢
    obtain ⟨⟨name, after⟩, hword, heq⟩ := hentry
    obtain ⟨rfl, hafter⟩ := Prod.mk.inj heq
    obtain rfl := List.append_cancel_right hafter
    exact ⟨_, hword, rfl⟩

/-- An entry that ends in front of further input is there without it. -/
theorem attribute?_shorten (h : LineBetween source tail) {entry : Attribute α} (hne : rest ≠ [])
    (hgap : afterWhile layout.isGap source ≠ [])
    (hentry : attribute? layout (source ++ tail) = .ok (some (entry, rest ++ tail))) :
    attribute? layout source = .ok (some (entry, rest)) := by
  unfold attribute? at hentry ⊢
  obtain ⟨found, hsplat, hentry⟩ := of_bind_ok hentry
  cases found with
  | some found =>
    obtain rfl := Option.some.inj (Except.ok.inj hentry)
    rw [splat?_shorten hne hsplat]
    rfl
  | none =>
    rw [splat?_shorten_none hgap hsplat]
    obtain ⟨found, hpair, hentry⟩ := of_bind_ok hentry
    show (pair? layout source >>= _) = _
    cases found with
    | some found =>
      obtain rfl := Option.some.inj (Except.ok.inj hentry)
      rw [pair?_shorten h hne hpair]
      rfl
    | none =>
      rw [pair?_shorten_none h hpair]
      exact congrArg Except.ok (bareName?_shorten h hgap (Except.ok.inj hentry))

/-- In front of a bracket there is more than white space. -/
theorem gap_of_bracket {close : Char} (hclose : isSpace close = false)
    (hbracket : .char close :: rest <:+ source) : afterWhile isSpace source ≠ [] := by
  intro hnil
  have hsource := charsWhile_append_afterWhile isSpace source
  rw [hnil, List.append_nil] at hsource
  have hmem : .char close ∈ source := hbracket.subset List.mem_cons_self
  rw [← hsource] at hmem
  obtain ⟨c, hc, heq⟩ := List.mem_map.mp hmem
  obtain rfl := Symbol.char.inj heq
  rw [of_mem_charsWhile hc] at hclose
  contradiction

/-- A wrapped list that ends in front of further input is there without it. -/
theorem wrappedAttributes_shorten (h : LineBetween source tail) {close : Char}
    (hclose : isSpace close = false) {found : List (Attribute α)}
    (hfound : wrappedAttributes close (source ++ tail) = .ok (found, rest ++ tail)) :
    wrappedAttributes close source = .ok (found, rest) := by
  have hbreak : '\n' ∉ [close] := by
    intro hmem
    rw [← List.mem_singleton.mp hmem] at hclose
    contradiction
  induction hlength : source.length using Nat.strongRecOn generalizing source found with
  | ind length ih =>
    subst hlength
    have hbracket : .char close :: rest <:+ source :=
      List.suffix_append_self_iff.mp (suffix_of_wrappedAttributes hfound)
    have hgap : afterWhile (Layout.wrapped close).isGap source ≠ [] :=
      gap_of_bracket hclose hbracket
    have hstart := h.of_suffix (accounts_afterWhile _ source).suffix hgap
    have hnonempty : ¬ source.isEmpty = true := fun hempty => by
      rw [List.isEmpty_iff.mp hempty] at hgap
      exact hgap rfl
    have hlonger : ¬ (source ++ tail).isEmpty = true := fun hempty =>
      h.append_ne_nil (List.isEmpty_iff.mp hempty)
    have hlook : literal? [close] (afterWhile isSpace (source ++ tail)) =
        (literal? [close] (afterWhile isSpace source)).map (· ++ tail) := by
      have hspace : afterWhile isSpace source ≠ [] := hgap
      rw [afterWhile_prolong tail (.inl hspace)]
      exact literal?_prolong tail hstart hbreak
    rw [wrappedAttributes_eq, if_neg hlonger, hlook] at hfound
    rw [wrappedAttributes_eq, if_neg hnonempty]
    cases hmark : literal? [close] (afterWhile isSpace source) with
    | some after =>
      rw [hmark] at hfound
      obtain ⟨rfl, hrest⟩ := Prod.mk.inj (Except.ok.inj hfound)
      rw [List.append_cancel_right hrest]
    | none =>
      rw [hmark] at hfound
      obtain ⟨found, hentry, hfound⟩ := of_bind_ok hfound
      cases found with
      | none => contradiction
      | some entry =>
        obtain ⟨entry, after⟩ := entry
        obtain ⟨⟨more, last⟩, hmore, hfound⟩ := of_bind_ok hfound
        obtain ⟨rfl, rfl⟩ := Prod.mk.inj (Except.ok.inj hfound)
        obtain ⟨front, rfl, hsuffix, hfront⟩ := @exists_append_of_suffix _ _ (.char close :: rest) _ _
          (suffix_of_wrappedAttributes hmore) (accounts_attribute? hentry).suffix
        have hne : front ≠ [] := by
          rintro rfl
          exact absurd (List.suffix_nil.mp hsuffix) (List.cons_ne_nil _ _)
        have hshorter := attribute?_shorten h hne hgap hentry
        have hmore := ih front.length (length_of_attribute? hshorter) (h.of_suffix hfront hne) hmore rfl
        show (attribute? (.wrapped close) source >>= _) = _
        rw [hshorter]
        show (wrappedAttributes close front >>= _) = _
        rw [hmore]
        rfl

/-- Closing brackets are no white space. -/
theorem not_isSpace_closing {opening close : Char} (h : closing? opening = some close) :
    isSpace close = false := by
  unfold closing? at h
  split at h
  · rw [← Option.some.inj h]; rfl
  · rw [← Option.some.inj h]; rfl
  · rw [← Option.some.inj h]; rfl
  · contradiction

/-! ## Headers -/

/-- Where the further input begins with white space, what is left behind a character that is none has
all of it left. -/
theorem exists_append_of_char {spaces : List Char} (hspaces : ∀ c ∈ spaces, isSpace c = true)
    {place after : Source α} {c : Char} (hc : isSpace c = false) (hplace : place <:+ after)
    (hafter : .char c :: after <:+ source ++ (ofChars spaces ++ place)) :
    ∃ rest, after = rest ++ (ofChars spaces ++ place) := by
  have hlonger : ¬ .char c :: after <:+ ofChars spaces ++ place := by
    intro hpart
    obtain ⟨front, rfl⟩ := hplace
    have hfront : .char c :: front <:+ ofChars spaces := List.suffix_append_self_iff.mp hpart
    obtain ⟨d, hd, heq⟩ := List.mem_map.mp (hfront.subset List.mem_cons_self)
    obtain rfl := Symbol.char.inj heq
    rw [hspaces _ hd] at hc
    contradiction
  have hall := (List.suffix_or_suffix_of_suffix hafter (List.suffix_append _ _)).resolve_left hlonger
  rcases List.suffix_cons_iff.mp hall with heq | ⟨rest, hrest⟩
  · exact absurd (heq ▸ List.suffix_rfl) hlonger
  · exact ⟨rest, hrest.symm⟩

theorem attributes_shorten {spaces : List Char} (hspaces : ∀ c ∈ spaces, isSpace c = true)
    {place after : Source α} (h : EndsLine source) (hplace : place <:+ after)
    {found : List (Attribute α)}
    (hfound : attributes (source ++ (ofChars spaces ++ place)) = .ok (found, after)) :
    ∃ rest, after = rest ++ (ofChars spaces ++ place) ∧
      attributes source = .ok (found, rest) := by
  have hinline : inlineAttributes (source ++ (ofChars spaces ++ place)) = .ok (found, after) →
      ∃ rest, after = rest ++ (ofChars spaces ++ place) ∧
        inlineAttributes source = .ok (found, rest) := by
    intro hfound
    obtain ⟨⟨_, rest⟩, hbefore, heq⟩ := inlineAttributes_shorten (.inl h) hfound
    obtain ⟨rfl, rfl⟩ := Prod.mk.inj heq
    exact ⟨rest, rfl, hbefore⟩
  have hstart := h.afterWhile (p := isBlank) rfl
  unfold attributes at hfound ⊢
  rw [afterWhile_prolong _ (.inl hstart.ne_nil)] at hfound
  cases hfront : afterWhile isBlank source with
  | nil => exact absurd hfront hstart.ne_nil
  | cons symbol inside =>
    rw [hfront] at hstart hfound
    cases symbol with
    | slot value => exact hinline hfound
    | char opening =>
      rw [List.cons_append] at hfound
      simp only at hfound ⊢
      cases hclose : closing? opening with
      | none =>
        rw [hclose] at hfound
        exact hinline hfound
      | some close =>
        rw [hclose] at hfound
        have hspace := not_isSpace_closing hclose
        have hinside : LineBetween inside (ofChars spaces ++ place) :=
          .of_char (.inl hstart) (closing?_ne hclose).1
        obtain ⟨rest, rfl⟩ := exists_append_of_char hspaces hspace hplace
          (suffix_of_wrappedAttributes hfound)
        exact ⟨rest, rfl, wrappedAttributes_shorten hinside hspace hfound⟩

theorem refName_shorten (h : LineBetween source tail) {found : Option (Word α) × Source α}
    (hfound : refName (source ++ tail) = .ok found) :
    ∃ before, refName source = .ok before ∧ prolong tail before = found := by
  refine exists_ok (fun _ hbefore => (refName_prolong tail h hbefore).1) (fun hfails => ?_) hfound
  have hstart := h.afterWhile (p := isBlank) rfl
  unfold refName at hfails ⊢
  rw [afterWhile_prolong tail (h.held rfl)]
  split at hfails
  · rename_i after hmark
    rw [hmark] at hstart ⊢
    have hsame := word?_prolong tail (hstart.of_char (by decide)) (p := isIdentifierChar) rfl
    split at hfails
    · exact absurd hfails (not_fails_ok _)
    · rename_i hnone
      rw [hnone] at hsame
      simp only [List.cons_append, hsame, Option.map_none]
      exact ⟨_, rfl⟩
  · exact absurd hfails (not_fails_ok _)

theorem openingRest_shorten {spaces : List Char} (hspaces : ∀ c ∈ spaces, isSpace c = true)
    {place inner : Source α} (h : EndsLine source) (hplace : place <:+ inner)
    {named : Naming α} {opening : Opening α}
    (hopening : openingRest named (source ++ (ofChars spaces ++ place)) = .ok (opening, inner)) :
    ∃ rest, inner = rest ++ (ofChars spaces ++ place) ∧
      openingRest named source = .ok (opening, rest) := by
  have hstart := h.afterWhile (p := isSpacer) rfl
  have hheld : Held isSpacer (afterWhile isSpacer source) (ofChars spaces ++ place) :=
    .inl hstart.ne_nil
  rw [openingRest, charsWhile_prolong _ hheld, afterWhile_prolong _ hheld] at hopening
  obtain ⟨⟨written, behind⟩, hwritten, hopening⟩ := of_bind_ok hopening
  obtain ⟨⟨name, after⟩, hname, hopening⟩ := of_bind_ok hopening
  obtain ⟨rfl, rfl⟩ := Prod.mk.inj (Except.ok.inj hopening)
  obtain ⟨behind, rfl, hwritten'⟩ := attributes_shorten hspaces hstart
    (hplace.trans (accounts_refName hname).suffix) hwritten
  have hbehind : LineBetween behind (ofChars spaces ++ place) :=
    (attributes_prolong _ (.inl hstart) hwritten').2
  obtain ⟨⟨_, rest⟩, hname', heq⟩ := refName_shorten hbehind hname
  obtain ⟨rfl, rfl⟩ := Prod.mk.inj heq
  refine ⟨rest, rfl, ?_⟩
  rw [openingRest]
  simp only [hwritten', hname', bind, Except.bind]
  rfl

/-! ## Control flow lines -/

theorem instructionName_shorten (h : LineBetween source tail)
    {found : Option (String × Source α)} (hfound : instructionName (source ++ tail) = .ok found) :
    ∃ before, instructionName source = .ok before ∧ before.map (prolong tail) = found := by
  refine exists_ok (fun _ hbefore => (instructionName_prolong tail h hbefore).1) (fun hfails => ?_)
    hfound
  unfold instructionName at hfails
  split at hfails
  · rename_i rest
    have hword := (instructionWord?_prolong tail h).1
    split at hfails
    · rename_i hnone
      rw [hnone] at hword
      rw [List.cons_append] at hword ⊢
      simp only [instructionName, hword, Option.map_none]
      exact ⟨_, rfl⟩
    · exact absurd hfails (not_fails_ok _)
  · exact absurd hfails (not_fails_ok _)

theorem endOfLine_fails (part : LinePart)
    (hfails : Fails (endOfLine part source)) : Fails (endOfLine part (source ++ tail)) := by
  unfold endOfLine at hfails
  split at hfails
  · exact absurd hfails (not_fails_ok _)
  · rename_i hblank
    split at hfails
    · exact absurd hfails (not_fails_ok _)
    · rename_i hempty
      have hne : source ≠ [] := fun hnil => hempty (List.isEmpty_iff.mpr hnil)
      have hlonger : ¬ (source ++ tail).isEmpty = true := fun hempty =>
        hne (List.append_eq_nil_iff.mp (List.isEmpty_iff.mp hempty)).1
      rw [endOfLine, blankLine?_prolong_none tail hne hblank]
      simp only [if_neg hlonger]
      exact ⟨_, rfl⟩

/-- A line that ends in the same way with more input behind it or not at all leaves the same. -/
theorem exists_leaves {β γ : Type} {before : Except β (γ × Source α)} {after : Except β (γ × Source α)}
    (hok : ∀ found rest, before = .ok (found, rest) →
      ∃ last, after = .ok (found, last) ∧ Leaves tail rest last)
    (hfails : Fails before → Fails after) {found : γ} {last : Source α}
    (h : after = .ok (found, last)) : ∃ rest, before = .ok (found, rest) ∧ Leaves tail rest last := by
  cases before with
  | error failure =>
    obtain ⟨_, hfailed⟩ := hfails ⟨failure, rfl⟩
    rw [hfailed] at h
    contradiction
  | ok value =>
    obtain ⟨_, hafter, hleaves⟩ := hok value.1 value.2 rfl
    obtain ⟨rfl, rfl⟩ := Prod.mk.inj (Except.ok.inj (hafter.symm.trans h))
    exact ⟨value.2, rfl, hleaves⟩

theorem ifLine_fails (h : LineBetween source tail) (hfails : Fails (ifLine source)) :
    Fails (ifLine (source ++ tail)) := by
  unfold ifLine at hfails ⊢
  rw [slot?_prolong tail h.front]
  cases hslot : slot? source with
  | none => exact ⟨_, rfl⟩
  | some found =>
    rw [hslot] at hfails
    rcases of_bind_fails hfails with hfails | ⟨_, -, hfails⟩
    · exact (endOfLine_fails _ hfails).bind _
    · exact absurd hfails (not_fails_ok _)

theorem forLine_fails (h : LineBetween source tail) (hfails : Fails (forLine source)) :
    Fails (forLine (source ++ tail)) := by
  unfold forLine at hfails ⊢
  rw [run?_prolong tail h (p := isIdentifierChar) rfl]
  cases hname : run? isIdentifierChar source with
  | none => exact ⟨_, rfl⟩
  | some found =>
    obtain ⟨name, behind⟩ := found
    obtain ⟨hof', hbetween⟩ := ofMark?_prolong tail (h.of_run? rfl hname)
    rw [hname] at hfails
    simp only [Option.map_some, prolong, hof'] at hfails ⊢
    cases hof : ofMark? behind with
    | none => exact ⟨_, rfl⟩
    | some start =>
      have hstart := hbetween start hof
      rw [hof] at hfails
      simp only [Option.map_some, slot?_prolong tail hstart.front] at hfails ⊢
      cases hslot : slot? start with
      | none => exact ⟨_, rfl⟩
      | some found =>
        rw [hslot] at hfails
        rcases of_bind_fails hfails with hfails | ⟨_, -, hfails⟩
        · exact (endOfLine_fails _ hfails).bind _
        · exact absurd hfails (not_fails_ok _)

theorem instructionRest_shorten (h : LineBetween source tail) {word : String}
    {found : Instruction α} {after : Source α}
    (hline : instructionRest word (source ++ tail) = .ok (found, after)) :
    ∃ rest, instructionRest word source = .ok (found, rest) ∧ Leaves tail rest after := by
  refine exists_leaves (fun _ _ hbefore => instructionRest_prolong tail h hbefore) (fun hfails => ?_)
    hline
  have hstart := h.afterWhile (p := isBlank) rfl
  unfold instructionRest at hfails ⊢
  rw [afterWhile_prolong tail (h.held rfl)]
  split
  · exact ifLine_fails hstart hfails
  · exact forLine_fails hstart hfails
  · exact ⟨_, rfl⟩

theorem endOfLine_shorten (h : LineBetween source tail) {part : LinePart} {after : Source α}
    (hend : endOfLine part (source ++ tail) = .ok after) :
    ∃ rest, endOfLine part source = .ok rest ∧ Leaves tail rest after := by
  cases hbefore : endOfLine part source with
  | error failure =>
    obtain ⟨_, hfailed⟩ := @endOfLine_fails _ source tail part ⟨failure, hbefore⟩
    rw [hfailed] at hend
    contradiction
  | ok rest =>
    obtain ⟨_, hend', hleaves⟩ := endOfLine_prolong tail h hbefore
    obtain rfl := Except.ok.inj (hend'.symm.trans hend)
    exact ⟨rest, rfl, hleaves⟩

end IndentMarkup.Parser
