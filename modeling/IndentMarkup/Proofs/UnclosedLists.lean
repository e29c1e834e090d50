import IndentMarkup.Proofs.BrokenHeaders
import IndentMarkup.Proofs.Delimited

/-! Attribute lists that are not closed. The entries of a wrapped list are read in the same way if
its bracket is missing and the input ends there. Whether the end is noticed depends on what stands
in front of it: the parser looks for the end of the input before it passes over white space, so
behind an entry it finds white space where the name of a further one should be. Only the white space
behind an equals sign goes with the entry. -/
namespace IndentMarkup

open Text (isBlank isSpace)
open Source (ofChars ofText)

variable {α : Type}

namespace Parser

variable {source rest tail : Source α} {close opening : Char}

/-! ## Runs in front of their end -/

theorem charsWhile_append_stops {p : Char → Bool} (h : Stops p tail) (source : Source α) :
    charsWhile p (source ++ tail) = charsWhile p source := by
  fun_induction charsWhile p source with
  | case1 c rest hc ih => simp [charsWhile, hc, ih]
  | case2 c rest hc => simp [charsWhile, hc]
  | case3 source hsource =>
    cases source with
    | nil => exact charsWhile_of_stops h
    | cons symbol rest =>
      cases symbol with
      | char c => exact absurd rfl (hsource c rest)
      | slot value => rfl

theorem afterWhile_append_stops {p : Char → Bool} (h : Stops p tail) (source : Source α) :
    afterWhile p (source ++ tail) = afterWhile p source ++ tail := by
  fun_induction afterWhile p source with
  | case1 c rest hc ih => simp [afterWhile, hc, ih]
  | case2 c rest hc => simp [afterWhile, hc]
  | case3 source hsource =>
    cases source with
    | nil => exact afterWhile_of_stops h
    | cons symbol rest =>
      cases symbol with
      | char c => exact absurd rfl (hsource c rest)
      | slot value => rfl

theorem of_slot? {value : α} (h : slot? source = some (value, rest)) :
    source = .slot value :: rest := by
  cases source with
  | nil => contradiction
  | cons symbol more =>
    cases symbol with
    | char c => contradiction
    | slot other =>
      obtain ⟨rfl, rfl⟩ := Prod.mk.inj (Option.some.inj h)
      rfl

theorem slot?_append (source : Source α) (h : slot? tail = none) :
    slot? (source ++ tail) = (slot? source).map (prolong tail) := by
  cases source with
  | nil => exact h
  | cons symbol rest => cases symbol <;> rfl

theorem word?_append {p : Char → Bool} (hslot : slot? tail = none) (hstops : Stops p tail)
    (source : Source α) : word? p (source ++ tail) = (word? p source).map (prolong tail) := by
  unfold word? run?
  rw [slot?_append source hslot, charsWhile_append_stops hstops, afterWhile_append_stops hstops]
  cases slot? source with
  | some found => rfl
  | none => cases charsWhile p source <;> rfl

/-! ## Beginnings of values -/

/-- The input begins neither with a slot nor with a quote. -/
def BeginsPlain : Source α → Prop
  | [] => True
  | .slot _ :: _ => False
  | .char c :: _ => c ≠ '"' ∧ c ≠ '\''

theorem BeginsPlain.append (h : BeginsPlain source) (htail : BeginsPlain tail) :
    BeginsPlain (source ++ tail) := by
  cases source with
  | nil => exact htail
  | cons symbol rest => cases symbol <;> exact h

theorem value_begins (source : Source α) :
    (∃ value rest, source = .slot value :: rest) ∨
      (∃ quote rest, (quote = '"' ∨ quote = '\'') ∧ source = .char quote :: rest) ∨
        BeginsPlain source := by
  match source with
  | [] => exact .inr (.inr trivial)
  | .slot value :: rest => exact .inl ⟨value, rest, rfl⟩
  | .char c :: rest =>
    by_cases hc : c = '"' ∨ c = '\''
    · exact .inr (.inl ⟨c, rest, hc, rfl⟩)
    · exact .inr (.inr (not_or.mp hc))

/-- A value that is no slot and not in quotes is a run of its class. -/
theorem attributeValue_plain {layout : Layout} (h : BeginsPlain source) :
    attributeValue layout source =
      .ok (.text (String.ofList (charsWhile layout.isPlain source)),
        afterWhile layout.isPlain source) := by
  unfold attributeValue
  split
  · exact absurd h id
  · exact absurd rfl h.1
  · exact absurd rfl h.2
  · dsimp only
    rw [unquoted_eq, drop_charsWhile]

theorem attributeValue_quote {layout : Layout} {quote : Char} (h : quote = '"' ∨ quote = '\'')
    (rest : Source α) : attributeValue layout (.char quote :: rest) = quotedRest quote rest := by
  rcases h with rfl | rfl <;> rfl

/-! ## In front of the bracket

What a wrapped list holds is read in the same way without its bracket. -/

/-- The bracket that closes a list. -/
structure Closes (close : Char) : Prop where
  noSpace : isSpace close = false
  noName : isNameChar close = false
  noEquals : close ≠ '='
  noStar : close ≠ '*'
  noQuote : close ≠ '"' ∧ close ≠ '\''

theorem closes_of_closing? (h : closing? opening = some close) : Closes close := by
  rcases of_closing? h with ⟨-, rfl⟩ | ⟨-, rfl⟩ | ⟨-, rfl⟩ <;>
    exact ⟨by decide, by decide, by decide, by decide, by decide, by decide⟩

/-- A text in quotes ends at its quote. -/
theorem quotedRest_append_char {quote c : Char} (hc : c ≠ quote) {found : Word α × Source α}
    (hfound : quotedRest quote (source ++ [.char c]) = .ok found) :
    ∃ before, quotedRest quote source = .ok before ∧ found = prolong [.char c] before := by
  have hsource := charsWhile_append_afterWhile (fun d => d != '\n' && d != quote) source
  unfold quotedRest at hfound ⊢
  simp only at hfound ⊢
  cases hstart : afterWhile (fun d => d != '\n' && d != quote) source with
  | nil =>
    rw [hstart, List.append_nil] at hsource
    rw [← hsource, afterWhile_ofChars fun d hd => of_mem_charsWhile hd] at hfound
    cases hp : c != '\n' && c != quote <;> simp [afterWhile, hp, hc] at hfound
  | cons symbol after =>
    have hheld : Held (fun d => d != '\n' && d != quote)
        (afterWhile (fun d => d != '\n' && d != quote) source) [.char c] :=
      .inl (hstart ▸ List.cons_ne_nil _ _)
    rw [afterWhile_prolong _ hheld, charsWhile_prolong _ hheld, hstart, List.cons_append] at hfound
    cases symbol with
    | slot value => contradiction
    | char d =>
      simp only at hfound ⊢
      split at hfound
      · rename_i hquote
        rw [if_pos hquote]
        exact ⟨_, rfl, (Except.ok.inj hfound).symm⟩
      · contradiction

section

variable (h : Closes close)

include h

theorem afterGap_unclosed (source : Source α) :
    afterWhile (Layout.wrapped close).isGap (source ++ [.char close]) =
      afterWhile (Layout.wrapped close).isGap source ++ [.char close] := by
  have hstops : Stops isSpace ([.char close] : Source α) := h.noSpace
  exact afterWhile_append_stops hstops source

theorem word?_unclosed (source : Source α) :
    word? isNameChar (source ++ [.char close]) =
      (word? isNameChar source).map (prolong [.char close]) := by
  have hstops : Stops isNameChar ([.char close] : Source α) := h.noName
  exact word?_append rfl hstops source

theorem splat?_unclosed {found : Option (Attribute α × Source α)}
    (hfound : splat? (.wrapped close) (source ++ [.char close]) = .ok found) :
    ∃ before, splat? (.wrapped close) source = .ok before ∧
      found = before.map (prolong [.char close]) := by
  cases hstart : afterWhile (Layout.wrapped close).isGap source with
  | nil =>
    have hnone : splat? (.wrapped close) (source ++ [.char close]) = .ok none := by
      refine splat?_of_stops ?_
      rw [afterGap_unclosed h, hstart]
      exact beq_eq_false_iff_ne.mpr h.noStar
    obtain rfl := Except.ok.inj (hnone.symm.trans hfound)
    exact ⟨none, splat?_of_stops (hstart ▸ stops_nil _), rfl⟩
  | cons symbol after =>
    by_cases hstar : symbol = .char '*'
    · subst hstar
      unfold splat? at hfound ⊢
      rw [afterGap_unclosed h, hstart, List.cons_append] at hfound
      rw [hstart]
      have hslots (more : Source α) :
          slot? (more ++ [.char close]) = (slot? more).map (prolong [.char close]) :=
        slot?_append more rfl
      simp only [afterGap_unclosed h, hslots] at hfound ⊢
      cases hslot : slot? (afterWhile (Layout.wrapped close).isGap after) with
      | none =>
        rw [hslot] at hfound
        contradiction
      | some slot =>
        rw [hslot] at hfound
        exact ⟨_, rfl, (Except.ok.inj hfound).symm⟩
    · have hnone : splat? (.wrapped close) (source ++ [.char close]) = .ok none := by
        refine splat?_of_stops ?_
        rw [afterGap_unclosed h, hstart]
        exact stops_cons hstar _
      obtain rfl := Except.ok.inj (hnone.symm.trans hfound)
      exact ⟨none, splat?_of_stops (hstart ▸ stops_cons hstar _), rfl⟩

theorem pairName?_unclosed (source : Source α) :
    pairName? (.wrapped close) (source ++ [.char close]) =
      (pairName? (.wrapped close) source).map (prolong [.char close]) := by
  simp only [Parser.pairName?, afterGap_unclosed h, word?_unclosed h]
  cases word? isNameChar (afterWhile (Layout.wrapped close).isGap source) with
  | none => rfl
  | some found =>
    simp only [Option.map_some, prolong, Option.bind_eq_bind, Option.bind_some, afterGap_unclosed h]
    cases hstart : afterWhile (Layout.wrapped close).isGap found.2 with
    | nil => simp [h.noEquals]
    | cons symbol after =>
      by_cases hequals : symbol = .char '='
      · subst hequals
        simp only [List.cons_append, afterGap_unclosed h]
        rfl
      · simp [hequals]

theorem attributeValue_unclosed {found : Word α × Source α}
    (hfound : attributeValue (.wrapped close) (source ++ [.char close]) = .ok found) :
    ∃ before, attributeValue (.wrapped close) source = .ok before ∧
      found = prolong [.char close] before := by
  rcases value_begins source with ⟨value, rest, rfl⟩ | ⟨quote, rest, hquote, rfl⟩ | hplain
  · exact ⟨_, rfl, (Except.ok.inj hfound).symm⟩
  · have hne : close ≠ quote := by
      rcases hquote with rfl | rfl
      · exact h.noQuote.1
      · exact h.noQuote.2
    rw [List.cons_append, attributeValue_quote hquote] at hfound
    rw [attributeValue_quote hquote]
    exact quotedRest_append_char hne hfound
  · have hstops : Stops (Layout.wrapped close).isPlain ([.char close] : Source α) := by
      simp [Layout.isPlain]
    have hbegins : BeginsPlain ([.char close] : Source α) := h.noQuote
    rw [attributeValue_plain (hplain.append hbegins), charsWhile_append_stops hstops,
      afterWhile_append_stops hstops] at hfound
    exact ⟨_, attributeValue_plain hplain, (Except.ok.inj hfound).symm⟩

theorem pair?_unclosed {found : Option (Attribute α × Source α)}
    (hfound : pair? (.wrapped close) (source ++ [.char close]) = .ok found) :
    ∃ before, pair? (.wrapped close) source = .ok before ∧
      found = before.map (prolong [.char close]) := by
  unfold pair? at hfound ⊢
  rw [pairName?_unclosed h] at hfound
  cases hname : pairName? (.wrapped close) source with
  | none =>
    rw [hname] at hfound
    exact ⟨none, rfl, (Except.ok.inj hfound).symm⟩
  | some name =>
    rw [hname] at hfound
    obtain ⟨value, hvalue, hfound⟩ := of_bind_ok hfound
    obtain ⟨before, hbefore, rfl⟩ := attributeValue_unclosed h hvalue
    simp only [hbefore, bind, Except.bind]
    exact ⟨_, rfl, (Except.ok.inj hfound).symm⟩

theorem bareName?_unclosed (source : Source α) :
    bareName? (.wrapped close) (source ++ [.char close]) =
      (bareName? (.wrapped close) source).map (prolong [.char close]) := by
  simp only [Parser.bareName?, afterGap_unclosed h, word?_unclosed h, Option.map_map]
  rfl

/-- An entry in front of the bracket is there without it. -/
theorem attribute?_unclosed {found : Option (Attribute α × Source α)}
    (hfound : attribute? (.wrapped close) (source ++ [.char close]) = .ok found) :
    ∃ before, attribute? (.wrapped close) source = .ok before ∧
      found = before.map (prolong [.char close]) := by
  unfold attribute? at hfound ⊢
  obtain ⟨splat, hsplat, hfound⟩ := of_bind_ok hfound
  obtain ⟨before, hbefore, rfl⟩ := splat?_unclosed h hsplat
  rw [hbefore]
  cases before with
  | some entry => exact ⟨_, rfl, (Except.ok.inj hfound).symm⟩
  | none =>
    obtain ⟨pair, hpair, hfound⟩ := of_bind_ok hfound
    obtain ⟨before, hbefore, rfl⟩ := pair?_unclosed h hpair
    show ∃ found', (pair? (.wrapped close) source >>= _) = _ ∧ _
    rw [hbefore]
    cases before with
    | some entry => exact ⟨_, rfl, (Except.ok.inj hfound).symm⟩
    | none =>
      refine ⟨_, rfl, ?_⟩
      rw [← bareName?_unclosed h]
      exact (Except.ok.inj hfound).symm

end

/-! ## White space in the place of the bracket -/

/-- What is not empty ends like anything that it stands at the end of. -/
theorem getLast?_of_suffix (hsuffix : rest <:+ source) (hne : rest ≠ []) :
    source.getLast? = rest.getLast? := by
  obtain ⟨front, rfl⟩ := hsuffix
  rw [List.getLast?_append, List.getLast?_eq_some_getLast hne, Option.some_or]

/-- A run to the end of the input ends with a character of its class. -/
theorem exists_getLast?_run {p : Char → Bool} (hrun : afterWhile p source = [])
    (hne : source ≠ []) : ∃ c, source.getLast? = some (.char c) ∧ p c = true := by
  have hall : ∀ symbol ∈ source, ∃ c, symbol = .char c ∧ p c = true := by
    have hsource := charsWhile_append_afterWhile p source
    rw [hrun, List.append_nil] at hsource
    rw [← hsource]
    intro symbol hmem
    obtain ⟨c, hc, rfl⟩ := List.mem_map.mp hmem
    exact ⟨c, rfl, of_mem_charsWhile hc⟩
  obtain ⟨c, hlast, hc⟩ := hall _ (List.getLast_mem hne)
  exact ⟨c, hlast ▸ List.getLast?_eq_some_getLast hne, hc⟩

/-- Where the input does not end with white space, no end of it is white space throughout. -/
theorem eq_nil_of_run (hdark : ∀ c, source.getLast? = some (.char c) → isSpace c = false)
    (hsuffix : rest <:+ source) (hrun : afterWhile isSpace rest = []) : rest = [] := by
  by_cases hne : rest = []
  · exact hne
  · obtain ⟨c, hlast, hc⟩ := exists_getLast?_run hrun hne
    rw [← getLast?_of_suffix hsuffix hne] at hlast
    exact absurd ((hdark c hlast).symm.trans hc) Bool.false_ne_true

theorem getLast?_run {p : Char → Bool} {c : Char} (hc : p c = false)
    (hrun : afterWhile p source = []) : source.getLast? ≠ some (.char c) := by
  intro hlast
  have hne : source ≠ [] := by
    rintro rfl
    contradiction
  obtain ⟨d, hd, hclass⟩ := exists_getLast?_run hrun hne
  rw [Symbol.char.inj (Option.some.inj (hlast.symm.trans hd)), hclass] at hc
  contradiction

theorem splat?_last {layout : Layout} {entry : Attribute α}
    (h : splat? layout source = .ok (some (entry, []))) :
    source.getLast? ≠ some (.char '=') := by
  unfold splat? at h
  split at h
  · rename_i after hstar
    split at h
    · rename_i value last hslot
      obtain ⟨-, rfl⟩ := Prod.mk.inj (Option.some.inj (Except.ok.inj h))
      have hend : [.slot value] <:+ source := by
        rw [← of_slot? hslot]
        refine (accounts_afterWhile _ after).suffix.trans ?_
        exact (hstar ▸ List.suffix_cons _ after : after <:+ _).trans
          (accounts_afterWhile _ source).suffix
      rw [getLast?_of_suffix hend (List.cons_ne_nil _ _)]
      simp
    · contradiction
  · exact absurd h (pure_none_ne _)

theorem quotedRest_last {quote : Char} (hquote : quote ≠ '=') {word : Word α}
    (h : quotedRest quote source = .ok (word, [])) : source.getLast? ≠ some (.char '=') := by
  unfold quotedRest at h
  simp only at h
  split at h
  · rename_i c after hc
    split at h
    · rename_i hsame
      obtain ⟨-, rfl⟩ := Prod.mk.inj (Except.ok.inj h)
      have hend : [.char c] <:+ source := hc ▸ (accounts_afterWhile _ source).suffix
      rw [getLast?_of_suffix hend (List.cons_ne_nil _ _)]
      simpa [hsame] using hquote
    · contradiction
  · contradiction

theorem word?_last {word : Word α} (h : word? isNameChar source = some (word, [])) :
    source.getLast? ≠ some (.char '=') := by
  unfold word? at h
  split at h
  · rename_i value rest hslot
    obtain ⟨-, rfl⟩ := Prod.mk.inj (Option.some.inj h)
    rw [of_slot? hslot]
    simp
  · obtain ⟨⟨text, rest⟩, hrun, hword⟩ := Option.map_eq_some_iff.mp h
    obtain ⟨-, rfl⟩ := Prod.mk.inj hword
    unfold run? at hrun
    split at hrun
    · contradiction
    · exact getLast?_run (by rfl) (Prod.mk.inj (Option.some.inj hrun)).2

theorem slot?_ofChars (text : List Char) : slot? (ofChars text : Source α) = none := by
  cases text <;> rfl

theorem literal?_none_front {c : Char} (hne : source ≠ [])
    (h : literal? [c] (source ++ tail) = none) (other : Source α) :
    literal? [c] (source ++ other) = none := by
  cases source with
  | nil => exact absurd rfl hne
  | cons symbol more =>
    cases symbol with
    | slot value => rfl
    | char d =>
      by_cases hcd : c = d
      · simp [literal?, hcd] at h
      · simp [literal?, hcd]

/-- Where the entries behind the first one fail, so does the list. -/
theorem wrappedAttributes_behind {entry : Attribute α} {failure : Failure α}
    (hbracket : literal? [close] (afterWhile isSpace source) = none)
    (hentry : attribute? (.wrapped close) source = .ok (some (entry, rest)))
    (hmore : wrappedAttributes close rest = .error failure) :
    wrappedAttributes close source = .error failure := by
  have hne : ¬ source.isEmpty = true := by
    intro hempty
    have hlength := length_of_attribute? hentry
    rw [List.isEmpty_iff.mp hempty] at hlength
    exact absurd hlength (Nat.not_lt_zero _)
  rw [wrappedAttributes_eq, if_neg hne, hbracket, hentry]
  simp only [hmore, bind, Except.bind]

section

variable {gap : List Char} (hgap : ∀ c ∈ gap, isSpace c = true)

include hgap

theorem stops_gap {p : Char → Bool} (hp : ∀ c, isSpace c = true → p c = false) :
    Stops p (ofChars gap : Source α) := by
  cases gap with
  | nil => trivial
  | cons c gap => exact hp c (hgap c List.mem_cons_self)

theorem afterWhile_gap : afterWhile isSpace (ofChars gap : Source α) = [] := by
  have hall : afterWhile isSpace (ofChars gap ++ []) = ([] : Source α) :=
    afterWhile_append hgap (stops_nil _)
  rwa [List.append_nil] at hall

/-- A value that ends with the input ends in front of white space as well. -/
theorem attributeValue_last {word : Word α} (hne : source ≠ [])
    (h : attributeValue (.wrapped close) source = .ok (word, [])) :
    attributeValue (.wrapped close) (source ++ ofChars gap) = .ok (word, ofChars gap) ∧
      source.getLast? ≠ some (.char '=') := by
  rcases value_begins source with ⟨value, rest, rfl⟩ | ⟨quote, rest, hquote, rfl⟩ | hplain
  · obtain ⟨rfl, rfl⟩ := Prod.mk.inj (Except.ok.inj h)
    exact ⟨rfl, by simp⟩
  · rw [attributeValue_quote hquote] at h
    have hrest : rest ≠ [] := by
      rintro rfl
      contradiction
    rw [List.cons_append, attributeValue_quote hquote, quotedRest_delimited h,
      getLast?_of_suffix (List.suffix_cons _ rest) hrest]
    refine ⟨rfl, quotedRest_last ?_ h⟩
    rcases hquote with rfl | rfl <;> decide
  · rw [attributeValue_plain hplain] at h
    obtain ⟨rfl, hrun⟩ := Prod.mk.inj (Except.ok.inj h)
    have hstops : Stops (Layout.wrapped close).isPlain (ofChars gap : Source α) :=
      stops_gap hgap fun c hc => not_isPlain_of_isSpace hc _
    have hbegins : BeginsPlain (ofChars gap : Source α) := by
      cases gap with
      | nil => trivial
      | cons c gap =>
        have hc := hgap c List.mem_cons_self
        constructor <;> rintro rfl <;> contradiction
    rw [attributeValue_plain (hplain.append hbegins), charsWhile_append_stops hstops,
      afterWhile_append_stops hstops, hrun]
    exact ⟨rfl, getLast?_run (by rfl) hrun⟩

/-- An equals sign at the end of the input has the white space behind it. -/
theorem pairName?_last (hdark : ∀ c, source.getLast? = some (.char c) → isSpace c = false)
    {name : Word α} (h : pairName? (.wrapped close) source = some (name, [])) :
    pairName? (.wrapped close) (source ++ ofChars gap) = some (name, []) ∧
      source.getLast? = some (.char '=') := by
  obtain ⟨hstart, hbehind⟩ := pairName?_gaps h
  simp only [pairName?, Option.bind_eq_bind, Option.bind_eq_some_iff, Prod.exists] at h
  obtain ⟨_, after, hword, h⟩ := h
  have hafter := hbehind _ _ hword
  split at h
  · rename_i last hequals
    obtain ⟨rfl, hlast⟩ := Prod.mk.inj (Option.some.inj h)
    have hend : .char '=' :: last <:+ source := hequals ▸
      (((accounts_afterWhile _ after).suffix.trans (accounts_word? hword).suffix).trans
        (accounts_afterWhile _ source).suffix)
    obtain rfl := eq_nil_of_run hdark ((List.suffix_cons _ last).trans hend) hlast
    refine ⟨?_, getLast?_of_suffix hend (List.cons_ne_nil _ _)⟩
    have hnil : after ≠ [] := by
      rintro rfl
      exact hafter rfl
    simp only [pairName?, afterWhile_prolong (ofChars gap) (.inl hstart),
      word?_delimited hword hnil, Option.bind_eq_bind, Option.bind_some,
      afterWhile_prolong (ofChars gap) (.inl hafter), hequals, List.cons_append, List.nil_append]
    exact congrArg (fun rest => some (_, rest)) (afterWhile_gap hgap)
  · contradiction

theorem pair?_last (hdark : ∀ c, source.getLast? = some (.char c) → isSpace c = false)
    {entry : Attribute α} (h : pair? (.wrapped close) source = .ok (some (entry, []))) :
    ∃ last, pair? (.wrapped close) (source ++ ofChars gap) = .ok (some (entry, last)) ∧
      (source.getLast? = some (.char '=') → last = []) ∧
        (source.getLast? ≠ some (.char '=') → last = ofChars gap) := by
  unfold pair? at h ⊢
  cases hname : pairName? (.wrapped close) source with
  | none =>
    rw [hname] at h
    exact absurd h (pure_none_ne _)
  | some found =>
    obtain ⟨name, start⟩ := found
    rw [hname] at h
    obtain ⟨⟨value, last⟩, hvalue, h⟩ := of_bind_ok h
    obtain ⟨rfl, rfl⟩ := Prod.mk.inj (Option.some.inj (Except.ok.inj h))
    by_cases hne : start = []
    · subst hne
      obtain ⟨hname', hlast⟩ := pairName?_last hgap hdark hname
      simp only [hname', hvalue]
      exact ⟨[], rfl, fun _ => rfl, fun hother => absurd hlast hother⟩
    · obtain ⟨hvalue', hlast⟩ := attributeValue_last hgap hne hvalue
      rw [← getLast?_of_suffix (accounts_pairName? hname).suffix hne] at hlast
      simp only [pairName?_delimited hname hne, hvalue']
      exact ⟨_, rfl, fun hother => absurd hother hlast, fun _ => rfl⟩

theorem bareName?_last {entry : Attribute α}
    (h : bareName? (.wrapped close) source = some (entry, [])) :
    pairName? (.wrapped close) (source ++ ofChars gap) = none ∧
      bareName? (.wrapped close) (source ++ ofChars gap) = some (entry, ofChars gap) ∧
        source.getLast? ≠ some (.char '=') := by
  obtain ⟨name, rfl, hword⟩ := of_bareName? h
  have hstart : afterWhile (Layout.wrapped close).isGap source ≠ [] := by
    intro hnil
    rw [hnil] at hword
    contradiction
  have hsame : word? isNameChar (afterWhile (Layout.wrapped close).isGap
      (source ++ ofChars gap)) = some (name, ofChars gap) := by
    rw [afterWhile_prolong (ofChars gap) (.inl hstart),
      word?_append (slot?_ofChars gap) (stops_gap hgap fun c hc => not_isName_of_isSpace hc), hword]
    rfl
  refine ⟨pairName?_of_stops hsame ?_, ?_, ?_⟩
  · have hnil : afterWhile (Layout.wrapped close).isGap (ofChars gap : Source α) = [] :=
      afterWhile_gap hgap
    rw [hnil]
    trivial
  · simp only [bareName?, hsame, Option.map_some]
  · rw [getLast?_of_suffix (accounts_afterWhile _ source).suffix hstart]
    exact word?_last hword

/-- An entry that ends with the input is the same entry in front of white space, which goes with it
only if it ends with an equals sign. -/
theorem attribute?_last (hdark : ∀ c, source.getLast? = some (.char c) → isSpace c = false)
    {entry : Attribute α} (h : attribute? (.wrapped close) source = .ok (some (entry, []))) :
    ∃ last, attribute? (.wrapped close) (source ++ ofChars gap) = .ok (some (entry, last)) ∧
      (source.getLast? = some (.char '=') → last = []) ∧
        (source.getLast? ≠ some (.char '=') → last = ofChars gap) := by
  have hsource := gap_of_attribute? h
  unfold attribute? at h ⊢
  obtain ⟨splat, hsplat, h⟩ := of_bind_ok h
  rw [splat?_prolong (ofChars gap) (.inl hsource) hsplat]
  cases splat with
  | some found =>
    obtain rfl := Option.some.inj (Except.ok.inj h)
    exact ⟨_, rfl, fun hlast => absurd hlast (splat?_last hsplat), fun _ => rfl⟩
  | none =>
    obtain ⟨pair, hpair, h⟩ := of_bind_ok h
    show ∃ last, (pair? (.wrapped close) (source ++ ofChars gap) >>= _) = _ ∧ _
    cases pair with
    | some found =>
      obtain rfl := Option.some.inj (Except.ok.inj h)
      obtain ⟨last, hpair', hlast⟩ := pair?_last hgap hdark hpair
      rw [hpair']
      exact ⟨last, rfl, hlast⟩
    | none =>
      obtain ⟨hname, hbare, hlast⟩ := bareName?_last hgap (Except.ok.inj h)
      simp only [pair?, hname]
      exact ⟨_, congrArg Except.ok hbare, fun hequals => absurd hequals hlast, fun _ => rfl⟩

/-! ## Lists without their bracket -/

theorem attribute?_gap (close : Char) :
    attribute? (.wrapped close) (ofChars gap : Source α) = .ok none := by
  have hnil : afterWhile (Layout.wrapped close).isGap (ofChars gap : Source α) = [] :=
    afterWhile_gap hgap
  have hsplat : splat? (.wrapped close) (ofChars gap : Source α) = .ok none :=
    splat?_of_stops (hnil ▸ stops_nil _)
  have hword : word? isNameChar ([] : Source α) = none := rfl
  simp only [attribute?, hsplat, pair?, pairName?, bareName?, hnil, hword, bind, Except.bind,
    Option.bind_none, Option.map_none]
  rfl

theorem wrappedAttributes_gap (close : Char) :
    ∃ failure, wrappedAttributes close (ofChars gap : Source α) = .error failure ∧
      (gap = [] → failure.cause = .unclosedAttributes) ∧
        (gap ≠ [] → failure.cause = .attributeNameExpected) := by
  by_cases hne : gap = []
  · subst hne
    rw [wrappedAttributes_eq]
    exact ⟨_, rfl, fun _ => rfl, fun hother => absurd rfl hother⟩
  · have hsome : ¬ (ofChars gap : Source α).isEmpty = true := by
      simpa [ofChars] using hne
    rw [wrappedAttributes_eq, if_neg hsome, afterWhile_gap hgap, attribute?_gap hgap]
    exact ⟨_, rfl, fun hother => absurd hother hne, fun _ => rfl⟩

/-- What is reported behind the last entry. -/
theorem wrappedAttributes_last
    (hdark : ∀ c, source.getLast? = some (.char c) → isSpace c = false)
    (hbracket : literal? [close] (afterWhile isSpace (source ++ ofChars gap)) = none)
    {entry : Attribute α} (hentry : attribute? (.wrapped close) source = .ok (some (entry, []))) :
    ∃ failure, wrappedAttributes close (source ++ ofChars gap) = .error failure ∧
      (gap = [] ∨ source.getLast? = some (.char '=') → failure.cause = .unclosedAttributes) ∧
        (gap ≠ [] → source.getLast? ≠ some (.char '=') →
          failure.cause = .attributeNameExpected) := by
  obtain ⟨last, hentry', hequals, hother⟩ := attribute?_last hgap hdark hentry
  by_cases hcase : source.getLast? = some (.char '=')
  · obtain rfl := hequals hcase
    have hover : wrappedAttributes close ([] : Source α) = .error ⟨.unclosedAttributes, []⟩ := by
      rw [wrappedAttributes_eq]
      rfl
    exact ⟨_, wrappedAttributes_behind hbracket hentry' hover, fun _ => rfl,
      fun _ hne => absurd hcase hne⟩
  · obtain rfl := hother hcase
    obtain ⟨failure, hfailure, hnone, hsome⟩ := wrappedAttributes_gap (α := α) hgap close
    exact ⟨failure, wrappedAttributes_behind hbracket hentry' hfailure,
      fun hor => hnone (hor.resolve_right hcase), fun hne _ => hsome hne⟩

/-- What is reported of a list that the end of the input leaves open: that it is not closed, if the
input ends with its last entry, and that a name is missing if there is white space behind it. -/
theorem wrappedAttributes_unclosed (h : Closes close) {inside : Source α}
    (hdark : ∀ c, inside.getLast? = some (.char c) → isSpace c = false)
    {entries : List (Attribute α)}
    (hclosed : wrappedAttributes close (inside ++ [.char close]) = .ok (entries, [])) :
    ∃ failure, wrappedAttributes close (inside ++ ofChars gap) = .error failure ∧
      (gap = [] ∨ inside.getLast? = some (.char '=') → failure.cause = .unclosedAttributes) ∧
        (gap ≠ [] → inside.getLast? ≠ some (.char '=') →
          failure.cause = .attributeNameExpected) := by
  generalize hwhole : inside ++ [.char close] = whole at hclosed
  fun_induction wrappedAttributes close whole generalizing inside entries with
  | case1 => contradiction
  | case2 whole hne rest hbracket =>
    subst hwhole
    obtain ⟨-, rfl⟩ := Prod.mk.inj (Except.ok.inj hclosed)
    have hstart := literal?_eq_some.mp hbracket
    rw [afterWhile_append_stops (show Stops isSpace [.char close] from h.noSpace)] at hstart
    -- There is only white space in front of the bracket, and so there is nothing.
    obtain rfl := eq_nil_of_run hdark List.suffix_rfl (List.append_cancel_right hstart)
    obtain ⟨failure, hfailure, hnone, hsome⟩ := wrappedAttributes_gap (α := α) hgap close
    exact ⟨failure, hfailure, fun hother => hnone (hother.resolve_right (by simp)),
      fun hne _ => hsome hne⟩
  | case3 => contradiction
  | case4 => contradiction
  | case5 whole hne hbracket entry rest hentry ih =>
    subst hwhole
    obtain ⟨⟨more, last⟩, hmore, hclosed⟩ := of_bind_ok hclosed
    obtain ⟨-, rfl⟩ := Prod.mk.inj (Except.ok.inj hclosed)
    obtain ⟨before, hbefore, heq⟩ := attribute?_unclosed h hentry
    obtain ⟨⟨_, front⟩, rfl, hfound⟩ := Option.map_eq_some_iff.mp heq.symm
    obtain ⟨rfl, rfl⟩ := Prod.mk.inj hfound
    have hfront := (accounts_attribute? hbefore).suffix
    have hstart : afterWhile isSpace inside ≠ [] := gap_of_attribute? hbefore
    have hbracket' : literal? [close] (afterWhile isSpace (inside ++ ofChars gap)) = none := by
      rw [afterWhile_prolong _ (.inl hstart)] at hbracket ⊢
      exact literal?_none_front hstart hbracket _
    by_cases hnil : front = []
    · subst hnil
      exact wrappedAttributes_last hgap hdark hbracket' hbefore
    · have hlast := getLast?_of_suffix hfront hnil
      obtain ⟨failure, hfailure, hcause⟩ := ih (fun c hc => hdark c (hlast.trans hc)) rfl hmore
      have hentry' := attribute?_delimited hbefore
        (fun hrun => hnil (eq_nil_of_run hdark hfront hrun)) (ofChars gap)
      rw [hlast]
      exact ⟨failure, wrappedAttributes_behind hbracket' hentry' hfailure, hcause⟩

end

/-- An element fails with its list. -/
theorem headerFails_list (hclose : closing? opening = some close) {spacers : List Char}
    (hspacers : ∀ c ∈ spacers, isSpacer c = true) (blanks : Blanks) {failure : Failure α}
    (h : wrappedAttributes close source = .error failure) :
    HeaderFails (ofChars spacers ++ (ofChars blanks.chars ++ .char opening :: source)) failure := by
  have hopening : isBlank opening = false ∧ isSpacer opening = false := by
    rcases of_closing? hclose with ⟨rfl, -⟩ | ⟨rfl, -⟩ | ⟨rfl, -⟩ <;> decide
  have hstops : Stops isSpacer (ofChars blanks.chars ++ .char opening :: source) := by
    cases hchars : blanks.chars with
    | nil => exact hopening.2
    | cons c chars =>
      have hc : isBlank c = true := blanks.blank c (hchars ▸ List.mem_cons_self)
      exact of_isBlank rfl rfl c hc
  intro named
  have hlist : attributes (ofChars blanks.chars ++ .char opening :: source) = .error failure := by
    have hstart : Stops isBlank (.char opening :: source) := hopening.1
    unfold attributes
    rw [afterWhile_append blanks.blank hstart]
    simp only [hclose, h]
  unfold openingRest
  rw [afterWhile_append hspacers hstops, hlist]
  rfl

end Parser

variable {opening close : Char} {spacers gap : List Char} {blanks : Blanks} {inside : Source α}
  {entries : List (Attribute α)}

/-- **A list that is not closed.** The entries of a list with its closing bracket may stand at the
end of the input without it, with white space behind the last one. Then the document fails, since
the list is not closed, provided that there is no white space or that it stands behind an equals
sign; any other white space is taken for the place of a further entry. -/
theorem unclosed_list (hclose : Parser.closing? opening = some close)
    (hspacers : ∀ c ∈ spacers, Parser.isSpacer c = true)
    (hentries : Parser.wrappedAttributes close (inside ++ [.char close]) = .ok (entries, []))
    (hlast : ∀ c, inside.getLast? = some (.char c) → isSpace c = false)
    (hgap : ∀ c ∈ gap, isSpace c = true) {source : Source α}
    (hheader : ⟨.element, ofChars spacers ++ (ofChars blanks.chars ++
      .char opening :: (inside ++ ofChars gap))⟩ ∈ (Parser.Traced.document source).events) :
    ∃ error, parse source = .error error ∧
      (gap = [] ∨ inside.getLast? = some (.char '=') →
        error.cause.message = "unclosed attr list") ∧
          (gap ≠ [] → inside.getLast? ≠ some (.char '=') →
            error.cause.message = "attr name expected") := by
  obtain ⟨failure, hfailure, hunclosed, hname⟩ := Parser.wrappedAttributes_unclosed hgap
    (Parser.closes_of_closing? hclose) hlast hentries
  have hdocument := Parser.document_of_header
    (Parser.headerFails_list hclose hspacers blanks hfailure) hheader
  refine ⟨failure.locate source, ?_, fun h => ?_, fun hne h => ?_⟩
  · rw [parse, hdocument]
    rfl
  · exact congrArg Cause.message (hunclosed h)
  · exact congrArg Cause.message (hname hne h)

/-- Entries of each kind, the last one with an empty value. -/
def Source.openList : Source Nat :=
  interleave ["id='b' checked\n    * ", " href="] [0]

theorem unclosed_list_openList :
    ∃ error, parse (ofText "ul\n  li.a< [" ++ (Source.openList ++ ofText "\n")) = .error error ∧
      error.cause.message = "unclosed attr list" := by
  have hlist : (Parser.wrappedAttributes ']' (Source.openList ++ [.char ']'])).toOption =
      some ([.pair (.text "id") (.text "b"), .bare (.text "checked"), .splat 0,
        .pair (.text "href") (.text "")], []) := by
    decide +kernel
  have hlog : (.element, ofText "< [" ++ (Source.openList ++ ofText "\n")) ∈
      (Parser.Traced.document (ofText "ul\n  li.a< [" ++ (Source.openList ++
        ofText "\n"))).events.map fun event => (event.kind, event.rest) := by
    decide +kernel
  have hequals : Source.openList.getLast? = some (.char '=') := by
    decide +kernel
  have hlast : ∀ c, Source.openList.getLast? = some (.char c) → isSpace c = false := by
    intro c hc
    obtain rfl := Symbol.char.inj (Option.some.inj (hequals.symm.trans hc))
    rfl
  cases hfound : Parser.wrappedAttributes ']' (Source.openList ++ [.char ']']) with
  | error failure =>
    rw [hfound] at hlist
    cases hlist
  | ok found =>
    rw [hfound] at hlist
    obtain rfl := Option.some.inj hlist
    obtain ⟨error, herror, hunclosed, -⟩ :=
      @unclosed_list Nat '[' ']' ['<'] ['\n'] ⟨[' '], List.all_eq_true.mp rfl⟩ Source.openList _ rfl
        (List.all_eq_true.mp rfl) hfound hlast (List.all_eq_true.mp rfl) _
        (Parser.Event.mem_of_parts hlog)
    exact ⟨error, herror, hunclosed (.inr hequals)⟩

/-- White space matters: behind an opening bracket it is no end of the list. -/
theorem unclosed_list_differs :
    ¬ ∀ (source inside : Source Nat) (opening close : Char) (entries : List (Attribute Nat))
      (gap : List Char), Parser.closing? opening = some close →
        Parser.wrappedAttributes close (inside ++ [.char close]) = .ok (entries, []) →
          (∀ c ∈ gap, isSpace c = true) →
            ⟨.element, .char opening :: (inside ++ ofChars gap)⟩ ∈
                (Parser.Traced.document source).events →
              ∃ error, parse source = .error error ∧
                error.cause.message = "unclosed attr list" := by
  intro hclaim
  have hcause : (match parse (ofText "p( " : Source Nat) with
      | .error error => some error.cause
      | .ok _ => none) = some .attributeNameExpected := by
    decide +kernel
  have hlog : (.element, ofText "( ") ∈ (Parser.Traced.document
      (ofText "p( " : Source Nat)).events.map fun event => (event.kind, event.rest) := by
    decide +kernel
  have hempty : Parser.wrappedAttributes ')' ([.char ')'] : Source Nat) = .ok ([], []) := by
    rw [Parser.wrappedAttributes_eq]
    rfl
  obtain ⟨error, herror, hmessage⟩ := hclaim (ofText "p( ") [] '(' ')' [] [' '] rfl hempty
    (List.all_eq_true.mp rfl) (Parser.Event.mem_of_parts hlog)
  rw [herror] at hcause
  rw [Option.some.inj hcause] at hmessage
  exact absurd hmessage (by decide)

end IndentMarkup
