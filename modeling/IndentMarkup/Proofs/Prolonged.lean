import IndentMarkup.Proofs.Scanning
import IndentMarkup.Proofs.SlotsTaken

/-! More input behind the end of a line. A token or a header is read in the same way when more input
follows with a line end between: it stops at the latest where its line ends, or at the bracket that
closes its attribute list. The line may end with the input that is there, or with a line break at
the front of the further input. -/
namespace IndentMarkup.Parser

open Text (isBlank isSpace)
open Source (ofChars)

variable {α : Type} {source rest : Source α}

/-! ## Ends of lines -/

/-- The last line of the input is complete. -/
def EndsLine (source : Source α) : Prop :=
  source.getLast? = some (.char '\n')

theorem EndsLine.ne_nil (h : EndsLine source) : source ≠ [] := by
  rintro rfl
  contradiction

theorem EndsLine.of_suffix (h : EndsLine source) (hsuffix : rest <:+ source) (hne : rest ≠ []) :
    EndsLine rest := by
  obtain ⟨front, rfl⟩ := hsuffix
  have hlast := List.getLast?_eq_some_getLast hne
  unfold EndsLine at h ⊢
  rwa [List.getLast?_append, hlast, Option.some_or, ← hlast] at h

theorem EndsLine.of_char {c : Char} (h : EndsLine (.char c :: rest)) (hc : c ≠ '\n') :
    EndsLine rest := by
  refine h.of_suffix (List.suffix_cons _ _) ?_
  rintro rfl
  exact hc (Symbol.char.inj (Option.some.inj h))

variable {tail : Source α}

/-- Between an input and further input behind it a line ends. -/
def LineBetween (source tail : Source α) : Prop :=
  EndsLine source ∨ ∃ more, tail = .char '\n' :: more

/-- The input is over, or a line ends between it and further input. -/
def WholeLines (source tail : Source α) : Prop :=
  source = [] ∨ LineBetween source tail

theorem LineBetween.append_ne_nil (h : LineBetween source tail) : source ++ tail ≠ [] := by
  rcases h with h | ⟨more, rfl⟩
  · exact List.append_ne_nil_of_left_ne_nil h.ne_nil _
  · exact List.append_ne_nil_of_right_ne_nil _ (List.cons_ne_nil _ _)

/-- A run that ends here ends here with further input as well: something is left to end it, or the
line break in front of the further input does. -/
def Held (p : Char → Bool) (rest tail : Source α) : Prop :=
  rest ≠ [] ∨ p '\n' = false ∧ ∃ more, tail = .char '\n' :: more

theorem LineBetween.of_held {p : Char → Bool} (h : LineBetween source tail)
    (hsuffix : rest <:+ source) (hheld : Held p rest tail) : LineBetween rest tail := by
  rcases hheld with hne | ⟨-, hmore⟩
  · exact h.imp_left fun h => h.of_suffix hsuffix hne
  · exact .inr hmore

theorem LineBetween.of_suffix (h : LineBetween source tail) (hsuffix : rest <:+ source)
    (hne : rest ≠ []) : LineBetween rest tail :=
  h.imp_left fun h => h.of_suffix hsuffix hne

theorem LineBetween.wholeLines (h : LineBetween source tail) (hsuffix : rest <:+ source) :
    WholeLines rest tail := by
  by_cases hne : rest = []
  · exact .inl hne
  · exact .inr (h.of_suffix hsuffix hne)

theorem WholeLines.of_suffix (h : WholeLines source tail) (hsuffix : rest <:+ source) :
    WholeLines rest tail := by
  rcases h with rfl | h
  · exact .inl (List.suffix_nil.mp hsuffix)
  · exact h.wholeLines hsuffix

theorem LineBetween.of_char {c : Char} (h : LineBetween (.char c :: rest) tail) (hc : c ≠ '\n') :
    LineBetween rest tail :=
  h.imp_left fun h => h.of_char hc

theorem LineBetween.of_slot {value : α} (h : LineBetween (.slot value :: rest) tail) :
    LineBetween rest tail := by
  refine h.imp_left fun h => h.of_suffix (List.suffix_cons _ _) ?_
  rintro rfl
  exact absurd (Option.some.inj h : Symbol.slot value = _) (by simp)

/-! ## Runs -/

def prolong {β : Type} (tail : Source α) (found : β × Source α) : β × Source α :=
  (found.1, found.2 ++ tail)

variable {p : Char → Bool} {layout : Layout} (tail)

theorem charsWhile_prolong (h : Held p (afterWhile p source) tail) :
    charsWhile p (source ++ tail) = charsWhile p source := by
  fun_induction afterWhile p source with
  | case1 c rest hc ih => simp [charsWhile, hc, ih h]
  | case2 c rest hc => simp [charsWhile, hc]
  | case3 source hsource =>
    cases source with
    | nil =>
      obtain hne | ⟨hp, more, rfl⟩ := h
      · exact absurd rfl hne
      · simp [charsWhile, hp]
    | cons symbol rest =>
      cases symbol with
      | char c => exact absurd rfl (hsource c rest)
      | slot value => rfl

theorem afterWhile_prolong (h : Held p (afterWhile p source) tail) :
    afterWhile p (source ++ tail) = afterWhile p source ++ tail := by
  fun_induction afterWhile p source with
  | case1 c rest hc ih => simp [afterWhile, hc, ih h]
  | case2 c rest hc => simp [afterWhile, hc]
  | case3 source hsource =>
    cases source with
    | nil =>
      obtain hne | ⟨hp, more, rfl⟩ := h
      · exact absurd rfl hne
      · simp [afterWhile, hp]
    | cons symbol rest =>
      cases symbol with
      | char c => exact absurd rfl (hsource c rest)
      | slot value => rfl

variable {tail}

/-- A run that does not go over the end of a line stops before the last one. -/
theorem EndsLine.afterWhile (h : EndsLine source) (hp : p '\n' = false) :
    EndsLine (afterWhile p source) := by
  refine h.of_suffix (accounts_afterWhile p source).suffix fun hnil => ?_
  have hall := charsWhile_append_afterWhile p source
  rw [hnil, List.append_nil] at hall
  have hlast : (.char '\n' : Symbol α) ∈ ofChars (charsWhile p source) := by
    rw [hall]
    exact List.mem_of_getLast? h
  obtain ⟨c, hc, heq⟩ := List.mem_map.mp hlast
  obtain rfl := Symbol.char.inj heq
  rw [of_mem_charsWhile hc] at hp
  contradiction

theorem LineBetween.held (h : LineBetween source tail) (hp : p '\n' = false) :
    Held p (Parser.afterWhile p source) tail := by
  rcases h with h | hmore
  · exact .inl (h.afterWhile hp).ne_nil
  · exact .inr ⟨hp, hmore⟩

theorem LineBetween.afterWhile (h : LineBetween source tail) (hp : p '\n' = false) :
    LineBetween (Parser.afterWhile p source) tail :=
  h.of_held (accounts_afterWhile p source).suffix (h.held hp)

/-- Nothing is skipped where no character is in the class. -/
theorem LineBetween.front (h : LineBetween source tail) : Held (fun _ => false) source tail :=
  h.imp EndsLine.ne_nil fun hmore => ⟨rfl, hmore⟩

theorem LineBetween.of_run? (h : LineBetween source tail) (hp : p '\n' = false)
    {text : List Char} (hrun : run? p source = some (text, rest)) : LineBetween rest tail := by
  unfold run? at hrun
  split at hrun
  · contradiction
  · obtain ⟨-, rfl⟩ := Prod.mk.inj (Option.some.inj hrun)
    exact h.afterWhile hp

/-- Further input does not change the first symbol, unless there is none before the line break. -/
theorem Held.append_ne_cons (h : Held p source tail) {symbol : Symbol α}
    (hsymbol : symbol ≠ .char '\n') (hother : ∀ rest, source ≠ symbol :: rest)
    (rest : Source α) : source ++ tail ≠ symbol :: rest := by
  intro heq
  cases source with
  | nil =>
    obtain hne | ⟨-, more, rfl⟩ := h
    · exact absurd rfl hne
    · exact hsymbol (List.head_eq_of_cons_eq heq).symm
  | cons first after => exact hother after (congrArg (· :: after) (List.head_eq_of_cons_eq heq))

variable (tail)

theorem run?_prolong (h : LineBetween source tail) (hp : p '\n' = false) :
    run? p (source ++ tail) = (run? p source).map (prolong tail) := by
  have hheld := h.held hp
  unfold run?
  rw [charsWhile_prolong tail hheld, afterWhile_prolong tail hheld]
  split <;> rfl

/-! ## Words -/

theorem slot?_prolong (h : Held p source tail) :
    slot? (source ++ tail) = (slot? source).map (prolong tail) := by
  cases source with
  | nil =>
    obtain hne | ⟨-, more, rfl⟩ := h
    · exact absurd rfl hne
    · rfl
  | cons symbol rest => cases symbol <;> rfl

theorem literal?_prolong {text : List Char} (h : LineBetween source tail) (htext : '\n' ∉ text) :
    literal? text (source ++ tail) = (literal? text source).map (· ++ tail) := by
  induction text generalizing source with
  | nil => rfl
  | cons c text ih =>
    have hc : c ≠ '\n' := fun hc => htext (by simp [hc])
    have htext : '\n' ∉ text := fun hmem => htext (List.mem_cons_of_mem _ hmem)
    cases source with
    | nil =>
      obtain h | ⟨more, rfl⟩ := h
      · exact absurd rfl h.ne_nil
      · simp [literal?, hc]
    | cons symbol rest =>
      cases symbol with
      | slot value => rfl
      | char d =>
        rw [List.cons_append, literal?, literal?]
        split
        · rename_i hcd
          exact ih (h.of_char (hcd ▸ hc)) htext
        · rfl

theorem word?_prolong (h : LineBetween source tail) (hp : p '\n' = false) :
    word? p (source ++ tail) = (word? p source).map (prolong tail) := by
  unfold word?
  rw [slot?_prolong tail h.front, run?_prolong tail h hp]
  cases slot? source with
  | some found => rfl
  | none => cases run? p source <;> rfl

variable {tail}

theorem LineBetween.of_slot? (h : LineBetween source tail) {value : α}
    (hslot : slot? source = some (value, rest)) : LineBetween rest tail := by
  unfold slot? at hslot
  split at hslot
  · obtain ⟨-, rfl⟩ := Prod.mk.inj (Option.some.inj hslot)
    exact h.of_slot
  · contradiction

theorem LineBetween.of_literal? {text : List Char} (h : LineBetween source tail)
    (htext : '\n' ∉ text) (hliteral : literal? text source = some rest) :
    LineBetween rest tail := by
  rw [literal?_eq_some] at hliteral
  subst hliteral
  refine h.imp_left fun h => h.of_suffix (List.suffix_append _ _) ?_
  rintro rfl
  rw [List.append_nil] at h
  obtain ⟨c, hc, heq⟩ := List.mem_map.mp (List.mem_of_getLast? h)
  exact htext (Symbol.char.inj heq ▸ hc)

theorem LineBetween.of_word? (h : LineBetween source tail) (hp : p '\n' = false) {word : Word α}
    (hword : word? p source = some (word, rest)) : LineBetween rest tail := by
  unfold word? at hword
  split at hword
  · rename_i hslot
    obtain ⟨-, rfl⟩ := Prod.mk.inj (Option.some.inj hword)
    exact h.of_slot? hslot
  · simp only [Option.map_eq_some_iff, Prod.mk.injEq, Prod.exists] at hword
    obtain ⟨_, _, hrun, -, rfl⟩ := hword
    exact h.of_run? hp hrun

/-- Within a run, dropping characters leaves the end of the line. -/
theorem LineBetween.drop (h : LineBetween source tail) (hp : p '\n' = false) {count : Nat}
    (hcount : count ≤ (charsWhile p source).length) :
    LineBetween (source.drop count) tail ∧
      (source ++ tail).drop count = source.drop count ++ tail := by
  have hlength := length_afterWhile p source
  refine ⟨h.of_held (List.drop_suffix _ _) (?_ : Held p _ tail),
    List.drop_append_of_le_length (by omega)⟩
  refine (h.held hp).imp_left fun hne hnil => ?_
  have hleft := List.length_pos_iff.mpr hne
  have hdropped := List.drop_eq_nil_iff.mp hnil
  omega

theorem LineBetween.of_tagName? (h : LineBetween source tail) {name : String}
    (hname : tagName? source = some (name, rest)) : LineBetween rest tail := by
  have hshorter := length_tagName_le source
  unfold tagName? at hname
  simp only at hname
  split at hname
  · contradiction
  · split at hname
    · contradiction
    · obtain ⟨-, rfl⟩ := Prod.mk.inj (Option.some.inj hname)
      exact (h.drop rfl hshorter).1

theorem LineBetween.of_base? (h : LineBetween source tail) {base : Word α}
    (hbase : base? source = some (base, rest)) : LineBetween rest tail := by
  unfold base? at hbase
  split at hbase
  · rename_i hslot
    obtain ⟨-, rfl⟩ := Prod.mk.inj (Option.some.inj hbase)
    exact h.of_slot? hslot
  · simp only [Option.map_eq_some_iff, Prod.mk.injEq, Prod.exists] at hbase
    obtain ⟨_, _, hname, -, rfl⟩ := hbase
    exact h.of_tagName? hname

variable (tail)

theorem tagName?_prolong (h : LineBetween source tail) :
    tagName? (source ++ tail) = (tagName? source).map (prolong tail) := by
  have hshorter := length_tagName_le source
  unfold tagName?
  rw [charsWhile_prolong tail (h.held rfl)]
  simp only
  split
  · rfl
  · split
    · rfl
    · rw [(h.drop rfl hshorter).2]
      rfl

theorem base?_prolong (h : LineBetween source tail) :
    base? (source ++ tail) = (base? source).map (prolong tail) := by
  unfold base?
  rw [slot?_prolong tail h.front, tagName?_prolong tail h]
  cases slot? source with
  | some found => rfl
  | none => cases tagName? source <;> rfl

/-! ## Namings -/

theorem shorthands_prolong (h : LineBetween source tail) {found : List (Attribute α)}
    (hfound : shorthands source = .ok (found, rest)) :
    shorthands (source ++ tail) = .ok (found, rest ++ tail) ∧ LineBetween rest tail := by
  fun_induction shorthands source generalizing found with
  | case1 mark after hname =>
    obtain ⟨rfl, rfl⟩ := Prod.mk.inj (Except.ok.inj hfound)
    refine ⟨?_, h⟩
    rw [List.cons_append, shorthands_eq]
    simp only [hname]
  | case2 => contradiction
  | case3 mark after name hname value last hvalue ih =>
    obtain ⟨⟨more, final⟩, hmore, hfound⟩ := of_bind_ok hfound
    obtain ⟨rfl, rfl⟩ := Prod.mk.inj (Except.ok.inj hfound)
    have hmark : mark ≠ '\n' := by
      rintro rfl
      contradiction
    have hafter := h.of_char hmark
    obtain ⟨hmore', hfinal⟩ := ih (hafter.of_word? rfl hvalue) hmore
    have hword := word?_prolong tail hafter (p := isIdentifierChar) rfl
    refine ⟨?_, hfinal⟩
    rw [List.cons_append, shorthands_eq]
    simp only [hname, hword, hvalue, Option.map_some, prolong, hmore']
    rfl
  | case4 source hsource =>
    obtain ⟨rfl, rfl⟩ := Prod.mk.inj (Except.ok.inj hfound)
    refine ⟨?_, h⟩
    cases source with
    | nil =>
      obtain h | ⟨more, rfl⟩ := h
      · exact absurd rfl h.ne_nil
      · rw [List.nil_append, shorthands_eq]
        rfl
    | cons symbol rest =>
      cases symbol with
      | char c => exact absurd rfl (hsource c rest)
      | slot value => rw [List.cons_append, shorthands_eq]

/-- A base names an element, whatever shorthands follow. -/
theorem naming_base {start : Source α} {base : Word α} {short : List (Attribute α)}
    (hbase : base? source = some (base, start)) (hshort : shorthands start = .ok (short, rest)) :
    naming source = .ok (some (⟨some base, short⟩, rest)) := by
  simp only [naming, hbase, hshort, bind, Except.bind]
  rfl

/-- Without a base there must be shorthands. -/
theorem naming_noBase {short : List (Attribute α)} (hbase : base? source = none)
    (hshort : shorthands source = .ok (short, rest)) :
    naming source = .ok (if short.isEmpty then none else some (⟨none, short⟩, rest)) := by
  simp only [naming, hbase, hshort, bind, Except.bind, Option.isNone_none, Bool.true_and]
  split <;> rfl

theorem naming_prolong (h : LineBetween source tail) {found : Option (Naming α × Source α)}
    (hfound : naming source = .ok found) :
    naming (source ++ tail) = .ok (found.map (prolong tail)) ∧
      ∀ named rest, found = some (named, rest) → LineBetween rest tail := by
  have hsame := base?_prolong tail h
  cases hbase : base? source with
  | none =>
    have hread := hfound
    rw [hbase] at hsame
    simp only [naming, hbase] at hread
    obtain ⟨⟨short, after⟩, hshort, -⟩ := of_bind_ok hread
    obtain ⟨hshort', hafter⟩ := shorthands_prolong tail h hshort
    rw [naming_noBase hbase hshort] at hfound
    rw [naming_noBase hsame hshort']
    obtain rfl := Except.ok.inj hfound
    cases short with
    | nil => exact ⟨rfl, fun _ _ heq => by contradiction⟩
    | cons entry more =>
      refine ⟨rfl, fun _ _ heq => ?_⟩
      obtain ⟨-, rfl⟩ := Prod.mk.inj (Option.some.inj heq)
      exact hafter
  | some base =>
    obtain ⟨base, start⟩ := base
    have hread := hfound
    rw [hbase] at hsame
    simp only [naming, hbase] at hread
    obtain ⟨⟨short, after⟩, hshort, -⟩ := of_bind_ok hread
    obtain ⟨hshort', hafter⟩ := shorthands_prolong tail (h.of_base? hbase) hshort
    rw [naming_base hbase hshort] at hfound
    obtain rfl := Except.ok.inj hfound
    refine ⟨naming_base hsame hshort', fun _ _ heq => ?_⟩
    obtain ⟨-, rfl⟩ := Prod.mk.inj (Option.some.inj heq)
    exact hafter

/-! ## Attributes

A wrapped list may go over several lines, so a gap in it may reach the end of the input. Its closing
bracket is still to come then, and the list is no success. -/

theorem splat?_prolong (hgap : Held layout.isGap (afterWhile layout.isGap source) tail)
    {found : Option (Attribute α × Source α)} (hfound : splat? layout source = .ok found) :
    splat? layout (source ++ tail) = .ok (found.map (prolong tail)) := by
  unfold splat? at hfound ⊢
  rw [afterWhile_prolong tail hgap]
  split at hfound
  · rename_i after hstar
    rw [hstar, List.cons_append]
    split at hfound
    · rename_i value last hslot
      obtain rfl := Except.ok.inj hfound
      have hafter : Held layout.isGap (afterWhile layout.isGap after) tail := by
        refine .inl fun hnil => ?_
        rw [hnil] at hslot
        contradiction
      simp only [afterWhile_prolong tail hafter, slot?_prolong tail hafter, hslot, Option.map_some]
      rfl
    · contradiction
  · rename_i hother
    obtain rfl := Except.ok.inj hfound
    split
    · rename_i heq
      exact absurd heq (hgap.append_ne_cons (by simp) hother _)
    · rfl

theorem quotedRest_prolong (h : LineBetween source tail) {quote : Char} (hquote : quote ≠ '\n')
    {word : Word α} (hword : quotedRest quote source = .ok (word, rest)) :
    quotedRest quote (source ++ tail) = .ok (word, rest ++ tail) ∧ LineBetween rest tail := by
  have hinside := h.afterWhile (p := fun c => c != '\n' && c != quote) rfl
  have hheld := h.held (p := fun c => c != '\n' && c != quote) rfl
  unfold quotedRest at hword ⊢
  simp only at hword ⊢
  rw [afterWhile_prolong tail hheld, charsWhile_prolong tail hheld]
  split at hword
  · rename_i c after hc
    rw [hc] at hinside ⊢
    split at hword
    · rename_i hsame
      obtain ⟨rfl, rfl⟩ := Prod.mk.inj (Except.ok.inj hword)
      refine ⟨?_, hinside.of_char (hsame ▸ hquote)⟩
      rw [List.cons_append]
      simp only [hsame, if_true]
    · contradiction
  · contradiction

theorem attributeValue_prolong (h : LineBetween source tail) {word : Word α}
    (hword : attributeValue layout source = .ok (word, rest)) :
    attributeValue layout (source ++ tail) = .ok (word, rest ++ tail) ∧
      LineBetween rest tail := by
  unfold attributeValue at hword ⊢
  split at hword
  · obtain ⟨rfl, rfl⟩ := Prod.mk.inj (Except.ok.inj hword)
    exact ⟨rfl, h.of_slot⟩
  · exact quotedRest_prolong tail (h.of_char (by decide)) (by decide) hword
  · exact quotedRest_prolong tail (h.of_char (by decide)) (by decide) hword
  · rename_i hslot hdouble hsingle
    obtain ⟨rfl, rfl⟩ := Prod.mk.inj (Except.ok.inj hword)
    have hsame : unquoted layout (source ++ tail) = unquoted layout source := by
      simp only [unquoted, charsWhile_prolong tail (h.held (p := isValueChar) rfl)]
    have hcount : (unquoted layout source).length ≤ (charsWhile isValueChar source).length := by
      unfold unquoted
      cases layout with
      | inline => exact Nat.le_refl _
      | wrapped close => exact (List.takeWhile_prefix _).length_le
    obtain ⟨hends, hdrop⟩ := h.drop rfl hcount
    refine ⟨?_, hends⟩
    split
    · rename_i heq
      exact absurd heq (h.front.append_ne_cons (by simp) (hslot _) _)
    · rename_i heq
      exact absurd heq (h.front.append_ne_cons (by simp) hdouble _)
    · rename_i heq
      exact absurd heq (h.front.append_ne_cons (by simp) hsingle _)
    · simp only [hsame, hdrop]

/-- The name of a pair is the same, unless a gap around it may go on. -/
theorem pairName?_prolong (h : LineBetween source tail)
    (hgap : Held layout.isGap (afterWhile layout.isGap source) tail)
    (hword : ∀ name after, word? isNameChar (afterWhile layout.isGap source) = some (name, after) →
      Held layout.isGap (afterWhile layout.isGap after) tail)
    (hfound : ∀ name rest, pairName? layout source = some (name, rest) →
      Held layout.isGap rest tail) :
    pairName? layout (source ++ tail) = (pairName? layout source).map (prolong tail) := by
  have hstart := h.of_held (accounts_afterWhile layout.isGap source).suffix hgap
  have hsame := word?_prolong tail hstart (p := isNameChar) rfl
  unfold pairName? at hfound ⊢
  rw [afterWhile_prolong tail hgap, hsame]
  cases hname : word? isNameChar (afterWhile layout.isGap source) with
  | none => rfl
  | some found =>
    obtain ⟨name, after⟩ := found
    have hafter := hword name after hname
    simp only [hname, Option.map_some, prolong, Option.bind_eq_bind, Option.bind_some,
      afterWhile_prolong tail hafter] at hfound ⊢
    cases hequals : afterWhile layout.isGap after with
    | nil =>
      obtain hne | ⟨-, more, rfl⟩ := hafter
      · exact absurd hequals hne
      · rfl
    | cons symbol last =>
      by_cases hsymbol : symbol = .char '='
      · subst hsymbol
        rw [hequals] at hfound
        simp only [List.cons_append, afterWhile_prolong tail (hfound name _ rfl)]
        rfl
      · simp [hsymbol]

/-- The gaps in front of the equals sign of a pair do not reach the end of the input. -/
theorem pairName?_gaps {name : Word α} (hname : pairName? layout source = some (name, rest)) :
    afterWhile layout.isGap source ≠ [] ∧
      ∀ name after, word? isNameChar (afterWhile layout.isGap source) = some (name, after) →
        afterWhile layout.isGap after ≠ [] := by
  simp only [pairName?, Option.bind_eq_bind, Option.bind_eq_some_iff, Prod.exists] at hname
  obtain ⟨text, after, hword, hname⟩ := hname
  split at hname
  · rename_i last hequals
    refine ⟨fun hnil => ?_, fun other behind hother => ?_⟩
    · rw [hnil] at hword
      contradiction
    · obtain ⟨-, rfl⟩ := Prod.mk.inj (Option.some.inj (hword.symm.trans hother))
      rw [hequals]
      exact List.cons_ne_nil _ _
  · contradiction

/-- A pair is the same, unless its value may go on. -/
theorem pair?_prolong (h : LineBetween source tail) {entry : Attribute α}
    (hentry : pair? layout source = .ok (some (entry, rest)))
    (hrest : Held layout.isGap rest tail) :
    pair? layout (source ++ tail) = .ok (some (entry, rest ++ tail)) := by
  unfold pair? at hentry
  split at hentry
  · exact absurd hentry (pure_none_ne _)
  · rename_i name start hname
    obtain ⟨⟨value, last⟩, hvalue, hentry⟩ := of_bind_ok hentry
    obtain ⟨rfl, rfl⟩ := Prod.mk.inj (Option.some.inj (Except.ok.inj hentry))
    have hstart : Held layout.isGap start tail := by
      refine hrest.imp_left fun hne => ?_
      rintro rfl
      exact hne (List.suffix_nil.mp (accounts_attributeValue hvalue).suffix)
    have hends := h.of_held (accounts_pairName? hname).suffix hstart
    obtain ⟨hgap, hword⟩ := pairName?_gaps hname
    have hsame := pairName?_prolong tail h (.inl hgap)
      (fun name after hfound => .inl (hword name after hfound)) fun _ _ hother => by
        obtain ⟨-, rfl⟩ := Prod.mk.inj (Option.some.inj (hname.symm.trans hother))
        exact hstart
    simp only [pair?, hsame, hname, Option.map_some, prolong,
      (attributeValue_prolong tail hends hvalue).1]
    rfl

/-- Where there is no pair there is none with more input either, provided that the gap behind the
name does not go on. -/
theorem pair?_prolong_none (h : LineBetween source tail)
    (hgap : Held layout.isGap (afterWhile layout.isGap source) tail)
    (hword : ∀ name after, word? isNameChar (afterWhile layout.isGap source) = some (name, after) →
      Held layout.isGap (afterWhile layout.isGap after) tail)
    (hnone : pair? layout source = .ok none) : pair? layout (source ++ tail) = .ok none := by
  unfold pair? at hnone
  split at hnone
  · rename_i hname
    have hsame := pairName?_prolong tail h hgap hword fun _ _ hother => by
      rw [hname] at hother
      contradiction
    simp only [pair?, hsame, hname, Option.map_none]
  · obtain ⟨found, _, hnone⟩ := of_bind_ok hnone
    exact absurd (Except.ok.inj hnone) (Option.some_ne_none _)

/-- A bare name is what stands behind the gap. -/
theorem of_bareName? {entry : Attribute α} (hentry : bareName? layout source = some (entry, rest)) :
    ∃ name, entry = .bare name ∧
      word? isNameChar (afterWhile layout.isGap source) = some (name, rest) := by
  unfold bareName? at hentry
  split at hentry
  · contradiction
  · simp only [Option.map_eq_some_iff, Prod.mk.injEq, Prod.exists] at hentry
    obtain ⟨name, _, hword, rfl, rfl⟩ := hentry
    exact ⟨name, rfl, hword⟩

/-- A bare name with input behind it. -/
theorem bareName?_prolong (h : LineBetween source tail) {entry : Attribute α}
    (hentry : bareName? layout source = some (entry, rest)) :
    bareName? layout (source ++ tail) = some (entry, rest ++ tail) := by
  obtain ⟨name, rfl, hword⟩ := of_bareName? hentry
  have hgap : afterWhile layout.isGap source ≠ [] := by
    intro hnil
    rw [hnil] at hword
    contradiction
  have hstart := h.of_suffix (accounts_afterWhile _ source).suffix hgap
  have hsame := word?_prolong tail hstart (p := isNameChar) rfl
  cases layout with
  | inline => contradiction
  | wrapped close =>
    rw [← afterWhile_prolong tail (.inl hgap), hword] at hsame
    simp only [bareName?, hsame, Option.map_some, prolong]

/-- Behind a gap that reaches the end of the input there is no entry. -/
theorem gap_of_attribute? {entry : Attribute α}
    (hentry : attribute? layout source = .ok (some (entry, rest))) :
    afterWhile layout.isGap source ≠ [] := by
  intro hnil
  have hword : word? isNameChar (afterWhile layout.isGap source) = none := by
    rw [hnil]
    rfl
  have hsplat : splat? layout source = .ok none := by
    rw [splat?, hnil]
  have hpair : pair? layout source = .ok none := by
    simp [pair?, pairName?, hword]
  have hbare : attribute? layout source = .ok (bareName? layout source) := by
    rw [attribute?, hsplat]
    show (pair? layout source >>= _) = _
    rw [hpair]
    rfl
  obtain ⟨_, -, hname⟩ := of_bareName? (Except.ok.inj (hbare.symm.trans hentry))
  rw [hword] at hname
  contradiction

/-- An entry is the same, unless white space behind it may go on. -/
theorem attribute?_prolong (h : LineBetween source tail) {entry : Attribute α}
    (hentry : attribute? layout source = .ok (some (entry, rest)))
    (hgap : Held layout.isGap (afterWhile layout.isGap rest) tail) :
    attribute? layout (source ++ tail) = .ok (some (entry, rest ++ tail)) := by
  have hsource : Held layout.isGap (afterWhile layout.isGap source) tail :=
    .inl (gap_of_attribute? hentry)
  unfold attribute? at hentry ⊢
  obtain ⟨found, hsplat, hentry⟩ := of_bind_ok hentry
  rw [splat?_prolong tail hsource hsplat]
  cases found with
  | some found =>
    obtain rfl := Option.some.inj (Except.ok.inj hentry)
    rfl
  | none =>
    obtain ⟨found, hpair, hentry⟩ := of_bind_ok hentry
    show (pair? layout (source ++ tail) >>= _) = _
    cases found with
    | some found =>
      obtain rfl := Option.some.inj (Except.ok.inj hentry)
      have hrest : Held layout.isGap rest tail := by
        refine hgap.imp_left fun hne => ?_
        rintro rfl
        exact hne rfl
      rw [pair?_prolong tail h hpair hrest]
      rfl
    | none =>
      have hbare := Except.ok.inj hentry
      obtain ⟨name, rfl, hname⟩ := of_bareName? hbare
      have hnone := pair?_prolong_none tail h hsource
        (fun _ _ hother => by
          obtain ⟨-, rfl⟩ := Prod.mk.inj (Option.some.inj (hname.symm.trans hother))
          exact hgap) hpair
      rw [hnone]
      exact congrArg Except.ok (bareName?_prolong tail h hbare)

/-- Behind the name of a pair, the line goes on. -/
theorem LineBetween.of_pairName? (h : LineBetween source tail) {name : Word α}
    (hname : pairName? .inline source = some (name, rest)) : LineBetween rest tail := by
  have hstart : LineBetween (Parser.afterWhile Layout.inline.isGap source) tail := h.afterWhile rfl
  simp only [pairName?, Option.bind_eq_bind, Option.bind_eq_some_iff, Prod.exists] at hname
  obtain ⟨_, after, hword, hname⟩ := hname
  have hafter : LineBetween (Parser.afterWhile Layout.inline.isGap after) tail :=
    (hstart.of_word? rfl hword).afterWhile rfl
  split at hname
  · rename_i equals hequals
    obtain ⟨-, rfl⟩ := Prod.mk.inj (Option.some.inj hname)
    rw [hequals] at hafter
    exact (hafter.of_char (by decide)).afterWhile rfl
  · contradiction

/-- An entry on the line of its element ends before that line does. -/
theorem LineBetween.of_attribute? (h : LineBetween source tail) {entry : Attribute α}
    (hentry : attribute? .inline source = .ok (some (entry, rest))) : LineBetween rest tail := by
  have hstart : LineBetween (Parser.afterWhile Layout.inline.isGap source) tail :=
    h.afterWhile rfl
  obtain ⟨found, hsplat, hentry⟩ := of_bind_ok hentry
  cases found with
  | some found =>
    obtain rfl := Option.some.inj (Except.ok.inj hentry)
    unfold splat? at hsplat
    split at hsplat
    · rename_i after hstar
      rw [hstar] at hstart
      split at hsplat
      · rename_i hslot
        obtain ⟨-, rfl⟩ := Prod.mk.inj (Option.some.inj (Except.ok.inj hsplat))
        exact ((hstart.of_char (by decide)).afterWhile rfl).of_slot? hslot
      · contradiction
    · exact absurd hsplat (pure_none_ne _)
  | none =>
    obtain ⟨found, hpair, hentry⟩ := of_bind_ok hentry
    cases found with
    | none => exact absurd hentry (pure_none_ne _)
    | some found =>
      obtain rfl := Option.some.inj (Except.ok.inj hentry)
      unfold pair? at hpair
      split at hpair
      · exact absurd hpair (pure_none_ne _)
      · rename_i name behind hname
        obtain ⟨⟨value, last⟩, hvalue, hpair⟩ := of_bind_ok hpair
        obtain ⟨-, rfl⟩ := Prod.mk.inj (Option.some.inj (Except.ok.inj hpair))
        exact (attributeValue_prolong tail (h.of_pairName? tail hname) hvalue).2

/-- On the line of its element there are the same entries. -/
theorem attribute?_inline_prolong (h : LineBetween source tail)
    {found : Option (Attribute α × Source α)} (hfound : attribute? .inline source = .ok found) :
    attribute? .inline (source ++ tail) = .ok (found.map (prolong tail)) := by
  have hgap : ∀ {start : Source α}, LineBetween start tail →
      Held Layout.inline.isGap (afterWhile Layout.inline.isGap start) tail :=
    fun hstart => hstart.held rfl
  cases found with
  | some found => exact attribute?_prolong tail h hfound (hgap (h.of_attribute? tail hfound))
  | none =>
    obtain ⟨found, hsplat, hfound⟩ := of_bind_ok hfound
    cases found with
    | some => exact absurd (Except.ok.inj hfound) (Option.some_ne_none _)
    | none =>
      obtain ⟨found, hpair, hfound⟩ := of_bind_ok hfound
      cases found with
      | some => exact absurd (Except.ok.inj hfound) (Option.some_ne_none _)
      | none =>
        have hnone := pair?_prolong_none tail h (hgap h)
          (fun _ _ hword => hgap (LineBetween.of_word? (h.afterWhile rfl) rfl hword)) hpair
        rw [attribute?, splat?_prolong tail (hgap h) hsplat]
        show (pair? .inline (source ++ tail) >>= _) = _
        rw [hnone]
        rfl

theorem inlineAttributes_prolong (h : LineBetween source tail) {found : List (Attribute α)}
    (hfound : inlineAttributes source = .ok (found, rest)) :
    inlineAttributes (source ++ tail) = .ok (found, rest ++ tail) ∧ LineBetween rest tail := by
  fun_induction inlineAttributes source generalizing found with
  | case1 => contradiction
  | case2 source hnone =>
    obtain ⟨rfl, rfl⟩ := Prod.mk.inj (Except.ok.inj hfound)
    refine ⟨?_, h⟩
    rw [inlineAttributes_eq, attribute?_inline_prolong tail h hnone]
    rfl
  | case3 source entry after hentry ih =>
    obtain ⟨⟨more, last⟩, hmore, hfound⟩ := of_bind_ok hfound
    obtain ⟨rfl, rfl⟩ := Prod.mk.inj (Except.ok.inj hfound)
    obtain ⟨hmore', hlast⟩ := ih (h.of_attribute? tail hentry) hmore
    refine ⟨?_, hlast⟩
    rw [inlineAttributes_eq, attribute?_inline_prolong tail h hentry]
    show (inlineAttributes (after ++ tail) >>= _) = _
    rw [hmore']
    rfl

/-- A wrapped list that is closed has its bracket, or an entry before it, behind the first gap. -/
theorem gap_of_wrappedAttributes {close : Char} {found : List (Attribute α)}
    (hfound : wrappedAttributes close source = .ok (found, rest)) :
    afterWhile isSpace source ≠ [] := by
  rw [wrappedAttributes_eq] at hfound
  split at hfound
  · contradiction
  · split at hfound
    · rename_i hclose
      intro hnil
      rw [hnil] at hclose
      contradiction
    · obtain ⟨found, hentry, hfound⟩ := of_bind_ok hfound
      cases found with
      | none => contradiction
      | some found =>
        have hgap : afterWhile (Layout.wrapped close).isGap source ≠ [] := gap_of_attribute? hentry
        exact hgap

/-- No bracket is a line break. -/
theorem closing?_ne {opening close : Char} (h : closing? opening = some close) :
    opening ≠ '\n' ∧ close ≠ '\n' := by
  unfold closing? at h
  split at h
  · exact ⟨by decide, by simp [← Option.some.inj h]⟩
  · exact ⟨by decide, by simp [← Option.some.inj h]⟩
  · exact ⟨by decide, by simp [← Option.some.inj h]⟩
  · contradiction

theorem wrappedAttributes_prolong (h : LineBetween source tail) {close : Char}
    (hclose : close ≠ '\n') {found : List (Attribute α)}
    (hfound : wrappedAttributes close source = .ok (found, rest)) :
    wrappedAttributes close (source ++ tail) = .ok (found, rest ++ tail) ∧
      LineBetween rest tail := by
  have hmark : '\n' ∉ [close] := fun hmem => hclose (List.mem_singleton.mp hmem).symm
  have hnonempty : ∀ {start : Source α}, LineBetween start tail →
      ¬ (start ++ tail).isEmpty = true :=
    fun hstart hempty => hstart.append_ne_nil (List.isEmpty_iff.mp hempty)
  fun_induction wrappedAttributes close source generalizing found with
  | case1 => contradiction
  | case2 source hne after hbracket =>
    obtain ⟨rfl, rfl⟩ := Prod.mk.inj (Except.ok.inj hfound)
    have hgap : afterWhile isSpace source ≠ [] := by
      intro hnil
      rw [hnil] at hbracket
      contradiction
    have hstart := h.of_suffix (accounts_afterWhile isSpace source).suffix hgap
    have hends := hstart.of_literal? hmark hbracket
    refine ⟨?_, hends⟩
    rw [wrappedAttributes_eq, if_neg (hnonempty h), afterWhile_prolong tail (.inl hgap),
      literal?_prolong tail hstart hmark, hbracket]
    rfl
  | case3 => contradiction
  | case4 => contradiction
  | case5 source hne hbracket entry after hentry ih =>
    obtain ⟨⟨more, last⟩, hmore, hfound⟩ := of_bind_ok hfound
    obtain ⟨rfl, rfl⟩ := Prod.mk.inj (Except.ok.inj hfound)
    have hgap := gap_of_wrappedAttributes hmore
    have hafter : LineBetween after tail := by
      refine h.of_suffix (accounts_attribute? hentry).suffix ?_
      rintro rfl
      exact hgap rfl
    obtain ⟨hmore', hlast⟩ := ih hafter hmore
    refine ⟨?_, hlast⟩
    have hsource : afterWhile isSpace source ≠ [] := gap_of_attribute? hentry
    have hstart := h.of_suffix (accounts_afterWhile isSpace source).suffix hsource
    rw [wrappedAttributes_eq, if_neg (hnonempty h), afterWhile_prolong tail (.inl hsource),
      literal?_prolong tail hstart hmark, hbracket]
    show (attribute? (.wrapped close) (source ++ tail) >>= _) = _
    rw [attribute?_prolong tail h hentry (.inl hgap)]
    show (wrappedAttributes close (after ++ tail) >>= _) = _
    rw [hmore']
    rfl

theorem attributes_prolong (h : LineBetween source tail) {found : List (Attribute α)}
    (hfound : attributes source = .ok (found, rest)) :
    attributes (source ++ tail) = .ok (found, rest ++ tail) ∧ LineBetween rest tail := by
  have hstart := h.afterWhile (p := isBlank) rfl
  unfold attributes at hfound ⊢
  rw [afterWhile_prolong tail (h.held rfl)]
  split at hfound
  · rename_i opening after hopening
    rw [hopening] at hstart ⊢
    rw [List.cons_append]
    split at hfound
    · rename_i close hclose
      obtain ⟨hopen, hend⟩ := closing?_ne hclose
      simp only [hclose]
      exact wrappedAttributes_prolong tail (hstart.of_char hopen) hend hfound
    · rename_i hnone
      simp only [hnone]
      exact inlineAttributes_prolong tail h hfound
  · rename_i hother
    cases hfront : afterWhile isBlank source with
    | nil =>
      rw [hfront] at hstart
      obtain hends | ⟨more, rfl⟩ := hstart
      · exact absurd rfl hends.ne_nil
      · exact inlineAttributes_prolong _ h hfound
    | cons symbol after =>
      cases symbol with
      | char c => exact absurd hfront (hother c after)
      | slot value => exact inlineAttributes_prolong tail h hfound

theorem refName_prolong (h : LineBetween source tail) {name : Option (Word α)}
    (hname : refName source = .ok (name, rest)) :
    refName (source ++ tail) = .ok (name, rest ++ tail) ∧ LineBetween rest tail := by
  have hstart := h.afterWhile (p := isBlank) rfl
  have hheld := h.held (p := isBlank) rfl
  unfold refName at hname ⊢
  rw [afterWhile_prolong tail hheld]
  split at hname
  · rename_i after hmark
    rw [hmark] at hstart ⊢
    have hafter := hstart.of_char (by decide)
    rw [List.cons_append]
    split at hname
    · rename_i hword
      obtain ⟨rfl, rfl⟩ := Prod.mk.inj (Except.ok.inj hname)
      have hsame := word?_prolong tail hafter (p := isIdentifierChar) rfl
      simp only [hsame, hword, Option.map_some, prolong]
      exact ⟨trivial, hafter.of_word? rfl hword⟩
    · contradiction
  · rename_i hother
    obtain ⟨rfl, rfl⟩ := Prod.mk.inj (Except.ok.inj hname)
    refine ⟨?_, h⟩
    split
    · rename_i heq
      exact absurd heq (hheld.append_ne_cons (by simp) hother _)
    · rfl

theorem openingRest_prolong (h : LineBetween source tail) {named : Naming α}
    {opening : Opening α} (hopening : openingRest named source = .ok (opening, rest)) :
    openingRest named (source ++ tail) = .ok (opening, rest ++ tail) ∧ LineBetween rest tail := by
  have hstart := h.afterWhile (p := isSpacer) rfl
  have hheld := h.held (p := isSpacer) rfl
  obtain ⟨⟨written, behind⟩, hwritten, hopening⟩ := of_bind_ok hopening
  obtain ⟨⟨name, after⟩, hname, hopening⟩ := of_bind_ok hopening
  obtain ⟨rfl, rfl⟩ := Prod.mk.inj (Except.ok.inj hopening)
  obtain ⟨hwritten', hbehind⟩ := attributes_prolong tail hstart hwritten
  obtain ⟨hname', hafter⟩ := refName_prolong tail hbehind hname
  refine ⟨?_, hafter⟩
  rw [openingRest, charsWhile_prolong tail hheld, afterWhile_prolong tail hheld]
  simp only [hwritten', hname', bind, Except.bind]
  rfl

end IndentMarkup.Parser
