import IndentMarkup.Proofs.SlotsTaken

/-! Where failures are found. However a production fails, the input that it blames is an end of its
own input: nothing was skipped, put back or read from elsewhere on the way there. That input is left
over is for the end of a document to find, and no production says so. -/
namespace IndentMarkup

variable {α β γ : Type}

/-- If the step fails, the failure blames an end of this input. -/
def FailsWithin (source : Source α) (result : Except (Failure α) β) : Prop :=
  ∀ failure, result = .error failure → failure.rest <:+ source

/-- If the step fails, the failure blames an end of this input, and it is not that input is left
over: only the end of a document can tell. -/
def FailsInside (source : Source α) (result : Except (Failure α) β) : Prop :=
  ∀ failure, result = .error failure → failure.rest <:+ source ∧ failure.cause ≠ .leftoverInput

variable {source rest : Source α}

namespace FailsInside

theorem ok (value : β) : FailsInside source (.ok value) := fun _ h => by contradiction

theorem error {failure : Failure α}
    (h : failure.rest <:+ source ∧ failure.cause ≠ .leftoverInput) :
    FailsInside source (.error failure : Except (Failure α) β) := by
  rintro _ ⟨⟩
  exact h

/-- A step over what is left of an input blames an end of the whole input. -/
theorem behind {result : Except (Failure α) β} (hrest : rest <:+ source)
    (h : FailsInside rest result) : FailsInside source result :=
  fun failure hfailure => (h failure hfailure).imp_left fun hwithin => hwithin.trans hrest

theorem bind {first : Except (Failure α) β} {next : β → Except (Failure α) γ}
    (hfirst : FailsInside source first)
    (hnext : ∀ value, first = .ok value → FailsInside source (next value)) :
    FailsInside source (first >>= next) := by
  cases first with
  | error failure =>
    rintro _ ⟨⟩
    exact hfirst failure rfl
  | ok value => exact hnext value rfl

end FailsInside

namespace Parser

open FailsInside
open Text (isBlank)

variable {source : Source α}

/-! ## Headers -/

theorem shorthands_failsInside (source : Source α) : FailsInside source (shorthands source) := by
  fun_induction shorthands source with
  | case1 => exact .ok _
  | case2 mark rest name => exact .error ⟨List.suffix_cons _ rest, by simp⟩
  | case3 mark rest name _ value after hword ih =>
    have hafter : after <:+ .char mark :: rest :=
      (accounts_word? hword).suffix.trans (List.suffix_cons _ rest)
    exact .bind (ih.behind hafter) fun _ _ => .ok _
  | case4 => exact .ok _

theorem naming_failsInside (source : Source α) : FailsInside source (naming source) := by
  unfold naming
  cases hbase : base? source with
  | none =>
    refine (shorthands_failsInside source).bind fun found _ => ?_
    dsimp only
    split <;> exact .ok _
  | some base =>
    have hrest := (accounts_base? hbase).suffix
    exact ((shorthands_failsInside base.2).behind hrest).bind fun _ _ => .ok _

theorem splat?_failsInside (layout : Layout) (source : Source α) :
    FailsInside source (splat? layout source) := by
  have hgap := (accounts_afterWhile layout.isGap source).suffix
  unfold splat?
  split
  · rename_i rest hstar
    have hrest : rest <:+ source := (hstar ▸ List.suffix_cons _ rest : rest <:+ _).trans hgap
    split
    · exact .ok _
    · exact .error ⟨(accounts_afterWhile layout.isGap rest).suffix.trans hrest, by simp⟩
  · exact .ok _

theorem quotedRest_failsInside (quote : Char) (source : Source α) :
    FailsInside source (quotedRest quote source) := by
  unfold quotedRest
  dsimp only
  split
  · split
    · exact .ok _
    · exact .error ⟨List.suffix_rfl, by simp⟩
  · exact .error ⟨List.suffix_rfl, by simp⟩

theorem attributeValue_failsInside (layout : Layout) (source : Source α) :
    FailsInside source (attributeValue layout source) := by
  unfold attributeValue
  split
  · exact .ok _
  · exact (quotedRest_failsInside _ _).behind (List.suffix_cons _ _)
  · exact (quotedRest_failsInside _ _).behind (List.suffix_cons _ _)
  · exact .ok _

theorem pair?_failsInside (layout : Layout) (source : Source α) :
    FailsInside source (pair? layout source) := by
  unfold pair?
  split
  · exact .ok _
  · rename_i rest hname
    have hrest := (accounts_pairName? hname).suffix
    exact ((attributeValue_failsInside layout rest).behind hrest).bind fun _ _ => .ok _

theorem attribute?_failsInside (layout : Layout) (source : Source α) :
    FailsInside source (attribute? layout source) := by
  refine (splat?_failsInside layout source).bind fun splat _ => ?_
  cases splat with
  | some => exact .ok _
  | none =>
    refine (pair?_failsInside layout source).bind fun pair _ => ?_
    cases pair <;> exact .ok _

theorem inlineAttributes_failsInside (source : Source α) :
    FailsInside source (inlineAttributes source) := by
  fun_induction inlineAttributes source with
  | case1 source failure hentry => exact .error (attribute?_failsInside _ _ _ hentry)
  | case2 => exact .ok _
  | case3 source entry rest hentry ih =>
    exact (ih.behind (accounts_attribute? hentry).suffix).bind fun _ _ => .ok _

theorem wrappedAttributes_failsInside (close : Char) (source : Source α) :
    FailsInside source (wrappedAttributes close source) := by
  fun_induction wrappedAttributes close source with
  | case1 => exact .error ⟨List.suffix_rfl, by simp⟩
  | case2 => exact .ok _
  | case3 source _ _ failure hentry => exact .error (attribute?_failsInside _ _ _ hentry)
  | case4 => exact .error ⟨List.suffix_rfl, by simp⟩
  | case5 source _ _ entry rest hentry ih =>
    exact (ih.behind (accounts_attribute? hentry).suffix).bind fun _ _ => .ok _

theorem attributes_failsInside (source : Source α) : FailsInside source (attributes source) := by
  have hblank := (accounts_afterWhile isBlank source).suffix
  unfold attributes
  split
  · rename_i opening rest hopening
    have hrest : rest <:+ source := (hopening ▸ List.suffix_cons _ rest : rest <:+ _).trans hblank
    split
    · exact (wrappedAttributes_failsInside _ rest).behind hrest
    · exact inlineAttributes_failsInside source
  · exact inlineAttributes_failsInside source

theorem refName_failsInside (source : Source α) : FailsInside source (refName source) := by
  have hblank := (accounts_afterWhile isBlank source).suffix
  unfold refName
  split
  · rename_i rest hmark
    have hrest : rest <:+ source := (hmark ▸ List.suffix_cons _ rest : rest <:+ _).trans hblank
    split
    · exact .ok _
    · exact .error ⟨hrest, by simp⟩
  · exact .ok _

theorem openingRest_failsInside (named : Naming α) (source : Source α) :
    FailsInside source (openingRest named source) := by
  have hspacers := (accounts_afterWhile isSpacer source).suffix
  refine ((attributes_failsInside _).behind hspacers).bind fun (written, rest) hwritten => ?_
  have hrest := (accounts_attributes hwritten).suffix.trans hspacers
  exact ((refName_failsInside rest).behind hrest).bind fun _ _ => .ok _

/-! ## Control flow lines -/

theorem instructionName_failsInside (source : Source α) :
    FailsInside source (instructionName source) := by
  unfold instructionName
  split
  · split
    · exact .error ⟨List.suffix_rfl, by simp⟩
    · exact .ok _
  · exact .ok _

theorem endOfLine_failsInside (part : LinePart) (source : Source α) :
    FailsInside source (endOfLine part source) := by
  unfold endOfLine
  split
  · exact .ok _
  · split
    · exact .ok _
    · exact .error ⟨List.suffix_rfl, by simp⟩

theorem ifLine_failsInside (source : Source α) : FailsInside source (ifLine source) := by
  unfold ifLine
  split
  · exact .error ⟨List.suffix_rfl, by simp⟩
  · rename_i condition rest hslot
    have hrest := (accounts_slot? hslot).suffix
    exact ((endOfLine_failsInside _ rest).behind hrest).bind fun _ _ => .ok _

theorem forLine_failsInside (source : Source α) : FailsInside source (forLine source) := by
  unfold forLine
  split
  · exact .error ⟨List.suffix_rfl, by simp⟩
  · rename_i name behind hname
    have hbehind := (accounts_run? hname).suffix
    split
    · exact .error ⟨hbehind, by simp⟩
    · rename_i start hof
      have hstart := (accounts_ofMark? hof).suffix.trans hbehind
      split
      · exact .error ⟨hstart, by simp⟩
      · rename_i iterable rest hslot
        have hrest := (accounts_slot? hslot).suffix.trans hstart
        exact ((endOfLine_failsInside _ rest).behind hrest).bind fun _ _ => .ok _

theorem instructionRest_failsInside (word : String) (source : Source α) :
    FailsInside source (instructionRest word source) := by
  have hblank := (accounts_afterWhile isBlank source).suffix
  unfold instructionRest
  split
  · exact (ifLine_failsInside _).behind hblank
  · exact (forLine_failsInside _).behind hblank
  · exact .error ⟨List.suffix_rfl, by simp⟩

/-! ## Blocks -/

mutual

theorem item_failsInside (indent : Indent) (source : Source α) :
    FailsInside source (item indent source) := by
  rw [item_eq]
  split
  · exact .ok _
  · split
    · exact .ok _
    · refine (element_failsInside indent source).bind fun found _ => ?_
      cases found with
      | some => exact .ok _
      | none =>
        refine (instruction_failsInside indent source).bind fun found _ => ?_
        cases found with
        | some => exact .ok _
        | none =>
          dsimp only
          split
          · exact .ok _
          · split
            · exact .ok _
            · exact .error ⟨List.suffix_rfl, by simp⟩
termination_by 4 * source.length + 1

theorem element_failsInside (indent : Indent) (source : Source α) :
    FailsInside source (element indent source) := by
  rw [element_eq]
  refine (naming_failsInside source).bind fun found hnaming => ?_
  cases found with
  | none => exact .ok _
  | some found =>
    obtain ⟨named, start⟩ := found
    have hstart := (accounts_naming hnaming).suffix
    have hheader := (openingRest_failsInside named start).behind hstart
    refine hheader.bind fun (opening, inner) hopening => ?_
    obtain ⟨_, haccounts, -⟩ := accounts_openingRest hopening
    have hinner := haccounts.suffix.trans hstart
    have hshorter := length_of_naming hnaming
    have hlength := length_of_openingRest hopening
    exact ((content_failsInside indent inner).behind hinner).bind fun _ _ => .ok _
termination_by 4 * source.length

theorem content_failsInside (indent : Indent) (source : Source α) :
    FailsInside source (content indent source) := by
  have hblank := (accounts_skipOneBlank source).suffix
  have hlength := length_skipOneBlank_le source
  rw [content_eq]
  dsimp only
  split
  · rename_i inner hcolon
    have hinner := (accounts_expansion? hcolon).suffix.trans hblank
    have hshorter := length_of_expansion? hcolon
    refine ((element_failsInside indent inner).behind hinner).bind fun found _ => ?_
    cases found with
    | some => exact .ok _
    | none => exact .error ⟨hinner, by simp⟩
  · split
    · exact .ok _
    · rename_i inner hline
      have hinner := (accounts_lineText hline).suffix.trans hblank
      have hshorter : inner.length ≤ (skipOneBlank source).length := by
        have hline' := length_lineText_le indent (skipOneBlank source)
        rwa [hline] at hline'
      exact (children_failsInside indent inner).behind hinner
termination_by 4 * source.length + 1

theorem children_failsInside (indent : Indent) (source : Source α) :
    FailsInside source (children indent source) := by
  have hblank := (accounts_skipBlankLines source).suffix
  have hlength := length_skipBlankLines_le source
  rw [children_eq]
  split
  · exact .ok _
  · rename_i deeper inner hdeeper
    have hinner := (accounts_deeperIndent? hdeeper).suffix.trans hblank
    have hshorter := length_of_deeperIndent? hdeeper
    refine ((block_failsInside deeper inner).behind hinner).bind fun found _ => ?_
    cases found <;> exact .ok _
termination_by 4 * source.length

theorem instruction_failsInside (indent : Indent) (source : Source α) :
    FailsInside source (instruction indent source) := by
  rw [instruction_eq]
  refine (instructionName_failsInside source).bind fun found hname => ?_
  cases found with
  | none => exact .ok _
  | some found =>
    obtain ⟨word, start⟩ := found
    have hstart := (accounts_instructionName hname).suffix
    have hshorter := length_of_instructionName hname
    have hrest := (instructionRest_failsInside word start).behind hstart
    refine hrest.bind fun (line, inner) hline => ?_
    have hinner := (accounts_instructionRest hline).suffix.trans hstart
    have hlength := length_of_instructionRest hline
    have hchildren := (children_failsInside indent inner).behind hinner
    cases line with
    | ifThen condition =>
      refine hchildren.bind fun (thenBranch, after) hthen => ?_
      have hafter := (reads_children hthen).accounts.suffix.trans hinner
      have hthen := length_of_children hthen
      exact ((otherwise_failsInside indent after).behind hafter).bind fun _ _ => .ok _
    | forEach variableName iterable => exact hchildren.bind fun _ _ => .ok _
termination_by 4 * source.length

theorem otherwise_failsInside (indent : Indent) (source : Source α) :
    FailsInside source (otherwise indent source) := by
  rw [otherwise_eq]
  split
  · exact .ok _
  · rename_i start hmark
    have hstart := (accounts_elseMark? hmark).suffix
    have hshorter := length_of_elseMark? hmark
    refine ((endOfLine_failsInside _ start).behind hstart).bind fun inner hend => ?_
    have hinner := (accounts_endOfLine hend).suffix.trans hstart
    have hlength := length_of_endOfLine hend
    exact (children_failsInside indent inner).behind hinner
termination_by 4 * source.length + 1

theorem siblings_failsInside (indent : Indent) (source : Source α) :
    FailsInside source (siblings indent source) := by
  rw [siblings_eq]
  split
  · exact .ok _
  · rename_i start hindent
    have hstart := (accounts_literal? hindent).suffix
    have hlength := length_of_literal? hindent
    split
    · exact .error ⟨hstart, by simp⟩
    · refine ((item_failsInside indent start).behind hstart).bind fun found hitem => ?_
      cases found with
      | none => exact .ok _
      | some found =>
        obtain ⟨nodes, rest⟩ := found
        have hrest := (reads_item hitem).accounts.suffix.trans hstart
        have hshorter := length_of_item hitem
        exact ((siblings_failsInside indent rest).behind hrest).bind fun _ _ => .ok _
termination_by 4 * source.length + 2

theorem block_failsInside (indent : Indent) (source : Source α) :
    FailsInside source (block indent source) := by
  rw [block_eq]
  refine (item_failsInside indent source).bind fun found hitem => ?_
  cases found with
  | none => exact .ok _
  | some found =>
    obtain ⟨nodes, rest⟩ := found
    have hrest := (reads_item hitem).accounts.suffix
    have hshorter := length_of_item hitem
    exact ((siblings_failsInside indent rest).behind hrest).bind fun _ _ => .ok _
termination_by 4 * source.length + 2

end

/-! ## Documents -/

/-- A document fails in its block, or because of what its block leaves over. -/
theorem of_document_error {failure : Failure α} (h : document source = .error failure) :
    block (baseIndent source) (firstItem source) = .error failure ∨
      ∃ nodes rest, block (baseIndent source) (firstItem source) = .ok (some (nodes, rest)) ∧
        finish (baseIndent source) nodes rest = .error failure := by
  rw [document_eq] at h
  cases hblock : block (baseIndent source) (firstItem source) with
  | error other =>
    rw [hblock] at h
    obtain rfl := Except.error.inj h
    exact .inl rfl
  | ok found =>
    rw [hblock] at h
    cases found with
    | none =>
      rw [of_block_none hblock] at h
      contradiction
    | some found => exact .inr ⟨found.1, found.2, rfl, h⟩

theorem finish_failsWithin (base : Indent) (nodes : List (Node α)) (rest : Source α) :
    FailsWithin rest (finish base nodes rest) := by
  unfold finish
  split
  · exact fun _ h => by contradiction
  · rintro _ ⟨⟩
    exact (accounts_afterWhile isBlank rest).suffix

/-- The failure of a document blames an end of its source. -/
theorem document_failsWithin (source : Source α) : FailsWithin source (document source) := by
  have hfirst : firstItem source <:+ source :=
    (accounts_afterWhile isBlank _).suffix.trans (accounts_skipBlankLines source).suffix
  intro failure h
  rcases of_document_error h with hblock | ⟨nodes, rest, hblock, hfinish⟩
  · exact (block_failsInside _ _ _ hblock).1.trans hfirst
  · have hrest := (reads_block hblock).accounts.suffix.trans hfirst
    exact (finish_failsWithin _ _ _ _ hfinish).trans hrest

end Parser

end IndentMarkup
