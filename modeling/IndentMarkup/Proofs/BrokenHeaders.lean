import IndentMarkup.Proofs.Visited

/-! Headers that cannot be read. The log names every element whose base and shorthands have been
read. Nothing is tried in its place when the rest of its header fails: the element fails in that
way, and with it all that it belongs to, up to the document. -/
namespace IndentMarkup.Parser

variable {α β γ : Type}

/-! ## Events that decide the outcome -/

namespace Traced

/-- Once the event has been recorded, the computation fails in this way. -/
def FailsAt (event : Event α) (failure : Failure α) (traced : Traced α β) : Prop :=
  event ∈ traced.events → traced.outcome = .error failure

namespace FailsAt

variable {event : Event α} {failure : Failure α}

theorem silent {traced : Traced α β} (h : traced.events = []) : FailsAt event failure traced := by
  intro hevent
  rw [h] at hevent
  contradiction

/-- Of two computations in turn, the one that records the event fails. -/
theorem bind {first : Traced α β} {next : β → Traced α γ} (hfirst : FailsAt event failure first)
    (hnext : ∀ value, first.outcome = .ok value → FailsAt event failure (next value)) :
    FailsAt event failure (first >>= next) := by
  intro hevent
  rw [outcome_bind]
  rcases of_mem_events_bind hevent with hevent | ⟨value, hvalue, hevent⟩
  · rw [hfirst hevent]
    rfl
  · rw [hvalue]
    exact hnext value hvalue hevent

/-- A note of another event makes no difference. -/
theorem note {kind : Event.Kind} {rest : Source α} (hne : event ≠ ⟨kind, rest⟩)
    {next : Unit → Traced α γ} (hnext : FailsAt event failure (next ())) :
    FailsAt event failure (Traced.note kind rest >>= next) := by
  intro hevent
  rw [events_note, List.mem_cons] at hevent
  exact hnext (hevent.resolve_left hne)

end FailsAt

end Traced

/-! ## Elements whose header fails -/

/-- Behind its naming the header of an element fails, however the element is named. -/
def HeaderFails (place : Source α) (failure : Failure α) : Prop :=
  ∀ named, openingRest named place = .error failure

section

variable {place : Source α} {failure : Failure α}

open Traced

mutual

theorem failsAt_item (h : HeaderFails place failure) (indent : Indent) (source : Source α) :
    FailsAt ⟨.element, place⟩ failure (Traced.item indent source) := by
  rw [Traced.item]
  refine .note (by simp) ?_
  split
  · exact .note (by simp) (.silent rfl)
  · split
    · exact .note (by simp) (.silent rfl)
    · refine .bind (failsAt_element h indent source) fun found _ => ?_
      cases found with
      | some => exact .silent rfl
      | none =>
        refine .bind (failsAt_instruction h indent source) fun found _ => ?_
        cases found with
        | some => exact .silent rfl
        | none =>
          dsimp only
          split
          · exact .silent rfl
          · split <;> exact .silent rfl
termination_by 4 * source.length + 1

theorem failsAt_element (h : HeaderFails place failure) (indent : Indent) (source : Source α) :
    FailsAt ⟨.element, place⟩ failure (Traced.element indent source) := by
  rw [Traced.element]
  split
  · exact .silent rfl
  · exact .silent rfl
  · rename_i named start hnaming
    by_cases hplace : start = place
    · subst hplace
      intro _
      rw [outcome_bind, outcome_note]
      show Traced.outcome _ = _
      split
      · rename_i other hopening
        rw [h named] at hopening
        rw [Except.error.inj hopening]
        rfl
      · rename_i hopening
        rw [h named] at hopening
        contradiction
    · refine .note (fun heq => hplace (Event.mk.inj heq).2.symm) ?_
      split
      · exact .silent rfl
      · rename_i inner hopening
        have hshorter := length_of_naming hnaming
        have hinner := length_of_openingRest hopening
        exact .bind (failsAt_content h indent inner) fun _ _ => .silent rfl
termination_by 4 * source.length

theorem failsAt_content (h : HeaderFails place failure) (indent : Indent) (source : Source α) :
    FailsAt ⟨.element, place⟩ failure (Traced.content indent source) := by
  have hblank := length_skipOneBlank_le source
  rw [Traced.content]
  split
  · rename_i inner hcolon
    have hinner := length_of_expansion? hcolon
    refine .bind (failsAt_element h indent inner) fun found _ => ?_
    cases found <;> exact .silent rfl
  · rename_i hcolon
    have hlength := length_lineText_le indent (skipOneBlank source)
    split
    · exact .silent rfl
    · rename_i inner hline
      have hinner : inner.length ≤ (skipOneBlank source).length := by
        rw [hline] at hlength
        exact hlength
      exact .bind (failsAt_children h indent inner) fun _ _ => .silent rfl
termination_by 4 * source.length + 1

theorem failsAt_children (h : HeaderFails place failure) (indent : Indent) (source : Source α) :
    FailsAt ⟨.element, place⟩ failure (Traced.children indent source) := by
  have hblank := length_skipBlankLines_le source
  rw [Traced.children]
  split
  · exact .silent rfl
  · rename_i start hdeeper
    have hstart := length_of_deeperIndent? hdeeper
    refine .bind (failsAt_block h start.1 start.2) fun found _ => ?_
    cases found <;> exact .silent rfl
termination_by 4 * source.length

theorem failsAt_instruction (h : HeaderFails place failure) (indent : Indent) (source : Source α) :
    FailsAt ⟨.element, place⟩ failure (Traced.instruction indent source) := by
  rw [Traced.instruction]
  split
  · exact .silent rfl
  · exact .silent rfl
  · rename_i word start hname
    have hshorter := length_of_instructionName hname
    refine .note (by simp) ?_
    split
    · exact .silent rfl
    · rename_i condition inner hline
      have hinner := length_of_instructionRest hline
      refine .bind (failsAt_children h indent inner) fun ⟨(nodes, after), hafter⟩ _ => ?_
      have hafter : after.length ≤ inner.length := hafter
      exact .bind (failsAt_otherwise h indent after) fun _ _ => .silent rfl
    · rename_i hline
      have hinner := length_of_instructionRest hline
      exact .bind (failsAt_children h indent _) fun _ _ => .silent rfl
termination_by 4 * source.length

theorem failsAt_otherwise (h : HeaderFails place failure) (indent : Indent) (source : Source α) :
    FailsAt ⟨.element, place⟩ failure (Traced.otherwise indent source) := by
  rw [Traced.otherwise]
  split
  · exact .silent rfl
  · rename_i start hmark
    split
    · exact .silent rfl
    · rename_i inner hend
      have hstart := length_of_elseMark? hmark
      have hinner := length_of_endOfLine hend
      exact .bind (failsAt_children h indent inner) fun _ _ => .silent rfl
termination_by 4 * source.length + 1

theorem failsAt_siblings (h : HeaderFails place failure) (indent : Indent) (source : Source α) :
    FailsAt ⟨.element, place⟩ failure (Traced.siblings indent source) := by
  rw [Traced.siblings]
  split
  · exact .silent rfl
  · rename_i start hindent
    have hstart := length_of_literal? hindent
    split
    · exact .silent rfl
    · refine .bind (failsAt_item h indent start) fun found _ => ?_
      cases found with
      | none => exact .silent rfl
      | some found =>
        obtain ⟨⟨nodes, inner⟩, hinner⟩ := found
        have hinner : inner.length < start.length := hinner
        exact .bind (failsAt_siblings h indent inner) fun _ _ => .silent rfl
termination_by 4 * source.length + 2

theorem failsAt_block (h : HeaderFails place failure) (indent : Indent) (source : Source α) :
    FailsAt ⟨.element, place⟩ failure (Traced.block indent source) := by
  rw [Traced.block]
  refine .bind (failsAt_item h indent source) fun found _ => ?_
  cases found with
  | none => exact .silent rfl
  | some found =>
    obtain ⟨⟨nodes, inner⟩, hinner⟩ := found
    have hinner : inner.length < source.length := hinner
    exact .bind (failsAt_siblings h indent inner) fun _ _ => .silent rfl
termination_by 4 * source.length + 2

end

/-- A document with an element whose header fails, fails in that way. -/
theorem document_of_header (h : HeaderFails place failure) {source : Source α}
    (hevent : ⟨.element, place⟩ ∈ (Traced.document source).events) :
    document source = .error failure := by
  refine FailsAt.bind (failsAt_block h _ _) (fun found _ => ?_) hevent
  cases found <;> exact .silent rfl

end

end IndentMarkup.Parser
