import IndentMarkup.Cursor
import IndentMarkup.Proofs.FailurePlaces
import IndentMarkup.Proofs.SlotsTaken

/-! Positions stay sound. However a cursor is moved, kept and put back, its position is a place of
the source: between two characters of one of the segments, on the line that the line breaks before
it make. Reading that never goes back accounts for everything before the cursor. The parser moves
over its input in no other way, so the position of every syntax error is such a place, too. -/
namespace IndentMarkup

open Source (ofChars ofText)

variable {α : Type}

/-! ## Places -/

/-- The position is a place of the source. It names a segment; `front` is the text of the segment
before the place and `remaining` the text behind it. -/
structure Position.Marks (source : Source α) (front remaining : String) (position : Position) :
    Prop where
  segment : source.segments[position.segment]? = some (front ++ remaining)
  offset : position.offset = front.utf8ByteSize
  line : position.line = front.toList.count '\n' + 1

namespace Position

variable {source rest : Source α} {front remaining : String} {position : Position}

theorem Marks.segment_lt (h : position.Marks source front remaining) :
    position.segment < source.segments.length :=
  (List.getElem?_eq_some_iff.mp h.segment).1

/-- The offset lies between two characters of the segment, or at one of its ends. -/
theorem Marks.isValid (h : position.Marks source front remaining) :
    (String.Pos.Raw.mk position.offset).IsValid (front ++ remaining) := by
  rw [String.Pos.Raw.isValid_iff_exists_append]
  exact ⟨front, remaining, rfl, congrArg String.Pos.Raw.mk h.offset⟩

theorem Marks.offset_le (h : position.Marks source front remaining) :
    position.offset ≤ (front ++ remaining).utf8ByteSize := by
  rw [h.offset, String.utf8ByteSize_append]
  exact Nat.le_add_right _ _

/-- The position is a place of the source, and `rest` is what lies behind it: in the segment of the
position and in the segments after that. -/
def Parts (source rest : Source α) (position : Position) : Prop :=
  ∃ (earlier : List String) (front : String),
    source.segments = earlier ++ (front ++ String.ofList rest.firstSegment) ::
      rest.laterSegments.map String.ofList ∧
      position = ⟨earlier.length, front.utf8ByteSize, front.toList.count '\n' + 1⟩

theorem parts_start (source : Source α) : start.Parts source source := by
  refine ⟨[], "", ?_, rfl⟩
  simp [Source.segments]

/-- Behind one more symbol the position is a place of the source again. -/
theorem Parts.advance {symbol : Symbol α} (h : position.Parts source (symbol :: rest)) :
    (position.advance symbol).Parts source rest := by
  obtain ⟨earlier, front, hsegments, rfl⟩ := h
  cases symbol with
  | char c =>
    refine ⟨earlier, front ++ String.ofList [c], ?_, ?_⟩
    · rw [hsegments, String.append_assoc, ← String.ofList_append]
      rfl
    · have hline : (if c = '\n' then front.toList.count '\n' + 1 + 1
          else front.toList.count '\n' + 1) = (front.toList ++ [c]).count '\n' + 1 := by
        rw [List.count_append, List.count_singleton]
        by_cases hc : c = '\n' <;> simp [hc]
      simp [Position.advance, hline]
  | slot value =>
    refine ⟨earlier ++ [front], "", ?_, ?_⟩
    · simp [hsegments, Source.firstSegment, Source.laterSegments]
    · simp [Position.advance, nextSegment]

/-- Behind everything before `rest` the position is where `rest` begins. -/
theorem parts_behind (taken rest : Source α) : (behind taken).Parts (taken ++ rest) rest := by
  have hfold : ∀ {source taken : Source α} {position : Position},
      position.Parts source (taken ++ rest) →
        (taken.foldl Position.advance position).Parts source rest := by
    intro source taken position h
    induction taken generalizing position with
    | nil => exact h
    | cons symbol taken ih => exact ih h.advance
  exact hfold (parts_start _)

theorem Parts.marks (h : position.Parts source rest) :
    ∃ front, position.Marks source front (String.ofList rest.firstSegment) := by
  obtain ⟨earlier, front, hsegments, rfl⟩ := h
  refine ⟨front, ?_, rfl, rfl⟩
  rw [hsegments, List.getElem?_append_right (Nat.le_refl _), Nat.sub_self]
  rfl

end Position

/-- The segment of a position is the one behind as many slots as have been taken. -/
theorem Position.segment_behind (taken : Source α) :
    (behind taken).segment = taken.slots.length := by
  have hfold : ∀ (taken : Source α) (position : Position),
      (taken.foldl advance position).segment = position.segment + taken.slots.length := by
    intro taken
    induction taken with
    | nil => exact fun _ => rfl
    | cons symbol taken ih =>
      intro position
      rw [List.foldl_cons, ih]
      cases symbol with
      | char c => rfl
      | slot value =>
        rw [Source.slots, List.length_cons, advance, nextSegment, Nat.add_assoc,
          Nat.add_comm 1]
  rw [behind, hfold]
  exact Nat.zero_add _

/-- A source is its segments and slots in turn. -/
theorem Source.interleave_segments (source : Source α) :
    interleave source.segments source.slots = source := by
  induction source with
  | nil => rfl
  | cons symbol rest ih =>
    cases symbol with
    | slot value => exact congrArg (.slot value :: ·) ih
    | char c =>
      have hchar : ∀ (text : List Char) (texts : List String) (values : List α),
          interleave (String.ofList (c :: text) :: texts) values =
            .char c :: interleave (String.ofList text :: texts) values := by
        intro text texts values
        cases values <;> simp [interleave, ofText, ofChars]
      exact (hchar _ _ _).trans (congrArg (.char c :: ·) ih)

/-! ## Cursors at a place -/

namespace Cursor

/-- The cursor reads this source, and its position is where `rest` begins. -/
structure At (source rest : Source α) (cursor : Cursor α) : Prop where
  segments : cursor.segments = source.segments
  slots : cursor.slots = source.slots
  position : ∃ taken, taken ++ rest = source ∧ cursor.position = .behind taken

variable {source rest : Source α} {cursor : Cursor α}

theorem at_start (source : Source α) : (ofSource source).At source source :=
  ⟨rfl, rfl, [], rfl, rfl⟩

theorem At.parts (h : cursor.At source rest) : cursor.position.Parts source rest := by
  obtain ⟨taken, rfl, hposition⟩ := h.position
  exact hposition ▸ Position.parts_behind taken rest

/-- What is left of the segment, cut off by its offset, is what is left of it in the source. -/
theorem At.segmentRest_eq (h : cursor.At source rest) : cursor.segmentRest = rest.firstSegment := by
  obtain ⟨earlier, front, hsegments, hposition⟩ := h.parts
  have hsegment : cursor.segments[cursor.position.segment]? =
      some (front ++ String.ofList rest.firstSegment) := by
    rw [h.segments, hsegments, hposition, List.getElem?_append_right (Nat.le_refl _), Nat.sub_self]
    rfl
  have hoffset : cursor.position.offset = Source.byteCount front.toList := by
    rw [hposition, Source.byteCount_eq, String.ofList_toList]
  unfold segmentRest
  rw [hsegment, hoffset]
  simp only [String.toList_append, String.toList_ofList, Source.dropBytes_append]

theorem At.segments_drop (h : cursor.At source rest) :
    cursor.segments.drop (cursor.position.segment + 1) = rest.laterSegments.map String.ofList := by
  obtain ⟨earlier, front, hsegments, hposition⟩ := h.parts
  rw [h.segments, hsegments, hposition, List.drop_append, List.drop_eq_nil_of_le (Nat.le_succ _)]
  simp

theorem At.slots_drop (h : cursor.At source rest) :
    cursor.slots.drop cursor.position.segment = rest.slots := by
  obtain ⟨taken, rfl, hposition⟩ := h.position
  rw [h.slots, hposition, Position.segment_behind, Source.slots_append, List.drop_left]

theorem At.rest_eq (h : cursor.At source rest) : cursor.rest = rest := by
  rw [Cursor.rest, h.segmentRest_eq, h.segments_drop, h.slots_drop]
  exact rest.interleave_segments

theorem At.slotsLeft_eq (h : cursor.At source rest) : cursor.slotsLeft = rest.slots.length := by
  rw [slotsLeft, ← List.length_drop, h.slots_drop]

theorem At.atEnd_eq (h : cursor.At source rest) : cursor.atEnd = rest.isEmpty := by
  have hlater := congrArg List.length h.segments_drop
  rw [List.length_drop, List.length_map, Source.length_laterSegments] at hlater
  unfold atEnd segmentFinished inLastSegment
  rw [h.segmentRest_eq]
  rcases rest with _ | ⟨_ | _, rest⟩
  · have hlast : cursor.segments.length ≤ cursor.position.segment + 1 :=
      Nat.sub_eq_zero_iff_le.mp hlater
    simp [Source.firstSegment, hlast]
  · rfl
  · have hlast : ¬ cursor.segments.length ≤ cursor.position.segment + 1 := by
      rw [Source.slots, List.length_cons] at hlater
      omega
    simp [Source.firstSegment, hlast]

/-! ## Moving a cursor -/

/-- A text at the front of the segment is followed by the rest of the source. -/
theorem append_drop_of_prefix {text : List Char} {rest : Source α}
    (h : text <+: rest.firstSegment) : ofChars text ++ rest.drop text.length = rest := by
  induction text generalizing rest with
  | nil => rfl
  | cons c text ih =>
    cases rest with
    | nil => exact absurd h (by simp [Source.firstSegment])
    | cons symbol rest =>
      cases symbol with
      | slot value => exact absurd h (by simp [Source.firstSegment])
      | char d =>
        obtain ⟨rfl, hmore⟩ := List.cons_prefix_cons.mp h
        exact congrArg (.char c :: ·) (ih hmore)

/-- Behind a text the position is where the source goes on. -/
theorem At.advance {text : List Char} (h : cursor.At source (ofChars text ++ rest)) :
    (cursor.advance text).At source rest := by
  obtain ⟨taken, rfl, hposition⟩ := h.position
  refine ⟨h.segments, h.slots, taken ++ ofChars text, by simp, ?_⟩
  rw [Position.behind_append, ← Position.behindText_eq_foldl, ← hposition]
  rfl

theorem At.consume (h : cursor.At source rest) (matcher : Matcher) :
    cursor.consume matcher = (none, cursor) ∨
      ∃ found behind after, rest = ofChars found.taken ++ behind ∧
        cursor.consume matcher = (some found, after) ∧ after.At source behind := by
  unfold Cursor.consume
  cases hfound : cursor.peek matcher with
  | none => exact .inl rfl
  | some found =>
    have hrest := append_drop_of_prefix (h.segmentRest_eq ▸ matcher.front hfound)
    exact .inr ⟨found, _, _, hrest.symm, rfl, (hrest.symm ▸ h).advance⟩

/-- A fixed text is taken as the parser takes it. -/
theorem At.consumeText (h : cursor.At source rest) (text : String) :
    (Parser.literal? text.toList rest = none ∧ cursor.consumeText text = (false, cursor)) ∨
      ∃ behind after, Parser.literal? text.toList rest = some behind ∧
        cursor.consumeText text = (true, after) ∧ after.At source behind := by
  unfold Cursor.consumeText peekText
  rw [h.segmentRest_eq]
  cases hfound : text.toList.isPrefixOf rest.firstSegment with
  | true =>
    have hrest := append_drop_of_prefix (List.isPrefixOf_iff_prefix.mp hfound)
    exact .inr ⟨_, _, Parser.literal?_eq_some.mpr hrest.symm, rfl, (hrest.symm ▸ h).advance⟩
  | false =>
    refine .inl ⟨Option.eq_none_iff_forall_ne_some.mpr fun behind hliteral => ?_, rfl⟩
    obtain rfl := Parser.literal?_eq_some.mp hliteral
    rw [Source.firstSegment_ofChars_append, Bool.eq_false_iff, ne_eq,
      List.isPrefixOf_iff_prefix] at hfound
    exact hfound (List.prefix_append _ _)

/-- A run of a class is taken as the parser takes it. -/
theorem At.consume_run (h : cursor.At source rest) (p : Char → Bool) :
    ∃ found after, found.taken = Parser.charsWhile p rest ∧
      cursor.consume (Pattern.run p).matcher = (some found, after) ∧
      after.At source (Parser.afterWhile p rest) := by
  have hruns : ∀ rest : Source α, ∃ found,
      (Pattern.runs p rest.firstSegment).head? = some found ∧
        found.taken = Parser.charsWhile p rest := by
    intro rest
    fun_induction Parser.charsWhile p rest with
    | case1 c rest hc ih =>
      obtain ⟨found, hhead, htaken⟩ := ih
      refine ⟨Match.append ⟨[c], []⟩ found, ?_, congrArg (c :: ·) htaken⟩
      rw [Source.firstSegment, Pattern.runs, if_pos hc, List.head?_append, List.head?_map, hhead]
      rfl
    | case2 c rest hc =>
      refine ⟨.nothing, ?_, rfl⟩
      rw [Source.firstSegment, Pattern.runs, if_neg hc]
      rfl
    | case3 rest hrest =>
      refine ⟨.nothing, ?_, rfl⟩
      rcases rest with _ | ⟨c | value, rest⟩
      · rfl
      · exact absurd rfl (hrest c rest)
      · rfl
  obtain ⟨found, hhead, htaken⟩ := hruns rest
  have hpeek : cursor.peek (Pattern.run p).matcher = some found := by
    rw [peek, h.segmentRest_eq]
    exact hhead
  rw [← Parser.charsWhile_append_afterWhile p rest, ← htaken] at h
  refine ⟨found, _, htaken, ?_, h.advance⟩
  rw [Cursor.consume, hpeek]

/-- A slot is taken as the parser takes it. -/
theorem At.takeSlot (h : cursor.At source rest) :
    (Parser.slot? rest = none ∧ cursor.takeSlot = (none, cursor)) ∨
      ∃ value behind after, rest = .slot value :: behind ∧
        cursor.takeSlot = (some value, after) ∧ after.At source behind := by
  have hnext : cursor.slots[cursor.position.segment]? = rest.slots.head? := by
    rw [← h.slots_drop, List.head?_drop]
  unfold Cursor.takeSlot segmentFinished
  rw [h.segmentRest_eq, hnext]
  rcases rest with _ | ⟨c | value, rest⟩
  · exact .inl ⟨rfl, rfl⟩
  · exact .inl ⟨rfl, rfl⟩
  · obtain ⟨taken, rfl, hposition⟩ := h.position
    refine .inr ⟨value, rest, _, rfl, rfl, h.segments, h.slots, taken ++ [.slot value], by simp, ?_⟩
    rw [Position.behind_append, hposition]
    rfl

/-- A position that is put back brings back the cursor. -/
theorem At.restore_eq (h : cursor.At source rest) {other : Cursor α} {left : Source α}
    (hother : other.At source left) : cursor.restore other.position = other := by
  unfold restore
  rw [h.segments, h.slots, ← hother.segments, ← hother.slots]

/-! ## Sequences of steps -/

/-- Something done with a cursor. Snapshots are numbered in the order in which they are taken,
wherever that is. -/
inductive Step where
  | consume (matcher : Matcher)
  | consumeText (text : String)
  | peek (matcher : Matcher)
  | peekToEnd (matcher : Matcher)
  | peekText (text : String)
  | takeSlot
  | snapshot
  | restore (number : Nat)
  /-- Steps whose progress is kept only if they succeed in the end. -/
  | attempt (succeeds : Bool) (body : List Step)

/-- A cursor at work. -/
structure Session (α : Type) where
  cursor : Cursor α
  /-- The snapshots so far. They are kept also where the progress is not. -/
  snapshots : List Position
  /-- The texts and slots that steps have taken, in order. -/
  consumed : Source α

/-- A cursor at the start of a source, with nothing done yet. -/
def Session.start (source : Source α) : Session α := ⟨.ofSource source, [], []⟩

mutual

/-- Does one step. A snapshot that does not exist cannot be restored. -/
def Step.run : Step → Session α → Session α
  | .consume matcher, session =>
    match session.cursor.consume matcher with
    | (some found, cursor) =>
      { session with cursor, consumed := session.consumed ++ ofChars found.taken }
    | (none, cursor) => { session with cursor }
  | .consumeText text, session =>
    match session.cursor.consumeText text with
    | (true, cursor) => { session with cursor, consumed := session.consumed ++ ofText text }
    | (false, cursor) => { session with cursor }
  | .peek _, session => session
  | .peekToEnd _, session => session
  | .peekText _, session => session
  | .takeSlot, session =>
    match session.cursor.takeSlot with
    | (some value, cursor) => { session with cursor, consumed := session.consumed ++ [.slot value] }
    | (none, cursor) => { session with cursor }
  | .snapshot, session =>
    { session with snapshots := session.snapshots ++ [session.cursor.position] }
  | .restore number, session =>
    match session.snapshots[number]? with
    | some position => { session with cursor := session.cursor.restore position }
    | none => session
  | .attempt succeeds body, session =>
    let read (cursor : Cursor α) : StateM (Session α) (Option Unit × Cursor α) := fun session =>
      let after := Step.runAll body { session with cursor }
      ((if succeeds then some () else none, after.cursor), after)
    let ((_, cursor), after) := session.cursor.attempt read session
    { after with cursor }

def Step.runAll : List Step → Session α → Session α
  | [], session => session
  | step :: more, session => Step.runAll more (Step.run step session)

end

mutual

/-- Whether a step never goes back. -/
def Step.advances : Step → Bool
  | .restore _ => false
  | .attempt succeeds body => succeeds && Step.allAdvance body
  | _ => true

def Step.allAdvance : List Step → Bool
  | [] => true
  | step :: more => step.advances && Step.allAdvance more

end

/-! ## What steps take -/

/-- Either nothing happens, or a front of what is left is taken and recorded. -/
def Session.Takes (source rest : Source α) (before after : Session α) : Prop :=
  after = before ∨ ∃ text behind cursor, rest = text ++ behind ∧ cursor.At source behind ∧
    after = ⟨cursor, before.snapshots, before.consumed ++ text⟩

variable {session : Session α}

theorem Step.takes_consume (h : session.cursor.At source rest) (matcher : Matcher) :
    session.Takes source rest ((Step.consume matcher).run session) := by
  rw [Step.run]
  rcases h.consume matcher with hnone | ⟨found, behind, after, hrest, hfound, hafter⟩
  · rw [hnone]
    exact .inl rfl
  · rw [hfound]
    exact .inr ⟨_, behind, after, hrest, hafter, rfl⟩

theorem Step.takes_consumeText (h : session.cursor.At source rest) (text : String) :
    session.Takes source rest ((Step.consumeText text).run session) := by
  rw [Step.run]
  rcases h.consumeText text with ⟨-, hnone⟩ | ⟨behind, after, hliteral, hfound, hafter⟩
  · rw [hnone]
    exact .inl rfl
  · rw [hfound]
    exact .inr ⟨_, behind, after, Parser.literal?_eq_some.mp hliteral, hafter, rfl⟩

theorem Step.takes_takeSlot (h : session.cursor.At source rest) :
    session.Takes source rest (Step.takeSlot.run session) := by
  rw [Step.run]
  rcases h.takeSlot with ⟨-, hnone⟩ | ⟨value, behind, after, hrest, hfound, hafter⟩
  · rw [hnone]
    exact .inl rfl
  · rw [hfound]
    exact .inr ⟨_, behind, after, hrest, hafter, rfl⟩

/-! ## Runs stay in their source -/

/-- The cursor stands at a place of the source, and so it does with any of the snapshots. -/
structure Session.Within (source : Source α) (session : Session α) : Prop where
  cursor : ∃ rest, session.cursor.At source rest
  snapshots : ∀ position ∈ session.snapshots,
    ∃ rest, ((ofSource source).restore position).At source rest

theorem Session.Takes.within {before after : Session α} (htakes : before.Takes source rest after)
    (h : before.Within source) : after.Within source := by
  rcases htakes with rfl | ⟨text, behind, cursor, -, hcursor, rfl⟩
  · exact h
  · exact ⟨⟨behind, hcursor⟩, h.snapshots⟩

mutual

theorem Step.within_run (step : Step) {session : Session α} (h : session.Within source) :
    (step.run session).Within source := by
  obtain ⟨rest, hcursor⟩ := h.cursor
  cases step with
  | consume matcher => exact (Step.takes_consume hcursor matcher).within h
  | consumeText text => exact (Step.takes_consumeText hcursor text).within h
  | takeSlot => exact (Step.takes_takeSlot hcursor).within h
  | peek => exact h
  | peekToEnd => exact h
  | peekText => exact h
  | snapshot =>
    refine ⟨h.cursor, List.forall_mem_append.mpr ⟨h.snapshots, ?_⟩⟩
    rw [List.forall_mem_singleton, (at_start source).restore_eq hcursor]
    exact ⟨rest, hcursor⟩
  | restore number =>
    rw [Step.run]
    cases hfound : session.snapshots[number]? with
    | none => exact h
    | some position =>
      obtain ⟨left, hleft⟩ := h.snapshots position (List.mem_of_getElem? hfound)
      have hback : session.cursor.restore position = (ofSource source).restore position :=
        hcursor.restore_eq hleft
      refine ⟨⟨left, ?_⟩, h.snapshots⟩
      show At source left (session.cursor.restore position)
      rwa [hback]
  | attempt succeeds body =>
    have hinner := Step.within_runAll body h
    cases succeeds with
    | true => exact hinner
    | false =>
      obtain ⟨left, hleft⟩ := hinner.cursor
      have hback : ((Step.attempt false body).run session).cursor = session.cursor :=
        hleft.restore_eq hcursor
      exact ⟨⟨rest, hback ▸ hcursor⟩, hinner.snapshots⟩

theorem Step.within_runAll (steps : List Step) {session : Session α} (h : session.Within source) :
    (Step.runAll steps session).Within source := by
  cases steps with
  | nil => exact h
  | cons step more => exact Step.within_runAll more (Step.within_run step h)

end

/-- Steps that fail in the end leave the cursor where it was, whatever they have done. -/
theorem Session.Within.attempt_fails (h : session.Within source) (body : List Step) :
    ((Step.attempt false body).run session).cursor = session.cursor := by
  obtain ⟨rest, hcursor⟩ := h.cursor
  obtain ⟨left, hleft⟩ := (Step.within_runAll body h).cursor
  exact hleft.restore_eq hcursor

/-! ## Runs that never go back -/

/-- What has been taken and what is left make up the source. -/
def Session.Accounts (source : Source α) (session : Session α) : Prop :=
  ∃ rest, session.cursor.At source rest ∧ session.consumed ++ rest = source

theorem Session.Takes.accounts {before after : Session α} (htakes : before.Takes source rest after)
    (h : before.cursor.At source rest) (haccounts : before.consumed ++ rest = source) :
    after.Accounts source := by
  rcases htakes with rfl | ⟨text, behind, cursor, rfl, hcursor, rfl⟩
  · exact ⟨rest, h, haccounts⟩
  · exact ⟨behind, hcursor, by rwa [List.append_assoc]⟩

mutual

theorem Step.accounts_run (step : Step) {session : Session α} (hstep : step.advances = true)
    (h : session.Accounts source) : (step.run session).Accounts source := by
  obtain ⟨rest, hcursor, haccounts⟩ := h
  cases step with
  | consume matcher => exact (Step.takes_consume hcursor matcher).accounts hcursor haccounts
  | consumeText text => exact (Step.takes_consumeText hcursor text).accounts hcursor haccounts
  | takeSlot => exact (Step.takes_takeSlot hcursor).accounts hcursor haccounts
  | peek => exact ⟨rest, hcursor, haccounts⟩
  | peekToEnd => exact ⟨rest, hcursor, haccounts⟩
  | peekText => exact ⟨rest, hcursor, haccounts⟩
  | snapshot => exact ⟨rest, hcursor, haccounts⟩
  | restore => contradiction
  | attempt succeeds body =>
    simp only [Step.advances, Bool.and_eq_true] at hstep
    obtain ⟨rfl, hbody⟩ := hstep
    exact Step.accounts_runAll body hbody ⟨rest, hcursor, haccounts⟩

theorem Step.accounts_runAll (steps : List Step) {session : Session α}
    (hsteps : Step.allAdvance steps = true) (h : session.Accounts source) :
    (Step.runAll steps session).Accounts source := by
  cases steps with
  | nil => exact h
  | cons step more =>
    simp only [Step.allAdvance, Bool.and_eq_true] at hsteps
    exact Step.accounts_runAll more hsteps.2 (Step.accounts_run step hsteps.1 h)

end

/-- Every place of a source can be reached by steps that never go back. -/
theorem exists_steps {taken : Source α} (h : session.cursor.At source (taken ++ rest)) :
    ∃ steps, Step.allAdvance steps = true ∧
      (Step.runAll steps session).cursor.At source rest := by
  induction taken generalizing session with
  | nil => exact ⟨[], rfl, h⟩
  | cons symbol taken ih =>
    have hstep : ∃ step : Step, step.advances = true ∧
        (step.run session).cursor.At source (taken ++ rest) := by
      cases symbol with
      | char c =>
        refine ⟨.consumeText (String.ofList [c]), rfl, ?_⟩
        rw [Step.run]
        rcases h.consumeText (String.ofList [c]) with
          ⟨hnone, -⟩ | ⟨behind, after, hsome, hrun, hafter⟩
        · simp [Parser.literal?] at hnone
        · obtain rfl : taken ++ rest = behind := by simpa [Parser.literal?] using hsome
          rw [hrun]
          exact hafter
      | slot value =>
        refine ⟨.takeSlot, rfl, ?_⟩
        rw [Step.run]
        rcases h.takeSlot with ⟨hnone, -⟩ | ⟨value', behind, after, hsome, hrun, hafter⟩
        · simp [Parser.slot?] at hnone
        · obtain ⟨-, rfl⟩ := List.cons.inj hsome
          rw [hrun]
          exact hafter
    obtain ⟨step, hadvances, hreached⟩ := hstep
    obtain ⟨steps, hsteps, hend⟩ := ih hreached
    exact ⟨step :: steps, by simp [Step.allAdvance, hadvances, hsteps], hend⟩

end Cursor

/-- A failure has its place where the cursor stands. -/
theorem Failure.locate_eq {source : Source α} {failure : Failure α} {cursor : Cursor α}
    (h : cursor.At source failure.rest) :
    failure.locate source = ⟨failure.cause, String.ofList cursor.segmentRest,
      cursor.position.segment, cursor.position.line⟩ := by
  obtain ⟨taken, hsource, hposition⟩ := h.position
  rw [locate, h.segmentRest_eq, ← hsource, Position.ofRest_append, hposition]

/-- **Positions stay sound.** Whatever is done with a cursor, its position is a place of the source,
with the rest of the segment behind it. Steps that fail leave the cursor as it was. Steps that
never go back have taken, in order, exactly what is not left. And every syntax error has the place
of a cursor that has come there step by step: an existing segment, its rest from there, and the
line of that place. -/
theorem positions_sound (source : Source α) :
    (∀ steps : List Cursor.Step,
      let session := Cursor.Step.runAll steps (.start source)
      let position := session.cursor.position
      let remaining := String.ofList session.cursor.segmentRest
      (∃ front,
        position.Marks source front remaining ∧
          position.segment < source.segments.length ∧
          (String.Pos.Raw.mk position.offset).IsValid (front ++ remaining) ∧
          position.offset ≤ (front ++ remaining).utf8ByteSize) ∧
        (∀ body, ((Cursor.Step.attempt false body).run session).cursor = session.cursor) ∧
        (Cursor.Step.allAdvance steps = true → session.consumed ++ session.cursor.rest = source)) ∧
      ∀ error, parse source = .error error →
        (∃ steps, Cursor.Step.allAdvance steps = true ∧
          let cursor := (Cursor.Step.runAll steps (.start source)).cursor
          error.segment = cursor.position.segment ∧ error.line = cursor.position.line ∧
            error.remaining = String.ofList cursor.segmentRest) ∧
        ∃ front, source.segments[error.segment]? = some (front ++ error.remaining) ∧
          error.line = front.toList.count '\n' + 1 := by
  have hstart : (Cursor.Session.start source).Within source :=
    ⟨⟨source, Cursor.at_start source⟩, fun _ hnone => nomatch hnone⟩
  constructor
  · intro steps session position remaining
    have hwithin : session.Within source := Cursor.Step.within_runAll steps hstart
    obtain ⟨rest, hcursor⟩ := hwithin.cursor
    obtain ⟨front, hmarks⟩ := hcursor.parts.marks
    rw [← hcursor.segmentRest_eq] at hmarks
    refine ⟨⟨front, hmarks, hmarks.segment_lt, hmarks.isValid, hmarks.offset_le⟩,
      hwithin.attempt_fails, fun hsteps => ?_⟩
    have hnone : (Cursor.Session.start source).Accounts source :=
      ⟨source, Cursor.at_start source, rfl⟩
    obtain ⟨left, hleft, haccounts⟩ := Cursor.Step.accounts_runAll steps hsteps hnone
    rwa [hleft.rest_eq]
  · intro error herror
    obtain ⟨failure, hfailure, rfl⟩ := parse_eq_error.mp herror
    obtain ⟨taken, hsource⟩ := Parser.document_failsWithin source failure hfailure
    have htaken : (Cursor.Session.start source).cursor.At source (taken ++ failure.rest) :=
      hsource.symm ▸ Cursor.at_start source
    obtain ⟨steps, hsteps, hcursor⟩ := Cursor.exists_steps htaken
    rw [Failure.locate_eq hcursor]
    obtain ⟨front, hmarks⟩ := hcursor.parts.marks
    rw [← hcursor.segmentRest_eq] at hmarks
    exact ⟨⟨steps, hsteps, rfl, rfl, rfl⟩, front, hmarks.segment, hmarks.line⟩

/-- A source of two segments, with a line break and a character of more than one byte. -/
def Source.accented : Source Nat :=
  ofText "a(b\n" ++ .slot 5 :: ofText "é="

/-- Takes what is left of a segment. -/
def Cursor.Step.line : Cursor.Step := .consume (Pattern.run fun _ => true).matcher

/-- Steps with an attempt that fails half-way and a snapshot that is put back. -/
def Cursor.Step.detour : List Cursor.Step :=
  [.snapshot, .attempt false [.line, .takeSlot], .consumeText "a", .restore 0, .line, .takeSlot,
    .consumeText "é"]

/-- Steps with a detour and steps without one, over a source with a list that is never closed. -/
theorem positions_sound_accented :
    (∃ front, (Cursor.Step.runAll Cursor.Step.detour (.start Source.accented)).cursor.position.Marks
        Source.accented front "=") ∧
      (Cursor.Step.runAll [.line, .takeSlot] (.start Source.accented)).consumed ++
          (Cursor.Step.runAll [.line, .takeSlot] (.start Source.accented)).cursor.rest =
        Source.accented ∧
      ∃ error, parse Source.accented = .error error ∧ ∃ front,
        Source.accented.segments[error.segment]? = some (front ++ error.remaining) ∧
          error.line = front.toList.count '\n' + 1 := by
  obtain ⟨hruns, herrors⟩ := positions_sound Source.accented
  refine ⟨?_, ?_, ?_⟩
  · obtain ⟨⟨front, hmarks, -⟩, -, -⟩ := hruns Cursor.Step.detour
    have hremaining :
        String.ofList
            (Cursor.Step.runAll Cursor.Step.detour (.start Source.accented)).cursor.segmentRest =
          "=" := by
      decide +kernel
    rw [hremaining] at hmarks
    exact ⟨front, hmarks⟩
  · obtain ⟨-, -, honward⟩ := hruns [.line, .takeSlot]
    have hadvances : Cursor.Step.allAdvance [.line, .takeSlot] = true := by decide
    exact honward hadvances
  · have hfails : (parse Source.accented).isOk = false := by decide +kernel
    cases hparsed : parse Source.accented with
    | ok document => rw [hparsed] at hfails; contradiction
    | error error => exact ⟨error, rfl, (herrors error hparsed).2⟩

end IndentMarkup
