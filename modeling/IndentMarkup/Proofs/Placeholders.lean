import IndentMarkup.Proofs.Scanning
import IndentMarkup.Proofs.SlotsTaken
import IndentMarkup.Source.Placeholder
import Mathlib.Control.Lawful
import Mathlib.Data.List.ModifyLast

/-! Placeholders as they are written. A template is a row of pieces, each a segment with a
placeholder behind it, and a last segment. What is filled in can be told from the pieces: their
names are looked up one after the other, and the reading ends behind the last piece whose name is
known. There it has reached the last segment, or a placeholder without its brace, or an unknown
name. -/
namespace IndentMarkup.Source

variable {α σ : Type}

/-! ## Segments -/

theorem segments_ofChars (text : List Char) :
    (ofChars text : Source α).segments = [String.ofList text] := by
  have hfirst := firstSegment_ofChars_append text ([] : Source α)
  have hlater := laterSegments_ofChars_append text ([] : Source α)
  rw [List.append_nil] at hfirst hlater
  simp [segments, hfirst, hlater, firstSegment, laterSegments]

theorem segments_slot (text : List Char) (value : α) (rest : Source α) :
    (ofChars text ++ Symbol.slot value :: rest).segments = String.ofList text :: rest.segments := by
  simp [segments, firstSegment_ofChars_append, laterSegments_ofChars_append, firstSegment,
    laterSegments]

theorem slots_slot (text : List Char) (value : α) (rest : Source α) :
    (ofChars text ++ Symbol.slot value :: rest).slots = value :: rest.slots := by
  rw [slots_append, slots_ofChars, slots, List.nil_append]

/-- A source is a text alone, or a text, a slot and a source behind them. -/
@[elab_as_elim]
theorem segment_induction {motive : Source α → Prop} (source : Source α)
    (last : ∀ text, motive (ofChars text))
    (slot : ∀ text value rest, motive rest → motive (ofChars text ++ Symbol.slot value :: rest)) :
    motive source := by
  suffices h : ∀ text, motive (ofChars text ++ source) from h []
  induction source with
  | nil =>
    intro text
    rw [List.append_nil]
    exact last text
  | cons symbol rest ih =>
    intro text
    cases symbol with
    | char c => simpa using ih (text ++ [c])
    | slot value => exact slot text value rest (ih [])

theorem segments_ne_nil (source : Source α) : source.segments ≠ [] := by
  simp [segments]

/-- Text goes to the end of the last segment. -/
theorem segments_addText (source : Source α) (text : String) :
    (source.addText text).segments = source.segments.modifyLast (· ++ text) := by
  induction source using segment_induction with
  | last front =>
    have hwhole : addText (ofChars front : Source α) text = ofChars (front ++ text.toList) := by
      rw [addText, ofText, ofChars_append]
    rw [hwhole, segments_ofChars, segments_ofChars, String.ofList_append, String.ofList_toList]
    exact (List.modifyLast_concat _ _ []).symm
  | slot front value rest ih =>
    have hwhole : addText (ofChars front ++ Symbol.slot value :: rest) text =
        ofChars front ++ Symbol.slot value :: addText rest text := by
      simp [addText]
    rw [hwhole, segments_slot, segments_slot, ih]
    exact (List.modifyLast_append_of_right_ne_nil _ [_] _ rest.segments_ne_nil).symm

theorem slots_addText (source : Source α) (text : String) :
    (source.addText text).slots = source.slots := by
  rw [addText, slots_append, ofText, slots_ofChars, List.append_nil]

/-- A slot opens a new segment. -/
theorem segments_addSlot (source : Source α) (value : α) :
    (source.addSlot value).segments = source.segments ++ [""] := by
  induction source using segment_induction with
  | last front =>
    rw [addSlot, segments_slot, segments_ofChars]
    rfl
  | slot front other rest ih =>
    have hwhole : addSlot (ofChars front ++ Symbol.slot other :: rest) value =
        ofChars front ++ Symbol.slot other :: addSlot rest value := by
      simp [addSlot]
    rw [hwhole, segments_slot, segments_slot, ih, List.cons_append]

theorem slots_addSlot (source : Source α) (value : α) :
    (source.addSlot value).slots = source.slots ++ [value] := by
  rw [addSlot, slots_append]
  rfl

theorem interleave_spec {texts : List String} {values : List α}
    (h : texts.length = values.length + 1) :
    (interleave texts values).segments = texts ∧ (interleave texts values).slots = values := by
  fun_induction interleave texts values with
  | case1 text texts value values ih =>
    obtain ⟨hsegments, hslots⟩ := ih (by simpa using h)
    constructor
    · rw [ofText, segments_slot, hsegments, String.ofList_toList]
    · rw [ofText, slots_slot, hslots]
  | case2 text texts =>
    obtain rfl : texts = [] := by simpa using h
    exact ⟨by rw [ofText, segments_ofChars, String.ofList_toList], slots_ofChars _⟩
  | case3 => simp at h

/-! ## Pieces of a template -/

/-- A text in which no placeholder is opened. -/
def Plain (text : List Char) : Prop :=
  ¬ ['$', '{'] <:+: text

instance (text : List Char) : Decidable (Plain text) :=
  inferInstanceAs (Decidable (¬ _))

/-- A segment with a placeholder behind it. -/
structure Piece where
  segment : List Char
  placeholder : List Char
  plain : Plain segment
  noClosing : '}' ∉ placeholder

def Piece.written (piece : Piece) : List Char :=
  piece.segment ++ '$' :: '{' :: (piece.placeholder ++ ['}'])

/-- The name that is looked up for the placeholder of a piece. -/
def Piece.name (piece : Piece) : String :=
  String.ofList (Text.trim piece.placeholder)

def written (pieces : List Piece) : List Char :=
  pieces.flatMap Piece.written

theorem Piece.written_append (piece : Piece) (rest : List Char) :
    piece.written ++ rest =
      piece.segment ++ '$' :: '{' :: (piece.placeholder ++ '}' :: rest) := by
  simp [Piece.written]

theorem written_cons (piece : Piece) (pieces : List Piece) :
    written (piece :: pieces) = piece.written ++ written pieces := rfl

/-! ## Where a placeholder begins and ends -/

/-- A text is plain if no placeholder is opened at its front, nor behind its first character. -/
theorem plain_cons {c : Char} {text : List Char} :
    Plain (c :: text) ↔ (∀ rest, c = '$' → text = '{' :: rest → False) ∧ Plain text := by
  have hfront : ¬ ['$', '{'] <+: c :: text ↔ ∀ rest, c = '$' → text = '{' :: rest → False := by
    constructor
    · rintro hnone rest rfl rfl
      exact hnone (List.prefix_append ['$', '{'] rest)
    · rintro hnone ⟨rest, heq⟩
      obtain ⟨hc, htext⟩ := List.cons.inj heq
      exact hnone rest hc.symm htext.symm
  rw [Plain, List.infix_cons_iff, not_or, hfront]
  rfl

theorem splitAtOpening_eq_none {text : List Char} :
    splitAtOpening text = none ↔ Plain text := by
  fun_induction splitAtOpening text with
  | case1 rest =>
    refine iff_of_false (Option.some_ne_none _) fun hplain => ?_
    exact (plain_cons.mp hplain).1 rest rfl rfl
  | case2 c rest hc ih => rw [Option.map_eq_none_iff, ih, plain_cons, and_iff_right hc]
  | case3 => exact iff_of_true rfl (by decide)

/-- A placeholder is found behind a plain segment. -/
theorem splitAtOpening_append {segment : List Char} (h : Plain segment) (rest : List Char) :
    splitAtOpening (segment ++ '$' :: '{' :: rest) = some (segment, rest) := by
  induction segment with
  | nil => rfl
  | cons c segment ih =>
    obtain ⟨hfront, hplain⟩ := plain_cons.mp h
    rw [List.cons_append, splitAtOpening, ih hplain, Option.map_some]
    -- a segment that ends with a dollar sign does not run into the opening behind it
    intro tail hc htail
    cases segment with
    | nil => exact absurd (List.cons.inj htail).1 (by decide)
    | cons d segment => exact hfront segment hc (by rw [(List.cons.inj htail).1])

/-- What is found first has a plain segment before it. -/
theorem of_splitAtOpening {text before after : List Char}
    (h : splitAtOpening text = some (before, after)) :
    Plain before ∧ text = before ++ '$' :: '{' :: after := by
  fun_induction splitAtOpening text generalizing before with
  | case1 rest =>
    obtain ⟨rfl, rfl⟩ := Prod.mk.inj (Option.some.inj h)
    exact ⟨by decide, rfl⟩
  | case2 c rest hc ih =>
    obtain ⟨⟨front, back⟩, hfound, hparts⟩ := Option.map_eq_some_iff.mp h
    obtain ⟨rfl, rfl⟩ := Prod.mk.inj hparts
    obtain ⟨hplain, rfl⟩ := ih hfound
    refine ⟨plain_cons.mpr ⟨fun tail hdollar htail => ?_, hplain⟩, rfl⟩
    exact hc _ hdollar (by rw [htail, List.cons_append])
  | case3 => contradiction

theorem splitAtClosing_append {placeholder : List Char} (h : '}' ∉ placeholder)
    (rest : List Char) :
    splitAtClosing (placeholder ++ '}' :: rest) = some (placeholder, rest) := by
  induction placeholder with
  | nil => rfl
  | cons c placeholder ih =>
    obtain ⟨hc, hrest⟩ := not_or.mp (mt List.mem_cons.mpr h)
    rw [List.cons_append, splitAtClosing, ih hrest, Option.map_some]
    rintro rfl
    exact hc rfl

theorem splitAtClosing_eq_none {text : List Char} :
    splitAtClosing text = none ↔ '}' ∉ text := by
  fun_induction splitAtClosing text with
  | case1 rest => simp
  | case2 c rest hc ih =>
    rw [Option.map_eq_none_iff, ih, List.mem_cons, not_or]
    exact (and_iff_right fun heq => hc heq.symm).symm
  | case3 => simp

theorem of_splitAtClosing {text before after : List Char}
    (h : splitAtClosing text = some (before, after)) :
    '}' ∉ before ∧ text = before ++ '}' :: after := by
  fun_induction splitAtClosing text generalizing before with
  | case1 rest =>
    obtain ⟨rfl, rfl⟩ := Prod.mk.inj (Option.some.inj h)
    exact ⟨List.not_mem_nil, rfl⟩
  | case2 c rest hc ih =>
    obtain ⟨⟨front, back⟩, hfound, hparts⟩ := Option.map_eq_some_iff.mp h
    obtain ⟨rfl, rfl⟩ := Prod.mk.inj hparts
    obtain ⟨hfront, rfl⟩ := ih hfound
    refine ⟨fun hmem => ?_, rfl⟩
    rcases List.mem_cons.mp hmem with heq | hmem
    · exact hc heq.symm
    · exact hfront hmem
  | case3 => contradiction

/-! ## Bytes -/

theorem byteCount_piece (piece : Piece) :
    byteCount piece.written =
      byteCount piece.segment + 2 + byteCount piece.placeholder + 1 := by
  have hopening : byteCount ['$', '{'] = 2 := rfl
  have hclosing : byteCount ['}'] = 1 := rfl
  have hparts : piece.written =
      piece.segment ++ (['$', '{'] ++ (piece.placeholder ++ ['}'])) := rfl
  rw [hparts, byteCount_append, byteCount_append, byteCount_append, hopening, hclosing]
  omega

/-! ## Names that are known -/

variable {lookup : String → StateM σ (Option α)} {values : List α} {state state' middle : σ}

/-- A resolver, asked for these names one after the other, has these values for them. Each question
may change what it answers later on. -/
def Knows (lookup : String → StateM σ (Option α)) (names : List String) (values : List α)
    (state state' : σ) : Prop :=
  (names.mapM lookup).run state = (values.map some, state')

theorem knows_nil :
    Knows lookup [] values state state' ↔ values = [] ∧ state' = state := by
  constructor
  · intro h
    obtain ⟨hvalues, rfl⟩ := Prod.mk.inj h
    exact ⟨List.map_eq_nil_iff.mp hvalues.symm, rfl⟩
  · rintro ⟨rfl, rfl⟩
    rfl

theorem knows_cons {name : String} {names : List String} :
    Knows lookup (name :: names) values state state' ↔
      ∃ value more middle, values = value :: more ∧
        (lookup name).run state = (some value, middle) ∧
          Knows lookup names more middle state' := by
  have hasked : ((name :: names).mapM lookup).run state =
      (((lookup name).run state).1 :: ((names.mapM lookup).run ((lookup name).run state).2).1,
        ((names.mapM lookup).run ((lookup name).run state).2).2) := by
    rw [List.mapM_cons]
    rfl
  unfold Knows
  rw [hasked]
  constructor
  · intro h
    obtain ⟨hvalues, hstate⟩ := Prod.mk.inj h
    cases values with
    | nil => contradiction
    | cons value more =>
      obtain ⟨hvalue, hmore⟩ := List.cons.inj hvalues
      exact ⟨value, more, _, rfl, Prod.ext hvalue rfl, Prod.ext hmore hstate⟩
  · rintro ⟨value, more, middle, rfl, hvalue, hmore⟩
    rw [hvalue]
    dsimp only
    rw [hmore]
    rfl

theorem Knows.length {names : List String} (h : Knows lookup names values state state') :
    values.length = names.length := by
  induction names generalizing values state with
  | nil => rw [(knows_nil.mp h).1, List.length_nil, List.length_nil]
  | cons name names ih =>
    obtain ⟨value, more, middle, rfl, -, hmore⟩ := knows_cons.mp h
    rw [List.length_cons, ih hmore, List.length_cons]

/-! ## Filling the pieces -/

/-- What pieces come to with these values in their slots. -/
def filled : List Piece → List α → Source α
  | piece :: pieces, value :: values =>
    ofChars piece.segment ++ .slot value :: filled pieces values
  | _, _ => []

theorem filled_parts {pieces : List Piece} (h : values.length = pieces.length)
    (last : List Char) :
    (filled pieces values ++ ofChars last).segments =
      (pieces.map Piece.segment ++ [last]).map String.ofList ∧
    (filled pieces values ++ ofChars last).slots = values := by
  induction pieces generalizing values with
  | nil =>
    obtain rfl := List.length_eq_zero_iff.mp h
    exact ⟨segments_ofChars last, slots_ofChars last⟩
  | cons piece pieces ih =>
    cases values with
    | nil => contradiction
    | cons value values =>
      obtain ⟨hsegments, hslots⟩ := ih (Nat.succ.inj h)
      rw [filled, List.append_assoc, List.cons_append]
      constructor
      · rw [segments_slot, hsegments]
        rfl
      · rw [slots_slot, hslots]

theorem run_fillFrom (lookup : String → StateM σ (Option α)) (offset : Nat) (text : List Char)
    (state : σ) :
    (fillFrom lookup offset text).run.run state =
      match splitAtOpening text with
      | none => (.ok (ofChars text), state)
      | some (before, inside) =>
        match splitAtClosing inside with
        | none => (.error (.unterminatedPlaceholder (offset + byteCount before)), state)
        | some (placeholder, after) =>
          match (lookup (String.ofList (Text.trim placeholder))).run state with
          | (none, state') =>
            (.error (.unknownPlaceholder (String.ofList (Text.trim placeholder))), state')
          | (some value, middle) =>
            let found := (fillFrom lookup
              (offset + byteCount before + 2 + byteCount placeholder + 1) after).run.run middle
            (found.1.map fun rest => ofChars before ++ .slot value :: rest, found.2) := by
  rw [fillFrom_eq]
  cases splitAtOpening text with
  | none => rfl
  | some found =>
    obtain ⟨before, inside⟩ := found
    dsimp only
    cases splitAtClosing inside with
    | none => rfl
    | some found =>
      obtain ⟨placeholder, after⟩ := found
      simp only [ExceptT.run_bind, StateT.run_bind, ExceptT.run_monadLift, bind_pure_comp,
        bind_map_left, monadLift_self]
      rcases (lookup (String.ofList (Text.trim placeholder))).run state with ⟨_ | value, middle⟩
      · rfl
      · generalize fillFrom lookup (offset + byteCount before + 2 + byteCount placeholder + 1)
          after = following
        show StateT.run (_ <$> following).run middle = _
        rw [ExceptT.run_map, StateT.run_map]
        rfl

/-- A piece is filled if its name is known; if not, the reading ends. -/
theorem run_fillFrom_piece (lookup : String → StateM σ (Option α)) (offset : Nat) (piece : Piece)
    (rest : List Char) (state : σ) :
    (fillFrom lookup offset (piece.written ++ rest)).run.run state =
      match (lookup piece.name).run state with
      | (none, state') => (.error (.unknownPlaceholder piece.name), state')
      | (some value, middle) =>
        let found := (fillFrom lookup (offset + byteCount piece.written) rest).run.run middle
        (found.1.map fun rest => ofChars piece.segment ++ .slot value :: rest, found.2) := by
  have hoffset : offset + byteCount piece.segment + 2 + byteCount piece.placeholder + 1 =
      offset + byteCount piece.written := by
    rw [byteCount_piece]
    omega
  rw [run_fillFrom, piece.written_append, splitAtOpening_append piece.plain]
  dsimp only
  rw [splitAtClosing_append piece.noClosing]
  dsimp only
  rw [hoffset]
  rfl

/-- Pieces with known names are filled, and the rest is read from behind them. -/
theorem run_fillFrom_written {pieces : List Piece}
    (hknows : Knows lookup (pieces.map Piece.name) values state middle) (offset : Nat)
    (rest : List Char) :
    (fillFrom lookup offset (written pieces ++ rest)).run.run state =
      let found := (fillFrom lookup (offset + byteCount (written pieces)) rest).run.run middle
      (found.1.map fun source => filled pieces values ++ source, found.2) := by
  induction pieces generalizing values state offset with
  | nil =>
    obtain ⟨rfl, rfl⟩ := knows_nil.mp hknows
    have hmap : ∀ found : Except BuildError (Source α), found.map (fun source => source) = found :=
      fun found => by cases found <;> rfl
    exact Prod.ext (hmap _).symm rfl
  | cons piece pieces ih =>
    obtain ⟨value, more, following, rfl, hvalue, hmore⟩ := knows_cons.mp hknows
    rw [written_cons, List.append_assoc, run_fillFrom_piece, hvalue]
    dsimp only
    rw [ih hmore, byteCount_append, ← Nat.add_assoc]
    dsimp only
    generalize (fillFrom lookup _ rest).run.run middle = found
    rcases found with ⟨_ | source, last⟩
    · rfl
    · simp [Except.map, filled]

/-- How the reading of a template ends where no more names are known. -/
inductive Halts (lookup : String → StateM σ (Option α)) (offset : Nat) (state : σ) :
    List Char → Except BuildError (Source α) × σ → Prop
  | last {text : List Char} :
      Plain text → Halts lookup offset state text (.ok (ofChars text), state)
  | unterminated {segment inside : List Char} :
      Plain segment → '}' ∉ inside →
        Halts lookup offset state (segment ++ '$' :: '{' :: inside)
          (.error (.unterminatedPlaceholder (offset + byteCount segment)), state)
  | unknown {piece : Piece} {rest : List Char} {state' : σ} :
      (lookup piece.name).run state = (none, state') →
        Halts lookup offset state (piece.written ++ rest)
          (.error (.unknownPlaceholder piece.name), state')

theorem Halts.run {offset : Nat} {text : List Char} {result : Except BuildError (Source α) × σ}
    (h : Halts lookup offset state text result) :
    (fillFrom lookup offset text).run.run state = result := by
  cases h with
  | last hplain => rw [run_fillFrom, splitAtOpening_eq_none.mpr hplain]
  | unterminated hplain hinside =>
    rw [run_fillFrom, splitAtOpening_append hplain]
    dsimp only
    rw [splitAtClosing_eq_none.mpr hinside]
  | unknown hunknown => rw [run_fillFrom_piece, hunknown]

/-- Every text is a row of pieces with known names, and one of the ends behind them. -/
theorem exists_halts (lookup : String → StateM σ (Option α)) (offset : Nat) (text : List Char)
    (state : σ) :
    ∃ pieces values middle rest result, text = written pieces ++ rest ∧
      Knows lookup (pieces.map Piece.name) values state middle ∧
        Halts lookup (offset + byteCount (written pieces)) middle rest result := by
  induction hlength : text.length using Nat.strongRecOn generalizing text offset state with
  | ind length ih =>
    cases hopening : splitAtOpening text with
    | none =>
      exact ⟨[], [], state, text, _, rfl, rfl, .last (splitAtOpening_eq_none.mp hopening)⟩
    | some found =>
      obtain ⟨segment, inside⟩ := found
      obtain ⟨hplain, rfl⟩ := of_splitAtOpening hopening
      cases hclosing : splitAtClosing inside with
      | none =>
        have hinside := splitAtClosing_eq_none.mp hclosing
        exact ⟨[], [], state, _, _, rfl, rfl, .unterminated hplain hinside⟩
      | some found =>
        obtain ⟨placeholder, after⟩ := found
        obtain ⟨hplaceholder, rfl⟩ := of_splitAtClosing hclosing
        let piece : Piece := ⟨segment, placeholder, hplain, hplaceholder⟩
        rw [← piece.written_append after]
        cases hasked : (lookup piece.name).run state with
        | mk answer following =>
          cases answer with
          | none => exact ⟨[], [], state, _, _, rfl, rfl, .unknown hasked⟩
          | some value =>
            have hshorter : after.length < length := by
              simp only [List.length_append, List.length_cons] at hlength
              omega
            obtain ⟨pieces, values, middle, rest, result, rfl, hknows, hhalts⟩ :=
              ih after.length hshorter (offset + byteCount piece.written) after following rfl
            refine ⟨piece :: pieces, value :: values, middle, rest, result, ?_,
              knows_cons.mpr ⟨value, values, following, rfl, hasked, hknows⟩, ?_⟩
            · rw [written_cons, List.append_assoc]
            · rwa [written_cons, byteCount_append, ← Nat.add_assoc]

/-! ## Sources as they are built -/

/-- A source that is put together step by step, with the segments and slots that the steps make. -/
inductive Built : Source α → List String → List α → Prop
  | new : Built [] [""] []
  | text {source : Source α} {segments : List String} {slots : List α} (text : String) :
      Built source segments slots →
        Built (source.addText text) (segments.modifyLast (· ++ text)) slots
  | slot {source : Source α} {segments : List String} {slots : List α} (value : α) :
      Built source segments slots →
        Built (source.addSlot value) (segments ++ [""]) (slots ++ [value])
  | parts {source : Source α} {segments : List String} {slots : List α} :
      ofParts segments slots = .ok source → Built source segments slots
  | template {σ : Type} {lookup : String → StateM σ (Option α)} {text : String} {state state' : σ}
      {source : Source α} :
      (ofTemplateM lookup text).run state = (.ok source, state') →
        Built source source.segments source.slots

theorem Built.spec {source : Source α} {segments : List String} {slots : List α}
    (h : Built source segments slots) : source.segments = segments ∧ source.slots = slots := by
  induction h with
  | new => exact ⟨rfl, rfl⟩
  | text text _ ih => exact ⟨by rw [segments_addText, ih.1], by rw [slots_addText, ih.2]⟩
  | slot value _ ih => exact ⟨by rw [segments_addSlot, ih.1], by rw [slots_addSlot, ih.2]⟩
  | parts hparts =>
    unfold ofParts at hparts
    split at hparts
    · obtain rfl := Except.ok.inj hparts
      exact interleave_spec ‹_›
    · contradiction
  | template => exact ⟨rfl, rfl⟩

/-! ## Templates -/

/-- What a template comes to: its pieces filled, or the failure behind them. -/
theorem run_ofTemplateM {pieces : List Piece} {rest : List Char}
    {result : Except BuildError (Source α) × σ}
    (hknows : Knows lookup (pieces.map Piece.name) values state middle)
    (hhalts : Halts lookup (byteCount (written pieces)) middle rest result) :
    (ofTemplateM lookup (String.ofList (written pieces ++ rest))).run state =
      (result.1.map fun source => filled pieces values ++ source, result.2) := by
  rw [ofTemplateM, String.toList_ofList, run_fillFrom_written hknows, Nat.zero_add, hhalts.run]

/-- Every template has such a shape. -/
theorem exists_shape (lookup : String → StateM σ (Option α)) (text : String) (state : σ) :
    ∃ pieces values middle rest result, text = String.ofList (written pieces ++ rest) ∧
      Knows lookup (pieces.map Piece.name) values state middle ∧
        Halts lookup (byteCount (written pieces)) middle rest result := by
  obtain ⟨pieces, values, middle, rest, result, htext, hknows, hhalts⟩ :=
    exists_halts lookup 0 text.toList state
  rw [Nat.zero_add] at hhalts
  exact ⟨pieces, values, middle, rest, result, by rw [← htext, String.ofList_toList], hknows,
    hhalts⟩

/-- Segments and placeholders that are joined come apart again. -/
theorem ofTemplateM_written {pieces : List Piece} {last : List Char} (hplain : Plain last)
    (hknows : Knows lookup (pieces.map Piece.name) values state state') :
    ∃ source,
      (ofTemplateM lookup (String.ofList (written pieces ++ last))).run state =
        (.ok source, state') ∧
      source.segments = (pieces.map Piece.segment ++ [last]).map String.ofList ∧
      source.slots = values :=
  ⟨_, run_ofTemplateM hknows (.last hplain),
    filled_parts (by simpa using hknows.length) last⟩

/-- What has been taken apart is joined from these segments. -/
theorem of_ofTemplateM_ok {text : String} {source : Source α}
    (h : (ofTemplateM lookup text).run state = (.ok source, state')) :
    ∃ pieces last, Plain last ∧ text = String.ofList (written pieces ++ last) ∧
      source.segments = (pieces.map Piece.segment ++ [last]).map String.ofList ∧
      Knows lookup (pieces.map Piece.name) source.slots state state' := by
  obtain ⟨pieces, values, middle, rest, result, rfl, hknows, hhalts⟩ :=
    exists_shape lookup text state
  rw [run_ofTemplateM hknows hhalts] at h
  cases hhalts with
  | last hplain =>
    obtain ⟨hsource, rfl⟩ := Prod.mk.inj h
    obtain rfl := Except.ok.inj hsource
    obtain ⟨hsegments, hslots⟩ := filled_parts (by simpa using hknows.length) rest
    exact ⟨pieces, rest, hplain, rfl, hsegments, by rwa [hslots]⟩
  | unterminated => cases h
  | unknown => cases h

theorem ofTemplateM_unterminated {text : String} {offset : Nat} :
    (ofTemplateM lookup text).run state = (.error (.unterminatedPlaceholder offset), state') ↔
      ∃ pieces segment inside values, Plain segment ∧ '}' ∉ inside ∧
        text = String.ofList (written pieces ++ (segment ++ '$' :: '{' :: inside)) ∧
        offset = (String.ofList (written pieces ++ segment)).utf8ByteSize ∧
        Knows lookup (pieces.map Piece.name) values state state' := by
  constructor
  · intro h
    obtain ⟨pieces, values, middle, rest, result, rfl, hknows, hhalts⟩ :=
      exists_shape lookup text state
    rw [run_ofTemplateM hknows hhalts] at h
    cases hhalts with
    | last => cases h
    | @unterminated segment inside hplain hinside =>
      obtain ⟨herror, rfl⟩ := Prod.mk.inj h
      obtain rfl := BuildError.unterminatedPlaceholder.inj (Except.error.inj herror)
      refine ⟨pieces, segment, inside, values, hplain, hinside, rfl, ?_, hknows⟩
      rw [← byteCount_eq, byteCount_append]
    | unknown => cases h
  · rintro ⟨pieces, segment, inside, values, hplain, hinside, rfl, rfl, hknows⟩
    rw [run_ofTemplateM hknows (.unterminated hplain hinside), ← byteCount_eq,
      byteCount_append]
    rfl

theorem ofTemplateM_unknown {text name : String} :
    (ofTemplateM lookup text).run state = (.error (.unknownPlaceholder name), state') ↔
      ∃ (pieces : List Piece) (piece : Piece) (rest : List Char) (values : List α) (middle : σ),
        piece.name = name ∧ text = String.ofList (written pieces ++ (piece.written ++ rest)) ∧
        Knows lookup (pieces.map Piece.name) values state middle ∧
        (lookup name).run middle = (none, state') := by
  constructor
  · intro h
    obtain ⟨pieces, values, middle, rest, result, rfl, hknows, hhalts⟩ :=
      exists_shape lookup text state
    rw [run_ofTemplateM hknows hhalts] at h
    cases hhalts with
    | last => cases h
    | unterminated => cases h
    | @unknown piece rest _ hunknown =>
      obtain ⟨herror, rfl⟩ := Prod.mk.inj h
      obtain rfl := BuildError.unknownPlaceholder.inj (Except.error.inj herror)
      exact ⟨pieces, piece, rest, values, middle, rfl, rfl, hknows, hunknown⟩
  · rintro ⟨pieces, piece, rest, values, middle, rfl, rfl, hknows, hunknown⟩
    rw [run_ofTemplateM hknows (.unknown hunknown)]
    rfl

/-- **Taking a template apart undoes joining its segments and placeholders.** The names are asked
for once each and from left to right, also where the template then turns out to be faulty, and
a source has the segments and slots that the steps of its making give it. -/
theorem template_pieces (lookup : String → StateM σ (Option α)) :
    (∀ (pieces : List Piece) (last : List Char) (values : List α) (state state' : σ),
      Plain last → Knows lookup (pieces.map Piece.name) values state state' →
        ∃ source,
          (ofTemplateM lookup (String.ofList (written pieces ++ last))).run state =
            (.ok source, state') ∧
          source.segments = (pieces.map Piece.segment ++ [last]).map String.ofList ∧
          source.slots = values) ∧
    (∀ (text : String) (source : Source α) (state state' : σ),
      (ofTemplateM lookup text).run state = (.ok source, state') →
        ∃ pieces last, Plain last ∧ text = String.ofList (written pieces ++ last) ∧
          source.segments = (pieces.map Piece.segment ++ [last]).map String.ofList ∧
          Knows lookup (pieces.map Piece.name) source.slots state state') ∧
    (∀ (text : String) (offset : Nat) (state state' : σ),
      (ofTemplateM lookup text).run state = (.error (.unterminatedPlaceholder offset), state') ↔
        ∃ pieces segment inside values, Plain segment ∧ '}' ∉ inside ∧
          text = String.ofList (written pieces ++ (segment ++ '$' :: '{' :: inside)) ∧
          offset = (String.ofList (written pieces ++ segment)).utf8ByteSize ∧
          Knows lookup (pieces.map Piece.name) values state state') ∧
    (∀ (text name : String) (state state' : σ),
      (ofTemplateM lookup text).run state = (.error (.unknownPlaceholder name), state') ↔
        ∃ (pieces : List Piece) (piece : Piece) (rest : List Char) (values : List α) (middle : σ),
          piece.name = name ∧ text = String.ofList (written pieces ++ (piece.written ++ rest)) ∧
          Knows lookup (pieces.map Piece.name) values state middle ∧
          (lookup name).run middle = (none, state')) ∧
    (∀ (source : Source α) (segments : List String) (slots : List α),
      Built source segments slots →
        source.segments = segments ∧ source.slots = slots ∧
          segments.length = slots.length + 1) := by
  refine ⟨fun _ _ _ _ _ => ofTemplateM_written, fun _ _ _ _ => of_ofTemplateM_ok,
    fun _ _ _ _ => ofTemplateM_unterminated, fun _ _ _ _ => ofTemplateM_unknown, ?_⟩
  intro source segments slots hbuilt
  obtain ⟨rfl, rfl⟩ := hbuilt.spec
  exact ⟨rfl, rfl, length_segments source⟩

/-- A resolver that keeps a record of what it is asked, and numbers all names but the empty one. -/
def recorder (name : String) : StateM (List String) (Option Nat) := fun asked =>
  (if name.isEmpty then none else some asked.length, asked ++ [name])

theorem template_pieces_recorder :
    ∃ source, (ofTemplateM recorder "é$$\x7b x \x7d$\x7b$\x7by\x7d").run [] =
        (.ok source, ["x", "$\x7by"]) ∧
      source.segments = ["é$", "", ""] ∧ source.slots = [0, 1] := by
  let pieces : List Piece :=
    [⟨['é', '$'], [' ', 'x', ' '], by decide, by decide⟩,
      ⟨[], ['$', '{', 'y'], by decide, by decide⟩]
  exact (template_pieces recorder).1 pieces [] [0, 1] [] ["x", "$\x7by"] (by decide) rfl

end IndentMarkup.Source
