import IndentMarkup.Command
import IndentMarkup.Proofs.MapSlots

/-! The parser never looks inside a slot. Sources with the same segments and the same number of
slots have one skeleton between them, a document whose holes are numbered, or one failure. Checking
a template with no values therefore says whether it parses with any. -/
namespace IndentMarkup

variable {α β : Type}

/-! ## Skeletons -/

theorem Source.mapSlots_ofChars (f : α → β) (text : List Char) :
    mapSlots f (ofChars text) = ofChars text := by
  simp [mapSlots, ofChars, Symbol.map]

theorem Source.mapSlots_append (f : α → β) (front back : Source α) :
    mapSlots f (front ++ back) = mapSlots f front ++ mapSlots f back :=
  List.map_append

theorem Source.interleave_map (f : α → β) (segments : List String) (slots : List α) :
    interleave segments (slots.map f) = (interleave segments slots).mapSlots f := by
  have htext : ∀ text : String, (ofText text : Source β) = mapSlots f (ofText text) :=
    fun text => (mapSlots_ofChars f text.toList).symm
  fun_induction interleave segments slots with
  | case1 text texts value values ih =>
    rw [List.map_cons, interleave, ih, htext, mapSlots_append, mapSlots_slot]
  | case2 text texts => exact htext text
  | case3 slots => rfl

/-- The document, or the failure, of all sources with these segments and so many slots. -/
def skeleton (segments : List String) (count : Nat) : Except SyntaxError (Document (Fin count)) :=
  parse (Source.interleave segments (List.finRange count))

/-- Every source is its skeleton with the values of its slots in the holes. -/
theorem parse_interleave (segments : List String) (slots : List α) :
    parse (Source.interleave segments slots) =
      (skeleton segments slots.length).map (Document.map slots.get) := by
  have hslots : (List.finRange slots.length).map slots.get = slots :=
    List.ext_getElem (by simp) (by simp)
  rw [skeleton, ← parse_mapSlots, ← Source.interleave_map, hslots]

/-! ## Templates -/

namespace Source

/-- Filling placeholders with values that are known beforehand. -/
theorem fillFrom_known (lookup : String → Option α) (offset : Nat) (text : List Char) :
    (fillFrom (m := Id) lookup offset text : Except BuildError (Source α)) =
      match splitAtOpening text with
      | none => .ok (ofChars text)
      | some (before, inside) =>
        let opening := offset + byteCount before
        match splitAtClosing inside with
        | none => .error (.unterminatedPlaceholder opening)
        | some (written, after) =>
          let name := String.ofList (Text.trim written)
          match lookup name with
          | none => .error (.unknownPlaceholder name)
          | some value =>
            Except.map (fun rest => ofChars before ++ .slot value :: rest)
              (fillFrom (m := Id) lookup (opening + 2 + byteCount written + 1) after) := by
  rw [fillFrom_eq]
  cases splitAtOpening text with
  | none => rfl
  | some found =>
    obtain ⟨before, inside⟩ := found
    simp only
    cases splitAtClosing inside with
    | none => rfl
    | some found =>
      obtain ⟨written, after⟩ := found
      simp only
      cases lookup (String.ofList (Text.trim written)) with
      | none => rfl
      | some value =>
        simp only
        generalize fillFrom (m := Id) lookup _ after = filled
        cases filled <;> rfl

/-- Where all placeholders are known, other values for them give the same source with these values
in its slots. -/
theorem fillFrom_mapSlots {lookup : String → Option α} {lookup' : String → Option β} {f : α → β}
    (hlookup : ∀ name value, lookup name = some value → lookup' name = some (f value))
    {offset : Nat} {text : List Char} {source : Source α}
    (h : fillFrom (m := Id) lookup offset text = .ok source) :
    fillFrom (m := Id) lookup' offset text = .ok (source.mapSlots f) := by
  induction hlength : text.length using Nat.strongRecOn generalizing text offset source with
  | ind length ih =>
    rw [fillFrom_known] at h ⊢
    cases hopening : splitAtOpening text with
    | none =>
      rw [hopening] at h
      obtain rfl := Except.ok.inj h
      simp only [mapSlots_ofChars]
    | some found =>
      obtain ⟨before, inside⟩ := found
      rw [hopening] at h
      simp only at h ⊢
      cases hclosing : splitAtClosing inside with
      | none =>
        rw [hclosing] at h
        contradiction
      | some found =>
        obtain ⟨written, after⟩ := found
        rw [hclosing] at h
        simp only at h ⊢
        cases hname : lookup (String.ofList (Text.trim written)) with
        | none =>
          rw [hname] at h
          contradiction
        | some value =>
          rw [hname] at h
          rw [hlookup _ value hname]
          simp only at h ⊢
          have hopened := length_of_splitAtOpening hopening
          have hclosed := length_of_splitAtClosing hclosing
          cases hfilled : (fillFrom (m := Id) lookup
              (offset + byteCount before + 2 + byteCount written + 1) after :
                Except BuildError (Source α)) with
          | error error =>
            rw [hfilled] at h
            contradiction
          | ok rest =>
            rw [hfilled] at h
            obtain rfl := Except.ok.inj h
            rw [ih after.length (by omega) hfilled rfl]
            simp [Except.map, mapSlots_append, mapSlots_ofChars]

end Source

/-! ## The command that checks a template -/

open Command

theorem Command.Result.outcome_bind {γ δ : Type} (first : Result γ) (next : γ → Result δ) :
    (first >>= next).outcome = first.outcome >>= fun value => (next value).outcome := by
  show (Result.bind first next).outcome = _
  unfold Result.bind
  cases first.outcome <;> rfl

theorem outcome_parseLogged (source : Source (Value NodeId)) :
    (parseLogged source).outcome =
      (parse source).mapError fun error => (Error.parsing error).message := rfl

/-- What is reported of a parsed document does not make the command fail. -/
theorem isOk_parseLogged {γ : Type} (source : Source (Value NodeId))
    {report : Document (Value NodeId) → Result γ}
    (hreport : ∀ document, (report document).outcome.isOk = true) :
    (parseLogged source >>= report).outcome.isOk = (parse source).isOk := by
  rw [Result.outcome_bind, outcome_parseLogged]
  cases parse source with
  | error error => rfl
  | ok document => exact hreport document

/-- A template is accepted if it can be put together and parses with no values. -/
theorem isOk_check {files : Files} {path text : String} (hfile : files path = .ok text) :
    (check files path).outcome.isOk = true ↔
      ∃ source, Source.ofTemplate (fun _ => some (.absent : Value NodeId)) text = .ok source ∧
        (parse source).isOk = true := by
  have hread : (Result.silent (readFile files path)).outcome = .ok text := by
    show (files path).mapError _ = _
    rw [hfile]
    rfl
  rw [check, Result.outcome_bind, hread]
  show ((Result.silent (templateSource (fun _ => some .absent) text) >>= _).outcome.isOk = true) ↔ _
  rw [Result.outcome_bind]
  show ((templateSource (fun _ => some .absent) text >>= _).isOk = true) ↔ _
  unfold templateSource
  cases Source.ofTemplate (fun _ => some (.absent : Value NodeId)) text with
  | error error =>
    constructor
    · intro hok
      exact absurd hok Bool.false_ne_true
    · rintro ⟨source, hsource, -⟩
      contradiction
  | ok source =>
    show ((parseLogged source >>= _).outcome.isOk = true) ↔ _
    rw [isOk_parseLogged source fun _ => rfl]
    constructor
    · intro hok
      exact ⟨source, rfl, hok⟩
    · rintro ⟨other, hother, hok⟩
      obtain rfl := Except.ok.inj hother
      exact hok

/-- Two lookups that know all placeholders of a template. -/
theorem isOk_parse_ofTemplate {lookup : String → Option (Value NodeId)} {text : String}
    {source : Source (Value NodeId)} (h : Source.ofTemplate lookup text = .ok source) :
    ∃ blank, Source.ofTemplate (fun _ => some (.absent : Value NodeId)) text = .ok blank ∧
      ((parse blank).isOk = true ↔ (parse source).isOk = true) := by
  refine ⟨source.mapSlots fun _ => .absent, Source.fillFrom_mapSlots (fun _ _ _ => rfl) h, ?_⟩
  rw [parse_mapSlots]
  cases parse source <;> rfl

/-- The parser never looks inside a slot value. Segments and a number of slots determine a skeleton
or a failure, which every choice of slot values gives with the values in the holes; and a template
is accepted by the check exactly if it parses with any values that all its placeholders have. -/
theorem parse_skeleton :
    (∀ (segments : List String) (count : Nat), segments.length = count + 1 →
      ∃ skeleton : Except SyntaxError (Document (Fin count)),
        ∀ {α : Type} (slots : List α) (hslots : slots.length = count),
          ∃ source, Source.ofParts segments slots = .ok source ∧
            parse source =
              skeleton.map (Document.map fun hole => slots.get (hole.cast hslots.symm))) ∧
    (∀ (files : Files) (path text : String), files path = .ok text →
      ((check files path).outcome.isOk = true →
        ∃ source, Source.ofTemplate (fun _ => some (.absent : Value NodeId)) text = .ok source) ∧
      ∀ (lookup : String → Option (Value NodeId)) (source : Source (Value NodeId)),
        Source.ofTemplate lookup text = .ok source →
          ((check files path).outcome.isOk = true ↔ (parse source).isOk = true)) := by
  constructor
  · intro segments count hcount
    refine ⟨skeleton segments count, fun slots hslots => ?_⟩
    subst hslots
    refine ⟨Source.interleave segments slots, ?_, parse_interleave segments slots⟩
    rw [Source.ofParts, if_pos hcount]
  · intro files path text hfile
    constructor
    · intro hcheck
      obtain ⟨source, hsource, -⟩ := (isOk_check hfile).mp hcheck
      exact ⟨source, hsource⟩
    · intro lookup source hsource
      obtain ⟨blank, hblank, hsame⟩ := isOk_parse_ofTemplate hsource
      rw [isOk_check hfile]
      constructor
      · rintro ⟨other, hother, hok⟩
        obtain rfl := Except.ok.inj (hblank.symm.trans hother)
        exact hsame.mp hok
      · intro hok
        exact ⟨blank, hblank, hsame.mpr hok⟩

/-- A template with two placeholders. -/
def sampleTemplate : String := "- if $\x7bc\x7d\n  | $\x7bx\x7d"

theorem parse_skeleton_sample :
    (∃ skeleton : Except SyntaxError (Document (Fin 2)), ∀ first second : Nat,
      ∃ source, Source.ofParts ["- if ", "\n  | ", ""] [first, second] = .ok source ∧
        parse source = skeleton.map (Document.map fun hole => [first, second].get hole)) ∧
    (∃ source, Source.ofTemplate (fun _ => some (.bool true : Value NodeId)) sampleTemplate =
        .ok source ∧ (parse source).isOk = true) ∧
    (check (fun _ => .ok sampleTemplate) "page").outcome.isOk = true := by
  have hparses : ((Source.ofTemplate (fun _ => some (.bool true : Value NodeId))
      sampleTemplate).toOption.map fun source => (parse source).isOk) = some true := by
    decide +kernel
  constructor
  · obtain ⟨skeleton, hskeleton⟩ := parse_skeleton.1 ["- if ", "\n  | ", ""] 2 rfl
    exact ⟨skeleton, fun first second => hskeleton [first, second] rfl⟩
  · cases hsource : Source.ofTemplate (fun _ => some (.bool true : Value NodeId))
        sampleTemplate with
    | error error =>
      rw [hsource] at hparses
      contradiction
    | ok source =>
      rw [hsource] at hparses
      have hok : (parse source).isOk = true := Option.some.inj hparses
      have hcheck := (parse_skeleton.2 (fun _ => .ok sampleTemplate) "page" _ rfl).2 _ source
        hsource
      exact ⟨⟨source, rfl, hok⟩, hcheck.mpr hok⟩

end IndentMarkup
