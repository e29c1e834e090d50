/-! Sources: text with slots. A source is one flat sequence of characters and slot values, so
the input still to be read is always a suffix of it. The segments are the stretches of text
between the slots; `length_segments` says that there is one more of them than of slots. -/
namespace IndentMarkup

/-- One symbol of a source: a character of its text, or a slot with its value. -/
inductive Symbol (α : Type) where
  | char (c : Char)
  | slot (value : α)
  deriving DecidableEq, Repr

def Symbol.map {α β : Type} (f : α → β) : Symbol α → Symbol β
  | .char c => .char c
  | .slot value => .slot (f value)

/-- Text interleaved with slots. -/
abbrev Source (α : Type) := List (Symbol α)

namespace Source

variable {α : Type}

/-- Characters as a source without slots. -/
def ofChars (text : List Char) : Source α :=
  text.map .char

def ofText (text : String) : Source α :=
  ofChars text.toList

/-- Appends text to the last segment. -/
def addText (source : Source α) (text : String) : Source α :=
  source ++ ofText text

/-- Appends a slot, which opens a new and empty segment. -/
def addSlot (source : Source α) (value : α) : Source α :=
  source ++ [.slot value]

def slots : Source α → List α
  | [] => []
  | .char _ :: rest => slots rest
  | .slot value :: rest => value :: slots rest

/-- The characters before the first slot. -/
def firstSegment : Source α → List Char
  | .char c :: rest => c :: firstSegment rest
  | _ => []

def laterSegments : Source α → List (List Char)
  | [] => []
  | .char _ :: rest => laterSegments rest
  | .slot _ :: rest => firstSegment rest :: laterSegments rest

/-- The stretches of text between the slots, in order. -/
def segments (source : Source α) : List String :=
  (source.firstSegment :: source.laterSegments).map String.ofList

def mapSlots {β : Type} (f : α → β) (source : Source α) : Source β :=
  source.map (Symbol.map f)

/-- Segments and slots in turn, beginning and ending with a segment. -/
def interleave : List String → List α → Source α
  | text :: texts, value :: values => ofText text ++ .slot value :: interleave texts values
  | text :: _, [] => ofText text
  | [], _ => []

/-- The bytes of the UTF-8 form of a text. -/
def byteCount : List Char → Nat
  | [] => 0
  | c :: rest => c.utf8Size + byteCount rest

/-- The characters before this many bytes of a text. A character counts once all of its bytes do. -/
def takeBytes : Nat → List Char → List Char
  | _, [] => []
  | count, c :: rest =>
    if count < c.utf8Size then [] else c :: takeBytes (count - c.utf8Size) rest

/-- The characters behind this many bytes of a text. A character is whole as long as one of its bytes
is left. -/
def dropBytes : Nat → List Char → List Char
  | _, [] => []
  | count, c :: rest => if count < c.utf8Size then c :: rest else dropBytes (count - c.utf8Size) rest

inductive BuildError where
  /-- The counts of segments and slots do not alternate. -/
  | mismatchedParts (segments slots : Nat)
  /-- A placeholder is opened at this byte offset and never closed. -/
  | unterminatedPlaceholder (offset : Nat)
  /-- No value is known for this placeholder. -/
  | unknownPlaceholder (name : String)
  deriving DecidableEq, Repr

def BuildError.message : BuildError → String
  | .mismatchedParts segments slots =>
    s!"expected one more segment than slots, got {segments} segments and {slots} slots"
  | .unterminatedPlaceholder offset => s!"unterminated placeholder at offset {offset}"
  | .unknownPlaceholder name => s!"unknown placeholder: {name}"

/-- Puts segments and slots together; there must be one more segment than slots. -/
def ofParts (segments : List String) (slots : List α) : Except BuildError (Source α) :=
  if segments.length = slots.length + 1 then .ok (interleave segments slots)
  else .error (.mismatchedParts segments.length slots.length)

theorem byteCount_append (front back : List Char) :
    byteCount (front ++ back) = byteCount front + byteCount back := by
  induction front with
  | nil => rw [List.nil_append, byteCount, Nat.zero_add]
  | cons c front ih => rw [List.cons_append, byteCount, byteCount, ih, Nat.add_assoc]

theorem byteCount_eq (text : List Char) : byteCount text = (String.ofList text).utf8ByteSize := by
  induction text with
  | nil => rfl
  | cons c text ih =>
    rw [byteCount, ih, ← List.singleton_append, String.ofList_append, String.utf8ByteSize_append,
      ← String.singleton_eq_ofList, String.utf8ByteSize_singleton]

theorem takeBytes_append (front back : List Char) :
    takeBytes (byteCount front) (front ++ back) = front := by
  induction front with
  | nil =>
    cases back with
    | nil => rfl
    | cons c rest => rw [byteCount, List.nil_append, takeBytes, if_pos c.utf8Size_pos]
  | cons c front ih =>
    rw [byteCount, List.cons_append, takeBytes, if_neg (Nat.not_lt.mpr (Nat.le_add_right _ _)),
      Nat.add_sub_cancel_left, ih]

theorem dropBytes_append (front back : List Char) :
    dropBytes (byteCount front) (front ++ back) = back := by
  induction front with
  | nil =>
    cases back with
    | nil => rfl
    | cons c rest => rw [byteCount, List.nil_append, dropBytes, if_pos c.utf8Size_pos]
  | cons c front ih =>
    rw [byteCount, List.cons_append, dropBytes, if_neg (Nat.not_lt.mpr (Nat.le_add_right _ _)),
      Nat.add_sub_cancel_left, ih]

theorem length_laterSegments (source : Source α) :
    source.laterSegments.length = source.slots.length := by
  induction source with
  | nil => rfl
  | cons symbol rest ih => cases symbol <;> simp [laterSegments, slots, ih]

/-- A source has exactly one more segment than slots. -/
theorem length_segments (source : Source α) :
    source.segments.length = source.slots.length + 1 := by
  simp [segments, length_laterSegments]

end Source

end IndentMarkup
