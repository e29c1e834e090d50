import IndentMarkup.Cursor.Pattern
import IndentMarkup.Source.Position

/-! Cursors: reading a source by hand. A cursor holds the segments and the slots of a source and a
position in them, which every step moves on. Patterns see only the rest of the current segment, so
no match reaches across a slot, and a slot can be taken only where the segment before it is used
up. To go back is to put back a position from before. -/
namespace IndentMarkup

/-- A source that is being read, and how far the reading has come. -/
structure Cursor (α : Type) where
  segments : List String
  slots : List α
  position : Position

namespace Cursor

variable {α : Type}

def ofSource (source : Source α) : Cursor α := ⟨source.segments, source.slots, .start⟩

/-- What is left of the text of the current segment. -/
def segmentRest (cursor : Cursor α) : List Char :=
  match cursor.segments[cursor.position.segment]? with
  | some segment => Source.dropBytes cursor.position.offset segment.toList
  | none => []

def segmentFinished (cursor : Cursor α) : Bool := cursor.segmentRest.isEmpty

def inLastSegment (cursor : Cursor α) : Bool :=
  cursor.segments.length ≤ cursor.position.segment + 1

def atEnd (cursor : Cursor α) : Bool := cursor.segmentFinished && cursor.inLastSegment

def slotsLeft (cursor : Cursor α) : Nat := cursor.slots.length - cursor.position.segment

/-- What is left of the source: the rest of the current segment, and the slots and segments behind
it. -/
def rest (cursor : Cursor α) : Source α :=
  Source.interleave
    (String.ofList cursor.segmentRest :: cursor.segments.drop (cursor.position.segment + 1))
    (cursor.slots.drop cursor.position.segment)

def advance (cursor : Cursor α) (text : List Char) : Cursor α :=
  { cursor with position := cursor.position.behindText text }

def restore (cursor : Cursor α) (position : Position) : Cursor α :=
  { cursor with position }

def peek (cursor : Cursor α) (matcher : Matcher) : Option Match :=
  matcher.first? cursor.segmentRest

/-- The match at the cursor, provided that it uses up the whole source. -/
def peekToEnd (cursor : Cursor α) (matcher : Matcher) : Option Match :=
  (cursor.peek matcher).filter fun found =>
    Source.byteCount found.taken == Source.byteCount cursor.segmentRest && cursor.inLastSegment

/-- The match at the cursor, and the cursor behind it. Without a match the cursor stays. -/
def consume (cursor : Cursor α) (matcher : Matcher) : Option Match × Cursor α :=
  match cursor.peek matcher with
  | some found => (some found, cursor.advance found.taken)
  | none => (none, cursor)

def peekText (cursor : Cursor α) (text : String) : Bool :=
  text.toList.isPrefixOf cursor.segmentRest

/-- Whether a fixed text follows, and the cursor behind it if so. -/
def consumeText (cursor : Cursor α) (text : String) : Bool × Cursor α :=
  if cursor.peekText text then (true, cursor.advance text.toList) else (false, cursor)

/-- The slot at the cursor, and the cursor at the start of the segment behind it. Within a segment
the cursor stays, and behind the last slot. -/
def takeSlot (cursor : Cursor α) : Option α × Cursor α :=
  if cursor.segmentFinished then
    match cursor.slots[cursor.position.segment]? with
    | some value => (some value, { cursor with position := cursor.position.nextSegment })
    | none => (none, cursor)
  else (none, cursor)

/-- Keeps the progress of a reading only if it has a result. -/
def attempt {m : Type → Type} [Monad m] {β : Type} (cursor : Cursor α)
    (read : Cursor α → m (Option β × Cursor α)) : m (Option β × Cursor α) := do
  let saved := cursor.position
  match ← read cursor with
  | (some result, after) => return (some result, after)
  | (none, after) => return (none, after.restore saved)

end Cursor

end IndentMarkup
