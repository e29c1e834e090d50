import IndentMarkup.Source.Basic

/-! Positions in a source. A position counts segments, bytes within the segment and lines within
the segment. It can be moved on by a text or to the next segment, and it is determined by the
symbols that lie before it. -/
namespace IndentMarkup

/-- A place in a source. Lines count from 1 at the start of every segment. -/
structure Position where
  segment : Nat
  /-- Bytes of the UTF-8 form of the segment that lie before the place. -/
  offset : Nat
  line : Nat
  deriving DecidableEq, Repr

namespace Position

variable {α : Type}

def start : Position := ⟨0, 0, 1⟩

def behindText (position : Position) (text : List Char) : Position :=
  ⟨position.segment, position.offset + Source.byteCount text, position.line + text.count '\n'⟩

def nextSegment (position : Position) : Position := ⟨position.segment + 1, 0, 1⟩

/-- The position behind one more symbol. -/
def advance (position : Position) : Symbol α → Position
  | .char c => ⟨position.segment, position.offset + c.utf8Size,
      if c = '\n' then position.line + 1 else position.line⟩
  | .slot _ => position.nextSegment

/-- The position behind all of `taken`. -/
def behind (taken : Source α) : Position :=
  taken.foldl advance start

/-- The position at which the suffix `rest` of `source` begins. -/
def ofRest (source rest : Source α) : Position :=
  behind (source.take (source.length - rest.length))

theorem behind_append (front back : Source α) :
    behind (front ++ back) = back.foldl advance (behind front) :=
  List.foldl_append

/-- A text is passed over in one step or character by character. -/
theorem behindText_eq_foldl (position : Position) (text : List Char) :
    position.behindText text = (Source.ofChars text : Source α).foldl advance position := by
  induction text generalizing position with
  | nil => rfl
  | cons c text ih =>
    have hstep : position.behindText (c :: text) =
        (position.advance (.char c : Symbol α)).behindText text := by
      simp only [behindText, advance, Source.byteCount, List.count_cons, beq_iff_eq, mk.injEq]
      refine ⟨trivial, (Nat.add_assoc _ _ _).symm, ?_⟩
      split <;> omega
    rw [hstep, ih]
    rfl

@[simp] theorem ofRest_append (taken rest : Source α) :
    ofRest (taken ++ rest) rest = behind taken := by
  simp [ofRest]

end Position

end IndentMarkup
