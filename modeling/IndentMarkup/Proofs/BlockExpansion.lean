import IndentMarkup.Proofs.BareHeader
import IndentMarkup.Proofs.Margins

/-! Block expansion. Behind the colon of a block expansion the same element is read, at the same
indent, as on a line of its own; written one block deeper it is read at an indent that is a margin
longer, on lines that stand behind this margin. In both places it is all that its parent holds. -/
namespace IndentMarkup

open Source (ofText)

variable {α : Type}

namespace Parser

open Text (isBlank)

variable {header : Header α} {text source rest : Source α} {indent : Indent}
  {nodes : List (Node α)}

/-! ## Where an element begins -/

theorem naming_of_element (h : element indent source = .ok (some (nodes, rest))) :
    ∃ found, naming source = .ok (some found) := by
  rw [element_eq] at h
  obtain ⟨found, hnaming, h⟩ := of_bind_ok h
  cases found with
  | none => exact absurd (Except.ok.inj h).symm (Option.some_ne_none _)
  | some found => exact ⟨found, hnaming⟩

/-- Where an element is read, it is the item. -/
theorem item_of_element (h : element indent source = .ok (some (nodes, rest))) :
    BeginsItem source ∧ item indent source = .ok (some (nodes, rest)) := by
  obtain ⟨found, hnaming⟩ := naming_of_element h
  exact ⟨beginsItem_of_naming hnaming, (item_of_naming indent hnaming).trans h⟩

/-- An item that reads a whole source at its edge is the document. -/
theorem document_item (hbegins : BeginsItem source) (h : item [] source = .ok (some (nodes, []))) :
    document source = .ok ⟨nodes⟩ := by
  let edge : Blanks := ⟨[], fun _ hc => by contradiction⟩
  have hbase : baseIndent source = [] := baseIndent_item edge hbegins
  have hfirst : firstItem source = source := firstItem_item edge hbegins
  rw [document_eq, hbase, hfirst, block_eq, h]
  simp only [bind, Except.bind, siblings_nil, List.append_nil]
  rfl

/-! ## Behind the colon and on the lines below -/

/-- Behind a header and a colon an element is the content of the header. -/
theorem element_expansion (hheader : header.Written text)
    (h : element indent source = .ok (some (nodes, rest))) :
    element indent (text ++ (ofText ": " ++ source)) =
      .ok (some ([.element header nodes], rest)) := by
  obtain ⟨found, hnaming⟩ := naming_of_element h
  have hblank : Stops isBlank source :=
    stops_of_naming (fun _ => not_isBlank_of_isTagChar) rfl rfl hnaming
  have hequals : Stops (· == '=') source := stops_of_naming (beq_of_class rfl) rfl rfl hnaming
  have hcolon : expansion? (.char ':' :: .char ' ' :: source) = some source :=
    congrArg some (afterWhile_of_stops hblank)
  have hskip : skipOneBlank (.char ':' :: .char ' ' :: source) = .char ':' :: .char ' ' :: source :=
    rfl
  show element indent (text ++ .char ':' :: .char ' ' :: source) = _
  rw [element_header indent hheader (.colon hblank hequals), content_eq, hskip]
  simp only [hcolon, h]
  rfl

/-- Behind a margin an element that ends its source reads the same nodes, and is the whole of the
block below an outermost line. -/
theorem children_moved (margin : Gap) (htab : .char '\t' ∉ source)
    (h : element [] source = .ok (some (nodes, []))) :
    children [] (source.moved margin.toBlanks) = .ok (nodes, []) := by
  have heven : Even margin.toBlanks [] source :=
    ⟨fun _ hc => by contradiction, fun _ => ⟨List.not_mem_nil, htab⟩⟩
  have hinner : element margin.chars (source.inset id margin.toBlanks) =
      .ok (some (nodes, [])) := by
    have hinset := element_inset (f := id) heven
    rw [List.append_nil, h] at hinset
    rw [hinset]
    simp only [insetOutcome, Option.map_some, insetFoundLeft, Node.mapAll_id, insetLeft_nil]
  obtain ⟨hbegins, hitem⟩ := item_of_element hinner
  have hdeeper : deeperIndent? [] (source.moved margin.toBlanks) =
      some (margin.chars, source.inset id margin.toBlanks) :=
    deeperIndent?_append [] margin.nonempty margin.blank hbegins.stops
  have hlines : skipBlankLines (source.moved margin.toBlanks) = source.moved margin.toBlanks :=
    skipBlankLines_item margin.toBlanks hbegins
  rw [children_eq, hlines, hdeeper]
  simp only [block_eq, hitem, bind, Except.bind, siblings_nil, List.append_nil]
  rfl

end Parser

/-- **Block expansion is nesting.** An element that is read to the end of its source is the only
child of a header, whether it stands behind the header and a colon or, moved by a margin, on the
lines below the header. -/
theorem block_expansion {header : Header α} {text source : Source α} {nodes : List (Node α)}
    (hheader : header.Written text) (htab : .char '\t' ∉ source)
    (helement : Parser.element [] source = .ok (some (nodes, []))) (margin : Gap) :
    parse (text ++ (ofText ": " ++ source)) = .ok ⟨[.element header nodes]⟩ ∧
      parse (text ++ (ofText "\n" ++ source.moved margin.toBlanks)) =
        .ok ⟨[.element header nodes]⟩ := by
  constructor
  · obtain ⟨hbegins, hitem⟩ := Parser.item_of_element (Parser.element_expansion hheader helement)
    exact parse_eq_ok.mpr (Parser.document_item hbegins hitem)
  · have hline : Parser.LineBreak (ofText "\n" ++ source.moved margin.toBlanks)
        (source.moved margin.toBlanks) := .newline _
    have hitem : Parser.item [] (text ++ (ofText "\n" ++ source.moved margin.toBlanks)) =
        .ok (some ([.element header nodes], [])) := by
      rw [Parser.item_header [] hheader (.of_lineBreak hline), Parser.content_lineBreak [] hline,
        Parser.children_moved margin htab helement]
      rfl
    exact parse_eq_ok.mpr (Parser.document_item (Parser.beginsItem_header hheader _) hitem)

/-- A second expansion behind the first one, with a block below the line. -/
theorem block_expansion_nested :
    let header : Header Nat :=
      ⟨.text Parser.defaultTag, [.pair (.text "class") (.text "a")], some (.text "x")⟩
    let nodes : List (Node Nat) := [.element ⟨.text "li", [], none⟩
      [.element ⟨.text "b", [], none⟩ [.element ⟨.text "i", [], none⟩ []]]]
    parse (ofText ".a @x: li: b\n  i") = .ok ⟨[.element header nodes]⟩ ∧
      parse (ofText ".a @x\n    li: b\n      i") = .ok ⟨[.element header nodes]⟩ := by
  intro header nodes
  have htag : ∀ name, IsTagName name →
      Header.Written ⟨.text name, [], none⟩ (ofText name : Source Nat) := by
    intro name hname
    have hbase : Word.Literally IsTagName (.text name : Word Nat) := hname
    simpa [Word.printed] using Header.Written.parts (.base hbase .nil) .none .none
  have hheader : header.Written (ofText ".a @x") := by
    have hshort : Attribute.WrittenShorthands [.pair (.text "class") (.text "a")]
        (ofText ".a" : Source Nat) := .cons rfl (by decide) .nil
    exact .parts (.noBase (by simp) hshort) .none
      (@Word.WrittenRef.name _ ⟨[' '], List.all_eq_true.mp rfl⟩ (.text "x") (by decide))
  have hleaf : Parser.element [] (ofText "i" : Source Nat) =
      .ok (some ([.element ⟨.text "i", [], none⟩ []], [])) := by
    have hread := Parser.element_header [] (htag "i" (by decide)) (.of_lineBreak .endOfInput)
    rw [List.append_nil, Parser.content_lineBreak [] .endOfInput, Parser.children_nil] at hread
    exact hread
  let margin : Gap := ⟨⟨[' ', ' '], List.all_eq_true.mp rfl⟩, by decide⟩
  have hblock : Parser.element [] (ofText "b\n  i" : Source Nat) =
      .ok (some ([.element ⟨.text "b", [], none⟩ [.element ⟨.text "i", [], none⟩ []]], [])) := by
    have hline := Parser.LineBreak.newline ((ofText "i" : Source Nat).moved margin.toBlanks)
    have hread := Parser.element_header [] (htag "b" (by decide)) (.of_lineBreak hline)
    rw [Parser.content_lineBreak [] hline, Parser.children_moved margin (by decide) hleaf] at hread
    exact hread
  have hexpanded := Parser.element_expansion (htag "li" (by decide)) hblock
  exact block_expansion hheader (by decide) hexpanded
    ⟨⟨[' ', ' ', ' ', ' '], List.all_eq_true.mp rfl⟩, by decide⟩

end IndentMarkup
