import IndentMarkup.Proofs.Composition

/-! A line break at the end of a source. It makes no error, and the document is the same unless
the source ends with an apostrophe that has nothing behind it: the space that the apostrophe stands
for is kept at the end of the input, and lost in front of a line break. The log of the parser tells
the two apart. -/
namespace IndentMarkup

variable {α : Type}

/-- **The document behind a final line break.** It has a text less for every apostrophe at the end
of the input, and is the same where there is none. -/
theorem parse_append_newline {source : Source α} {document : Document α}
    (h : parse source = .ok document) :
    ∃ after, parse (source ++ [.char '\n']) = .ok after ∧
      after.texts + (Parser.Traced.document source).events.countP Parser.Event.isBare =
        document.texts ∧
      (after = document ↔
        ∀ event ∈ (Parser.Traced.document source).events, event.isBare = false) := by
  rw [parse_eq_ok] at h
  have hblank : Parser.skipBlankLines ([.char '\n'] : Source α) = [] := by
    rw [Parser.skipBlankLines_newline, Parser.skipBlankLines_nil]
  have hempty : Parser.document ([.char '\n'] : Source α) = .ok ⟨[]⟩ := by
    rw [← Parser.document_skipBlankLines, hblank, Parser.document_nil]
  obtain ⟨nodes, hshorn, hboth⟩ := Parser.document_append_shorn (.inr ⟨[], rfl⟩)
    (fun _ hne => absurd hblank hne) h hempty
  rw [List.append_nil] at hboth
  have htexts : Document.texts ⟨nodes⟩ + _ = document.texts := hshorn.texts
  refine ⟨⟨nodes⟩, parse_eq_ok.mpr hboth, htexts, fun hsame => ?_, fun hnone => ?_⟩
  · rw [hsame, Nat.add_eq_left, List.countP_eq_zero] at htexts
    exact fun event hevent => Bool.eq_false_iff.mpr (htexts event hevent)
  · have hcount := List.countP_eq_zero.mpr fun event hevent =>
      Bool.eq_false_iff.mp (hnone event hevent)
    exact congrArg Document.mk (hshorn.same hcount)

/-- A condition above an element; the last line is an apostrophe with a text behind it. -/
def Source.unended : Source Nat :=
  interleave ["- if ", "\n  p < a\n    ' it's"] [0]

theorem parse_append_newline_unended :
    ∃ document, parse Source.unended = .ok document ∧
      parse (Source.unended ++ [.char '\n']) = .ok document := by
  have hcounts : ((parse Source.unended).toOption.map (·.children.length),
      (Parser.Traced.document Source.unended).events.all fun event => !event.isBare) =
        (some 1, true) := by
    decide +kernel
  obtain ⟨hlength, hnone⟩ := Prod.mk.inj hcounts
  cases hparse : parse Source.unended with
  | error error =>
    rw [hparse] at hlength
    contradiction
  | ok document =>
    obtain ⟨after, hafter, -, hsame⟩ := parse_append_newline hparse
    have hbare : ∀ event ∈ (Parser.Traced.document Source.unended).events,
        event.isBare = false := by
      simpa [List.all_eq_true] using hnone
    exact ⟨document, rfl, hsame.mpr hbare ▸ hafter⟩

/-- A final line break matters: a lone apostrophe is a text, and none in front of a line break. -/
theorem parse_newline_differs :
    ¬ ∀ (source : Source Nat) (document : Document Nat), parse source = .ok document →
      parse (source ++ [.char '\n']) = .ok document := by
  intro hsame
  have hcounts : ((parse (Source.ofText "'" : Source Nat)).toOption.map (·.children.length),
      (parse (Source.ofText "'" ++ [.char '\n'] : Source Nat)).toOption.map
        (·.children.length)) = (some 1, some 0) := by
    decide +kernel
  obtain ⟨hbefore, hafter⟩ := Prod.mk.inj hcounts
  cases hparse : parse (Source.ofText "'" : Source Nat) with
  | error error =>
    rw [hparse] at hbefore
    contradiction
  | ok document =>
    rw [hparse] at hbefore
    rw [hsame _ _ hparse] at hafter
    exact absurd (hbefore.symm.trans hafter) (by decide)

end IndentMarkup
