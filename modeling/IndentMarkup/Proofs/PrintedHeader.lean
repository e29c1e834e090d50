import IndentMarkup.Proofs.BareHeader

/-! Reading printed headers. The printed form of a header is one of its written forms, so it is read
back whatever stands below its line. -/
namespace IndentMarkup

open Source (ofChars ofText)

variable {α : Type}

namespace Parser

variable {source rest : Source α}

/-- The printed form of an entry is one of its written forms. -/
theorem written_printed {entry : Attribute α} (hentry : entry.Printable) (close : Char) :
    entry.Written (.wrapped close) entry.printed := by
  cases entry with
  | pair name value =>
    have hvalue : value.WrittenValue (.wrapped close) value.printedValue := by
      cases value with
      | slot value => exact .slot value
      | text content => exact .quoted (.inl rfl) hentry.2.1 hentry.2.2
    exact @Attribute.Written.pair _ _ name value [] [] _ hentry.1 (by simp) (by simp) hvalue
  | bare name => exact .bare rfl hentry
  | splat value => exact .splat value

/-- Behind its first entry a printed list is a row. -/
theorem written_printedList {entry : Attribute α} {more : List (Attribute α)}
    (hmore : ∀ e ∈ more, e.Printable) (close : Char) :
    ∃ row, Attribute.printedList (entry :: more) = entry.printed ++ row ∧
      Attribute.WrittenRow (.wrapped close) more row := by
  induction more generalizing entry with
  | nil => exact ⟨[], by simp [Attribute.printedList], .nil⟩
  | cons next more ih =>
    obtain ⟨hnext, hmore⟩ := List.forall_mem_cons.mp hmore
    obtain ⟨row, hlist, hrow⟩ := @ih next hmore
    have hspace : ∀ c ∈ [' '], (Layout.wrapped close).isGap c = true := by
      intro c hc
      rw [List.mem_singleton.mp hc]
      rfl
    refine ⟨ofChars [' '] ++ (next.printed ++ row), ?_,
      .cons (by simp) hspace (written_printed hnext close) hrow⟩
    rw [Attribute.printedList, hlist]
    · rfl
    · simp

/-- The entries of a list in round brackets are read back, up to the closing bracket. -/
theorem wrappedAttributes_printedList {entries : List (Attribute α)}
    (hentries : ∀ entry ∈ entries, entry.Printable) (hne : entries ≠ []) :
    wrappedAttributes ')' (Attribute.printedList entries ++ .char ')' :: source) =
      .ok (entries, source) := by
  have hclose : closing? '(' = some ')' := rfl
  cases entries with
  | nil => exact absurd rfl hne
  | cons entry more =>
    obtain ⟨hentry, hmore⟩ := List.forall_mem_cons.mp hentries
    obtain ⟨row, hlist, hrow⟩ := @written_printedList _ entry more hmore ')'
    have hread : wrappedAttributes ')' (row ++ .char ')' :: source) = .ok (more, source) :=
      @wrappedAttributes_written _ source ')' '(' hclose more row [] hrow (by simp)
    have hends : EndsEntry (.wrapped ')') (row ++ .char ')' :: source) :=
      endsEntry_row hrow (@endsEntry_close _ ')' '(' hclose [] (by simp) source)
    rw [hlist, List.append_assoc]
    exact @wrappedAttributes_entry _ _ _ ')' '(' hclose entry more [] _ (by simp)
      (written_printed hentry ')') hends hread

end Parser

theorem Header.Printable.bracketed {header : Header α} (h : header.Printable) :
    Attribute.Bracketed header.attributes header.printedAttributes := by
  cases hentries : header.attributes with
  | nil =>
    have hprinted : header.printedAttributes = [] := by
      simp [Header.printedAttributes, hentries]
    rw [hprinted]
    exact .none
  | cons entry more =>
    have hprinted : header.printedAttributes =
        .char '(' :: (Attribute.printedList (entry :: more) ++ [.char ')']) := by
      simp [Header.printedAttributes, hentries]
    have hread : Parser.wrappedAttributes ')'
        (Attribute.printedList (entry :: more) ++ [.char ')']) = .ok (entry :: more, []) :=
      Parser.wrappedAttributes_printedList (hentries ▸ h.attributes) (List.cons_ne_nil _ _)
    rw [hprinted]
    exact @Attribute.Bracketed.list _ ⟨[], fun _ hc => by contradiction⟩ _ _ _ _ rfl hread

theorem Header.Printable.writtenRef {header : Header α} (h : header.Printable) :
    Word.WrittenRef header.refName header.printedRef := by
  unfold Header.printedRef
  cases hname : header.refName with
  | none => exact .none
  | some name =>
    exact @Word.WrittenRef.name _ ⟨[' '], List.forall_mem_singleton.mpr rfl⟩ name
      (h.refName name hname)

/-- The printed form of a header is one of its written forms. -/
theorem Header.Printable.written {header : Header α} (h : header.Printable) :
    header.Written header.printed := by
  have hnamed : Parser.Naming.Written ⟨some header.base, []⟩ (header.base.printed ++ []) :=
    .base h.base .nil
  rw [List.append_nil] at hnamed
  exact .parts hnamed h.bracketed h.writtenRef

namespace Parser

/-- A printed header makes an element of the block below its line. -/
theorem item_printed_header {header : Header α} (hheader : header.Printable) (indent : Indent)
    {source rest : Source α} (h : LineBreak source rest) :
    item indent (header.printed ++ source) = do
      let (nodes, after) ← children indent rest
      return some ([.element header nodes], after) := by
  rw [item_header indent hheader.written (.of_lineBreak h), content_lineBreak indent h]

end Parser

end IndentMarkup
