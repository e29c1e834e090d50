import IndentMarkup.Dom.Tree
import IndentMarkup.Parser.Header

/-! What html tells of trees. Fragments, empty texts, the seams between texts and what void elements
hold leave no trace in html, and all the rest does: the html of an arena with proper names can be
read back, up to the normal form that forgets exactly those. -/
namespace IndentMarkup

namespace Tree

/-! ## Escapes -/

def escapeTextChar (c : Char) : List Char :=
  match c with
  | '&' => "&amp;".toList
  | '<' => "&lt;".toList
  | '>' => "&gt;".toList
  | _ => [c]

def escapeValueChar (c : Char) : List Char :=
  match c with
  | '&' => "&amp;".toList
  | '"' => "&quot;".toList
  | _ => [c]

/-- The ampersand is replaced first, so no replacement is replaced again. -/
theorem escapeText_eq (text : String) :
    escapeText text = String.ofList (text.toList.flatMap escapeTextChar) := by
  have hchar : ∀ c, ((Text.replaced '&' "&amp;" c).flatMap (Text.replaced '<' "&lt;")).flatMap
      (Text.replaced '>' "&gt;") = escapeTextChar c := by
    intro c
    unfold escapeTextChar
    split
    · rfl
    · rfl
    · rfl
    · rename_i hamp hlt hgt
      rw [Text.replaced_of_ne _ hamp, List.flatMap_singleton, Text.replaced_of_ne _ hlt,
        List.flatMap_singleton, Text.replaced_of_ne _ hgt]
  rw [escapeText, Text.replace.eq_def '&', Text.replace_ofList_flatMap,
    Text.replace_ofList_flatMap]
  simp only [hchar]

theorem escapeValue_eq (value : String) :
    escapeValue value = String.ofList (value.toList.flatMap escapeValueChar) := by
  have hchar : ∀ c, (Text.replaced '&' "&amp;" c).flatMap (Text.replaced '"' "&quot;") =
      escapeValueChar c := by
    intro c
    unfold escapeValueChar
    split
    · rfl
    · rfl
    · rename_i hamp hquote
      rw [Text.replaced_of_ne _ hamp, List.flatMap_singleton, Text.replaced_of_ne _ hquote]
  rw [escapeValue, Text.replace.eq_def '&', Text.replace_ofList_flatMap]
  simp only [hchar]

/-! ## The normal form -/

/-- A text in front of trees in normal form: one with the text that stands first, if one does. -/
def textOnto (content : String) : List Tree → List Tree
  | .text following :: rest => .text (content ++ following) :: rest
  | rest => .text content :: rest

mutual

/-- The normal form of a tree in front of trees in normal form. -/
def onto : Tree → List Tree → List Tree
  | .element tag attributes children, after =>
    .element tag attributes (if isVoid tag then [] else allOnto children []) :: after
  | .text content, after => if content = "" then after else textOnto content after
  | .fragment children, after => allOnto children after

def allOnto : List Tree → List Tree → List Tree
  | [], after => after
  | tree :: rest, after => tree.onto (allOnto rest after)

end

/-- Trees as html tells them: what fragments hold stands in their place, empty texts are dropped,
adjacent texts are one, and void elements hold nothing. -/
def normal (trees : List Tree) : List Tree :=
  allOnto trees []

/-! ## The normal form has the same html -/

theorem escapeText_append (first second : String) :
    escapeText (first ++ second) = escapeText first ++ escapeText second := by
  simp [escapeText_eq]

theorem htmlAll_textOnto (content : String) (after : List Tree) :
    htmlAll (textOnto content after) = escapeText content ++ htmlAll after := by
  match after with
  | [] => rfl
  | .text following :: rest =>
    simp only [textOnto, htmlAll, html, escapeText_append, String.append_assoc]
  | .element _ _ _ :: rest => rfl
  | .fragment _ :: rest => rfl

mutual

theorem htmlAll_onto (tree : Tree) (after : List Tree) :
    htmlAll (tree.onto after) = tree.html ++ htmlAll after := by
  match tree with
  | .element tag attributes children =>
    rw [onto, htmlAll, html, html]
    by_cases hvoid : isVoid tag = true
    · simp only [hvoid, if_true]
    · have hchildren : htmlAll (allOnto children []) = htmlAll children := by
        rw [htmlAll_allOnto]
        exact String.append_empty
      simp only [hvoid, if_false, Bool.false_eq_true, hchildren]
  | .text content =>
    rw [onto]
    by_cases hempty : content = ""
    · rw [if_pos hempty, hempty]
      exact String.empty_append.symm
    · rw [if_neg hempty, htmlAll_textOnto, html]
  | .fragment children =>
    rw [onto, html]
    exact htmlAll_allOnto children after

theorem htmlAll_allOnto (trees after : List Tree) :
    htmlAll (allOnto trees after) = htmlAll trees ++ htmlAll after := by
  match trees with
  | [] => exact String.empty_append.symm
  | tree :: rest =>
    rw [allOnto, htmlAll_onto, htmlAll_allOnto, htmlAll, String.append_assoc]

end

/-- What the normal form forgets leaves no trace in html. -/
theorem htmlAll_normal (trees : List Tree) : htmlAll (normal trees) = htmlAll trees := by
  rw [normal, htmlAll_allOnto]
  exact String.append_empty

/-! ## Pieces of html -/

/-- A piece of html: a character of a text, an opening tag or a closing tag. -/
inductive Piece where
  | char (c : Char)
  | opening (tag : String) (attributes : List (String × String))
  | closing (tag : String)
  deriving DecidableEq, Repr

def Piece.html : Piece → List Char
  | .char c => escapeTextChar c
  | .opening tag attributes =>
    '<' :: tag.toList ++ attributes.flatMap (fun attr => (attributeHtml attr).toList) ++ ['>']
  | .closing tag => '<' :: '/' :: tag.toList ++ ['>']

mutual

/-- The pieces that a tree is written in. -/
def pieces : Tree → List Piece
  | .element tag attributes children =>
    .opening tag attributes ::
      (if isVoid tag then [] else allPieces children ++ [.closing tag])
  | .text content => content.toList.map .char
  | .fragment children => allPieces children

def allPieces : List Tree → List Piece
  | [] => []
  | tree :: rest => tree.pieces ++ allPieces rest

end

mutual

theorem toList_html (tree : Tree) : tree.html.toList = tree.pieces.flatMap Piece.html := by
  match tree with
  | .element tag attributes children =>
    have hattributes : (String.join (attributes.map attributeHtml)).toList =
        attributes.flatMap fun attr => (attributeHtml attr).toList := by
      simp [String.toList_join, List.flatMap_def, Function.comp_def]
    rw [html, pieces, List.flatMap_cons]
    by_cases hvoid : isVoid tag = true
    · simp [hvoid, Piece.html, hattributes]
    · simp [hvoid, Piece.html, hattributes, toList_htmlAll children]
  | .text content =>
    rw [html, pieces, escapeText_eq, List.flatMap_map, String.toList_ofList]
    rfl
  | .fragment children =>
    rw [html, pieces]
    exact toList_htmlAll children

theorem toList_htmlAll (trees : List Tree) :
    (htmlAll trees).toList = (allPieces trees).flatMap Piece.html := by
  match trees with
  | [] => rfl
  | tree :: rest =>
    rw [htmlAll, allPieces, String.toList_append, List.flatMap_append, toList_html tree,
      toList_htmlAll rest]

end

/-! ## Pieces put together -/

/-- A piece in front of levels of trees: the innermost level comes first. From the last piece to the
first, a closing tag begins a level, and the opening tag of an element that has content ends it. -/
def place (piece : Piece) (levels : List (List Tree)) : List (List Tree) :=
  match piece, levels with
  | .char c, level :: outer => textOnto (String.singleton c) level :: outer
  | .closing _, levels => [] :: levels
  | .opening tag attributes, level :: outer =>
    if isVoid tag then (.element tag attributes [] :: level) :: outer
    else
      match outer with
      | [] => []
      | around :: outer => (.element tag attributes level :: around) :: outer
  | _, [] => []

def assemble (pieces : List Piece) : List Tree :=
  (pieces.foldr place [[]]).headD []

theorem textOnto_textOnto (first second : String) (after : List Tree) :
    textOnto first (textOnto second after) = textOnto (first ++ second) after := by
  match after with
  | [] => rfl
  | .text following :: rest => simp only [textOnto, String.append_assoc]
  | .element _ _ _ :: rest => rfl
  | .fragment _ :: rest => rfl

/-- The characters of a text make the text again. -/
theorem place_text (chars : List Char) (level : List Tree) (outer : List (List Tree)) :
    (chars.map Piece.char).foldr place (level :: outer) =
      (if chars = [] then level else textOnto (String.ofList chars) level) :: outer := by
  induction chars with
  | nil => rfl
  | cons c rest ih =>
    rw [List.map_cons, List.foldr_cons, ih, if_neg (List.cons_ne_nil c rest)]
    by_cases hrest : rest = []
    · subst hrest
      rfl
    · rw [if_neg hrest]
      simp only [place, textOnto_textOnto]
      rw [show c :: rest = [c] ++ rest from rfl, String.ofList_append]
      rfl

mutual

theorem place_pieces (tree : Tree) (level : List Tree) (outer : List (List Tree)) :
    tree.pieces.foldr place (level :: outer) = tree.onto level :: outer := by
  match tree with
  | .element tag attributes children =>
    rw [pieces, onto, List.foldr_cons]
    by_cases hvoid : isVoid tag = true
    · simp only [hvoid, if_true, List.foldr_nil, place]
    · simp only [hvoid, if_false, Bool.false_eq_true, List.foldr_append, List.foldr_cons,
        List.foldr_nil, place, place_allPieces children]
  | .text content =>
    rw [pieces, onto, place_text]
    by_cases hempty : content = ""
    · subst hempty
      rfl
    · have hchars : content.toList ≠ [] := by simpa using hempty
      rw [if_neg hempty, if_neg hchars, String.ofList_toList]
  | .fragment children =>
    rw [pieces, onto]
    exact place_allPieces children level outer

theorem place_allPieces (trees : List Tree) (level : List Tree) (outer : List (List Tree)) :
    (allPieces trees).foldr place (level :: outer) = allOnto trees level :: outer := by
  match trees with
  | [] => rfl
  | tree :: rest =>
    rw [allPieces, allOnto, List.foldr_append, place_allPieces rest, place_pieces tree]

end

theorem assemble_allPieces (trees : List Tree) : assemble (allPieces trees) = normal trees := by
  rw [assemble, place_allPieces]
  rfl

/-! ## Reading pieces -/

mutual

/-- The pieces of html, read in a text. -/
def readText : List Char → Option (List Piece)
  | [] => some []
  | '<' :: '/' :: rest => readClosing [] rest
  | '<' :: rest => readOpening [] rest
  | '&' :: 'a' :: 'm' :: 'p' :: ';' :: rest => (readText rest).map (.char '&' :: ·)
  | '&' :: 'l' :: 't' :: ';' :: rest => (readText rest).map (.char '<' :: ·)
  | '&' :: 'g' :: 't' :: ';' :: rest => (readText rest).map (.char '>' :: ·)
  | c :: rest => (readText rest).map (.char c :: ·)
termination_by structural chars => chars

def readClosing (tag : List Char) : List Char → Option (List Piece)
  | [] => none
  | '>' :: rest => (readText rest).map (.closing (String.ofList tag) :: ·)
  | c :: rest => readClosing (tag ++ [c]) rest
termination_by structural chars => chars

def readOpening (tag : List Char) : List Char → Option (List Piece)
  | [] => none
  | '>' :: rest => (readText rest).map (.opening (String.ofList tag) [] :: ·)
  | ' ' :: rest => readName (String.ofList tag) [] [] rest
  | c :: rest => readOpening (tag ++ [c]) rest
termination_by structural chars => chars

def readName (tag : String) (attributes : List (String × String)) (name : List Char) :
    List Char → Option (List Piece)
  | '=' :: '"' :: rest => readValue tag attributes (String.ofList name) [] rest
  | c :: rest => readName tag attributes (name ++ [c]) rest
  | [] => none
termination_by structural chars => chars

def readValue (tag : String) (attributes : List (String × String)) (name : String)
    (value : List Char) : List Char → Option (List Piece)
  | '"' :: rest => readAttributes tag (attributes ++ [(name, String.ofList value)]) rest
  | '&' :: 'a' :: 'm' :: 'p' :: ';' :: rest => readValue tag attributes name (value ++ ['&']) rest
  | '&' :: 'q' :: 'u' :: 'o' :: 't' :: ';' :: rest =>
    readValue tag attributes name (value ++ ['"']) rest
  | c :: rest => readValue tag attributes name (value ++ [c]) rest
  | [] => none
termination_by structural chars => chars

def readAttributes (tag : String) (attributes : List (String × String)) :
    List Char → Option (List Piece)
  | '>' :: rest => (readText rest).map (.opening tag attributes :: ·)
  | ' ' :: rest => readName tag attributes [] rest
  | _ => none
termination_by structural chars => chars

end

theorem readText_char (c : Char) (rest : List Char) :
    readText (escapeTextChar c ++ rest) = (readText rest).map (.char c :: ·) := by
  unfold escapeTextChar
  split
  · rfl
  · rfl
  · rfl
  · rename_i hamp hlt hgt
    rw [List.singleton_append, readText]
    · exact fun _ h _ => hlt h
    · exact hlt
    · exact fun _ h _ => hamp h
    · exact fun _ h _ => hamp h
    · exact fun _ h _ => hamp h

/-- The tag of a closing tag is read up to its end. -/
theorem readClosing_tag (front tag rest : List Char) (hend : '>' ∉ tag) :
    readClosing front (tag ++ '>' :: rest) =
      (readText rest).map (.closing (String.ofList (front ++ tag)) :: ·) := by
  induction tag generalizing front with
  | nil => simp [readClosing]
  | cons c tag ih =>
    rw [List.mem_cons, not_or] at hend
    have hc : c ≠ '>' := Ne.symm hend.1
    rw [List.cons_append, readClosing, ih _ hend.2, List.append_assoc]
    · rfl
    · exact hc

/-- The tag of an opening tag is read up to its end or a space. -/
theorem readOpening_tag (front tag rest : List Char) (hend : '>' ∉ tag) (hspace : ' ' ∉ tag)
    (hrest : rest.head? = some '>' ∨ rest.head? = some ' ') :
    readOpening front (tag ++ rest) = readAttributes (String.ofList (front ++ tag)) [] rest := by
  induction tag generalizing front with
  | nil =>
    obtain ⟨c, rest, rfl⟩ : ∃ c after, rest = c :: after := by
      cases rest with
      | nil => simp at hrest
      | cons c after => exact ⟨c, after, rfl⟩
    rw [List.append_nil]
    rcases hrest with hc | hc
    · rw [List.head?_cons, Option.some_inj] at hc
      subst hc
      rfl
    · rw [List.head?_cons, Option.some_inj] at hc
      subst hc
      rfl
  | cons c tag ih =>
    rw [List.mem_cons, not_or] at hend hspace
    rw [List.cons_append, readOpening, ih _ hend.2 hspace.2, List.append_assoc]
    · rfl
    · exact Ne.symm hend.1
    · exact Ne.symm hspace.1

theorem readName_name (tag : String) (attributes : List (String × String))
    (front name rest : List Char) (hend : '=' ∉ name) :
    readName tag attributes front (name ++ '=' :: '"' :: rest) =
      readValue tag attributes (String.ofList (front ++ name)) [] rest := by
  induction name generalizing front with
  | nil => simp [readName]
  | cons c name ih =>
    rw [List.mem_cons, not_or] at hend
    rw [List.cons_append, readName, ih _ hend.2, List.append_assoc]
    · rfl
    · exact fun _ h _ => hend.1 h.symm

theorem readValue_char (tag : String) (attributes : List (String × String)) (name : String)
    (front rest : List Char) (c : Char) :
    readValue tag attributes name front (escapeValueChar c ++ rest) =
      readValue tag attributes name (front ++ [c]) rest := by
  unfold escapeValueChar
  split
  · rfl
  · rfl
  · rename_i hamp hquote
    rw [List.singleton_append, readValue]
    · exact hquote
    · exact fun _ h _ => hamp h
    · exact fun _ h _ => hamp h

theorem readValue_value (tag : String) (attributes : List (String × String)) (name : String)
    (front value rest : List Char) :
    readValue tag attributes name front (value.flatMap escapeValueChar ++ '"' :: rest) =
      readAttributes tag (attributes ++ [(name, String.ofList (front ++ value))]) rest := by
  induction value generalizing front with
  | nil => simp [readValue]
  | cons c value ih =>
    rw [List.flatMap_cons, List.append_assoc, readValue_char, ih, List.append_assoc]
    rfl

theorem readAttributes_attributes (tag : String) (front attributes : List (String × String))
    (rest : List Char) (hnames : ∀ attr ∈ attributes, '=' ∉ attr.1.toList) :
    readAttributes tag front
        (attributes.flatMap (fun attr => (attributeHtml attr).toList) ++ '>' :: rest) =
      (readText rest).map (.opening tag (front ++ attributes) :: ·) := by
  induction attributes generalizing front with
  | nil =>
    rw [List.append_nil]
    rfl
  | cons attr attributes ih =>
    obtain ⟨name, value⟩ := attr
    have hname : '=' ∉ name.toList := hnames (name, value) List.mem_cons_self
    have hhtml : (attributeHtml (name, value)).toList =
        ' ' :: (name.toList ++ '=' :: '"' :: (value.toList.flatMap escapeValueChar ++ ['"'])) := by
      simp [attributeHtml, escapeValue_eq]
    rw [List.flatMap_cons, hhtml]
    simp only [List.cons_append, List.append_assoc, List.nil_append]
    rw [readAttributes, readName_name _ _ _ _ _ hname, readValue_value, ih]
    · simp
    · exact fun attr hattr => hnames attr (List.mem_cons_of_mem _ hattr)

end Tree

/-! ## Arenas with proper names -/

/-- Elements with proper names: the tag and the names of the attributes could stand in a source. -/
def NodeKind.Proper : NodeKind → Prop
  | .element tag attributes =>
    (tag ≠ "" ∧ tag.toList.all Parser.isTagChar = true) ∧
      ∀ attr ∈ attributes, attr.1 ≠ "" ∧ attr.1.toList.all Parser.isNameChar = true
  | _ => True

instance : DecidablePred NodeKind.Proper
  | .element tag attributes =>
    inferInstanceAs (Decidable ((tag ≠ "" ∧ tag.toList.all Parser.isTagChar = true) ∧
      ∀ attr ∈ attributes, attr.1 ≠ "" ∧ attr.1.toList.all Parser.isNameChar = true))
  | .text _ => isTrue trivial
  | .fragment => isTrue trivial

def Dom.Proper (dom : Dom) : Prop :=
  ∀ node ∈ dom.nodes, node.kind.Proper

instance : DecidablePred Dom.Proper :=
  fun dom => inferInstanceAs (Decidable (∀ node ∈ dom.nodes, node.kind.Proper))

theorem Dom.Proper.kind {dom : Dom} (h : dom.Proper) {id : NodeId} {kind : NodeKind}
    (hkind : dom.kind? id = some kind) : kind.Proper := by
  rw [kind?, Option.map_eq_some_iff] at hkind
  obtain ⟨node, hnode, rfl⟩ := hkind
  unfold node? at hnode
  split at hnode
  · exact h node (Array.mem_of_getElem? hnode)
  · contradiction

namespace Tree

def Piece.Proper : Piece → Prop
  | .char _ => True
  | .opening tag attributes => (NodeKind.element tag attributes).Proper
  | .closing tag => (NodeKind.element tag []).Proper

theorem readText_piece (piece : Piece) (hproper : piece.Proper) (rest : List Char) :
    readText (piece.html ++ rest) = (readText rest).map (piece :: ·) := by
  cases piece with
  | char c => exact readText_char c rest
  | closing tag =>
    obtain ⟨⟨_, hall⟩, _⟩ := hproper
    have hchars := List.all_eq_true.mp hall
    have hend : '>' ∉ tag.toList := fun h => absurd (hchars '>' h) (by decide)
    simp only [Piece.html, List.cons_append, List.append_assoc, List.nil_append]
    rw [readText, readClosing_tag _ _ _ hend, List.nil_append, String.ofList_toList]
  | opening tag attributes =>
    obtain ⟨⟨hne, hall⟩, hnames⟩ := hproper
    have hchars := List.all_eq_true.mp hall
    have hend : '>' ∉ tag.toList := fun h => absurd (hchars '>' h) (by decide)
    have hspace : ' ' ∉ tag.toList := fun h => absurd (hchars ' ' h) (by decide)
    have hequals : ∀ attr ∈ attributes, '=' ∉ attr.1.toList := by
      intro attr hattr h
      exact absurd (List.all_eq_true.mp (hnames attr hattr).2 '=' h) (by decide)
    simp only [Piece.html, List.cons_append, List.append_assoc, List.nil_append]
    rw [readText, readOpening_tag _ _ _ hend hspace, List.nil_append, String.ofList_toList,
      readAttributes_attributes _ _ _ _ hequals, List.nil_append]
    · cases attributes with
      | nil => exact .inl rfl
      | cons attr attributes => exact .inr (by simp [attributeHtml])
    · -- The tag does not begin with the slash of a closing tag.
      intro after hslash
      cases hfirst : tag.toList with
      | nil => exact hne (by simpa using hfirst)
      | cons c chars =>
        rw [hfirst, List.cons_append] at hslash
        have hc : c = '/' := (List.cons.inj hslash).1
        have hslashChar := hchars '/' (by rw [hfirst, hc]; exact List.mem_cons_self)
        exact absurd hslashChar (by decide)

theorem readText_pieces (pieces : List Piece) (hproper : ∀ piece ∈ pieces, piece.Proper) :
    readText (pieces.flatMap Piece.html) = some pieces := by
  induction pieces with
  | nil => rfl
  | cons piece rest ih =>
    rw [List.flatMap_cons, readText_piece piece (hproper piece List.mem_cons_self),
      ih fun other hother => hproper other (List.mem_cons_of_mem _ hother)]
    rfl

theorem mem_allPieces {piece : Piece} {trees : List Tree} (h : piece ∈ allPieces trees) :
    ∃ tree ∈ trees, piece ∈ tree.pieces := by
  induction trees with
  | nil => simp [allPieces] at h
  | cons tree rest ih =>
    rw [allPieces, List.mem_append] at h
    rcases h with h | h
    · exact ⟨tree, List.mem_cons_self, h⟩
    · obtain ⟨other, hother, hpiece⟩ := ih h
      exact ⟨other, List.mem_cons_of_mem _ hother, hpiece⟩

/-- Proper names of an element and of what is in it are proper names of its pieces. -/
theorem proper_pieces_element {tag : String} {attributes : List (String × String)}
    {children : List Tree} (h : (NodeKind.element tag attributes).Proper)
    (hchildren : ∀ tree ∈ children, ∀ piece ∈ tree.pieces, piece.Proper) :
    ∀ piece ∈ (Tree.element tag attributes children).pieces, piece.Proper := by
  intro piece hpiece
  rw [pieces, List.mem_cons] at hpiece
  rcases hpiece with rfl | hpiece
  · exact h
  · split at hpiece
    · contradiction
    · rw [List.mem_append, List.mem_singleton] at hpiece
      rcases hpiece with hpiece | rfl
      · obtain ⟨tree, htree, hin⟩ := mem_allPieces hpiece
        exact hchildren tree htree piece hin
      · refine ⟨h.1, ?_⟩
        intro attr hattr
        contradiction

/-- The trees that html was written from, in normal form. -/
def read? (html : String) : Option (List Tree) :=
  (readText html.toList).map assemble

theorem read?_htmlAll {trees : List Tree}
    (hproper : ∀ tree ∈ trees, ∀ piece ∈ tree.pieces, piece.Proper) :
    read? (htmlAll trees) = some (normal trees) := by
  have hpieces : ∀ piece ∈ allPieces trees, piece.Proper := by
    intro piece hpiece
    obtain ⟨tree, htree, hin⟩ := mem_allPieces hpiece
    exact hproper tree htree piece hin
  rw [read?, toList_htmlAll, readText_pieces _ hpieces, Option.map_some, assemble_allPieces]

end Tree

namespace Dom

theorem Proper.pieces {dom : Dom} (h : dom.Proper) (depth : Nat) (id : NodeId) :
    ∀ piece ∈ (dom.treeWithin depth id).pieces, piece.Proper := by
  induction depth generalizing id with
  | zero =>
    unfold treeWithin
    split
    · rename_i hkind
      exact Tree.proper_pieces_element (h.kind hkind) (by simp)
    · simp [Tree.pieces, Tree.Piece.Proper]
    · simp [Tree.pieces, Tree.allPieces]
  | succ depth ih =>
    have hchildren : ∀ tree ∈ (dom.children id).map (dom.treeWithin depth),
        ∀ piece ∈ tree.pieces, piece.Proper := by
      intro tree htree
      obtain ⟨child, _, rfl⟩ := List.mem_map.mp htree
      exact ih child
    unfold treeWithin
    split
    · rename_i hkind
      exact Tree.proper_pieces_element (h.kind hkind) hchildren
    · simp [Tree.pieces, Tree.Piece.Proper]
    · intro piece hpiece
      rw [Tree.pieces] at hpiece
      obtain ⟨tree, htree, hin⟩ := Tree.mem_allPieces hpiece
      exact hchildren tree htree piece hin

/-- **Html determines the trees.** The html of nodes of an arena with proper names is read back as
their trees in normal form, whatever the texts and values are. So two lists of nodes have the same
html exactly where their trees have the same normal form. In a forest, `tree_eq`, these trees are
all that is below the nodes. -/
theorem read_html {dom dom' : Dom} (h : dom.Proper) (h' : dom'.Proper)
    (nodes nodes' : List NodeId) :
    Tree.read? (dom.html nodes) = some (Tree.normal (nodes.map dom.tree)) ∧
      (dom.html nodes = dom'.html nodes' ↔
        Tree.normal (nodes.map dom.tree) = Tree.normal (nodes'.map dom'.tree)) := by
  have hread : ∀ {dom : Dom}, dom.Proper → ∀ nodes : List NodeId,
      Tree.read? (dom.html nodes) = some (Tree.normal (nodes.map dom.tree)) := by
    intro dom h nodes
    apply Tree.read?_htmlAll
    intro tree htree
    obtain ⟨id, _, rfl⟩ := List.mem_map.mp htree
    exact h.pieces dom.size id
  refine ⟨hread h nodes, ?_, ?_⟩
  · intro hhtml
    have hnormal := hread h nodes
    rw [hhtml, hread h' nodes', Option.some_inj] at hnormal
    exact hnormal.symm
  · intro hnormal
    rw [html, html, ← Tree.htmlAll_normal, hnormal, Tree.htmlAll_normal]

/-- A text that looks like a tag against a tag, and a value that looks like the end of its tag. -/
theorem read_html_forged :
    let forged : Dom := ⟨0, #[⟨.element "p" [("title", "\"><br>")], none, [⟨0, 1⟩, ⟨0, 2⟩], []⟩,
      ⟨.text "<b", some ⟨0, 0⟩, [], []⟩, ⟨.text "r>", some ⟨0, 0⟩, [], []⟩]⟩
    let plain : Dom := ⟨1, #[⟨.element "p" [("title", "")], none, [⟨1, 1⟩], []⟩,
      ⟨.element "br" [], some ⟨1, 0⟩, [], []⟩]⟩
    forged.Proper ∧ plain.Proper ∧
      Tree.read? (forged.html [⟨0, 0⟩]) = some (Tree.normal ([⟨0, 0⟩].map forged.tree)) ∧
      (forged.html [⟨0, 0⟩] = plain.html [⟨1, 0⟩] ↔
        Tree.normal ([⟨0, 0⟩].map forged.tree) = Tree.normal ([⟨1, 0⟩].map plain.tree)) := by
  intro forged plain
  have hforged : forged.Proper := by decide
  have hplain : plain.Proper := by decide
  exact ⟨hforged, hplain, read_html hforged hplain [⟨0, 0⟩] [⟨1, 0⟩]⟩

end Dom

end IndentMarkup
