import Downlevel.Proofs.LineEnds
import Downlevel.Proofs.Walking

/-!
# Arrays and records side by side

An array decides about a line break when it comes to the next element, by looking back; a record
decides before that, by looking ahead. What they write around their members is the same all the
same. Here that is said with a literal whose values are left open: its entries, one for each member,
say what separates the member from what stands before it, which comment it is unless it is a value,
and whether a comma follows.

Main statement: an array and a record with members in the same places are the same entries, filled
in with the elements of the one and with the pairs of the other (`State.emit_literals_alike`).
-/

namespace Downlevel

namespace Literal

/-! ## Literals without values -/

/-- What layout knows about a member: a comment, or a value somewhere. -/
inductive Outline where
  | value (range : Range)
  | comment (comment : Comment)
  deriving DecidableEq

namespace Outline

/-- Where the member stands. -/
def range : Outline → Range
  | value range => range
  | comment c => c.range

/-- The comment, if it is one. -/
def comment? : Outline → Option Comment
  | value _ => none
  | comment c => some c

/-- The member is a comment. -/
def isComment (o : Outline) : Bool := o.comment?.isSome

/-- The item for the member, with the given pieces for a value. -/
def item (pieces : List Piece) : Outline → Item
  | value range => ⟨range, .code, pieces⟩
  | comment c => ⟨c.range, .comment, c.pieces⟩

@[simp] theorem range_item (o : Outline) (pieces : List Piece) :
    (o.item pieces).range = o.range := by
  cases o <;> rfl

@[simp] theorem isComment_item (o : Outline) (pieces : List Piece) :
    (o.item pieces).isComment = o.isComment := by
  cases o <;> rfl

end Outline

/-- What separates a member from what stands before it. -/
inductive Separator where
  /-- A space, behind which a comment stays on the line. -/
  | space
  /-- A line break and the indentation of the next line. -/
  | newLine
  deriving DecidableEq

/-- What is written around a member, and the member if it is a comment. -/
structure Entry where
  separator : Separator
  comment? : Option Comment
  comma : Bool
  deriving DecidableEq

/-- The entries of members behind `previous`. -/
def entries (previous : Range) : List Outline → List Entry
  | [] => []
  | o :: rest =>
    ⟨if o.isComment && previous.touches o.range then .space else .newLine, o.comment?,
      !o.isComment && rest.any (!·.isComment)⟩ :: entries o.range rest

/-! ## Literals filled in -/

/-- The fragments of a separator. -/
def Separator.fragments (s : State) : Separator → List Fragment
  | space => [.plain " "]
  | newLine => [.plain s.options.newLine.text,
      .plain (Piece.indentation s.options.indentUnit s.depth)]

/-- The fragments of an entry, with the given ones for a value. -/
def Entry.fragments (s : State) (entry : Entry) (value : List Fragment) : List Fragment :=
  entry.separator.fragments s ++
    (match entry.comment? with
      | none => value
      | some c => s.render c.pieces) ++
    if entry.comma then [.plain ","] else []

/-- The fragments of entries, with the given ones for the values. -/
def entryFragments (s : State) (entries : List Entry) (values : List (List Fragment)) :
    List Fragment :=
  (List.zipWith (Entry.fragments s) entries values).flatten

/-- The fragments of a literal, with the given ones for its values. -/
def fragments (s : State) (opening : Token) (entries : List Entry)
    (values : List (List Fragment)) (closing : Token) : List Fragment :=
  .mapped opening.start s.source opening.text ::
    entryFragments { s with depth := s.depth + 1 } entries values ++
    (if entries.isEmpty then [] else Separator.newLine.fragments s) ++
    [.mapped closing.start s.source closing.text]

/-! ## Layout fills in -/

section Filling

variable (s : State) {α : Type} (outline : α → Outline) (pieces : α → List Piece)

theorem render_separator (joins : Bool) :
    s.render (if joins then [.text " "] else Piece.newLine) =
      (if joins then Separator.space else .newLine).fragments s := by
  cases joins with
  | true => rfl
  | false => simp [State.render, Piece.renderAll, Piece.newLine, Piece.shift, Piece.render,
      Separator.fragments]

theorem joins_item (previous : Range) (o : Outline) (written : List Piece) :
    Layout.joins previous (o.item written) = (o.isComment && previous.touches o.range) := by
  rw [Layout.joins, Outline.isComment_item, Outline.range_item]

theorem render_comma (o : Outline) (written : List Piece) (rest : List α) :
    s.render (Layout.comma (o.item written) (rest.map fun a => (outline a).item (pieces a))) =
      if !o.isComment && (rest.map outline).any (!·.isComment) then [.plain ","] else [] := by
  have hany : (rest.map fun a => (outline a).item (pieces a)).any (!·.isComment) =
      (rest.map outline).any (!·.isComment) := by
    simp [Function.comp_def]
  rw [Layout.comma, Outline.isComment_item, hany]
  split <;> rfl

/-- The elements of an array are entries, filled in. -/
theorem render_arrayItems (previous : Range) (list : List α) :
    s.render (Layout.arrayItems previous (list.map fun a => (outline a).item (pieces a))) =
      entryFragments s (entries previous (list.map outline))
        (list.map fun a => s.render (pieces a)) := by
  induction list generalizing previous with
  | nil => rfl
  | cons a rest ih =>
    have hvalue : s.render ((outline a).item (pieces a)).pieces =
        match (outline a).comment? with
        | none => s.render (pieces a)
        | some c => s.render c.pieces := by
      cases outline a <;> rfl
    rw [List.map_cons, List.map_cons, List.map_cons, Layout.arrayItems, entries, entryFragments,
      List.zipWith_cons_cons, List.flatten_cons, joins_item, Outline.range_item]
    rw [State.render_append, State.render_append, State.render_append, render_separator,
      render_comma, hvalue, ih]
    rfl

theorem render_token_cons (t : Token) (written : List Piece) :
    s.render (t.piece :: written) = .mapped t.start s.source t.text :: s.render written := rfl

/-- An array is its entries, filled in. -/
theorem render_array (opening closing : Token) (list : List α) :
    s.render (Layout.array opening (list.map fun a => (outline a).item (pieces a)) closing) =
      fragments s opening (entries opening.range (list.map outline))
        (list.map fun a => { s with depth := s.depth + 1 }.render (pieces a)) closing := by
  have hend : s.render (if (list.map fun a => (outline a).item (pieces a)).isEmpty then []
        else Piece.newLine) =
      if (entries opening.range (list.map outline)).isEmpty then []
        else Separator.newLine.fragments s := by
    cases list with
    | nil => rfl
    | cons => exact render_separator s false
  rw [Layout.array, State.render_append, State.render_append, render_token_cons,
    State.render_nested, render_arrayItems, hend]
  rfl

end Filling

end Literal

/-! ## Arrays and records -/

/-- The element as layout knows it. -/
def Expression.outline : Expression → Literal.Outline
  | .comment c => .comment c
  | e => .value e.range

namespace Member

/-- The member as layout knows it. -/
def outline : Member → Literal.Outline
  | .comment c => .comment c
  | .pair key colon value => .value (Member.pair key colon value).range

/-- The pieces of the member. -/
def pieces (scope : Scope) : Member → List Piece
  | .pair key colon value => [key.piece, colon.piece, .text " "] ++ value.emit scope
  | .comment c => c.pieces

/-- The fragments of the member. -/
def fragments (s : State) : Member → List Fragment
  | .pair key colon value =>
    [.mapped key.start s.source key.text, .mapped colon.start s.source colon.text, .plain " "] ++
      (s.emit (.expression value)).1
  | .comment c => (s.emit (.statement (.comment c))).1

theorem render_pieces (s : State) (m : Member) : s.render (m.pieces s.scope) = m.fragments s := by
  cases m with
  | pair key colon value =>
    rw [pieces, State.render_append]
    rfl
  | comment c => rfl

end Member

theorem elementItems_eq_map_outline (scope : Scope) (elements : List Expression) :
    elementItems scope elements = elements.map fun e => e.outline.item (e.emit scope) := by
  have hitem (e : Expression) : (⟨e.range, if e.isComment then .comment else .code, e.emit scope⟩ :
      Item) = e.outline.item (e.emit scope) := by
    cases e <;> rfl
  simp only [elementItems_eq_map, hitem]

theorem memberItems_eq_map_outline (scope : Scope) (members : List Member) :
    memberItems scope members = members.map fun m => m.outline.item (m.pieces scope) := by
  induction members with
  | nil => rfl
  | cons m rest ih => cases m <;> rw [memberItems, ih] <;> rfl

namespace Literal

/-- An entry filled in with its member: the separator, the member, and a comma or nothing. -/
theorem fragments_entry (s : State) (separator : Separator) (m : Member) (comma : Bool) :
    Entry.fragments s ⟨separator, m.outline.comment?, comma⟩ (m.fragments s) =
      separator.fragments s ++ m.fragments s ++ if comma then [.plain ","] else [] := by
  cases m <;> rfl

theorem entryFragments_cons (s : State) (entry : Entry) (value : List Fragment)
    (entries : List Entry) (values : List (List Fragment)) :
    entryFragments s (entry :: entries) (value :: values) =
      entry.fragments s value ++ entryFragments s entries values := rfl

/-- Among the fragments, a single separator stands between the two members, and before it at most a
comma. -/
def Separates (s : State) (first second : Member) (written : List Fragment) : Prop :=
  ∃ front back separator, ∃ comma ∈ [[], [Fragment.plain ","]],
    written = front ++ first.fragments s ++ comma ++ Separator.fragments s separator ++
      second.fragments s ++ back

theorem Separates.surround {s : State} {first second : Member} {written : List Fragment}
    (h : Separates s first second written) (before after : List Fragment) :
    Separates s first second (before ++ written ++ after) := by
  obtain ⟨front, back, separator, comma, hcomma, rfl⟩ := h
  refine ⟨before ++ front, back ++ after, separator, comma, hcomma, ?_⟩
  simp only [List.append_assoc]

/-- Two entries in a row separate their members. -/
theorem separates_pair (s : State) (separator between : Separator) (first second : Member)
    (comma last : Bool) (back : List Fragment) : Separates s first second
      (Entry.fragments s ⟨separator, first.outline.comment?, comma⟩ (first.fragments s) ++
        (Entry.fragments s ⟨between, second.outline.comment?, last⟩ (second.fragments s) ++
          back)) := by
  refine ⟨separator.fragments s, (if last then [.plain ","] else []) ++ back, between,
    if comma then [.plain ","] else [], by cases comma <;> simp, ?_⟩
  rw [fragments_entry, fragments_entry]
  simp only [List.append_assoc]

/-- Members that follow each other are separated. -/
theorem separates_entryFragments (s : State) (previous : Range) (before after : List Member)
    (first second : Member) : Separates s first second
      (entryFragments s
        (entries previous ((before ++ first :: second :: after).map Member.outline))
        ((before ++ first :: second :: after).map (Member.fragments s))) := by
  induction before generalizing previous with
  | nil => exact separates_pair s _ _ first second _ _ _
  | cons m before ih =>
    rw [List.cons_append, List.map_cons, List.map_cons, entries, entryFragments_cons]
    have hmore := (ih m.outline.range).surround
    rw [← List.append_nil (_ ++ entryFragments _ _ _)]
    exact hmore _ []

end Literal

/-- An array and a record with members in the same places, the same comments and values with the
same ranges, are the same entries between the same brackets, filled in with the fragments of the
elements and with those of the pairs. So there is one separator between any two members of a
record that follow each other. -/
theorem State.emit_literals_alike (s : State) (opening closing : Token) (members : List Member)
    (elements : List Expression)
    (h : members.map Member.outline = elements.map Expression.outline) :
    let inside := { s with depth := s.depth + 1 }
    let entries := Literal.entries opening.range (members.map Member.outline)
    (s.emit (.expression (.array opening elements closing))).1 =
      Literal.fragments s opening entries
        (elements.map fun e => (inside.emit (.expression e)).1) closing ∧
    (s.emit (.expression (.record opening members closing))).1 =
      Literal.fragments s opening entries (members.map (Member.fragments inside)) closing ∧
    ∀ before first second after, members = before ++ first :: second :: after →
      Literal.Separates inside first second
        (s.emit (.expression (.record opening members closing))).1 := by
  intro inside entries
  have harray : (s.emit (.expression (.array opening elements closing))).1 =
      Literal.fragments s opening entries
        (elements.map fun e => (inside.emit (.expression e)).1) closing := by
    show s.render ((Expression.array opening elements closing).emit s.scope) = _
    rw [Expression.emit, elementItems_eq_map_outline, Literal.render_array, ← h]
    rfl
  have hrecord : (s.emit (.expression (.record opening members closing))).1 =
      Literal.fragments s opening entries (members.map (Member.fragments inside)) closing := by
    show s.render ((Expression.record opening members closing).emit s.scope) = _
    rw [Expression.emit, Layout.record_eq_array, memberItems_eq_map_outline, Literal.render_array]
    congr 2
    funext m
    exact m.render_pieces inside
  refine ⟨harray, hrecord, ?_⟩
  rintro before first second after rfl
  rw [hrecord, Literal.fragments, List.append_assoc]
  exact (Literal.separates_entryFragments inside opening.range before after first second).surround
    [_] _

/-- A comment stays on the line of the opening bracket, and another one on the line of the first
value, behind its comma. -/
theorem State.emit_literals_alike_comments :
    let token (text : String) (line column : Nat) : Token :=
      .ofStart .integerLiteral text ⟨line, column⟩
    let opening := token "[" 0 0
    let closing := token "]" 3 0
    let head : Comment := ⟨token "' head" 0 2, [], .element⟩
    let first : Comment := ⟨token "' first" 1 9, [], .element⟩
    let one : Member := .pair (token "a" 1 4) (token ":" 1 5) (.literal (token "1" 1 7))
    let two : Member := .pair (token "b" 2 4) (token ":" 2 5) (.literal (token "2" 2 7))
    let members : List Member := [.comment head, one, .comment first, two]
    let elements : List Expression := [.comment head, .literal (token "1000" 1 4), .comment first,
      .literal (token "2000" 2 4)]
    let s : State := ⟨{}, .none, "f", 0, [], {}⟩
    let inside := { s with depth := s.depth + 1 }
    let entries : List Literal.Entry := [⟨.space, some head, false⟩, ⟨.newLine, none, true⟩,
      ⟨.space, some first, false⟩, ⟨.newLine, none, false⟩]
    members.map Member.outline = elements.map Expression.outline ∧
    Literal.entries opening.range (members.map Member.outline) = entries ∧
    (s.emit (.expression (.array opening elements closing))).1 =
      Literal.fragments s opening entries
        (elements.map fun e => (inside.emit (.expression e)).1) closing ∧
    (s.emit (.expression (.record opening members closing))).1 =
      Literal.fragments s opening entries (members.map (Member.fragments inside)) closing ∧
    ((s.emit (.expression (.record opening members closing))).1).map Fragment.text =
      ["[", " ", "' head", "\n", "    ", "a", ":", " ", "1", ",", " ", "' first", "\n", "    ",
        "b", ":", " ", "2", "\n", "", "]"] ∧
    Literal.Separates inside one (.comment first)
      (s.emit (.expression (.record opening members closing))).1 := by
  intro token opening closing head first one two members elements s inside entries
  have halike : members.map Member.outline = elements.map Expression.outline := by decide
  have hentries : Literal.entries opening.range (members.map Member.outline) = entries := by decide
  obtain ⟨harray, hrecord, hseparated⟩ :=
    State.emit_literals_alike s opening closing members elements halike
  rw [hentries] at harray hrecord
  exact ⟨halike, hentries, harray, hrecord, by rw [hrecord]; decide,
    hseparated [.comment head] one (.comment first) [two] rfl⟩

end Downlevel
