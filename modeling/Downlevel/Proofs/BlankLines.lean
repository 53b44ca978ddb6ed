import Downlevel.Proofs.LineEnds
import Downlevel.Text.Blank

/-!
# Blank lines before declarations

A declaration in a body has a blank line before it, and if comments stand before it, the blank line
is before the last of them. But a comment that stays on the line of what precedes it takes the place
of the blank line: there is none before that comment, since it starts no line, and none behind it,
since a declaration looks only at whether a comment is before it.

Main statement: that is the only case in which a declaration is not set off from the code before it
(`State.emit_sets_off`).
-/

namespace Downlevel

open Piece (newLine)

/-! ## Blank lines in a text -/

namespace Text

/-- Between two line feeds of the text there are only blanks. -/
def HasBlankLine (text : List Char) : Prop :=
  ∃ before blanks after, text = before ++ '\n' :: (blanks ++ '\n' :: after) ∧
    ∀ c ∈ blanks, isBlank c = true

/-- Whether the line is blank so far, behind one more character. A line whose start has not been
read is taken for one that is not blank. There is no answer where a blank line ends. -/
def followBlank (blank : Bool) (c : Char) : Option Bool :=
  if c = '\n' then (if blank then none else some true) else some (blank && isBlank c)

def blankBehind? (blank : Bool) (text : List Char) : Option Bool := text.foldlM followBlank blank

variable {text more : List Char} {blank : Bool}

theorem blankBehind?_append : blankBehind? blank (text ++ more) =
    (blankBehind? blank text).bind (blankBehind? · more) :=
  List.foldlM_append

theorem blankBehind?_cons (c : Char) : blankBehind? blank (c :: text) =
    (followBlank blank c).bind (blankBehind? · text) := rfl

/-- Within a line, only what is not blank matters. -/
theorem blankBehind?_of_not_mem (h : '\n' ∉ text) :
    blankBehind? blank text = some (blank && text.all isBlank) := by
  induction text generalizing blank with
  | nil => exact congrArg some (Bool.and_true blank).symm
  | cons c text ih =>
    obtain ⟨hc, htext⟩ := not_or.mp (List.mem_cons.not.mp h)
    rw [blankBehind?_cons, followBlank, if_neg (Ne.symm hc), Option.bind_some, ih htext,
      List.all_cons, Bool.and_assoc]

/-- A line that is blank so far stays blank, or has ended. -/
theorem blankBehind?_blanks (h : ∀ c ∈ text, isBlank c = true) :
    blankBehind? true text = none ∨ blankBehind? true text = some true := by
  by_cases hmem : '\n' ∈ text
  · obtain ⟨before, after, rfl, hbefore⟩ := List.eq_append_cons_of_mem hmem
    left
    have hall : before.all isBlank = true :=
      List.all_eq_true.mpr fun c hc => h c (List.mem_append_left _ hc)
    rw [blankBehind?_append, blankBehind?_of_not_mem hbefore, hall]
    rfl
  · right
    rw [blankBehind?_of_not_mem hmem, List.all_eq_true.mpr h]
    rfl

theorem not_hasBlankLine {last : Bool} (h : blankBehind? false text = some last) :
    ¬ HasBlankLine text := by
  rintro ⟨before, blanks, after, rfl, hblanks⟩
  rw [blankBehind?_append] at h
  obtain ⟨blank, -, h⟩ := Option.bind_eq_some_iff.mp h
  rw [blankBehind?_cons] at h
  obtain ⟨started, hstarted, h⟩ := Option.bind_eq_some_iff.mp h
  have htrue : started = true := by
    cases blank with
    | false => exact (Option.some.inj hstarted).symm
    | true => cases hstarted
  subst htrue
  rw [blankBehind?_append] at h
  -- the second line feed ends a blank line
  rcases blankBehind?_blanks hblanks with hnone | hsome
  · rw [hnone] at h
    cases h
  · rw [hsome] at h
    cases h

theorem HasBlankLine.append (h : HasBlankLine text) (before after : List Char) :
    HasBlankLine (before ++ text ++ after) := by
  obtain ⟨first, blanks, last, rfl, hblanks⟩ := h
  exact ⟨before ++ first, blanks, last ++ after, by simp, hblanks⟩

end Text

theorem NewLine.hasBlankLine (n : NewLine) :
    Text.HasBlankLine (n.text.toList ++ n.text.toList) := by
  cases n with
  | lf => exact ⟨[], [], [], rfl, List.forall_mem_nil _⟩
  | crlf => exact ⟨['\r'], ['\r'], [], rfl, List.forall_mem_singleton.mpr rfl⟩

theorem NewLine.blankBehind? (n : NewLine) :
    Text.blankBehind? false n.text.toList = some true := by
  cases n <;> rfl

/-! ## From code to a declaration -/

/-- A comment as an item of a sequence. -/
def Comment.item (c : Comment) : Item := ⟨c.range, .comment, c.pieces⟩

/-- A statement as an item of a sequence. -/
def Statement.item (scope : Scope) (s : Statement) : Item := ⟨s.range, s.role, s.emit scope⟩

namespace Layout

/-- What is written between an item and a declaration, if only comments are between them. -/
def gap (previous declaration : Item) : List Comment → List Piece
  | [] => separator previous declaration none
  | c :: rest =>
    separator previous c.item (rest.map Comment.item ++ [declaration]).head? ++ c.pieces ++
      gap c.item declaration rest

/-- The last of the comments stays on the line of what is before it. -/
def lastJoins (previous : Range) : List Comment → Bool
  | [] => false
  | [c] => previous.stop.line == c.range.start.line
  | c :: next :: rest => lastJoins c.range (next :: rest)

variable {previous p declaration : Item}

/-- Only comments look ahead. -/
theorem separator_of_code (h : p.isComment = false) (next? : Option Item) :
    separator previous p next? = separator previous p none := by
  simp [separator, h]

theorem bodyItems_append (items more : List Item) (h : p.isComment = false) :
    bodyItems previous (items ++ p :: more) =
      bodyItems previous (items ++ [p]) ++ bodyItems p more := by
  induction items generalizing previous with
  | nil =>
    simp only [List.nil_append, bodyItems, separator_of_code h more.head?,
      separator_of_code h ([] : List Item).head?, List.append_nil]
  | cons item items ih =>
    have hhead : (items ++ p :: more).head? = (items ++ [p]).head? := by cases items <;> rfl
    rw [List.cons_append, List.cons_append, bodyItems, bodyItems, ih, hhead]
    simp only [List.append_assoc]

theorem body_append (items more : List Item) (h : p.isComment = false) :
    body (items ++ p :: more) = body (items ++ [p]) ++ bodyItems p more := by
  cases items with
  | nil => simp [body, bodyItems]
  | cons item items => simp [body, bodyItems_append items more h]

theorem bodyItems_gap (h : declaration.isComment = false) (comments : List Comment)
    (more : List Item) :
    bodyItems previous (comments.map Comment.item ++ declaration :: more) =
      gap previous declaration comments ++ declaration.pieces ++ bodyItems declaration more := by
  induction comments generalizing previous with
  | nil => rw [List.map_nil, List.nil_append, bodyItems, gap, separator_of_code h]
  | cons c comments ih =>
    have hhead : (comments.map Comment.item ++ declaration :: more).head? =
        (comments.map Comment.item ++ [declaration]).head? := by cases comments <;> rfl
    rw [List.map_cons, List.cons_append, bodyItems, ih, hhead, gap]
    simp only [List.append_assoc]
    rfl

theorem separator_same_line {c : Comment} (h : previous.range.stop.line = c.range.start.line)
    (next? : Option Item) : separator previous c.item next? = [.text " "] := by
  simp [separator, Comment.item, Item.isComment, h]

/-- A comment before a declaration has the blank line before it. -/
theorem separator_before_declaration {c : Comment}
    (h : previous.range.stop.line ≠ c.range.start.line) (hd : declaration.isDeclaration = true) :
    separator previous c.item (some declaration) = .lineBreak :: newLine := by
  simp [separator, Comment.item, Item.isComment, h, hd]

theorem isComment_of_isDeclaration (hd : declaration.isDeclaration = true) :
    declaration.isComment = false := by
  simp_all [Item.isDeclaration, Item.isComment]

/-- Whatever that comment has before it, the declaration only sees the comment. -/
theorem separator_declaration (hd : declaration.isDeclaration = true) :
    separator previous declaration none =
      if previous.isComment then newLine else .lineBreak :: newLine := by
  cases hprevious : previous.isComment <;>
    simp [separator, isComment_of_isDeclaration hd, hd, hprevious]

/-- There are two line breaks in a row, if the last comment does not take the place of one. -/
theorem gap_blankLine (hd : declaration.isDeclaration = true) (comments : List Comment)
    (hprevious : comments = [] → previous.isComment = false)
    (h : lastJoins previous.range comments = false) :
    [.lineBreak, .lineBreak] <:+: gap previous declaration comments := by
  induction comments generalizing previous with
  | nil =>
    rw [gap, separator_declaration hd, hprevious rfl]
    exact ⟨[], [.indent 0], rfl⟩
  | cons c rest ih =>
    cases rest with
    | nil =>
      have hline : previous.range.stop.line ≠ c.range.start.line := beq_eq_false_iff_ne.mp h
      have hgap : gap previous declaration [c] =
          .lineBreak :: newLine ++ c.pieces ++ gap c.item declaration [] :=
        congrArg (· ++ c.pieces ++ gap c.item declaration [])
          (separator_before_declaration hline hd)
      rw [hgap]
      exact ⟨[], .indent 0 :: (c.pieces ++ gap c.item declaration []), by simp [newLine]⟩
    | cons next rest =>
      have hrest : [.lineBreak, .lineBreak] <:+: gap c.item declaration (next :: rest) :=
        ih (fun hnil => by cases hnil) h
      rw [gap]
      exact hrest.trans (List.suffix_append _ _).isInfix

end Layout

/-! ## The text between them -/

/-- The token has text for one line, and not only blanks. -/
def Token.IsLine (t : Token) : Prop :=
  '\n' ∉ t.text.toList ∧ t.text.toList.all Text.isBlank = false

namespace State

variable {s : State} {blank : Bool}

/-- The characters that are written for pieces. -/
def written (s : State) (pieces : List Piece) : List Char :=
  (Fragment.code (s.render pieces)).toList

theorem written_append (pieces more : List Piece) :
    s.written (pieces ++ more) = s.written pieces ++ s.written more := by
  rw [written, render, Piece.renderAll_append, Fragment.code_append, String.toList_append]
  rfl

theorem written_lineBreak : s.written [.lineBreak] = s.options.newLine.text.toList := by
  simp [written, render, Piece.renderAll, Piece.shift, Piece.render, Fragment.code, Fragment.text]

theorem written_text (text : String) : s.written [.text text] = text.toList := by
  simp [written, render, Piece.renderAll, Piece.shift, Piece.render, Fragment.code, Fragment.text]

theorem written_comment (position : Position) (text : String) :
    s.written [.comment position text] = text.toList := by
  simp [written, render, Piece.renderAll, Piece.shift, Piece.render, Fragment.code, Fragment.text]

theorem written_indent (levels : Nat) : s.written [.indent levels] =
    (Piece.indentation s.options.indentUnit (levels + s.depth)).toList := by
  simp [written, render, Piece.renderAll, Piece.shift, Piece.render, Fragment.code, Fragment.text]

/-- The pieces are written without ending a blank line, wherever the first line starts. -/
def KeepsLines (s : State) (blank : Bool) (pieces : List Piece) (last : Bool) : Prop :=
  Text.blankBehind? blank (s.written pieces) = some last

theorem KeepsLines.append {pieces more : List Piece} {between last : Bool}
    (h : s.KeepsLines blank pieces between) (hmore : s.KeepsLines between more last) :
    s.KeepsLines blank (pieces ++ more) last := by
  rw [KeepsLines, written_append, Text.blankBehind?_append, h]
  exact hmore

theorem keepsLines_space : s.KeepsLines blank [.text " "] blank := by
  rw [KeepsLines, written_text]
  cases blank <;> rfl

/-- A line starts blank behind one that is not. -/
theorem keepsLines_newLine (h : '\n' ∉ s.options.indentUnit.toList) :
    ∃ last, s.KeepsLines false newLine last := by
  have hindent : '\n' ∉ s.written [.indent 0] := by
    rw [written_indent, Piece.indentation, String.toList_join]
    intro hmem
    obtain ⟨unit, hunit, hmem⟩ := List.mem_flatMap.mp hmem
    obtain rfl := List.eq_of_mem_replicate hunit
    exact h hmem
  have hbreak : s.KeepsLines false [.lineBreak] true := by
    rw [KeepsLines, written_lineBreak]
    exact s.options.newLine.blankBehind?
  exact ⟨_, hbreak.append (Text.blankBehind?_of_not_mem hindent)⟩

theorem keepsLines_token {t : Token} (h : t.IsLine) :
    s.KeepsLines blank [.comment t.start t.text] false := by
  rw [KeepsLines, written_comment, Text.blankBehind?_of_not_mem h.1, h.2, Bool.and_false]

theorem keepsLines_comment (h : '\n' ∉ s.options.indentUnit.toList) {c : Comment}
    (hc : ∀ t ∈ c.tokens, t.IsLine) : s.KeepsLines blank c.pieces false := by
  obtain ⟨hfirst, hothers⟩ := List.forall_mem_cons.mp hc
  have hlines (lines : List Token) (hlines : ∀ t ∈ lines, t.IsLine) :
      s.KeepsLines false (lines.flatMap fun token =>
        newLine ++ [.comment token.start token.text]) false := by
    induction lines with
    | nil => rfl
    | cons t lines ih =>
      obtain ⟨ht, hrest⟩ := List.forall_mem_cons.mp hlines
      obtain ⟨last, hnewLine⟩ := keepsLines_newLine h
      exact (hnewLine.append (keepsLines_token ht)).append (ih hrest)
  exact (keepsLines_token hfirst).append (hlines c.others hothers)

/-- If the last comment takes the place of the blank line, no other line before the declaration is
blank. -/
theorem keepsLines_gap (h : '\n' ∉ s.options.indentUnit.toList) {previous declaration : Item}
    (hd : declaration.isDeclaration = true) (comments : List Comment)
    (hcomments : ∀ c ∈ comments, ∀ t ∈ c.tokens, t.IsLine)
    (hjoins : Layout.lastJoins previous.range comments = true) :
    ∃ last, s.KeepsLines false (Layout.gap previous declaration comments) last := by
  obtain ⟨started, hnewLine⟩ := keepsLines_newLine h
  induction comments generalizing previous with
  | nil => cases hjoins
  | cons c rest ih =>
    obtain ⟨hc, hrest⟩ := List.forall_mem_cons.mp hcomments
    cases rest with
    | nil =>
      have hline : previous.range.stop.line = c.range.start.line := beq_iff_eq.mp hjoins
      have hgap : Layout.gap previous declaration [c] = [.text " "] ++ c.pieces ++ newLine := by
        rw [Layout.gap, Layout.separator_same_line hline, Layout.gap,
          Layout.separator_declaration hd]
        rfl
      rw [hgap]
      exact ⟨started, (keepsLines_space.append (keepsLines_comment h hc)).append hnewLine⟩
    | cons next rest =>
      have hseparator : ∃ last, s.KeepsLines false
          (Layout.separator previous c.item (some next.item)) last := by
        rw [Layout.separator]
        split
        · exact ⟨false, keepsLines_space⟩
        · exact ⟨started, hnewLine⟩
      obtain ⟨last, hlast⟩ : ∃ last, s.KeepsLines false
          (Layout.gap c.item declaration (next :: rest)) last := ih hrest hjoins
      obtain ⟨between, hbetween⟩ := hseparator
      exact ⟨last, (hbetween.append (keepsLines_comment h hc)).append hlast⟩

/-- What is written between a statement and a declaration of a body, if only comments are between
them. -/
def gap (s : State) (p : Statement) (comments : List Comment) (declaration : Statement) :
    List Fragment :=
  s.render (Layout.gap (p.item s.scope) (declaration.item s.scope) comments)

/-- A body is written up to the statement, then the gap, then the declaration. -/
theorem pieces_body_gap (s : State) (before : Body) {p : Statement}
    (hcode : (p.item s.scope).isComment = false) (comments : List Comment) {declaration : Statement}
    (hd : (declaration.item s.scope).isDeclaration = true) (after : Body) :
    s.pieces (.body (before ++ p :: (comments.map .comment ++ declaration :: after))) =
      s.pieces (.body (before ++ [p])) ++
        Layout.gap (p.item s.scope) (declaration.item s.scope) comments ++
        s.pieces (.statement declaration) ++
        Layout.bodyItems (declaration.item s.scope) (after.map (Statement.item s.scope)) := by
  have hbody (statements : Body) : s.pieces (.body statements) =
      Layout.body (statements.map (Statement.item s.scope)) :=
    congrArg Layout.body (statementItems_eq_map statements)
  have hcomments : (comments.map Statement.comment).map (Statement.item s.scope) =
      comments.map Comment.item := by
    rw [List.map_map]
    rfl
  rw [hbody, hbody, List.map_append, List.map_cons, List.map_append, List.map_cons, hcomments,
    List.map_append, Layout.body_append _ _ hcode,
    Layout.bodyItems_gap (Layout.isComment_of_isDeclaration hd)]
  simp only [List.append_assoc]
  rfl

/-- A declaration in a body, of a file or of a namespace, is set off by a blank line from the last
statement before it that is no comment, unless the last comment between them stays on the line of
what is before it. In that case no line between them is blank. -/
theorem emit_sets_off (s : State) (before : Body) (p : Statement) (comments : List Comment)
    (name : Token) (literal : FunctionLiteral) (after : Body) (hp : p.isComment = false) :
    let declaration := Statement.function name literal
    let body := before ++ p :: (comments.map .comment ++ declaration :: after)
    let gap := s.gap p comments declaration
    (∃ rest, (s.emit (.body body)).1 = (s.emit (.body (before ++ [p]))).1 ++ gap ++
      (s.emit (.statement declaration)).1 ++ rest) ∧
    (Layout.lastJoins p.range comments = false →
      Text.HasBlankLine (Fragment.code gap).toList) ∧
    (Layout.lastJoins p.range comments = true → '\n' ∉ s.options.indentUnit.toList →
      (∀ c ∈ comments, ∀ t ∈ c.tokens, t.IsLine) →
      ¬ Text.HasBlankLine (Fragment.code gap).toList) ∧
    ∀ keyword range namespaceName endToken,
      (s.emit (.statement (.namespaceBlock keyword namespaceName body endToken))).1 =
        (State.emit { s with ancestors := .namespaceBlock range namespaceName :: s.ancestors }
          (.body body)).1 := by
  intro declaration body gap
  have hcode : (p.item s.scope).isComment = false := by
    cases p with
    | comment c => cases hp
    | _ => rfl
  have hd : (declaration.item s.scope).isDeclaration = true := rfl
  refine ⟨⟨s.render (Layout.bodyItems (declaration.item s.scope)
    (after.map (Statement.item s.scope))), ?_⟩, fun hjoins => ?_, fun hjoins hunit hlines => ?_,
    fun _ _ _ _ => rfl⟩
  · show s.render _ = s.render _ ++ s.render _ ++ s.render _ ++ s.render _
    rw [pieces_body_gap s before hcode comments hd]
    simp only [render, Piece.renderAll_append]
  · obtain ⟨first, last, hgap⟩ := Layout.gap_blankLine hd comments (fun _ => hcode) hjoins
    have htext : (Fragment.code gap).toList = s.written first ++
        (s.options.newLine.text.toList ++ s.options.newLine.text.toList) ++ s.written last := by
      show s.written (Layout.gap _ _ comments) = _
      rw [← hgap, written_append, written_append,
        show [Piece.lineBreak, .lineBreak] = [.lineBreak] ++ [.lineBreak] from rfl, written_append,
        written_lineBreak]
    rw [htext]
    exact s.options.newLine.hasBlankLine.append _ _
  · have hbehind : Layout.lastJoins (p.item s.scope).range comments = true := hjoins
    obtain ⟨last, hlast⟩ := keepsLines_gap hunit hd comments hlines hbehind
    exact Text.not_hasBlankLine hlast

/-- An assignment with a comment behind it, and a declaration with a comment on the line before
it. -/
theorem emit_sets_off_documented :
    let token (text : String) (line column : Nat) : Token :=
      .ofStart .identifier text ⟨line, column⟩
    let s : State := ⟨{}, .none, "", 0, [], {}⟩
    let p : Statement := .assignment ⟨token "x" 0 0, token "=" 0 2, .literal (token "1" 0 4)⟩
    let comments : List Comment :=
      [⟨token "' trailing" 0 6, [], .statement⟩, ⟨token "' doc" 2 0, [], .statement⟩]
    let declaration : Statement := .function (token "main" 3 4)
      ⟨token "sub" 3 0, token "(" 3 8, [], token ")" 3 9, none, ⟨⟨3, 10⟩, []⟩, token "end sub" 4 0⟩
    p.isComment = false ∧ Layout.lastJoins p.range comments = false ∧
    (∃ rest, (s.emit (.body (p :: comments.map .comment ++ [declaration]))).1 =
      (s.emit (.body [p])).1 ++ s.gap p comments declaration ++
        (s.emit (.statement declaration)).1 ++ rest) ∧
    Text.HasBlankLine (Fragment.code (s.gap p comments declaration)).toList := by
  intro token s p comments declaration
  obtain ⟨hemit, hblank, -, -⟩ := emit_sets_off s [] p comments (token "main" 3 4)
    ⟨token "sub" 3 0, token "(" 3 8, [], token ")" 3 9, none, ⟨⟨3, 10⟩, []⟩, token "end sub" 4 0⟩
    [] rfl
  exact ⟨rfl, rfl, hemit, hblank rfl⟩

/-- Nothing sets off the declaration behind `x = 1 ' trailing`. -/
theorem not_emit_sets_off_joined :
    let token (text : String) (line column : Nat) : Token :=
      .ofStart .identifier text ⟨line, column⟩
    let s : State := ⟨{}, .none, "", 0, [], {}⟩
    let p : Statement := .assignment ⟨token "x" 0 0, token "=" 0 2, .literal (token "1" 0 4)⟩
    let comment : Comment := ⟨token "' trailing" 0 6, [], .statement⟩
    let declaration : Statement := .function (token "main" 1 4)
      ⟨token "sub" 1 0, token "(" 1 8, [], token ")" 1 9, none, ⟨⟨1, 10⟩, []⟩, token "end sub" 2 0⟩
    ∃ gap, (s.emit (.body [p, .comment comment, declaration])).1 =
      (s.emit (.body [p])).1 ++ gap ++ (s.emit (.statement declaration)).1 ∧
    ¬ Text.HasBlankLine (Fragment.code gap).toList := by
  intro token s p comment declaration
  have hread : Text.blankBehind? false " ' trailing\n".toList = some true := by decide
  exact ⟨[.plain " ", .mapped ⟨0, 6⟩ "" "' trailing", .plain "\n", .plain ""], rfl,
    Text.not_hasBlankLine hread⟩

end State

end Downlevel
