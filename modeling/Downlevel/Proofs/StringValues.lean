import Downlevel.Proofs.Walking

/-!
# What strings say

A string literal is written anew, and a template string becomes a concatenation of literals, line
feeds and calls. Here it is shown that none of this changes what is said.

Reading a literal takes any text, also one that is not well formed, and writing gives a text in
which quotes stand in pairs only (`Text.IsLiteral`). On such texts, writing is the inverse of
reading (`Text.isLiteral_iff`).

For a template string, what it holds is given by its parts alone (`Template.Holds`), and what the
operands of a concatenation say by reading each of them (`Template.Operand.content`).

Main statements: literals survive being written anew, any number of times (`State.emit_requotes`),
and a concatenation says what the template string holds (`State.emit_template`).
-/

namespace Downlevel

namespace Text

/-! ## String literals -/

/-- Quotes stand in adjacent pairs only. -/
inductive PairsQuotes : List Char → Prop
  | nil : PairsQuotes []
  | pair {text : List Char} : PairsQuotes text → PairsQuotes ('"' :: '"' :: text)
  | char {c : Char} {text : List Char} : c ≠ '"' → PairsQuotes text → PairsQuotes (c :: text)

/-- The text is well formed as a string literal: it is between two quotes, and quotes stand in pairs
only between these. -/
def IsLiteral (text : String) : Prop :=
  ∃ inside, PairsQuotes inside ∧ text.toList = '"' :: (inside ++ ['"'])

theorem pairsQuotes_doubleQuotes (value : List Char) : PairsQuotes (doubleQuotes value) := by
  induction value with
  | nil => exact .nil
  | cons c rest ih =>
    rw [doubleQuotes]
    split
    · exact .pair ih
    next hc => exact .char hc ih

theorem doubleQuotes_mergeQuotes {inside : List Char} (h : PairsQuotes inside) :
    doubleQuotes (mergeQuotes inside) = inside := by
  induction h with
  | nil => rfl
  | pair _ ih => rw [mergeQuotes, doubleQuotes, if_pos rfl, ih]
  | @char c text hc _ ih =>
    have hmerge : mergeQuotes (c :: text) = c :: mergeQuotes text :=
      mergeQuotes.eq_2 c text fun _ hquote _ => hc hquote
    rw [hmerge, doubleQuotes, if_neg hc, ih]

theorem unquote_quote (value : String) : unquote (quote value) = value := by
  rw [unquote, quote, String.toList_ofList, unquoteChars_quoteChars, String.ofList_toList]

theorem isLiteral_quote (value : String) : IsLiteral (quote value) :=
  ⟨doubleQuotes value.toList, pairsQuotes_doubleQuotes value.toList, String.toList_ofList⟩

/-- The literals are the texts that are written for the values they are read as. -/
theorem isLiteral_iff {text : String} : IsLiteral text ↔ quote (unquote text) = text := by
  constructor
  · rintro ⟨inside, hinside, htext⟩
    have hvalue : unquoteChars text.toList = mergeQuotes inside := by
      rw [htext, unquoteChars, dropFirstQuote, if_pos rfl, dropLastQuote_append_quote]
    rw [quote, unquote, String.toList_ofList, hvalue, quoteChars, doubleQuotes_mergeQuotes hinside,
      ← htext, String.ofList_toList]
  · intro h
    rw [← h]
    exact isLiteral_quote (unquote text)

theorem mem_doubleQuotes_iff {c : Char} {value : List Char} :
    c ∈ doubleQuotes value ↔ c ∈ value := by
  induction value with
  | nil => rfl
  | cons first rest ih =>
    rw [doubleQuotes]
    split
    next hquote => simp [ih, hquote]
    next => simp [ih]

/-- Only the quotes around the value are new. -/
theorem mem_quote_iff {c : Char} (hc : c ≠ '"') {value : String} :
    c ∈ (quote value).toList ↔ c ∈ value.toList := by
  simp [quote, quoteChars, mem_doubleQuotes_iff, hc]

end Text

namespace State

theorem emit_literal (s : State) {token : Token} (h : token.kind = .stringLiteral) :
    (s.emit (.expression (.literal token))).1 =
      [.mapped token.start s.source (Text.quote (Text.unquote token.text))] := by
  show s.render (Expression.emit s.scope (.literal token)) = _
  rw [Expression.emit, Expression.literalPiece, if_pos h]
  rfl

/-- String literals survive being written anew. What is written for a value is read as that value,
and a text is written again as it is exactly if it is well formed. For a literal, whatever its text,
a well-formed one of the same value is written, and for that one nothing but itself. -/
theorem emit_requotes (s : State) :
    (∀ value, Text.unquote (Text.quote value) = value) ∧
    (∀ text, Text.IsLiteral text ↔ Text.quote (Text.unquote text) = text) ∧
    ∀ token : Token, token.kind = .stringLiteral → ∃ written,
      (s.emit (.expression (.literal token))).1 = [.mapped token.start s.source written] ∧
      Text.IsLiteral written ∧ Text.unquote written = Text.unquote token.text ∧
      ∀ (later : State) (again : Token), again.kind = .stringLiteral → again.text = written →
        (later.emit (.expression (.literal again))).1 =
          [.mapped again.start later.source written] := by
  refine ⟨Text.unquote_quote, fun text => Text.isLiteral_iff, ?_⟩
  intro token hkind
  have hwritten := Text.isLiteral_quote (Text.unquote token.text)
  refine ⟨_, s.emit_literal hkind, hwritten, Text.unquote_quote _, ?_⟩
  intro later again hagain htext
  rw [later.emit_literal hagain, htext, Text.isLiteral_iff.mp hwritten]

/-- Three quotes in a row and none at the end: the literal is closed, the last of the three gets a
partner, and then nothing changes any more. -/
theorem emit_requotes_unterminated :
    let token (text : String) : Token := { (default : Token) with kind := .stringLiteral, text }
    let s : State := ⟨{}, .none, "f", 0, [], {}⟩
    (token "\"a\"\"\"b").kind = .stringLiteral ∧
      (s.emit (.expression (.literal (token "\"a\"\"\"b")))).1 =
        [.mapped default "f" "\"a\"\"\"\"b\""] ∧
      Text.IsLiteral "\"a\"\"\"\"b\"" ∧
      (s.emit (.expression (.literal (token "\"a\"\"\"\"b\"")))).1 =
        [.mapped default "f" "\"a\"\"\"\"b\""] := by
  intro token s
  obtain ⟨-, -, hemit⟩ := s.emit_requotes
  obtain ⟨written, hwritten, hliteral, -, hagain⟩ := hemit (token "\"a\"\"\"b") rfl
  have hcomputed : (s.emit (.expression (.literal (token "\"a\"\"\"b")))).1 =
      [.mapped default "f" "\"a\"\"\"\"b\""] := by decide
  obtain ⟨-, -, rfl⟩ := Fragment.mapped.inj (List.cons.inj (hcomputed.symm.trans hwritten)).1
  exact ⟨rfl, hcomputed, hliteral, hagain s (token "\"a\"\"\"\"b\"") rfl rfl⟩

end State

/-! ## Line breaks -/

namespace Text

/-- The second text is the first one with a line feed in the place of each carriage return and line
feed. -/
def UnifiesLineBreaks (text unified : List Char) : Prop :=
  ∃ segments : List (List Char), (∀ segment ∈ segments, ¬ ['\r', '\n'] <:+: segment) ∧
    text = ['\r', '\n'].intercalate segments ∧ unified = ['\n'].intercalate segments

theorem lineBreak_prefix_cons_iff {c : Char} {rest : List Char} :
    ['\r', '\n'] <+: c :: rest ↔ c = '\r' ∧ rest.head? = some '\n' := by
  rw [List.cons_prefix_cons, eq_comm]
  cases rest <;> simp [List.cons_prefix_cons, eq_comm]

theorem unifyLineBreaks_cons {c : Char} {rest : List Char}
    (h : ¬ ['\r', '\n'] <+: c :: rest) :
    unifyLineBreaks (c :: rest) = c :: unifyLineBreaks rest := by
  apply unifyLineBreaks.eq_2
  rintro more rfl rfl
  exact h ⟨more, rfl⟩

/-- A segment without such a line break is left as it is, unless one begins at its end. -/
theorem unifyLineBreaks_append {segment rest : List Char} (hsegment : ¬ ['\r', '\n'] <:+: segment)
    (hrest : rest.head? ≠ some '\n') :
    unifyLineBreaks (segment ++ rest) = segment ++ unifyLineBreaks rest := by
  induction segment with
  | nil => rfl
  | cons c segment ih =>
    have hinner : ¬ ['\r', '\n'] <:+: segment := fun h => hsegment (List.infix_cons h)
    have hstart : ¬ ['\r', '\n'] <+: c :: (segment ++ rest) := by
      intro hprefix
      obtain ⟨hc, hhead⟩ := lineBreak_prefix_cons_iff.mp hprefix
      cases segment with
      | nil => exact hrest hhead
      | cons next segment =>
        have hbreak : ['\r', '\n'] <+: c :: next :: segment :=
          lineBreak_prefix_cons_iff.mpr ⟨hc, hhead⟩
        exact hsegment hbreak.isInfix
    rw [List.cons_append, unifyLineBreaks_cons hstart, ih hinner, List.cons_append]

theorem unifyLineBreaks_intercalate {segments : List (List Char)}
    (h : ∀ segment ∈ segments, ¬ ['\r', '\n'] <:+: segment) :
    unifyLineBreaks (['\r', '\n'].intercalate segments) = ['\n'].intercalate segments := by
  induction segments with
  | nil => rfl
  | cons segment rest ih =>
    obtain ⟨hsegment, hrest⟩ := List.forall_mem_cons.mp h
    cases rest with
    | nil =>
      have hunify : unifyLineBreaks (segment ++ []) = segment ++ unifyLineBreaks [] :=
        unifyLineBreaks_append hsegment (by simp)
      simpa [unifyLineBreaks] using hunify
    | cons next rest =>
      rw [List.intercalate_cons_cons, List.intercalate_cons_cons, List.append_assoc,
        unifyLineBreaks_append hsegment (by simp), List.append_assoc, ← ih hrest]
      rfl

theorem exists_segments (text : List Char) : ∃ segments : List (List Char), segments ≠ [] ∧
    (∀ segment ∈ segments, ¬ ['\r', '\n'] <:+: segment) ∧
    text = ['\r', '\n'].intercalate segments := by
  induction text using unifyLineBreaks.induct with
  | case1 rest ih =>
    obtain ⟨segments, hne, hsegments, rfl⟩ := ih
    refine ⟨[] :: segments, List.cons_ne_nil [] segments, ?_, ?_⟩
    · exact List.forall_mem_cons.mpr ⟨by simp, hsegments⟩
    · obtain ⟨first, more, rfl⟩ := List.exists_cons_of_ne_nil hne
      rfl
  | case2 c rest hstart ih =>
    obtain ⟨segments, hne, hsegments, rfl⟩ := ih
    obtain ⟨first, more, rfl⟩ := List.exists_cons_of_ne_nil hne
    obtain ⟨hfirst, hmore⟩ := List.forall_mem_cons.mp hsegments
    refine ⟨(c :: first) :: more, List.cons_ne_nil _ more, ?_,
      List.intercalate_cons_cons_left.symm⟩
    refine List.forall_mem_cons.mpr ⟨?_, hmore⟩
    intro hinfix
    rcases List.infix_cons_iff.mp hinfix with hprefix | hinner
    · obtain ⟨hc, hhead⟩ := lineBreak_prefix_cons_iff.mp hprefix
      obtain ⟨first, rfl⟩ := List.head?_eq_some_iff.mp hhead
      exact hstart _ hc List.intercalate_cons_cons_left
    · exact hfirst hinner
  | case3 => exact ⟨[[]], by simp, by simp, rfl⟩

theorem unifiesLineBreaks_iff {text unified : List Char} :
    UnifiesLineBreaks text unified ↔ unified = unifyLineBreaks text := by
  constructor
  · rintro ⟨segments, hsegments, rfl, rfl⟩
    exact (unifyLineBreaks_intercalate hsegments).symm
  · rintro rfl
    obtain ⟨segments, -, hsegments, rfl⟩ := exists_segments text
    exact ⟨segments, hsegments, rfl, unifyLineBreaks_intercalate hsegments⟩

/-- What is between the separators makes up the text. -/
theorem intercalate_splitAt (separator : Char) (text : List Char) :
    [separator].intercalate (splitAt separator text) = text := by
  rw [splitAt_eq_splitOn, List.intercalate_splitOn]

theorem not_mem_of_mem_splitAt {separator : Char} {text part : List Char}
    (h : part ∈ splitAt separator text) : separator ∉ part := by
  induction text generalizing part with
  | nil =>
    obtain rfl := List.mem_singleton.mp h
    exact List.not_mem_nil
  | cons c rest ih =>
    obtain ⟨first, parts, hparts⟩ := List.exists_cons_of_ne_nil (splitAt_ne_nil separator rest)
    rw [splitAt, hparts] at h
    rw [hparts] at ih
    split at h
    next =>
      rcases List.mem_cons.mp h with rfl | hpart
      · exact List.not_mem_nil
      · exact ih hpart
    next hc =>
      rcases List.mem_cons.mp h with rfl | hpart
      · exact List.not_mem_cons_of_ne_of_not_mem (Ne.symm hc) (ih List.mem_cons_self)
      · exact ih (List.mem_cons_of_mem first hpart)

end Text

/-! ## Template strings -/

namespace Template

/-- What a string is made of: characters, and the values of expressions as text. -/
inductive Content where
  | char (c : Char)
  | value (expression : Expression)

/-- The parts of a template string hold this, one after the other. Line breaks of the text are line
feeds, however they were written. -/
inductive Holds : List TemplatePart → List Content → Prop
  | nil : Holds [] []
  | text {token : Token} {unified : List Char} {rest : List TemplatePart}
      {content : List Content} : Text.UnifiesLineBreaks token.text.toList unified →
      Holds rest content → Holds (.text token :: rest) (unified.map .char ++ content)
  | expression {e : Expression} {rest : List TemplatePart} {content : List Content} :
      Holds rest content → Holds (.expression e :: rest) (.value e :: content)

/-- An operand of a concatenation. -/
inductive Operand where
  /-- A string literal. -/
  | quoted (position : Position) (literal : String)
  /-- The call that gives a line feed. -/
  | lineFeed
  /-- The call that turns the value of an expression into text. -/
  | value (expression : Expression)

namespace Operand

/-- What the operand says. -/
def content : Operand → List Content
  | quoted _ literal => (Text.unquote literal).toList.map .char
  | lineFeed => [.char '\n']
  | value e => [.value e]

/-- The fragments of the operand. -/
def fragments (s : State) : Operand → List Fragment
  | quoted position literal => [.mapped position s.source literal]
  | lineFeed => [.plain "chr(10)"]
  | value e => [.mapped e.range.start s.source (s.helperName .toText), .plain "("] ++
      (s.emit (.expression e)).1 ++ [.plain ")"]

/-- The pieces of the operand. -/
def pieces (scope : Scope) : Operand → List Piece
  | quoted position literal => [.written position literal]
  | lineFeed => [.text "chr(10)"]
  | value e => [.helper e.range.start .toText, .text "("] ++ e.emit scope ++ [.text ")"]

/-- A literal says something, and it says that on one line. -/
def IsProper : Operand → Prop
  | quoted _ literal =>
    Text.IsLiteral literal ∧ '\n' ∉ literal.toList ∧ Text.unquote literal ≠ ""
  | _ => True

end Operand

/-- The fragments of a concatenation. -/
def fragments (s : State) (opening : Token) : (operands : List Operand) → List Fragment
  | [] => [.mapped opening.start s.source "\"\""]
  | [operand] => operand.fragments s
  | operands => .plain "(" ::
      [.plain " + "].intercalate (operands.map (Operand.fragments s)) ++ [.plain ")"]

/-! ### What the parts hold -/

/-- What a part holds. -/
def partContent : TemplatePart → List Content
  | .text token => (Text.unifyLineBreaks token.text.toList).map .char
  | .expression e => [.value e]

theorem holds_iff {parts : List TemplatePart} {content : List Content} :
    Holds parts content ↔ content = parts.flatMap partContent := by
  constructor
  · intro h
    induction h with
    | nil => rfl
    | text hunified _ ih =>
      rw [Text.unifiesLineBreaks_iff.mp hunified, ih]
      rfl
    | expression _ ih =>
      rw [ih]
      rfl
  · rintro rfl
    induction parts with
    | nil => exact .nil
    | cons part rest ih =>
      cases part with
      | text token => exact .text (Text.unifiesLineBreaks_iff.mpr rfl) ih
      | expression e => exact .expression ih

/-! ### What the operands say -/

section Says

variable {scope : Scope} {written more : List (List Piece)} {content others : List Content}

/-- The pieces are those of proper operands, which say this. -/
def Says (scope : Scope) (written : List (List Piece)) (content : List Content) : Prop :=
  ∃ operands : List Operand, written = operands.map (Operand.pieces scope) ∧
    content = operands.flatMap Operand.content ∧ ∀ operand ∈ operands, operand.IsProper

theorem Says.nil : Says scope [] [] := ⟨[], rfl, rfl, by simp⟩

theorem Says.single (operand : Operand) (h : operand.IsProper) :
    Says scope [operand.pieces scope] operand.content :=
  ⟨[operand], rfl, by simp, by simpa using h⟩

theorem Says.lineFeed : Says scope [[.text "chr(10)"]] [.char '\n'] :=
  .single .lineFeed trivial

theorem Says.append (h : Says scope written content) (hmore : Says scope more others) :
    Says scope (written ++ more) (content ++ others) := by
  obtain ⟨operands, rfl, rfl, hproper⟩ := h
  obtain ⟨further, rfl, rfl, hfurther⟩ := hmore
  exact ⟨operands ++ further, by simp, by simp, List.forall_mem_append.mpr ⟨hproper, hfurther⟩⟩

theorem says_literal (position : Position) {line : List Char} (h : '\n' ∉ line) :
    Says scope (Layout.textOperands.literal position (String.ofList line)) (line.map .char) := by
  rw [Layout.textOperands.literal]
  by_cases hline : line = []
  · subst hline
    exact .nil
  · rw [if_neg (by simpa using hline)]
    let operand : Operand := .quoted position (Text.quote (String.ofList line))
    have hproper : operand.IsProper := by
      refine ⟨Text.isLiteral_quote _, ?_, ?_⟩
      · rwa [Text.mem_quote_iff (by decide), String.toList_ofList]
      · rw [Text.unquote_quote]
        simpa using hline
    have hcontent : operand.content = line.map .char := by
      rw [Operand.content, Text.unquote_quote, String.toList_ofList]
    rw [← hcontent]
    exact .single operand hproper

/-- The operands for some lines say the lines, with line feeds between them. -/
theorem says_textOperands (position : Position) {lines : List (List Char)}
    (h : ∀ line ∈ lines, '\n' ∉ line) :
    Says scope (Layout.textOperands position (lines.map String.ofList))
      ((['\n'].intercalate lines).map .char) := by
  induction lines with
  | nil => exact .nil
  | cons line rest ih =>
    obtain ⟨hline, hrest⟩ := List.forall_mem_cons.mp h
    cases rest with
    | nil =>
      rw [List.intercalate_singleton]
      exact says_literal position hline
    | cons next rest =>
      have hfeed : Says scope [[.text "chr(10)"]] [.char '\n'] := .lineFeed
      have hsays := (says_literal position hline).append (hfeed.append (ih hrest))
      rw [List.intercalate_cons_cons, List.append_assoc, List.map_append]
      exact hsays

theorem says_templateOperands (parts : List TemplatePart) :
    Says scope (templateOperands scope parts) (parts.flatMap partContent) := by
  induction parts with
  | nil => exact .nil
  | cons part rest ih =>
    rw [List.flatMap_cons]
    cases part with
    | text token =>
      rw [templateOperands]
      refine .append ?_ ih
      let lines := Text.splitAt '\n' (Text.unifyLineBreaks token.text.toList)
      have hlines : ∀ line ∈ lines, '\n' ∉ line := fun _ => Text.not_mem_of_mem_splitAt
      rw [partContent, ← Text.intercalate_splitAt '\n' (Text.unifyLineBreaks token.text.toList)]
      exact says_textOperands token.start hlines
    | expression e =>
      exact (Says.single (.value e) trivial).append ih

end Says

/-! ### What is written for the operands -/

section Rendering

variable (s : State)

theorem render_separated (separator : String) (lists : List (List Piece)) :
    s.render (Piece.separated separator lists) =
      [.plain separator].intercalate (lists.map s.render) := by
  induction lists with
  | nil => rfl
  | cons pieces rest ih =>
    cases rest with
    | nil => simp [Piece.separated]
    | cons next rest =>
      rw [Piece.separated, State.render_append, List.map_cons, List.map_cons,
        List.intercalate_cons_cons, List.append_assoc]
      show s.render pieces ++ .plain separator :: s.render (Piece.separated separator _) = _
      rw [ih]
      rfl

theorem render_pieces (operand : Operand) :
    s.render (operand.pieces s.scope) = operand.fragments s := by
  cases operand with
  | quoted | lineFeed => rfl
  | value e =>
    rw [Operand.pieces, State.render_append, State.render_append]
    rfl

/-- A concatenation of operands, filled in. -/
theorem render_concatenation (opening : Token) (operands : List Operand) :
    s.render (Layout.concatenation opening (operands.map (Operand.pieces s.scope))) =
      fragments s opening operands := by
  match operands with
  | [] => rfl
  | [operand] => exact render_pieces s operand
  | operand :: next :: rest =>
    have hmap : ((operand :: next :: rest).map (Operand.pieces s.scope)).map s.render =
        (operand :: next :: rest).map (Operand.fragments s) := by
      rw [List.map_map]
      exact List.map_congr_left fun o _ => render_pieces s o
    show s.render (.text "(" :: Piece.separated " + "
      ((operand :: next :: rest).map (Operand.pieces s.scope)) ++ [.text ")"]) = _
    rw [State.render_append]
    show .plain "(" :: s.render (Piece.separated " + " _) ++ [.plain ")"] = _
    rw [render_separated, hmap]
    rfl

end Rendering

theorem Operand.content_ne_nil {operand : Operand} (h : operand.IsProper) :
    operand.content ≠ [] := by
  cases operand with
  | quoted position literal => simpa [content] using h.2.2
  | lineFeed | value => exact List.cons_ne_nil _ _

/-- Operands that say nothing are none. -/
theorem eq_nil_iff_content {operands : List Operand} (h : ∀ operand ∈ operands, operand.IsProper) :
    operands = [] ↔ operands.flatMap Operand.content = [] := by
  cases operands with
  | nil => simp
  | cons operand rest =>
    have hne := Operand.content_ne_nil (h operand List.mem_cons_self)
    simp [hne]

end Template

/-- A template string is written as what it holds. There are operands, each a literal, a line feed
or the value of an expression, which say exactly that, one after the other; a single one stands for
itself, more than one are added up in parentheses, and the empty literal stands for none. Each
literal is well formed, says something and says it on one line; so there are no operands exactly if
the template string holds nothing. -/
theorem State.emit_template (s : State) (opening closing : Token) (parts : List TemplatePart) :
    ∃ operands : List Template.Operand,
      (s.emit (.expression (.template opening parts closing))).1 =
        Template.fragments s opening operands ∧
      (∀ content, Template.Holds parts content ↔
        content = operands.flatMap Template.Operand.content) ∧
      (∀ position literal, .quoted position literal ∈ operands →
        Text.IsLiteral literal ∧ '\n' ∉ literal.toList ∧ Text.unquote literal ≠ "") ∧
      (operands = [] ↔ Template.Holds parts []) := by
  obtain ⟨operands, hwritten, hcontent, hproper⟩ : Template.Says s.scope
      (templateOperands s.scope parts) (parts.flatMap Template.partContent) :=
    Template.says_templateOperands parts
  refine ⟨operands, ?_, ?_, ?_, ?_⟩
  · show s.render (Expression.emit s.scope (.template opening parts closing)) = _
    rw [Expression.emit, hwritten, Template.render_concatenation]
  · intro content
    rw [Template.holds_iff, hcontent]
  · intro position literal hliteral
    exact hproper _ hliteral
  · rw [Template.eq_nil_iff_content hproper, Template.holds_iff, hcontent, eq_comm]

/-- Of the two line breaks, the second one is a carriage return and a line feed. -/
example :
    let token (text : String) : Token := { (default : Token) with text }
    let s : State := ⟨{}, .none, "f", 0, [], {}⟩
    let parts : List TemplatePart := [.text (token "a\n\r\nb"),
      .expression (.identifier (token "x"))]
    ((s.emit (.expression (.template default parts default))).1).map Fragment.text =
      ["(", "\"a\"", " + ", "chr(10)", " + ", "chr(10)", " + ", "\"b\"", " + ", "bslib_toString",
        "(", "x", ")", ")"] := by
  decide

end Downlevel
