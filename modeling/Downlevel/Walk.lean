import Downlevel.State

/-!
# The walk

Emission step by step: a tree is walked through from the first fragment to the last, and the state
goes along. The walk looks up in the state what it has to know, such as the depth for an
indentation, and it changes the state on its way: it goes one level deeper and into nodes and has to
come back, and it records the helpers that it calls.

`State.emit` says in one step what is written for a tree and which state is left. That the walk ends
there is a theorem (`Tree.walk_eq_emit`).
-/

namespace Downlevel

/-- A stretch of the walk: the fragments that it writes, and the state that it leaves. -/
def Walk := State → List Fragment × State

namespace Walk

/-- One stretch after the other. -/
def andThen (first second : Walk) : Walk := fun s =>
  let (before, s) := first s
  let (after, s) := second s
  (before ++ after, s)

instance : Append Walk := ⟨andThen⟩

/-- Writes nothing. -/
def nothing : Walk := fun s => ([], s)

/-- Text without a source position. -/
def text (text : String) : Walk := fun s => ([.plain text], s)

/-- Text for a source position. -/
def source (position : Position) (text : String) : Walk :=
  fun s => ([.mapped position s.source text], s)

/-- The token as it was written. -/
def token (t : Token) : Walk := source t.start t.text

/-- The token as it was written, or else a text in its place. -/
def tokenOr (fallback : String) : Option Token → Walk
  | some t => token t
  | none => text fallback

def lineBreak : Walk := fun s => ([.plain s.options.newLine.text], s)

/-- The indentation at the depth of the state. -/
def indent : Walk := fun s => ([.plain (Piece.indentation s.options.indentUnit s.depth)], s)

/-- Starts a line. -/
def newLine : Walk := lineBreak ++ indent

/-- The name of a helper, which is recorded. -/
def helper (position : Position) (h : Helper) : Walk :=
  fun s => source position (s.helperName h) (s.noteHelper h)

/-- A stretch one level deeper. -/
def deeper (w : Walk) : Walk := fun s => s.withBlock w

/-- A stretch inside a node. -/
def within (ancestor : Ancestor) (w : Walk) : Walk := fun s => s.withAncestor ancestor w

/-- Several stretches with a text between them. -/
def separated (separator : String) : List Walk → Walk
  | [] => nothing
  | [w] => w
  | w :: next :: rest => w ++ text separator ++ separated separator (next :: rest)

/-! ## Sequences -/

/-- An item of a sequence: where it stands in the source, and the stretch through it. -/
structure Stop where
  range : Range
  role : Role
  walk : Walk

namespace Stop

/-- The item is a comment. -/
def isComment (stop : Stop) : Bool := stop.role == .comment

/-- The item declares a function. -/
def isDeclaration (stop : Stop) : Bool := stop.role == .declaration

/-- A comment stays on the line of the range before it. -/
def joins (previous : Range) (stop : Stop) : Bool :=
  stop.isComment && previous.touches stop.range

/-- A comma stands behind a value if another value follows. -/
def comma (stop : Stop) (rest : List Stop) : Walk :=
  if !stop.isComment && rest.any (!·.isComment) then text "," else nothing

end Stop

/-- The statements of a block behind the statement at `previous?`. -/
def blockItems (ownerLine? : Option Nat) : (previous? : Option Range) → List Stop → Walk
  | _, [] => nothing
  | previous?, stop :: rest =>
    let joins := stop.isComment &&
      (previous?.any stop.range.touches || ownerLine?.any stop.range.meetsLine)
    (if joins then text " " else newLine) ++ stop.walk ++
      blockItems ownerLine? (some stop.range) rest

/-- A block at the given range. Its owner is the node that the walk is in, when it comes to the
block. -/
def block (range : Range) (stops : List Stop) : Walk := fun s =>
  let ownerLine? := s.parent?.map (·.range.start.line)
  within (.node range) (deeper (blockItems ownerLine? none stops)) s

/-- A block, and the line break before the keyword behind it. The line break is left out if the
block has written nothing, unless the options ask for it. -/
def branch (block : Walk) : Walk := fun s =>
  let (fragments, s) := block s
  if !fragments.isEmpty || s.options.newlineBeforeEmptyBlockEnd then
    (fragments ++ [.plain s.options.newLine.text], s)
  else (fragments, s)

/-- What stands before a statement of a body that is not the first. -/
def separator (previous stop : Stop) (next? : Option Stop) : Walk :=
  if stop.isComment && previous.range.stop.line == stop.range.start.line then text " "
  else if (stop.isComment && next?.any Stop.isDeclaration) ||
      (stop.isDeclaration && !previous.isComment) then lineBreak ++ newLine
  else newLine

/-- The statements of a body behind `previous`. -/
def bodyItems (previous : Stop) : List Stop → Walk
  | [] => nothing
  | stop :: rest => separator previous stop rest.head? ++ stop.walk ++ bodyItems stop rest

/-- The statements of a file or of a namespace. -/
def body : List Stop → Walk
  | [] => nothing
  | stop :: rest => stop.walk ++ bodyItems stop rest

/-- The elements of an array behind `previous`. -/
def arrayItems (previous : Range) : List Stop → Walk
  | [] => nothing
  | stop :: rest =>
    (if stop.joins previous then text " " else newLine) ++ stop.walk ++ stop.comma rest ++
      arrayItems stop.range rest

/-- An array literal at the given range. -/
def array (range : Range) (opening : Token) (stops : List Stop) (closing : Token) : Walk :=
  token opening ++ within (.node range) (deeper (arrayItems opening.range stops)) ++
    (if stops.isEmpty then nothing else newLine) ++ token closing

/-- The members of a record behind `previous`. -/
def recordItems (previous : Range) : List Stop → Walk
  | [] => nothing
  | stop :: rest =>
    (if stop.joins previous then text " " else indent) ++ stop.walk ++ stop.comma rest ++
      (if rest.head?.any (Stop.joins stop.range) then nothing else lineBreak) ++
      recordItems stop.range rest

/-- A record literal at the given range. -/
def record (range : Range) (opening : Token) (stops : List Stop) (closing : Token) : Walk :=
  token opening ++
    (if stops.isEmpty || stops.head?.any (Stop.joins opening.range) then nothing else lineBreak) ++
    within (.node range) (deeper (recordItems opening.range stops)) ++
    (if stops.isEmpty then nothing else indent) ++ token closing

/-! ## Names and template strings -/

/-- A bare name; inside a namespace it may be that of a function of the namespace. -/
def reference (name : Token) : Walk := fun s =>
  match s.enclosingNamespace? with
  | none => token name s
  | some enclosing =>
    if s.resolver.isNamespaceFunction name.text (some (enclosing.text .dotted)) then
      source name.start (enclosing.text .flattened ++ "_" ++ name.text) s
    else token name s

/-- The name of a function that is declared where the walk is. -/
def declared (name : Token) : Walk := fun s =>
  match s.enclosingName? .flattened with
  | some enclosing => source name.start (enclosing ++ "_" ++ name.text) s
  | none => token name s

/-- The operands for a text of a template string. -/
def textOperands (position : Position) : (lines : List String) → List Walk
  | [] => []
  | [line] => literal line
  | line :: next :: rest => literal line ++ text "chr(10)" :: textOperands position (next :: rest)
where
  /-- The literal of a line, if there is anything in it. -/
  literal (line : String) : List Walk :=
    if line.isEmpty then [] else [source position (Text.quote line)]

/-- The concatenation of the operands of a template string. -/
def concatenation (opening : Token) : (operands : List Walk) → Walk
  | [] => source opening.start (Text.quote "")
  | [operand] => operand
  | operands => text "(" ++ separated " + " operands ++ text ")"

/-! ## Deferred operands -/

/-- Looks up which variables the operands capture where the walk is. -/
def capturing (operands : List Expression) (w : List Token → Walk) : Walk := fun s =>
  w (Capture.ofOperands s.resolver (s.enclosingName? .dotted) operands) s

/-- The object that holds the captured variables under their names. -/
def scopeObject : (captured : List Token) → Walk
  | [] => text "\x7b\x7d"
  | captured =>
    text "\x7b" ++
      separated ", " (captured.map fun name =>
        text ("\"" ++ name.text ++ "\": ") ++ token name) ++ text "\x7d"

/-- The lines that bind the captured variables again. -/
def bindings : (captured : List Token) → Walk
  | [] => nothing
  | name :: rest =>
    newLine ++ text (name.text ++ " = scope[\"" ++ name.text ++ "\"]") ++ bindings rest

/-- The function literal that binds the captured variables and returns the operand. -/
def deferred (captured : List Token) (operand : Walk) : Walk :=
  text "function(scope)" ++
    deeper (bindings captured ++ newLine ++ text "return " ++ operand) ++
    newLine ++ text "end function"

end Walk

/-! ## Nodes -/

namespace TypeClause

/-- The clause behind a space, if there is one. -/
def walk : Option TypeClause → Walk
  | none => .nothing
  | some clause => .text " " ++ .token clause.asToken ++ .text " " ++ .token clause.type

end TypeClause

namespace Comment

/-- The lines of a comment behind the first. -/
def walkLines : List Token → Walk
  | [] => .nothing
  | token :: rest => .newLine ++ .token token ++ walkLines rest

/-- The lines of a comment. -/
def walk (c : Comment) : Walk := .token c.first ++ walkLines c.others

end Comment

namespace Expression

/-- A literal as it was written, a string literal in its canonical form. -/
def walkLiteral (token : Token) : Walk :=
  if token.kind = .stringLiteral then .source token.start (Text.quote (Text.unquote token.text))
  else .token token

end Expression

mutual

/-- The walk through an expression. -/
def Expression.walk : Expression → Walk
  | .binary left operator right =>
    left.walk ++ .text " " ++ .token operator ++ .text " " ++ right.walk
  | .unary operator operand => .token operator ++ .text " " ++ operand.walk
  | .call callee opening arguments closing =>
    callee.walk ++ .token opening ++ .separated ", " (walkArguments arguments) ++ .token closing
  | .callfunc receiver operator method opening arguments closing =>
    receiver.walk ++ .source operator.start ".callfunc" ++ .token opening ++
      .source method.start ("\"" ++ method.text ++ "\"") ++
      (if arguments.isEmpty then .text ", invalid"
        else .text ", " ++ .separated ", " (walkArguments arguments)) ++
      .token closing
  | .function literal => literal.walk none
  | .member object dot name =>
    let access : Walk := object.walk ++ .token dot ++ .token name
    match (DottedName.ofExpression? object).map (·.extend ⟨dot, name⟩) with
    | none => access
    | some chain => fun s =>
      if s.resolver.startsWithNamespace chain.parts then
        Walk.source chain.root.start (chain.text .flattened) s
      else access s
  | .identifier name => .reference name
  | .index object opening key closing =>
    object.walk ++ .token opening ++ key.walk ++ .token closing
  | .xmlAttribute object sign name => object.walk ++ .token sign ++ .token name
  | .group opening inner closing => .token opening ++ inner.walk ++ .token closing
  | .literal token => Expression.walkLiteral token
  | .array opening elements closing =>
    .array (Expression.array opening elements closing).range opening (elementStops elements) closing
  | .record opening members closing =>
    .record (Expression.record opening members closing).range opening (memberStops members) closing
  | .construct _ className opening arguments closing =>
    .source className.start (className.text .flattened) ++ .token opening ++
      .separated ", " (walkArguments arguments) ++ .token closing
  | .conditional test question consequent _ alternate =>
    if consequent.containsMutating || alternate.containsMutating then
      .helper question.start .scopeSafeTernary ++
        .capturing [consequent, alternate] fun captured =>
          .text "(" ++ test.walk ++ .text ", " ++ .scopeObject captured ++ .text ", " ++
            .deferred captured consequent.walk ++ .text ", " ++
            .deferred captured alternate.walk ++ .text ")"
    else
      .helper question.start .simpleTernary ++ .text "(" ++ test.walk ++ .text ", " ++
        consequent.walk ++ .text ", " ++ alternate.walk ++ .text ")"
  | .coalesce left operator right =>
    if left.containsMutating || right.containsMutating then
      .helper operator.start .scopeSafeCoalesce ++
        .capturing [right] fun captured =>
          .text "(" ++ left.walk ++ .text ", " ++ .scopeObject captured ++ .text ", " ++
            .deferred captured right.walk ++ .text ")"
    else
      .helper operator.start .simpleCoalesce ++ .text "(" ++ left.walk ++ .text ", " ++
        right.walk ++ .text ")"
  | .template opening parts _ => .concatenation opening (walkParts parts)
  | .comment comment => comment.walk

/-- The walk through each argument of a call. -/
def walkArguments : List Expression → List Walk
  | [] => []
  | argument :: rest => argument.walk :: walkArguments rest

/-- The items of an array. -/
def elementStops : List Expression → List Walk.Stop
  | [] => []
  | element :: rest =>
    ⟨element.range, if element.isComment then .comment else .code, element.walk⟩ ::
      elementStops rest

/-- The items of a record. -/
def memberStops : List Member → List Walk.Stop
  | [] => []
  | .pair key colon value :: rest =>
    ⟨(Member.pair key colon value).range, .code,
      .token key ++ .token colon ++ .text " " ++ value.walk⟩ :: memberStops rest
  | .comment comment :: rest => ⟨comment.range, .comment, comment.walk⟩ :: memberStops rest

/-- The walk through each operand of a template string. -/
def walkParts : List TemplatePart → List Walk
  | [] => []
  | .text token :: rest =>
    Walk.textOperands token.start (Text.lines token.text) ++ walkParts rest
  | .expression expression :: rest =>
    (.helper expression.range.start .toText ++ .text "(" ++ expression.walk ++ .text ")") ::
      walkParts rest

/-- The walk through each parameter of a function. -/
def walkParameters : List Parameter → List Walk
  | [] => []
  | ⟨name, none, type?⟩ :: rest =>
    (.token name ++ TypeClause.walk type?) :: walkParameters rest
  | ⟨name, some value, type?⟩ :: rest =>
    (.token name ++ .text " = " ++ value.walk ++ TypeClause.walk type?) :: walkParameters rest

/-- The walk through a function, with its name if it has one. -/
def FunctionLiteral.walk (name? : Option Walk) : FunctionLiteral → Walk
  | ⟨keyword, opening, parameters, closing, returnType?, body, endToken⟩ =>
    let range := (FunctionLiteral.mk keyword opening parameters closing returnType? body
      endToken).range
    .token keyword ++
      (match name? with
        | none => .nothing
        | some name => .text " " ++ name) ++
      .token opening ++ .separated ", " (walkParameters parameters) ++ .token closing ++
      TypeClause.walk returnType? ++ .within (.node range) body.walk ++ .newLine ++ .token endToken

/-- The walk through a block. -/
def Block.walk : Block → Walk
  | ⟨start, statements⟩ => .block (Block.mk start statements).range (statementStops statements)

/-- The items of a sequence of statements. -/
def statementStops : List Statement → List Walk.Stop
  | [] => []
  | statement :: rest =>
    ⟨statement.range, statement.role, statement.walk⟩ :: statementStops rest

/-- The walk through `else if` clauses. -/
def walkElseIfs : List ElseIf → Walk
  | [] => .nothing
  | ⟨keyword, condition, then?, body⟩ :: rest =>
    let range := (ElseIf.mk keyword condition then? body).range
    .indent ++ .token keyword ++ .text " " ++ condition.walk ++ .text " " ++
      .tokenOr "then" then? ++ .branch (.within (.node range) body.walk) ++ walkElseIfs rest

/-- The walk through each expression of a `print` statement. -/
def walkItems : List PrintItem → List Walk
  | [] => []
  | .expression expression :: rest => expression.walk :: walkItems rest
  | .separator _ :: rest => walkItems rest

/-- The walk through an assignment. -/
def Assignment.walk : Assignment → Walk
  | ⟨name, operator, value⟩ =>
    .token name ++ .text " " ++ .token operator ++ .text " " ++ value.walk

/-- The walk through a statement. -/
def Statement.walk : Statement → Walk
  | .assignment assignment => assignment.walk
  | .expression expression => expression.walk
  | .comment comment => comment.walk
  | .branch keyword condition then? body elseIfs else? end? =>
    let range := (Statement.branch keyword condition then? body elseIfs else? end?).range
    .token keyword ++ .text " " ++ condition.walk ++ .text " " ++ .tokenOr "then" then? ++
      .branch (.within (.node range) body.walk) ++ walkElseIfs elseIfs ++
      (match else? with
        | none => .nothing
        | some ⟨elseToken, otherwise⟩ =>
          .indent ++ .token elseToken ++
            .branch (.within (.node (Else.mk elseToken otherwise).range) otherwise.walk)) ++
      .indent ++ .tokenOr "end if" end?
  | .forLoop keyword counter toToken limit step? body endToken =>
    let range := (Statement.forLoop keyword counter toToken limit step? body endToken).range
    .token keyword ++ .text " " ++ counter.walk ++ .text " " ++ .token toToken ++ .text " " ++
      limit.walk ++
      (match step? with
        | none => .nothing
        | some ⟨stepToken, amount⟩ =>
          .text " " ++ .token stepToken ++ .text " " ++ amount.walk) ++
      .branch (.within (.node range) body.walk) ++ .indent ++ .token endToken
  | .forEach keyword item inToken target body endToken =>
    let range := (Statement.forEach keyword item inToken target body endToken).range
    .token keyword ++ .text " " ++ .token item ++ .text " " ++ .token inToken ++ .text " " ++
      target.walk ++ .branch (.within (.node range) body.walk) ++ .indent ++ .token endToken
  | .whileLoop keyword condition body endToken =>
    let range := (Statement.whileLoop keyword condition body endToken).range
    .token keyword ++ .text " " ++ condition.walk ++ .within (.node range) body.walk ++
      .newLine ++ .token endToken
  | .memberSet object dot name value =>
    object.walk ++ .token dot ++ .token name ++ .text " = " ++ value.walk
  | .indexSet object opening key closing value =>
    object.walk ++ .token opening ++ key.walk ++ .token closing ++ .text " = " ++ value.walk
  | .increment value operator => value.walk ++ .token operator
  | .print keyword items =>
    let operands := walkItems items
    .token keyword ++
      (if operands.isEmpty then .nothing else .text " " ++ .separated " ; " operands)
  | .goto keyword label => .token keyword ++ .text " " ++ .token label
  | .label name colon => .token name ++ .token colon
  | .returning keyword none => .token keyword
  | .returning keyword (some value) => .token keyword ++ .text " " ++ value.walk
  | .keyword word token => .source token.start word.text
  | .library keyword path => .token keyword ++ .text " " ++ .token path
  | .function name literal => literal.walk (some (.declared name))
  | .namespaceBlock keyword name body endToken =>
    .within
      (.namespaceBlock (Statement.namespaceBlock keyword name body endToken).range name)
      (.body (statementStops body))
  | .importFile keyword path =>
    .text "'" ++ .token keyword ++ .text " " ++ .token path
  | .tryCatch keyword body catchToken exceptionName handler endToken =>
    let range := (Statement.tryCatch keyword body catchToken exceptionName handler endToken).range
    .token keyword ++ .within (.node range) body.walk ++ .newLine ++ .token catchToken ++
      .text " " ++ .token exceptionName ++
      .within (.node (catchToken.range.cover exceptionName.range)) handler.walk ++
      .newLine ++ .token endToken
  | .throwing keyword value => .token keyword ++ .text " " ++ value.walk

end

/-- The walk through the statements of a file or of a namespace. -/
def Body.walk (body : Body) : Walk := .body (statementStops body)

namespace Tree

/-- The walk through a tree. -/
def walk : Tree → Walk
  | body b => Body.walk b
  | block b => b.walk
  | statement s => s.walk
  | expression e => e.walk

end Tree

end Downlevel
