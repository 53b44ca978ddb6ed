import Downlevel.Capture
import Downlevel.Layout
import Downlevel.Tree.Range

/-!
# Emission

The pieces that are written for a node. They depend on the node, on the resolver and on the
namespace around the node, and on nothing else: how deep the node lies and how the options want
things written is decided when pieces are rendered.

Most forms are written as they stand in the source, part by part, with a canonical space where
words meet. For the forms that the target language lacks, something else is written:

* a dotted name that starts with a namespace becomes one flattened identifier, and so do the name
  of a function that is declared in a namespace and a bare reference to it from inside;
* `new Name(arguments)` is a call of the flattened name;
* `node@.method(arguments)` is a call of `callfunc` with the method's name;
* `?:` and `??` are calls of helpers. Operands that may be skipped are deferred if evaluating one
  of them may have a side effect;
* a template string is a concatenation;
* a namespace is its statements, and an import is a comment.
-/

namespace Downlevel

/-- What emission has to know about the surroundings of a node. -/
structure Scope where
  resolver : Resolver
  /-- The parts of the name of the innermost namespace around the node. -/
  enclosing : Option (List String) := none

namespace Scope

/-- The name of the innermost namespace. -/
def enclosingName (scope : Scope) (style : NameStyle) : Option String :=
  scope.enclosing.map style.spell

/-- The scope inside a namespace of the given name. -/
def inside (scope : Scope) (name : DottedName) : Scope := { scope with enclosing := name.parts }

/-- The global name of a function that is declared here. -/
def declaredName (scope : Scope) (name : String) : String :=
  match scope.enclosingName .flattened with
  | none => name
  | some enclosing => enclosing ++ "_" ++ name

/-- The name is that of a function of the innermost namespace. -/
def isSibling (scope : Scope) (name : String) : Bool :=
  match scope.enclosingName .dotted with
  | none => false
  | some enclosing => scope.resolver.isNamespaceFunction name (some enclosing)

/-- The global name that a bare name stands for here. -/
def referredName (scope : Scope) (name : String) : String :=
  if scope.isSibling name then scope.declaredName name else name

/-- The variables that operands capture here. -/
def captured (scope : Scope) (operands : List Expression) : List Token :=
  Capture.ofOperands scope.resolver (scope.enclosingName .dotted) operands

end Scope

/-! ## Parts without sub-expressions -/

namespace TypeClause

/-- The clause behind a space, if there is one. -/
def pieces : Option TypeClause → List Piece
  | none => []
  | some clause => [.text " ", clause.asToken.piece, .text " ", clause.type.piece]

end TypeClause

namespace Comment

/-- The lines of a comment; every line but the first starts a line. -/
def pieces (c : Comment) : List Piece :=
  .comment c.first.start c.first.text ::
    c.others.flatMap fun token => Piece.newLine ++ [.comment token.start token.text]

end Comment

namespace KeywordStatement

/-- The canonical spelling. -/
def text : KeywordStatement → String
  | endProgram => "end"
  | stopProgram => "stop"
  | exitFor => "exit for"
  | exitWhile => "exit while"

end KeywordStatement

namespace Expression

/-- A literal as it was written, a string literal in its canonical form. -/
def literalPiece (token : Token) : Piece :=
  if token.kind = .stringLiteral then .written token.start (Text.quote (Text.unquote token.text))
  else token.piece

end Expression

namespace Statement

/-- What a statement is to its neighbours. -/
def role : Statement → Role
  | comment _ => .comment
  | function .. => .declaration
  | _ => .code

end Statement

/-! ## Nodes -/

mutual

/-- The pieces of an expression. -/
def Expression.emit (scope : Scope) : Expression → List Piece
  | .binary left operator right =>
    left.emit scope ++ [.text " ", operator.piece, .text " "] ++ right.emit scope
  | .unary operator operand => [operator.piece, .text " "] ++ operand.emit scope
  | .call callee opening arguments closing =>
    callee.emit scope ++ [opening.piece] ++
      Piece.separated ", " (emitArguments scope arguments) ++ [closing.piece]
  | .callfunc receiver operator method opening arguments closing =>
    receiver.emit scope ++ [.written operator.start ".callfunc", opening.piece,
      .written method.start ("\"" ++ method.text ++ "\"")] ++
      (if arguments.isEmpty then [.text ", invalid"]
        else .text ", " :: Piece.separated ", " (emitArguments scope arguments)) ++
      [closing.piece]
  | .function literal => literal.emit scope none
  | .member object dot name =>
    match (DottedName.ofExpression? object).map (·.extend ⟨dot, name⟩) with
    | none => object.emit scope ++ [dot.piece, name.piece]
    | some chain =>
      if scope.resolver.startsWithNamespace chain.parts then
        [.written chain.root.start (chain.text .flattened)]
      else object.emit scope ++ [dot.piece, name.piece]
  | .identifier name => [.written name.start (scope.referredName name.text)]
  | .index object opening key closing =>
    object.emit scope ++ [opening.piece] ++ key.emit scope ++ [closing.piece]
  | .xmlAttribute object sign name => object.emit scope ++ [sign.piece, name.piece]
  | .group opening inner closing => [opening.piece] ++ inner.emit scope ++ [closing.piece]
  | .literal token => [Expression.literalPiece token]
  | .array opening elements closing => Layout.array opening (elementItems scope elements) closing
  | .record opening members closing => Layout.record opening (memberItems scope members) closing
  | .construct _ className opening arguments closing =>
    [.written className.start (className.text .flattened), opening.piece] ++
      Piece.separated ", " (emitArguments scope arguments) ++ [closing.piece]
  | .conditional test question consequent _ alternate =>
    if consequent.containsMutating || alternate.containsMutating then
      let captured := scope.captured [consequent, alternate]
      [.helper question.start .scopeSafeTernary, .text "("] ++ test.emit scope ++ [.text ", "] ++
        Capture.scopeObject captured ++ [.text ", "] ++
        Capture.deferred captured (consequent.emit scope) ++ [.text ", "] ++
        Capture.deferred captured (alternate.emit scope) ++ [.text ")"]
    else
      [.helper question.start .simpleTernary, .text "("] ++ test.emit scope ++ [.text ", "] ++
        consequent.emit scope ++ [.text ", "] ++ alternate.emit scope ++ [.text ")"]
  | .coalesce left operator right =>
    if left.containsMutating || right.containsMutating then
      let captured := scope.captured [right]
      [.helper operator.start .scopeSafeCoalesce, .text "("] ++ left.emit scope ++
        [.text ", "] ++ Capture.scopeObject captured ++ [.text ", "] ++
        Capture.deferred captured (right.emit scope) ++ [.text ")"]
    else
      [.helper operator.start .simpleCoalesce, .text "("] ++ left.emit scope ++ [.text ", "] ++
        right.emit scope ++ [.text ")"]
  | .template opening parts _ => Layout.concatenation opening (templateOperands scope parts)
  | .comment comment => comment.pieces

/-- The pieces of each argument of a call. -/
def emitArguments (scope : Scope) : List Expression → List (List Piece)
  | [] => []
  | argument :: rest => argument.emit scope :: emitArguments scope rest

/-- The items of an array. -/
def elementItems (scope : Scope) : List Expression → List Item
  | [] => []
  | element :: rest =>
    ⟨element.range, if element.isComment then .comment else .code, element.emit scope⟩ ::
      elementItems scope rest

/-- The items of a record. -/
def memberItems (scope : Scope) : List Member → List Item
  | [] => []
  | .pair key colon value :: rest =>
    ⟨(Member.pair key colon value).range, .code,
      [key.piece, colon.piece, .text " "] ++ value.emit scope⟩ :: memberItems scope rest
  | .comment comment :: rest =>
    ⟨comment.range, .comment, comment.pieces⟩ :: memberItems scope rest

/-- The operands of a template string. -/
def templateOperands (scope : Scope) : List TemplatePart → List (List Piece)
  | [] => []
  | .text token :: rest =>
    Layout.textOperands token.start (Text.lines token.text) ++ templateOperands scope rest
  | .expression expression :: rest =>
    ([.helper expression.range.start .toText, .text "("] ++ expression.emit scope ++
      [.text ")"]) :: templateOperands scope rest

/-- The pieces of each parameter of a function. -/
def emitParameters (scope : Scope) : List Parameter → List (List Piece)
  | [] => []
  | ⟨name, none, type?⟩ :: rest =>
    ([name.piece] ++ TypeClause.pieces type?) :: emitParameters scope rest
  | ⟨name, some value, type?⟩ :: rest =>
    ([name.piece, .text " = "] ++ value.emit scope ++ TypeClause.pieces type?) ::
      emitParameters scope rest

/-- The pieces of a function, with its name if it has one. -/
def FunctionLiteral.emit (scope : Scope) (name? : Option Piece) : FunctionLiteral → List Piece
  | ⟨keyword, opening, parameters, closing, returnType?, body, endToken⟩ =>
    let range := (FunctionLiteral.mk keyword opening parameters closing returnType? body
      endToken).range
    [keyword.piece] ++
      (match name? with
        | none => []
        | some name => [.text " ", name]) ++
      [opening.piece] ++ Piece.separated ", " (emitParameters scope parameters) ++
      [closing.piece] ++ TypeClause.pieces returnType? ++ body.emit scope range.start.line ++
      Piece.newLine ++ [endToken.piece]

/-- The pieces of a block, whose owner opens on the given line. -/
def Block.emit (scope : Scope) (ownerLine? : Option Nat) : Block → List Piece
  | ⟨_, statements⟩ => Layout.block ownerLine? (statementItems scope statements)

/-- The items of a sequence of statements. -/
def statementItems (scope : Scope) : List Statement → List Item
  | [] => []
  | statement :: rest =>
    ⟨statement.range, statement.role, statement.emit scope⟩ :: statementItems scope rest

/-- The pieces of `else if` clauses. -/
def emitElseIfs (scope : Scope) : List ElseIf → List Piece
  | [] => []
  | ⟨keyword, condition, then?, body⟩ :: rest =>
    let range := (ElseIf.mk keyword condition then? body).range
    [.indent 0, keyword.piece, .text " "] ++ condition.emit scope ++
      [.text " ", Token.pieceOr "then" then?] ++
      Layout.branch (body.emit scope range.start.line) ++ emitElseIfs scope rest

/-- The pieces of each expression of a `print` statement. The separators are not written: the
alignment of columns is not kept. -/
def emitItems (scope : Scope) : List PrintItem → List (List Piece)
  | [] => []
  | .expression expression :: rest => expression.emit scope :: emitItems scope rest
  | .separator _ :: rest => emitItems scope rest

/-- The pieces of an assignment. -/
def Assignment.emit (scope : Scope) : Assignment → List Piece
  | ⟨name, operator, value⟩ =>
    [name.piece, .text " ", operator.piece, .text " "] ++ value.emit scope

/-- The pieces of a statement. -/
def Statement.emit (scope : Scope) : Statement → List Piece
  | .assignment assignment => assignment.emit scope
  | .expression expression => expression.emit scope
  | .comment comment => comment.pieces
  | .branch keyword condition then? body elseIfs else? end? =>
    let range := (Statement.branch keyword condition then? body elseIfs else? end?).range
    [keyword.piece, .text " "] ++ condition.emit scope ++
      [.text " ", Token.pieceOr "then" then?] ++
      Layout.branch (body.emit scope range.start.line) ++ emitElseIfs scope elseIfs ++
      (match else? with
        | none => []
        | some ⟨elseToken, otherwise⟩ =>
          [.indent 0, elseToken.piece] ++
            Layout.branch
              (otherwise.emit scope (Else.mk elseToken otherwise).range.start.line)) ++
      [.indent 0, Token.pieceOr "end if" end?]
  | .forLoop keyword counter toToken limit step? body endToken =>
    let range := (Statement.forLoop keyword counter toToken limit step? body endToken).range
    [keyword.piece, .text " "] ++ counter.emit scope ++
      [.text " ", toToken.piece, .text " "] ++ limit.emit scope ++
      (match step? with
        | none => []
        | some ⟨stepToken, amount⟩ =>
          [.text " ", stepToken.piece, .text " "] ++ amount.emit scope) ++
      Layout.branch (body.emit scope range.start.line) ++ [.indent 0, endToken.piece]
  | .forEach keyword item inToken target body endToken =>
    let range := (Statement.forEach keyword item inToken target body endToken).range
    [keyword.piece, .text " ", item.piece, .text " ", inToken.piece, .text " "] ++
      target.emit scope ++ Layout.branch (body.emit scope range.start.line) ++
      [.indent 0, endToken.piece]
  | .whileLoop keyword condition body endToken =>
    let range := (Statement.whileLoop keyword condition body endToken).range
    [keyword.piece, .text " "] ++ condition.emit scope ++ body.emit scope range.start.line ++
      Piece.newLine ++ [endToken.piece]
  | .memberSet object dot name value =>
    object.emit scope ++ [dot.piece, name.piece, .text " = "] ++ value.emit scope
  | .indexSet object opening key closing value =>
    object.emit scope ++ [opening.piece] ++ key.emit scope ++ [closing.piece, .text " = "] ++
      value.emit scope
  | .increment value operator => value.emit scope ++ [operator.piece]
  | .print keyword items =>
    let operands := emitItems scope items
    [keyword.piece] ++
      (if operands.isEmpty then [] else .text " " :: Piece.separated " ; " operands)
  | .goto keyword label => [keyword.piece, .text " ", label.piece]
  | .label name colon => [name.piece, colon.piece]
  | .returning keyword none => [keyword.piece]
  | .returning keyword (some value) => [keyword.piece, .text " "] ++ value.emit scope
  | .keyword word token => [.written token.start word.text]
  | .library keyword path => [keyword.piece, .text " ", path.piece]
  | .function name literal =>
    literal.emit scope (some (.written name.start (scope.declaredName name.text)))
  | .namespaceBlock _ name body _ => Layout.body (statementItems (scope.inside name) body)
  | .importFile keyword path =>
    [.text "'", .commentedOut keyword.start keyword.text, .text " ",
      .commentedOut path.start path.text]
  | .tryCatch keyword body catchToken exceptionName handler endToken =>
    let range := (Statement.tryCatch keyword body catchToken exceptionName handler endToken).range
    [keyword.piece] ++ body.emit scope range.start.line ++ Piece.newLine ++
      [catchToken.piece, .text " ", exceptionName.piece] ++
      handler.emit scope (catchToken.range.cover exceptionName.range).start.line ++
      Piece.newLine ++ [endToken.piece]
  | .throwing keyword value => [keyword.piece, .text " "] ++ value.emit scope

end

/-- The pieces of the statements of a file or of a namespace. -/
def Body.emit (scope : Scope) (body : Body) : List Piece := Layout.body (statementItems scope body)

end Downlevel
