import Mathlib.Order.Monotone.Basic
import Downlevel.Tree.Basic

/-!
# Trees at other places

A relocation moves lines, and within them columns, without changing the order of positions: no two
lines become one, and no line passes another. Columns may fall together. To relocate a tree is to
relocate all its tokens and the places where its blocks open.

Two relocations are of use. `Relocation.ofLines` moves lines and keeps columns, as when blank lines
are put into a file. `Relocation.columnless` forgets the columns: trees that are the same without
their columns differ in nothing but these.
-/

namespace Downlevel

/-- A map of positions that tells lines apart and keeps the order. -/
structure Relocation where
  line : Nat → Nat
  column : Nat → Nat
  strictMono_line : StrictMono line
  monotone_column : Monotone column

namespace Relocation

/-- Moves lines and keeps columns. -/
def ofLines (line : Nat → Nat) (h : StrictMono line) : Relocation := ⟨line, id, h, monotone_id⟩

/-- Keeps lines and forgets columns. -/
def columnless : Relocation := ⟨id, fun _ => 0, strictMono_id, monotone_const⟩

end Relocation

/-! ## Positions and tokens -/

def Position.relocate (r : Relocation) (p : Position) : Position :=
  ⟨r.line p.line, r.column p.column⟩

def Range.relocate (r : Relocation) (a : Range) : Range := ⟨a.start.relocate r, a.stop.relocate r⟩

def Token.relocate (r : Relocation) (t : Token) : Token := { t with range := t.range.relocate r }

def Comment.relocate (r : Relocation) (c : Comment) : Comment :=
  { c with first := c.first.relocate r, others := c.others.map (Token.relocate r) }

def TypeClause.relocate (r : Relocation) (clause : TypeClause) : TypeClause :=
  ⟨clause.asToken.relocate r, clause.type.relocate r⟩

def Link.relocate (r : Relocation) (link : Link) : Link :=
  ⟨link.dot.relocate r, link.name.relocate r⟩

def DottedName.relocate (r : Relocation) (n : DottedName) : DottedName :=
  ⟨n.root.relocate r, n.links.map (Link.relocate r)⟩

/-! ## Nodes -/

mutual

/-- The expression at the other place. -/
def Expression.relocate (r : Relocation) : Expression → Expression
  | .binary left operator right =>
    .binary (left.relocate r) (operator.relocate r) (right.relocate r)
  | .unary operator operand => .unary (operator.relocate r) (operand.relocate r)
  | .call callee opening arguments closing =>
    .call (callee.relocate r) (opening.relocate r) (relocateArguments r arguments)
      (closing.relocate r)
  | .callfunc receiver operator method opening arguments closing =>
    .callfunc (receiver.relocate r) (operator.relocate r) (method.relocate r) (opening.relocate r)
      (relocateArguments r arguments) (closing.relocate r)
  | .function literal => .function (literal.relocate r)
  | .member object dot name => .member (object.relocate r) (dot.relocate r) (name.relocate r)
  | .identifier name => .identifier (name.relocate r)
  | .index object opening key closing =>
    .index (object.relocate r) (opening.relocate r) (key.relocate r) (closing.relocate r)
  | .xmlAttribute object sign name =>
    .xmlAttribute (object.relocate r) (sign.relocate r) (name.relocate r)
  | .group opening inner closing =>
    .group (opening.relocate r) (inner.relocate r) (closing.relocate r)
  | .literal token => .literal (token.relocate r)
  | .array opening elements closing =>
    .array (opening.relocate r) (relocateArguments r elements) (closing.relocate r)
  | .record opening members closing =>
    .record (opening.relocate r) (relocateMembers r members) (closing.relocate r)
  | .construct keyword className opening arguments closing =>
    .construct (keyword.relocate r) (className.relocate r) (opening.relocate r)
      (relocateArguments r arguments) (closing.relocate r)
  | .conditional test question consequent colon alternate =>
    .conditional (test.relocate r) (question.relocate r) (consequent.relocate r)
      (colon.relocate r) (alternate.relocate r)
  | .coalesce left operator right =>
    .coalesce (left.relocate r) (operator.relocate r) (right.relocate r)
  | .template opening parts closing =>
    .template (opening.relocate r) (relocateParts r parts) (closing.relocate r)
  | .comment comment => .comment (comment.relocate r)

/-- The expressions of a list at the other place. -/
def relocateArguments (r : Relocation) : List Expression → List Expression
  | [] => []
  | argument :: rest => argument.relocate r :: relocateArguments r rest

/-- The members of a record at the other place. -/
def relocateMembers (r : Relocation) : List Member → List Member
  | [] => []
  | .pair key colon value :: rest =>
    .pair (key.relocate r) (colon.relocate r) (value.relocate r) :: relocateMembers r rest
  | .comment comment :: rest => .comment (comment.relocate r) :: relocateMembers r rest

/-- The parts of a template string at the other place. -/
def relocateParts (r : Relocation) : List TemplatePart → List TemplatePart
  | [] => []
  | .text token :: rest => .text (token.relocate r) :: relocateParts r rest
  | .expression expression :: rest => .expression (expression.relocate r) :: relocateParts r rest

/-- The parameters of a function at the other place. -/
def relocateParameters (r : Relocation) : List Parameter → List Parameter
  | [] => []
  | ⟨name, none, type?⟩ :: rest =>
    ⟨name.relocate r, none, type?.map (TypeClause.relocate r)⟩ :: relocateParameters r rest
  | ⟨name, some value, type?⟩ :: rest =>
    ⟨name.relocate r, some (value.relocate r), type?.map (TypeClause.relocate r)⟩ ::
      relocateParameters r rest

/-- The function at the other place. -/
def FunctionLiteral.relocate (r : Relocation) : FunctionLiteral → FunctionLiteral
  | ⟨keyword, opening, parameters, closing, returnType?, body, endToken⟩ =>
    ⟨keyword.relocate r, opening.relocate r, relocateParameters r parameters, closing.relocate r,
      returnType?.map (TypeClause.relocate r), body.relocate r, endToken.relocate r⟩

/-- The block at the other place. -/
def Block.relocate (r : Relocation) : Block → Block
  | ⟨start, statements⟩ => ⟨start.relocate r, relocateStatements r statements⟩

/-- The statements of a list at the other place. -/
def relocateStatements (r : Relocation) : List Statement → List Statement
  | [] => []
  | statement :: rest => statement.relocate r :: relocateStatements r rest

/-- The `else if` clauses at the other place. -/
def relocateElseIfs (r : Relocation) : List ElseIf → List ElseIf
  | [] => []
  | ⟨keyword, condition, then?, body⟩ :: rest =>
    ⟨keyword.relocate r, condition.relocate r, then?.map (Token.relocate r), body.relocate r⟩ ::
      relocateElseIfs r rest

/-- The items of a `print` statement at the other place. -/
def relocateItems (r : Relocation) : List PrintItem → List PrintItem
  | [] => []
  | .expression expression :: rest => .expression (expression.relocate r) :: relocateItems r rest
  | .separator token :: rest => .separator (token.relocate r) :: relocateItems r rest

/-- The assignment at the other place. -/
def Assignment.relocate (r : Relocation) : Assignment → Assignment
  | ⟨name, operator, value⟩ => ⟨name.relocate r, operator.relocate r, value.relocate r⟩

/-- The statement at the other place. -/
def Statement.relocate (r : Relocation) : Statement → Statement
  | .assignment assignment => .assignment (assignment.relocate r)
  | .expression expression => .expression (expression.relocate r)
  | .comment comment => .comment (comment.relocate r)
  | .branch keyword condition then? body elseIfs none end? =>
    .branch (keyword.relocate r) (condition.relocate r) (then?.map (Token.relocate r))
      (body.relocate r) (relocateElseIfs r elseIfs) none (end?.map (Token.relocate r))
  | .branch keyword condition then? body elseIfs (some ⟨elseToken, otherwise⟩) end? =>
    .branch (keyword.relocate r) (condition.relocate r) (then?.map (Token.relocate r))
      (body.relocate r) (relocateElseIfs r elseIfs)
      (some ⟨elseToken.relocate r, otherwise.relocate r⟩) (end?.map (Token.relocate r))
  | .forLoop keyword counter toToken limit none body endToken =>
    .forLoop (keyword.relocate r) (counter.relocate r) (toToken.relocate r) (limit.relocate r) none
      (body.relocate r) (endToken.relocate r)
  | .forLoop keyword counter toToken limit (some ⟨stepToken, amount⟩) body endToken =>
    .forLoop (keyword.relocate r) (counter.relocate r) (toToken.relocate r) (limit.relocate r)
      (some ⟨stepToken.relocate r, amount.relocate r⟩) (body.relocate r) (endToken.relocate r)
  | .forEach keyword item inToken target body endToken =>
    .forEach (keyword.relocate r) (item.relocate r) (inToken.relocate r) (target.relocate r)
      (body.relocate r) (endToken.relocate r)
  | .whileLoop keyword condition body endToken =>
    .whileLoop (keyword.relocate r) (condition.relocate r) (body.relocate r) (endToken.relocate r)
  | .memberSet object dot name value =>
    .memberSet (object.relocate r) (dot.relocate r) (name.relocate r) (value.relocate r)
  | .indexSet object opening key closing value =>
    .indexSet (object.relocate r) (opening.relocate r) (key.relocate r) (closing.relocate r)
      (value.relocate r)
  | .increment value operator => .increment (value.relocate r) (operator.relocate r)
  | .print keyword items => .print (keyword.relocate r) (relocateItems r items)
  | .goto keyword label => .goto (keyword.relocate r) (label.relocate r)
  | .label name colon => .label (name.relocate r) (colon.relocate r)
  | .returning keyword none => .returning (keyword.relocate r) none
  | .returning keyword (some value) => .returning (keyword.relocate r) (some (value.relocate r))
  | .keyword word token => .keyword word (token.relocate r)
  | .library keyword path => .library (keyword.relocate r) (path.relocate r)
  | .function name literal => .function (name.relocate r) (literal.relocate r)
  | .namespaceBlock keyword name body endToken =>
    .namespaceBlock (keyword.relocate r) (name.relocate r) (relocateStatements r body)
      (endToken.relocate r)
  | .importFile keyword path => .importFile (keyword.relocate r) (path.relocate r)
  | .tryCatch keyword body catchToken exceptionName handler endToken =>
    .tryCatch (keyword.relocate r) (body.relocate r) (catchToken.relocate r)
      (exceptionName.relocate r) (handler.relocate r) (endToken.relocate r)
  | .throwing keyword value => .throwing (keyword.relocate r) (value.relocate r)

end

end Downlevel
