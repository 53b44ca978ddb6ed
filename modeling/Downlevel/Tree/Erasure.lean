import Downlevel.Tree.Basic

/-!
# Trees without comments

Erasure takes the comments out of a tree: comments among statements, among the elements of arrays
and among the members of records. A comment at any other place is an expression that something else
needs, so it stays.
-/

namespace Downlevel

mutual

/-- The expression without the comments in it. -/
def Expression.erase : Expression → Expression
  | .binary left operator right => .binary left.erase operator right.erase
  | .unary operator operand => .unary operator operand.erase
  | .call callee opening arguments closing =>
    .call callee.erase opening (eraseArguments arguments) closing
  | .callfunc receiver operator method opening arguments closing =>
    .callfunc receiver.erase operator method opening (eraseArguments arguments) closing
  | .function literal => .function literal.erase
  | .member object dot name => .member object.erase dot name
  | .identifier name => .identifier name
  | .index object opening key closing => .index object.erase opening key.erase closing
  | .xmlAttribute object sign name => .xmlAttribute object.erase sign name
  | .group opening inner closing => .group opening inner.erase closing
  | .literal token => .literal token
  | .array opening elements closing => .array opening (eraseElements elements) closing
  | .record opening members closing => .record opening (eraseMembers members) closing
  | .construct keyword className opening arguments closing =>
    .construct keyword className opening (eraseArguments arguments) closing
  | .conditional test question consequent colon alternate =>
    .conditional test.erase question consequent.erase colon alternate.erase
  | .coalesce left operator right => .coalesce left.erase operator right.erase
  | .template opening parts closing => .template opening (eraseParts parts) closing
  | .comment comment => .comment comment

/-- The arguments of a call without the comments in them. -/
def eraseArguments : List Expression → List Expression
  | [] => []
  | argument :: rest => argument.erase :: eraseArguments rest

/-- The elements of an array without the comments among and in them. -/
def eraseElements : List Expression → List Expression
  | [] => []
  | element :: rest =>
    if element.isComment then eraseElements rest else element.erase :: eraseElements rest

/-- The members of a record without the comments among and in them. -/
def eraseMembers : List Member → List Member
  | [] => []
  | .comment _ :: rest => eraseMembers rest
  | .pair key colon value :: rest => .pair key colon value.erase :: eraseMembers rest

/-- The parts of a template string without the comments in them. -/
def eraseParts : List TemplatePart → List TemplatePart
  | [] => []
  | .text token :: rest => .text token :: eraseParts rest
  | .expression expression :: rest => .expression expression.erase :: eraseParts rest

/-- The parameters of a function without the comments in their defaults. -/
def eraseParameters : List Parameter → List Parameter
  | [] => []
  | ⟨name, none, type?⟩ :: rest => ⟨name, none, type?⟩ :: eraseParameters rest
  | ⟨name, some value, type?⟩ :: rest => ⟨name, some value.erase, type?⟩ :: eraseParameters rest

/-- The function without the comments in it. -/
def FunctionLiteral.erase : FunctionLiteral → FunctionLiteral
  | ⟨keyword, opening, parameters, closing, returnType?, body, endToken⟩ =>
    ⟨keyword, opening, eraseParameters parameters, closing, returnType?, body.erase, endToken⟩

/-- The block without the comments in it. -/
def Block.erase : Block → Block
  | ⟨start, statements⟩ => ⟨start, eraseStatements statements⟩

/-- The statements without the comments among and in them. -/
def eraseStatements : List Statement → List Statement
  | [] => []
  | statement :: rest =>
    if statement.isComment then eraseStatements rest
    else statement.erase :: eraseStatements rest

/-- The `else if` clauses without the comments in them. -/
def eraseElseIfs : List ElseIf → List ElseIf
  | [] => []
  | ⟨keyword, condition, then?, body⟩ :: rest =>
    ⟨keyword, condition.erase, then?, body.erase⟩ :: eraseElseIfs rest

/-- The items of a `print` statement without the comments in them. -/
def eraseItems : List PrintItem → List PrintItem
  | [] => []
  | .expression expression :: rest => .expression expression.erase :: eraseItems rest
  | .separator token :: rest => .separator token :: eraseItems rest

/-- The assignment without the comments in it. -/
def Assignment.erase : Assignment → Assignment
  | ⟨name, operator, value⟩ => ⟨name, operator, value.erase⟩

/-- The statement without the comments in it. -/
def Statement.erase : Statement → Statement
  | .assignment assignment => .assignment assignment.erase
  | .expression expression => .expression expression.erase
  | .comment comment => .comment comment
  | .branch keyword condition then? body elseIfs none end? =>
    .branch keyword condition.erase then? body.erase (eraseElseIfs elseIfs) none end?
  | .branch keyword condition then? body elseIfs (some ⟨elseToken, otherwise⟩) end? =>
    .branch keyword condition.erase then? body.erase (eraseElseIfs elseIfs)
      (some ⟨elseToken, otherwise.erase⟩) end?
  | .forLoop keyword counter toToken limit none body endToken =>
    .forLoop keyword counter.erase toToken limit.erase none body.erase endToken
  | .forLoop keyword counter toToken limit (some ⟨stepToken, amount⟩) body endToken =>
    .forLoop keyword counter.erase toToken limit.erase (some ⟨stepToken, amount.erase⟩) body.erase
      endToken
  | .forEach keyword item inToken target body endToken =>
    .forEach keyword item inToken target.erase body.erase endToken
  | .whileLoop keyword condition body endToken =>
    .whileLoop keyword condition.erase body.erase endToken
  | .memberSet object dot name value => .memberSet object.erase dot name value.erase
  | .indexSet object opening key closing value =>
    .indexSet object.erase opening key.erase closing value.erase
  | .increment value operator => .increment value.erase operator
  | .print keyword items => .print keyword (eraseItems items)
  | .goto keyword label => .goto keyword label
  | .label name colon => .label name colon
  | .returning keyword none => .returning keyword none
  | .returning keyword (some value) => .returning keyword (some value.erase)
  | .keyword word token => .keyword word token
  | .library keyword path => .library keyword path
  | .function name literal => .function name literal.erase
  | .namespaceBlock keyword name body endToken =>
    .namespaceBlock keyword name (eraseStatements body) endToken
  | .importFile keyword path => .importFile keyword path
  | .tryCatch keyword body catchToken exceptionName handler endToken =>
    .tryCatch keyword body.erase catchToken exceptionName handler.erase endToken
  | .throwing keyword value => .throwing keyword value.erase

end

end Downlevel
