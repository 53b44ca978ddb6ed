import Downlevel.Tree.Comment
import Downlevel.Tree.DottedName

/-!
# Syntax trees

The trees of the source language: expressions, statements and what they consist of. The source
language is a superset of the target language; the forms that the target does not know are
`callfunc`, `construct`, `conditional`, `coalesce`, `template`, `namespaceBlock` and `importFile`.

Every node keeps its tokens, because emitted text is the tokens' text and maps back to their
positions. A node's range is not stored: it is a function of its parts (`Tree.Range`).

The parts of a node are in the order in which they are written, but nothing here says that their
positions are.
-/

namespace Downlevel

/-- The clause `as type`. -/
structure TypeClause where
  asToken : Token
  type : Token
  deriving DecidableEq, Inhabited

namespace TypeClause

/-- The range of both tokens. -/
def range (clause : TypeClause) : Range := clause.asToken.range.cover clause.type.range

end TypeClause

/-- A statement that is a single keyword. -/
inductive KeywordStatement where
  | endProgram
  | stopProgram
  | exitFor
  | exitWhile
  deriving DecidableEq, Inhabited

mutual

/-- An expression. -/
inductive Expression where
  /-- Operation `left operator right`. -/
  | binary (left : Expression) (operator : Token) (right : Expression)
  /-- Operation `operator operand`. -/
  | unary (operator : Token) (operand : Expression)
  /-- Call `callee(arguments)`. -/
  | call (callee : Expression) (opening : Token) (arguments : List Expression) (closing : Token)
  /-- Call `receiver@.method(arguments)`, on another component. -/
  | callfunc (receiver : Expression) (operator method opening : Token)
      (arguments : List Expression) (closing : Token)
  /-- A function without a name. -/
  | function (literal : FunctionLiteral)
  /-- Access `object.name`. -/
  | member (object : Expression) (dot name : Token)
  /-- A bare name. -/
  | identifier (name : Token)
  /-- Access `object[key]`. -/
  | index (object : Expression) (opening : Token) (key : Expression) (closing : Token)
  /-- Access `object@name` to an attribute of an XML element. -/
  | xmlAttribute (object : Expression) (sign name : Token)
  /-- Expression in parentheses. -/
  | group (opening : Token) (inner : Expression) (closing : Token)
  /-- A string, a number, a truth value or `invalid`. -/
  | literal (token : Token)
  /-- Array `[elements]`; comments may stand among the elements. -/
  | array (opening : Token) (elements : List Expression) (closing : Token)
  /-- Record `{members}`. -/
  | record (opening : Token) (members : List Member) (closing : Token)
  /-- Constructor call `new Name.Space.Class(arguments)`. -/
  | construct (keyword : Token) (className : DottedName) (opening : Token)
      (arguments : List Expression) (closing : Token)
  /-- Choice `test ? consequent : alternate`. -/
  | conditional (test : Expression) (question : Token) (consequent : Expression) (colon : Token)
      (alternate : Expression)
  /-- Fallback `left ?? right`. -/
  | coalesce (left : Expression) (operator : Token) (right : Expression)
  /-- A text with expressions in it. -/
  | template (opening : Token) (parts : List TemplatePart) (closing : Token)
  /-- A comment among the elements of an array. -/
  | comment (comment : Comment)

/-- Parameter `name = default as type`. -/
structure Parameter where
  name : Token
  default? : Option Expression
  type? : Option TypeClause

/-- From `function(parameters) as type` over the body to the closing keyword. -/
structure FunctionLiteral where
  keyword : Token
  opening : Token
  parameters : List Parameter
  closing : Token
  returnType? : Option TypeClause
  body : Block
  endToken : Token

/-- A member of a record literal. -/
inductive Member where
  /-- Pair `key: value`. -/
  | pair (key colon : Token) (value : Expression)
  | comment (comment : Comment)

/-- A part of a template string. -/
inductive TemplatePart where
  /-- Text as it was written. -/
  | text (token : Token)
  /-- An expression whose value stands in the text. -/
  | expression (expression : Expression)

/-- Assignment `name = value`, or a compound form such as `name += value`. -/
structure Assignment where
  name : Token
  operator : Token
  value : Expression

/-- The statements that belong to a compound statement or a function. The block opens at `start`,
behind the header of its owner, so that an empty block has a place, too. -/
structure Block where
  start : Position
  statements : List Statement

/-- The clause `else if condition then`, with a block. -/
structure ElseIf where
  keyword : Token
  condition : Expression
  then? : Option Token
  body : Block

/-- The clause `else`, with a block. -/
structure Else where
  keyword : Token
  body : Block

/-- The clause `step amount`. -/
structure ForStep where
  keyword : Token
  amount : Expression

/-- A part of a `print` statement. -/
inductive PrintItem where
  | expression (expression : Expression)
  /-- A semicolon or a comma between expressions. -/
  | separator (token : Token)

/-- A statement. -/
inductive Statement where
  | assignment (assignment : Assignment)
  | expression (expression : Expression)
  | comment (comment : Comment)
  /-- From `if condition then` over the branches to `end if`; `then` and `end if` may be left
  out. -/
  | branch (keyword : Token) (condition : Expression) (then? : Option Token) (body : Block)
      (elseIfs : List ElseIf) (else? : Option Else) (end? : Option Token)
  /-- From `for counter to limit step amount` over a block to `end for`. -/
  | forLoop (keyword : Token) (counter : Assignment) (toToken : Token) (limit : Expression)
      (step? : Option ForStep) (body : Block) (endToken : Token)
  /-- From `for each item in target` over a block to `end for`. -/
  | forEach (keyword item inToken : Token) (target : Expression) (body : Block) (endToken : Token)
  /-- From `while condition` over a block to `end while`. -/
  | whileLoop (keyword : Token) (condition : Expression) (body : Block) (endToken : Token)
  /-- Assignment `object.name = value`. -/
  | memberSet (object : Expression) (dot name : Token) (value : Expression)
  /-- Assignment `object[key] = value`. -/
  | indexSet (object : Expression) (opening : Token) (key : Expression) (closing : Token)
      (value : Expression)
  /-- Statement `value++` or `value--`. -/
  | increment (value : Expression) (operator : Token)
  /-- Statement `print` with its items. -/
  | print (keyword : Token) (items : List PrintItem)
  /-- Statement `goto label`. -/
  | goto (keyword label : Token)
  /-- Label `name:`. -/
  | label (name colon : Token)
  /-- Statement `return value`; the value may be left out. -/
  | returning (keyword : Token) (value? : Option Expression)
  /-- Single keyword, however the token spells it. -/
  | keyword (word : KeywordStatement) (token : Token)
  /-- Statement `library "path"`. -/
  | library (keyword path : Token)
  /-- A function with a name. -/
  | function (name : Token) (literal : FunctionLiteral)
  /-- From `namespace A.B` over its statements to `end namespace`. -/
  | namespaceBlock (keyword : Token) (name : DottedName) (body : List Statement)
      (endToken : Token)
  /-- Statement `import "path"`. -/
  | importFile (keyword path : Token)
  /-- From `try` over a block, `catch exceptionName` and a block to `end try`. -/
  | tryCatch (keyword : Token) (body : Block) (catchToken exceptionName : Token)
      (handler : Block) (endToken : Token)
  /-- Statement `throw value`. -/
  | throwing (keyword : Token) (value : Expression)

end

/-- The statements of a file or of a namespace. -/
abbrev Body := List Statement

namespace Expression

instance : Inhabited Expression := ⟨.literal default⟩

/-- The expression is a comment among elements. -/
def isComment : Expression → Bool
  | comment _ => true
  | _ => false

end Expression

namespace Member

/-- The member is a comment. -/
def isComment : Member → Bool
  | comment _ => true
  | pair .. => false

end Member

namespace Statement

instance : Inhabited Statement := ⟨.keyword default default⟩

/-- The statement is a comment. -/
def isComment : Statement → Bool
  | comment _ => true
  | _ => false

/-- The statement declares a function. -/
def isFunction : Statement → Bool
  | function .. => true
  | _ => false

end Statement

namespace DottedName

/-- The dotted name that an expression is. -/
def ofExpression? : Expression → Option DottedName
  | .identifier name => some ⟨name, []⟩
  | .member object dot name => (ofExpression? object).map (·.extend ⟨dot, name⟩)
  | _ => none

/-- The expression that a dotted name is. -/
def toExpression (n : DottedName) : Expression :=
  n.links.foldl (fun object link => .member object link.dot link.name) (.identifier n.root)

end DottedName

end Downlevel
