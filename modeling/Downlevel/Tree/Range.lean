import Downlevel.Tree.Basic

/-!
# Ranges of nodes

The range of a node covers the parts listed for it below. Tokens between two covered parts are
left out of the lists: in a tree whose parts are in source order they lie inside anyway.
-/

namespace Downlevel

mutual

/-- The range of an expression. -/
def Expression.range : Expression → Range
  | .binary left operator right => (left.range.cover operator.range).cover right.range
  | .unary operator operand => operator.range.cover operand.range
  | .call callee opening arguments closing =>
    callee.range.coverList (opening.range :: closing.range :: argumentRanges arguments)
  | .callfunc receiver _ _ _ arguments closing =>
    receiver.range.coverList (closing.range :: argumentRanges arguments)
  | .function literal => literal.range
  | .member object _ name => object.range.cover name.range
  | .identifier name => name.range
  | .index object _ key closing => (object.range.cover key.range).cover closing.range
  | .xmlAttribute object _ name => object.range.cover name.range
  | .group opening inner closing => (opening.range.cover inner.range).cover closing.range
  | .literal token => token.range
  | .array opening elements closing =>
    opening.range.coverList (closing.range :: argumentRanges elements)
  | .record opening members closing =>
    opening.range.coverList (closing.range :: memberRanges members)
  | .construct keyword className _ arguments closing =>
    keyword.range.coverList (className.range :: closing.range :: argumentRanges arguments)
  | .conditional test _ consequent _ alternate =>
    (test.range.cover consequent.range).cover alternate.range
  | .coalesce left _ right => left.range.cover right.range
  | .template opening parts closing =>
    opening.range.coverList (closing.range :: partRanges parts)
  | .comment comment => comment.range

/-- The ranges of the expressions of a list. -/
def argumentRanges : List Expression → List Range
  | [] => []
  | argument :: rest => argument.range :: argumentRanges rest

/-- The range of a member of a record. -/
def Member.range : Member → Range
  | .pair key _ value => key.range.cover value.range
  | .comment comment => comment.range

/-- The ranges of the members of a record. -/
def memberRanges : List Member → List Range
  | [] => []
  | member :: rest => member.range :: memberRanges rest

/-- The range of a part of a template string. -/
def TemplatePart.range : TemplatePart → Range
  | .text token => token.range
  | .expression expression => expression.range

/-- The ranges of the parts of a template string. -/
def partRanges : List TemplatePart → List Range
  | [] => []
  | part :: rest => part.range :: partRanges rest

/-- The range of a function. -/
def FunctionLiteral.range : FunctionLiteral → Range
  | ⟨keyword, _, _, _, _, body, endToken⟩ =>
    (keyword.range.cover body.range).cover endToken.range

/-- The range of an assignment. -/
def Assignment.range : Assignment → Range
  | ⟨name, _, value⟩ => name.range.cover value.range

/-- The range of a block, which holds the place where it opens. -/
def Block.range : Block → Range
  | ⟨start, statements⟩ => (Range.point start).coverList (statementRanges statements)

/-- The range of an `else if` clause. -/
def ElseIf.range : ElseIf → Range
  | ⟨keyword, condition, _, body⟩ => (keyword.range.cover condition.range).cover body.range

/-- The ranges of `else if` clauses. -/
def elseIfRanges : List ElseIf → List Range
  | [] => []
  | clause :: rest => clause.range :: elseIfRanges rest

/-- The range of an `else` clause. -/
def Else.range : Else → Range
  | ⟨keyword, body⟩ => keyword.range.cover body.range

/-- The range of a `step` clause. -/
def ForStep.range : ForStep → Range
  | ⟨keyword, amount⟩ => keyword.range.cover amount.range

/-- The range of an item of a `print` statement. -/
def PrintItem.range : PrintItem → Range
  | .expression expression => expression.range
  | .separator token => token.range

/-- The ranges of the items of a `print` statement. -/
def itemRanges : List PrintItem → List Range
  | [] => []
  | item :: rest => item.range :: itemRanges rest

/-- The range of a statement. -/
def Statement.range : Statement → Range
  | .assignment assignment => assignment.range
  | .expression expression => expression.range
  | .comment comment => comment.range
  | .branch keyword condition _ body elseIfs else? end? =>
    keyword.range.coverList
      (condition.range :: body.range :: elseIfRanges elseIfs ++
        (match else? with
          | none => []
          | some clause => [clause.range]) ++
        (end?.map Token.range).toList)
  | .forLoop keyword counter _ limit step? body endToken =>
    keyword.range.coverList
      (counter.range :: limit.range :: body.range :: endToken.range ::
        (match step? with
          | none => []
          | some step => [step.range]))
  | .forEach keyword _ _ target body endToken =>
    keyword.range.coverList [target.range, body.range, endToken.range]
  | .whileLoop keyword condition body endToken =>
    keyword.range.coverList [condition.range, body.range, endToken.range]
  | .memberSet object _ _ value => object.range.cover value.range
  | .indexSet object _ key _ value => (object.range.cover key.range).cover value.range
  | .increment value operator => value.range.cover operator.range
  | .print keyword items => keyword.range.coverList (itemRanges items)
  | .goto keyword label => keyword.range.cover label.range
  | .label name colon => name.range.cover colon.range
  | .returning keyword none => keyword.range
  | .returning keyword (some value) => keyword.range.cover value.range
  | .keyword _ token => token.range
  | .library keyword path => keyword.range.cover path.range
  | .function name literal => name.range.cover literal.range
  | .namespaceBlock keyword name body endToken =>
    keyword.range.coverList (name.range :: endToken.range :: statementRanges body)
  | .importFile keyword path => keyword.range.cover path.range
  | .tryCatch keyword body _ _ handler endToken =>
    keyword.range.coverList [body.range, handler.range, endToken.range]
  | .throwing keyword value => keyword.range.cover value.range

/-- The ranges of the statements of a list. -/
def statementRanges : List Statement → List Range
  | [] => []
  | statement :: rest => statement.range :: statementRanges rest

end

/-- The range of a parameter. -/
def Parameter.range (p : Parameter) : Range :=
  p.name.range.coverList
    ((p.default?.map Expression.range).toList ++ (p.type?.map TypeClause.range).toList)

/-- The range of the statements of a body; a body without statements is nowhere. -/
def Body.range? (body : Body) : Option Range := Range.coverAll? (statementRanges body)

end Downlevel
