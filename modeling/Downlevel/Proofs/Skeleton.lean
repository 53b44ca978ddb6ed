import Downlevel.State

/-!
# Skeletons

The skeleton of a node lists what the node writes, one level deep and in order: pieces of its own
that stand for something in the source, and its parts. What is left out is text without a source
position. So a skeleton says which parts a node has, in which order they are written, and which of
them are put into a function literal of their own, without saying anything about layout.

What is emitted for a tree depends on its surroundings. A *site* is a tree with its surroundings.
-/

namespace Downlevel

/-- A tree together with what its emission depends on. -/
structure Site where
  scope : Scope
  ownerLine? : Option Nat
  tree : Tree

namespace Site

def emit (site : Site) : List Piece := site.tree.emit site.scope site.ownerLine?

end Site

/-- Where a state emits a tree. -/
def State.site (s : State) (tree : Tree) : Site :=
  ⟨s.scope, s.parent?.map (·.range.start.line), tree⟩

/-- An entry of a skeleton. -/
inductive Slot where
  /-- A piece of the node itself. -/
  | own (piece : Piece)
  /-- A part of the node, inside so many function literals that the node puts around it. -/
  | part (site : Site) (literals : Nat)

namespace Slot

/-- A token of the node, as it was written. -/
def token (t : Token) : Slot := own t.piece

/-- An expression that is evaluated where it is written. -/
def operand (scope : Scope) (e : Expression) : Slot := part ⟨scope, none, .expression e⟩ 0

/-- An expression in a function literal of its own. -/
def deferred (scope : Scope) (e : Expression) : Slot := part ⟨scope, none, .expression e⟩ 1

/-- A statement of a sequence. -/
def statement (scope : Scope) (s : Statement) : Slot := part ⟨scope, none, .statement s⟩ 0

/-- A block of an owner that opens on the given line. -/
def block (scope : Scope) (ownerLine : Nat) (b : Block) : Slot :=
  part ⟨scope, some ownerLine, .block b⟩ 0

end Slot

/-! ## Parts without sub-expressions -/

def TypeClause.slots : Option TypeClause → List Slot
  | none => []
  | some clause => [.token clause.asToken, .token clause.type]

def Comment.slots (c : Comment) : List Slot :=
  c.tokens.map fun token => .own (.comment token.start token.text)

/-- The skeleton of a token that may be left out. -/
def Slot.tokens (t : Option Token) : List Slot := t.toList.map Slot.token

/-! ## Expressions -/

/-- The identifier that a dotted access is flattened to. -/
def Expression.flattened? (scope : Scope) : Expression → Option Piece
  | .member object dot name =>
    match (DottedName.ofExpression? object).map (·.extend ⟨dot, name⟩) with
    | none => none
    | some chain =>
      if scope.resolver.startsWithNamespace chain.parts then
        some (.written chain.root.start (chain.text .flattened))
      else none
  | _ => none

def Member.slots (scope : Scope) : Member → List Slot
  | .pair key colon value => [.token key, .token colon, .operand scope value]
  | .comment c => c.slots

def TemplatePart.slots (scope : Scope) : TemplatePart → List Slot
  | .text token =>
    ((Text.lines token.text).filter (!·.isEmpty)).map fun line =>
      .own (.written token.start (Text.quote line))
  | .expression e => [.own (.helper e.range.start .toText), .operand scope e]

def Parameter.slots (scope : Scope) (p : Parameter) : List Slot :=
  .token p.name :: p.default?.toList.map (Slot.operand scope) ++ TypeClause.slots p.type?

/-- The skeleton of a function, with its name if it has one. -/
def FunctionLiteral.slots (scope : Scope) (name? : Option Piece) (f : FunctionLiteral) :
    List Slot :=
  .token f.keyword :: name?.toList.map Slot.own ++ .token f.opening ::
    f.parameters.flatMap (Parameter.slots scope) ++ .token f.closing ::
    TypeClause.slots f.returnType? ++ [.block scope f.range.start.line f.body, .token f.endToken]

def Expression.slots (scope : Scope) : Expression → List Slot
  | .binary left operator right =>
    [.operand scope left, .token operator, .operand scope right]
  | .unary operator operand => [.token operator, .operand scope operand]
  | .call callee opening arguments closing =>
    .operand scope callee :: .token opening :: arguments.map (Slot.operand scope) ++
      [.token closing]
  | .callfunc receiver operator method opening arguments closing =>
    [.operand scope receiver, .own (.written operator.start ".callfunc"), .token opening,
      .own (.written method.start ("\"" ++ method.text ++ "\""))] ++
      arguments.map (Slot.operand scope) ++ [.token closing]
  | .function f => f.slots scope none
  | .member object dot name =>
    match Expression.flattened? scope (.member object dot name) with
    | some piece => [.own piece]
    | none => [.operand scope object, .token dot, .token name]
  | .identifier name => [.own (.written name.start (scope.referredName name.text))]
  | .index object opening key closing =>
    [.operand scope object, .token opening, .operand scope key, .token closing]
  | .xmlAttribute object sign name => [.operand scope object, .token sign, .token name]
  | .group opening inner closing => [.token opening, .operand scope inner, .token closing]
  | .literal token => [.own (Expression.literalPiece token)]
  | .array opening elements closing =>
    .token opening :: elements.map (Slot.operand scope) ++ [.token closing]
  | .record opening members closing =>
    .token opening :: members.flatMap (Member.slots scope) ++ [.token closing]
  | .construct _ className opening arguments closing =>
    .own (.written className.start (className.text .flattened)) :: .token opening ::
      arguments.map (Slot.operand scope) ++ [.token closing]
  | .conditional test question consequent _ alternate =>
    if consequent.containsMutating || alternate.containsMutating then
      .own (.helper question.start .scopeSafeTernary) :: .operand scope test ::
        (scope.captured [consequent, alternate]).map Slot.token ++
        [.deferred scope consequent, .deferred scope alternate]
    else
      [.own (.helper question.start .simpleTernary), .operand scope test,
        .operand scope consequent, .operand scope alternate]
  | .coalesce left operator right =>
    if left.containsMutating || right.containsMutating then
      .own (.helper operator.start .scopeSafeCoalesce) :: .operand scope left ::
        (scope.captured [right]).map Slot.token ++ [.deferred scope right]
    else
      [.own (.helper operator.start .simpleCoalesce), .operand scope left, .operand scope right]
  | .template opening parts _ =>
    if (templateOperands scope parts).isEmpty then
      [.own (.written opening.start (Text.quote ""))]
    else parts.flatMap (TemplatePart.slots scope)
  | .comment c => c.slots

/-! ## Statements -/

def Assignment.slots (scope : Scope) (a : Assignment) : List Slot :=
  [.token a.name, .token a.operator, .operand scope a.value]

def ElseIf.slots (scope : Scope) (clause : ElseIf) : List Slot :=
  .token clause.keyword :: .operand scope clause.condition :: Slot.tokens clause.then? ++
    [.block scope clause.range.start.line clause.body]

def Else.slots (scope : Scope) (clause : Else) : List Slot :=
  [.token clause.keyword, .block scope clause.range.start.line clause.body]

def ForStep.slots (scope : Scope) (step : ForStep) : List Slot :=
  [.token step.keyword, .operand scope step.amount]

def PrintItem.slots (scope : Scope) : PrintItem → List Slot
  | .expression e => [.operand scope e]
  | .separator _ => []

def Statement.slots (scope : Scope) : Statement → List Slot
  | .assignment a => a.slots scope
  | .expression e => [.operand scope e]
  | .comment c => c.slots
  | .branch first condition then? body elseIfs else? end? =>
    let range := (Statement.branch first condition then? body elseIfs else? end?).range
    .token first :: .operand scope condition :: Slot.tokens then? ++
      .block scope range.start.line body :: elseIfs.flatMap (ElseIf.slots scope) ++
      else?.toList.flatMap (Else.slots scope) ++ Slot.tokens end?
  | .forLoop first counter toToken limit step? body endToken =>
    let range := (Statement.forLoop first counter toToken limit step? body endToken).range
    .token first :: counter.slots scope ++ .token toToken :: .operand scope limit ::
      step?.toList.flatMap (ForStep.slots scope) ++
      [.block scope range.start.line body, .token endToken]
  | .forEach first item inToken target body endToken =>
    let range := (Statement.forEach first item inToken target body endToken).range
    [.token first, .token item, .token inToken, .operand scope target,
      .block scope range.start.line body, .token endToken]
  | .whileLoop first condition body endToken =>
    let range := (Statement.whileLoop first condition body endToken).range
    [.token first, .operand scope condition, .block scope range.start.line body,
      .token endToken]
  | .memberSet object dot name value =>
    [.operand scope object, .token dot, .token name, .operand scope value]
  | .indexSet object opening key closing value =>
    [.operand scope object, .token opening, .operand scope key, .token closing,
      .operand scope value]
  | .increment value operator => [.operand scope value, .token operator]
  | .print first items => .token first :: items.flatMap (PrintItem.slots scope)
  | .goto first target => [.token first, .token target]
  | .label name colon => [.token name, .token colon]
  | .returning first value? => .token first :: value?.toList.map (Slot.operand scope)
  | .keyword word token => [.own (.written token.start word.text)]
  | .library first path => [.token first, .token path]
  | .function name f =>
    f.slots scope (some (.written name.start (scope.declaredName name.text)))
  | .namespaceBlock _ name body _ => body.map (Slot.statement (scope.inside name))
  | .importFile first path =>
    [.own (.commentedOut first.start first.text), .own (.commentedOut path.start path.text)]
  | .tryCatch first body catchToken exceptionName handler endToken =>
    let range := (Statement.tryCatch first body catchToken exceptionName handler endToken).range
    [.token first, .block scope range.start.line body, .token catchToken,
      .token exceptionName,
      .block scope (catchToken.range.cover exceptionName.range).start.line handler,
      .token endToken]
  | .throwing first value => [.token first, .operand scope value]

/-! ## Trees -/

def Site.slots (site : Site) : List Slot :=
  match site.tree with
  | .body statements => statements.map (Slot.statement site.scope)
  | .block b => b.statements.map (Slot.statement site.scope)
  | .statement s => s.slots site.scope
  | .expression e => e.slots site.scope

end Downlevel
