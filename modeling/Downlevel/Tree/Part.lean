import Downlevel.Tree.Node

/-!
# Parts of nodes

What a node is written as: its tokens, its children and, if it is a block, the place where it opens,
in the order in which they are written. Only a declaration has no such order of its own, since its
name stands inside of its function, between keyword and opening parenthesis; the parts of a
declaration are those of the function, with the name among them.
-/

namespace Downlevel

/-- Something that a node is written as. -/
inductive Part where
  | token (t : Token)
  | node (n : Node)
  /-- The place where a block opens. -/
  | opening (p : Position)

namespace Part

/-- The range of the part, if it is anywhere. -/
def range? : Part → Option Range
  | token t => t.range
  | node n => n.range?
  | opening p => Range.point p

/-- The part for an expression. -/
def expression (e : Expression) : Part := node (.expression e)

/-- The part for a block. -/
def block (b : Block) : Part := node (.block b)

@[simp] theorem range?_token (t : Token) : (token t).range? = some t.range := rfl

@[simp] theorem range?_node (n : Node) : (node n).range? = n.range? := rfl

@[simp] theorem range?_opening (p : Position) : (opening p).range? = some (.point p) := rfl

@[simp] theorem range?_expression (e : Expression) : (expression e).range? = some e.range := rfl

@[simp] theorem range?_block (b : Block) : (block b).range? = some b.range := rfl

end Part

/-! ## Written order -/

def Expression.parts : Expression → List Part
  | .binary left operator right => [.expression left, .token operator, .expression right]
  | .unary operator operand => [.token operator, .expression operand]
  | .call callee opening arguments closing =>
    .expression callee :: .token opening :: arguments.map .expression ++ [.token closing]
  | .callfunc receiver operator method opening arguments closing =>
    .expression receiver :: .token operator :: .token method :: .token opening ::
      arguments.map .expression ++ [.token closing]
  | .function f => [.node (.function f)]
  | .member object dot name => [.expression object, .token dot, .token name]
  | .identifier name => [.token name]
  | .index object opening key closing =>
    [.expression object, .token opening, .expression key, .token closing]
  | .xmlAttribute object sign name => [.expression object, .token sign, .token name]
  | .group opening inner closing => [.token opening, .expression inner, .token closing]
  | .literal token => [.token token]
  | .array opening elements closing =>
    .token opening :: elements.map .expression ++ [.token closing]
  | .record opening members closing =>
    .token opening :: members.map (.node ∘ .member) ++ [.token closing]
  | .construct keyword className opening arguments closing =>
    .token keyword :: .node (.name className) :: .token opening :: arguments.map .expression ++
      [.token closing]
  | .conditional test question consequent colon alternate =>
    [.expression test, .token question, .expression consequent, .token colon,
      .expression alternate]
  | .coalesce left operator right => [.expression left, .token operator, .expression right]
  | .template opening parts closing =>
    .token opening :: parts.map (.node ∘ .part) ++ [.token closing]
  | .comment c => [.node (.comment c)]

/-- The parts of a function, with its name if it has one. -/
def FunctionLiteral.parts (name? : Option Token) (f : FunctionLiteral) : List Part :=
  .token f.keyword :: name?.toList.map .token ++ .token f.opening ::
    f.parameters.map (.node ∘ .parameter) ++ .token f.closing ::
    f.returnType?.toList.map (.node ∘ .typeClause) ++ [.block f.body, .token f.endToken]

def Parameter.parts (p : Parameter) : List Part :=
  .token p.name :: p.default?.toList.map .expression ++ p.type?.toList.map (.node ∘ .typeClause)

def DottedName.writtenParts (n : DottedName) : List Part :=
  .token n.root :: n.links.flatMap fun link => [.token link.dot, .token link.name]

def Member.parts : Member → List Part
  | .pair key colon value => [.token key, .token colon, .expression value]
  | .comment c => [.node (.comment c)]

def TemplatePart.parts : TemplatePart → List Part
  | .text token => [.token token]
  | .expression e => [.expression e]

def PrintItem.parts : PrintItem → List Part
  | .expression e => [.expression e]
  | .separator token => [.token token]

def Statement.parts : Statement → List Part
  | .assignment a => [.node (.assignment a)]
  | .expression e => [.expression e]
  | .comment c => [.node (.comment c)]
  | .branch first condition then? body elseIfs else? end? =>
    .token first :: .expression condition :: then?.toList.map .token ++
      .block body :: elseIfs.map (.node ∘ .elseIf) ++
      else?.toList.map (.node ∘ .otherwise) ++ end?.toList.map .token
  | .forLoop first counter toToken limit step? body endToken =>
    .token first :: .node (.assignment counter) :: .token toToken :: .expression limit ::
      step?.toList.map (.node ∘ .step) ++ [.block body, .token endToken]
  | .forEach first item inToken target body endToken =>
    [.token first, .token item, .token inToken, .expression target, .block body, .token endToken]
  | .whileLoop first condition body endToken =>
    [.token first, .expression condition, .block body, .token endToken]
  | .memberSet object dot name value =>
    [.expression object, .token dot, .token name, .expression value]
  | .indexSet object opening key closing value =>
    [.expression object, .token opening, .expression key, .token closing, .expression value]
  | .increment value operator => [.expression value, .token operator]
  | .print first items => .token first :: items.map (.node ∘ .item)
  | .goto first target => [.token first, .token target]
  | .label name colon => [.token name, .token colon]
  | .returning first value? => .token first :: value?.toList.map .expression
  | .keyword _ token => [.token token]
  | .library first path => [.token first, .token path]
  | .function name f => f.parts name
  | .namespaceBlock first name body endToken =>
    [.token first, .node (.name name), .node (.body body), .token endToken]
  | .importFile first path => [.token first, .token path]
  | .tryCatch first body catchToken exceptionName handler endToken =>
    [.token first, .block body, .token catchToken, .token exceptionName, .block handler,
      .token endToken]
  | .throwing first value => [.token first, .expression value]

namespace Node

/-- What the node is written as, in this order. -/
def parts : Node → List Part
  | expression e => e.parts
  | function f => f.parts none
  | parameter p => p.parts
  | typeClause clause => [.token clause.asToken, .token clause.type]
  | name n => n.writtenParts
  | member m => m.parts
  | part p => p.parts
  | assignment a => [.token a.name, .token a.operator, .expression a.value]
  | block b => .opening b.start :: b.statements.map (.node ∘ .statement)
  | elseIf clause =>
    .token clause.keyword :: .expression clause.condition :: clause.then?.toList.map .token ++
      [.block clause.body]
  | otherwise clause => [.token clause.keyword, .block clause.body]
  | step s => [.token s.keyword, .expression s.amount]
  | item i => i.parts
  | statement s => s.parts
  | body statements => statements.map (.node ∘ .statement)
  | comment c => c.tokens.map .token

/-- The ranges of the parts that are anywhere. -/
def partRanges (n : Node) : List Range := n.parts.filterMap Part.range?

/-! ## Parts, tokens and children -/

section

variable {n m : Node} {t : Token}

/-- The nodes among the parts are children, or the children of a declared function. -/
theorem mem_children_of_mem_parts (h : Part.node m ∈ n.parts) :
    m ∈ n.children ∨ ∃ child ∈ n.children, m ∈ child.children := by
  cases n with
  | expression e =>
    cases e <;>
      simp [parts, Expression.parts, Part.expression, children, Expression.children] at h ⊢ <;>
      grind
  | statement s =>
    cases s <;>
      simp [parts, Statement.parts, FunctionLiteral.parts, Part.expression, Part.block, children,
        Statement.children, FunctionLiteral.header] at h ⊢ <;>
      grind
  | member a | part a | item a =>
    cases a <;>
      simp [parts, Member.parts, TemplatePart.parts, PrintItem.parts, Part.expression, children,
        Member.children, TemplatePart.children, PrintItem.children] at h ⊢
    all_goals grind
  | _ =>
    simp [parts, FunctionLiteral.parts, Parameter.parts, DottedName.writtenParts, Part.expression,
      Part.block, children, FunctionLiteral.header, Parameter.children] at h ⊢
    all_goals grind

theorem sizeOf_lt_of_mem_parts (h : Part.node m ∈ n.parts) : sizeOf m < sizeOf n := by
  rcases mem_children_of_mem_parts h with hm | ⟨child, hchild, hm⟩
  · exact sizeOf_lt_of_mem_children hm
  · exact Nat.lt_trans (sizeOf_lt_of_mem_children hm) (sizeOf_lt_of_mem_children hchild)

theorem holds_of_mem_parts (h : Part.node m ∈ n.parts) : n.Holds m := by
  rcases mem_children_of_mem_parts h with hm | ⟨child, hchild, hm⟩
  · exact .child hm (.self m)
  · exact .child hchild (.child hm (.self m))

/-- Every token of a node is one of its parts. -/
theorem token_mem_parts (h : t ∈ n.tokens) : Part.token t ∈ n.parts := by
  cases n with
  | expression e =>
    cases e <;> simp [tokens, Expression.tokens, parts, Expression.parts] at h ⊢ <;> grind
  | statement s =>
    cases s <;>
      simp [tokens, Statement.tokens, parts, Statement.parts, FunctionLiteral.parts] at h ⊢ <;>
      grind
  | member a | part a | item a =>
    cases a <;> simp [tokens, parts, Member.parts, TemplatePart.parts, PrintItem.parts] at h ⊢
    all_goals grind
  | name n => simpa [tokens, parts, DottedName.writtenParts] using h
  | block | body => cases h
  | _ =>
    simp [tokens, parts, FunctionLiteral.parts, Parameter.parts, Comment.tokens] at h ⊢
    grind

/-- The tokens among the parts are those of the node, or of a declared function. -/
theorem exists_holds_of_token_mem_parts (h : Part.token t ∈ n.parts) :
    ∃ inner, n.Holds inner ∧ t ∈ inner.tokens := by
  have hown (ht : t ∈ n.tokens) : ∃ inner, n.Holds inner ∧ t ∈ inner.tokens := ⟨n, .self n, ht⟩
  cases n with
  | expression e =>
    apply hown
    cases e <;>
      simp [parts, Expression.parts, Part.expression, tokens, Expression.tokens] at h ⊢ <;> grind
  | statement s =>
    cases s with
    | function name f =>
      have ht : t = name ∨ t ∈ (function f).tokens := by
        simp [parts, Statement.parts, FunctionLiteral.parts, Part.block, tokens] at h ⊢
        grind
      rcases ht with rfl | ht
      · exact hown (List.mem_singleton_self _)
      · exact ⟨function f, .child (List.mem_singleton_self _) (.self _), ht⟩
    | _ =>
      apply hown
      simp [parts, Statement.parts, Part.expression, Part.block, tokens, Statement.tokens] at h ⊢
      all_goals grind
  | member a | part a | item a =>
    apply hown
    cases a <;>
      simp [parts, Member.parts, TemplatePart.parts, PrintItem.parts, Part.expression,
        tokens] at h ⊢
    all_goals grind
  | _ =>
    apply hown
    simp [parts, FunctionLiteral.parts, Parameter.parts, DottedName.writtenParts, Part.expression,
      Part.block, tokens, Comment.tokens] at h ⊢
    all_goals grind

end

end Node

end Downlevel
