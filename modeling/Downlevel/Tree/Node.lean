import Downlevel.Tree.Range

/-!
# Nodes

A tree consists of nodes of many kinds. Here they are of one type, so that something can be said of
every node of a tree: a node has tokens of its own and children, the nodes right below it, and what
holds of every node whose children have it holds of all nodes (`Node.induction`).
-/

namespace Downlevel

/-- A node of a tree, of whatever kind. -/
inductive Node where
  | expression (e : Expression)
  | function (f : FunctionLiteral)
  | parameter (p : Parameter)
  | typeClause (clause : TypeClause)
  | name (n : DottedName)
  | member (m : Member)
  | part (p : TemplatePart)
  | assignment (a : Assignment)
  | block (b : Block)
  | elseIf (clause : ElseIf)
  | otherwise (clause : Else)
  | step (s : ForStep)
  | item (i : PrintItem)
  | statement (s : Statement)
  | body (statements : Body)
  | comment (c : Comment)

/-! ## Ranges -/

/-- The range of the node, if it has one: a body without statements is nowhere. -/
def Node.range? : Node → Option Range
  | expression e => e.range
  | function f => f.range
  | parameter p => p.range
  | typeClause clause => clause.range
  | name n => n.range
  | member m => m.range
  | part p => p.range
  | assignment a => a.range
  | block b => b.range
  | elseIf clause => clause.range
  | otherwise clause => clause.range
  | step s => s.range
  | item i => i.range
  | statement s => s.range
  | body statements => Body.range? statements
  | comment c => c.range

/-! ## Children -/

def Expression.children : Expression → List Node
  | .binary left _ right => [.expression left, .expression right]
  | .unary _ operand => [.expression operand]
  | .call callee _ arguments _ => .expression callee :: arguments.map .expression
  | .callfunc receiver _ _ _ arguments _ => .expression receiver :: arguments.map .expression
  | .function f => [.function f]
  | .member object _ _ => [.expression object]
  | .identifier _ => []
  | .index object _ key _ => [.expression object, .expression key]
  | .xmlAttribute object _ _ => [.expression object]
  | .group _ inner _ => [.expression inner]
  | .literal _ => []
  | .array _ elements _ => elements.map .expression
  | .record _ members _ => members.map .member
  | .construct _ className _ arguments _ => .name className :: arguments.map .expression
  | .conditional test _ consequent _ alternate =>
    [.expression test, .expression consequent, .expression alternate]
  | .coalesce left _ right => [.expression left, .expression right]
  | .template _ parts _ => parts.map .part
  | .comment c => [.comment c]

def Parameter.children (p : Parameter) : List Node :=
  p.default?.toList.map .expression ++ p.type?.toList.map .typeClause

/-- The parameters of a function and its return type. -/
def FunctionLiteral.header (f : FunctionLiteral) : List Node :=
  f.parameters.map .parameter ++ f.returnType?.toList.map .typeClause

def Member.children : Member → List Node
  | .pair _ _ value => [.expression value]
  | .comment c => [.comment c]

def TemplatePart.children : TemplatePart → List Node
  | .text _ => []
  | .expression e => [.expression e]

def PrintItem.children : PrintItem → List Node
  | .expression e => [.expression e]
  | .separator _ => []

def Statement.children : Statement → List Node
  | .assignment a => [.assignment a]
  | .expression e => [.expression e]
  | .comment c => [.comment c]
  | .branch _ condition _ body elseIfs else? _ =>
    .expression condition :: .block body :: elseIfs.map .elseIf ++ else?.toList.map .otherwise
  | .forLoop _ counter _ limit step? body _ =>
    .assignment counter :: .expression limit :: step?.toList.map .step ++ [.block body]
  | .forEach _ _ _ target body _ => [.expression target, .block body]
  | .whileLoop _ condition body _ => [.expression condition, .block body]
  | .memberSet object _ _ value => [.expression object, .expression value]
  | .indexSet object _ key _ value => [.expression object, .expression key, .expression value]
  | .increment value _ => [.expression value]
  | .print _ items => items.map .item
  | .goto _ _ => []
  | .label _ _ => []
  | .returning _ value? => value?.toList.map .expression
  | .keyword _ _ => []
  | .library _ _ => []
  | .function _ f => [.function f]
  | .namespaceBlock _ name body _ => [.name name, .body body]
  | .importFile _ _ => []
  | .tryCatch _ body _ _ handler _ => [.block body, .block handler]
  | .throwing _ value => [.expression value]

namespace Node

/-- The nodes right below the node. -/
def children : Node → List Node
  | expression e => e.children
  | function f => f.header ++ [.block f.body]
  | parameter p => p.children
  | typeClause _ => []
  | name n => [.expression n.toExpression]
  | member m => m.children
  | part p => p.children
  | assignment a => [.expression a.value]
  | block b => b.statements.map .statement
  | elseIf clause => [.expression clause.condition, .block clause.body]
  | otherwise clause => [.block clause.body]
  | step s => [.expression s.amount]
  | item i => i.children
  | statement s => s.children
  | body statements => statements.map .statement
  | comment _ => []

/-- The second node is the first one or lies below it. -/
inductive Holds : Node → Node → Prop
  | self (n : Node) : Holds n n
  | child {n child inner : Node} : child ∈ n.children → Holds child inner → Holds n inner

theorem Holds.trans {n middle inner : Node} (h : n.Holds middle) (hinner : middle.Holds inner) :
    n.Holds inner := by
  induction h with
  | self => exact hinner
  | child hchild _ ih => exact .child hchild (ih hinner)

/-- What holds of all nodes below holds of the node itself and below its children. -/
theorem forall_holds_iff {P : Node → Prop} {n : Node} :
    (∀ inner, n.Holds inner → P inner) ↔
      P n ∧ ∀ child ∈ n.children, ∀ inner, child.Holds inner → P inner := by
  constructor
  · intro h
    exact ⟨h n (.self n), fun child hchild inner hinner => h inner (.child hchild hinner)⟩
  · rintro ⟨hown, hchildren⟩ inner hinner
    cases hinner with
    | self => exact hown
    | child hchild hrest => exact hchildren _ hchild inner hrest

end Node

/-! ## Tokens -/

def Expression.tokens : Expression → List Token
  | .binary _ operator _ => [operator]
  | .unary operator _ => [operator]
  | .call _ opening _ closing => [opening, closing]
  | .callfunc _ operator method opening _ closing => [operator, method, opening, closing]
  | .function _ => []
  | .member _ dot name => [dot, name]
  | .identifier name => [name]
  | .index _ opening _ closing => [opening, closing]
  | .xmlAttribute _ sign name => [sign, name]
  | .group opening _ closing => [opening, closing]
  | .literal token => [token]
  | .array opening _ closing => [opening, closing]
  | .record opening _ closing => [opening, closing]
  | .construct keyword _ opening _ closing => [keyword, opening, closing]
  | .conditional _ question _ colon _ => [question, colon]
  | .coalesce _ operator _ => [operator]
  | .template opening _ closing => [opening, closing]
  | .comment _ => []

def Statement.tokens : Statement → List Token
  | .assignment _ => []
  | .expression _ => []
  | .comment _ => []
  | .branch first _ then? _ _ _ end? => first :: then?.toList ++ end?.toList
  | .forLoop first _ toToken _ _ _ endToken => [first, toToken, endToken]
  | .forEach first item inToken _ _ endToken => [first, item, inToken, endToken]
  | .whileLoop first _ _ endToken => [first, endToken]
  | .memberSet _ dot name _ => [dot, name]
  | .indexSet _ opening _ closing _ => [opening, closing]
  | .increment _ operator => [operator]
  | .print first _ => [first]
  | .goto first target => [first, target]
  | .label name colon => [name, colon]
  | .returning first _ => [first]
  | .keyword _ token => [token]
  | .library first path => [first, path]
  | .function name _ => [name]
  | .namespaceBlock first _ _ endToken => [first, endToken]
  | .importFile first path => [first, path]
  | .tryCatch first _ catchToken exceptionName _ endToken =>
    [first, catchToken, exceptionName, endToken]
  | .throwing first _ => [first]

/-- The tokens of the node itself, without those of its children. -/
def Node.tokens : Node → List Token
  | expression e => e.tokens
  | function f => [f.keyword, f.opening, f.closing, f.endToken]
  | parameter p => [p.name]
  | typeClause clause => [clause.asToken, clause.type]
  | name n => n.root :: n.links.flatMap fun link => [link.dot, link.name]
  | member (.pair key colon _) => [key, colon]
  | member (.comment _) => []
  | part (.text token) => [token]
  | part (.expression _) => []
  | assignment a => [a.name, a.operator]
  | block _ => []
  | elseIf clause => clause.keyword :: clause.then?.toList
  | otherwise clause => [clause.keyword]
  | step s => [s.keyword]
  | item (.separator token) => [token]
  | item (.expression _) => []
  | statement s => s.tokens
  | body _ => []
  | comment c => c.tokens

/-! ## Induction -/

namespace DottedName

/-- The expression that a dotted name is has no more to it than the name. -/
theorem sizeOf_toExpression_lt (n : DottedName) :
    sizeOf (Node.expression n.toExpression) < sizeOf (Node.name n) := by
  obtain ⟨root, links⟩ := n
  have hlinks (object : Expression) : sizeOf (links.foldl
      (fun object link => Expression.member object link.dot link.name) object) + 1 ≤
        sizeOf object + sizeOf links := by
    induction links generalizing object with
    | nil => simp
    | cons link rest ih =>
      obtain ⟨dot, name⟩ := link
      have hrest := ih (.member object dot name)
      simp at hrest ⊢
      omega
  have hall := hlinks (.identifier root)
  simp [toExpression] at hall ⊢
  omega

end DottedName

theorem Expression.sizeOf_lt_of_mem_children {e : Expression} {n : Node} (h : n ∈ e.children) :
    sizeOf n < sizeOf (Node.expression e) := by
  cases e <;> simp [children] at h ⊢ <;> grind [→ List.sizeOf_lt_of_mem]

theorem Statement.sizeOf_lt_of_mem_children {s : Statement} {n : Node} (h : n ∈ s.children) :
    sizeOf n < sizeOf (Node.statement s) := by
  cases s <;> simp [children] at h ⊢ <;> grind [→ List.sizeOf_lt_of_mem]

namespace Node

theorem sizeOf_lt_of_mem_children {n child : Node} (h : child ∈ n.children) :
    sizeOf child < sizeOf n := by
  cases n with
  | expression e => exact Expression.sizeOf_lt_of_mem_children h
  | statement s => exact Statement.sizeOf_lt_of_mem_children h
  | name n =>
    obtain rfl := List.mem_singleton.mp h
    exact n.sizeOf_toExpression_lt
  | function f =>
    cases f
    simp [children, FunctionLiteral.header] at h ⊢
    grind [→ List.sizeOf_lt_of_mem]
  | parameter p =>
    cases p
    simp [children, Parameter.children] at h ⊢
    grind
  | member m =>
    cases m with
    | comment c =>
      obtain rfl := List.mem_singleton.mp h
      simp
    | pair key colon value =>
      obtain rfl := List.mem_singleton.mp h
      simp only [member.sizeOf_spec, Member.pair.sizeOf_spec, expression.sizeOf_spec]
      omega
  | part p => cases p <;> simp_all [children, TemplatePart.children]
  | item i => cases i <;> simp_all [children, PrintItem.children]
  | assignment a | elseIf a | otherwise a | step a =>
    cases a
    simp [children] at h ⊢
    grind
  | block b =>
    cases b
    simp [children] at h ⊢
    grind [→ List.sizeOf_lt_of_mem]
  | body statements =>
    simp [children] at h ⊢
    grind [→ List.sizeOf_lt_of_mem]
  | typeClause | comment => cases h

/-- What holds of every node whose children have it holds of all nodes. -/
theorem induction {motive : Node → Prop}
    (step : ∀ n, (∀ child ∈ n.children, motive child) → motive n) (n : Node) : motive n :=
  step n fun child _ => induction step child
termination_by sizeOf n
decreasing_by exact sizeOf_lt_of_mem_children ‹_›

end Node

end Downlevel
