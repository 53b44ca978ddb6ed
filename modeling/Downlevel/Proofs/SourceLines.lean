import Downlevel.Printer
import Downlevel.Proofs.Relocation
import Downlevel.Proofs.Walking

/-!
# Source lines

Emission asks for a line in one way only: whether two places are on the same line, or touch. So it
commutes with relocations, through pieces, layouts and nodes (`Statement.emit_relocate`), through
the walk in a state (`Tree.walk_relocate`) and through the source map of a file
(`Printer.print_relocate`).

Main statement: if lines are moved and keep their order, code and generated positions stay the same
and each mapping has its origin moved; and columns do not matter to the texts (`Tree.walk_ofLines`).
-/

namespace Downlevel

variable (r : Relocation)

/-! ## Pieces and layout -/

/-- The piece for the other place. -/
def Piece.relocate (r : Relocation) : Piece → Piece
  | .written position s => .written (position.relocate r) s
  | .comment position s => .comment (position.relocate r) s
  | .commentedOut position s => .commentedOut (position.relocate r) s
  | .helper position h => .helper (position.relocate r) h
  | .text s => .text s
  | .lineBreak => .lineBreak
  | .emptyBlockBreak => .emptyBlockBreak
  | .indent levels => .indent levels

namespace Piece

@[simp] theorem relocate_written (position : Position) (s : String) :
    (written position s).relocate r = written (position.relocate r) s := rfl

@[simp] theorem relocate_comment (position : Position) (s : String) :
    (comment position s).relocate r = comment (position.relocate r) s := rfl

@[simp] theorem relocate_commentedOut (position : Position) (s : String) :
    (commentedOut position s).relocate r = commentedOut (position.relocate r) s := rfl

@[simp] theorem relocate_helper (position : Position) (h : Helper) :
    (helper position h).relocate r = helper (position.relocate r) h := rfl

@[simp] theorem relocate_text (s : String) : (text s).relocate r = text s := rfl

@[simp] theorem relocate_lineBreak : lineBreak.relocate r = lineBreak := rfl

@[simp] theorem relocate_emptyBlockBreak : emptyBlockBreak.relocate r = emptyBlockBreak := rfl

@[simp] theorem relocate_indent (levels : Nat) : (indent levels).relocate r = indent levels := rfl

theorem relocate_shift (levels : Nat) (piece : Piece) :
    (piece.shift levels).relocate r = (piece.relocate r).shift levels := by
  cases piece <;> rfl

@[simp] theorem map_relocate_nested (pieces : List Piece) :
    (nested pieces).map (relocate r) = nested (pieces.map (relocate r)) := by
  simp [nested, relocate_shift]

@[simp] theorem map_relocate_newLine : newLine.map (relocate r) = newLine := rfl

@[simp] theorem map_relocate_separated (separator : String) (lists : List (List Piece)) :
    (separated separator lists).map (relocate r) =
      separated separator (lists.map (List.map (relocate r))) := by
  induction lists using separated.induct with
  | case1 => rfl
  | case2 pieces => rfl
  | case3 pieces next rest ih => simp [separated, ih]

end Piece

@[simp] theorem Token.piece_relocate (t : Token) : (t.relocate r).piece = t.piece.relocate r := rfl

@[simp] theorem Token.pieceOr_relocate (fallback : String) (t? : Option Token) :
    pieceOr fallback (t?.map (relocate r)) = (pieceOr fallback t?).relocate r := by
  cases t? <;> rfl

/-- The item at the other place. -/
def Item.relocate (r : Relocation) (i : Item) : Item :=
  ⟨i.range.relocate r, i.role, i.pieces.map (Piece.relocate r)⟩

namespace Item

@[simp] theorem range_relocate (i : Item) : (i.relocate r).range = i.range.relocate r := rfl

@[simp] theorem pieces_relocate (i : Item) :
    (i.relocate r).pieces = i.pieces.map (Piece.relocate r) := rfl

@[simp] theorem isComment_relocate (i : Item) : (i.relocate r).isComment = i.isComment := rfl

@[simp] theorem isDeclaration_relocate (i : Item) :
    (i.relocate r).isDeclaration = i.isDeclaration := rfl

end Item

namespace Layout

variable (items : List Item)

theorem blockItems_relocate (ownerLine? : Option Nat) (previous? : Option Range) :
    blockItems (ownerLine?.map r.line) (previous?.map (Range.relocate r))
        (items.map (Item.relocate r)) =
      (blockItems ownerLine? previous? items).map (Piece.relocate r) := by
  induction items generalizing previous? with
  | nil => rfl
  | cons item rest ih =>
    have hjoins : ((ownerLine?.map r.line).any (item.range.relocate r).meetsLine) =
        ownerLine?.any item.range.meetsLine := by
      cases ownerLine? <;> simp
    have hprevious : (previous?.map (Range.relocate r)).any (item.range.relocate r).touches =
        previous?.any item.range.touches := by
      cases previous? <;> simp
    have hrest := ih (some item.range)
    rw [Option.map_some] at hrest
    rw [List.map_cons, blockItems, blockItems, Item.range_relocate, Item.isComment_relocate, hjoins,
      hprevious, hrest]
    split <;> simp

theorem block_relocate (ownerLine? : Option Nat) :
    block (ownerLine?.map r.line) (items.map (Item.relocate r)) =
      (block ownerLine? items).map (Piece.relocate r) := by
  rw [block, block, Piece.map_relocate_nested]
  exact congrArg Piece.nested (blockItems_relocate r items ownerLine? none)

@[simp] theorem branch_relocate (pieces : List Piece) :
    branch (pieces.map (Piece.relocate r)) = (branch pieces).map (Piece.relocate r) := by
  rw [branch, branch, List.isEmpty_map, List.map_append]
  cases pieces.isEmpty <;> rfl

theorem separator_relocate (previous item : Item) (next? : Option Item) :
    separator (previous.relocate r) (item.relocate r) (next?.map (Item.relocate r)) =
      (separator previous item next?).map (Piece.relocate r) := by
  have hnext : (next?.map (Item.relocate r)).any Item.isDeclaration =
      next?.any Item.isDeclaration := by
    cases next? <;> rfl
  simp only [separator, hnext, Item.isComment_relocate, Item.isDeclaration_relocate,
    Item.range_relocate, Range.start_relocate, Range.stop_relocate, Position.line_relocate,
    Relocation.beq_line]
  split
  · rfl
  · split <;> rfl

theorem bodyItems_relocate (previous : Item) :
    bodyItems (previous.relocate r) (items.map (Item.relocate r)) =
      (bodyItems previous items).map (Piece.relocate r) := by
  induction items generalizing previous with
  | nil => rfl
  | cons item rest ih =>
    rw [List.map_cons, bodyItems, bodyItems, ih, List.head?_map, separator_relocate]
    simp

theorem body_relocate :
    body (items.map (Item.relocate r)) = (body items).map (Piece.relocate r) := by
  cases items with
  | nil => rfl
  | cons item rest =>
    rw [List.map_cons, body, body, bodyItems_relocate]
    simp

@[simp] theorem comma_relocate (item : Item) (rest : List Item) :
    comma (item.relocate r) (rest.map (Item.relocate r)) =
      (comma item rest).map (Piece.relocate r) := by
  have hrest : (rest.map (Item.relocate r)).any (!·.isComment) = rest.any (!·.isComment) :=
    List.any_map ..
  rw [comma, comma, hrest, Item.isComment_relocate]
  split <;> rfl

@[simp] theorem joins_relocate (previous : Range) (item : Item) :
    joins (previous.relocate r) (item.relocate r) = joins previous item := by
  simp [joins]

theorem any_head_joins_relocate (previous : Range) :
    (items.map (Item.relocate r)).head?.any (joins (previous.relocate r)) =
      items.head?.any (joins previous) := by
  cases items with
  | nil => rfl
  | cons item rest => exact joins_relocate r previous item

theorem arrayItems_relocate (previous : Range) :
    arrayItems (previous.relocate r) (items.map (Item.relocate r)) =
      (arrayItems previous items).map (Piece.relocate r) := by
  induction items generalizing previous with
  | nil => rfl
  | cons item rest ih =>
    rw [List.map_cons, arrayItems, arrayItems, Item.range_relocate, ih, joins_relocate,
      comma_relocate]
    split <;> simp

theorem array_relocate (opening closing : Token) :
    array (opening.relocate r) (items.map (Item.relocate r)) (closing.relocate r) =
      (array opening items closing).map (Piece.relocate r) := by
  rw [array, array, Token.range_relocate, arrayItems_relocate, List.isEmpty_map]
  cases items.isEmpty <;> simp

theorem recordItems_relocate (previous : Range) :
    recordItems (previous.relocate r) (items.map (Item.relocate r)) =
      (recordItems previous items).map (Piece.relocate r) := by
  induction items generalizing previous with
  | nil => rfl
  | cons item rest ih =>
    rw [List.map_cons, recordItems, recordItems, Item.range_relocate, ih, joins_relocate,
      comma_relocate, any_head_joins_relocate]
    split <;> split <;> simp

theorem record_relocate (opening closing : Token) :
    record (opening.relocate r) (items.map (Item.relocate r)) (closing.relocate r) =
      (record opening items closing).map (Piece.relocate r) := by
  rw [record, record, Token.range_relocate, recordItems_relocate, List.isEmpty_map,
    any_head_joins_relocate]
  cases items.isEmpty <;> cases items.head?.any (joins opening.range) <;> simp

theorem literal_relocate (position : Position) (line : String) :
    textOperands.literal (position.relocate r) line =
      (textOperands.literal position line).map (List.map (Piece.relocate r)) := by
  rw [textOperands.literal, textOperands.literal]
  split <;> rfl

theorem textOperands_relocate (position : Position) (lines : List String) :
    textOperands (position.relocate r) lines =
      (textOperands position lines).map (List.map (Piece.relocate r)) := by
  induction lines using textOperands.induct with
  | case1 => rfl
  | case2 line => exact literal_relocate r position line
  | case3 line next rest ih => simp [textOperands, literal_relocate, ih]

theorem concatenation_relocate (opening : Token) (operands : List (List Piece)) :
    concatenation (opening.relocate r) (operands.map (List.map (Piece.relocate r))) =
      (concatenation opening operands).map (Piece.relocate r) := by
  match operands with
  | [] => rfl
  | [operand] => rfl
  | operand :: next :: rest => simp [concatenation]

end Layout

namespace Capture

theorem scopeObject_relocate (captured : List Token) :
    scopeObject (captured.map (Token.relocate r)) =
      (scopeObject captured).map (Piece.relocate r) := by
  cases captured with
  | nil => rfl
  | cons name rest => simp [scopeObject, Function.comp_def]

theorem deferred_relocate (captured : List Token) (operand : List Piece) :
    deferred (captured.map (Token.relocate r)) (operand.map (Piece.relocate r)) =
      (deferred captured operand).map (Piece.relocate r) := by
  have hbinding (name : Token) : binding (name.relocate r) = (binding name).relocate r := rfl
  simp [deferred, List.flatMap_map, List.map_flatMap, hbinding]

end Capture

@[simp] theorem Comment.pieces_relocate (c : Comment) :
    (c.relocate r).pieces = c.pieces.map (Piece.relocate r) := by
  simp [Comment.relocate, Comment.pieces, List.flatMap_map, List.map_flatMap]

@[simp] theorem TypeClause.pieces_relocate (clause? : Option TypeClause) :
    TypeClause.pieces (clause?.map (TypeClause.relocate r)) =
      (TypeClause.pieces clause?).map (Piece.relocate r) := by
  cases clause? <;> rfl

@[simp] theorem Expression.literalPiece_relocate (token : Token) :
    Expression.literalPiece (token.relocate r) = (Expression.literalPiece token).relocate r := by
  rw [Expression.literalPiece, Expression.literalPiece, Token.kind_relocate]
  split <;> rfl

@[simp] theorem Statement.role_relocate (s : Statement) : (s.relocate r).role = s.role := by
  cases s with
  | branch _ _ _ _ _ else? _ =>
    cases else? with
    | none => rfl
    | some clause => cases clause; rfl
  | forLoop _ _ _ _ step? _ _ =>
    cases step? with
    | none => rfl
    | some step => cases step; rfl
  | returning _ value? => cases value? <;> rfl
  | _ => rfl

/-! ## Emission -/

mutual

/-- What is emitted for a relocated expression are the pieces of the expression, relocated. -/
theorem Expression.emit_relocate (scope : Scope) : (e : Expression) →
    (e.relocate r).emit scope = (e.emit scope).map (Piece.relocate r)
  | .binary left operator right => by
    simp [Expression.relocate, Expression.emit, left.emit_relocate scope, right.emit_relocate scope]
  | .unary operator operand => by
    simp [Expression.relocate, Expression.emit, operand.emit_relocate scope]
  | .call callee opening arguments closing => by
    simp [Expression.relocate, Expression.emit, callee.emit_relocate scope,
      emitArguments_relocate scope arguments]
  | .callfunc receiver operator method opening arguments closing => by
    have hempty : (relocateArguments r arguments).isEmpty = arguments.isEmpty := by
      cases arguments <;> rfl
    simp only [Expression.relocate, Expression.emit, receiver.emit_relocate scope,
      emitArguments_relocate scope arguments, hempty]
    cases arguments.isEmpty <;> simp
  | .function literal => literal.emit_relocate scope none
  | .member object dot name => by
    -- If the chain is a name in a namespace, it is mapped at its root, which has been moved.
    have hchain : (DottedName.ofExpression? (object.relocate r)).map
        (·.extend ⟨dot.relocate r, name.relocate r⟩) =
          ((DottedName.ofExpression? object).map (·.extend ⟨dot, name⟩)).map
            (DottedName.relocate r) :=
      DottedName.ofExpression?_relocate r (.member object dot name)
    rw [Expression.relocate, Expression.emit, Expression.emit, hchain, object.emit_relocate scope]
    cases (DottedName.ofExpression? object).map (·.extend ⟨dot, name⟩) with
    | none => simp
    | some chain =>
      simp only [Option.map_some, DottedName.parts_relocate, DottedName.text_relocate]
      split <;> simp [DottedName.relocate]
  | .identifier name => by simp [Expression.relocate, Expression.emit]
  | .index object opening key closing => by
    simp [Expression.relocate, Expression.emit, object.emit_relocate scope, key.emit_relocate scope]
  | .xmlAttribute object sign name => by
    simp [Expression.relocate, Expression.emit, object.emit_relocate scope]
  | .group opening inner closing => by
    simp [Expression.relocate, Expression.emit, inner.emit_relocate scope]
  | .literal token => by simp [Expression.relocate, Expression.emit]
  | .array opening elements closing => by
    rw [Expression.relocate, Expression.emit, Expression.emit, elementItems_relocate scope elements,
      Layout.array_relocate]
  | .record opening members closing => by
    rw [Expression.relocate, Expression.emit, Expression.emit, memberItems_relocate scope members,
      Layout.record_relocate]
  | .construct keyword className opening arguments closing => by
    simp [Expression.relocate, Expression.emit, emitArguments_relocate scope arguments]
  | .conditional test question consequent colon alternate => by
    have hcaptured := scope.captured_relocate r [consequent, alternate]
    simp only [List.map_cons, List.map_nil] at hcaptured
    simp only [Expression.relocate, Expression.emit, test.emit_relocate scope,
      consequent.emit_relocate scope, alternate.emit_relocate scope,
      Expression.containsMutating_relocate, hcaptured, Capture.scopeObject_relocate,
      Capture.deferred_relocate]
    split <;> simp
  | .coalesce left operator right => by
    have hcaptured := scope.captured_relocate r [right]
    simp only [List.map_cons, List.map_nil] at hcaptured
    simp only [Expression.relocate, Expression.emit, left.emit_relocate scope,
      right.emit_relocate scope, Expression.containsMutating_relocate, hcaptured,
      Capture.scopeObject_relocate, Capture.deferred_relocate]
    split <;> simp
  | .template opening parts closing => by
    rw [Expression.relocate, Expression.emit, Expression.emit,
      templateOperands_relocate scope parts, Layout.concatenation_relocate]
  | .comment c => c.pieces_relocate r

theorem emitArguments_relocate (scope : Scope) : (arguments : List Expression) →
    emitArguments scope (relocateArguments r arguments) =
      (emitArguments scope arguments).map (List.map (Piece.relocate r))
  | [] => rfl
  | argument :: rest => by
    simp [relocateArguments, emitArguments, argument.emit_relocate scope,
      emitArguments_relocate scope rest]

theorem elementItems_relocate (scope : Scope) : (elements : List Expression) →
    elementItems scope (relocateArguments r elements) =
      (elementItems scope elements).map (Item.relocate r)
  | [] => rfl
  | element :: rest => by
    simp [relocateArguments, elementItems, Item.relocate, element.emit_relocate scope,
      elementItems_relocate scope rest]

theorem memberItems_relocate (scope : Scope) : (members : List Member) →
    memberItems scope (relocateMembers r members) =
      (memberItems scope members).map (Item.relocate r)
  | [] => rfl
  | .pair key colon value :: rest => by
    simp [relocateMembers, memberItems, Item.relocate, Member.range, value.emit_relocate scope,
      memberItems_relocate scope rest]
  | .comment c :: rest => by
    simp [relocateMembers, memberItems, Item.relocate, memberItems_relocate scope rest]

theorem templateOperands_relocate (scope : Scope) : (parts : List TemplatePart) →
    templateOperands scope (relocateParts r parts) =
      (templateOperands scope parts).map (List.map (Piece.relocate r))
  | [] => rfl
  | .text token :: rest => by
    simp [relocateParts, templateOperands, Layout.textOperands_relocate,
      templateOperands_relocate scope rest]
  | .expression e :: rest => by
    simp [relocateParts, templateOperands, e.emit_relocate scope,
      templateOperands_relocate scope rest]

theorem emitParameters_relocate (scope : Scope) : (parameters : List Parameter) →
    emitParameters scope (relocateParameters r parameters) =
      (emitParameters scope parameters).map (List.map (Piece.relocate r))
  | [] => rfl
  | ⟨name, none, type?⟩ :: rest => by
    simp [relocateParameters, emitParameters, emitParameters_relocate scope rest]
  | ⟨name, some value, type?⟩ :: rest => by
    simp [relocateParameters, emitParameters, value.emit_relocate scope,
      emitParameters_relocate scope rest]

theorem FunctionLiteral.emit_relocate (scope : Scope) (name? : Option Piece) :
    (f : FunctionLiteral) →
    (f.relocate r).emit scope (name?.map (Piece.relocate r)) =
      (f.emit scope name?).map (Piece.relocate r)
  | ⟨keyword, opening, parameters, closing, returnType?, body, endToken⟩ => by
    have hrange := (FunctionLiteral.mk keyword opening parameters closing returnType? body
      endToken).range_relocate r
    rw [FunctionLiteral.relocate] at hrange ⊢
    simp only [FunctionLiteral.emit, hrange, Range.start_relocate, Position.line_relocate,
      body.emit_relocate scope, emitParameters_relocate scope parameters]
    cases name? <;> simp

theorem Block.emit_relocate (scope : Scope) (ownerLine : Nat) : (b : Block) →
    (b.relocate r).emit scope (r.line ownerLine) = (b.emit scope ownerLine).map (Piece.relocate r)
  | ⟨start, statements⟩ => by
    rw [Block.relocate, Block.emit, Block.emit, statementItems_relocate scope statements]
    exact Layout.block_relocate r _ (some ownerLine)

theorem statementItems_relocate (scope : Scope) : (statements : List Statement) →
    statementItems scope (relocateStatements r statements) =
      (statementItems scope statements).map (Item.relocate r)
  | [] => rfl
  | statement :: rest => by
    simp [relocateStatements, statementItems, Item.relocate, statement.range_relocate,
      statement.emit_relocate scope, statementItems_relocate scope rest]

theorem emitElseIfs_relocate (scope : Scope) : (clauses : List ElseIf) →
    emitElseIfs scope (relocateElseIfs r clauses) =
      (emitElseIfs scope clauses).map (Piece.relocate r)
  | [] => rfl
  | ⟨keyword, condition, then?, body⟩ :: rest => by
    simp [relocateElseIfs, emitElseIfs, ElseIf.range, condition.emit_relocate scope,
      body.range_relocate, ← Range.relocate_cover, body.emit_relocate scope,
      emitElseIfs_relocate scope rest]

theorem emitItems_relocate (scope : Scope) : (items : List PrintItem) →
    emitItems scope (relocateItems r items) =
      (emitItems scope items).map (List.map (Piece.relocate r))
  | [] => rfl
  | .expression e :: rest => by
    simp [relocateItems, emitItems, e.emit_relocate scope, emitItems_relocate scope rest]
  | .separator token :: rest => emitItems_relocate scope rest

theorem Assignment.emit_relocate (scope : Scope) : (a : Assignment) →
    (a.relocate r).emit scope = (a.emit scope).map (Piece.relocate r)
  | ⟨name, operator, value⟩ => by
    simp [Assignment.relocate, Assignment.emit, value.emit_relocate scope]

theorem Statement.emit_relocate (scope : Scope) : (s : Statement) →
    (s.relocate r).emit scope = (s.emit scope).map (Piece.relocate r)
  | .assignment a => a.emit_relocate scope
  | .expression e => e.emit_relocate scope
  | .comment c => c.pieces_relocate r
  | .branch keyword condition then? body elseIfs none end? => by
    have hrange :=
      (Statement.branch keyword condition then? body elseIfs none end?).range_relocate r
    rw [Statement.relocate] at hrange ⊢
    simp [Statement.emit, hrange, condition.emit_relocate scope, body.emit_relocate scope,
      emitElseIfs_relocate scope elseIfs]
  | .branch keyword condition then? body elseIfs (some ⟨elseToken, otherwise⟩) end? => by
    have hrange := (Statement.branch keyword condition then? body elseIfs
      (some ⟨elseToken, otherwise⟩) end?).range_relocate r
    rw [Statement.relocate] at hrange ⊢
    simp [Statement.emit, hrange, Else.range, condition.emit_relocate scope,
      body.emit_relocate scope, emitElseIfs_relocate scope elseIfs, otherwise.range_relocate,
      ← Range.relocate_cover, otherwise.emit_relocate scope]
  | .forLoop keyword counter toToken limit none body endToken => by
    have hrange := (Statement.forLoop keyword counter toToken limit none body
      endToken).range_relocate r
    rw [Statement.relocate] at hrange ⊢
    simp [Statement.emit, hrange, counter.emit_relocate scope, limit.emit_relocate scope,
      body.emit_relocate scope]
  | .forLoop keyword counter toToken limit (some ⟨stepToken, amount⟩) body endToken => by
    have hrange := (Statement.forLoop keyword counter toToken limit (some ⟨stepToken, amount⟩) body
      endToken).range_relocate r
    rw [Statement.relocate] at hrange ⊢
    simp [Statement.emit, hrange, counter.emit_relocate scope, limit.emit_relocate scope,
      amount.emit_relocate scope, body.emit_relocate scope]
  | .forEach keyword item inToken target body endToken => by
    have hrange := (Statement.forEach keyword item inToken target body endToken).range_relocate r
    rw [Statement.relocate] at hrange ⊢
    simp [Statement.emit, hrange, target.emit_relocate scope, body.emit_relocate scope]
  | .whileLoop keyword condition body endToken => by
    have hrange := (Statement.whileLoop keyword condition body endToken).range_relocate r
    rw [Statement.relocate] at hrange ⊢
    simp [Statement.emit, hrange, condition.emit_relocate scope, body.emit_relocate scope]
  | .memberSet object dot name value => by
    simp [Statement.relocate, Statement.emit, object.emit_relocate scope, value.emit_relocate scope]
  | .indexSet object opening key closing value => by
    simp [Statement.relocate, Statement.emit, object.emit_relocate scope, key.emit_relocate scope,
      value.emit_relocate scope]
  | .increment value operator => by
    simp [Statement.relocate, Statement.emit, value.emit_relocate scope]
  | .print keyword items => by
    simp only [Statement.relocate, Statement.emit, emitItems_relocate scope items, List.isEmpty_map]
    cases (emitItems scope items).isEmpty <;> simp
  | .goto keyword label | .label keyword label | .library keyword label
  | .importFile keyword label => by
    simp [Statement.relocate, Statement.emit]
  | .returning keyword none | .keyword _ keyword => rfl
  | .returning keyword (some value) => by
    simp [Statement.relocate, Statement.emit, value.emit_relocate scope]
  | .function name literal => by
    rw [Statement.relocate, Statement.emit, Statement.emit, ← literal.emit_relocate scope]
    rfl
  | .namespaceBlock keyword name body endToken => by
    have hinside : scope.inside (name.relocate r) = scope.inside name := by
      rw [Scope.inside, DottedName.parts_relocate, Scope.inside]
    rw [Statement.relocate, Statement.emit, Statement.emit, hinside,
      statementItems_relocate (scope.inside name) body, Layout.body_relocate]
  | .tryCatch keyword body catchToken exceptionName handler endToken => by
    have hrange := (Statement.tryCatch keyword body catchToken exceptionName handler
      endToken).range_relocate r
    rw [Statement.relocate] at hrange ⊢
    simp [Statement.emit, hrange, body.emit_relocate scope, ← Range.relocate_cover,
      handler.emit_relocate scope]
  | .throwing keyword value => by
    simp [Statement.relocate, Statement.emit, value.emit_relocate scope]

end

/-! ## Trees in states -/

/-- The tree at the other place. -/
def Tree.relocate (r : Relocation) : Tree → Tree
  | body b => body (relocateStatements r b)
  | block b => block (b.relocate r)
  | statement s => statement (s.relocate r)
  | expression e => expression (e.relocate r)

theorem Tree.emit_relocate (tree : Tree) (scope : Scope) (ownerLine? : Option Nat) :
    (tree.relocate r).emit scope (ownerLine?.map r.line) =
      (tree.emit scope ownerLine?).map (Piece.relocate r) := by
  cases tree with
  | body b =>
    rw [relocate, emit, emit, Body.emit, Body.emit, statementItems_relocate, Layout.body_relocate]
  | block b =>
    obtain ⟨start, statements⟩ := b
    rw [relocate, emit, emit, Block.relocate, Block.emit, Block.emit, statementItems_relocate,
      Layout.block_relocate]
  | statement s => exact s.emit_relocate r scope
  | expression e => exact e.emit_relocate r scope

/-- The fragment from the other place. -/
def Fragment.relocate (r : Relocation) : Fragment → Fragment
  | plain s => plain s
  | mapped position source s => mapped (position.relocate r) source s

@[simp] theorem Fragment.text_relocate (f : Fragment) : (f.relocate r).text = f.text := by
  cases f <;> rfl

/-- The node at the other place. -/
def Ancestor.relocate (r : Relocation) : Ancestor → Ancestor
  | node range => node (range.relocate r)
  | namespaceBlock range name => namespaceBlock (range.relocate r) (name.relocate r)

namespace State

/-- The state in a file that lies at the other place. -/
def relocate (r : Relocation) (s : State) : State :=
  { s with ancestors := s.ancestors.map (Ancestor.relocate r) }

variable (s : State) (tree : Tree) (pieces : List Piece)

theorem enclosingParts_relocate :
    (s.relocate r).enclosingNamespace?.map DottedName.parts =
      s.enclosingNamespace?.map DottedName.parts := by
  rw [enclosingNamespace?, enclosingNamespace?, relocate]
  induction s.ancestors with
  | nil => rfl
  | cons ancestor rest ih =>
    cases ancestor with
    | node range => exact ih
    | namespaceBlock range name => exact congrArg some (name.parts_relocate r)

theorem scope_relocate : (s.relocate r).scope = s.scope := by
  rw [scope, scope, enclosingParts_relocate]
  rfl

theorem ownerLine_relocate : (s.relocate r).parent?.map (·.range.start.line) =
    (s.parent?.map (·.range.start.line)).map r.line := by
  rw [parent?, parent?, relocate]
  cases s.ancestors with
  | nil => rfl
  | cons ancestor rest => cases ancestor <;> rfl

theorem pieces_relocate :
    (s.relocate r).pieces (tree.relocate r) = (s.pieces tree).map (Piece.relocate r) := by
  rw [State.pieces, State.pieces, scope_relocate, ownerLine_relocate, Tree.emit_relocate]

theorem render_relocate :
    s.render (pieces.map (Piece.relocate r)) = (s.render pieces).map (Fragment.relocate r) := by
  rw [render, render, Piece.renderAll, Piece.renderAll, List.flatMap_map, List.map_flatMap]
  apply List.flatMap_congr
  intro piece _
  cases piece with
  | emptyBlockBreak =>
    simp only [Piece.relocate_emptyBlockBreak, Piece.shift, Piece.render]
    split <;> rfl
  | _ => rfl

end State

theorem Piece.helpers_relocate (pieces : List Piece) :
    helpers (pieces.map (relocate r)) = helpers pieces := by
  rw [helpers, helpers, List.filterMap_map]
  apply List.filterMap_congr
  intro piece _
  cases piece <;> rfl

/-! ## Source maps -/

/-- The mapping from the other place. -/
def Mapping.relocate (r : Relocation) (m : Mapping) : Mapping :=
  { m with origin := m.origin.relocate r }

/-- The generator of the source map from the other place. -/
def SourceMap.Generator.relocate (r : Relocation) (g : SourceMap.Generator) :
    SourceMap.Generator :=
  { g with kept := g.kept.map (Mapping.relocate r) }

section

variable {r : Relocation} (hcolumn : Function.Injective r.column)

include hcolumn

theorem Position.relocate_injective : Function.Injective (Position.relocate r) := by
  rintro ⟨line, column⟩ ⟨line', column'⟩ h
  have hline : line = line' := r.strictMono_line.injective (congrArg Position.line h)
  have hcolumns : column = column' := hcolumn (congrArg Position.column h)
  rw [hline, hcolumns]

theorem Mapping.continues_relocate (m previous : Mapping) :
    (m.relocate r).continues (previous.relocate r) = m.continues previous := by
  have horigin : (previous.origin.relocate r == m.origin.relocate r) =
      (previous.origin == m.origin) := by
    rw [Bool.eq_iff_iff, beq_iff_eq, beq_iff_eq, (Position.relocate_injective hcolumn).eq_iff]
  rw [continues, continues]
  simp only [Mapping.relocate, horigin]

theorem SourceMap.Generator.addMapping_relocate (g : SourceMap.Generator) (m : Mapping) :
    (g.relocate r).addMapping (m.relocate r) = (g.addMapping m).relocate r := by
  -- Whether a mapping is kept depends on its origin: equal origins have to stay equal, and no
  -- others may become so.
  have hlast : (g.relocate r).kept.back?.any (m.relocate r).continues =
      g.kept.back?.any m.continues := by
    rw [Generator.relocate, Array.back?_map, Option.any_map]
    exact congrArg (g.kept.back?.any ·) (funext (m.continues_relocate hcolumn))
  rw [addMapping, addMapping, hlast]
  split
  · rfl
  · simp [Generator.relocate]

/-- Where a mapping is kept and where it begins in the code is the same from the other place. -/
theorem Fragment.addAllTo_relocate (g : SourceMap.Generator) (p : Position)
    (fragments : List Fragment) :
    addAllTo (g.relocate r) p (fragments.map (relocate r)) =
      (addAllTo g p fragments).relocate r := by
  induction fragments generalizing g p with
  | nil => rfl
  | cons f rest ih =>
    have hfirst : (f.relocate r).addTo (g.relocate r) p = (f.addTo g p).relocate r := by
      cases f with
      | plain s => rfl
      | mapped position path s =>
        exact SourceMap.Generator.addMapping_relocate hcolumn (g.addSource path).1
          ⟨p, (g.addSource path).2, position, none⟩
    rw [List.map_cons, addAllTo, addAllTo, hfirst, text_relocate, ih]

end

/-! ## Lines and columns -/

namespace Tree

variable (tree : Tree) (s : State)

theorem walk_relocate :
    (tree.relocate r).walk (s.relocate r) =
      ((tree.walk s).1.map (Fragment.relocate r), (tree.walk s).2.relocate r) := by
  rw [walk_eq_emit, walk_eq_emit, State.emit, State.emit, State.pieces_relocate,
    Piece.helpers_relocate]
  exact congrArg (·, _) (s.render_relocate r (s.pieces tree))

/-- Only a block looks at the node that the walk is in. -/
theorem walk_relocate_of_ne_block (h : ∀ b, tree ≠ .block b) :
    (tree.relocate r).walk s = ((tree.walk s).1.map (Fragment.relocate r), (tree.walk s).2) := by
  have hpieces : s.pieces (tree.relocate r) = (s.pieces tree).map (Piece.relocate r) := by
    rw [State.pieces, State.pieces, ← emit_relocate]
    cases tree with
    | block b => exact absurd rfl (h b)
    | body | statement | expression => rfl
  rw [walk_eq_emit, walk_eq_emit, State.emit, State.emit, hpieces, Piece.helpers_relocate,
    State.render_relocate]

/-- Trees that differ in columns only are emitted as the same texts. -/
theorem texts_walk_of_columnless {tree tree' : Tree}
    (h : tree'.relocate .columnless = tree.relocate .columnless) :
    (tree'.walk s).1.map Fragment.text = (tree.walk s).1.map Fragment.text ∧
    (tree'.walk s).2 = (tree.walk s).2 := by
  have hwalk : (tree'.relocate .columnless).walk (s.relocate .columnless) =
      (tree.relocate .columnless).walk (s.relocate .columnless) := by rw [h]
  rw [walk_relocate, walk_relocate, Prod.mk.injEq] at hwalk
  obtain ⟨hfragments, hafter⟩ := hwalk
  have htexts (fragments : List Fragment) :
      (fragments.map (Fragment.relocate .columnless)).map Fragment.text =
        fragments.map Fragment.text := by
    simp [Function.comp_def]
  refine ⟨?_, ?_⟩
  · rw [← htexts, hfragments, htexts]
  · rw [walk_eq_emit, walk_eq_emit] at hafter ⊢
    exact congrArg (fun after => { s with helpers := after.helpers }) hafter

end Tree

theorem Printer.print_relocate {r : Relocation} (hcolumn : Function.Injective r.column)
    (p : Printer) (body : Body) (source output : String) :
    p.print (relocateStatements r body) source output =
      { p.print body source output with
        sourceMap := if p.options.sourceMap then
            some ((Fragment.addAllTo { file := output, sourceRoot := p.options.sourceRoot } ⟨0, 0⟩
              (p.fragments body source)).relocate r).generate
          else none } := by
  let start : State := ⟨p.options, p.resolver, source, 0, [], {}⟩
  let generator : SourceMap.Generator := { file := output, sourceRoot := p.options.sourceRoot }
  have hwalk := (Tree.body body).walk_relocate r start
  rw [Tree.walk_eq_emit, Tree.walk_eq_emit] at hwalk
  have hfragments : p.fragments (relocateStatements r body) source =
      (p.fragments body source).map (Fragment.relocate r) := congrArg Prod.fst hwalk
  have hhelpers : (start.emit (.body (relocateStatements r body))).2.helpers =
      (start.emit (.body body)).2.helpers := congrArg (·.2.helpers) hwalk
  have hcode : Fragment.code (p.fragments (relocateStatements r body) source) =
      Fragment.code (p.fragments body source) := by
    simp [hfragments, Fragment.code, Function.comp_def]
  have hempty : generator.relocate r = generator := by
    simp [generator, SourceMap.Generator.relocate]
  have hmap : Fragment.addAllTo generator ⟨0, 0⟩ (p.fragments (relocateStatements r body) source) =
      (Fragment.addAllTo generator ⟨0, 0⟩ (p.fragments body source)).relocate r := by
    rw [hfragments, ← Fragment.addAllTo_relocate hcolumn, hempty]
  rw [print_eq, print_eq, hcode, hhelpers, Fragment.assemble, hmap]

namespace Tree

/-- Only the order of the lines matters to emission. If lines are moved and columns kept, the same
fragments are written, each mapped to where its origin has been moved, and the same helpers are
recorded; a block has to be told where the node around it has been moved, too. So a file has the
same code, and its source map is made of the same mappings with their origins moved. And columns do
not matter to the texts at all. -/
theorem walk_ofLines (line : Nat → Nat) (h : StrictMono line) :
    (∀ (tree : Tree) (s : State),
      (tree.relocate (.ofLines line h)).walk (s.relocate (.ofLines line h)) =
        ((tree.walk s).1.map (Fragment.relocate (.ofLines line h)),
          (tree.walk s).2.relocate (.ofLines line h)) ∧
      ((∀ b, tree ≠ .block b) →
        (tree.relocate (.ofLines line h)).walk s =
          ((tree.walk s).1.map (Fragment.relocate (.ofLines line h)), (tree.walk s).2))) ∧
    (∀ (p : Printer) (body : Body) (source output : String),
      p.print (relocateStatements (.ofLines line h) body) source output =
        { p.print body source output with
          sourceMap := if p.options.sourceMap then
              some ((Fragment.addAllTo { file := output, sourceRoot := p.options.sourceRoot }
                ⟨0, 0⟩ (p.fragments body source)).relocate (.ofLines line h)).generate
            else none }) ∧
    ∀ (tree tree' : Tree) (s : State),
      tree'.relocate .columnless = tree.relocate .columnless →
        (tree'.walk s).1.map Fragment.text = (tree.walk s).1.map Fragment.text ∧
        (tree'.walk s).2 = (tree.walk s).2 := by
  refine ⟨?_, ?_, ?_⟩
  · intro tree s
    exact ⟨tree.walk_relocate _ s, tree.walk_relocate_of_ne_block _ s⟩
  · exact Printer.print_relocate Function.injective_id
  · intro tree tree' s
    exact texts_walk_of_columnless s

/-- An array with a comment on the line of its first element, once with a blank line behind every
line, and once with other columns. -/
theorem walk_ofLines_array :
    let h : StrictMono (2 * · : Nat → Nat) := strictMono_mul_left_of_pos two_pos
    let token (text : String) (line column : Nat) : Token :=
      .ofStart .integerLiteral text ⟨line, column⟩
    let tree (column : Nat) : Tree := .expression (.array (token "[" 0 column)
      [.literal (token "1" 1 0), .comment ⟨token "' one" 1 column, [], .element⟩,
        .literal (token "2" 2 (column + 9))] (token "]" 3 0))
    let s : State := ⟨{}, .none, "f", 0, [], {}⟩
    let moved := (tree 4).relocate (.ofLines _ h)
    (∀ b, tree 4 ≠ .block b) ∧ (tree 0).relocate .columnless = (tree 4).relocate .columnless ∧
      ((tree 4).walk s).1.map Fragment.text =
        ["[", "\n", "    ", "1", ",", " ", "' one", "\n", "    ", "2", "\n", "", "]"] ∧
      (moved.walk s).1 = ((tree 4).walk s).1.map (Fragment.relocate (.ofLines _ h)) ∧
      (moved.walk s).1 ≠ ((tree 4).walk s).1 ∧
      ((tree 0).walk s).1.map Fragment.text = ((tree 4).walk s).1.map Fragment.text := by
  intro h token tree s moved
  have hblock : ∀ b, tree 4 ≠ .block b := nofun
  obtain ⟨hlines, -, hcolumns⟩ := walk_ofLines (2 * ·) h
  have hmoved : (moved.walk s).1 = ((tree 4).walk s).1.map (Fragment.relocate (.ofLines _ h)) :=
    congrArg Prod.fst ((hlines (tree 4) s).2 hblock)
  exact ⟨hblock, rfl, by decide, hmoved, by decide, (hcolumns (tree 4) (tree 0) s rfl).1⟩

end Tree

end Downlevel
