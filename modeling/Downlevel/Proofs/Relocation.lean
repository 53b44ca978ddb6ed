import Mathlib.Order.Basic
import Downlevel.Emit
import Downlevel.Proofs.Evaluation
import Downlevel.Tree.Relocation

/-!
# Relocated trees

What is asked about a tree before anything is written: the ranges of its nodes, the names in it,
whether an operand may have a side effect. A relocation keeps the order of positions, so the range
of a node, which is made of least and greatest positions, is relocated with the node; and two
positions are on one line exactly if they were before. What does not look at positions is the same.
-/

namespace Downlevel

variable (r : Relocation)

/-! ## Positions and ranges -/

@[simp] theorem Relocation.beq_line (m n : Nat) : (r.line m == r.line n) = (m == n) := by
  rw [Bool.eq_iff_iff, beq_iff_eq, beq_iff_eq, r.strictMono_line.injective.eq_iff]

namespace Position

@[simp] theorem line_relocate (p : Position) : (p.relocate r).line = r.line p.line := rfl

theorem relocate_le {p q : Position} (h : p ≤ q) : p.relocate r ≤ q.relocate r := by
  obtain hline | ⟨hline, hcolumn⟩ := h
  · exact .inl (r.strictMono_line hline)
  · exact .inr ⟨congrArg r.line hline, r.monotone_column hcolumn⟩

@[simp] theorem relocate_min (p q : Position) :
    (min p q).relocate r = min (p.relocate r) (q.relocate r) := by
  apply Std.le_antisymm
  · exact Std.le_min_iff.mpr ⟨relocate_le r Std.min_le_left, relocate_le r Std.min_le_right⟩
  · rcases Std.min_eq_or (a := p) (b := q) with h | h <;> rw [h]
    · exact Std.min_le_left
    · exact Std.min_le_right

@[simp] theorem relocate_max (p q : Position) :
    (max p q).relocate r = max (p.relocate r) (q.relocate r) := by
  apply Std.le_antisymm
  · rcases Std.max_eq_or (a := p) (b := q) with h | h <;> rw [h]
    · exact Std.left_le_max
    · exact Std.right_le_max
  · exact Std.max_le_iff.mpr ⟨relocate_le r Std.left_le_max, relocate_le r Std.right_le_max⟩

end Position

namespace Range

variable (a b : Range)

@[simp] theorem start_relocate : (a.relocate r).start = a.start.relocate r := rfl

@[simp] theorem stop_relocate : (a.relocate r).stop = a.stop.relocate r := rfl

@[simp] theorem relocate_point (p : Position) : (point p).relocate r = point (p.relocate r) := rfl

@[simp] theorem relocate_cover : (a.cover b).relocate r = (a.relocate r).cover (b.relocate r) := by
  simp [relocate, cover]

@[simp] theorem relocate_coverList (ranges : List Range) :
    (a.coverList ranges).relocate r = (a.relocate r).coverList (ranges.map (relocate r)) := by
  induction ranges generalizing a with
  | nil => rfl
  | cons b rest ih => exact (ih (a.cover b)).trans (by rw [relocate_cover]; rfl)

@[simp] theorem touches_relocate : (a.relocate r).touches (b.relocate r) = a.touches b := by
  simp [touches]

@[simp] theorem meetsLine_relocate (line : Nat) :
    (a.relocate r).meetsLine (r.line line) = a.meetsLine line := by
  simp [meetsLine]

end Range

namespace Token

@[simp] theorem kind_relocate (t : Token) : (t.relocate r).kind = t.kind := rfl

@[simp] theorem text_relocate (t : Token) : (t.relocate r).text = t.text := rfl

@[simp] theorem range_relocate (t : Token) : (t.relocate r).range = t.range.relocate r := rfl

@[simp] theorem start_relocate (t : Token) : (t.relocate r).start = t.start.relocate r := rfl

end Token

@[simp] theorem Comment.range_relocate (c : Comment) :
    (c.relocate r).range = c.range.relocate r := by
  simp [Comment.relocate, Comment.range, Function.comp_def]

namespace DottedName

variable (n : DottedName)

@[simp] theorem range_relocate : (n.relocate r).range = n.range.relocate r := by
  simp [relocate, range, Function.comp_def, Link.relocate]

@[simp] theorem start_relocate : (n.relocate r).start = n.start.relocate r := by
  simp [start]

@[simp] theorem parts_relocate : (n.relocate r).parts = n.parts := by
  simp [relocate, parts, tokens, Function.comp_def, Link.relocate]

@[simp] theorem text_relocate (style : NameStyle) : (n.relocate r).text style = n.text style := by
  simp [text]

theorem extend_relocate (link : Link) :
    (n.relocate r).extend (link.relocate r) = (n.extend link).relocate r := by
  simp [relocate, extend]

theorem ofExpression?_relocate (e : Expression) :
    ofExpression? (e.relocate r) = (ofExpression? e).map (relocate r) := by
  cases e with
  | member object dot name =>
    rw [Expression.relocate, ofExpression?, ofExpression?, ofExpression?_relocate object,
      Option.map_map, Option.map_map]
    apply congrFun
    apply congrArg
    funext chain
    exact chain.extend_relocate r ⟨dot, name⟩
  | _ => rfl

end DottedName

/-! ## Nodes -/

mutual

@[simp] theorem Expression.range_relocate :
    (e : Expression) → (e.relocate r).range = e.range.relocate r
  | .binary left operator right => by
    simp [Expression.relocate, Expression.range, left.range_relocate, right.range_relocate]
  | .unary operator operand => by
    simp [Expression.relocate, Expression.range, operand.range_relocate]
  | .call callee opening arguments closing => by
    simp [Expression.relocate, Expression.range, callee.range_relocate,
      argumentRanges_relocate arguments]
  | .callfunc receiver operator method opening arguments closing => by
    simp [Expression.relocate, Expression.range, receiver.range_relocate,
      argumentRanges_relocate arguments]
  | .function literal => literal.range_relocate
  | .member object dot name | .xmlAttribute object dot name => by
    simp [Expression.relocate, Expression.range, object.range_relocate]
  | .identifier name | .literal name => rfl
  | .index object opening key closing => by
    simp [Expression.relocate, Expression.range, object.range_relocate, key.range_relocate]
  | .group opening inner closing => by
    simp [Expression.relocate, Expression.range, inner.range_relocate]
  | .array opening elements closing => by
    simp [Expression.relocate, Expression.range, argumentRanges_relocate elements]
  | .record opening members closing => by
    simp [Expression.relocate, Expression.range, memberRanges_relocate members]
  | .construct keyword className opening arguments closing => by
    simp [Expression.relocate, Expression.range, argumentRanges_relocate arguments]
  | .conditional test question consequent colon alternate => by
    simp [Expression.relocate, Expression.range, test.range_relocate, consequent.range_relocate,
      alternate.range_relocate]
  | .coalesce left operator right => by
    simp [Expression.relocate, Expression.range, left.range_relocate, right.range_relocate]
  | .template opening parts closing => by
    simp [Expression.relocate, Expression.range, partRanges_relocate parts]
  | .comment c => c.range_relocate r

theorem argumentRanges_relocate : (arguments : List Expression) →
    argumentRanges (relocateArguments r arguments) =
      (argumentRanges arguments).map (Range.relocate r)
  | [] => rfl
  | argument :: rest => by
    simp [relocateArguments, argumentRanges, argument.range_relocate, argumentRanges_relocate rest]

theorem memberRanges_relocate : (members : List Member) →
    memberRanges (relocateMembers r members) = (memberRanges members).map (Range.relocate r)
  | [] => rfl
  | .pair key colon value :: rest => by
    simp [relocateMembers, memberRanges, Member.range, value.range_relocate,
      memberRanges_relocate rest]
  | .comment c :: rest => by
    simp [relocateMembers, memberRanges, Member.range, memberRanges_relocate rest]

theorem partRanges_relocate : (parts : List TemplatePart) →
    partRanges (relocateParts r parts) = (partRanges parts).map (Range.relocate r)
  | [] => rfl
  | .text token :: rest => by
    simp [relocateParts, partRanges, TemplatePart.range, partRanges_relocate rest]
  | .expression e :: rest => by
    simp [relocateParts, partRanges, TemplatePart.range, e.range_relocate, partRanges_relocate rest]

theorem FunctionLiteral.range_relocate :
    (f : FunctionLiteral) → (f.relocate r).range = f.range.relocate r
  | ⟨keyword, opening, parameters, closing, returnType?, body, endToken⟩ => by
    simp [FunctionLiteral.relocate, FunctionLiteral.range, body.range_relocate]

theorem Block.range_relocate : (b : Block) → (b.relocate r).range = b.range.relocate r
  | ⟨start, statements⟩ => by
    simp [Block.relocate, Block.range, statementRanges_relocate statements]

theorem statementRanges_relocate : (statements : List Statement) →
    statementRanges (relocateStatements r statements) =
      (statementRanges statements).map (Range.relocate r)
  | [] => rfl
  | statement :: rest => by
    simp [relocateStatements, statementRanges, statement.range_relocate,
      statementRanges_relocate rest]

theorem elseIfRanges_relocate : (clauses : List ElseIf) →
    elseIfRanges (relocateElseIfs r clauses) = (elseIfRanges clauses).map (Range.relocate r)
  | [] => rfl
  | ⟨keyword, condition, then?, body⟩ :: rest => by
    simp [relocateElseIfs, elseIfRanges, ElseIf.range, condition.range_relocate,
      body.range_relocate, elseIfRanges_relocate rest]

theorem itemRanges_relocate : (items : List PrintItem) →
    itemRanges (relocateItems r items) = (itemRanges items).map (Range.relocate r)
  | [] => rfl
  | .expression e :: rest => by
    simp [relocateItems, itemRanges, PrintItem.range, e.range_relocate, itemRanges_relocate rest]
  | .separator token :: rest => by
    simp [relocateItems, itemRanges, PrintItem.range, itemRanges_relocate rest]

theorem Assignment.range_relocate :
    (a : Assignment) → (a.relocate r).range = a.range.relocate r
  | ⟨name, operator, value⟩ => by
    simp [Assignment.relocate, Assignment.range, value.range_relocate]

theorem Statement.range_relocate :
    (s : Statement) → (s.relocate r).range = s.range.relocate r
  | .assignment a => a.range_relocate
  | .expression e => e.range_relocate
  | .comment c => c.range_relocate r
  | .branch keyword condition then? body elseIfs none end? => by
    simp [Statement.relocate, Statement.range, condition.range_relocate, body.range_relocate,
      elseIfRanges_relocate elseIfs, Function.comp_def]
    cases end? <;> simp
  | .branch keyword condition then? body elseIfs (some ⟨elseToken, otherwise⟩) end? => by
    simp [Statement.relocate, Statement.range, Else.range, condition.range_relocate,
      body.range_relocate, elseIfRanges_relocate elseIfs, otherwise.range_relocate]
    cases end? <;> simp
  | .forLoop keyword counter toToken limit none body endToken => by
    simp [Statement.relocate, Statement.range, counter.range_relocate, limit.range_relocate,
      body.range_relocate]
  | .forLoop keyword counter toToken limit (some ⟨stepToken, amount⟩) body endToken => by
    simp [Statement.relocate, Statement.range, ForStep.range, counter.range_relocate,
      limit.range_relocate, body.range_relocate, amount.range_relocate]
  | .forEach keyword item inToken target body endToken => by
    simp [Statement.relocate, Statement.range, target.range_relocate, body.range_relocate]
  | .whileLoop keyword condition body endToken => by
    simp [Statement.relocate, Statement.range, condition.range_relocate, body.range_relocate]
  | .memberSet object dot name value => by
    simp [Statement.relocate, Statement.range, object.range_relocate, value.range_relocate]
  | .indexSet object opening key closing value => by
    simp [Statement.relocate, Statement.range, object.range_relocate, key.range_relocate,
      value.range_relocate]
  | .increment value operator => by
    simp [Statement.relocate, Statement.range, value.range_relocate]
  | .print keyword items => by
    simp [Statement.relocate, Statement.range, itemRanges_relocate items]
  | .goto keyword label | .label keyword label | .library keyword label
  | .importFile keyword label => by
    simp [Statement.relocate, Statement.range]
  | .returning keyword none | .keyword _ keyword => rfl
  | .returning keyword (some value) => by
    simp [Statement.relocate, Statement.range, value.range_relocate]
  | .function name literal => by
    simp [Statement.relocate, Statement.range, literal.range_relocate]
  | .namespaceBlock keyword name body endToken => by
    simp [Statement.relocate, Statement.range, statementRanges_relocate body]
  | .tryCatch keyword body catchToken exceptionName handler endToken => by
    simp [Statement.relocate, Statement.range, body.range_relocate, handler.range_relocate]
  | .throwing keyword value => by
    simp [Statement.relocate, Statement.range, value.range_relocate]

end

/-! ## What is evaluated and captured -/

theorem relocateArguments_eq (arguments : List Expression) :
    relocateArguments r arguments = arguments.map (Expression.relocate r) := by
  induction arguments with
  | nil => rfl
  | cons argument rest ih => rw [relocateArguments, ih, List.map_cons]

namespace Expression

@[simp] theorem isComment_relocate (e : Expression) : (e.relocate r).isComment = e.isComment := by
  cases e <;> rfl

@[simp] theorem isMutating_relocate (e : Expression) :
    (e.relocate r).isMutating = e.isMutating := by
  cases e <;> rfl

theorem identifier?_relocate (e : Expression) :
    (e.relocate r).identifier? = e.identifier?.map (Token.relocate r) := by
  cases e <;> rfl

theorem evaluated_relocate (e : Expression) :
    (e.relocate r).evaluated = e.evaluated.map (Expression.relocate r) := by
  cases e with
  | call | callfunc | construct => simp [relocate, evaluated, relocateArguments_eq]
  | array opening elements closing =>
    simp [relocate, evaluated, relocateArguments_eq, List.filter_map, Function.comp_def]
  | record opening members closing =>
    rw [relocate, evaluated, evaluated]
    induction members with
    | nil => rfl
    | cons member rest ih =>
      cases member with
      | pair key colon value => simp [relocateMembers, Member.value?, ih]
      | comment c => exact ih
  | template opening parts closing =>
    rw [relocate, evaluated, evaluated]
    induction parts with
    | nil => rfl
    | cons part rest ih =>
      cases part with
      | text token => exact ih
      | expression e => simp [relocateParts, TemplatePart.expression?, ih]
  | _ => rfl

/-- The walk through the relocated expression reaches what the other walk reaches, relocated. -/
theorem reachable_relocate (e : Expression) :
    (e.relocate r).reachable = e.reachable.map (Expression.relocate r) := by
  induction e using WellFounded.induction (measure (sizeOf : Expression → Nat)).wf with
  | _ e ih =>
    rw [reachable_eq, reachable_eq e, evaluated_relocate, List.flatMap_map, List.map_cons,
      List.map_flatMap]
    congr 1
    apply List.flatMap_congr
    intro part hpart
    exact ih part (sizeOf_evaluated_lt hpart)

@[simp] theorem containsMutating_relocate (e : Expression) :
    (e.relocate r).containsMutating = e.containsMutating := by
  rw [containsMutating, containsMutating, reachable_relocate, List.any_map]
  exact List.any_congr rfl fun inner => inner.isMutating_relocate r

theorem names_relocate (e : Expression) :
    (e.relocate r).names = e.names.map (Token.relocate r) := by
  rw [names, names, reachable_relocate, List.filterMap_map, List.map_filterMap]
  exact List.filterMap_congr fun inner _ => inner.identifier?_relocate r

end Expression

namespace Capture

theorem add_relocate (captured : List Token) (name : Token) :
    add (captured.map (Token.relocate r)) (name.relocate r) =
      (add captured name).map (Token.relocate r) := by
  have hkey (t : Token) : key (t.relocate r) = key t := rfl
  induction captured with
  | nil => rfl
  | cons first rest ih =>
    rw [List.map_cons, add, add, ih, hkey, hkey]
    split
    · rfl
    · split <;> rfl

theorem foldl_add_relocate (captured names : List Token) :
    (names.map (Token.relocate r)).foldl add (captured.map (Token.relocate r)) =
      (names.foldl add captured).map (Token.relocate r) := by
  induction names generalizing captured with
  | nil => rfl
  | cons name rest ih => rw [List.map_cons, List.foldl_cons, add_relocate, ih, List.foldl_cons]

end Capture

/-- Relocated operands capture the same variables, at the other place. -/
theorem Scope.captured_relocate (scope : Scope) (operands : List Expression) :
    scope.captured (operands.map (Expression.relocate r)) =
      (scope.captured operands).map (Token.relocate r) := by
  have hglobal (name : Token) :
      Capture.isGlobal scope.resolver (scope.enclosingName .dotted) (name.relocate r) =
        Capture.isGlobal scope.resolver (scope.enclosingName .dotted) name := rfl
  simp [captured, Capture.ofOperands, List.flatMap_map, Expression.names_relocate,
    ← List.map_flatMap, List.filter_map, Function.comp_def, hglobal]
  exact Capture.foldl_add_relocate r [] _

end Downlevel
