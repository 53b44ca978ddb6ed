import Downlevel.Printer
import Downlevel.Proofs.Calls
import Downlevel.Walk

/-!
# Where the walk ends

The walk through a tree changes the state all the time, and in the end it has changed nothing but
the helpers. That it is so rests on two facts: whoever goes deeper or into a node comes back
(`State.withBlock_eq`, `State.withAncestor_eq`), and what a stretch of the walk writes depends on
the state only through the scope, the depth and the line on which the node around it opens. So a
stretch *performs* pieces (`Walk.Performs`): wherever its scope is that of the state, it writes the
fragments of the pieces and records the helpers that they name. Stretches one after the other
perform the pieces of each.

Main statements: the walk through a tree ends where `State.emit` says (`Tree.walk_eq_emit`), and it
leaves the state as it was but for the helpers that the tree requires (`State.walk_frame`).
-/

namespace Downlevel

/-! ## Recorded calls -/

namespace State

variable (s : State)

/-- The state in which the helpers that the pieces name have been recorded, too. -/
def record (pieces : List Piece) : State :=
  { s with helpers := s.helpers.insertList (Piece.helpers pieces) }

theorem enclosingName_scope (style : NameStyle) :
    s.scope.enclosingName style = s.enclosingName? style :=
  Option.map_map ..

theorem record_append (pieces more : List Piece) :
    (s.record pieces).record more = s.record (pieces ++ more) := by
  simp [record, HelperSet.insertList]

@[simp] theorem render_record (pieces more : List Piece) :
    (s.record pieces).render more = s.render more := rfl

theorem render_append (pieces more : List Piece) :
    s.render (pieces ++ more) = s.render pieces ++ s.render more :=
  Piece.renderAll_append ..

theorem render_nested (pieces : List Piece) :
    s.render (Piece.nested pieces) = { s with depth := s.depth + 1 }.render pieces :=
  Piece.renderAll_shift ..

theorem record_nested (pieces : List Piece) : s.record (Piece.nested pieces) = s.record pieces := by
  rw [record, Piece.nested, Piece.helpers_map_shift]
  rfl

variable {s} {α : Type} {action : State → α × State} {result : α} {pieces : List Piece}

/-- An action that only records helpers does so one level deeper, too, and comes up again. -/
theorem withBlock_eq
    (h : action { s with depth := s.depth + 1 } =
      (result, { s with depth := s.depth + 1 }.record pieces)) :
    s.withBlock action = (result, s.record pieces) := by
  simp [withBlock, h, record]

/-- It does so inside a node, too, and comes out of it again. -/
theorem withAncestor_eq {ancestor : Ancestor}
    (h : action { s with ancestors := ancestor :: s.ancestors } =
      (result, { s with ancestors := ancestor :: s.ancestors }.record pieces)) :
    s.withAncestor ancestor action = (result, s.record pieces) := by
  simp [withAncestor, h, record]

end State

namespace Walk

/-- In the given scope, the stretch writes the pieces and records the helpers that they name. -/
def Performs (w : Walk) (scope : Scope) (pieces : List Piece) : Prop :=
  ∀ s : State, s.scope = scope → w s = (s.render pieces, s.record pieces)

namespace Performs

variable {w more : Walk} {scope : Scope} {pieces others : List Piece}

theorem nothing : nothing.Performs scope [] := fun _ _ => rfl

theorem text (text : String) : (Walk.text text).Performs scope [.text text] := fun _ _ => rfl

theorem source (position : Position) (text : String) :
    (Walk.source position text).Performs scope [.written position text] := fun _ _ => rfl

theorem token (t : Token) : (Walk.token t).Performs scope [t.piece] := source t.start t.text

theorem commentedOut (t : Token) :
    (Walk.token t).Performs scope [.commentedOut t.start t.text] := fun _ _ => rfl

theorem tokenOr (fallback : String) (t? : Option Token) :
    (Walk.tokenOr fallback t?).Performs scope [Token.pieceOr fallback t?] := by
  cases t? with
  | none => exact text fallback
  | some t => exact token t

theorem lineBreak : Walk.lineBreak.Performs scope [.lineBreak] := fun _ _ => rfl

theorem indent : Walk.indent.Performs scope [.indent 0] := by
  intro s _
  show _ = (((Piece.indent 0).shift s.depth).render s.options s.source ++ [], s)
  rw [Piece.shift, Nat.zero_add]
  rfl

theorem helper (position : Position) (h : Helper) :
    (Walk.helper position h).Performs scope [.helper position h] := fun _ _ => rfl

theorem append (h : w.Performs scope pieces) (hmore : more.Performs scope others) :
    (w ++ more).Performs scope (pieces ++ others) := by
  intro s hs
  show ((w s).1 ++ (more (w s).2).1, (more (w s).2).2) = _
  rw [h s hs, hmore (s.record pieces) hs, State.render_record, State.render_append,
    State.record_append]

theorem newLine : Walk.newLine.Performs scope Piece.newLine := lineBreak.append indent

theorem deeper (h : w.Performs scope pieces) :
    (Walk.deeper w).Performs scope (Piece.nested pieces) := by
  intro s hs
  rw [State.render_nested, State.record_nested]
  exact State.withBlock_eq (h { s with depth := s.depth + 1 } hs)

theorem within_node (range : Range) (h : w.Performs scope pieces) :
    (Walk.within (.node range) w).Performs scope pieces := by
  intro s hs
  exact State.withAncestor_eq (h { s with ancestors := .node range :: s.ancestors } hs)

theorem within_namespace (range : Range) (name : DottedName)
    (h : w.Performs (scope.inside name) pieces) :
    (Walk.within (.namespaceBlock range name) w).Performs scope pieces := by
  rintro s rfl
  let inner : State := { s with ancestors := .namespaceBlock range name :: s.ancestors }
  exact State.withAncestor_eq (h inner rfl)

/-- Which stretch it is may depend on something. -/
theorem ite (condition : Prop) [Decidable condition] (h : w.Performs scope pieces)
    (hmore : more.Performs scope others) :
    (if condition then w else more).Performs scope (if condition then pieces else others) := by
  split
  · exact h
  · exact hmore

/-- Performed pieces may be bracketed another way. -/
theorem congr (h : w.Performs scope pieces) (heq : pieces = others) : w.Performs scope others := by
  rwa [← heq]

end Performs

/-! ## Sequences -/

/-- The stretches write the lists of pieces, one after the other. -/
def PerformAll (scope : Scope) : List Walk → List (List Piece) → Prop :=
  List.Forall₂ fun w pieces => w.Performs scope pieces

theorem PerformAll.isEmpty {scope : Scope} {walks : List Walk} {lists : List (List Piece)}
    (h : PerformAll scope walks lists) : walks.isEmpty = lists.isEmpty := by
  cases h <;> rfl

theorem PerformAll.separated {scope : Scope} {walks : List Walk} {lists : List (List Piece)}
    (separator : String) (h : PerformAll scope walks lists) :
    (Walk.separated separator walks).Performs scope (Piece.separated separator lists) := by
  induction h with
  | nil => exact .nothing
  | @cons w pieces walks lists hw hrest ih =>
    cases hrest with
    | nil => exact hw
    | cons =>
      refine ((hw.append (.text separator)).append ih).congr ?_
      simp [Piece.separated]

namespace Stop

/-- The stop is at the item, and its stretch writes the pieces of the item. -/
structure Performs (scope : Scope) (stop : Stop) (item : Item) : Prop where
  range : stop.range = item.range
  role : stop.role = item.role
  walk : stop.walk.Performs scope item.pieces

variable {scope : Scope} {stop : Stop} {item : Item} {stops : List Stop} {items : List Item}

theorem Performs.isComment (h : stop.Performs scope item) : stop.isComment = item.isComment := by
  rw [Stop.isComment, Item.isComment, h.role]

theorem Performs.isDeclaration (h : stop.Performs scope item) :
    stop.isDeclaration = item.isDeclaration := by
  rw [Stop.isDeclaration, Item.isDeclaration, h.role]

theorem Performs.joins (h : stop.Performs scope item) (previous : Range) :
    stop.joins previous = Layout.joins previous item := by
  rw [Stop.joins, Layout.joins, h.isComment, h.range]

/-- The stops are at the items. -/
def PerformAll (scope : Scope) : List Stop → List Item → Prop :=
  List.Forall₂ (Performs scope)

theorem PerformAll.isEmpty (h : PerformAll scope stops items) : stops.isEmpty = items.isEmpty := by
  cases h <;> rfl

theorem PerformAll.any_value (h : PerformAll scope stops items) :
    stops.any (!·.isComment) = items.any (!·.isComment) := by
  induction h with
  | nil => rfl
  | cons hstop _ ih => rw [List.any_cons, List.any_cons, ih, hstop.isComment]

theorem PerformAll.any_head_joins (h : PerformAll scope stops items) (previous : Range) :
    stops.head?.any (joins previous) = items.head?.any (Layout.joins previous) := by
  cases h with
  | nil => rfl
  | cons hstop _ => exact hstop.joins previous

theorem PerformAll.any_head_isDeclaration (h : PerformAll scope stops items) :
    stops.head?.any isDeclaration = items.head?.any Item.isDeclaration := by
  cases h with
  | nil => rfl
  | cons hstop _ => exact hstop.isDeclaration

theorem Performs.comma (hstop : stop.Performs scope item) (h : PerformAll scope stops items) :
    (stop.comma stops).Performs scope (Layout.comma item items) := by
  rw [Stop.comma, Layout.comma, hstop.isComment, h.any_value]
  exact .ite _ (.text ",") .nothing

namespace PerformAll

theorem blockItems (ownerLine? : Option Nat) (previous? : Option Range)
    (h : PerformAll scope stops items) :
    (Walk.blockItems ownerLine? previous? stops).Performs scope
      (Layout.blockItems ownerLine? previous? items) := by
  induction h generalizing previous? with
  | nil => exact .nothing
  | @cons stop item stops items hstop hrest ih =>
    rw [Walk.blockItems, hstop.isComment, hstop.range]
    exact ((Walk.Performs.ite _ (.text " ") .newLine).append hstop.walk).append (ih _)

theorem separator {previous : Stop} {previousItem : Item}
    (hprevious : previous.Performs scope previousItem) (hstop : stop.Performs scope item)
    (h : PerformAll scope stops items) :
    (Walk.separator previous stop stops.head?).Performs scope
      (Layout.separator previousItem item items.head?) := by
  rw [Walk.separator, Layout.separator, hstop.isComment, hstop.isDeclaration, hstop.range,
    hprevious.isComment, hprevious.range, h.any_head_isDeclaration]
  exact .ite _ (.text " ") (.ite _ (Performs.lineBreak.append .newLine) .newLine)

theorem bodyItems {previous : Stop} {previousItem : Item}
    (hprevious : previous.Performs scope previousItem) (h : PerformAll scope stops items) :
    (Walk.bodyItems previous stops).Performs scope (Layout.bodyItems previousItem items) := by
  induction h generalizing previous previousItem with
  | nil => exact .nothing
  | cons hstop hrest ih =>
    exact ((separator hprevious hstop hrest).append hstop.walk).append (ih hstop)

theorem body (h : PerformAll scope stops items) :
    (Walk.body stops).Performs scope (Layout.body items) := by
  cases h with
  | nil => exact .nothing
  | cons hstop hrest => exact hstop.walk.append (bodyItems hstop hrest)

theorem arrayItems (previous : Range) (h : PerformAll scope stops items) :
    (Walk.arrayItems previous stops).Performs scope (Layout.arrayItems previous items) := by
  induction h generalizing previous with
  | nil => exact .nothing
  | cons hstop hrest ih =>
    rw [Walk.arrayItems, Layout.arrayItems, hstop.joins, hstop.range]
    exact (((Walk.Performs.ite _ (.text " ") .newLine).append hstop.walk).append
      (hstop.comma hrest)).append (ih _)

theorem recordItems (previous : Range) (h : PerformAll scope stops items) :
    (Walk.recordItems previous stops).Performs scope (Layout.recordItems previous items) := by
  induction h generalizing previous with
  | nil => exact .nothing
  | cons hstop hrest ih =>
    rw [Walk.recordItems, Layout.recordItems, hstop.joins, hstop.range, any_head_joins hrest]
    exact ((((Walk.Performs.ite _ (.text " ") .indent).append hstop.walk).append
      (hstop.comma hrest)).append (.ite _ .nothing .lineBreak)).append (ih _)

theorem array (range : Range) (opening closing : Token) (h : PerformAll scope stops items) :
    (Walk.array range opening stops closing).Performs scope
      (Layout.array opening items closing) := by
  have hinner := ((h.arrayItems opening.range).deeper).within_node range
  rw [Walk.array, h.isEmpty]
  refine ((((Performs.token opening).append hinner).append
    (.ite _ .nothing .newLine)).append (.token closing)).congr ?_
  simp [Layout.array]

theorem record (range : Range) (opening closing : Token) (h : PerformAll scope stops items) :
    (Walk.record range opening stops closing).Performs scope
      (Layout.record opening items closing) := by
  have hinner := ((h.recordItems opening.range).deeper).within_node range
  rw [Walk.record, h.isEmpty, h.any_head_joins]
  refine (((((Performs.token opening).append (.ite _ .nothing .lineBreak)).append hinner).append
    (.ite _ .nothing .indent)).append (.token closing)).congr ?_
  simp [Layout.record]

end PerformAll

end Stop

/-! ### Blocks -/

/-- In the given scope, the stretch writes the pieces for the line on which the node opens that the
walk is in. -/
def PerformsBlock (w : Walk) (scope : Scope) (pieces : Option Nat → List Piece) : Prop :=
  ∀ s : State, s.scope = scope →
    let written := pieces (s.parent?.map (·.range.start.line))
    w s = (s.render written, s.record written)

theorem PerformsBlock.within_node {w : Walk} {scope : Scope} {pieces : Option Nat → List Piece}
    (range : Range) (h : w.PerformsBlock scope pieces) :
    (Walk.within (.node range) w).Performs scope (pieces (some range.start.line)) := by
  intro s hs
  exact State.withAncestor_eq (h { s with ancestors := .node range :: s.ancestors } hs)

theorem Stop.PerformAll.block {scope : Scope} {stops : List Stop} {items : List Item}
    (range : Range) (h : PerformAll scope stops items) :
    (Walk.block range stops).PerformsBlock scope fun ownerLine? =>
      Layout.block ownerLine? items := by
  intro s hs
  exact ((h.blockItems _ none).deeper.within_node range) s hs

theorem Performs.branch {w : Walk} {scope : Scope} {pieces : List Piece}
    (h : w.Performs scope pieces)
    (hempty : ∀ s : State, (s.render pieces).isEmpty = pieces.isEmpty) :
    (Walk.branch w).Performs scope (Layout.branch pieces) := by
  intro s hs
  rw [Layout.branch, State.render_append, ← State.record_append, Walk.branch, h s hs]
  show (if !(s.render pieces).isEmpty || s.options.newlineBeforeEmptyBlockEnd then _ else _) = _
  rw [hempty]
  cases pieces.isEmpty with
  | false => rfl
  | true =>
    have hbreak : s.render [.emptyBlockBreak] =
        if s.options.newlineBeforeEmptyBlockEnd then [.plain s.options.newLine.text] else [] :=
      List.append_nil _
    rw [if_pos rfl, hbreak]
    cases s.options.newlineBeforeEmptyBlockEnd with
    | false => exact Prod.ext (List.append_nil _).symm rfl
    | true => rfl

/-- A block that writes pieces writes fragments. -/
theorem isEmpty_render_block (ownerLine? : Option Nat) (items : List Item) (s : State) :
    (s.render (Layout.block ownerLine? items)).isEmpty =
      (Layout.block ownerLine? items).isEmpty := by
  cases items with
  | nil => rfl
  | cons item rest =>
    rw [Layout.block, Layout.blockItems]
    split <;> rfl

/-! ## Names, template strings and deferred operands -/

namespace Performs

variable {scope : Scope}

theorem reference (name : Token) :
    (Walk.reference name).Performs scope [.written name.start (scope.referredName name.text)] := by
  rintro s rfl
  rw [Walk.reference, Scope.referredName, Scope.isSibling, Scope.declaredName,
    State.enclosingName_scope, State.enclosingName_scope, State.enclosingName?,
    State.enclosingName?]
  cases s.enclosingNamespace? with
  | none => rfl
  | some enclosing =>
    by_cases h : s.resolver.isNamespaceFunction name.text (some (enclosing.text .dotted)) = true
    · simp [h, State.scope]
      rfl
    · simp [h, State.scope]
      rfl

theorem declared (name : Token) :
    (Walk.declared name).Performs scope [.written name.start (scope.declaredName name.text)] := by
  rintro s rfl
  rw [Walk.declared, Scope.declaredName, State.enclosingName_scope]
  cases s.enclosingName? .flattened <;> rfl

theorem capturing {operands : List Expression} {w : List Token → Walk} {pieces : List Piece}
    (h : (w (scope.captured operands)).Performs scope pieces) :
    (Walk.capturing operands w).Performs scope pieces := by
  rintro s rfl
  have hcaptured : s.scope.captured operands =
      Capture.ofOperands s.resolver (s.enclosingName? .dotted) operands := by
    rw [Scope.captured, State.enclosingName_scope]
    rfl
  rw [Walk.capturing, ← hcaptured]
  exact h s rfl

theorem scopeObject (captured : List Token) :
    (Walk.scopeObject captured).Performs scope (Capture.scopeObject captured) := by
  have hmembers : PerformAll scope
      (captured.map fun name => .text ("\"" ++ name.text ++ "\": ") ++ .token name)
      (captured.map fun name => [.text ("\"" ++ name.text ++ "\": "), name.piece]) := by
    induction captured with
    | nil => exact .nil
    | cons name rest ih => exact .cons ((text _).append (.token name)) ih
  cases captured with
  | nil => exact text _
  | cons name rest =>
    exact ((text "\x7b").append (hmembers.separated ", ")).append (text "\x7d")

theorem bindings (captured : List Token) :
    (Walk.bindings captured).Performs scope
      (captured.flatMap fun name => Piece.newLine ++ [Capture.binding name]) := by
  induction captured with
  | nil => exact nothing
  | cons name rest ih => exact (newLine.append (text _)).append ih

theorem deferred (captured : List Token) {operand : Walk} {pieces : List Piece}
    (h : operand.Performs scope pieces) :
    (Walk.deferred captured operand).Performs scope (Capture.deferred captured pieces) := by
  have hinner := (((bindings captured).append newLine).append (text "return ")).append h
  refine ((((text "function(scope)").append hinner.deeper).append newLine).append
    (text "end function")).congr ?_
  simp [Capture.deferred]

theorem comment (c : Comment) : c.walk.Performs scope c.pieces := by
  have hothers (tokens : List Token) : (Comment.walkLines tokens).Performs scope
      (tokens.flatMap fun token => Piece.newLine ++ [.comment token.start token.text]) := by
    induction tokens with
    | nil => exact nothing
    | cons token rest ih =>
      have hline : (Walk.token token).Performs scope [.comment token.start token.text] :=
        fun _ _ => rfl
      exact (newLine.append hline).append ih
  have hfirst : (Walk.token c.first).Performs scope [.comment c.first.start c.first.text] :=
    fun _ _ => rfl
  exact hfirst.append (hothers c.others)

theorem typeClause (clause? : Option TypeClause) :
    (TypeClause.walk clause?).Performs scope (TypeClause.pieces clause?) := by
  cases clause? with
  | none => exact nothing
  | some clause =>
    exact (((text " ").append (token clause.asToken)).append (text " ")).append (token clause.type)

theorem literal (t : Token) :
    (Expression.walkLiteral t).Performs scope [Expression.literalPiece t] := by
  rw [Expression.walkLiteral, Expression.literalPiece]
  split
  · exact source _ _
  · exact token t

end Performs

namespace PerformAll

variable {scope : Scope}

theorem append {walks more : List Walk} {lists others : List (List Piece)}
    (h : PerformAll scope walks lists) (hmore : PerformAll scope more others) :
    PerformAll scope (walks ++ more) (lists ++ others) :=
  List.rel_append h hmore

theorem literal (position : Position) (line : String) :
    PerformAll scope (Walk.textOperands.literal position line)
      (Layout.textOperands.literal position line) := by
  rw [Walk.textOperands.literal, Layout.textOperands.literal]
  split
  · exact .nil
  · exact .cons (.source position (Text.quote line)) .nil

theorem textOperands (position : Position) (lines : List String) :
    PerformAll scope (Walk.textOperands position lines) (Layout.textOperands position lines) := by
  induction lines using Walk.textOperands.induct with
  | case1 => exact .nil
  | case2 line => exact literal position line
  | case3 line next rest ih => exact (literal position line).append (.cons (.text _) ih)

theorem concatenation (opening : Token) {walks : List Walk} {lists : List (List Piece)}
    (h : PerformAll scope walks lists) :
    (Walk.concatenation opening walks).Performs scope (Layout.concatenation opening lists) := by
  have hsum := h.separated " + "
  cases h with
  | nil => exact .source opening.start _
  | cons hfirst hrest =>
    cases hrest with
    | nil => exact hfirst
    | cons => exact ((Performs.text "(").append hsum).append (.text ")")

end PerformAll

end Walk

/-! ## Nodes -/

section Nodes

open Walk (Performs PerformsBlock PerformAll)
open Walk.Performs

variable {scope : Scope}

/-- The walk through the expression writes its pieces. -/
def Expression.Walked (scope : Scope) (e : Expression) : Prop :=
  e.walk.Performs scope (e.emit scope)

/-- The walk through the block writes its pieces. -/
def Block.Walked (scope : Scope) (b : Block) : Prop :=
  b.walk.PerformsBlock scope fun ownerLine? => b.emit scope ownerLine?

theorem Block.Walked.within {b : Block} (range : Range) (h : b.Walked scope) :
    (Walk.within (.node range) b.walk).Performs scope (b.emit scope (some range.start.line)) :=
  h.within_node range

theorem Block.Walked.branch {b : Block} (range : Range) (h : b.Walked scope) :
    (Walk.branch (.within (.node range) b.walk)).Performs scope
      (Layout.branch (b.emit scope (some range.start.line))) := by
  refine (h.within range).branch ?_
  intro s
  cases b
  exact Walk.isEmpty_render_block _ _ s

namespace Expression

variable {test consequent alternate object left right : Expression}

theorem walked_member (dot name : Token) (h : object.Walked scope) :
    Walked scope (.member object dot name) := by
  have haccess := ((Performs.append h (token dot)).append (token name)).congr (List.append_assoc ..)
  rw [Walked, walk, emit]
  cases (DottedName.ofExpression? object).map (·.extend ⟨dot, name⟩) with
  | none => exact haccess
  | some chain =>
    rintro s rfl
    by_cases hchain : s.resolver.startsWithNamespace chain.parts = true
    · have hscope : s.scope.resolver.startsWithNamespace chain.parts = true := hchain
      simp only [hchain, hscope, if_true]
      exact source chain.root.start _ s rfl
    · have hscope : ¬ s.scope.resolver.startsWithNamespace chain.parts = true := hchain
      simp only [hchain, hscope]
      exact haccess s rfl

theorem walked_conditional (question colon : Token) (htest : test.Walked scope)
    (hconsequent : consequent.Walked scope) (halternate : alternate.Walked scope) :
    Walked scope (.conditional test question consequent colon alternate) := by
  rw [Walked, walk, emit]
  split
  · let captured := scope.captured [consequent, alternate]
    have hobject : (Walk.scopeObject captured).Performs scope _ := scopeObject captured
    have hfirst := deferred captured hconsequent
    have hsecond := deferred captured halternate
    have hstart := (((text "(").append htest).append (text ", ")).append hobject
    have hskipped := (((hstart.append (text ", ")).append hfirst).append (text ", ")).append hsecond
    refine congr (append (helper question.start .scopeSafeTernary)
      (capturing (hskipped.append (text ")")))) ?_
    simp [captured]
  · have hstart := (((helper question.start .simpleTernary).append (text "(")).append
      htest).append (text ", ")
    have hbranches := ((hstart.append hconsequent).append (text ", ")).append halternate
    exact (hbranches.append (text ")")).congr (by simp)

theorem walked_coalesce (operator : Token) (hleft : left.Walked scope)
    (hright : right.Walked scope) : Walked scope (.coalesce left operator right) := by
  rw [Walked, walk, emit]
  split
  · let captured := scope.captured [right]
    have hobject : (Walk.scopeObject captured).Performs scope _ := scopeObject captured
    have hstart := (((text "(").append hleft).append (text ", ")).append hobject
    have hskipped := (hstart.append (text ", ")).append (deferred captured hright)
    refine congr (append (helper operator.start .scopeSafeCoalesce)
      (capturing (hskipped.append (text ")")))) ?_
    simp [captured]
  · have hstart := (((helper operator.start .simpleCoalesce).append (text "(")).append
      hleft).append (text ", ")
    exact ((hstart.append hright).append (text ")")).congr (by simp)

end Expression

theorem FunctionLiteral.walked {keyword opening : Token} {parameters : List Parameter}
    (closing : Token) (returnType? : Option TypeClause) {body : Block} (endToken : Token)
    {name? : Option Walk} {piece? : Option Piece}
    (hname : Option.Rel (fun w piece => w.Performs scope [piece]) name? piece?)
    (hparameters : PerformAll scope (walkParameters parameters) (emitParameters scope parameters))
    (hbody : body.Walked scope) :
    Performs (walk name? ⟨keyword, opening, parameters, closing, returnType?, body, endToken⟩) scope
      (emit scope piece? ⟨keyword, opening, parameters, closing, returnType?, body, endToken⟩) := by
  have hrest {w : Walk} {pieces : List Piece} (h : w.Performs scope pieces) :=
    (((((((h.append (token opening)).append (hparameters.separated ", ")).append
      (token closing)).append (typeClause returnType?)).append
        (hbody.within (FunctionLiteral.mk keyword opening parameters closing returnType? body
          endToken).range)).append newLine).append (token endToken))
  cases hname with
  | none => exact (hrest ((token keyword).append nothing)).congr (by simp [emit])
  | some hname =>
    exact (hrest ((token keyword).append ((text " ").append hname))).congr (by simp [emit])

theorem walked_elseIf {keyword : Token} {condition : Expression} {then? : Option Token}
    {body : Block} {rest : List ElseIf} (hcondition : condition.Walked scope)
    (hbody : body.Walked scope)
    (hrest : (walkElseIfs rest).Performs scope (emitElseIfs scope rest)) :
    (walkElseIfs (⟨keyword, condition, then?, body⟩ :: rest)).Performs scope
      (emitElseIfs scope (⟨keyword, condition, then?, body⟩ :: rest)) := by
  have hstart := (((indent.append (token keyword)).append (text " ")).append hcondition).append
    (text " ")
  have hbranch := (hstart.append (tokenOr "then" then?)).append
    (hbody.branch (ElseIf.mk keyword condition then? body).range)
  exact (hbranch.append hrest).congr (by simp [emitElseIfs])

namespace Statement

theorem walked_branch (keyword : Token) {condition : Expression} (then? : Option Token)
    {body : Block} {elseIfs : List ElseIf} {else? : Option Else} (end? : Option Token)
    (hcondition : condition.Walked scope) (hbody : body.Walked scope)
    (helseIfs : (walkElseIfs elseIfs).Performs scope (emitElseIfs scope elseIfs))
    (helse : ∀ clause ∈ else?, clause.body.Walked scope) :
    (walk (.branch keyword condition then? body elseIfs else? end?)).Performs scope
      (emit scope (.branch keyword condition then? body elseIfs else? end?)) := by
  have hstart := (((token keyword).append (text " ")).append hcondition).append (text " ")
  have hbranch := (hstart.append (tokenOr "then" then?)).append
    (hbody.branch (Statement.branch keyword condition then? body elseIfs else? end?).range)
  have hclauses := hbranch.append helseIfs
  cases else? with
  | none =>
    have hall := ((hclauses.append nothing).append indent).append (tokenOr "end if" end?)
    exact hall.congr (by simp [emit])
  | some clause =>
    obtain ⟨elseToken, otherwise⟩ := clause
    have hotherwise := (indent.append (token elseToken)).append
      ((helse _ rfl).branch (Else.mk elseToken otherwise).range)
    have hall := ((hclauses.append hotherwise).append indent).append (tokenOr "end if" end?)
    exact hall.congr (by simp [emit])

theorem walked_forLoop (keyword : Token) {counter : Assignment} (toToken : Token)
    {limit : Expression} {step? : Option ForStep} {body : Block} (endToken : Token)
    (hcounter : counter.walk.Performs scope (counter.emit scope)) (hlimit : limit.Walked scope)
    (hstep : ∀ step ∈ step?, step.amount.Walked scope) (hbody : body.Walked scope) :
    (walk (.forLoop keyword counter toToken limit step? body endToken)).Performs scope
      (emit scope (.forLoop keyword counter toToken limit step? body endToken)) := by
  have hstart := (((token keyword).append (text " ")).append hcounter).append (text " ")
  have hrange := ((hstart.append (token toToken)).append (text " ")).append hlimit
  have hbranch := hbody.branch
    (Statement.forLoop keyword counter toToken limit step? body endToken).range
  cases step? with
  | none =>
    have hall := (((hrange.append nothing).append hbranch).append indent).append (token endToken)
    exact hall.congr (by simp [emit])
  | some step =>
    obtain ⟨stepToken, amount⟩ := step
    have hamount := (((text " ").append (token stepToken)).append (text " ")).append (hstep _ rfl)
    have hall := (((hrange.append hamount).append hbranch).append indent).append (token endToken)
    exact hall.congr (by simp [emit])

theorem walked_forEach (keyword item inToken : Token) {target : Expression} {body : Block}
    (endToken : Token) (htarget : target.Walked scope) (hbody : body.Walked scope) :
    (walk (.forEach keyword item inToken target body endToken)).Performs scope
      (emit scope (.forEach keyword item inToken target body endToken)) := by
  have hbranch := hbody.branch (Statement.forEach keyword item inToken target body endToken).range
  have hstart : Performs _ scope _ := ((((token keyword).append (text " ")).append
    (token item)).append (text " ")).append (token inToken)
  have hall := (((hstart.append (text " ")).append htarget).append hbranch).append indent
  exact (hall.append (token endToken)).congr (by simp [emit])

theorem walked_whileLoop (keyword : Token) {condition : Expression} {body : Block}
    (endToken : Token) (hcondition : condition.Walked scope) (hbody : body.Walked scope) :
    (walk (.whileLoop keyword condition body endToken)).Performs scope
      (emit scope (.whileLoop keyword condition body endToken)) := by
  have hwithin := hbody.within (Statement.whileLoop keyword condition body endToken).range
  have hstart := (((token keyword).append (text " ")).append hcondition).append hwithin
  exact ((hstart.append newLine).append (token endToken)).congr (by simp [emit])

theorem walked_print (keyword : Token) {items : List PrintItem}
    (hitems : PerformAll scope (walkItems items) (emitItems scope items)) :
    (walk (.print keyword items)).Performs scope (emit scope (.print keyword items)) := by
  rw [walk, emit, hitems.isEmpty]
  exact (token keyword).append (.ite _ nothing ((text " ").append (hitems.separated " ; ")))

theorem walked_tryCatch (keyword : Token) {body : Block} (catchToken exceptionName : Token)
    {handler : Block} (endToken : Token) (hbody : body.Walked scope)
    (hhandler : handler.Walked scope) :
    (walk (.tryCatch keyword body catchToken exceptionName handler endToken)).Performs scope
      (emit scope (.tryCatch keyword body catchToken exceptionName handler endToken)) := by
  have hstart := ((token keyword).append (hbody.within (Statement.tryCatch keyword body catchToken
    exceptionName handler endToken).range)).append newLine
  have hcatch := ((hstart.append (token catchToken)).append (text " ")).append
    (token exceptionName)
  have hwithin := hcatch.append (hhandler.within (catchToken.range.cover exceptionName.range))
  exact ((hwithin.append newLine).append (token endToken)).congr (by simp [emit])

end Statement

mutual

theorem Expression.performs_walk (scope : Scope) :
    (e : Expression) → e.walk.Performs scope (e.emit scope)
  | .binary left operator right =>
    ((((left.performs_walk scope).append (text " ")).append (token operator)).append
      (text " ")).append (right.performs_walk scope) |>.congr (by simp [Expression.emit])
  | .unary operator operand =>
    ((token operator).append (text " ")).append (operand.performs_walk scope)
  | .call callee opening arguments closing =>
    (((callee.performs_walk scope).append (token opening)).append
      ((performAll_walkArguments scope arguments).separated ", ")).append (token closing)
  | .callfunc receiver operator method opening arguments closing => by
    have hname := (((receiver.performs_walk scope).append
      (source operator.start ".callfunc")).append (token opening)).append
        (source method.start ("\"" ++ method.text ++ "\""))
    have harguments := (performAll_walkArguments scope arguments).separated ", "
    refine ((hname.append (.ite _ (text ", invalid") ((text ", ").append harguments))).append
      (token closing)).congr ?_
    simp [Expression.emit]
  | .function f => f.performs_walk scope .none
  | .member object dot name => Expression.walked_member dot name (object.performs_walk scope)
  | .identifier name => reference name
  | .index object opening key closing =>
    (((object.performs_walk scope).append (token opening)).append
      (key.performs_walk scope)).append (token closing)
  | .xmlAttribute object sign name =>
    ((object.performs_walk scope).append (token sign)).append (token name)
      |>.congr (by simp [Expression.emit])
  | .group opening inner closing =>
    ((token opening).append (inner.performs_walk scope)).append (token closing)
  | .literal t => literal t
  | .array opening elements closing =>
    (performAll_elementStops scope elements).array _ opening closing
  | .record opening members closing =>
    (performAll_memberStops scope members).record _ opening closing
  | .construct _ className opening arguments closing =>
    (((source className.start _).append (token opening)).append
      ((performAll_walkArguments scope arguments).separated ", ")).append (token closing)
  | .conditional test question consequent colon alternate =>
    Expression.walked_conditional question colon (test.performs_walk scope)
      (consequent.performs_walk scope) (alternate.performs_walk scope)
  | .coalesce left operator right =>
    Expression.walked_coalesce operator (left.performs_walk scope) (right.performs_walk scope)
  | .template opening parts _ => (performAll_walkParts scope parts).concatenation opening
  | .comment c => comment c

theorem performAll_walkArguments (scope : Scope) : (arguments : List Expression) →
    PerformAll scope (walkArguments arguments) (emitArguments scope arguments)
  | [] => .nil
  | argument :: rest => .cons (argument.performs_walk scope) (performAll_walkArguments scope rest)

theorem performAll_elementStops (scope : Scope) : (elements : List Expression) →
    Walk.Stop.PerformAll scope (elementStops elements) (elementItems scope elements)
  | [] => .nil
  | element :: rest =>
    .cons ⟨rfl, rfl, element.performs_walk scope⟩ (performAll_elementStops scope rest)

theorem performAll_memberStops (scope : Scope) : (members : List Member) →
    Walk.Stop.PerformAll scope (memberStops members) (memberItems scope members)
  | [] => .nil
  | .pair key colon value :: rest =>
    have hpair := (((token key).append (token colon)).append (text " ")).append
      (value.performs_walk scope)
    .cons ⟨rfl, rfl, hpair⟩ (performAll_memberStops scope rest)
  | .comment c :: rest => .cons ⟨rfl, rfl, comment c⟩ (performAll_memberStops scope rest)

theorem performAll_walkParts (scope : Scope) : (parts : List TemplatePart) →
    PerformAll scope (walkParts parts) (templateOperands scope parts)
  | [] => .nil
  | .text t :: rest =>
    (PerformAll.textOperands t.start (Text.lines t.text)).append (performAll_walkParts scope rest)
  | .expression e :: rest =>
    have hcall := (((helper e.range.start .toText).append (text "(")).append
      (e.performs_walk scope)).append (text ")")
    .cons hcall (performAll_walkParts scope rest)

theorem performAll_walkParameters (scope : Scope) : (parameters : List Parameter) →
    PerformAll scope (walkParameters parameters) (emitParameters scope parameters)
  | [] => .nil
  | ⟨name, none, type?⟩ :: rest =>
    .cons ((token name).append (typeClause type?)) (performAll_walkParameters scope rest)
  | ⟨name, some value, type?⟩ :: rest =>
    have hvalue := (((token name).append (text " = ")).append (value.performs_walk scope)).append
      (typeClause type?)
    .cons hvalue (performAll_walkParameters scope rest)

theorem FunctionLiteral.performs_walk (scope : Scope) {name? : Option Walk}
    {piece? : Option Piece}
    (hname : Option.Rel (fun w piece => w.Performs scope [piece]) name? piece?) :
    (f : FunctionLiteral) → (f.walk name?).Performs scope (f.emit scope piece?)
  | ⟨_, _, parameters, closing, returnType?, body, endToken⟩ =>
    FunctionLiteral.walked closing returnType? endToken hname
      (performAll_walkParameters scope parameters) (body.performs_walk scope)

theorem Block.performs_walk (scope : Scope) :
    (b : Block) → b.walk.PerformsBlock scope fun ownerLine? => b.emit scope ownerLine?
  | ⟨_, statements⟩ => (performAll_statementStops scope statements).block _

theorem performAll_statementStops (scope : Scope) : (statements : List Statement) →
    Walk.Stop.PerformAll scope (statementStops statements) (statementItems scope statements)
  | [] => .nil
  | statement :: rest =>
    .cons ⟨rfl, rfl, statement.performs_walk scope⟩ (performAll_statementStops scope rest)

theorem performs_walkElseIfs (scope : Scope) : (clauses : List ElseIf) →
    (walkElseIfs clauses).Performs scope (emitElseIfs scope clauses)
  | [] => .nothing
  | ⟨_, condition, _, body⟩ :: rest =>
    walked_elseIf (condition.performs_walk scope) (body.performs_walk scope)
      (performs_walkElseIfs scope rest)

theorem performAll_walkItems (scope : Scope) : (items : List PrintItem) →
    PerformAll scope (walkItems items) (emitItems scope items)
  | [] => .nil
  | .expression e :: rest => .cons (e.performs_walk scope) (performAll_walkItems scope rest)
  | .separator _ :: rest => performAll_walkItems scope rest

theorem Assignment.performs_walk (scope : Scope) :
    (a : Assignment) → a.walk.Performs scope (a.emit scope)
  | ⟨name, operator, value⟩ =>
    ((((token name).append (text " ")).append (token operator)).append (text " ")).append
      (value.performs_walk scope)

theorem Statement.performs_walk (scope : Scope) :
    (s : Statement) → s.walk.Performs scope (s.emit scope)
  | .assignment a => a.performs_walk scope
  | .expression e => e.performs_walk scope
  | .comment c => comment c
  | .branch keyword condition then? body elseIfs none end? =>
    Statement.walked_branch keyword then? end? (condition.performs_walk scope)
      (body.performs_walk scope) (performs_walkElseIfs scope elseIfs) nofun
  | .branch keyword condition then? body elseIfs (some ⟨_, otherwise⟩) end? =>
    Statement.walked_branch keyword then? end? (condition.performs_walk scope)
      (body.performs_walk scope) (performs_walkElseIfs scope elseIfs) (by
        rintro _ ⟨⟩
        exact otherwise.performs_walk scope)
  | .forLoop keyword counter toToken limit none body endToken =>
    Statement.walked_forLoop keyword toToken endToken (counter.performs_walk scope)
      (limit.performs_walk scope) nofun (body.performs_walk scope)
  | .forLoop keyword counter toToken limit (some ⟨_, amount⟩) body endToken =>
    Statement.walked_forLoop keyword toToken endToken (counter.performs_walk scope)
      (limit.performs_walk scope) (by
        rintro _ ⟨⟩
        exact amount.performs_walk scope) (body.performs_walk scope)
  | .forEach keyword item inToken target body endToken =>
    Statement.walked_forEach keyword item inToken endToken (target.performs_walk scope)
      (body.performs_walk scope)
  | .whileLoop keyword condition body endToken =>
    Statement.walked_whileLoop keyword endToken (condition.performs_walk scope)
      (body.performs_walk scope)
  | .memberSet object dot name value =>
    ((((object.performs_walk scope).append (token dot)).append (token name)).append
      (text " = ")).append (value.performs_walk scope) |>.congr (by simp [Statement.emit])
  | .indexSet object opening key closing value =>
    (((((object.performs_walk scope).append (token opening)).append
      (key.performs_walk scope)).append (token closing)).append (text " = ")).append
        (value.performs_walk scope) |>.congr (by simp [Statement.emit])
  | .increment value operator => (value.performs_walk scope).append (token operator)
  | .print keyword items => Statement.walked_print keyword (performAll_walkItems scope items)
  | .goto keyword label => ((token keyword).append (text " ")).append (token label)
  | .label name colon => (token name).append (token colon)
  | .returning keyword none => token keyword
  | .returning keyword (some value) =>
    ((token keyword).append (text " ")).append (value.performs_walk scope)
  | .keyword word t => source t.start word.text
  | .library keyword path => ((token keyword).append (text " ")).append (token path)
  | .function name f => f.performs_walk scope (.some (declared name))
  | .namespaceBlock keyword name body endToken =>
    (performAll_statementStops (scope.inside name) body).body.within_namespace _ name
  | .importFile keyword path =>
    (((text "'").append (commentedOut keyword)).append (text " ")).append (commentedOut path)
  | .tryCatch keyword body catchToken exceptionName handler endToken =>
    Statement.walked_tryCatch keyword catchToken exceptionName endToken (body.performs_walk scope)
      (handler.performs_walk scope)
  | .throwing keyword value =>
    ((token keyword).append (text " ")).append (value.performs_walk scope)

end

end Nodes

/-! ## Trees -/

/-- The walk through a tree writes what is emitted for it, and it leaves the state in which the
helpers that are called have been recorded. -/
theorem Tree.walk_eq_emit (tree : Tree) (s : State) : tree.walk s = s.emit tree := by
  cases tree with
  | body statements => exact (performAll_statementStops s.scope statements).body s rfl
  | block b => exact b.performs_walk s.scope s rfl
  | statement statement => exact statement.performs_walk s.scope s rfl
  | expression e => exact e.performs_walk s.scope s rfl

namespace State

theorem contains_helpers_record (s : State) (pieces : List Piece) (h : Helper) :
    (s.record pieces).helpers.contains h = true ↔
      s.helpers.contains h = true ∨ h ∈ Piece.helpers pieces := by
  rw [record, HelperSet.contains_insertList, Bool.or_eq_true, List.contains_iff_mem, or_comm]

/-- The helpers that are called for a tree are those that the tree requires. -/
theorem call_iff_requires (s : State) (tree : Tree) (h : Helper) :
    Piece.Call h (s.pieces tree) ↔ tree.node.Requires h :=
  ⟨fun hcall => (s.site tree).mem_helpers_iff.mp hcall.mem_helpers,
    fun hrequires => (s.site tree).exists_call ((s.site tree).mem_helpers_iff.mpr hrequires)⟩

/-- The second state differs from the first one only in that the required helpers have been
recorded, too. -/
structure Frame (s after : State) (Required : Helper → Prop) : Prop where
  depth : after.depth = s.depth
  ancestors : after.ancestors = s.ancestors
  options : after.options = s.options
  source : after.source = s.source
  resolver : after.resolver = s.resolver
  helpers : ∀ h, after.helpers.contains h = true ↔ s.helpers.contains h = true ∨ Required h

theorem frame_emit (s : State) (tree : Tree) : Frame s (s.emit tree).2 tree.node.Requires where
  depth := rfl
  ancestors := rfl
  options := rfl
  source := rfl
  resolver := rfl
  helpers h :=
    (s.contains_helpers_record (s.pieces tree) h).trans
      (or_congr_right (s.site tree).mem_helpers_iff)

/-- The walk through a tree comes back to where it started, and the helpers that the tree requires
have been recorded. What it writes does not depend on the helpers that had been recorded before. The
helpers that are reported for a file are those that are called in its code. -/
theorem walk_frame (s : State) (tree : Tree) (p : Printer) (body : Body) (source output : String) :
    Frame s (tree.walk s).2 tree.node.Requires ∧
    (∀ helpers, (tree.walk { s with helpers }).1 = (tree.walk s).1) ∧
    let start : State := ⟨p.options, p.resolver, source, 0, [], {}⟩
    let pieces := start.pieces (.body body)
    let out := p.print body source output
    ((Tree.body body).walk start).1 = start.render pieces ∧
    out.code = Fragment.code (start.render pieces) ∧
    out.helpers = ((Tree.body body).walk start).2.helpers ∧
    ∀ h, out.helpers.contains h = true ↔ Piece.Call h pieces := by
  rw [tree.walk_eq_emit]
  refine ⟨s.frame_emit tree, fun helpers => by rw [tree.walk_eq_emit]; rfl, ?_⟩
  intro start pieces out
  have hout := p.print_eq body source output
  have hcode : out.code = Fragment.code (start.render pieces) := congrArg Output.code hout
  have hhelpers : out.helpers = (start.emit (.body body)).2.helpers :=
    congrArg Output.helpers hout
  rw [(Tree.body body).walk_eq_emit]
  refine ⟨rfl, hcode, hhelpers, ?_⟩
  intro h
  have hnone : start.helpers.contains h = false := by cases h <;> rfl
  rw [hhelpers, (start.frame_emit (.body body)).helpers, start.call_iff_requires, hnone]
  simp

end State

end Downlevel
