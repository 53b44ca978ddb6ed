import Downlevel.Proofs.Calls
import Downlevel.Tree.Construction

/-!
# How many arguments a written call has

The runtime refuses calls with more than `maxArguments` arguments. The arguments of calls and
constructor calls are counted when they are built. But a call may be written with other arguments
than it has in the source: `callfunc` gets the name of the method as one more, and a choice, a
fallback or a template string is a call only when it is written, with scope objects and function
literals among its arguments.

Here the calls of a tree are listed with the arguments that are written for them
(`Expression.writtenCalls`). Main statement: all of them keep to the limit but those of `callfunc`,
whose arguments are never counted (`State.emit_limits_arguments`).
-/

namespace Downlevel

/-- A call as it is written. -/
structure WrittenCall where
  /-- What is called. -/
  target : List Piece
  opening : Piece
  arguments : List (List Piece)
  closing : Piece

namespace WrittenCall

def pieces (call : WrittenCall) : List Piece :=
  call.target ++ call.opening :: Piece.separated ", " call.arguments ++ [call.closing]

/-- The code of the call at some depth. -/
def code (call : WrittenCall) (s : State) (depth : Nat) : String :=
  Fragment.code (Piece.renderAll s.options s.source depth call.pieces)

/-- The call keeps to the limit of the runtime. -/
def KeepsLimit (call : WrittenCall) : Prop := call.arguments.length ≤ maxArguments

instance : DecidablePred KeepsLimit := fun call =>
  inferInstanceAs (Decidable (call.arguments.length ≤ maxArguments))

/-- A call of a helper. -/
def ofHelper (position : Position) (h : Helper) (operands : List (List Piece)) : WrittenCall :=
  ⟨[.helper position h], .text "(", operands, .text ")"⟩

/-- What is written for a line break in a template string. -/
def lineFeed : WrittenCall := ⟨[.text "chr"], .text "(", [[.text "10"]], .text ")"⟩

end WrittenCall

/-! ## The calls of an expression -/

/-- The calls that are written for a part of a template string itself. -/
def TemplatePart.writtenCalls (scope : Scope) : TemplatePart → List WrittenCall
  | .text token => List.replicate ((Text.lines token.text).length - 1) .lineFeed
  | .expression e => [.ofHelper e.range.start .toText [e.emit scope]]

namespace Expression

/-- The calls that are written for the expression itself, apart from those for its parts. -/
def writtenCalls (scope : Scope) : Expression → List WrittenCall
  | .call callee opening arguments closing =>
    [⟨callee.emit scope, opening.piece, emitArguments scope arguments, closing.piece⟩]
  | .callfunc receiver operator method opening arguments closing =>
    let method := [.written method.start ("\"" ++ method.text ++ "\"")]
    [⟨receiver.emit scope ++ [.written operator.start ".callfunc"], opening.piece,
      method :: (if arguments.isEmpty then [[.text "invalid"]] else emitArguments scope arguments),
      closing.piece⟩]
  | .construct _ className opening arguments closing =>
    [⟨[.written className.start (className.text .flattened)], opening.piece,
      emitArguments scope arguments, closing.piece⟩]
  | .conditional test question consequent _ alternate =>
    let captured := scope.captured [consequent, alternate]
    [if consequent.containsMutating || alternate.containsMutating then
      .ofHelper question.start .scopeSafeTernary [test.emit scope,
        Capture.scopeObject captured, Capture.deferred captured (consequent.emit scope),
        Capture.deferred captured (alternate.emit scope)]
    else
      .ofHelper question.start .simpleTernary
        [test.emit scope, consequent.emit scope, alternate.emit scope]]
  | .coalesce left operator right =>
    let captured := scope.captured [right]
    [if left.containsMutating || right.containsMutating then
      .ofHelper operator.start .scopeSafeCoalesce [left.emit scope,
        Capture.scopeObject captured, Capture.deferred captured (right.emit scope)]
    else .ofHelper operator.start .simpleCoalesce [left.emit scope, right.emit scope]]
  | .template _ parts _ => parts.flatMap (TemplatePart.writtenCalls scope)
  | .binary .. | .unary .. | .function .. | .member .. | .identifier .. | .index ..
  | .xmlAttribute .. | .group .. | .literal .. | .array .. | .record .. | .comment .. => []

end Expression

/-- Emitting the tree writes the call for one of its expressions. -/
def State.WritesCall (s : State) (tree : Tree) (call : WrittenCall) : Prop :=
  ∃ site count e, (s.site tree).Holds site count ∧ site.tree = .expression e ∧
    call ∈ e.writtenCalls site.scope

/-! ## Their text -/

/-- The pieces spell out the call, at any depth and under any options. -/
def WrittenCall.IsSpelled (call : WrittenCall) (pieces : List Piece) : Prop :=
  ∀ (s : State) (depth : Nat),
    Fragment.code (Piece.renderAll s.options s.source depth pieces) = call.code s depth

namespace Layout

theorem mem_textOperands {position : Position} {lines : List String} (h : 1 < lines.length) :
    [.text "chr(10)"] ∈ textOperands position lines := by
  match lines, h with
  | line :: next :: rest, _ =>
    rw [textOperands]
    exact List.mem_append_right _ List.mem_cons_self

end Layout

namespace TemplatePart

variable {scope : Scope} {call : WrittenCall}

theorem textOperands_subset {token : Token} {parts : List TemplatePart}
    (h : .text token ∈ parts) :
    Layout.textOperands token.start (Text.lines token.text) ⊆ templateOperands scope parts := by
  induction parts with
  | nil => cases h
  | cons part rest ih =>
    intro operand hoperand
    rcases List.mem_cons.mp h with rfl | hrest
    · exact List.mem_append_left _ hoperand
    · cases part with
      | text => exact List.mem_append_right _ (ih hrest hoperand)
      | expression => exact List.mem_cons_of_mem _ (ih hrest hoperand)

theorem exists_operand {parts : List TemplatePart} {part : TemplatePart} (hpart : part ∈ parts)
    (hcall : call ∈ part.writtenCalls scope) :
    ∃ pieces ∈ templateOperands scope parts, call.IsSpelled pieces := by
  cases part with
  | expression e =>
    obtain rfl := List.mem_singleton.mp hcall
    exact ⟨_, mem_templateOperands scope hpart, fun _ _ => rfl⟩
  | text token =>
    obtain ⟨hlines, rfl⟩ := List.mem_replicate.mp hcall
    have hbreak : [.text "chr(10)"] ∈ templateOperands scope parts :=
      textOperands_subset hpart (Layout.mem_textOperands (by omega))
    exact ⟨_, hbreak, fun _ _ => rfl⟩

end TemplatePart

namespace Expression

variable {scope : Scope} {call : WrittenCall}

/-- Without arguments `invalid` is written, together with the comma before it. -/
theorem isSpelled_callfunc {receiver : Expression} {operator method opening : Token}
    {arguments : List Expression} {closing : Token}
    (hcall : call ∈
      writtenCalls scope (.callfunc receiver operator method opening arguments closing)) :
    call.IsSpelled (emit scope (.callfunc receiver operator method opening arguments closing)) := by
  obtain rfl := List.mem_singleton.mp hcall
  intro s depth
  rw [emit, WrittenCall.code, WrittenCall.pieces]
  cases arguments with
  | nil =>
    let front : List Piece := receiver.emit scope ++ [.written operator.start ".callfunc",
      opening.piece, .written method.start ("\"" ++ method.text ++ "\"")]
    have hemit : Fragment.code (Piece.renderAll s.options s.source depth
        (front ++ [.text ", invalid"] ++ [closing.piece])) =
      Fragment.code (Piece.renderAll s.options s.source depth
        (front ++ [.text ", ", .text "invalid"] ++ [closing.piece])) := by
      simp only [Piece.renderAll_append, Fragment.code_append]
      rfl
    simpa [front, Piece.separated] using hemit
  | cons argument rest => simp [emitArguments, Piece.separated]

/-- Among the pieces of the expression are some that spell out the call. -/
theorem exists_infix (e : Expression) (hcall : call ∈ e.writtenCalls scope) :
    ∃ pieces, pieces <:+: e.emit scope ∧ call.IsSpelled pieces := by
  cases e with
  | call callee opening arguments closing =>
    obtain rfl := List.mem_singleton.mp hcall
    refine ⟨_, List.infix_rfl, fun s depth => ?_⟩
    rw [emit, WrittenCall.code, WrittenCall.pieces]
    simp
  | construct keyword className opening arguments closing =>
    obtain rfl := List.mem_singleton.mp hcall
    refine ⟨_, List.infix_rfl, fun s depth => ?_⟩
    rw [emit, WrittenCall.code, WrittenCall.pieces]
    rfl
  | callfunc receiver operator method opening arguments closing =>
    exact ⟨_, List.infix_rfl, isSpelled_callfunc hcall⟩
  | conditional test question consequent colon alternate =>
    obtain rfl := List.mem_singleton.mp hcall
    refine ⟨_, List.infix_rfl, fun s depth => ?_⟩
    rw [emit_conditional, WrittenCall.code, apply_ite WrittenCall.pieces]
    rfl
  | coalesce left operator right =>
    obtain rfl := List.mem_singleton.mp hcall
    refine ⟨_, List.infix_rfl, fun s depth => ?_⟩
    rw [emit_coalesce, WrittenCall.code, apply_ite WrittenCall.pieces]
    rfl
  | template opening parts closing =>
    obtain ⟨part, hpart, hcall⟩ := List.mem_flatMap.mp hcall
    obtain ⟨pieces, hpieces, hspelled⟩ := TemplatePart.exists_operand hpart hcall
    rw [emit]
    exact ⟨pieces, Layout.infix_concatenation opening hpieces, hspelled⟩
  | _ => cases hcall

end Expression

namespace State

variable {s : State} {tree : Tree} {call : WrittenCall}

/-- The code of a call that is written occurs in what is emitted. -/
theorem WritesCall.exists_code (h : s.WritesCall tree call) :
    ∃ depth before after,
      Fragment.code (s.emit tree).1 = before ++ call.code s depth ++ after := by
  obtain ⟨⟨scope, ownerLine?, _⟩, count, e, hholds, rfl, hcall⟩ := h
  obtain ⟨pieces, ⟨left, right, hemit⟩, hspelled⟩ := e.exists_infix hcall
  -- the fragments of the expression are those of its pieces, at a depth of their own
  have hinside : Inside (s.pieces tree) (e.emit scope) count := hholds.inside
  have hbalanced := Site.balanced ⟨scope, none, .expression e⟩
  obtain ⟨-, before, levels, after, -, -, hwritten⟩ := writes_of_inside hinside hbalanced
  rw [← hemit, Piece.renderAll_append, Piece.renderAll_append] at hwritten
  refine ⟨s.depth + levels,
    Fragment.code (s.render before ++ Piece.renderAll s.options s.source (s.depth + levels) left),
    Fragment.code (Piece.renderAll s.options s.source (s.depth + levels) right ++ s.render after),
    ?_⟩
  rw [hwritten, ← hspelled s (s.depth + levels), ← Fragment.code_append, ← Fragment.code_append]
  simp only [List.append_assoc]

end State

/-! ## Counting -/

theorem WrittenCall.keepsLimit_ofHelper (position : Position) (h : Helper)
    {operands : List (List Piece)} (hoperands : operands.length ≤ maxArguments) :
    (ofHelper position h operands).KeepsLimit := hoperands

theorem TemplatePart.keepsLimit_of_mem_writtenCalls {scope : Scope} {call : WrittenCall}
    (part : TemplatePart) (hcall : call ∈ part.writtenCalls scope) : call.KeepsLimit := by
  cases part with
  | expression e =>
    obtain rfl := List.mem_singleton.mp hcall
    exact WrittenCall.keepsLimit_ofHelper _ _ (by simp [maxArguments])
  | text token =>
    obtain ⟨-, rfl⟩ := List.mem_replicate.mp hcall
    show 1 ≤ maxArguments
    decide

namespace Expression

/-- The expression can be built from its parts. -/
def IsBuildable : Expression → Prop
  | .call callee opening arguments closing =>
    ofCall callee opening arguments closing = .ok (.call callee opening arguments closing)
  | .construct keyword className opening arguments closing =>
    ofConstruct keyword className.toExpression opening arguments closing =
      .ok (.construct keyword className opening arguments closing)
  | _ => True

/-- The expression is a call of `callfunc` that has too many arguments together with the name of the
method. -/
def IsOverfull : Expression → Prop
  | .callfunc _ _ _ _ arguments _ => maxArguments ≤ arguments.length
  | _ => False

theorem length_of_checkArguments {arguments : List Expression} {node e : Expression}
    (h : checkArguments arguments node = .ok e) : arguments.length ≤ maxArguments := by
  rw [checkArguments] at h
  split at h
  next hlength => exact hlength
  next => cases h

theorem length_of_isBuildable_call {callee : Expression} {opening : Token}
    {arguments : List Expression} {closing : Token}
    (h : IsBuildable (.call callee opening arguments closing)) :
    arguments.length ≤ maxArguments :=
  length_of_checkArguments h

theorem length_of_isBuildable_construct {keyword : Token} {className : DottedName} {opening : Token}
    {arguments : List Expression} {closing : Token}
    (h : IsBuildable (.construct keyword className opening arguments closing)) :
    arguments.length ≤ maxArguments := by
  rw [IsBuildable, ofConstruct] at h
  split at h
  · cases h
  · exact length_of_checkArguments h

theorem length_emitArguments (scope : Scope) (arguments : List Expression) :
    (emitArguments scope arguments).length = arguments.length := by
  induction arguments with
  | nil => rfl
  | cons argument rest ih => rw [emitArguments, List.length_cons, ih, List.length_cons]

/-- The calls of an expression that can be built keep to the limit, unless it is an overfull call of
`callfunc`. -/
theorem writtenCalls_keepLimit_iff {e : Expression} (he : e.IsBuildable) (scope : Scope) :
    (∀ call ∈ e.writtenCalls scope, call.KeepsLimit) ↔ ¬ e.IsOverfull := by
  cases e with
  | call callee opening arguments closing =>
    have hlength := length_of_isBuildable_call he
    simp [writtenCalls, WrittenCall.KeepsLimit, length_emitArguments, IsOverfull, hlength]
  | construct keyword className opening arguments closing =>
    have hlength := length_of_isBuildable_construct he
    simp [writtenCalls, WrittenCall.KeepsLimit, length_emitArguments, IsOverfull, hlength]
  | callfunc receiver operator method opening arguments closing =>
    -- the name of the method is one argument more, and so is `invalid`
    simp only [writtenCalls, List.forall_mem_singleton, WrittenCall.KeepsLimit, List.length_cons,
      IsOverfull]
    cases arguments with
    | nil => simp [maxArguments]
    | cons argument rest =>
      rw [if_neg (by simp), length_emitArguments]
      omega
  | conditional test question consequent colon alternate =>
    refine iff_of_true (List.forall_mem_singleton.mpr ?_) id
    split <;> exact WrittenCall.keepsLimit_ofHelper _ _ (by simp [maxArguments])
  | coalesce left operator right =>
    refine iff_of_true (List.forall_mem_singleton.mpr ?_) id
    split <;> exact WrittenCall.keepsLimit_ofHelper _ _ (by simp [maxArguments])
  | template opening parts closing =>
    refine iff_of_true (fun call hcall => ?_) id
    obtain ⟨part, -, hcall⟩ := List.mem_flatMap.mp hcall
    exact part.keepsLimit_of_mem_writtenCalls hcall
  | _ => simp [writtenCalls, IsOverfull]

/-- Whatever helper an expression calls is the target of one of its calls. -/
theorem exists_writtenCall_of_calls (scope : Scope) {e : Expression} {h : Helper}
    (hcalls : e.Calls h) :
    ∃ call ∈ e.writtenCalls scope, ∃ position, call.target = [.helper position h] := by
  cases e with
  | conditional test question consequent colon alternate =>
    rw [calls_conditional_iff] at hcalls
    refine ⟨_, List.mem_cons_self, question.start, ?_⟩
    split <;> simp_all [WrittenCall.ofHelper]
  | coalesce left operator right =>
    rw [calls_coalesce_iff] at hcalls
    refine ⟨_, List.mem_cons_self, operator.start, ?_⟩
    split <;> simp_all [WrittenCall.ofHelper]
  | template opening parts closing =>
    obtain ⟨rfl, e, he⟩ := calls_template_iff.mp hcalls
    exact ⟨_, List.mem_flatMap_of_mem he List.mem_cons_self, e.range.start, rfl⟩
  | _ => cases hcalls

end Expression

/-- Every expression of the tree can be built from its parts. -/
def Node.IsBuildable (n : Node) : Prop := ∀ e, n.Holds (.expression e) → e.IsBuildable

namespace Expression

theorem ofExpression?_of_isOverfull {e : Expression} (h : e.IsOverfull) :
    DottedName.ofExpression? e = none := by
  cases e with
  | callfunc => rfl
  | _ => cases h

theorem ofExpression?_of_mem_writtenCalls {e : Expression} {scope : Scope} {call : WrittenCall}
    (h : call ∈ e.writtenCalls scope) : DottedName.ofExpression? e = none := by
  cases e with
  | identifier | member => cases h
  | _ => rfl

/-- A call of `callfunc` with so many literals. -/
def callfuncOf (count : Nat) : Expression :=
  .callfunc (.identifier default) default default default (List.replicate count (.literal default))
    default

theorem eq_of_holds_callfuncOf {count : Nat} {e : Expression}
    (h : (Node.expression (callfuncOf count)).Holds (.expression e)) :
    e = callfuncOf count ∨ e = .identifier default ∨ e = .literal default := by
  cases h with
  | self => exact .inl rfl
  | child hchild hrest =>
    right
    rcases List.mem_cons.mp hchild with rfl | hliteral
    · cases hrest with
      | self => exact .inl rfl
      | child hnone => cases hnone
    · obtain ⟨argument, hargument, rfl⟩ := List.mem_map.mp hliteral
      obtain ⟨-, rfl⟩ := List.mem_replicate.mp hargument
      cases hrest with
      | self => exact .inr rfl
      | child hnone => cases hnone

theorem isBuildable_callfuncOf (count : Nat) :
    (Node.expression (callfuncOf count)).IsBuildable := by
  intro e hholds
  rcases eq_of_holds_callfuncOf hholds with rfl | rfl | rfl
  · trivial
  · trivial
  · trivial

end Expression

namespace State

variable {s : State} {tree : Tree}

/-- The calls of an expression that is no dotted name are written for every tree that has it. -/
theorem writesCall_of_holds {e : Expression} (he : DottedName.ofExpression? e = none)
    (hholds : tree.node.Holds (.expression e)) :
    ∃ scope, ∀ call ∈ e.writtenCalls scope, s.WritesCall tree call := by
  obtain ⟨site, count, hsite, htree⟩ := ((s.site tree).writes_iff_holds he).mpr hholds
  exact ⟨site.scope, fun call hcall => ⟨site, count, e, hsite, htree, hcall⟩⟩

theorem WritesCall.exists_holds {call : WrittenCall} (h : s.WritesCall tree call) :
    ∃ e scope, tree.node.Holds (.expression e) ∧ call ∈ e.writtenCalls scope := by
  obtain ⟨site, count, e, hsite, htree, hcall⟩ := h
  have he := Expression.ofExpression?_of_mem_writtenCalls hcall
  exact ⟨e, site.scope, ((s.site tree).writes_iff_holds he).mp ⟨site, count, hsite, htree⟩, hcall⟩

/-- Every call that is written for a tree occurs in its code, and every helper that is named there
is the target of such a call. If all expressions of the tree can be built from their parts, a
written call keeps to the limit of the runtime, unless it is that of an overfull call of `callfunc`,
and for any of these in the tree a call is written that does not. -/
theorem emit_limits_arguments (s : State) {tree : Tree} (htree : tree.node.IsBuildable) :
    (∀ call, s.WritesCall tree call → ∃ depth before after,
      Fragment.code (s.emit tree).1 = before ++ call.code s depth ++ after) ∧
    (∀ h ∈ Piece.helpers (s.pieces tree), ∃ call, s.WritesCall tree call ∧
      ∃ position, call.target = [.helper position h]) ∧
    (∀ call, s.WritesCall tree call → call.KeepsLimit ∨
      ∃ e scope, tree.node.Holds (.expression e) ∧ e.IsOverfull ∧ call ∈ e.writtenCalls scope) ∧
    (∀ e, tree.node.Holds (.expression e) → e.IsOverfull →
      ∃ scope, ∃ call ∈ e.writtenCalls scope, s.WritesCall tree call ∧ ¬ call.KeepsLimit) := by
  refine ⟨fun call hcall => hcall.exists_code, ?_, ?_, ?_⟩
  · intro h hmem
    obtain ⟨e, hholds, hhelper⟩ := (s.site tree).mem_helpers_iff.mp hmem
    have he := Expression.ofExpression?_of_calls hhelper
    obtain ⟨scope, hwritten⟩ := writesCall_of_holds (s := s) he hholds
    obtain ⟨call, hcall, htarget⟩ := Expression.exists_writtenCall_of_calls scope hhelper
    exact ⟨call, hwritten call hcall, htarget⟩
  · intro call hcall
    obtain ⟨e, scope, hholds, hmem⟩ := hcall.exists_holds
    by_cases hoverfull : e.IsOverfull
    · exact .inr ⟨e, scope, hholds, hoverfull, hmem⟩
    · have hlimit := (Expression.writtenCalls_keepLimit_iff (htree e hholds) scope).mpr hoverfull
      exact .inl (hlimit call hmem)
  · intro e hholds hoverfull
    have he := Expression.ofExpression?_of_isOverfull hoverfull
    obtain ⟨scope, hwritten⟩ := writesCall_of_holds (s := s) he hholds
    have hlimit := mt (Expression.writtenCalls_keepLimit_iff (htree e hholds) scope).mp
      (not_not.mpr hoverfull)
    push Not at hlimit
    obtain ⟨call, hmem, hcall⟩ := hlimit
    exact ⟨scope, call, hmem, hwritten call hmem, hcall⟩

/-- A call of `callfunc` with 31 arguments is written with the 32 arguments that the runtime
accepts. -/
theorem emit_limits_arguments_full_callfunc :
    let s : State := ⟨{}, .none, "", 0, [], {}⟩
    let tree : Tree := .expression (Expression.callfuncOf 31)
    tree.node.IsBuildable ∧ ∀ call, s.WritesCall tree call → call.KeepsLimit := by
  intro s tree
  have htree : tree.node.IsBuildable := Expression.isBuildable_callfuncOf 31
  refine ⟨htree, fun call hcall => ?_⟩
  refine ((emit_limits_arguments s htree).2.2.1 call hcall).resolve_right ?_
  rintro ⟨e, scope, hholds, hoverfull, -⟩
  rcases Expression.eq_of_holds_callfuncOf hholds with rfl | rfl | rfl
  · exact absurd hoverfull (by simp [Expression.callfuncOf, Expression.IsOverfull, maxArguments])
  · exact hoverfull
  · exact hoverfull

/-- One with 33 arguments can be built all the same, and it is written with 34. -/
theorem not_keepsLimit_callfunc :
    let s : State := ⟨{}, .none, "", 0, [], {}⟩
    let tree : Tree := .expression (Expression.callfuncOf 33)
    tree.node.IsBuildable ∧ ∃ call, s.WritesCall tree call ∧ call.arguments.length = 34 ∧
      ¬ call.KeepsLimit := by
  intro s tree
  have hcall : s.WritesCall tree _ := ⟨s.site tree, 0, _, .self _, rfl, List.mem_cons_self⟩
  exact ⟨Expression.isBuildable_callfuncOf 33, _, hcall, by decide, by decide⟩

end State

end Downlevel
