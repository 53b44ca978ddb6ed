import Downlevel.Proofs.Captured
import Downlevel.Proofs.Calls
import Downlevel.Proofs.LiteralLayout
import Downlevel.Proofs.Sections

/-!
# Levels

Blocks and literals write what is in them one level further down, and so do the function literals
that are put around deferred operands. Nothing else changes the level. So how deep a part of a tree
is written depends only on what is around it in the tree.

Main statement: whatever lies so many levels below a site is written there that many levels further
down (`Site.Lies.infix`).
-/

namespace Downlevel

open Piece (newLine nested separated)

/-- How many levels a node moves its parts further down. -/
def Tree.indents : Tree → Nat
  | .block _ => 1
  | .expression (.array ..) => 1
  | .expression (.record ..) => 1
  | _ => 0

/-- The second site is the first one or lies in one of its parts, so many levels further down. -/
inductive Site.Lies : Site → Site → Nat → Prop
  | self (site : Site) : Lies site site 0
  | part {site part inner : Site} {literals levels : Nat} : .part part literals ∈ site.slots →
      Lies part inner levels → Lies site inner (levels + (site.tree.indents + literals))

/-! ## Parts are written -/

/-- The part of the entry is among the pieces, so many levels further down. -/
def Slot.WrittenIn (indents : Nat) (pieces : List Piece) : Slot → Prop
  | own _ => True
  | part site literals => site.emit.map (Piece.shift (indents + literals)) <:+: pieces

namespace Slot

variable {scope : Scope} {indents : Nat} {pieces more : List Piece} {slot : Slot}

@[simp] theorem writtenIn_own (piece : Piece) : (own piece).WrittenIn indents pieces := trivial

@[simp] theorem writtenIn_token (t : Token) : (token t).WrittenIn indents pieces := trivial

@[simp] theorem writtenIn_operand {e : Expression} :
    (operand scope e).WrittenIn 0 pieces ↔ e.emit scope <:+: pieces := by
  rw [operand, WrittenIn, Piece.map_shift_zero]
  rfl

@[simp] theorem writtenIn_element {e : Expression} :
    (operand scope e).WrittenIn 1 pieces ↔ nested (e.emit scope) <:+: pieces := .rfl

@[simp] theorem writtenIn_deferred {e : Expression} :
    (deferred scope e).WrittenIn 0 pieces ↔ nested (e.emit scope) <:+: pieces := .rfl

@[simp] theorem writtenIn_block {ownerLine : Nat} {b : Block} :
    (block scope ownerLine b).WrittenIn 0 pieces ↔ b.emit scope ownerLine <:+: pieces := by
  rw [block, WrittenIn, Piece.map_shift_zero]
  rfl

@[simp] theorem writtenIn_statement {s : Statement} :
    (statement scope s).WrittenIn 0 pieces ↔ s.emit scope <:+: pieces := by
  rw [statement, WrittenIn, Piece.map_shift_zero]
  rfl

theorem WrittenIn.mono (h : slot.WrittenIn indents pieces) (hmore : pieces <:+: more) :
    slot.WrittenIn indents more := by
  cases slot with
  | own => trivial
  | part => exact h.trans hmore

theorem writtenIn_typeClause (clause? : Option TypeClause) :
    ∀ slot ∈ TypeClause.slots clause?, slot.WrittenIn indents pieces := by
  cases clause? <;> simp [TypeClause.slots]

theorem writtenIn_comment (c : Comment) : ∀ slot ∈ c.slots, slot.WrittenIn indents pieces := by
  simp [Comment.slots]

theorem writtenIn_tokens (t? : Option Token) :
    ∀ slot ∈ tokens t?, slot.WrittenIn indents pieces := by
  simp [tokens]

end Slot

/-! ### Items of sequences -/

namespace Layout

variable {items : List Item} {item : Item}

theorem infix_blockItems (ownerLine? : Option Nat) (previous? : Option Range) (h : item ∈ items) :
    item.pieces <:+: blockItems ownerLine? previous? items := by
  induction items generalizing previous? with
  | nil => cases h
  | cons first rest ih =>
    rw [blockItems]
    rcases List.mem_cons.mp h with rfl | hrest
    · exact List.infix_append ..
    · exact (ih (some first.range) hrest).trans (List.suffix_append _ _).isInfix

theorem infix_bodyItems (previous : Item) (h : item ∈ items) :
    item.pieces <:+: bodyItems previous items := by
  induction items generalizing previous with
  | nil => cases h
  | cons first rest ih =>
    rw [bodyItems]
    rcases List.mem_cons.mp h with rfl | hrest
    · exact List.infix_append ..
    · exact (ih first hrest).trans (List.suffix_append _ _).isInfix

theorem infix_body (h : item ∈ items) : item.pieces <:+: body items := by
  cases items with
  | nil => cases h
  | cons first rest =>
    rw [body]
    rcases List.mem_cons.mp h with rfl | hrest
    · exact (List.prefix_append _ _).isInfix
    · exact (infix_bodyItems first hrest).trans (List.suffix_append _ _).isInfix

theorem infix_arrayItems (previous : Range) (h : item ∈ items) :
    item.pieces <:+: arrayItems previous items := by
  induction items generalizing previous with
  | nil => cases h
  | cons first rest ih =>
    rw [arrayItems]
    rcases List.mem_cons.mp h with rfl | hrest
    · rw [List.append_assoc _ (comma item rest)]
      exact List.infix_append ..
    · exact (ih first.range hrest).trans (List.suffix_append _ _).isInfix

theorem infix_array (opening closing : Token) (h : item ∈ items) :
    nested item.pieces <:+: array opening items closing := by
  have hitem := (infix_arrayItems opening.range h).map (Piece.shift 1)
  rw [array, List.append_assoc]
  exact hitem.trans ⟨[opening.piece], _, rfl⟩

end Layout

/-! ### Nodes -/

section Nodes

variable {scope : Scope}

theorem statement_mem_items {statements : List Statement} {s : Statement} (h : s ∈ statements) :
    ⟨s.range, s.role, s.emit scope⟩ ∈ statementItems scope statements := by
  rw [statementItems_eq_map]
  exact List.mem_map_of_mem h

theorem infix_arguments (scope : Scope) {arguments : List Expression} {e : Expression}
    (h : e ∈ arguments) :
    e.emit scope <:+: separated ", " (emitArguments scope arguments) := by
  apply Piece.infix_separated
  induction arguments with
  | nil => cases h
  | cons argument rest ih =>
    rw [emitArguments]
    rcases List.mem_cons.mp h with rfl | hrest
    · exact List.mem_cons_self
    · exact List.mem_cons_of_mem _ (ih hrest)

theorem infix_parameters {parameters : List Parameter} {p : Parameter} {e : Expression}
    (hp : p ∈ parameters) (he : p.default? = some e) :
    e.emit scope <:+: separated ", " (emitParameters scope parameters) := by
  obtain ⟨pieces, hpieces, hinfix⟩ : ∃ pieces ∈ emitParameters scope parameters,
      e.emit scope <:+: pieces := by
    induction parameters with
    | nil => cases hp
    | cons parameter rest ih =>
      rcases List.mem_cons.mp hp with rfl | hrest
      · obtain ⟨name, default?, type?⟩ := p
        obtain rfl : default? = some e := he
        exact ⟨_, List.mem_cons_self, List.infix_append ..⟩
      · obtain ⟨pieces, hpieces, hinfix⟩ := ih hrest
        obtain ⟨name, default?, type?⟩ := parameter
        cases default? <;> exact ⟨pieces, List.mem_cons_of_mem _ hpieces, hinfix⟩
  exact hinfix.trans (Piece.infix_separated ", " hpieces)

theorem FunctionLiteral.writtenIn (name? : Option Piece) (f : FunctionLiteral) :
    ∀ slot ∈ f.slots scope name?, slot.WrittenIn 0 (f.emit scope name?) := by
  have hparameters : ∀ slot ∈ f.parameters.flatMap (Parameter.slots scope),
      slot.WrittenIn 0 (separated ", " (emitParameters scope f.parameters)) := by
    intro slot hslot
    obtain ⟨p, hp, hslot⟩ := List.mem_flatMap.mp hslot
    rw [Parameter.slots, List.mem_append, List.mem_cons] at hslot
    rcases hslot with (rfl | hslot) | hslot
    · trivial
    · obtain ⟨e, he, rfl⟩ := List.mem_map.mp hslot
      exact Slot.writtenIn_operand.mpr (infix_parameters hp (Option.mem_toList.mp he))
    · exact Slot.writtenIn_typeClause _ slot hslot
  have hsection : (f.toSection scope name?).pieces scope <:+: f.emit scope name? := by
    rw [f.emit_eq_compound]
    exact Compound.infix_section List.mem_cons_self
  simp only [slots, List.forall_mem_append, List.forall_mem_cons, List.forall_mem_map,
    Slot.writtenIn_token, Slot.writtenIn_own, Slot.writtenIn_block, List.not_mem_nil,
    IsEmpty.forall_iff, implies_true, true_and, and_true]
  refine ⟨⟨fun slot hslot => (hparameters slot hslot).mono (.trans ?_ hsection),
    Slot.writtenIn_typeClause _⟩, .trans ?_ hsection⟩
  · refine .trans ?_ (Section.infix_header scope _)
    exact List.infix_append_of_infix_left (List.infix_append_of_infix_right
      (List.infix_cons List.infix_rfl))
  · exact Section.infix_body scope (f.toSection scope name?)

theorem infix_helperCall (position : Position) (h : Helper) {operand : List Piece}
    {operands : List (List Piece)} (hmem : operand ∈ operands) :
    operand <:+: helperCall position h operands :=
  (Piece.infix_separated ", " hmem).trans ⟨[.helper position h, .text "("], [.text ")"], rfl⟩

/-- The operand stands at the end of the function literal around it. -/
theorem Capture.suffix_deferred (captured : List Token) (operand : List Piece) :
    nested operand ++ newLine ++ [.text "end function"] <:+ deferred captured operand := by
  refine ⟨.text "function(scope)" ::
    nested (captured.flatMap (fun name => newLine ++ [binding name]) ++ newLine ++
      [.text "return "]), ?_⟩
  simp [deferred, nested, Piece.shift]

theorem infix_helperCall_deferred (position : Position) (h : Helper) (captured : List Token)
    {operand : List Piece} {operands : List (List Piece)}
    (hmem : Capture.deferred captured operand ∈ operands) :
    nested operand <:+: helperCall position h operands := by
  have hend := (Capture.suffix_deferred captured operand).isInfix
  rw [List.append_assoc] at hend
  exact ((List.prefix_append _ _).isInfix.trans hend).trans (infix_helperCall position h hmem)

theorem Expression.writtenIn_array (opening closing : Token) (elements : List Expression) :
    ∀ slot ∈ slots scope (.array opening elements closing),
      slot.WrittenIn 1 (emit scope (.array opening elements closing)) := by
  simp only [slots, List.forall_mem_cons, List.forall_mem_append, List.forall_mem_map,
    Slot.writtenIn_token, Slot.writtenIn_element, List.not_mem_nil, IsEmpty.forall_iff,
    implies_true, true_and, and_true]
  intro e he
  have hitem : ⟨e.range, if e.isComment then .comment else .code, e.emit scope⟩ ∈
      elementItems scope elements := by
    rw [elementItems_eq_map]
    exact List.mem_map_of_mem he
  exact Layout.infix_array opening closing hitem

theorem Expression.writtenIn_record (opening closing : Token) (members : List Member) :
    ∀ slot ∈ slots scope (.record opening members closing),
      slot.WrittenIn 1 (emit scope (.record opening members closing)) := by
  rw [emit, Layout.record_eq_array, memberItems_eq_map_outline]
  simp only [slots, List.forall_mem_cons, List.forall_mem_append, List.forall_mem_flatMap,
    Slot.writtenIn_token, List.not_mem_nil, IsEmpty.forall_iff, implies_true, true_and, and_true]
  intro m hm slot hslot
  have hitem := Layout.infix_array opening closing (List.mem_map_of_mem
    (f := fun m => m.outline.item (m.pieces scope)) hm)
  cases m with
  | comment c => exact Slot.writtenIn_comment c slot hslot
  | pair key colon value =>
    simp only [Member.slots, List.mem_cons, List.not_mem_nil, or_false] at hslot
    rcases hslot with rfl | rfl | rfl
    · trivial
    · trivial
    · exact .trans ⟨[key.piece, colon.piece, .text " "], [], List.append_nil _⟩ hitem

theorem Expression.writtenIn_template (opening closing : Token) (parts : List TemplatePart) :
    ∀ slot ∈ slots scope (.template opening parts closing),
      slot.WrittenIn 0 (emit scope (.template opening parts closing)) := by
  rw [slots, emit]
  split
  next => exact List.forall_mem_singleton.mpr trivial
  next =>
    intro slot hslot
    obtain ⟨p, hp, hslot⟩ := List.mem_flatMap.mp hslot
    cases p with
    | text token =>
      obtain ⟨line, -, rfl⟩ := List.mem_map.mp hslot
      trivial
    | expression e =>
      have hoperand := Layout.infix_concatenation opening (mem_templateOperands scope hp)
      simp only [TemplatePart.slots, List.mem_cons, List.not_mem_nil, or_false] at hslot
      rcases hslot with rfl | rfl
      · trivial
      · exact Slot.writtenIn_operand.mpr ((List.infix_append ..).trans hoperand)

theorem Expression.writtenIn_conditional (test : Expression) (question : Token)
    (consequent : Expression) (colon : Token) (alternate : Expression) :
    ∀ slot ∈ slots scope (.conditional test question consequent colon alternate),
      slot.WrittenIn 0 (emit scope (.conditional test question consequent colon alternate)) := by
  rw [slots, emit_conditional]
  split
  next =>
    simp only [List.forall_mem_cons, List.forall_mem_append, List.forall_mem_map,
      Slot.writtenIn_own, Slot.writtenIn_token, Slot.writtenIn_operand, Slot.writtenIn_deferred,
      List.not_mem_nil, IsEmpty.forall_iff, implies_true, true_and, and_true]
    exact ⟨infix_helperCall _ _ (by simp),
      infix_helperCall_deferred _ _ (scope.captured [consequent, alternate]) (by simp),
      infix_helperCall_deferred _ _ (scope.captured [consequent, alternate]) (by simp)⟩
  next =>
    simp only [List.forall_mem_cons, Slot.writtenIn_own, Slot.writtenIn_operand,
      List.not_mem_nil, IsEmpty.forall_iff, implies_true, true_and, and_true]
    exact ⟨infix_helperCall _ _ (by simp), infix_helperCall _ _ (by simp),
      infix_helperCall _ _ (by simp)⟩

theorem Expression.writtenIn_coalesce (left : Expression) (operator : Token)
    (right : Expression) :
    ∀ slot ∈ slots scope (.coalesce left operator right),
      slot.WrittenIn 0 (emit scope (.coalesce left operator right)) := by
  rw [slots, emit_coalesce]
  split
  next =>
    simp only [List.forall_mem_cons, List.forall_mem_append, List.forall_mem_map,
      Slot.writtenIn_own, Slot.writtenIn_token, Slot.writtenIn_operand, Slot.writtenIn_deferred,
      List.not_mem_nil, IsEmpty.forall_iff, implies_true, true_and, and_true]
    exact ⟨infix_helperCall _ _ (by simp),
      infix_helperCall_deferred _ _ (scope.captured [right]) (by simp)⟩
  next =>
    simp only [List.forall_mem_cons, Slot.writtenIn_own, Slot.writtenIn_operand,
      List.not_mem_nil, IsEmpty.forall_iff, implies_true, true_and, and_true]
    exact ⟨infix_helperCall _ _ (by simp), infix_helperCall _ _ (by simp)⟩

theorem Expression.writtenIn (e : Expression) :
    ∀ slot ∈ e.slots scope, slot.WrittenIn (Tree.expression e).indents (e.emit scope) := by
  have harguments {arguments : List Expression} (e) (he : e ∈ arguments) :=
    infix_arguments scope he
  cases e with
  | function f => exact f.writtenIn none
  | array opening elements closing => exact writtenIn_array opening closing elements
  | record opening members closing => exact writtenIn_record opening closing members
  | template opening parts closing => exact writtenIn_template opening closing parts
  | comment c => exact Slot.writtenIn_comment c
  | member object dot name =>
    rw [slots, emit_member]
    cases flattened? scope (.member object dot name) with
    | some piece => exact List.forall_mem_singleton.mpr trivial
    | none =>
      simp only [List.forall_mem_cons, Slot.writtenIn_token, Tree.indents,
        Slot.writtenIn_operand, List.not_mem_nil, IsEmpty.forall_iff, implies_true, and_true]
      exact (List.prefix_append _ _).isInfix
  | conditional => apply writtenIn_conditional
  | coalesce => apply writtenIn_coalesce
  | call callee opening arguments closing =>
    simp only [slots, emit, Tree.indents, List.forall_mem_cons, List.forall_mem_append,
      List.forall_mem_map, Slot.writtenIn_token, Slot.writtenIn_operand, List.not_mem_nil,
      IsEmpty.forall_iff, implies_true, true_and, and_true]
    constructor
    · solve_by_elim [List.infix_rfl, List.infix_append_of_infix_left]
    · intro e he
      solve_by_elim [List.infix_append_of_infix_left, List.infix_append_of_infix_right]
  | callfunc receiver operator method opening arguments closing =>
    simp only [slots, emit, Tree.indents, List.forall_mem_cons, List.forall_mem_append,
      List.forall_mem_map, Slot.writtenIn_token, Slot.writtenIn_own, Slot.writtenIn_operand,
      List.not_mem_nil, IsEmpty.forall_iff, implies_true, and_true]
    constructor
    · solve_by_elim [List.infix_rfl, List.infix_append_of_infix_left]
    · intro e he
      have hne : arguments.isEmpty = false := List.isEmpty_eq_false_iff.mpr (List.ne_nil_of_mem he)
      rw [hne, if_neg Bool.false_ne_true]
      solve_by_elim [List.infix_append_of_infix_left, List.infix_append_of_infix_right,
        List.infix_cons]
  | construct keyword className opening arguments closing =>
    simp only [slots, emit, Tree.indents, List.forall_mem_cons, List.forall_mem_append,
      List.forall_mem_map, Slot.writtenIn_token, Slot.writtenIn_own, Slot.writtenIn_operand,
      List.not_mem_nil, IsEmpty.forall_iff, implies_true, true_and, and_true]
    intro e he
    solve_by_elim [List.infix_append_of_infix_left, List.infix_append_of_infix_right]
  | literal | identifier => simp [slots]
  | unary | xmlAttribute | group =>
    simp only [slots, emit, Tree.indents, List.forall_mem_cons, Slot.writtenIn_token,
      Slot.writtenIn_operand, List.not_mem_nil, IsEmpty.forall_iff, implies_true, true_and,
      and_true]
    solve_by_elim [List.infix_rfl, List.infix_append_of_infix_left,
      List.infix_append_of_infix_right]
  | index | binary =>
    simp only [slots, emit, Tree.indents, List.forall_mem_cons, Slot.writtenIn_token,
      Slot.writtenIn_operand, List.not_mem_nil, IsEmpty.forall_iff, implies_true, true_and,
      and_true]
    constructor <;> solve_by_elim [List.infix_rfl, List.infix_append_of_infix_left,
      List.infix_append_of_infix_right]

theorem Assignment.writtenIn (a : Assignment) :
    ∀ slot ∈ a.slots scope, slot.WrittenIn 0 (a.emit scope) := by
  obtain ⟨name, operator, value⟩ := a
  simp only [slots, emit, List.forall_mem_cons, Slot.writtenIn_token, Slot.writtenIn_operand,
    List.not_mem_nil, IsEmpty.forall_iff, implies_true, true_and, and_true]
  exact (List.suffix_append _ _).isInfix

theorem infix_condition (keyword : Token) (condition : Expression) (then? : Option Token)
    (line : Nat) (body : Block) : condition.emit scope <:+:
      (conditionSection scope keyword condition then? line body).pieces scope := by
  refine .trans ?_ (Section.infix_header scope _)
  exact List.infix_append_of_infix_left (List.infix_cons List.infix_rfl)

theorem ElseIf.writtenIn (clause : ElseIf) :
    ∀ slot ∈ clause.slots scope, slot.WrittenIn 0 ((clause.toSection scope).pieces scope) := by
  simp only [slots, List.forall_mem_cons, List.forall_mem_append, Slot.writtenIn_token,
    Slot.writtenIn_operand, Slot.writtenIn_block, List.not_mem_nil, IsEmpty.forall_iff,
    implies_true, true_and, and_true]
  exact ⟨⟨infix_condition .., Slot.writtenIn_tokens _⟩,
    (clause.toSection scope).infix_body scope⟩

theorem Else.writtenIn (clause : Else) :
    ∀ slot ∈ clause.slots scope, slot.WrittenIn 0 (clause.toSection.pieces scope) := by
  simp only [slots, List.forall_mem_cons, Slot.writtenIn_token, Slot.writtenIn_block,
    List.not_mem_nil, IsEmpty.forall_iff, implies_true, true_and, and_true]
  exact clause.toSection.infix_body scope

theorem Statement.infix_section (scope : Scope) (s : Statement) {c : Compound}
    (hc : s.compound? scope = some c) {sec : Section} (hsec : sec ∈ c.sections) :
    sec.pieces scope <:+: s.emit scope := by
  rw [emit_eq_compound hc]
  exact Compound.infix_section hsec

theorem Statement.writtenIn_branch (first : Token) (condition : Expression)
    (then? : Option Token) (body : Block) (elseIfs : List ElseIf) (else? : Option Else)
    (end? : Option Token) :
    ∀ slot ∈ slots scope (.branch first condition then? body elseIfs else? end?),
      slot.WrittenIn 0 (emit scope (.branch first condition then? body elseIfs else? end?)) := by
  have hsection {sec : Section} :=
    @infix_section scope (.branch first condition then? body elseIfs else? end?) _ rfl sec
  have hfirst := hsection (List.mem_append_left _ List.mem_cons_self)
  simp only [slots, List.forall_mem_cons, List.forall_mem_append, List.forall_mem_flatMap,
    Slot.writtenIn_token, Slot.writtenIn_operand, Slot.writtenIn_block, true_and]
  refine ⟨⟨⟨⟨?_, Slot.writtenIn_tokens _⟩, ?_, ?_⟩, ?_⟩, Slot.writtenIn_tokens _⟩
  · exact (infix_condition ..).trans hfirst
  · exact (Section.infix_body scope _).trans hfirst
  · intro clause hclause slot hslot
    have hmem := List.mem_map_of_mem (f := ElseIf.toSection scope) hclause
    refine (clause.writtenIn slot hslot).mono (hsection ?_)
    exact List.mem_append_left _ (List.mem_cons_of_mem _ hmem)
  · intro clause hclause slot hslot
    have hmem := List.mem_map_of_mem (f := Else.toSection) hclause
    exact (clause.writtenIn slot hslot).mono (hsection (List.mem_append_right _ hmem))

theorem Statement.writtenIn_forLoop (first : Token) (counter : Assignment) (toToken : Token)
    (limit : Expression) (step? : Option ForStep) (body : Block) (endToken : Token) :
    ∀ slot ∈ slots scope (.forLoop first counter toToken limit step? body endToken),
      slot.WrittenIn 0
        (emit scope (.forLoop first counter toToken limit step? body endToken)) := by
  have hsection := infix_section scope
    (.forLoop first counter toToken limit step? body endToken) rfl List.mem_cons_self
  have hheader := (Section.infix_header scope _).trans hsection
  simp only [slots, List.forall_mem_cons, List.forall_mem_append, List.forall_mem_flatMap,
    Slot.writtenIn_token, Slot.writtenIn_operand, Slot.writtenIn_block, List.not_mem_nil,
    IsEmpty.forall_iff, implies_true, true_and, and_true]
  refine ⟨⟨fun slot hslot => (counter.writtenIn slot hslot).mono (.trans ?_ hheader),
    .trans ?_ hheader, ?_⟩, (Section.infix_body scope _).trans hsection⟩
  · solve_by_elim [List.infix_rfl, List.infix_append_of_infix_left, List.infix_cons]
  · refine List.infix_append_of_infix_left (List.infix_append_of_infix_right ?_)
    exact List.infix_cons (List.infix_cons (List.infix_cons List.infix_rfl))
  · intro step hstep slot hslot
    obtain rfl := Option.mem_toList.mp hstep
    simp only [ForStep.slots, List.mem_cons, List.not_mem_nil, or_false] at hslot
    rcases hslot with rfl | rfl
    · trivial
    · refine Slot.writtenIn_operand.mpr (.trans ?_ hheader)
      exact List.infix_append_of_infix_right
        (List.infix_cons (List.infix_cons (List.infix_cons (List.prefix_append _ _).isInfix)))

theorem mem_emitItems (scope : Scope) {items : List PrintItem} {e : Expression}
    (h : .expression e ∈ items) :
    e.emit scope ∈ emitItems scope items := by
  induction items with
  | nil => cases h
  | cons item rest ih =>
    rcases List.mem_cons.mp h with rfl | hrest
    · exact List.mem_cons_self
    · cases item with
      | separator => exact ih hrest
      | expression => exact List.mem_cons_of_mem _ (ih hrest)

theorem Statement.writtenIn_print (first : Token) (items : List PrintItem) :
    ∀ slot ∈ slots scope (.print first items),
      slot.WrittenIn 0 (emit scope (.print first items)) := by
  simp only [slots, List.forall_mem_cons, List.forall_mem_flatMap, Slot.writtenIn_token, true_and]
  intro item hitem slot hslot
  cases item with
  | separator => cases hslot
  | expression e =>
    obtain rfl := List.mem_singleton.mp hslot
    have hmem := mem_emitItems scope hitem
    have hne : (emitItems scope items).isEmpty = false :=
      List.isEmpty_eq_false_iff.mpr (List.ne_nil_of_mem hmem)
    rw [Slot.writtenIn_operand, emit, hne, if_neg Bool.false_ne_true]
    exact (Piece.infix_separated " ; " hmem).trans ⟨[first.piece, .text " "], [], by simp⟩

theorem Statement.writtenIn (s : Statement) :
    ∀ slot ∈ s.slots scope, slot.WrittenIn 0 (s.emit scope) := by
  cases s with
  | assignment a => exact a.writtenIn
  | comment c => exact Slot.writtenIn_comment c
  | branch => apply writtenIn_branch
  | forLoop => apply writtenIn_forLoop
  | print => apply writtenIn_print
  | function name f => exact f.writtenIn _
  | namespaceBlock first name body endToken =>
    intro slot hslot
    obtain ⟨s, hs, rfl⟩ := List.mem_map.mp hslot
    exact Slot.writtenIn_statement.mpr (Layout.infix_body (statement_mem_items hs))
  | returning first value? =>
    cases value? with
    | none => exact List.forall_mem_singleton.mpr trivial
    | some value =>
      simp only [slots, emit, Option.toList_some, List.map_cons, List.map_nil,
        List.forall_mem_cons, Slot.writtenIn_token, Slot.writtenIn_operand, List.not_mem_nil,
        IsEmpty.forall_iff, implies_true, true_and, and_true]
      exact (List.suffix_append _ _).isInfix
  | forEach first item inToken target body endToken =>
    have hsection := infix_section scope
      (.forEach first item inToken target body endToken) rfl List.mem_cons_self
    simp only [slots, List.forall_mem_cons, Slot.writtenIn_token, Slot.writtenIn_operand,
      Slot.writtenIn_block, List.not_mem_nil, IsEmpty.forall_iff, implies_true, true_and, and_true]
    refine ⟨.trans ?_ hsection, (Section.infix_body scope _).trans hsection⟩
    refine .trans ?_ (Section.infix_header scope _)
    exact (List.suffix_append
      [.text " ", item.piece, .text " ", inToken.piece, .text " "] _).isInfix
  | whileLoop first condition body endToken =>
    have hsection := infix_section scope (.whileLoop first condition body endToken) rfl
      List.mem_cons_self
    simp only [slots, List.forall_mem_cons, Slot.writtenIn_token, Slot.writtenIn_operand,
      Slot.writtenIn_block, List.not_mem_nil, IsEmpty.forall_iff, implies_true, true_and, and_true]
    refine ⟨.trans ?_ hsection, (Section.infix_body scope _).trans hsection⟩
    refine .trans ?_ (Section.infix_header scope _)
    exact List.infix_cons List.infix_rfl
  | tryCatch first body catchToken exceptionName handler endToken =>
    have hsection {sec : Section} := @infix_section scope
      (.tryCatch first body catchToken exceptionName handler endToken) _ rfl sec
    simp only [slots, List.forall_mem_cons, Slot.writtenIn_token,
      Slot.writtenIn_block, List.not_mem_nil, IsEmpty.forall_iff, implies_true, true_and, and_true]
    exact ⟨(Section.infix_body scope _).trans (hsection List.mem_cons_self),
      (Section.infix_body scope _).trans
        (hsection (List.mem_cons_of_mem _ List.mem_cons_self))⟩
  | goto | label | library | keyword | importFile => simp [slots]
  | increment | throwing | expression =>
    simp only [slots, emit, List.forall_mem_cons, Slot.writtenIn_token, Slot.writtenIn_operand,
      List.not_mem_nil, IsEmpty.forall_iff, implies_true, true_and, and_true]
    solve_by_elim [List.infix_rfl, List.infix_append_of_infix_left,
      List.infix_append_of_infix_right]
  | memberSet | indexSet =>
    simp only [slots, emit, List.forall_mem_cons, Slot.writtenIn_token, Slot.writtenIn_operand,
      List.not_mem_nil, IsEmpty.forall_iff, implies_true, true_and, and_true]
    and_intros <;> solve_by_elim [List.infix_rfl, List.infix_append_of_infix_left,
      List.infix_append_of_infix_right]

end Nodes

/-! ## Sites -/

namespace Site

theorem writtenIn (site : Site) :
    ∀ slot ∈ site.slots, slot.WrittenIn site.tree.indents site.emit := by
  obtain ⟨scope, ownerLine?, tree⟩ := site
  cases tree with
  | body statements =>
    intro slot hslot
    obtain ⟨s, hs, rfl⟩ := List.mem_map.mp hslot
    exact Slot.writtenIn_statement.mpr (Layout.infix_body (statement_mem_items hs))
  | block b =>
    obtain ⟨start, statements⟩ := b
    intro slot hslot
    obtain ⟨s, hs, rfl⟩ := List.mem_map.mp hslot
    exact (Layout.infix_blockItems ownerLine? none (statement_mem_items hs)).map (Piece.shift 1)
  | statement s => exact s.writtenIn
  | expression e => exact e.writtenIn

/-- What lies below a site is written in it, that many levels further down. -/
theorem Lies.infix {site inner : Site} {levels : Nat} (h : site.Lies inner levels) :
    inner.emit.map (Piece.shift levels) <:+: site.emit := by
  induction h with
  | self site => rw [Piece.map_shift_zero]
  | @part site part inner literals levels hpart _ ih =>
    have hwritten := (ih.map (Piece.shift (site.tree.indents + literals))).trans
      (site.writtenIn _ hpart)
    simpa [Function.comp_def, Piece.shift_shift] using hwritten

theorem Lies.trans {site middle inner : Site} {upper lower : Nat} (h : site.Lies middle upper)
    (hinner : middle.Lies inner lower) : site.Lies inner (lower + upper) := by
  induction h with
  | self => exact hinner
  | part hpart _ ih =>
    rw [← Nat.add_assoc]
    exact .part hpart (ih hinner)

/-- Whatever a site holds lies below it. -/
theorem Holds.lies {site inner : Site} {count : Nat} (h : site.Holds inner count) :
    ∃ levels, site.Lies inner levels := by
  induction h with
  | self site => exact ⟨0, .self site⟩
  | part hpart _ ih =>
    obtain ⟨levels, hlies⟩ := ih
    exact ⟨_, .part hpart hlies⟩

end Site

theorem FunctionLiteral.block_mem_slots (scope : Scope) (name? : Option Piece)
    (f : FunctionLiteral) : .block scope f.range.start.line f.body ∈ f.slots scope name? := by
  simp [slots]

theorem Statement.block_mem_slots {scope : Scope} {s : Statement} {c : Compound}
    (hc : s.compound? scope = some c) {sec : Section} (hsec : sec ∈ c.sections) :
    .block scope sec.line sec.body ∈ s.slots scope := by
  cases s with
  | branch first condition then? body elseIfs else? end? =>
    obtain rfl := Option.some.inj hc
    rw [slots]
    rcases List.mem_append.mp hsec with hbefore | helse
    · rcases List.mem_cons.mp hbefore with rfl | hclauses
      · simp [conditionSection]
      · obtain ⟨clause, hclause, rfl⟩ := List.mem_map.mp hclauses
        have hblock : .block scope clause.range.start.line clause.body ∈ clause.slots scope := by
          simp [ElseIf.slots]
        have hmem := List.mem_flatMap_of_mem hclause hblock
        exact List.mem_append_left _ (List.mem_append_left _
          (List.mem_append_right _ (List.mem_cons_of_mem _ hmem)))
    · obtain ⟨clause, hclause, rfl⟩ := List.mem_map.mp helse
      have hblock : .block scope clause.range.start.line clause.body ∈ clause.slots scope := by
        simp [Else.slots]
      have hmem := List.mem_flatMap_of_mem hclause hblock
      exact List.mem_append_left _ (List.mem_append_right _ hmem)
  | forLoop | forEach | whileLoop =>
    obtain rfl := Option.some.inj hc
    obtain rfl := List.mem_singleton.mp hsec
    simp [slots]
  | tryCatch =>
    obtain rfl := Option.some.inj hc
    simp at hsec
    rcases hsec with rfl | rfl <;> simp [slots]
  | function name f =>
    obtain rfl := Option.some.inj hc
    obtain rfl := List.mem_singleton.mp hsec
    exact f.block_mem_slots scope _
  | _ => cases hc

/-- The blocks of a construct lie as deep as the construct. -/
theorem Site.lies_block {site : Site} {c : Compound} (hc : site.compound? = some c) {sec : Section}
    (hsec : sec ∈ c.sections) : site.Lies ⟨site.scope, some sec.line, .block sec.body⟩ 0 := by
  obtain ⟨scope, ownerLine?, tree⟩ := site
  cases tree with
  | statement s =>
    have hmem : .part ⟨scope, some sec.line, .block sec.body⟩ 0 ∈
        slots ⟨scope, ownerLine?, .statement s⟩ := s.block_mem_slots hc hsec
    exact .part hmem (.self _)
  | expression e =>
    cases e with
    | function f =>
      obtain rfl := Option.some.inj hc
      obtain rfl := List.mem_singleton.mp hsec
      have hmem : .part ⟨scope, some f.range.start.line, .block f.body⟩ 0 ∈
          slots ⟨scope, ownerLine?, .expression (.function f)⟩ := f.block_mem_slots scope none
      exact .part hmem (.self _)
    | _ => cases hc
  | _ => cases hc

/-- What is written in a site is written in the tree, indented as deep as the site lies there. -/
theorem State.exists_render_of_infix {s : State} {tree : Tree} {site : Site} {levels : Nat}
    {pieces : List Piece} (hsite : (s.site tree).Lies site levels) (h : pieces <:+: site.emit) :
    ∃ first last, let here : State := { s with depth := s.depth + levels }
      (s.emit tree).1 = first ++ here.render pieces ++ last := by
  obtain ⟨front, back, hpieces⟩ := (h.map (Piece.shift levels)).trans hsite.infix
  have hemit : (s.emit tree).1 = s.render (s.site tree).emit := rfl
  refine ⟨s.render front, s.render back, ?_⟩
  intro here
  have hshift : here.render pieces = s.render (pieces.map (Piece.shift levels)) :=
    (Piece.renderAll_shift ..).symm
  rw [hemit, ← hpieces, hshift, render_append, render_append]

end Downlevel
