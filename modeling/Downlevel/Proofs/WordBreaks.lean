import Downlevel.Proofs.Erasure
import Downlevel.Proofs.Words

/-!
# No two words meet

Here the nodes are gone through: between two words each of them writes a space, a line break or a
*mark*, that is a bracket, a dot, a colon or some such token. So whatever is emitted can be read by
a `WordReader`, in every scope.

What is left is the one line break that the options may leave out. Main statement: if two words meet
in the emitted text, then the options leave it out, and the words meet at the end of an empty block
of an `if`, an `else if`, an `else`, a `for` or a `for each` (`State.emit_separates_words`).
-/

namespace Downlevel

open Piece (newLine separated)

/-! ## Marks -/

/-- The token has the shape of a bracket, a dot, a colon, an at sign or an increment operator: it is
not empty and has no letter, no digit and no underscore. -/
structure Token.IsMark (w : WordClass) (t : Token) : Prop where
  text_ne : t.text ≠ ""
  not_contains : ∀ c ∈ t.text.toList, w.contains c = false

namespace FunctionLiteral

def marks (f : FunctionLiteral) : List Token := [f.opening, f.closing]

end FunctionLiteral

namespace Member

/-- The colon of a pair. -/
def colon? : Member → Option Token
  | pair _ colon _ => some colon
  | comment _ => none

end Member

namespace Expression

/-- The brackets, dots, colons and at signs that an expression writes itself. -/
def marks : Expression → List Token
  | call _ opening _ closing => [opening, closing]
  | callfunc _ _ _ opening _ closing => [opening, closing]
  | function f => f.marks
  | member _ dot _ => [dot]
  | index _ opening _ closing => [opening, closing]
  | xmlAttribute _ sign _ => [sign]
  | group opening _ closing => [opening, closing]
  | array opening _ closing => [opening, closing]
  | record opening members closing => opening :: closing :: members.filterMap Member.colon?
  | construct _ _ opening _ closing => [opening, closing]
  | _ => []

end Expression

namespace Statement

/-- The brackets, dots, colons and increment operators that a statement writes itself. -/
def marks : Statement → List Token
  | memberSet _ dot _ _ => [dot]
  | indexSet _ opening _ closing _ => [opening, closing]
  | increment _ operator => [operator]
  | label _ colon => [colon]
  | function _ f => f.marks
  | _ => []

end Statement

/-! ## Clauses -/

/-- A part of a statement that ends with its block, if what follows the block starts a line only
when the block is not empty or the options say so. -/
structure Clause where
  /-- What is written before the block. -/
  header : List Piece
  body : Block

/-- What an `if` or an `else if` writes before its block. -/
def conditionHeader (scope : Scope) (keyword : Token) (condition : Expression)
    (then? : Option Token) : List Piece :=
  keyword.piece :: .text " " :: condition.emit scope ++
    [.text " ", Token.pieceOr "then" then?]

def ElseIf.clause (scope : Scope) (clause : ElseIf) : Clause :=
  ⟨conditionHeader scope clause.keyword clause.condition clause.then?, clause.body⟩

def Else.clause (clause : Else) : Clause := ⟨[clause.keyword.piece], clause.body⟩

def ForStep.pieces (scope : Scope) (step : ForStep) : List Piece :=
  .text " " :: step.keyword.piece :: .text " " :: step.amount.emit scope

/-- The clauses of an `if`, a `for` or a `for each`. -/
def Statement.clauses (scope : Scope) : Statement → List Clause
  | .branch first condition then? body elseIfs else? _ =>
    ⟨conditionHeader scope first condition then?, body⟩ :: elseIfs.map (ElseIf.clause scope) ++
      else?.toList.map Else.clause
  | .forLoop first counter toToken limit step? body _ =>
    [⟨first.piece :: .text " " :: counter.emit scope ++ .text " " :: toToken.piece ::
      .text " " :: limit.emit scope ++ step?.toList.flatMap (ForStep.pieces scope), body⟩]
  | .forEach first item inToken target body _ =>
    [⟨first.piece :: .text " " :: item.piece :: .text " " :: inToken.piece :: .text " " ::
      target.emit scope, body⟩]
  | _ => []

namespace Site

def marks (site : Site) : List Token :=
  match site.tree with
  | .statement s => s.marks
  | .expression e => e.marks
  | _ => []

def clauses (site : Site) : List Clause :=
  match site.tree with
  | .statement s => s.clauses site.scope
  | _ => []

end Site

/-! ## Nodes -/

namespace WordReader

/-- A part is read as its owner relies on. -/
def Accepts (r : WordReader) (site : Site) : Prop :=
  match site.tree with
  | .block _ => r.Loose site.emit
  | _ => r.Apart site.emit

end WordReader

/-- The part of the entry, if it has one, is accepted. -/
def Slot.Accepted (r : WordReader) : Slot → Prop
  | own _ => True
  | part site _ => r.Accepts site

variable {r : WordReader}

section Nodes

open WordReader

variable {scope : Scope} {e : Expression}

@[simp] theorem Slot.accepted_own (piece : Piece) : (own piece).Accepted r := trivial

@[simp] theorem Slot.accepted_token (t : Token) : (token t).Accepted r := trivial

@[simp] theorem Slot.accepted_operand : (operand scope e).Accepted r ↔ r.Apart (e.emit scope) :=
  .rfl

@[simp] theorem Slot.accepted_block (ownerLine : Nat) (b : Block) :
    (block scope ownerLine b).Accepted r ↔ r.Loose (b.emit scope ownerLine) :=
  .rfl

theorem WordReader.separates_mark {t : Token} (h : t.IsMark r.words) : r.Separates t.piece where
  isEmptyBreak := rfl
  said_ne := h.text_ne
  startsWord := WordClass.startsWord_of_not_contains h.not_contains
  endsWord := WordClass.endsWord_of_not_contains h.not_contains

/-- Brackets separate what is in them from what is not. -/
theorem WordReader.separates_brackets {opening closing : Token}
    (h : ∀ t ∈ [opening, closing], t.IsMark r.words) :
    r.Separates opening.piece ∧ r.Separates closing.piece :=
  ⟨separates_mark (h opening List.mem_cons_self),
    separates_mark (h closing (List.mem_cons_of_mem _ List.mem_cons_self))⟩

theorem WordReader.Apart.token (t : Token) {rest : List Piece} (hrest : r.Loose rest) :
    r.Apart (t.piece :: rest) :=
  .cons rfl hrest

theorem apart_emitArguments {arguments : List Expression}
    (h : ∀ slot ∈ arguments.map (Slot.operand scope), slot.Accepted r) :
    r.Apart (separated ", " (emitArguments scope arguments)) := by
  apply Apart.separated comma
  induction arguments with
  | nil => simp [emitArguments]
  | cons argument rest ih =>
    obtain ⟨hargument, hrest⟩ := List.forall_mem_cons.mp h
    exact List.forall_mem_cons.mpr ⟨hargument, ih hrest⟩

theorem loose_typeClause (clause? : Option TypeClause) : r.Loose (TypeClause.pieces clause?) := by
  cases clause? with
  | none => exact .nil
  | some clause => exact space.loose (.token clause.asToken (space.loose (.single rfl)))

theorem apart_emitParameters {parameters : List Parameter}
    (h : ∀ slot ∈ parameters.flatMap (Parameter.slots scope), slot.Accepted r) :
    r.Apart (separated ", " (emitParameters scope parameters)) := by
  apply Apart.separated comma
  induction parameters with
  | nil => simp [emitParameters]
  | cons parameter rest ih =>
    rw [List.flatMap_cons, List.forall_mem_append] at h
    obtain ⟨hparameter, hrest⟩ := h
    obtain ⟨name, default?, type?⟩ := parameter
    have htype : r.Loose (TypeClause.pieces type?) := loose_typeClause type?
    cases default? with
    | none => exact List.forall_mem_cons.mpr ⟨.token name htype, ih hrest⟩
    | some value =>
      have hequals : r.Separates (.text " = ") := separates_text (by decide) (by decide)
      have hvalue : r.Apart (value.emit scope) := hparameter (.operand scope value) (by
        simp [Parameter.slots])
      have hall := Apart.token name (hequals.loose (hvalue.append htype))
      refine List.forall_mem_cons.mpr ⟨?_, ih hrest⟩
      simpa using hall

theorem FunctionLiteral.apart {f : FunctionLiteral} {name? : Option Piece}
    (hname : ∀ name ∈ name?, name.isEmptyBreak = false)
    (h : ∀ slot ∈ f.slots scope name?, slot.Accepted r) (hmarks : ∀ t ∈ f.marks, t.IsMark r.words) :
    r.Apart (f.emit scope name?) := by
  obtain ⟨keyword, opening, parameters, closing, returnType?, body, endToken⟩ := f
  obtain ⟨hopening, hclosing⟩ := separates_brackets hmarks
  have hparameters : r.Apart (separated ", " (emitParameters scope parameters)) := by
    refine apart_emitParameters fun slot hslot => h slot ?_
    simp only [slots, List.mem_append, List.mem_cons]
    tauto
  simp only [slots, List.forall_mem_append, List.forall_mem_cons, Slot.accepted_block] at h
  obtain ⟨-, hbody, -⟩ := h
  have hend : r.Loose (newLine ++ [endToken.piece]) := .newLine (.single rfl)
  have hrest := (loose_typeClause returnType?).append (hbody.append hend)
  have hall := hopening.loose (hparameters.append (hclosing.loose hrest.toApart))
  cases name? with
  | none => simpa [emit] using (Apart.token keyword hall)
  | some name =>
    have hnamed := space.loose (Apart.cons (hname name rfl) hall)
    simpa [emit] using (Apart.token keyword hnamed)

theorem apart_comment (c : Comment) : r.Apart c.pieces := by
  have hothers : r.Loose
      (c.others.flatMap fun token => newLine ++ [.comment token.start token.text]) := by
    induction c.others with
    | nil => exact .nil
    | cons token rest ih => exact (Loose.newLine (.single rfl)).append ih
  exact .cons rfl hothers

theorem apart_elementItems {elements : List Expression}
    (h : ∀ slot ∈ elements.map (Slot.operand scope), slot.Accepted r) :
    ∀ item ∈ elementItems scope elements, r.Apart item.pieces := by
  rw [elementItems_eq_map]
  exact List.forall_mem_map.mpr fun e he => h _ (List.mem_map_of_mem he)

theorem apart_memberItems {members : List Member}
    (h : ∀ slot ∈ members.flatMap (Member.slots scope), slot.Accepted r)
    (hmarks : ∀ t ∈ members.filterMap Member.colon?, t.IsMark r.words) :
    ∀ item ∈ memberItems scope members, r.Apart item.pieces := by
  induction members with
  | nil => simp [memberItems]
  | cons member rest ih =>
    rw [List.flatMap_cons, List.forall_mem_append] at h
    obtain ⟨hmember, hrest⟩ := h
    cases member with
    | comment c => exact List.forall_mem_cons.mpr ⟨apart_comment c, ih hrest hmarks⟩
    | pair key colon value =>
      obtain ⟨hcolon, hmarks⟩ := List.forall_mem_cons.mp hmarks
      have hvalue : r.Apart (value.emit scope) := by simpa [Member.slots] using hmember
      have hpair := (separates_mark hcolon).loose (space.loose hvalue).toApart
      exact List.forall_mem_cons.mpr ⟨.token key hpair, ih hrest hmarks⟩

theorem apart_templateOperands {parts : List TemplatePart}
    (h : ∀ slot ∈ parts.flatMap (TemplatePart.slots scope), slot.Accepted r) :
    ∀ operand ∈ templateOperands scope parts, r.Apart operand := by
  induction parts with
  | nil => simp [templateOperands]
  | cons part rest ih =>
    rw [List.flatMap_cons, List.forall_mem_append] at h
    obtain ⟨hpart, hrest⟩ := h
    cases part with
    | text token =>
      rw [templateOperands, List.forall_mem_append]
      exact ⟨apart_textOperands token.start _, ih hrest⟩
    | expression e =>
      have he : r.Apart (e.emit scope) := by simpa [TemplatePart.slots] using hpart
      have hcall : r.Apart (helperCall e.range.start .toText [e.emit scope]) :=
        apart_helperCall _ _ (List.forall_mem_singleton.mpr he)
      exact List.forall_mem_cons.mpr ⟨hcall, ih hrest⟩

theorem Expression.apart_callfunc {receiver : Expression} {operator method opening closing : Token}
    {arguments : List Expression}
    (h : ∀ slot ∈ slots scope (.callfunc receiver operator method opening arguments closing),
      slot.Accepted r)
    (hopening : r.Separates opening.piece) (hclosing : r.Separates closing.piece) :
    r.Apart (emit scope (.callfunc receiver operator method opening arguments closing)) := by
  simp only [slots, List.forall_mem_append, List.forall_mem_cons, Slot.accepted_operand] at h
  obtain ⟨⟨⟨hreceiver, -⟩, harguments⟩, -⟩ := h
  have hlast : r.Loose (if arguments.isEmpty then [.text ", invalid"]
      else .text ", " :: separated ", " (emitArguments scope arguments)) := by
    have hinvalid : Text.startsApart ", invalid" = true := by decide
    split
    · exact .cons rfl hinvalid .nil
    · exact comma.loose (apart_emitArguments harguments)
  have hmethod : (Piece.written method.start ("\"" ++ method.text ++ "\"")).isEmptyBreak = false :=
    rfl
  have hstart : Text.startsApart ".callfunc" = true := by decide
  have hcall : r.Loose (.written operator.start ".callfunc" :: opening.piece ::
      .written method.start ("\"" ++ method.text ++ "\"") ::
      ((if arguments.isEmpty then [.text ", invalid"]
        else .text ", " :: separated ", " (emitArguments scope arguments)) ++
      [closing.piece])) :=
    .cons rfl hstart (hopening.loose (.cons hmethod (hlast.append (hclosing.loose .nil))))
  simpa [emit] using hreceiver.append hcall

theorem Expression.apart (h : ∀ slot ∈ e.slots scope, slot.Accepted r)
    (hmarks : ∀ t ∈ e.marks, t.IsMark r.words) : r.Apart (e.emit scope) := by
  cases e with
  | binary left operator right =>
    simp only [slots, List.forall_mem_cons, Slot.accepted_operand] at h
    obtain ⟨hleft, -, hright, -⟩ := h
    have hoperator := space.loose (Apart.token operator (space.loose hright))
    simpa [emit] using hleft.append hoperator
  | unary operator operand =>
    simp only [slots, List.forall_mem_cons, Slot.accepted_operand] at h
    exact .token operator (space.loose h.2.1)
  | call callee opening arguments closing =>
    obtain ⟨hopening, hclosing⟩ := separates_brackets hmarks
    simp only [slots, List.forall_mem_append, List.forall_mem_cons, Slot.accepted_operand] at h
    obtain ⟨⟨hcallee, -, harguments⟩, -⟩ := h
    have hend := hclosing.loose .nil
    have hlist := hopening.loose ((apart_emitArguments harguments).append hend)
    simpa [emit] using hcallee.append hlist
  | callfunc receiver operator method opening arguments closing =>
    obtain ⟨hopening, hclosing⟩ := separates_brackets hmarks
    exact apart_callfunc h hopening hclosing
  | function f => exact f.apart (by simp) h hmarks
  | member object dot name =>
    have hdot := separates_mark (hmarks dot List.mem_cons_self)
    rw [emit_member]
    rw [slots] at h
    cases hflat : flattened? scope (.member object dot name) with
    | some piece =>
      obtain ⟨position, text, rfl⟩ := eq_written_of_flattened? hflat
      exact .single rfl
    | none =>
      rw [hflat] at h
      have hobject : r.Apart (object.emit scope) := h (.operand scope object) List.mem_cons_self
      exact hobject.append (hdot.loose (.single rfl))
  | identifier name => exact .single rfl
  | index object opening key closing =>
    obtain ⟨hopening, hclosing⟩ := separates_brackets hmarks
    simp only [slots, List.forall_mem_cons, Slot.accepted_operand] at h
    obtain ⟨hobject, -, hkey, -⟩ := h
    have hend := hclosing.loose .nil
    have hall := hobject.append (hopening.loose (hkey.append hend))
    simpa [emit] using hall
  | xmlAttribute object sign name =>
    have hsign := separates_mark (hmarks sign List.mem_cons_self)
    have hobject : r.Apart (object.emit scope) := h (.operand scope object) List.mem_cons_self
    exact hobject.append (hsign.loose (.single rfl))
  | group opening inner closing =>
    obtain ⟨hopening, hclosing⟩ := separates_brackets hmarks
    simp only [slots, List.forall_mem_cons, Slot.accepted_operand] at h
    have hend := hclosing.loose .nil
    exact (hopening.loose (h.2.1.append hend)).toApart
  | literal token =>
    unfold emit literalPiece
    split
    · exact .single rfl
    · exact .single rfl
  | array opening elements closing =>
    obtain ⟨hopening, hclosing⟩ := separates_brackets hmarks
    simp only [slots, List.forall_mem_append, List.forall_mem_cons] at h
    exact apart_array hopening hclosing (apart_elementItems h.1.2)
  | record opening members closing =>
    rw [marks, List.forall_mem_cons, List.forall_mem_cons] at hmarks
    obtain ⟨hopening, hclosing, hcolons⟩ := hmarks
    simp only [slots, List.forall_mem_append, List.forall_mem_cons] at h
    rw [emit, Layout.record_eq_array]
    exact apart_array (separates_mark hopening) (separates_mark hclosing)
      (apart_memberItems h.1.2 hcolons)
  | construct first className opening arguments closing =>
    obtain ⟨hopening, hclosing⟩ := separates_brackets hmarks
    simp only [slots, List.forall_mem_append, List.forall_mem_cons] at h
    have hend := hclosing.loose .nil
    have hlist := hopening.loose ((apart_emitArguments h.1.2.2).append hend)
    exact .cons rfl hlist
  | conditional test question consequent colon alternate =>
    rw [emit_conditional]
    rw [slots] at h
    split at h
    next hmutate =>
      rw [if_pos hmutate]
      have htest : r.Apart (test.emit scope) := h (.operand scope test) (by simp)
      have hconsequent : r.Apart (consequent.emit scope) :=
        h (.deferred scope consequent) (by simp)
      have halternate : r.Apart (alternate.emit scope) := h (.deferred scope alternate) (by simp)
      apply apart_helperCall
      simp [htest, apart_scopeObject, apart_deferred, hconsequent, halternate]
    next hmutate =>
      rw [if_neg hmutate]
      apply apart_helperCall
      simpa using h
  | coalesce left operator right =>
    rw [emit_coalesce]
    rw [slots] at h
    split at h
    next hmutate =>
      rw [if_pos hmutate]
      have hleft : r.Apart (left.emit scope) := h (.operand scope left) (by simp)
      have hright : r.Apart (right.emit scope) := h (.deferred scope right) (by simp)
      apply apart_helperCall
      simp [hleft, apart_scopeObject, apart_deferred, hright]
    next hmutate =>
      rw [if_neg hmutate]
      apply apart_helperCall
      simpa using h
  | template opening parts closing =>
    rw [slots] at h
    split at h
    next hnone =>
      rw [emit, List.isEmpty_iff.mp hnone]
      exact .single rfl
    next => exact apart_concatenation opening (apart_templateOperands h)
  | comment c => exact apart_comment c

theorem Block.statements_eq_nil {ownerLine? : Option Nat} {b : Block}
    (h : b.emit scope ownerLine? = []) : b.statements = [] := by
  obtain ⟨start, statements⟩ := b
  cases statements with
  | nil => rfl
  | cons first rest =>
    rw [emit, Layout.block, Piece.nested, List.map_eq_nil_iff, statementItems,
      Layout.blockItems] at h
    split at h <;> cases h

/-- A clause, its block and what follows it. -/
theorem Clause.apart {clause : Clause} {ownerLine : Nat} {rest : List Piece}
    (hheader : r.Apart clause.header) (hbody : r.Loose (clause.body.emit scope ownerLine))
    (hempty : clause.body.statements = [] → r.IsHeader clause.header) (hrest : r.Apart rest) :
    r.Apart (clause.header ++ (Layout.branch (clause.body.emit scope ownerLine) ++ rest)) :=
  .branch hheader hbody (fun h => hempty (Block.statements_eq_nil h)) hrest

theorem apart_conditionHeader {condition : Expression} (h : r.Apart (condition.emit scope))
    (first : Token) (then? : Option Token) :
    r.Apart (conditionHeader scope first condition then?) := by
  have hthen : r.Loose [.text " ", Token.pieceOr "then" then?] :=
    space.loose (.single (Piece.isEmptyBreak_pieceOr "then" then?))
  exact .token first (space.loose (h.append hthen))

theorem apart_elseIfs {clauses : List ElseIf} {rest : List Piece}
    (h : ∀ slot ∈ clauses.flatMap (ElseIf.slots scope), slot.Accepted r)
    (hheaders : ∀ clause ∈ clauses.map (ElseIf.clause scope),
      clause.body.statements = [] → r.IsHeader clause.header)
    (hrest : r.Apart rest) : r.Apart (emitElseIfs scope clauses ++ rest) := by
  induction clauses with
  | nil => exact hrest
  | cons clause clauses ih =>
    rw [List.flatMap_cons, List.forall_mem_append] at h
    obtain ⟨hclause, hclauses⟩ := h
    obtain ⟨hheader, hothers⟩ := List.forall_mem_cons.mp hheaders
    obtain ⟨first, condition, then?, body⟩ := clause
    simp only [ElseIf.slots, List.forall_mem_append, List.forall_mem_cons, Slot.accepted_operand,
      Slot.accepted_block] at hclause
    obtain ⟨⟨-, hcondition, -⟩, hbody, -⟩ := hclause
    have hall := Clause.apart (apart_conditionHeader hcondition first then?) hbody hheader
      (ih hclauses hothers)
    simpa [emitElseIfs, ElseIf.clause, conditionHeader] using Apart.indent 0 hall

theorem Assignment.apart {a : Assignment} (h : r.Apart (a.value.emit scope)) :
    r.Apart (a.emit scope) := by
  obtain ⟨name, operator, value⟩ := a
  exact .token name (space.loose (.token operator (space.loose h)))

theorem apart_emitItems {items : List PrintItem}
    (h : ∀ slot ∈ items.flatMap (PrintItem.slots scope), slot.Accepted r) :
    r.Apart (separated " ; " (emitItems scope items)) := by
  apply Apart.separated (separates_text (by decide) (by decide))
  induction items with
  | nil => simp [emitItems]
  | cons item rest ih =>
    rw [List.flatMap_cons, List.forall_mem_append] at h
    obtain ⟨hitem, hrest⟩ := h
    cases item with
    | expression e =>
      have he : r.Apart (e.emit scope) := hitem (.operand scope e) List.mem_cons_self
      exact List.forall_mem_cons.mpr ⟨he, ih hrest⟩
    | separator token => exact ih hrest

theorem apart_statementItems {statements : List Statement}
    (h : ∀ slot ∈ statements.map (Slot.statement scope), slot.Accepted r) :
    ∀ item ∈ statementItems scope statements, r.Apart item.pieces := by
  rw [statementItems_eq_map]
  exact List.forall_mem_map.mpr fun s hs => h _ (List.mem_map_of_mem hs)

theorem Statement.apart_branch {first : Token} {condition : Expression} {then? : Option Token}
    {body : Block} {elseIfs : List ElseIf} {else? : Option Else} {end? : Option Token}
    (h : ∀ slot ∈ slots scope (.branch first condition then? body elseIfs else? end?),
      slot.Accepted r)
    (hheaders : ∀ clause ∈ clauses scope (.branch first condition then? body elseIfs else? end?),
      clause.body.statements = [] → r.IsHeader clause.header) :
    r.Apart (emit scope (.branch first condition then? body elseIfs else? end?)) := by
  simp only [slots, List.forall_mem_append, List.forall_mem_cons, Slot.accepted_operand,
    Slot.accepted_block] at h
  obtain ⟨⟨⟨⟨-, hcondition, -⟩, hbody, hclauses⟩, hotherwise⟩, -⟩ := h
  rw [clauses, List.forall_mem_append, List.forall_mem_cons] at hheaders
  obtain ⟨⟨hfirst, hheaders⟩, hlast⟩ := hheaders
  have hend : r.Apart [.indent 0, Token.pieceOr "end if" end?] :=
    .indent 0 (.single (Piece.isEmptyBreak_pieceOr "end if" end?))
  have hheader := apart_conditionHeader hcondition first then?
  cases else? with
  | none =>
    have hall := Clause.apart hheader hbody hfirst (apart_elseIfs hclauses hheaders hend)
    simpa [emit, conditionHeader] using hall
  | some clause =>
    obtain ⟨keyword, otherwise⟩ := clause
    have hblock : r.Loose (otherwise.emit scope _) :=
      hotherwise (.block scope (Else.mk keyword otherwise).range.start.line otherwise)
        (by simp [Else.slots])
    have helse := Clause.apart (.single rfl) hblock (hlast (Else.clause ⟨keyword, otherwise⟩)
      (by simp)) hend
    have hall := Clause.apart hheader hbody hfirst
      (apart_elseIfs hclauses hheaders (Apart.indent 0 helse))
    simpa [emit, conditionHeader, Else.clause] using hall

theorem Statement.apart_forLoop {first : Token} {counter : Assignment} {toToken : Token}
    {limit : Expression} {step? : Option ForStep} {body : Block} {endToken : Token}
    (h : ∀ slot ∈ slots scope (.forLoop first counter toToken limit step? body endToken),
      slot.Accepted r)
    (hheaders : ∀ clause ∈ clauses scope
        (.forLoop first counter toToken limit step? body endToken),
      clause.body.statements = [] → r.IsHeader clause.header) :
    r.Apart (emit scope (.forLoop first counter toToken limit step? body endToken)) := by
  simp only [slots, List.forall_mem_append, List.forall_mem_cons, Slot.accepted_operand,
    Slot.accepted_block] at h
  obtain ⟨⟨⟨-, hcounter⟩, -, hlimit, hstep⟩, hbody, -⟩ := h
  have hvalue : r.Apart (counter.value.emit scope) :=
    hcounter (.operand scope counter.value) (by simp [Assignment.slots])
  have hsteps : r.Loose (step?.toList.flatMap (ForStep.pieces scope)) := by
    cases step? with
    | none => exact .nil
    | some step =>
      have hamount : r.Apart (step.amount.emit scope) :=
        hstep (.operand scope step.amount) (by simp [ForStep.slots])
      have hpieces := space.loose (Apart.token step.keyword (space.loose hamount))
      simpa [ForStep.pieces] using hpieces
  have hto := space.loose (Apart.token toToken (space.loose (hlimit.append hsteps)))
  have hcounter := (Assignment.apart hvalue).append hto
  have hheader := Apart.token first (space.loose hcounter)
  have hend : r.Apart [.indent 0, endToken.piece] := .indent 0 (.single rfl)
  have hall := Clause.apart (by simpa using hheader) hbody (hheaders _ List.mem_cons_self) hend
  cases step? with
  | none => simpa [emit] using hall
  | some step =>
    obtain ⟨stepToken, amount⟩ := step
    simpa [emit, ForStep.pieces] using hall

theorem Statement.apart (s : Statement) (h : ∀ slot ∈ s.slots scope, slot.Accepted r)
    (hmarks : ∀ t ∈ s.marks, t.IsMark r.words)
    (hheaders : ∀ clause ∈ s.clauses scope,
      clause.body.statements = [] → r.IsHeader clause.header) : r.Apart (s.emit scope) := by
  have hequals : r.Separates (.text " = ") := separates_text (by decide) (by decide)
  cases s with
  | assignment a =>
    exact Assignment.apart (h (.operand scope a.value) (by simp [slots, Assignment.slots]))
  | expression e => exact h (.operand scope e) List.mem_cons_self
  | comment c => exact apart_comment c
  | branch => exact apart_branch h hheaders
  | forLoop => exact apart_forLoop h hheaders
  | forEach first item inToken target body endToken =>
    simp only [slots, List.forall_mem_cons, Slot.accepted_operand, Slot.accepted_block] at h
    obtain ⟨-, -, -, htarget, hbody, -⟩ := h
    have hin := space.loose (Apart.token inToken (space.loose htarget))
    have hheader := Apart.token first (space.loose (Apart.token item hin))
    have hend : r.Apart [.indent 0, endToken.piece] := .indent 0 (.single rfl)
    have hall := Clause.apart hheader hbody (hheaders _ List.mem_cons_self) hend
    simpa [emit] using hall
  | whileLoop first condition body endToken =>
    simp only [slots, List.forall_mem_cons, Slot.accepted_operand, Slot.accepted_block] at h
    obtain ⟨-, hcondition, hbody, -⟩ := h
    have hend : r.Loose (newLine ++ [endToken.piece]) := .newLine (.single rfl)
    have hall := Apart.token first (space.loose (hcondition.append (hbody.append hend)))
    simpa [emit] using hall
  | memberSet object dot name value =>
    have hdot := separates_mark (hmarks dot List.mem_cons_self)
    simp only [slots, List.forall_mem_cons, Slot.accepted_operand] at h
    obtain ⟨hobject, -, -, hvalue, -⟩ := h
    have hset := hdot.loose (Apart.token name (hequals.loose hvalue))
    simpa [emit] using hobject.append hset
  | indexSet object opening key closing value =>
    obtain ⟨hopening, hclosing⟩ := separates_brackets hmarks
    simp only [slots, List.forall_mem_cons, Slot.accepted_operand] at h
    obtain ⟨hobject, -, hkey, -, hvalue, -⟩ := h
    have hset := hclosing.loose (hequals.loose hvalue).toApart
    have hall := hobject.append (hopening.loose (hkey.append hset))
    simpa [emit] using hall
  | increment value operator =>
    have hoperator := separates_mark (hmarks operator List.mem_cons_self)
    have hvalue : r.Apart (value.emit scope) := h (.operand scope value) List.mem_cons_self
    exact hvalue.append (hoperator.loose .nil)
  | print first items =>
    have hoperands := apart_emitItems (List.forall_mem_cons.mp h).2
    rw [emit]
    split
    · exact .token first .nil
    · exact .token first (space.loose hoperands)
  | goto first label => exact .token first (space.loose (.single rfl))
  | label name colon =>
    have hcolon := separates_mark (hmarks colon List.mem_cons_self)
    exact .token name (hcolon.loose .nil)
  | returning first value? =>
    cases value? with
    | none => exact .single rfl
    | some value =>
      exact .token first (space.loose (h (.operand scope value) (by simp [slots])))
  | keyword word token => exact .single rfl
  | library first path => exact .token first (space.loose (.single rfl))
  | function name f => exact f.apart (by simp [Piece.isEmptyBreak]) h hmarks
  | namespaceBlock first name body endToken => exact apart_body (apart_statementItems h)
  | importFile first path =>
    have hquote : r.Separates (.text "'") := separates_text (by decide) (by decide)
    exact (hquote.loose (.cons rfl (space.loose (.single rfl)))).toApart
  | tryCatch first body catchToken exceptionName handler endToken =>
    simp only [slots, List.forall_mem_cons, Slot.accepted_block] at h
    obtain ⟨-, hbody, -, -, hhandler, -⟩ := h
    have hend : r.Loose (newLine ++ [endToken.piece]) := .newLine (.single rfl)
    have hname := Apart.token exceptionName (hhandler.append hend)
    have hcatch := Loose.newLine (Apart.token catchToken (space.loose hname))
    have hall := Apart.token first (hbody.append hcatch)
    simpa [emit] using hall
  | throwing first value =>
    exact .token first (space.loose (h (.operand scope value) (by simp [slots])))

end Nodes

/-! ## Sites -/

namespace Site

variable {site : Site}

/-- A site is accepted if its parts are. -/
theorem accepts_of_parts (h : ∀ slot ∈ site.slots, slot.Accepted r)
    (hmarks : ∀ t ∈ site.marks, t.IsMark r.words)
    (hheaders : ∀ clause ∈ site.clauses, clause.body.statements = [] → r.IsHeader clause.header) :
    r.Accepts site := by
  obtain ⟨scope, ownerLine?, tree⟩ := site
  cases tree with
  | body statements => exact WordReader.apart_body (apart_statementItems h)
  | block b =>
    obtain ⟨start, statements⟩ := b
    exact WordReader.loose_block ownerLine? (apart_statementItems h)
  | statement s => exact s.apart h hmarks hheaders
  | expression e => exact e.apart h hmarks

/-- Whatever the marks of a site and of all that it holds are, it is accepted by a reader that knows
the headers of the empty blocks. -/
theorem accepts (hmarks : ∀ inner count, site.Holds inner count → ∀ t ∈ inner.marks,
      t.IsMark r.words)
    (hheaders : ∀ inner count, site.Holds inner count → ∀ clause ∈ inner.clauses,
      clause.body.statements = [] → r.IsHeader clause.header) : r.Accepts site := by
  induction site using WellFounded.induction (measure fun site : Site => sizeOf site.tree).wf with
  | _ site ih =>
    refine accepts_of_parts ?_ (hmarks site 0 (.self site)) (hheaders site 0 (.self site))
    intro slot hslot
    cases slot with
    | own => trivial
    | part part literals =>
      refine ih part (site.allFit _ hslot).1 ?_ ?_
      · exact fun inner count hinner => hmarks inner _ (.part hslot hinner)
      · exact fun inner count hinner => hheaders inner _ (.part hslot hinner)

theorem apart_of_accepts (h : r.Accepts site) : r.Apart site.emit := by
  obtain ⟨scope, ownerLine?, tree⟩ := site
  cases tree with
  | block => exact h.toApart
  | _ => exact h

end Site

/-! ## Fragments -/

namespace State

variable {s : State} {tree : Tree} {piece : Piece} {pieces : List Piece}

theorem render_cons (s : State) (piece : Piece) (pieces : List Piece) :
    s.render (piece :: pieces) = s.render [piece] ++ s.render pieces :=
  Piece.renderAll_append s.options s.source s.depth [piece] pieces

theorem render_emptyBlockBreak (s : State) : s.render [.emptyBlockBreak] =
    if s.options.newlineBeforeEmptyBlockEnd then [.plain s.options.newLine.text] else [] :=
  List.append_nil _

/-- Only a line break that the options leave out writes nothing. -/
theorem render_singleton (s : State) (piece : Piece) :
    (∃ f, s.render [piece] = [f]) ∨ s.options.newlineBeforeEmptyBlockEnd = false ∧
      piece = .emptyBlockBreak ∧ s.render [piece] = [] := by
  cases piece with
  | emptyBlockBreak =>
    rw [render_emptyBlockBreak]
    cases s.options.newlineBeforeEmptyBlockEnd with
    | true => exact .inl ⟨_, rfl⟩
    | false => exact .inr ⟨rfl, rfl, rfl⟩
  | _ => exact .inl ⟨_, rfl⟩

/-- What is read for a piece is what the piece writes, unless that is blank. -/
theorem said_or_blank (hunit : ∀ c ∈ s.options.indentUnit.toList, Text.isBlank c = true)
    {f : Fragment} (h : s.render [piece] = [f]) : f.text = piece.said s.options.helperPrefix ∨
      f.text.toList.all Text.isBlank = true ∧
        (f.text = "" → piece.said s.options.helperPrefix = "") := by
  have hnewLine : Fragment.text (.plain s.options.newLine.text) ≠ "" := by
    show s.options.newLine.text ≠ ""
    cases s.options.newLine <;> decide
  cases piece with
  | written | comment | commentedOut | helper | text =>
    cases h
    exact .inl rfl
  | indent levels =>
    cases h
    exact .inr ⟨isBlank_indentation hunit _, fun _ => rfl⟩
  | lineBreak =>
    cases h
    exact .inr ⟨isBlank_newLine _, fun hempty => absurd hempty hnewLine⟩
  | emptyBlockBreak =>
    rw [render_emptyBlockBreak] at h
    split at h
    · cases h
      exact .inr ⟨isBlank_newLine _, fun hempty => absurd hempty hnewLine⟩
    · cases h

/-- A fragment is written by some piece. -/
theorem exists_piece {before after : List Fragment} {f : Fragment}
    (h : s.render pieces = before ++ f :: after) :
    ∃ left piece right, pieces = left ++ piece :: right ∧ s.render left = before ∧
      s.render [piece] = [f] ∧ s.render right = after := by
  induction pieces generalizing before with
  | nil => simp [render, Piece.renderAll] at h
  | cons piece rest ih =>
    rw [render_cons] at h
    rcases s.render_singleton piece with ⟨g, hg⟩ | ⟨-, -, hnone⟩
    · rw [hg] at h
      cases before with
      | nil =>
        obtain ⟨rfl, hrest⟩ := List.cons.inj h
        exact ⟨[], piece, rest, rfl, rfl, hg, hrest⟩
      | cons first before =>
        obtain ⟨rfl, hrest⟩ := List.cons.inj h
        obtain ⟨left, inner, right, rfl, hleft, hinner, hright⟩ := ih hrest
        refine ⟨piece :: left, inner, right, rfl, ?_, hinner, hright⟩
        rw [render_cons, hg, hleft]
        rfl
    · rw [hnone, List.nil_append] at h
      obtain ⟨left, inner, right, rfl, hleft, hinner, hright⟩ := ih h
      refine ⟨piece :: left, inner, right, rfl, ?_, hinner, hright⟩
      rw [render_cons, hnone, hleft]
      rfl

section Reading

variable {r : WordReader} (hunit : ∀ c ∈ s.options.indentUnit.toList, Text.isBlank c = true)
  (hlibrary : r.library = s.options.helperPrefix)

include hunit hlibrary

/-- Where a word can be read behind another one, a line break has been left out between them. -/
theorem exists_emptyBlockBreak {gap after : List Fragment} {f : Fragment}
    (hread : (r.read true pieces).isSome = true)
    (hrender : s.render pieces = gap ++ f :: after) (hgap : ∀ g ∈ gap, g.text = "")
    (hf : r.words.startsWord f.text = true) :
    s.options.newlineBeforeEmptyBlockEnd = false ∧ ∃ left right first rest,
      pieces = left ++ .emptyBlockBreak :: right ∧ gap = first ++ rest ∧
      s.render left = first ∧ s.render right = rest ++ f :: after := by
  induction pieces generalizing gap with
  | nil => simp [render, Piece.renderAll] at hrender
  | cons piece pieces ih =>
    rw [render_cons] at hrender
    rcases s.render_singleton piece with ⟨g, hg⟩ | ⟨hoption, rfl, hnone⟩
    · rw [hg] at hrender
      have hsaid := said_or_blank hunit hg
      rw [← hlibrary] at hsaid
      rw [WordReader.read_cons] at hread
      cases gap with
      | nil =>
        -- the word itself cannot have been read
        obtain ⟨rfl, -⟩ := List.cons.inj hrender
        exfalso
        rcases hsaid with hsaid | ⟨hblank, -⟩
        · rw [← hsaid, WordClass.follow_true_of_startsWord hf] at hread
          cases hread
        · rw [WordClass.startsWord_of_not_contains (WordClass.not_contains_of_blank hblank)] at hf
          cases hf
      | cons first gap =>
        obtain ⟨rfl, hrest⟩ := List.cons.inj hrender
        obtain ⟨hempty, hgap⟩ := List.forall_mem_cons.mp hgap
        have hsaid : piece.said r.library = "" := by
          rcases hsaid with hsaid | ⟨-, hsaid⟩
          · exact hsaid.symm.trans hempty
          · exact hsaid hempty
        rw [hsaid] at hread
        obtain ⟨hoption, left, right, before, rest, rfl, rfl, hleft, hright⟩ :=
          ih hread hrest hgap
        refine ⟨hoption, piece :: left, right, g :: before, rest, rfl, rfl, ?_, hright⟩
        rw [render_cons, hg, hleft]
        rfl
    · rw [hnone, List.nil_append] at hrender
      exact ⟨hoption, [], pieces, [], gap, rfl, rfl, rfl, hrender⟩

/-- Where two words meet, a line break has been left out between them. -/
theorem exists_emptyBlockBreak_between {before gap after : List Fragment} {a b : Fragment}
    (hread : (r.read false pieces).isSome = true)
    (hrender : s.render pieces = before ++ a :: (gap ++ b :: after))
    (hgap : ∀ g ∈ gap, g.text = "") (ha : r.words.endsWord a.text = true)
    (hb : r.words.startsWord b.text = true) :
    s.options.newlineBeforeEmptyBlockEnd = false ∧ ∃ left right first rest,
      pieces = left ++ .emptyBlockBreak :: right ∧ gap = first ++ rest ∧
      s.render left = before ++ a :: first ∧ s.render right = rest ++ b :: after := by
  obtain ⟨front, piece, back, rfl, hfront, hpiece, hback⟩ := exists_piece hrender
  obtain ⟨last, hlast⟩ := Option.isSome_iff_exists.mp hread
  rw [WordReader.read_append] at hlast
  obtain ⟨behind, -, hlast⟩ := Option.bind_eq_some_iff.mp hlast
  rw [WordReader.read_cons] at hlast
  obtain ⟨next, hnext, hlast⟩ := Option.bind_eq_some_iff.mp hlast
  -- behind the first word the reader is behind a word
  have htrue : next = true := by
    rcases said_or_blank hunit hpiece with hsaid | ⟨hblank, -⟩
    · rw [← hlibrary] at hsaid
      rw [← hsaid] at hnext
      exact WordClass.follow_of_endsWord ha hnext
    · rw [WordClass.endsWord_of_not_contains (WordClass.not_contains_of_blank hblank)] at ha
      cases ha
  rw [htrue] at hlast
  obtain ⟨hoption, left, right, first, rest, rfl, rfl, hleft, hright⟩ :=
    exists_emptyBlockBreak hunit hlibrary (Option.isSome_of_eq_some hlast) hback hgap hb
  refine ⟨hoption, front ++ piece :: left, right, first, rest, by simp, rfl, ?_, hright⟩
  rw [render, Piece.renderAll_append, ← render, ← render, render_cons, hfront, hpiece, hleft]
  rfl

end Reading

/-- The reader of what is emitted for a tree. The headers are those of the clauses in the tree whose
blocks are empty. -/
def wordReader (s : State) (tree : Tree) (w : WordClass) : WordReader where
  words := w
  library := s.options.helperPrefix
  IsHeader header := ∃ inner count clause levels, (s.site tree).Holds inner count ∧
    clause ∈ inner.clauses ∧ clause.body.statements = [] ∧
    header = clause.header.map (Piece.shift levels)
  isHeader_shift := by
    rintro _ more ⟨inner, count, clause, levels, hinner, hclause, hempty, rfl⟩
    refine ⟨inner, count, clause, levels + more, hinner, hclause, hempty, ?_⟩
    simp [Piece.shift_shift]

/-- Two words may meet in the text for a tree, with no text between them, only if the options leave
out the line break behind an empty block. They meet where it is left out: the first word ends the
header of an `if`, an `else if`, an `else`, a `for` or a `for each`, whose block is empty, and the
second one is in what follows the block. -/
theorem emit_separates_words (s : State) (tree : Tree) (w : WordClass)
    (hunit : ∀ c ∈ s.options.indentUnit.toList, Text.isBlank c = true)
    (hmarks : ∀ inner count, (s.site tree).Holds inner count → ∀ t ∈ inner.marks, t.IsMark w)
    {before gap after : List Fragment} {a b : Fragment}
    (hemit : (s.emit tree).1 = before ++ a :: (gap ++ b :: after))
    (hgap : ∀ g ∈ gap, g.text = "") (ha : w.endsWord a.text = true)
    (hb : w.startsWord b.text = true) :
    s.options.newlineBeforeEmptyBlockEnd = false ∧
    ∃ inner count clause levels left right first rest,
      (s.site tree).Holds inner count ∧ clause ∈ inner.clauses ∧ clause.body.statements = [] ∧
      s.pieces tree = left ++ clause.header.map (Piece.shift levels) ++
        .emptyBlockBreak :: right ∧
      gap = first ++ rest ∧
      s.render (left ++ clause.header.map (Piece.shift levels)) = before ++ a :: first ∧
      s.render right = rest ++ b :: after := by
  have hheaders : ∀ inner count, (s.site tree).Holds inner count → ∀ clause ∈ inner.clauses,
      clause.body.statements = [] → (s.wordReader tree w).IsHeader clause.header := by
    intro inner count hinner clause hclause hempty
    exact ⟨inner, count, clause, 0, hinner, hclause, hempty, (Piece.map_shift_zero _).symm⟩
  have haccepts : (s.wordReader tree w).Accepts (s.site tree) := Site.accepts hmarks hheaders
  have hpieces : (s.wordReader tree w).Apart (s.pieces tree) := Site.apart_of_accepts haccepts
  obtain ⟨hoption, front, right, first, rest, heq, hparts, hfront, hright⟩ :=
    exists_emptyBlockBreak_between hunit rfl hpieces.reads hemit hgap ha hb
  obtain ⟨_, ⟨inner, count, clause, levels, hinner, hclause, hempty, rfl⟩, left, rfl⟩ :=
    hpieces.headed front right heq
  exact ⟨hoption, inner, count, clause, levels, left, right, first, rest, hinner, hclause, hempty,
    heq, hparts, hfront, hright⟩

/-- In an `if` with an empty block that is not indented, `then` runs into `end if`. -/
theorem emit_separates_words_empty_if :
    let token (text : String) : Token := { (default : Token) with text }
    let s : State := ⟨{}, .none, "", 0, [], {}⟩
    let tree : Tree := .statement
      (.branch (token "if") (.identifier (token "x")) none ⟨default, []⟩ [] none none)
    let w := WordClass.plain
    let before : List Fragment :=
      [.mapped default "" "if", .plain " ", .mapped default "" "x", .plain " "]
    ((∀ c ∈ s.options.indentUnit.toList, Text.isBlank c = true) ∧
      (∀ inner count, (s.site tree).Holds inner count → ∀ t ∈ inner.marks, t.IsMark w) ∧
      (s.emit tree).1 = before ++ .plain "then" :: ([.plain ""] ++ [.plain "end if"]) ∧
      w.endsWord "then" = true ∧ w.startsWord "end if" = true) ∧
    s.options.newlineBeforeEmptyBlockEnd = false ∧
    ∃ inner count clause, (s.site tree).Holds inner count ∧ clause ∈ inner.clauses ∧
      clause.body.statements = [] := by
  intro token s tree w before
  have hunit : ∀ c ∈ s.options.indentUnit.toList, Text.isBlank c = true :=
    List.all_eq_true.mp (by decide)
  have hmarks : ∀ inner count, (s.site tree).Holds inner count →
      ∀ t ∈ inner.marks, t.IsMark w := by
    intro inner count hinner t ht
    cases hinner with
    | self => cases ht
    | part hpart hrest =>
      simp [tree, State.site, Site.slots, Statement.slots, Slot.tokens, Slot.operand, Slot.token,
        Slot.block] at hpart
      -- neither the condition nor the block has parts
      rcases hpart with ⟨rfl, -⟩ | ⟨rfl, -⟩ <;> cases hrest with
      | self => cases ht
      | part hinner => simp [Site.slots, Expression.slots] at hinner
  have hemit : (s.emit tree).1 =
      before ++ .plain "then" :: ([.plain ""] ++ [.plain "end if"]) := by decide
  have hgap : ∀ g ∈ [Fragment.plain ""], g.text = "" := by decide
  have hthen : w.endsWord "then" = true := by decide
  have hend : w.startsWord "end if" = true := by decide
  obtain ⟨hoption, inner, count, clause, _, _, _, _, _, hinner, hclause, hempty, -⟩ :=
    emit_separates_words s tree w hunit hmarks hemit hgap hthen hend
  exact ⟨⟨hunit, hmarks, hemit, hthen, hend⟩, hoption, inner, count, clause, hinner, hclause,
    hempty⟩

end State

end Downlevel
