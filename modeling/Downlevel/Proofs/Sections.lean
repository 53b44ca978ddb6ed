import Downlevel.Proofs.LineEnds

/-!
# Sections

Everything that has blocks is written alike: a keyword with a header behind it, the block, and at
the start of the next line the keyword of the next section or the end of the whole. Loops and
functions have one section; `if` has one for each branch, and `try` has two.

Main statement: emission writes sections (`Site.emit_eq_compound`).
-/

namespace Downlevel

open Piece (newLine)

/-- A part of a compound that ends with its block. -/
structure Section where
  keyword : Token
  /-- What is written between the keyword and the block. -/
  header : List Piece
  /-- The line on which the owner of the block opens. -/
  line : Nat
  body : Block
  /-- Whether what follows an empty block starts a line only if the options say so. -/
  isOptional : Bool

namespace Section

/-- The line break behind the block. -/
def lineEnd (sec : Section) : Piece :=
  if sec.isOptional && sec.body.statements.isEmpty then .emptyBlockBreak else .lineBreak

/-- What is written for the section, up to its line break. -/
def pieces (scope : Scope) (sec : Section) : List Piece :=
  sec.keyword.piece :: sec.header ++ sec.body.emit scope sec.line

end Section

/-- A construct with blocks: its sections and what closes the last one. -/
structure Compound where
  sections : List Section
  closing : Piece

namespace Compound

/-- What is written for the sections, each with the start of the line behind it. -/
def pieces (scope : Scope) (c : Compound) : List Piece :=
  c.sections.flatMap (fun sec => sec.pieces scope ++ [sec.lineEnd, .indent 0]) ++ [c.closing]

/-- The piece that follows some of the sections. -/
def next (c : Compound) (after : List Section) : Piece :=
  (after.head?.map fun sec => sec.keyword.piece).getD c.closing

end Compound

theorem Section.infix_header (scope : Scope) (sec : Section) : sec.header <:+: sec.pieces scope :=
  ⟨[sec.keyword.piece], sec.body.emit scope sec.line, rfl⟩

theorem Section.infix_body (scope : Scope) (sec : Section) :
    sec.body.emit scope sec.line <:+: sec.pieces scope :=
  (List.suffix_append _ _).isInfix

theorem Compound.infix_section {scope : Scope} {c : Compound} {sec : Section}
    (h : sec ∈ c.sections) : sec.pieces scope <:+: c.pieces scope := by
  have hline : sec.pieces scope ++ [sec.lineEnd, .indent 0] <:+:
      c.sections.flatMap fun sec => sec.pieces scope ++ [sec.lineEnd, .indent 0] := by
    rw [List.flatMap_def]
    exact List.infix_of_mem_flatten (List.mem_map_of_mem h)
  exact ((List.prefix_append _ _).isInfix.trans hline).trans (List.prefix_append _ _).isInfix

/-! ## Constructs with blocks -/

def FunctionLiteral.toSection (scope : Scope) (name? : Option Piece) (f : FunctionLiteral) :
    Section where
  keyword := f.keyword
  header := name?.toList.flatMap (fun name => [.text " ", name]) ++ f.opening.piece ::
    Piece.separated ", " (emitParameters scope f.parameters) ++ f.closing.piece ::
    TypeClause.pieces f.returnType?
  line := f.range.start.line
  body := f.body
  isOptional := false

def FunctionLiteral.compound (scope : Scope) (name? : Option Piece) (f : FunctionLiteral) :
    Compound :=
  ⟨[f.toSection scope name?], f.endToken.piece⟩

/-- The section of `if` and `else if`. -/
def conditionSection (scope : Scope) (keyword : Token) (condition : Expression)
    (then? : Option Token) (line : Nat) (body : Block) : Section where
  keyword := keyword
  header := .text " " :: condition.emit scope ++ [.text " ", Token.pieceOr "then" then?]
  line := line
  body := body
  isOptional := true

def ElseIf.toSection (scope : Scope) (clause : ElseIf) : Section :=
  conditionSection scope clause.keyword clause.condition clause.then? clause.range.start.line
    clause.body

def Else.toSection (clause : Else) : Section where
  keyword := clause.keyword
  header := []
  line := clause.range.start.line
  body := clause.body
  isOptional := true

/-- The sections of a statement, if it has any. -/
def Statement.compound? (scope : Scope) (s : Statement) : Option Compound :=
  match s with
  | .branch first condition then? body elseIfs else? end? =>
    some {
      sections := conditionSection scope first condition then? s.range.start.line body ::
        elseIfs.map (ElseIf.toSection scope) ++ else?.toList.map Else.toSection
      closing := Token.pieceOr "end if" end? }
  | .forLoop first counter toToken limit step? body endToken =>
    some {
      sections := [{
        keyword := first
        header := .text " " :: counter.emit scope ++ .text " " :: toToken.piece :: .text " " ::
          limit.emit scope ++ step?.toList.flatMap fun step =>
            .text " " :: step.keyword.piece :: .text " " :: step.amount.emit scope
        line := s.range.start.line
        body := body
        isOptional := true }]
      closing := endToken.piece }
  | .forEach first item inToken target body endToken =>
    some {
      sections := [{
        keyword := first
        header := .text " " :: item.piece :: .text " " :: inToken.piece :: .text " " ::
          target.emit scope
        line := s.range.start.line
        body := body
        isOptional := true }]
      closing := endToken.piece }
  | .whileLoop first condition body endToken =>
    some {
      sections := [{
        keyword := first
        header := .text " " :: condition.emit scope
        line := s.range.start.line
        body := body
        isOptional := false }]
      closing := endToken.piece }
  | .tryCatch first body catchToken exceptionName handler endToken =>
    some {
      sections := [
        { keyword := first
          header := []
          line := s.range.start.line
          body := body
          isOptional := false },
        { keyword := catchToken
          header := [.text " ", exceptionName.piece]
          line := (catchToken.range.cover exceptionName.range).start.line
          body := handler
          isOptional := false }]
      closing := endToken.piece }
  | .function name f =>
    some (f.compound scope (some (.written name.start (scope.declaredName name.text))))
  | _ => none

/-- The sections of a site, if it has any. -/
def Site.compound? (site : Site) : Option Compound :=
  match site.tree with
  | .statement s => s.compound? site.scope
  | .expression (.function f) => some (f.compound site.scope none)
  | _ => none

/-! ## Emission writes sections -/

theorem Layout.block_eq_nil {ownerLine? : Option Nat} {items : List Item} :
    block ownerLine? items = [] ↔ items = [] := by
  cases items with
  | nil => simp [block, blockItems, Piece.nested]
  | cons item rest =>
    simp only [block, blockItems, Piece.nested, List.map_eq_nil_iff, List.append_eq_nil_iff]
    split <;> simp [newLine]

theorem Block.isEmpty_emit (scope : Scope) (ownerLine? : Option Nat) (b : Block) :
    (b.emit scope ownerLine?).isEmpty = b.statements.isEmpty := by
  obtain ⟨start, statements⟩ := b
  rw [Bool.eq_iff_iff, List.isEmpty_iff, List.isEmpty_iff, emit, Layout.block_eq_nil,
    statementItems_eq_map, List.map_eq_nil_iff]

/-- The line break behind a block is left out where the block is empty. -/
theorem Block.branch_emit (scope : Scope) (ownerLine? : Option Nat) (b : Block) :
    Layout.branch (b.emit scope ownerLine?) = b.emit scope ownerLine? ++
      [if b.statements.isEmpty then .emptyBlockBreak else .lineBreak] := by
  rw [Layout.branch, isEmpty_emit]

theorem FunctionLiteral.emit_eq_compound (scope : Scope) (name? : Option Piece)
    (f : FunctionLiteral) : f.emit scope name? = (f.compound scope name?).pieces scope := by
  obtain ⟨keyword, opening, parameters, closing, returnType?, body, endToken⟩ := f
  cases name? <;>
    simp [emit, compound, toSection, Compound.pieces, Section.pieces, Section.lineEnd, newLine]

/-- Each clause begins with the indentation that its predecessor has as its end. -/
theorem emitElseIfs_append (scope : Scope) (clauses : List ElseIf) (rest : List Piece) :
    emitElseIfs scope clauses ++ .indent 0 :: rest =
      .indent 0 :: ((clauses.map (ElseIf.toSection scope)).flatMap fun sec =>
        sec.pieces scope ++ [sec.lineEnd, .indent 0]) ++ rest := by
  induction clauses with
  | nil => rfl
  | cons clause clauses ih =>
    obtain ⟨keyword, condition, then?, body⟩ := clause
    rw [emitElseIfs, List.append_assoc, ih, List.map_cons, List.flatMap_cons]
    simp [ElseIf.toSection, Section.pieces, Section.lineEnd, conditionSection, Block.branch_emit]

theorem Statement.emit_eq_compound {scope : Scope} {s : Statement} {c : Compound}
    (h : s.compound? scope = some c) : s.emit scope = c.pieces scope := by
  cases s with
  | branch first condition then? body elseIfs else? end? =>
    obtain rfl := Option.some.inj h
    have hclauses := emitElseIfs_append scope elseIfs
    cases else? with
    | none =>
      simp [emit, hclauses, Compound.pieces, Section.pieces, Section.lineEnd, conditionSection,
        Block.branch_emit]
    | some clause =>
      obtain ⟨elseToken, otherwise⟩ := clause
      simp [emit, hclauses, Compound.pieces, Section.pieces, Section.lineEnd, conditionSection,
        Block.branch_emit, Else.toSection]
  | forLoop first counter toToken limit step? body endToken =>
    obtain rfl := Option.some.inj h
    rcases step? with _ | ⟨stepToken, amount⟩ <;>
      simp [emit, Compound.pieces, Section.pieces, Section.lineEnd, Block.branch_emit]
  | forEach first item inToken target body endToken =>
    obtain rfl := Option.some.inj h
    simp [emit, Compound.pieces, Section.pieces, Section.lineEnd, Block.branch_emit]
  | whileLoop first condition body endToken =>
    obtain rfl := Option.some.inj h
    simp [emit, Compound.pieces, Section.pieces, Section.lineEnd, newLine]
  | tryCatch first body catchToken exceptionName handler endToken =>
    obtain rfl := Option.some.inj h
    simp [emit, Compound.pieces, Section.pieces, Section.lineEnd, newLine]
  | function name f =>
    obtain rfl := Option.some.inj h
    exact f.emit_eq_compound scope _
  | _ => cases h

theorem Site.emit_eq_compound {site : Site} {c : Compound} (h : site.compound? = some c) :
    site.emit = c.pieces site.scope := by
  obtain ⟨scope, ownerLine?, tree⟩ := site
  cases tree with
  | statement s => exact Statement.emit_eq_compound h
  | expression e =>
    cases e with
    | function f =>
      cases h
      exact f.emit_eq_compound scope none
    | _ => cases h
  | _ => cases h

end Downlevel
