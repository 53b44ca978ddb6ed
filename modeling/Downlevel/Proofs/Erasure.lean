import Mathlib.Tactic
import Downlevel.State
import Downlevel.Text.Blank
import Downlevel.Tree.Erasure

/-!
# Comments never change the code

Comments have a say in layout: where a line breaks, and whether a block is empty. None of it is
code. Here everything is taken away from pieces but their *words*, the texts and names of helpers
that are neither in a comment nor blank. The words of a sequence are those of its items, put
together in a way that looks at code only: a comma stands between two values, whatever comments are
between them (`Layout.words_array`). So a tree has the same words without its comments
(`Tree.words_erase`). What decides how operands are lowered does not see comments either
(`Expression.containsMutating_erase`, `Scope.captured_erase`).

Main statement: the code and the helpers of a tree are those of the tree without its comments
(`State.emit_erase`).
-/

namespace Downlevel

/-! ## What is evaluated -/

namespace Expression

@[simp] theorem isComment_erase (e : Expression) : e.erase.isComment = e.isComment := by
  cases e <;> rfl

@[simp] theorem isMutating_erase (e : Expression) : e.erase.isMutating = e.isMutating := by
  cases e <;> rfl

@[simp] theorem identifier?_erase (e : Expression) : e.erase.identifier? = e.identifier? := by
  cases e <;> rfl

end Expression

mutual

/-- The walk through the erased expression reaches what the other walk reaches, erased. -/
theorem Expression.reachable_erase :
    (e : Expression) → e.erase.reachable = e.reachable.map Expression.erase
  | .binary left operator right | .coalesce left operator right => by
    simp [Expression.erase, Expression.reachable, left.reachable_erase, right.reachable_erase]
  | .unary operator operand => by
    simp [Expression.erase, Expression.reachable, operand.reachable_erase]
  | .call callee opening arguments closing => by
    simp [Expression.erase, Expression.reachable, callee.reachable_erase,
      reachableArguments_erase arguments]
  | .callfunc receiver operator method opening arguments closing => by
    simp [Expression.erase, Expression.reachable, receiver.reachable_erase,
      reachableArguments_erase arguments]
  | .function literal | .identifier name | .literal token | .comment c => by
    simp [Expression.erase, Expression.reachable]
  | .member object dot name | .xmlAttribute object sign name => by
    simp [Expression.erase, Expression.reachable, object.reachable_erase]
  | .index object opening key closing => by
    simp [Expression.erase, Expression.reachable, object.reachable_erase, key.reachable_erase]
  | .group opening inner closing => by
    simp [Expression.erase, Expression.reachable, inner.reachable_erase]
  | .array opening elements closing => by
    simp [Expression.erase, Expression.reachable, reachableElements_erase elements]
  | .record opening members closing => by
    simp [Expression.erase, Expression.reachable, reachableMembers_erase members]
  | .construct keyword className opening arguments closing => by
    simp [Expression.erase, Expression.reachable, reachableArguments_erase arguments]
  | .conditional test question consequent colon alternate => by
    simp [Expression.erase, Expression.reachable, test.reachable_erase, consequent.reachable_erase,
      alternate.reachable_erase]
  | .template opening parts closing => by
    simp [Expression.erase, Expression.reachable, reachableParts_erase parts]

theorem reachableArguments_erase : (arguments : List Expression) →
    reachableArguments (eraseArguments arguments) =
      (reachableArguments arguments).map Expression.erase
  | [] => rfl
  | argument :: rest => by
    simp [eraseArguments, reachableArguments, argument.reachable_erase,
      reachableArguments_erase rest]

theorem reachableElements_erase : (elements : List Expression) →
    reachableElements (eraseElements elements) =
      (reachableElements elements).map Expression.erase
  | [] => rfl
  | element :: rest => by
    rw [eraseElements, reachableElements]
    split
    next => simpa using reachableElements_erase rest
    next hcomment =>
      simp [reachableElements, hcomment, element.reachable_erase, reachableElements_erase rest]

theorem reachableMembers_erase : (members : List Member) →
    reachableMembers (eraseMembers members) = (reachableMembers members).map Expression.erase
  | [] => rfl
  | .pair key colon value :: rest => by
    simp [eraseMembers, reachableMembers, value.reachable_erase, reachableMembers_erase rest]
  | .comment c :: rest => by
    simpa [eraseMembers, reachableMembers] using reachableMembers_erase rest

theorem reachableParts_erase : (parts : List TemplatePart) →
    reachableParts (eraseParts parts) = (reachableParts parts).map Expression.erase
  | [] => rfl
  | .text token :: rest => by
    simpa [eraseParts, reachableParts] using reachableParts_erase rest
  | .expression e :: rest => by
    simp [eraseParts, reachableParts, e.reachable_erase, reachableParts_erase rest]

end

namespace Expression

@[simp] theorem containsMutating_erase (e : Expression) :
    e.erase.containsMutating = e.containsMutating := by
  rw [containsMutating, containsMutating, reachable_erase, List.any_map]
  exact List.any_congr rfl fun inner => inner.isMutating_erase

theorem names_erase (e : Expression) : e.erase.names = e.names := by
  rw [names, names, reachable_erase, List.filterMap_map]
  exact List.filterMap_congr fun inner _ => inner.identifier?_erase

theorem ofExpression?_erase (e : Expression) :
    DottedName.ofExpression? e.erase = DottedName.ofExpression? e := by
  cases e with
  | member object dot name =>
    rw [erase, DottedName.ofExpression?, DottedName.ofExpression?, ofExpression?_erase object]
  | _ => rfl

end Expression

/-- Erased operands capture the same variables. -/
theorem Scope.captured_erase (scope : Scope) (operands : List Expression) :
    scope.captured (operands.map Expression.erase) = scope.captured operands := by
  simp [captured, Capture.ofOperands, List.flatMap_map, Expression.names_erase]

/-! ## Words -/

namespace Piece

/-- What the piece writes, if it is neither a comment nor layout. -/
def word? : Piece → Option (String ⊕ Helper)
  | written _ s => some (.inl s)
  | commentedOut _ s => some (.inl s)
  | helper _ h => some (.inr h)
  | text s => if s.toList.all Text.isBlank then none else some (.inl s)
  | comment .. | lineBreak | emptyBlockBreak | indent _ => none

/-- What the pieces write apart from comments and layout. -/
def words (pieces : List Piece) : List (String ⊕ Helper) := pieces.filterMap word?

theorem word?_shift (levels : Nat) (piece : Piece) : (piece.shift levels).word? = piece.word? := by
  cases piece <;> rfl

@[simp] theorem word?_space : (text " ").word? = none := by
  decide

@[simp] theorem word?_helper (position : Position) (h : Helper) :
    (helper position h).word? = some (.inr h) := rfl

@[simp] theorem word?_comment (position : Position) (text : String) :
    (comment position text).word? = none := rfl

@[simp] theorem word?_lineBreak : lineBreak.word? = none := rfl

@[simp] theorem word?_emptyBlockBreak : emptyBlockBreak.word? = none := rfl

@[simp] theorem word?_indent (levels : Nat) : (indent levels).word? = none := rfl

@[simp] theorem words_nil : words [] = [] := rfl

@[simp] theorem words_cons (piece : Piece) (rest : List Piece) :
    words (piece :: rest) = piece.word?.toList ++ words rest := by
  cases h : piece.word? <;> simp [words, h]

@[simp] theorem words_append (pieces more : List Piece) :
    words (pieces ++ more) = words pieces ++ words more :=
  List.filterMap_append

@[simp] theorem words_nested (pieces : List Piece) : words (nested pieces) = words pieces := by
  rw [words, nested, List.filterMap_map]
  exact List.filterMap_congr fun piece _ => word?_shift 1 piece

@[simp] theorem words_newLine : words newLine = [] := rfl

theorem words_separated (separator : String) (lists : List (List Piece)) :
    words (separated separator lists) =
      (text separator).word?.toList.intercalate (lists.map words) := by
  induction lists using separated.induct with
  | case1 => rfl
  | case2 pieces => simp [separated]
  | case3 pieces next rest ih =>
    rw [separated, words_append, words_cons, ih]
    simp

end Piece

/-! ## Sequences -/

namespace Item

/-- What each item writes that is no comment. -/
def codeWords (items : List Item) : List (List (String ⊕ Helper)) :=
  (items.filter (!·.isComment)).map fun item => Piece.words item.pieces

/-- The comments among the items write comments. -/
def CommentsWordless (items : List Item) : Prop :=
  ∀ item ∈ items, item.isComment = true → Piece.words item.pieces = []

variable {item : Item} {rest : List Item}

theorem codeWords_cons_comment (h : item.isComment = true) :
    codeWords (item :: rest) = codeWords rest := by
  simp [codeWords, h]

theorem codeWords_cons_code (h : item.isComment = false) :
    codeWords (item :: rest) = Piece.words item.pieces :: codeWords rest := by
  simp [codeWords, h]

theorem any_code_iff (items : List Item) :
    items.any (!·.isComment) = !(codeWords items).isEmpty := by
  induction items with
  | nil => rfl
  | cons item rest ih =>
    cases h : item.isComment with
    | true => rw [List.any_cons, ih, codeWords_cons_comment h, h, Bool.not_true, Bool.false_or]
    | false => rw [List.any_cons, codeWords_cons_code h, h]; rfl

end Item

namespace Layout

open Item (codeWords CommentsWordless)
open Piece (words)

variable {items : List Item}

/-- A sequence without commas writes the words of its items, one after the other. -/
theorem flatten_codeWords_cons {item : Item} {rest : List Item}
    (h : CommentsWordless (item :: rest)) :
    (codeWords (item :: rest)).flatten = words item.pieces ++ (codeWords rest).flatten := by
  cases hcomment : item.isComment with
  | true =>
    rw [Item.codeWords_cons_comment hcomment, h item List.mem_cons_self hcomment, List.nil_append]
  | false => rw [Item.codeWords_cons_code hcomment, List.flatten_cons]

theorem words_blockItems (ownerLine? : Option Nat) (previous? : Option Range)
    (h : CommentsWordless items) :
    words (blockItems ownerLine? previous? items) = (codeWords items).flatten := by
  induction items generalizing previous? with
  | nil => rfl
  | cons item rest ih =>
    obtain ⟨-, hrest⟩ := List.forall_mem_cons.mp h
    rw [flatten_codeWords_cons h, ← ih (some item.range) hrest, blockItems]
    split <;> simp

theorem words_block (ownerLine? : Option Nat) (h : CommentsWordless items) :
    words (block ownerLine? items) = (codeWords items).flatten := by
  rw [block, Piece.words_nested, words_blockItems ownerLine? none h]

theorem words_separator (previous item : Item) (next? : Option Item) :
    words (separator previous item next?) = [] := by
  rw [separator]
  split
  · simp
  · split <;> rfl

theorem words_bodyItems (previous : Item) (h : CommentsWordless items) :
    words (bodyItems previous items) = (codeWords items).flatten := by
  induction items generalizing previous with
  | nil => rfl
  | cons item rest ih =>
    obtain ⟨-, hrest⟩ := List.forall_mem_cons.mp h
    rw [flatten_codeWords_cons h, ← ih item hrest, bodyItems]
    simp [words_separator]

theorem words_body (h : CommentsWordless items) :
    words (body items) = (codeWords items).flatten := by
  cases items with
  | nil => rfl
  | cons item rest =>
    obtain ⟨-, hrest⟩ := List.forall_mem_cons.mp h
    rw [flatten_codeWords_cons h, body, Piece.words_append, words_bodyItems item hrest]

/-- The words between two values of a bracketed literal. -/
def commaWords : List (String ⊕ Helper) := words [.text ","]

/-- A value is followed by a comma if another value follows. -/
theorem intercalate_codeWords_cons {item : Item} {rest : List Item}
    (h : CommentsWordless (item :: rest)) :
    commaWords.intercalate (codeWords (item :: rest)) =
      words item.pieces ++ words (comma item rest) ++ commaWords.intercalate (codeWords rest) := by
  rw [comma, Item.any_code_iff]
  cases hcomment : item.isComment with
  | true =>
    rw [Item.codeWords_cons_comment hcomment, h item List.mem_cons_self hcomment]
    rfl
  | false =>
    rw [Item.codeWords_cons_code hcomment]
    cases codeWords rest with
    | nil => simp
    | cons value values => simp [commaWords]

theorem words_arrayItems (previous : Range) (h : CommentsWordless items) :
    words (arrayItems previous items) = commaWords.intercalate (codeWords items) := by
  induction items generalizing previous with
  | nil => rfl
  | cons item rest ih =>
    obtain ⟨-, hrest⟩ := List.forall_mem_cons.mp h
    rw [intercalate_codeWords_cons h, ← ih item.range hrest, arrayItems]
    split <;> simp

theorem words_recordItems (previous : Range) (h : CommentsWordless items) :
    words (recordItems previous items) = commaWords.intercalate (codeWords items) := by
  induction items generalizing previous with
  | nil => rfl
  | cons item rest ih =>
    obtain ⟨-, hrest⟩ := List.forall_mem_cons.mp h
    rw [intercalate_codeWords_cons h, ← ih item.range hrest, recordItems]
    split <;> split <;> simp

theorem words_array (opening closing : Token) (h : CommentsWordless items) :
    words (array opening items closing) =
      words [opening.piece] ++ commaWords.intercalate (codeWords items) ++
        words [closing.piece] := by
  have hbreak : words (if items.isEmpty then [] else Piece.newLine) = [] := by
    split <;> rfl
  rw [array, ← words_arrayItems opening.range h, Piece.words_append, Piece.words_append, hbreak]
  simp

theorem words_record (opening closing : Token) (h : CommentsWordless items) :
    words (record opening items closing) =
      words [opening.piece] ++ commaWords.intercalate (codeWords items) ++
        words [closing.piece] := by
  have hbreak : words (if items.isEmpty || items.head?.any (joins opening.range) then []
      else [.lineBreak]) = [] := by
    split <;> rfl
  have hindent : words (if items.isEmpty then [] else [.indent 0]) = [] := by
    split <;> rfl
  rw [record, ← words_recordItems opening.range h, Piece.words_append, Piece.words_append,
    Piece.words_append, Piece.words_cons, hbreak, hindent]
  simp

theorem words_branch (block : List Piece) : words (branch block) = words block := by
  rw [branch, Piece.words_append]
  split <;> simp

/-- The words of a concatenation are those of its operands and what is between them. -/
theorem words_concatenation_congr (opening : Token) {operands others : List (List Piece)}
    (h : operands.map words = others.map words) :
    words (concatenation opening operands) = words (concatenation opening others) := by
  match operands, others, h with
  | [], [], _ => rfl
  | [_], [_], h => simpa [concatenation] using h
  | _ :: _ :: _, _ :: _ :: _, h => simp [concatenation, Piece.words_separated, h]
  | [_], _ :: _ :: _, h => simp at h
  | _ :: _ :: _, [_], h => simp at h

end Layout

/-! ## Trees -/

open Piece (words)
open Item (codeWords CommentsWordless)

theorem Comment.words_pieces (c : Comment) : words c.pieces = [] := by
  have hothers (tokens : List Token) : words
      (tokens.flatMap fun token => Piece.newLine ++ [.comment token.start token.text]) = [] := by
    induction tokens with
    | nil => rfl
    | cons token rest ih => simp [ih]
  simp [pieces, hothers]

theorem commentsWordless_elementItems (scope : Scope) (elements : List Expression) :
    CommentsWordless (elementItems scope elements) := by
  induction elements with
  | nil => exact List.forall_mem_nil _
  | cons element rest ih =>
    refine List.forall_mem_cons.mpr ⟨?_, ih⟩
    cases element with
    | comment c => exact fun _ => c.words_pieces
    | _ => nofun

theorem commentsWordless_memberItems (scope : Scope) (members : List Member) :
    CommentsWordless (memberItems scope members) := by
  induction members with
  | nil => exact List.forall_mem_nil _
  | cons member rest ih =>
    cases member with
    | pair => exact List.forall_mem_cons.mpr ⟨nofun, ih⟩
    | comment c => exact List.forall_mem_cons.mpr ⟨fun _ => c.words_pieces, ih⟩

theorem commentsWordless_statementItems (scope : Scope) (statements : List Statement) :
    CommentsWordless (statementItems scope statements) := by
  induction statements with
  | nil => exact List.forall_mem_nil _
  | cons statement rest ih =>
    refine List.forall_mem_cons.mpr ⟨?_, ih⟩
    cases statement with
    | comment c => exact fun _ => c.words_pieces
    | _ => nofun

theorem isEmpty_eraseArguments (arguments : List Expression) :
    (eraseArguments arguments).isEmpty = arguments.isEmpty := by
  cases arguments <;> rfl

theorem Statement.isComment_item (s : Statement) (pieces : List Piece) :
    (Item.mk s.range s.role pieces).isComment = s.isComment := by
  cases s <;> rfl

/-- The line on which the owner of a block opens does not matter to words. -/
@[simp] theorem Block.words_emit_some (scope : Scope) (ownerLine : Nat) (b : Block) :
    words (b.emit scope (some ownerLine)) = words (b.emit scope none) := by
  obtain ⟨start, statements⟩ := b
  have hitems := commentsWordless_statementItems scope statements
  rw [emit, emit, Layout.words_block _ hitems, Layout.words_block _ hitems]

theorem Statement.isComment_erase (s : Statement) : s.erase.isComment = s.isComment := by
  cases s with
  | branch _ _ _ _ _ else? => rcases else? with _ | ⟨_, _⟩ <;> rfl
  | forLoop _ _ _ _ step? => rcases step? with _ | ⟨_, _⟩ <;> rfl
  | returning _ value? => cases value? <;> rfl
  | _ => rfl

theorem Capture.words_deferred_congr (captured : List Token) {operand other : List Piece}
    (h : words operand = words other) :
    words (deferred captured operand) = words (deferred captured other) := by
  simp [deferred, h]

namespace Expression

variable {scope : Scope} {test consequent alternate object left right : Expression}

theorem words_erase_member (dot name : Token)
    (h : words (object.erase.emit scope) = words (object.emit scope)) :
    words ((Expression.member object dot name).erase.emit scope) =
      words ((Expression.member object dot name).emit scope) := by
  rw [erase, emit, emit, ofExpression?_erase]
  cases (DottedName.ofExpression? object).map (·.extend ⟨dot, name⟩) with
  | none => simp [h]
  | some chain =>
    show words (if scope.resolver.startsWithNamespace chain.parts then _ else _) =
      words (if scope.resolver.startsWithNamespace chain.parts then _ else _)
    split
    · rfl
    · simp [h]

theorem words_erase_conditional (question colon : Token)
    (htest : words (test.erase.emit scope) = words (test.emit scope))
    (hconsequent : words (consequent.erase.emit scope) = words (consequent.emit scope))
    (halternate : words (alternate.erase.emit scope) = words (alternate.emit scope)) :
    words ((conditional test question consequent colon alternate).erase.emit scope) =
      words ((conditional test question consequent colon alternate).emit scope) := by
  have hcaptured := scope.captured_erase [consequent, alternate]
  rw [erase, emit, emit, containsMutating_erase, containsMutating_erase]
  split
  · rw [List.map_cons, List.map_cons, List.map_nil] at hcaptured
    have hfirst := Capture.words_deferred_congr (scope.captured [consequent, alternate]) hconsequent
    have hsecond := Capture.words_deferred_congr (scope.captured [consequent, alternate]) halternate
    simp [hcaptured, htest, hfirst, hsecond]
  · simp [htest, hconsequent, halternate]

theorem words_erase_coalesce (operator : Token)
    (hleft : words (left.erase.emit scope) = words (left.emit scope))
    (hright : words (right.erase.emit scope) = words (right.emit scope)) :
    words ((coalesce left operator right).erase.emit scope) =
      words ((coalesce left operator right).emit scope) := by
  have hcaptured := scope.captured_erase [right]
  rw [erase, emit, emit, containsMutating_erase, containsMutating_erase]
  split
  · rw [List.map_cons, List.map_nil] at hcaptured
    have hdeferred := Capture.words_deferred_congr (scope.captured [right]) hright
    simp [hcaptured, hleft, hdeferred]
  · simp [hleft, hright]

end Expression

mutual

/-- The erased expression writes the same words. -/
theorem Expression.words_erase (scope : Scope) :
    (e : Expression) → words (e.erase.emit scope) = words (e.emit scope)
  | .binary left operator right => by
    simp [Expression.erase, Expression.emit, left.words_erase scope, right.words_erase scope]
  | .unary operator operand => by
    simp [Expression.erase, Expression.emit, operand.words_erase scope]
  | .call callee opening arguments closing => by
    simp [Expression.erase, Expression.emit, Piece.words_separated, callee.words_erase scope,
      words_emitArguments scope arguments]
  | .callfunc receiver operator method opening arguments closing => by
    rw [Expression.erase, Expression.emit, Expression.emit, isEmpty_eraseArguments]
    split <;>
      simp [Piece.words_separated, receiver.words_erase scope, words_emitArguments scope arguments]
  | .function f => f.words_erase scope none
  | .member object dot name => Expression.words_erase_member dot name (object.words_erase scope)
  | .identifier name => rfl
  | .index object opening key closing => by
    simp [Expression.erase, Expression.emit, object.words_erase scope, key.words_erase scope]
  | .xmlAttribute object sign name => by
    simp [Expression.erase, Expression.emit, object.words_erase scope]
  | .group opening inner closing => by
    simp [Expression.erase, Expression.emit, inner.words_erase scope]
  | .literal token => rfl
  | .array opening elements closing => by
    have hitems := commentsWordless_elementItems scope
    rw [Expression.erase, Expression.emit, Expression.emit,
      Layout.words_array opening closing (hitems _), Layout.words_array opening closing (hitems _),
      codeWords_elementItems scope elements]
  | .record opening members closing => by
    have hitems := commentsWordless_memberItems scope
    rw [Expression.erase, Expression.emit, Expression.emit,
      Layout.words_record opening closing (hitems _),
      Layout.words_record opening closing (hitems _), codeWords_memberItems scope members]
  | .construct keyword className opening arguments closing => by
    simp [Expression.erase, Expression.emit, Piece.words_separated,
      words_emitArguments scope arguments]
  | .conditional test question consequent colon alternate =>
    Expression.words_erase_conditional question colon (test.words_erase scope)
      (consequent.words_erase scope) (alternate.words_erase scope)
  | .coalesce left operator right =>
    Expression.words_erase_coalesce operator (left.words_erase scope) (right.words_erase scope)
  | .template opening parts closing =>
    Layout.words_concatenation_congr opening (words_templateOperands scope parts)
  | .comment c => rfl

theorem words_emitArguments (scope : Scope) : (arguments : List Expression) →
    (emitArguments scope (eraseArguments arguments)).map words =
      (emitArguments scope arguments).map words
  | [] => rfl
  | argument :: rest => by
    simp [eraseArguments, emitArguments, argument.words_erase scope, words_emitArguments scope rest]

theorem codeWords_elementItems (scope : Scope) : (elements : List Expression) →
    codeWords (elementItems scope (eraseElements elements)) =
      codeWords (elementItems scope elements)
  | [] => rfl
  | element :: rest => by
    cases hcomment : element.isComment with
    | true =>
      rw [eraseElements, if_pos hcomment, codeWords_elementItems scope rest, elementItems,
        Item.codeWords_cons_comment (by simp [Item.isComment, hcomment])]
    | false =>
      have herased : element.erase.isComment = false := by simpa using hcomment
      rw [eraseElements, if_neg (by simp [hcomment]), elementItems, elementItems,
        Item.codeWords_cons_code (by simp [Item.isComment, herased]),
        Item.codeWords_cons_code (by simp [Item.isComment, hcomment]),
        element.words_erase scope, codeWords_elementItems scope rest]

theorem codeWords_memberItems (scope : Scope) : (members : List Member) →
    codeWords (memberItems scope (eraseMembers members)) = codeWords (memberItems scope members)
  | [] => rfl
  | .pair key colon value :: rest => by
    rw [eraseMembers, memberItems, memberItems, Item.codeWords_cons_code rfl,
      Item.codeWords_cons_code rfl, codeWords_memberItems scope rest]
    simp [value.words_erase scope]
  | .comment c :: rest => by
    rw [eraseMembers, memberItems, Item.codeWords_cons_comment rfl,
      codeWords_memberItems scope rest]

theorem words_templateOperands (scope : Scope) : (parts : List TemplatePart) →
    (templateOperands scope (eraseParts parts)).map words =
      (templateOperands scope parts).map words
  | [] => rfl
  | .text token :: rest => by
    simp [eraseParts, templateOperands, words_templateOperands scope rest]
  | .expression e :: rest => by
    simp [eraseParts, templateOperands, e.words_erase scope, words_templateOperands scope rest]

theorem words_emitParameters (scope : Scope) : (parameters : List Parameter) →
    (emitParameters scope (eraseParameters parameters)).map words =
      (emitParameters scope parameters).map words
  | [] => rfl
  | ⟨name, none, type?⟩ :: rest => by
    simp [eraseParameters, emitParameters, words_emitParameters scope rest]
  | ⟨name, some value, type?⟩ :: rest => by
    simp [eraseParameters, emitParameters, value.words_erase scope, words_emitParameters scope rest]

theorem FunctionLiteral.words_erase (scope : Scope) (name? : Option Piece) :
    (f : FunctionLiteral) → words (f.erase.emit scope name?) = words (f.emit scope name?)
  | ⟨keyword, opening, parameters, closing, returnType?, body, endToken⟩ => by
    have hparameters := words_emitParameters scope parameters
    cases name? <;>
      simp [FunctionLiteral.erase, FunctionLiteral.emit, Piece.words_separated, hparameters,
        body.words_erase scope]

theorem Block.words_erase (scope : Scope) :
    (b : Block) → words (b.erase.emit scope none) = words (b.emit scope none)
  | ⟨start, statements⟩ => by
    have hitems := commentsWordless_statementItems scope
    rw [Block.erase, Block.emit, Block.emit, Layout.words_block _ (hitems _),
      Layout.words_block _ (hitems _), codeWords_statementItems scope statements]

theorem codeWords_statementItems (scope : Scope) : (statements : List Statement) →
    codeWords (statementItems scope (eraseStatements statements)) =
      codeWords (statementItems scope statements)
  | [] => rfl
  | statement :: rest => by
    cases hcomment : statement.isComment with
    | true =>
      rw [eraseStatements, if_pos hcomment, codeWords_statementItems scope rest, statementItems,
        Item.codeWords_cons_comment ((statement.isComment_item _).trans hcomment)]
    | false =>
      have herased : statement.erase.isComment = false := statement.isComment_erase.trans hcomment
      rw [eraseStatements, if_neg (by simp [hcomment]), statementItems, statementItems,
        Item.codeWords_cons_code ((statement.erase.isComment_item _).trans herased),
        Item.codeWords_cons_code ((statement.isComment_item _).trans hcomment),
        statement.words_erase scope, codeWords_statementItems scope rest]

theorem words_emitElseIfs (scope : Scope) : (clauses : List ElseIf) →
    words (emitElseIfs scope (eraseElseIfs clauses)) = words (emitElseIfs scope clauses)
  | [] => rfl
  | ⟨keyword, condition, then?, body⟩ :: rest => by
    simp [eraseElseIfs, emitElseIfs, Layout.words_branch, condition.words_erase scope,
      body.words_erase scope, words_emitElseIfs scope rest]

theorem words_emitItems (scope : Scope) : (items : List PrintItem) →
    (emitItems scope (eraseItems items)).map words = (emitItems scope items).map words
  | [] => rfl
  | .expression e :: rest => by
    simp [eraseItems, emitItems, e.words_erase scope, words_emitItems scope rest]
  | .separator token :: rest => by
    simpa [eraseItems, emitItems] using words_emitItems scope rest

theorem Assignment.words_erase (scope : Scope) :
    (a : Assignment) → words (a.erase.emit scope) = words (a.emit scope)
  | ⟨name, operator, value⟩ => by
    simp [Assignment.erase, Assignment.emit, value.words_erase scope]

theorem Statement.words_erase (scope : Scope) :
    (s : Statement) → words (s.erase.emit scope) = words (s.emit scope)
  | .assignment a => a.words_erase scope
  | .expression e => e.words_erase scope
  | .branch keyword condition then? body elseIfs none end? => by
    simp [Statement.erase, Statement.emit, Layout.words_branch, condition.words_erase scope,
      body.words_erase scope, words_emitElseIfs scope elseIfs]
  | .branch keyword condition then? body elseIfs (some ⟨elseToken, otherwise⟩) end? => by
    simp [Statement.erase, Statement.emit, Layout.words_branch, condition.words_erase scope,
      body.words_erase scope, words_emitElseIfs scope elseIfs, otherwise.words_erase scope]
  | .forLoop keyword counter toToken limit none body endToken => by
    simp [Statement.erase, Statement.emit, Layout.words_branch, counter.words_erase scope,
      limit.words_erase scope, body.words_erase scope]
  | .forLoop keyword counter toToken limit (some ⟨stepToken, amount⟩) body endToken => by
    simp [Statement.erase, Statement.emit, Layout.words_branch, counter.words_erase scope,
      limit.words_erase scope, body.words_erase scope, amount.words_erase scope]
  | .forEach keyword item inToken target body endToken => by
    simp [Statement.erase, Statement.emit, Layout.words_branch, target.words_erase scope,
      body.words_erase scope]
  | .whileLoop keyword condition body endToken => by
    simp [Statement.erase, Statement.emit, condition.words_erase scope, body.words_erase scope]
  | .memberSet object dot name value => by
    simp [Statement.erase, Statement.emit, object.words_erase scope, value.words_erase scope]
  | .indexSet object opening key closing value => by
    simp [Statement.erase, Statement.emit, object.words_erase scope, key.words_erase scope,
      value.words_erase scope]
  | .increment value operator => by
    simp [Statement.erase, Statement.emit, value.words_erase scope]
  | .print keyword items => by
    have hitems := words_emitItems scope items
    have hempty :
        (emitItems scope (eraseItems items)).isEmpty = (emitItems scope items).isEmpty := by
      rw [← List.isEmpty_map, hitems, List.isEmpty_map]
    rw [Statement.erase, Statement.emit, Statement.emit, hempty]
    split
    · rfl
    · simp [Piece.words_separated, hitems]
  | .returning keyword none => rfl
  | .returning keyword (some value) => by
    simp [Statement.erase, Statement.emit, value.words_erase scope]
  | .function name f => f.words_erase scope _
  | .namespaceBlock keyword name body endToken => by
    have hitems := commentsWordless_statementItems (scope.inside name)
    rw [Statement.erase, Statement.emit, Statement.emit, Layout.words_body (hitems _),
      Layout.words_body (hitems _), codeWords_statementItems (scope.inside name) body]
  | .tryCatch keyword body catchToken exceptionName handler endToken => by
    simp [Statement.erase, Statement.emit, body.words_erase scope, handler.words_erase scope]
  | .throwing keyword value => by
    simp [Statement.erase, Statement.emit, value.words_erase scope]
  | .comment c | .goto keyword label | .label name colon | .keyword word token
  | .library keyword path | .importFile keyword path => rfl

end

namespace Tree

/-- The tree without the comments in it. -/
def erase : Tree → Tree
  | body b => .body (eraseStatements b)
  | block b => .block b.erase
  | statement s => .statement s.erase
  | expression e => .expression e.erase

theorem words_erase (scope : Scope) (ownerLine? : Option Nat) (tree : Tree) :
    words (tree.erase.emit scope ownerLine?) = words (tree.emit scope ownerLine?) := by
  cases tree with
  | body statements =>
    have hitems := commentsWordless_statementItems scope
    show words (Layout.body _) = words (Layout.body _)
    rw [Layout.words_body (hitems _), Layout.words_body (hitems _),
      codeWords_statementItems scope statements]
  | block b =>
    show words (b.erase.emit scope ownerLine?) = words (b.emit scope ownerLine?)
    cases ownerLine? <;> simp [b.words_erase scope]
  | statement s => exact s.words_erase scope
  | expression e => exact e.words_erase scope

end Tree

/-! ## Fragments -/

/-- The fragment is blank text without a source position. -/
def Fragment.isLayout : Fragment → Bool
  | plain text => text.toList.all Text.isBlank
  | mapped .. => false

/-- The piece is a line of a comment. -/
def Piece.isComment : Piece → Bool
  | comment .. => true
  | _ => false

namespace State

variable (s : State)

/-- The fragments of the pieces; each is marked if it belongs to a comment. -/
def marked (pieces : List Piece) : List (Bool × Fragment) :=
  pieces.flatMap fun piece => (s.render [piece]).map (piece.isComment, ·)

/-- The texts of the fragments that belong to no comment and are no layout. -/
def codeTexts (pieces : List Piece) : List String :=
  ((s.marked pieces).filter fun fragment => !fragment.1 && !fragment.2.isLayout).map (·.2.text)

theorem map_snd_marked (pieces : List Piece) :
    (s.marked pieces).map Prod.snd = s.render pieces := by
  simp [marked, render, Piece.renderAll, List.map_flatMap, Function.comp_def]

theorem codeTexts_cons (piece : Piece) (rest : List Piece) :
    s.codeTexts (piece :: rest) = s.codeTexts [piece] ++ s.codeTexts rest := by
  simp [codeTexts, marked]

/-- The text of a word. -/
def wordText : String ⊕ Helper → String
  | .inl text => text
  | .inr h => s.helperName h

variable {s}

theorem isBlank_indentation (h : ∀ c ∈ s.options.indentUnit.toList, Text.isBlank c = true)
    (levels : Nat) :
    (Piece.indentation s.options.indentUnit levels).toList.all Text.isBlank = true := by
  rw [Piece.indentation, String.toList_join, List.all_eq_true]
  intro c hc
  obtain ⟨unit, hunit, hc⟩ := List.mem_flatMap.mp hc
  obtain rfl := List.eq_of_mem_replicate hunit
  exact h c hc

theorem isBlank_newLine (newLine : NewLine) : newLine.text.toList.all Text.isBlank = true := by
  cases newLine <;> decide

theorem codeTexts_singleton (h : ∀ c ∈ s.options.indentUnit.toList, Text.isBlank c = true)
    (piece : Piece) : s.codeTexts [piece] = piece.word?.toList.map s.wordText := by
  have hone {f : Fragment} (hrender : s.render [piece] = [f]) : s.codeTexts [piece] =
      if !piece.isComment && !f.isLayout then [f.text] else [] := by
    rw [codeTexts, marked, List.flatMap_singleton, hrender]
    cases h : !piece.isComment && !f.isLayout <;> simp [h]
  cases piece with
  | written | commentedOut | helper | comment => exact hone rfl
  | text t =>
    rw [hone rfl, Piece.word?]
    cases hblank : t.toList.all Text.isBlank with
    | true => simp [Fragment.isLayout, hblank]
    | false =>
      simp [Piece.isComment, Fragment.isLayout, hblank]
      rfl
  | lineBreak =>
    rw [hone rfl]
    simp [Fragment.isLayout, isBlank_newLine]
  | emptyBlockBreak =>
    have hrender : s.render [.emptyBlockBreak] =
        if s.options.newlineBeforeEmptyBlockEnd then [.plain s.options.newLine.text] else [] :=
      List.append_nil _
    split at hrender
    · rw [hone hrender]
      simp [Fragment.isLayout, isBlank_newLine]
    · rw [codeTexts, marked, List.flatMap_singleton, hrender]
      rfl
  | indent levels =>
    rw [hone rfl]
    simp [Fragment.isLayout, isBlank_indentation h]

/-- What is left of the fragments are the texts of the words. -/
theorem codeTexts_eq (h : ∀ c ∈ s.options.indentUnit.toList, Text.isBlank c = true)
    (pieces : List Piece) : s.codeTexts pieces = (Piece.words pieces).map s.wordText := by
  induction pieces with
  | nil => rfl
  | cons piece rest ih =>
    rw [codeTexts_cons, codeTexts_singleton h, ih, Piece.words_cons, List.map_append]

/-- The helpers that pieces name are among their words. -/
theorem helpers_eq (pieces : List Piece) :
    Piece.helpers pieces = (Piece.words pieces).filterMap Sum.getRight? := by
  rw [Piece.helpers, Piece.words, List.filterMap_filterMap]
  apply List.filterMap_congr
  intro piece _
  cases piece with
  | text t =>
    rw [Piece.word?]
    split <;> rfl
  | _ => rfl

/-- Without the comments in it a tree is emitted with the same code: from the fragments of both
trees, take away those of comments and the blank ones without a source position, and what is left
has the same texts. The helpers are the same, too. -/
theorem emit_erase (s : State) (tree : Tree)
    (h : ∀ c ∈ s.options.indentUnit.toList, Text.isBlank c = true) :
    (s.emit tree).1 = (s.marked (s.pieces tree)).map Prod.snd ∧
    (s.emit tree.erase).1 = (s.marked (s.pieces tree.erase)).map Prod.snd ∧
    s.codeTexts (s.pieces tree.erase) = s.codeTexts (s.pieces tree) ∧
    (s.emit tree.erase).2 = (s.emit tree).2 := by
  have hwords : Piece.words (s.pieces tree.erase) = Piece.words (s.pieces tree) :=
    tree.words_erase s.scope _
  refine ⟨(s.map_snd_marked _).symm, (s.map_snd_marked _).symm, ?_, ?_⟩
  · rw [codeTexts_eq h, codeTexts_eq h, hwords]
  · have hhelpers : Piece.helpers (s.pieces tree.erase) = Piece.helpers (s.pieces tree) := by
      rw [helpers_eq, helpers_eq, hwords]
    rw [emit, emit, hhelpers]

/-- A comment between the elements of an array, in a file that is indented by tabs. -/
theorem emit_erase_array :
    let s : State := ⟨{ indentUnit := "\t" }, .none, "", 0, [], {}⟩
    let token (text : String) : Token := { (default : Token) with text }
    let element (text : String) : Expression := .identifier (token text)
    let comment : Expression := .comment ⟨token "' c", [], .element⟩
    let array (elements : List Expression) : Tree :=
      .expression (.array (token "[") elements (token "]"))
    let commented := array [element "a", comment, element "b"]
    commented.erase = array [element "a", element "b"] ∧
      (∀ c ∈ s.options.indentUnit.toList, Text.isBlank c = true) ∧
      s.codeTexts (s.pieces commented) = s.codeTexts (s.pieces commented.erase) ∧
      s.codeTexts (s.pieces commented) = ["[", "a", ",", "b", "]"] := by
  intro s token element comment array commented
  have h : ∀ c ∈ s.options.indentUnit.toList, Text.isBlank c = true := by
    intro c hc
    obtain rfl : c = '\t' := by simpa [s] using hc
    rfl
  obtain ⟨-, -, htexts, -⟩ := emit_erase s commented h
  refine ⟨rfl, h, htexts.symm, ?_⟩
  rw [← htexts, codeTexts_eq h]
  decide

end State

end Downlevel
