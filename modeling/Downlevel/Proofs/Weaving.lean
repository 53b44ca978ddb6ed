import Mathlib.Tactic
import Downlevel.Proofs.Skeleton

/-!
# What is written is what the skeleton lists

Emission weaves a skeleton into text: `Woven i pieces slots j` says that `pieces` write the entries
of `slots` in order and each of them once, a part as a whole and moved down by some levels, and that
everything between them is text without a source position. On the way it keeps count of the
function literals that are put around deferred operands: `i` of them are open before the pieces and
`j` behind them, and each part lies inside as many as its entry says.

Main statement: whatever is emitted for a site weaves the skeleton of the site (`Site.woven`).
-/

namespace Downlevel

namespace Piece

/-- How the function literal around a deferred operand opens. -/
def opening : Piece := text "function(scope)"

/-- How it closes. -/
def closing : Piece := text "end function"

/-- Text without a source position that is no such function literal. -/
def isFiller : Piece → Bool
  | text s => s != "function(scope)" && s != "end function"
  | lineBreak => true
  | emptyBlockBreak => true
  | indent _ => true
  | _ => false

/-- The piece has a source position. -/
def isMapped : Piece → Bool
  | written .. => true
  | comment .. => true
  | commentedOut .. => true
  | helper .. => true
  | _ => false

theorem shift_of_isMapped {piece : Piece} (h : piece.isMapped = true) (levels : Nat) :
    piece.shift levels = piece := by
  cases piece with
  | indent n => cases h
  | _ => rfl

theorem isFiller_shift (piece : Piece) (levels : Nat) :
    (piece.shift levels).isFiller = piece.isFiller := by
  cases piece <;> rfl

theorem shift_zero (piece : Piece) : piece.shift 0 = piece := by
  cases piece <;> rfl

theorem map_shift_zero (pieces : List Piece) : pieces.map (shift 0) = pieces := by
  rw [List.map_congr_left fun piece _ => shift_zero piece, List.map_id']

theorem shift_shift (piece : Piece) (m n : Nat) :
    (piece.shift m).shift n = piece.shift (m + n) := by
  cases piece <;> simp [shift, Nat.add_assoc]

end Piece

open Piece (opening closing newLine nested separated)

/-- The pieces write the entries of the skeleton; `i` function literals of deferred operands are
open before them and `j` behind them. -/
inductive Woven : Nat → List Piece → List Slot → Nat → Prop
  | nil {k} : Woven k [] [] k
  | opening {i j pieces slots} : Woven (i + 1) pieces slots j →
      Woven i (opening :: pieces) slots j
  | closing {i j pieces slots} : Woven i pieces slots j →
      Woven (i + 1) (closing :: pieces) slots j
  | filler {i j piece pieces slots} : piece.isFiller = true → Woven i pieces slots j →
      Woven i (piece :: pieces) slots j
  | own {i j piece pieces slots} : piece.isMapped = true → Woven i pieces slots j →
      Woven i (piece :: pieces) (.own piece :: slots) j
  | part {i j pieces slots} (site : Site) (levels : Nat) : Woven i pieces slots j →
      Woven i (site.emit.map (Piece.shift levels) ++ pieces) (.part site i :: slots) j

/-- Each list of pieces writes its share of the skeleton. -/
inductive WovenAll : List (List Piece) → List Slot → Prop
  | nil : WovenAll [] []
  | cons {pieces slots rest more} : Woven 0 pieces slots 0 → WovenAll rest more →
      WovenAll (pieces :: rest) (slots ++ more)

namespace Woven

variable {i j k : Nat} {pieces more : List Piece} {slots others : List Slot}

/-! ### Composition -/

theorem append (h : Woven i pieces slots j) (hmore : Woven j more others k) :
    Woven i (pieces ++ more) (slots ++ others) k := by
  induction h with
  | nil => exact hmore
  | opening _ ih => exact .opening (ih hmore)
  | closing _ ih => exact .closing (ih hmore)
  | filler hpiece _ ih => exact .filler hpiece (ih hmore)
  | own hpiece _ ih => exact .own hpiece (ih hmore)
  | part site levels _ ih =>
    rw [List.append_assoc]
    exact .part site levels (ih hmore)

theorem nested (h : Woven i pieces slots j) : Woven i (Piece.nested pieces) slots j := by
  induction h with
  | nil => exact .nil
  | opening _ ih => exact .opening ih
  | closing _ ih => exact .closing ih
  | filler hpiece _ ih => exact .filler ((Piece.isFiller_shift _ 1).trans hpiece) ih
  | @own i j piece pieces slots hpiece _ ih =>
    -- only indentations move, and no entry is one
    rw [Piece.nested, List.map_cons, Piece.shift_of_isMapped hpiece]
    exact .own hpiece ih
  | part site levels _ ih =>
    rw [Piece.nested, List.map_append, List.map_map]
    have hshift : Piece.shift 1 ∘ Piece.shift levels = Piece.shift (levels + 1) :=
      funext fun piece => Piece.shift_shift piece levels 1
    rw [hshift]
    exact .part site (levels + 1) ih

/-- Behind fillers nothing has changed. -/
theorem fillers (hpieces : ∀ piece ∈ pieces, piece.isFiller = true) : Woven k pieces [] k := by
  induction pieces with
  | nil => exact .nil
  | cons piece rest ih =>
    obtain ⟨hpiece, hrest⟩ := List.forall_mem_cons.mp hpieces
    exact .filler hpiece (ih hrest)

/-! ### Single entries -/

theorem site (site : Site) : Woven k site.emit [.part site k] k := by
  have h := Woven.part site 0 (.nil (k := k))
  rwa [Piece.map_shift_zero, List.append_nil] at h

theorem token (t : Token) : Woven k [t.piece] [.token t] k := .own rfl .nil

theorem newLine : Woven k newLine [] k := .filler rfl (.filler rfl .nil)

theorem operand (scope : Scope) (e : Expression) :
    Woven 0 (e.emit scope) [.operand scope e] 0 :=
  Woven.site ⟨scope, none, .expression e⟩

theorem statement (scope : Scope) (s : Statement) :
    Woven 0 (s.emit scope) [.statement scope s] 0 :=
  Woven.site ⟨scope, none, .statement s⟩

theorem block (scope : Scope) (ownerLine : Nat) (b : Block) :
    Woven 0 (b.emit scope ownerLine) [.block scope ownerLine b] 0 :=
  Woven.site ⟨scope, some ownerLine, .block b⟩

end Woven

/-! ## Sequences -/

namespace WovenAll

variable {list : List (List Piece)} {items : List Item} {slots : List Slot}

theorem append {more : List (List Piece)} {others : List Slot} (h : WovenAll list slots)
    (hmore : WovenAll more others) : WovenAll (list ++ more) (slots ++ others) := by
  induction h with
  | nil => exact hmore
  | cons hpieces _ ih =>
    rw [List.append_assoc]
    exact .cons hpieces ih

theorem separated (separator : String) (h : WovenAll list slots)
    (hseparator : (Piece.text separator).isFiller = true) :
    Woven 0 (Piece.separated separator list) slots 0 := by
  induction h with
  | nil => exact .nil
  | @cons pieces slots rest more hpieces hrest ih =>
    -- a separator stands only where another list follows
    cases hrest with
    | nil => simpa [Piece.separated] using hpieces
    | cons _ _ => exact hpieces.append (.filler hseparator ih)

theorem blockItems (ownerLine? : Option Nat) (previous? : Option Range)
    (h : WovenAll (items.map Item.pieces) slots) :
    Woven 0 (Layout.blockItems ownerLine? previous? items) slots 0 := by
  induction items generalizing previous? slots with
  | nil =>
    cases h
    exact .nil
  | cons item rest ih =>
    cases h with
    | @cons _ first _ more hitem hrest =>
      have hstart : Woven 0 (if item.isComment && (previous?.any item.range.touches ||
          ownerLine?.any item.range.meetsLine) then [.text " "] else newLine) [] 0 := by
        split
        · exact .filler rfl .nil
        · exact .newLine
      exact (hstart.append hitem).append (ih (some item.range) hrest)

theorem block (ownerLine? : Option Nat) (h : WovenAll (items.map Item.pieces) slots) :
    Woven 0 (Layout.block ownerLine? items) slots 0 :=
  (blockItems ownerLine? none h).nested

theorem comma (item : Item) (rest : List Item) : Woven 0 (Layout.comma item rest) [] 0 := by
  unfold Layout.comma
  split
  · exact .filler rfl .nil
  · exact .nil

theorem separator (previous item : Item) (next? : Option Item) :
    Woven 0 (Layout.separator previous item next?) [] 0 := by
  unfold Layout.separator
  split
  · exact .filler rfl .nil
  · split
    · exact .filler rfl .newLine
    · exact .newLine

theorem bodyItems (previous : Item) (h : WovenAll (items.map Item.pieces) slots) :
    Woven 0 (Layout.bodyItems previous items) slots 0 := by
  induction items generalizing previous slots with
  | nil =>
    cases h
    exact .nil
  | cons item rest ih =>
    cases h with
    | cons hitem hrest => exact ((separator _ _ _).append hitem).append (ih item hrest)

theorem body (h : WovenAll (items.map Item.pieces) slots) :
    Woven 0 (Layout.body items) slots 0 := by
  cases items with
  | nil =>
    cases h
    exact .nil
  | cons item rest =>
    cases h with
    | cons hitem hrest => exact hitem.append (bodyItems item hrest)

theorem arrayItems (previous : Range) (h : WovenAll (items.map Item.pieces) slots) :
    Woven 0 (Layout.arrayItems previous items) slots 0 := by
  induction items generalizing previous slots with
  | nil =>
    cases h
    exact .nil
  | cons item rest ih =>
    cases h with
    | @cons _ first _ more hitem hrest =>
      have hstart : Woven 0 (if Layout.joins previous item then [.text " "] else newLine) [] 0 := by
        split
        · exact .filler rfl .nil
        · exact .newLine
      have hend : Woven 0 (Layout.comma item rest ++ Layout.arrayItems item.range rest) more 0 :=
        (comma item rest).append (ih item.range hrest)
      rw [Layout.arrayItems, List.append_assoc]
      exact (hstart.append hitem).append hend

theorem array (opening closing : Token) (h : WovenAll (items.map Item.pieces) slots) :
    Woven 0 (Layout.array opening items closing)
      (.token opening :: slots ++ [.token closing]) 0 := by
  have hend : Woven 0 (if items.isEmpty then [] else newLine) [] 0 := by
    split
    · exact .nil
    · exact .newLine
  have hitems := (arrayItems opening.range h).nested
  have hall := (((Woven.token opening).append hitems).append hend).append (.token closing)
  simpa [Layout.array] using hall

theorem recordItems (previous : Range) (h : WovenAll (items.map Item.pieces) slots) :
    Woven 0 (Layout.recordItems previous items) slots 0 := by
  induction items generalizing previous slots with
  | nil =>
    cases h
    exact .nil
  | cons item rest ih =>
    cases h with
    | @cons _ first _ more hitem hrest =>
      have hstart : Woven 0 (if Layout.joins previous item then [.text " "] else [.indent 0])
          [] 0 := by
        split
        · exact .filler rfl .nil
        · exact .filler rfl .nil
      have hbreak : Woven 0
          (if rest.head?.any (Layout.joins item.range) then [] else [.lineBreak]) [] 0 := by
        split
        · exact .nil
        · exact .filler rfl .nil
      have hend := ((comma item rest).append hbreak).append (ih item.range hrest)
      have hall := (hstart.append hitem).append hend
      simpa [Layout.recordItems] using hall

theorem record (opening closing : Token) (h : WovenAll (items.map Item.pieces) slots) :
    Woven 0 (Layout.record opening items closing)
      (.token opening :: slots ++ [.token closing]) 0 := by
  have hstart : Woven 0 (if items.isEmpty || items.head?.any (Layout.joins opening.range) then []
      else [.lineBreak]) [] 0 := by
    split
    · exact .nil
    · exact .filler rfl .nil
  have hend : Woven 0 (if items.isEmpty then [] else [.indent 0]) [] 0 := by
    split
    · exact .nil
    · exact .filler rfl .nil
  have hitems := (recordItems opening.range h).nested
  have hall := ((((Woven.token opening).append hstart).append hitems).append hend).append
    (.token closing)
  simpa [Layout.record] using hall

/-- A line that is empty writes nothing. -/
theorem literal (position : Position) (line : String) :
    WovenAll (Layout.textOperands.literal position line)
      (([line].filter (!·.isEmpty)).map fun line =>
        .own (.written position (Text.quote line))) := by
  unfold Layout.textOperands.literal
  by_cases hline : line.isEmpty = true
  · simpa [hline] using WovenAll.nil
  · simpa [hline] using WovenAll.cons (.own rfl .nil) .nil

theorem textOperands (position : Position) (lines : List String) :
    WovenAll (Layout.textOperands position lines)
      ((lines.filter (!·.isEmpty)).map fun line => .own (.written position (Text.quote line))) := by
  induction lines with
  | nil => exact .nil
  | cons line rest ih =>
    cases rest with
    | nil => exact literal position line
    | cons next rest =>
      -- the line break is an operand, too, but it has no source position
      have hbreak : Woven 0 [.text "chr(10)"] [] 0 := .filler rfl .nil
      have hall := (literal position line).append (WovenAll.cons hbreak ih)
      rw [List.nil_append, ← List.map_append, ← List.filter_append] at hall
      exact hall

/-- The concatenation writes the operands, and an empty string if there are none. -/
theorem concatenation (opening : Token) (h : WovenAll list slots) :
    Woven 0 (Layout.concatenation opening list)
      (if list.isEmpty then [.own (.written opening.start (Text.quote ""))] else slots) 0 := by
  cases h with
  | nil => exact .own rfl .nil
  | cons hpieces hrest =>
    cases hrest with
    | nil => simpa [Layout.concatenation] using hpieces
    | cons hnext hrest =>
      have hopen : Woven 0 [.text "("] [] 0 := .filler rfl .nil
      have hclose : Woven 0 [.text ")"] [] 0 := .filler rfl .nil
      have hoperands := separated " + " (.cons hpieces (.cons hnext hrest)) rfl
      simpa [Layout.concatenation] using (hopen.append hoperands).append hclose

end WovenAll

/-! ## Deferred operands -/

namespace Capture

/-- A text with a quote in it is no bracket of a function literal. -/
theorem isFiller_of_quote_mem {s : String} (h : '"' ∈ s.toList) :
    (Piece.text s).isFiller = true := by
  have hopening : s ≠ "function(scope)" := by
    rintro rfl
    exact absurd h (by decide)
  have hclosing : s ≠ "end function" := by
    rintro rfl
    exact absurd h (by decide)
  simp [Piece.isFiller, hopening, hclosing]

theorem isFiller_binding (name : Token) : (binding name).isFiller = true :=
  isFiller_of_quote_mem (by simp)

/-- The scope object shows the captured variables, each under its name. -/
theorem woven_scopeObject (captured : List Token) :
    Woven 0 (scopeObject captured) (captured.map Slot.token) 0 := by
  have hmembers : WovenAll (captured.map fun name =>
      [.text ("\"" ++ name.text ++ "\": "), name.piece]) (captured.map Slot.token) := by
    induction captured with
    | nil => exact .nil
    | cons name rest ih =>
      exact .cons (.filler (isFiller_of_quote_mem (by simp)) (.token name)) ih
  cases captured with
  | nil => exact .filler rfl .nil
  | cons name rest =>
    have hopen : Woven 0 [.text "\x7b"] [] 0 := .filler rfl .nil
    have hclose : Woven 0 [.text "\x7d"] [] 0 := .filler rfl .nil
    simpa [scopeObject] using (hopen.append (hmembers.separated ", " rfl)).append hclose

/-- The lines that bind the captured variables again write nothing of the source. -/
theorem woven_bindings (captured : List Token) :
    Woven 1 (captured.flatMap fun name => newLine ++ [binding name]) [] 1 := by
  apply Woven.fillers
  intro piece hpiece
  obtain ⟨name, -, hpiece⟩ := List.mem_flatMap.mp hpiece
  simp only [newLine, List.mem_append, List.mem_cons, List.not_mem_nil, or_false] at hpiece
  rcases hpiece with (rfl | rfl) | rfl
  · rfl
  · rfl
  · exact isFiller_binding name

/-- A deferred operand is written inside one function literal. -/
theorem woven_deferred (captured : List Token) (scope : Scope) (e : Expression) :
    Woven 0 (deferred captured (e.emit scope)) [.deferred scope e] 0 := by
  -- inside, one function literal is open; its end closes it
  have hreturn : Woven 1 (newLine ++ [.text "return "]) [] 1 :=
    Woven.newLine.append (.filler rfl .nil)
  have hoperand : Woven 1 (e.emit scope) [.deferred scope e] 1 :=
    Woven.site ⟨scope, none, .expression e⟩
  have hinside := (((woven_bindings captured).append hreturn).append hoperand).nested
  have hend : Woven 1 (newLine ++ [closing]) [] 0 := Woven.newLine.append (.closing .nil)
  simpa [deferred, opening, closing] using Woven.opening (hinside.append hend)

end Capture

/-! ## Lists of parts -/

section Parts

variable (scope : Scope)

theorem wovenAll_emitArguments (arguments : List Expression) :
    WovenAll (emitArguments scope arguments) (arguments.map (Slot.operand scope)) := by
  induction arguments with
  | nil => exact .nil
  | cons argument rest ih => exact .cons (.operand scope argument) ih

theorem wovenAll_elementItems (elements : List Expression) :
    WovenAll ((elementItems scope elements).map Item.pieces)
      (elements.map (Slot.operand scope)) := by
  induction elements with
  | nil => exact .nil
  | cons element rest ih => exact .cons (.operand scope element) ih

theorem wovenAll_statementItems (statements : List Statement) :
    WovenAll ((statementItems scope statements).map Item.pieces)
      (statements.map (Slot.statement scope)) := by
  induction statements with
  | nil => exact .nil
  | cons statement rest ih => exact .cons (.statement scope statement) ih

theorem woven_comment (c : Comment) : Woven 0 c.pieces c.slots 0 := by
  have hothers : Woven 0
      (c.others.flatMap fun token => newLine ++ [.comment token.start token.text])
      (c.others.map fun token => .own (.comment token.start token.text)) 0 := by
    induction c.others with
    | nil => exact .nil
    | cons token rest ih =>
      exact (Woven.newLine.append (.own rfl .nil)).append ih
  exact .own rfl hothers

theorem wovenAll_memberItems (members : List Member) :
    WovenAll ((memberItems scope members).map Item.pieces)
      (members.flatMap (Member.slots scope)) := by
  induction members with
  | nil => exact .nil
  | cons member rest ih =>
    cases member with
    | pair key colon value =>
      have hpair : Woven 0 ([key.piece, colon.piece, .text " "] ++ value.emit scope)
          [.token key, .token colon, .operand scope value] 0 :=
        .own rfl (.own rfl (.filler rfl (.operand scope value)))
      exact .cons hpair ih
    | comment c => exact .cons (woven_comment c) ih

theorem wovenAll_templateOperands (parts : List TemplatePart) :
    WovenAll (templateOperands scope parts) (parts.flatMap (TemplatePart.slots scope)) := by
  induction parts with
  | nil => exact .nil
  | cons part rest ih =>
    cases part with
    | text token => exact (WovenAll.textOperands token.start (Text.lines token.text)).append ih
    | expression e =>
      have hclose : Woven 0 [.text ")"] [] 0 := .filler rfl .nil
      have hcall : Woven 0 ([.helper e.range.start .toText, .text "("] ++ e.emit scope ++
          [.text ")"]) [.own (.helper e.range.start .toText), .operand scope e] 0 :=
        .own rfl (.filler rfl ((Woven.operand scope e).append hclose))
      exact .cons hcall ih

theorem woven_typeClause (clause? : Option TypeClause) :
    Woven 0 (TypeClause.pieces clause?) (TypeClause.slots clause?) 0 := by
  cases clause? with
  | none => exact .nil
  | some clause => exact .filler rfl (.own rfl (.filler rfl (.token clause.type)))

theorem wovenAll_emitParameters (parameters : List Parameter) :
    WovenAll (emitParameters scope parameters) (parameters.flatMap (Parameter.slots scope)) := by
  induction parameters with
  | nil => exact .nil
  | cons parameter rest ih =>
    obtain ⟨name, default?, type?⟩ := parameter
    cases default? with
    | none => exact .cons (.own rfl (woven_typeClause type?)) ih
    | some value =>
      have hvalue := (Woven.operand scope value).append (woven_typeClause type?)
      exact .cons (.own rfl (.filler rfl hvalue)) ih

theorem wovenAll_emitItems (items : List PrintItem) :
    WovenAll (emitItems scope items) (items.flatMap (PrintItem.slots scope)) := by
  induction items with
  | nil => exact .nil
  | cons item rest ih =>
    cases item with
    | expression e => exact .cons (.operand scope e) ih
    | separator token => exact ih

theorem woven_tokenOr (fallback : String) (t? : Option Token)
    (hfallback : (Piece.text fallback).isFiller = true) :
    Woven 0 [Token.pieceOr fallback t?] (Slot.tokens t?) 0 := by
  cases t? with
  | none => exact .filler hfallback .nil
  | some t => exact .token t

/-- A block and the line break before the keyword behind it. -/
theorem woven_branch {block : List Piece} {slots : List Slot} (h : Woven 0 block slots 0) :
    Woven 0 (Layout.branch block) slots 0 := by
  have hbreak : Woven 0 [if block.isEmpty then Piece.emptyBlockBreak else .lineBreak] [] 0 := by
    split <;> exact .filler rfl .nil
  simpa [Layout.branch] using h.append hbreak

end Parts

/-! ## Nodes -/

theorem FunctionLiteral.woven (scope : Scope) (name? : Option Piece)
    (hname : ∀ name ∈ name?, name.isMapped = true) (f : FunctionLiteral) :
    Woven 0 (f.emit scope name?) (f.slots scope name?) 0 := by
  obtain ⟨keyword, opening, parameters, closing, returnType?, body, endToken⟩ := f
  have hparameters := (wovenAll_emitParameters scope parameters).separated ", " rfl
  have hend : Woven 0 (newLine ++ [endToken.piece]) [.token endToken] 0 :=
    Woven.newLine.append (.token endToken)
  have hbody := (Woven.block scope (FunctionLiteral.mk keyword opening parameters closing
    returnType? body endToken).range.start.line body).append hend
  have htype := (woven_typeClause returnType?).append hbody
  have hrest :=
    ((Woven.token opening).append hparameters).append ((Woven.token closing).append htype)
  cases name? with
  | none =>
    have hall := (Woven.token keyword).append hrest
    simpa [FunctionLiteral.emit, FunctionLiteral.slots] using hall
  | some name =>
    have hname : Woven 0 [.text " ", name] [.own name] 0 :=
      .filler rfl (.own (hname name rfl) .nil)
    have hall := ((Woven.token keyword).append hname).append hrest
    simpa [FunctionLiteral.emit, FunctionLiteral.slots] using hall

/-- A dotted access is flattened, or else its object is a part. -/
theorem Expression.emit_member (scope : Scope) (object : Expression) (dot name : Token) :
    Expression.emit scope (.member object dot name) =
      match Expression.flattened? scope (.member object dot name) with
      | some piece => [piece]
      | none => object.emit scope ++ [dot.piece, name.piece] := by
  rw [Expression.emit, Expression.flattened?]
  cases (DottedName.ofExpression? object).map (·.extend ⟨dot, name⟩) with
  | none => rfl
  | some chain => by_cases h : scope.resolver.startsWithNamespace chain.parts = true <;> simp [h]

theorem Expression.eq_written_of_flattened? {scope : Scope} {e : Expression}
    {piece : Piece} (h : e.flattened? scope = some piece) :
    ∃ position text, piece = .written position text := by
  cases e with
  | member object dot name =>
    rw [flattened?] at h
    split at h
    · cases h
    · split at h <;> cases h
      exact ⟨_, _, rfl⟩
  | _ => cases h

theorem Expression.isMapped_of_flattened? {scope : Scope} {e : Expression} {piece : Piece}
    (h : e.flattened? scope = some piece) : piece.isMapped = true := by
  obtain ⟨position, text, rfl⟩ := eq_written_of_flattened? h
  rfl

theorem Expression.isMapped_literalPiece (token : Token) :
    (Expression.literalPiece token).isMapped = true := by
  unfold Expression.literalPiece
  split <;> rfl

def helperCall (position : Position) (helper : Helper) (operands : List (List Piece)) :
    List Piece :=
  .helper position helper :: .text "(" :: separated ", " operands ++ [.text ")"]

theorem woven_helperCall (position : Position) (helper : Helper) {operands : List (List Piece)}
    {slots : List Slot} (h : WovenAll operands slots) :
    Woven 0 (helperCall position helper operands) (.own (.helper position helper) :: slots) 0 := by
  have hclose : Woven 0 [.text ")"] [] 0 := .filler rfl .nil
  have hall := (h.separated ", " rfl).append hclose
  rw [List.append_nil] at hall
  exact .own rfl (.filler rfl hall)

theorem Expression.emit_conditional (scope : Scope) (test : Expression) (question : Token)
    (consequent : Expression) (colon : Token) (alternate : Expression) :
    Expression.emit scope (.conditional test question consequent colon alternate) =
      let captured := scope.captured [consequent, alternate]
      if consequent.containsMutating || alternate.containsMutating then
        helperCall question.start .scopeSafeTernary [test.emit scope,
          Capture.scopeObject captured, Capture.deferred captured (consequent.emit scope),
          Capture.deferred captured (alternate.emit scope)]
      else
        helperCall question.start .simpleTernary
          [test.emit scope, consequent.emit scope, alternate.emit scope] := by
  rw [Expression.emit]
  split <;> simp [helperCall, separated]

theorem Expression.emit_coalesce (scope : Scope) (left : Expression) (operator : Token)
    (right : Expression) :
    Expression.emit scope (.coalesce left operator right) =
      let captured := scope.captured [right]
      if left.containsMutating || right.containsMutating then
        helperCall operator.start .scopeSafeCoalesce [left.emit scope,
          Capture.scopeObject captured, Capture.deferred captured (right.emit scope)]
      else
        helperCall operator.start .simpleCoalesce [left.emit scope, right.emit scope] := by
  rw [Expression.emit]
  split <;> simp [helperCall, separated]

theorem Expression.woven_conditional (scope : Scope) (test : Expression) (question : Token)
    (consequent : Expression) (colon : Token) (alternate : Expression) :
    Woven 0 (Expression.emit scope (.conditional test question consequent colon alternate))
      (Expression.slots scope (.conditional test question consequent colon alternate)) 0 := by
  rw [Expression.emit_conditional, Expression.slots]
  split
  next =>
    have hobject := Capture.woven_scopeObject (scope.captured [consequent, alternate])
    have hdeferred := Capture.woven_deferred (scope.captured [consequent, alternate]) scope
    have hoperands := WovenAll.cons (.operand scope test) (.cons hobject
      (.cons (hdeferred consequent) (.cons (hdeferred alternate) .nil)))
    exact woven_helperCall question.start .scopeSafeTernary hoperands
  next =>
    have hbranches := WovenAll.cons (.operand scope consequent)
      (.cons (.operand scope alternate) .nil)
    exact woven_helperCall question.start .simpleTernary
      (.cons (.operand scope test) hbranches)

theorem Expression.woven_coalesce (scope : Scope) (left : Expression) (operator : Token)
    (right : Expression) :
    Woven 0 (Expression.emit scope (.coalesce left operator right))
      (Expression.slots scope (.coalesce left operator right)) 0 := by
  rw [Expression.emit_coalesce, Expression.slots]
  split
  next =>
    have hobject := Capture.woven_scopeObject (scope.captured [right])
    have hdeferred := Capture.woven_deferred (scope.captured [right]) scope right
    have hoperands := WovenAll.cons (.operand scope left) (.cons hobject (.cons hdeferred .nil))
    exact woven_helperCall operator.start .scopeSafeCoalesce hoperands
  next =>
    exact woven_helperCall operator.start .simpleCoalesce
      (.cons (.operand scope left) (.cons (.operand scope right) .nil))

theorem Expression.woven (scope : Scope) (e : Expression) :
    Woven 0 (e.emit scope) (e.slots scope) 0 := by
  cases e with
  | binary left operator right =>
    have hoperator : Woven 0 [.text " ", operator.piece, .text " "] [.token operator] 0 :=
      .filler rfl (.own rfl (.filler rfl .nil))
    exact ((Woven.operand scope left).append hoperator).append (.operand scope right)
  | unary operator operand => exact .own rfl (.filler rfl (.operand scope operand))
  | call callee opening arguments closing =>
    have harguments := (wovenAll_emitArguments scope arguments).separated ", " rfl
    have hall := (((Woven.operand scope callee).append (.token opening)).append harguments).append
      (.token closing)
    simpa [Expression.emit, Expression.slots] using hall
  | callfunc receiver operator method opening arguments closing =>
    have hmethod : Woven 0 [.written operator.start ".callfunc", opening.piece,
        .written method.start ("\"" ++ method.text ++ "\"")]
        [.own (.written operator.start ".callfunc"), .token opening,
          .own (.written method.start ("\"" ++ method.text ++ "\""))] 0 :=
      .own rfl (.own rfl (.own rfl .nil))
    have harguments : Woven 0 (if arguments.isEmpty then [.text ", invalid"]
        else .text ", " :: separated ", " (emitArguments scope arguments))
        (arguments.map (Slot.operand scope)) 0 := by
      cases arguments with
      | nil => exact .filler rfl .nil
      | cons => exact .filler rfl ((wovenAll_emitArguments scope _).separated ", " rfl)
    have hall := (((Woven.operand scope receiver).append hmethod).append harguments).append
      (.token closing)
    simpa [Expression.emit, Expression.slots] using hall
  | function f => exact f.woven scope none (by simp)
  | member object dot name =>
    rw [Expression.emit_member, Expression.slots]
    cases hflat : Expression.flattened? scope (.member object dot name) with
    | some piece => exact .own (Expression.isMapped_of_flattened? hflat) .nil
    | none => exact (Woven.operand scope object).append (.own rfl (.token name))
  | identifier name => exact .own rfl .nil
  | index object opening key closing =>
    exact (((Woven.operand scope object).append (.token opening)).append
      (.operand scope key)).append (.token closing)
  | xmlAttribute object sign name =>
    exact (Woven.operand scope object).append (.own rfl (.token name))
  | group opening inner closing =>
    exact ((Woven.token opening).append (.operand scope inner)).append (.token closing)
  | literal token => exact .own (isMapped_literalPiece token) .nil
  | array opening elements closing =>
    exact (wovenAll_elementItems scope elements).array opening closing
  | record opening members closing =>
    exact (wovenAll_memberItems scope members).record opening closing
  | construct keyword className opening arguments closing =>
    have harguments := (wovenAll_emitArguments scope arguments).separated ", " rfl
    exact .own rfl (.own rfl (harguments.append (.token closing)))
  | conditional test question consequent colon alternate =>
    exact woven_conditional scope test question consequent colon alternate
  | coalesce left operator right => exact woven_coalesce scope left operator right
  | template opening parts closing =>
    exact (wovenAll_templateOperands scope parts).concatenation opening
  | comment c => exact woven_comment c

theorem woven_elseIfs (scope : Scope) (clauses : List ElseIf) :
    Woven 0 (emitElseIfs scope clauses) (clauses.flatMap (ElseIf.slots scope)) 0 := by
  induction clauses with
  | nil => exact .nil
  | cons clause rest ih =>
    obtain ⟨keyword, condition, then?, body⟩ := clause
    have hstart : Woven 0 [.indent 0, keyword.piece, .text " "] [.token keyword] 0 :=
      .filler rfl (.own rfl (.filler rfl .nil))
    have hthen : Woven 0 [.text " ", Token.pieceOr "then" then?] (Slot.tokens then?) 0 :=
      .filler rfl (woven_tokenOr "then" then? rfl)
    have hbody := woven_branch (Woven.block scope
      (ElseIf.mk keyword condition then? body).range.start.line body)
    have hcondition := (hstart.append (.operand scope condition)).append hthen
    simpa [emitElseIfs, ElseIf.slots] using (hcondition.append hbody).append ih

theorem woven_keyword (t : Token) : Woven 0 [t.piece, .text " "] [.token t] 0 :=
  .own rfl (.filler rfl .nil)

theorem Assignment.woven (scope : Scope) (a : Assignment) :
    Woven 0 (a.emit scope) (a.slots scope) 0 := by
  obtain ⟨name, operator, value⟩ := a
  have hstart : Woven 0 [name.piece, .text " ", operator.piece, .text " "]
      [.token name, .token operator] 0 :=
    (woven_keyword name).append (woven_keyword operator)
  exact hstart.append (.operand scope value)

theorem Statement.woven_branch (scope : Scope) (first : Token) (condition : Expression)
    (then? : Option Token) (body : Block) (elseIfs : List ElseIf) (else? : Option Else)
    (end? : Option Token) :
    Woven 0 (Statement.emit scope (.branch first condition then? body elseIfs else? end?))
      (Statement.slots scope (.branch first condition then? body elseIfs else? end?)) 0 := by
  have hthen : Woven 0 [.text " ", Token.pieceOr "then" then?] (Slot.tokens then?) 0 :=
    .filler rfl (woven_tokenOr "then" then? rfl)
  have hbody := Downlevel.woven_branch (Woven.block scope
    (Statement.branch first condition then? body elseIfs else? end?).range.start.line body)
  have hend : Woven 0 [.indent 0, Token.pieceOr "end if" end?] (Slot.tokens end?) 0 :=
    .filler rfl (woven_tokenOr "end if" end? rfl)
  have hcondition := ((woven_keyword first).append (.operand scope condition)).append hthen
  have hclauses := (hcondition.append hbody).append (woven_elseIfs scope elseIfs)
  cases else? with
  | none => simpa [Statement.emit, Statement.slots] using hclauses.append hend
  | some clause =>
    obtain ⟨elseToken, otherwise⟩ := clause
    have helse : Woven 0 [.indent 0, elseToken.piece] [.token elseToken] 0 :=
      .filler rfl (.token elseToken)
    have hotherwise := Downlevel.woven_branch (Woven.block scope
      (Else.mk elseToken otherwise).range.start.line otherwise)
    have hall := (hclauses.append (helse.append hotherwise)).append hend
    simpa [Statement.emit, Statement.slots, Else.slots] using hall

theorem Statement.woven_forLoop (scope : Scope) (first : Token) (counter : Assignment)
    (toToken : Token) (limit : Expression) (step? : Option ForStep) (body : Block)
    (endToken : Token) :
    Woven 0 (Statement.emit scope (.forLoop first counter toToken limit step? body endToken))
      (Statement.slots scope (.forLoop first counter toToken limit step? body endToken)) 0 := by
  have hto : Woven 0 [.text " ", toToken.piece, .text " "] [.token toToken] 0 :=
    .filler rfl (woven_keyword toToken)
  have hbody := Downlevel.woven_branch (Woven.block scope
    (Statement.forLoop first counter toToken limit step? body endToken).range.start.line body)
  have hend : Woven 0 [.indent 0, endToken.piece] [.token endToken] 0 :=
    .filler rfl (.token endToken)
  have hcounter := ((woven_keyword first).append (counter.woven scope)).append hto
  have hlimit := hcounter.append (.operand scope limit)
  cases step? with
  | none =>
    have hall := (hlimit.append hbody).append hend
    simpa [Statement.emit, Statement.slots] using hall
  | some step =>
    obtain ⟨stepToken, amount⟩ := step
    have hstep : Woven 0 [.text " ", stepToken.piece, .text " "] [.token stepToken] 0 :=
      .filler rfl (woven_keyword stepToken)
    have hamount := hlimit.append (hstep.append (.operand scope amount))
    have hall := (hamount.append hbody).append hend
    simpa [Statement.emit, Statement.slots, ForStep.slots] using hall

theorem Statement.woven_tryCatch (scope : Scope) (first : Token) (body : Block)
    (catchToken exceptionName : Token) (handler : Block) (endToken : Token) :
    Woven 0
      (Statement.emit scope (.tryCatch first body catchToken exceptionName handler endToken))
      (Statement.slots scope (.tryCatch first body catchToken exceptionName handler endToken))
      0 := by
  have hbody := Woven.block scope
    (Statement.tryCatch first body catchToken exceptionName handler endToken).range.start.line body
  have hcatch : Woven 0 [catchToken.piece, .text " ", exceptionName.piece]
      [.token catchToken, .token exceptionName] 0 :=
    (woven_keyword catchToken).append (.token exceptionName)
  have hhandler := Woven.block scope
    (catchToken.range.cover exceptionName.range).start.line handler
  have hend : Woven 0 (newLine ++ [endToken.piece]) [.token endToken] 0 :=
    Woven.newLine.append (.token endToken)
  have hstart := ((Woven.token first).append hbody).append (Woven.newLine.append hcatch)
  have hall := (hstart.append hhandler).append hend
  simpa [Statement.emit, Statement.slots] using hall

theorem Statement.woven (scope : Scope) (s : Statement) :
    Woven 0 (s.emit scope) (s.slots scope) 0 := by
  cases s with
  | assignment a => exact a.woven scope
  | expression e => exact .operand scope e
  | comment c => exact woven_comment c
  | branch first condition then? body elseIfs else? end? =>
    exact Statement.woven_branch scope first condition then? body elseIfs else? end?
  | forLoop first counter toToken limit step? body endToken =>
    exact Statement.woven_forLoop scope first counter toToken limit step? body endToken
  | forEach first item inToken target body endToken =>
    have hstart : Woven 0 [first.piece, .text " ", item.piece, .text " ", inToken.piece, .text " "]
        [.token first, .token item, .token inToken] 0 :=
      (woven_keyword first).append ((woven_keyword item).append (woven_keyword inToken))
    have hbody := Downlevel.woven_branch (Woven.block scope
      (Statement.forEach first item inToken target body endToken).range.start.line body)
    have hend : Woven 0 [.indent 0, endToken.piece] [.token endToken] 0 :=
      .filler rfl (.token endToken)
    exact ((hstart.append (.operand scope target)).append hbody).append hend
  | whileLoop first condition body endToken =>
    have hend : Woven 0 (newLine ++ [endToken.piece]) [.token endToken] 0 :=
      Woven.newLine.append (.token endToken)
    have hbody := (Woven.block scope
      (Statement.whileLoop first condition body endToken).range.start.line body).append hend
    have hall := ((woven_keyword first).append (.operand scope condition)).append hbody
    simpa [Statement.emit, Statement.slots] using hall
  | memberSet object dot name value =>
    have hname : Woven 0 [dot.piece, name.piece, .text " = "] [.token dot, .token name] 0 :=
      .own rfl (.own rfl (.filler rfl .nil))
    exact ((Woven.operand scope object).append hname).append (.operand scope value)
  | indexSet object opening key closing value =>
    have hclose : Woven 0 [closing.piece, .text " = "] [.token closing] 0 :=
      .own rfl (.filler rfl .nil)
    have hobject := (Woven.operand scope object).append (.token opening)
    exact ((hobject.append (.operand scope key)).append hclose).append (.operand scope value)
  | increment value operator => exact (Woven.operand scope value).append (.token operator)
  | print first items =>
    have hoperands := (wovenAll_emitItems scope items).separated " ; " rfl
    rw [Statement.emit, Statement.slots]
    split
    next hnone =>
      rw [List.isEmpty_iff.mp hnone] at hoperands
      exact .own rfl hoperands
    next => exact .own rfl (.filler rfl hoperands)
  | goto first target => exact (woven_keyword first).append (.token target)
  | label name colon => exact .own rfl (.token colon)
  | returning first value? =>
    cases value? with
    | none => exact .token first
    | some value => exact (woven_keyword first).append (.operand scope value)
  | keyword word token => exact .own rfl .nil
  | library first path => exact (woven_keyword first).append (.token path)
  | function name f => exact f.woven scope _ (by simp [Piece.isMapped])
  | namespaceBlock first name body endToken =>
    exact (wovenAll_statementItems (scope.inside name) body).body
  | importFile first path =>
    exact .filler rfl (.own rfl (.filler rfl (.own rfl .nil)))
  | tryCatch first body catchToken exceptionName handler endToken =>
    exact woven_tryCatch scope first body catchToken exceptionName handler endToken
  | throwing first value => exact (woven_keyword first).append (.operand scope value)

/-- Whatever is emitted for a site writes the entries of its skeleton. -/
theorem Site.woven (site : Site) : Woven 0 site.emit site.slots 0 := by
  obtain ⟨scope, ownerLine?, tree⟩ := site
  cases tree with
  | body statements => exact (wovenAll_statementItems scope statements).body
  | block b =>
    obtain ⟨start, statements⟩ := b
    exact (wovenAll_statementItems scope statements).block ownerLine?
  | statement s => exact s.woven scope
  | expression e => exact e.woven scope

end Downlevel
