import Downlevel.Proofs.CommentLines
import Downlevel.Proofs.Levels

/-!
# Where lines start

Line breaks are written before items, behind items and by the owners of blocks, and the indentation
behind a line break is not always written by what wrote the break. Still every line starts with
one: the level of what comes next on it.

The pieces are read here from left to right: behind every line break there has to be the start of a
line that the tree has (`Lined`). What a node starts lines with is known without its parts
(`Site.Starts`).

Main statement: behind every line break there is the start of a line of the tree (`Site.lined`).
-/

namespace Downlevel

open Piece (newLine nested separated)

/-- What lines start with: whether there is a blank line before, how many levels they are indented,
and what stands behind the indentation. -/
abbrev LineStarts := Bool → Nat → List Piece → Prop

namespace LineStarts

/-- The same starts as seen from further down. -/
def below (starts : LineStarts) (levels : Nat) : LineStarts :=
  fun blank indents item => starts blank (indents + levels) item

/-- All of the starts are among the others. -/
def Within (starts more : LineStarts) : Prop :=
  ∀ blank indents item, starts blank indents item → more blank indents item

end LineStarts

/-! ## What nodes start lines with -/

/-- A bracketed literal with the items in it. -/
structure Bracketed where
  opening : Token
  items : List Item
  closing : Token

def Bracketed.pieces (b : Bracketed) : List Piece := Layout.array b.opening b.items b.closing

/-- The literal that a site is. -/
def Site.bracketed? (site : Site) : Option Bracketed :=
  match site.tree with
  | .expression (.array opening elements closing) =>
    some ⟨opening, elementItems site.scope elements, closing⟩
  | .expression (.record opening members closing) =>
    some ⟨opening, memberItems site.scope members, closing⟩
  | _ => none

/-- The statements of a file or a namespace, and the scope in which they stand. -/
def Site.body? (site : Site) : Option (Scope × Body) :=
  match site.tree with
  | .body statements => some (site.scope, statements)
  | .statement (.namespaceBlock _ name statements _) => some (site.scope.inside name, statements)
  | _ => none

/-- What the site starts lines with, outside of its parts. -/
inductive Site.Starts (site : Site) : LineStarts
  /-- A statement of a block. -/
  | statement {b : Block} {s : Statement} : site.tree = .block b → s ∈ b.statements →
      Starts site false 1 (s.emit site.scope)
  /-- A statement of a body behind another one. -/
  | follower {scope : Scope} {front : Body} {previous s : Statement} {back : Body} (blank : Bool) :
      site.body? = some (scope, front ++ previous :: s :: back) →
      Starts site blank 0 (s.emit scope)
  /-- The keyword behind a section. -/
  | keyword {c : Compound} {front : List Section} {sec : Section} {after : List Section} :
      site.compound? = some c → c.sections = front ++ sec :: after →
      Starts site false 0 [c.next after]
  /-- An item of a literal. -/
  | item {b : Bracketed} {item : Item} : site.bracketed? = some b → item ∈ b.items →
      Starts site false 1 item.pieces
  /-- The closing bracket of a literal that is not empty. -/
  | bracket {b : Bracketed} : site.bracketed? = some b → b.items ≠ [] →
      Starts site false 0 [b.closing.piece]
  /-- A line of a comment behind its first one. -/
  | comment {c : Comment} {t : Token} : c ∈ site.comments → t ∈ c.others →
      Starts site false site.tree.indents [.comment t.start t.text]
  /-- A variable that is bound again. -/
  | binding {name : Token} : site.deferredOperands ≠ [] →
      name ∈ site.scope.captured site.deferredOperands →
      Starts site false 1 [Capture.binding name]
  /-- The value of a deferred operand. -/
  | returning {e : Expression} : e ∈ site.deferredOperands →
      Starts site false 1 (.text "return " :: e.emit site.scope)
  /-- The end of the function literal around a deferred operand. -/
  | functionEnd {e : Expression} : e ∈ site.deferredOperands →
      Starts site false 0 [.text "end function"]

/-! ## Reading pieces -/

namespace Piece

/-- The piece ends a line. -/
def isBreak : Piece → Bool
  | lineBreak => true
  | emptyBlockBreak => true
  | _ => false

@[simp] theorem isBreak_token (t : Token) : t.piece.isBreak = false := by rfl

@[simp] theorem isBreak_text (s : String) : (text s).isBreak = false := by rfl

@[simp] theorem isBreak_written (position : Position) (s : String) :
    (written position s).isBreak = false := by rfl

@[simp] theorem isBreak_commentedOut (position : Position) (s : String) :
    (commentedOut position s).isBreak = false := by rfl

@[simp] theorem isBreak_helper (position : Position) (h : Helper) :
    (helper position h).isBreak = false := by rfl

@[simp] theorem isBreak_tokenOr (fallback : String) (t? : Option Token) :
    (Token.pieceOr fallback t?).isBreak = false := by
  cases t? <;> rfl

@[simp] theorem isBreak_literalPiece (t : Token) : (Expression.literalPiece t).isBreak = false := by
  unfold Expression.literalPiece
  split <;> rfl

theorem isBreak_shift (piece : Piece) (levels : Nat) :
    (piece.shift levels).isBreak = piece.isBreak := by
  cases piece <;> rfl

end Piece

section Reading

variable (starts : LineStarts)

/-- The pieces go on with one of the starts. -/
def Continues (pieces : List Piece) : Prop :=
  ∃ blank indents item rest, starts blank indents item ∧ pieces =
    (if blank then [.lineBreak] else []) ++ .indent indents :: item.map (Piece.shift indents) ++
      rest

/-- One of the starts follows every line break. -/
def Lined : List Piece → Prop
  | [] => True
  | piece :: rest => (piece.isBreak = true → Continues starts rest) ∧ Lined rest

end Reading

section Laws

variable {starts more : LineStarts} {piece : Piece} {pieces rest item : List Piece}

theorem Continues.append (h : Continues starts pieces) (rest : List Piece) :
    Continues starts (pieces ++ rest) := by
  obtain ⟨blank, indents, item, tail, hstarts, rfl⟩ := h
  exact ⟨blank, indents, item, tail ++ rest, hstarts, List.append_assoc ..⟩

theorem Continues.mono (h : Continues starts pieces) (hmore : starts.Within more) :
    Continues more pieces := by
  obtain ⟨blank, indents, item, rest, hstarts, rfl⟩ := h
  exact ⟨blank, indents, item, rest, hmore _ _ _ hstarts, rfl⟩

theorem Continues.shift {levels : Nat} (h : Continues (starts.below levels) pieces) :
    Continues starts (pieces.map (Piece.shift levels)) := by
  obtain ⟨blank, indents, item, rest, hstarts, rfl⟩ := h
  refine ⟨blank, indents + levels, item, rest.map (Piece.shift levels), hstarts, ?_⟩
  have hitem : (item.map (Piece.shift indents)).map (Piece.shift levels) =
      item.map (Piece.shift (indents + levels)) := by
    simp [Function.comp_def, Piece.shift_shift]
  cases blank <;> simp only [List.map_append, List.map_cons, hitem] <;> rfl

@[simp] theorem lined_nil : Lined starts [] := trivial

@[simp] theorem lined_cons (h : piece.isBreak = false) :
    Lined starts (piece :: pieces) ↔ Lined starts pieces := by
  simp [Lined, h]

@[simp] theorem lined_append (h : Lined starts pieces) :
    Lined starts (pieces ++ rest) ↔ Lined starts rest := by
  induction pieces with
  | nil => rfl
  | cons piece pieces ih =>
    obtain ⟨hbreak, htail⟩ := h
    rw [List.cons_append, Lined, ih htail]
    exact and_iff_right fun h => (hbreak h).append rest

theorem Lined.append (h : Lined starts pieces) (hrest : Lined starts rest) :
    Lined starts (pieces ++ rest) :=
  (lined_append h).mpr hrest

theorem Lined.mono (h : Lined starts pieces) (hmore : starts.Within more) :
    Lined more pieces := by
  induction pieces with
  | nil => trivial
  | cons piece pieces ih => exact ⟨fun hbreak => (h.1 hbreak).mono hmore, ih h.2⟩

theorem Lined.shift {levels : Nat} (h : Lined (starts.below levels) pieces) :
    Lined starts (pieces.map (Piece.shift levels)) := by
  induction pieces with
  | nil => trivial
  | cons piece pieces ih =>
    refine ⟨fun hbreak => (h.1 ?_).shift, ih h.2⟩
    rwa [Piece.isBreak_shift] at hbreak

/-- Wherever there is a line break, one of the starts follows. -/
theorem Lined.continues {before : List Piece} (h : Lined starts (before ++ piece :: rest))
    (hbreak : piece.isBreak = true) : Continues starts rest := by
  induction before with
  | nil => exact h.1 hbreak
  | cons first before ih => exact ih h.2

/-! ### Starts of lines -/

theorem Lined.start (hbreak : Lined starts item) (hstarts : starts false 0 item) :
    Lined starts (newLine ++ item) := by
  refine ⟨fun _ => ⟨false, 0, item, [], hstarts, ?_⟩, (lined_cons rfl).mpr hbreak⟩
  simp [Piece.map_shift_zero]

theorem Lined.blankLine (hbreak : Lined starts item) (hstarts : ∀ blank, starts blank 0 item) :
    Lined starts (.lineBreak :: newLine ++ item) := by
  refine ⟨fun _ => ⟨true, 0, item, [], hstarts true, ?_⟩, hbreak.start (hstarts false)⟩
  simp [Piece.map_shift_zero, newLine]

theorem Lined.word (hpiece : piece.isBreak = false) (hstarts : starts false 0 [piece]) :
    Lined starts (newLine ++ [piece]) :=
  Lined.start ((lined_cons hpiece).mpr trivial) hstarts

theorem lined_separated (separator : String) {list : List (List Piece)}
    (h : ∀ pieces ∈ list, Lined starts pieces) : Lined starts (separated separator list) := by
  induction list using Piece.separated.induct with
  | case1 => trivial
  | case2 pieces => exact h pieces List.mem_cons_self
  | case3 pieces next rest ih =>
    obtain ⟨hpieces, hrest⟩ := List.forall_mem_cons.mp h
    exact hpieces.append ((lined_cons rfl).mpr (ih hrest))

end Laws

/-! ## Sequences -/

namespace Layout

variable {starts : LineStarts} {items : List Item}

theorem lined_blockItems (ownerLine? : Option Nat) (previous? : Option Range)
    (h : ∀ item ∈ items, starts false 0 item.pieces ∧ Lined starts item.pieces) :
    Lined starts (blockItems ownerLine? previous? items) := by
  induction items generalizing previous? with
  | nil => trivial
  | cons item rest ih =>
    obtain ⟨⟨hstarts, hitem⟩, hrest⟩ := List.forall_mem_cons.mp h
    rw [blockItems]
    refine Lined.append ?_ (ih (some item.range) hrest)
    split
    · exact (lined_cons rfl).mpr hitem
    · exact hitem.start hstarts

theorem lined_bodyItems (previous : Item)
    (h : ∀ item ∈ items, (∀ blank, starts blank 0 item.pieces) ∧ Lined starts item.pieces) :
    Lined starts (bodyItems previous items) := by
  induction items generalizing previous with
  | nil => trivial
  | cons item rest ih =>
    obtain ⟨⟨hstarts, hitem⟩, hrest⟩ := List.forall_mem_cons.mp h
    rw [bodyItems]
    refine Lined.append ?_ (ih item hrest)
    unfold separator
    split
    · exact (lined_cons rfl).mpr hitem
    · split
      · exact hitem.blankLine hstarts
      · exact hitem.start (hstarts false)

theorem lined_comma (item : Item) (rest : List Item) : Lined starts (comma item rest) := by
  unfold comma
  split
  · exact (lined_cons rfl).mpr trivial
  · trivial

theorem lined_arrayItems (previous : Range)
    (h : ∀ item ∈ items, starts false 0 item.pieces ∧ Lined starts item.pieces) :
    Lined starts (arrayItems previous items) := by
  induction items generalizing previous with
  | nil => trivial
  | cons item rest ih =>
    obtain ⟨⟨hstarts, hitem⟩, hrest⟩ := List.forall_mem_cons.mp h
    rw [arrayItems]
    refine Lined.append (Lined.append ?_ (lined_comma item rest)) (ih item.range hrest)
    split
    · exact (lined_cons rfl).mpr hitem
    · exact hitem.start hstarts

theorem lined_array (opening closing : Token)
    (h : ∀ item ∈ items, starts false 1 item.pieces ∧ Lined (starts.below 1) item.pieces)
    (hclosing : items ≠ [] → starts false 0 [closing.piece]) :
    Lined starts (array opening items closing) := by
  have hitems : Lined starts (nested (arrayItems opening.range items)) :=
    (lined_arrayItems opening.range h).shift
  rw [array, List.append_assoc]
  refine Lined.append ((lined_cons rfl).mpr hitems) ?_
  cases items with
  | nil => exact (lined_cons rfl).mpr trivial
  | cons => exact Lined.word rfl (hclosing (List.cons_ne_nil _ _))

end Layout

namespace Compound

theorem exists_next (scope : Scope) (c : Compound) (after : List Section) : ∃ rest,
    after.flatMap (fun sec => sec.pieces scope ++ [sec.lineEnd, .indent 0]) ++ [c.closing] =
      c.next after :: rest := by
  cases after with
  | nil => exact ⟨[], rfl⟩
  | cons sec after => exact ⟨_, rfl⟩

variable {starts : LineStarts} {scope : Scope} {c : Compound}

theorem lined (hclosing : c.closing.isBreak = false)
    (hnext : ∀ front sec after, c.sections = front ++ sec :: after →
      starts false 0 [c.next after])
    (hsections : ∀ sec ∈ c.sections,
      Lined starts sec.header ∧ Lined starts (sec.body.emit scope sec.line)) :
    Lined starts (c.pieces scope) := by
  obtain ⟨sections, closing⟩ := c
  -- the line behind each section starts with what follows it, be it a section or the end
  suffices h : ∀ front after, front ++ after = sections → Lined starts
      (after.flatMap (fun sec => sec.pieces scope ++ [sec.lineEnd, .indent 0]) ++ [closing]) from
    h [] sections rfl
  intro front after heq
  induction after generalizing front with
  | nil => exact (lined_cons hclosing).mpr trivial
  | cons sec after ih =>
    subst heq
    obtain ⟨hheader, hbody⟩ := hsections sec (by simp)
    have hsec : Lined starts (sec.pieces scope) :=
      Lined.append ((lined_cons rfl).mpr hheader) hbody
    specialize ih (front ++ [sec]) (by simp)
    obtain ⟨rest, hrest⟩ := exists_next scope ⟨front ++ sec :: after, closing⟩ after
    have hstarts := hnext front sec after rfl
    rw [List.flatMap_cons, List.append_assoc, List.append_assoc]
    refine hsec.append ⟨fun _ => ?_, (lined_cons rfl).mpr ih⟩
    refine ⟨false, 0, [_], rest, hstarts, ?_⟩
    simpa [Piece.shift_zero] using hrest

end Compound

/-! ## Nodes -/

/-- What the part of the entry has lines start with is among the starts. -/
def Slot.Lined (starts : LineStarts) (indents : Nat) : Slot → Prop
  | own _ => True
  | part site literals => Downlevel.Lined (starts.below (indents + literals)) site.emit

namespace Slot

variable {starts : LineStarts} {scope : Scope} {e : Expression}

@[simp] theorem lined_token (indents : Nat) (t : Token) : (token t).Lined starts indents := trivial

@[simp] theorem lined_operand :
    (operand scope e).Lined starts 0 ↔ Downlevel.Lined starts (e.emit scope) := .rfl

@[simp] theorem lined_block (ownerLine : Nat) (b : Block) :
    (block scope ownerLine b).Lined starts 0 ↔
      Downlevel.Lined starts (b.emit scope ownerLine) := .rfl

end Slot

section Nodes

variable {starts : LineStarts} {scope : Scope} {ownerLine? : Option Nat}

theorem Comment.lined {c : Comment}
    (h : ∀ t ∈ c.others, starts false 0 [.comment t.start t.text]) : Lined starts c.pieces := by
  refine (lined_cons rfl).mpr ?_
  generalize c.others = others at h
  induction others with
  | nil => trivial
  | cons t rest ih =>
    obtain ⟨hstarts, hrest⟩ := List.forall_mem_cons.mp h
    exact (Lined.word rfl hstarts).append (ih hrest)

theorem Capture.lined_scopeObject (captured : List Token) :
    Lined starts (scopeObject captured) := by
  cases captured with
  | nil => exact (lined_cons rfl).mpr trivial
  | cons name rest =>
    have hnames : ∀ pieces ∈ (name :: rest).map fun name =>
        [.text ("\"" ++ name.text ++ "\": "), name.piece], Lined starts pieces := by
      intro pieces hpieces
      obtain ⟨name, -, rfl⟩ := List.mem_map.mp hpieces
      exact (lined_cons rfl).mpr ((lined_cons rfl).mpr trivial)
    have hopening : Lined starts (.text "\x7b" :: separated ", " ((name :: rest).map fun name =>
        [.text ("\"" ++ name.text ++ "\": "), name.piece])) :=
      (lined_cons rfl).mpr (lined_separated ", " hnames)
    exact hopening.append ((lined_cons rfl).mpr trivial)

theorem Capture.lined_deferred {captured : List Token} {operand : List Piece}
    (hbinding : ∀ name ∈ captured, starts false 1 [binding name])
    (hreturn : starts false 1 (.text "return " :: operand))
    (hend : starts false 0 [.text "end function"]) (h : Lined (starts.below 1) operand) :
    Lined starts (deferred captured operand) := by
  have hbindings : Lined (starts.below 1)
      (captured.flatMap fun name => newLine ++ [binding name]) := by
    induction captured with
    | nil => trivial
    | cons name rest ih =>
      obtain ⟨hname, hrest⟩ := List.forall_mem_cons.mp hbinding
      have hline : Lined (starts.below 1) (newLine ++ [binding name]) := Lined.word rfl hname
      exact hline.append (ih hrest)
  have hreturns : Lined (starts.below 1) (newLine ++ .text "return " :: operand) :=
    Lined.start ((lined_cons rfl).mpr h) hreturn
  have hinside : Lined (starts.below 1) ((captured.flatMap fun name => newLine ++ [binding name]) ++
      newLine ++ .text "return " :: operand) := by
    rw [List.append_assoc]
    exact hbindings.append hreturns
  rw [deferred, List.append_assoc]
  exact Lined.append ((lined_cons rfl).mpr hinside.shift) (Lined.word rfl hend)

theorem lined_helperCall (position : Position) (h : Helper) {operands : List (List Piece)}
    (hoperands : ∀ pieces ∈ operands, Lined starts pieces) :
    Lined starts (helperCall position h operands) := by
  simp [helperCall, lined_separated ", " hoperands]

theorem lined_emitArguments {arguments : List Expression}
    (h : ∀ e ∈ arguments, Lined starts (e.emit scope)) :
    Lined starts (separated ", " (emitArguments scope arguments)) := by
  apply lined_separated
  induction arguments with
  | nil => simp [emitArguments]
  | cons argument rest ih =>
    obtain ⟨hargument, hrest⟩ := List.forall_mem_cons.mp h
    exact List.forall_mem_cons.mpr ⟨hargument, ih hrest⟩

theorem lined_typeClause (clause? : Option TypeClause) :
    Lined starts (TypeClause.pieces clause?) := by
  cases clause? <;> simp [TypeClause.pieces]

theorem lined_emitParameters {parameters : List Parameter}
    (h : ∀ slot ∈ parameters.flatMap (Parameter.slots scope), slot.Lined starts 0) :
    Lined starts (separated ", " (emitParameters scope parameters)) := by
  apply lined_separated
  induction parameters with
  | nil => simp [emitParameters]
  | cons parameter rest ih =>
    rw [List.flatMap_cons, List.forall_mem_append] at h
    obtain ⟨hparameter, hrest⟩ := h
    obtain ⟨name, default?, type?⟩ := parameter
    have htype : Lined starts (TypeClause.pieces type?) := lined_typeClause type?
    cases default? with
    | none => exact List.forall_mem_cons.mpr ⟨(lined_cons rfl).mpr htype, ih hrest⟩
    | some value =>
      have hvalue : Lined starts (value.emit scope) :=
        hparameter (.operand scope value) (by simp [Parameter.slots])
      refine List.forall_mem_cons.mpr ⟨?_, ih hrest⟩
      simp [hvalue, htype]

theorem FunctionLiteral.lined_section {f : FunctionLiteral} {name? : Option Piece}
    (hname : ∀ name ∈ name?, name.isBreak = false)
    (h : ∀ slot ∈ f.slots scope name?, slot.Lined starts 0) :
    ∀ sec ∈ (f.compound scope name?).sections,
      Lined starts sec.header ∧ Lined starts (sec.body.emit scope sec.line) := by
  simp only [slots, List.forall_mem_append, List.forall_mem_cons, Slot.lined_block] at h
  obtain ⟨⟨⟨-, -, hparameters⟩, -, -⟩, hbody, -⟩ := h
  have htype : Lined starts (TypeClause.pieces f.returnType?) := lined_typeClause _
  refine List.forall_mem_singleton.mpr ⟨?_, hbody⟩
  cases name? with
  | none => simp [toSection, lined_emitParameters hparameters, htype]
  | some name => simp [toSection, hname name rfl, lined_emitParameters hparameters, htype]

theorem lined_textOperands (position : Position) (lines : List String) :
    ∀ pieces ∈ Layout.textOperands position lines, Lined starts pieces := by
  have hliteral (line : String) :
      ∀ pieces ∈ Layout.textOperands.literal position line, Lined starts pieces := by
    unfold Layout.textOperands.literal
    split <;> simp
  induction lines using Layout.textOperands.induct with
  | case1 => simp [Layout.textOperands]
  | case2 line => exact hliteral line
  | case3 line next rest ih =>
    rw [Layout.textOperands, List.forall_mem_append]
    exact ⟨hliteral line, List.forall_mem_cons.mpr ⟨(lined_cons rfl).mpr trivial, ih⟩⟩

theorem lined_templateOperands {parts : List TemplatePart}
    (h : ∀ e, .expression e ∈ parts → Lined starts (e.emit scope)) :
    ∀ pieces ∈ templateOperands scope parts, Lined starts pieces := by
  induction parts with
  | nil => simp [templateOperands]
  | cons part rest ih =>
    specialize ih fun e he => h e (List.mem_cons_of_mem _ he)
    cases part with
    | text token => exact List.forall_mem_append.mpr ⟨lined_textOperands _ _, ih⟩
    | expression e =>
      refine List.forall_mem_cons.mpr ⟨?_, ih⟩
      simp [h e List.mem_cons_self]

theorem Layout.lined_concatenation (opening : Token) {operands : List (List Piece)}
    (h : ∀ pieces ∈ operands, Lined starts pieces) :
    Lined starts (concatenation opening operands) := by
  unfold concatenation
  split
  next => exact (lined_cons rfl).mpr trivial
  next => exact h _ (List.mem_singleton_self _)
  next => simp [lined_separated " + " h]

theorem Expression.lined_deferred {e : Expression}
    (h : ∀ slot ∈ e.slots scope, slot.Lined starts 0)
    (hown : LineStarts.Within (Site.Starts ⟨scope, ownerLine?, .expression e⟩) starts) :
    ∀ operand ∈ e.deferredOperands,
      Lined starts (Capture.deferred (scope.captured e.deferredOperands) (operand.emit scope)) := by
  intro operand hoperand
  apply Capture.lined_deferred
  · intro name hname
    exact hown _ _ _ (.binding (List.ne_nil_of_mem hoperand) hname)
  · exact hown _ _ _ (.returning hoperand)
  · exact hown _ _ _ (.functionEnd hoperand)
  · exact h _ (deferred_mem_slots hoperand)

/-- The operands of the helper that takes the place of a conditional or a coalescing expression. -/
def Expression.helperOperands (scope : Scope) (e : Expression) : List (List Piece) :=
  let captured := scope.captured e.deferredOperands
  e.directOperands.map (emit scope) ++
    if e.deferredOperands.isEmpty then []
    else Capture.scopeObject captured ::
      e.deferredOperands.map fun operand => Capture.deferred captured (operand.emit scope)

theorem Expression.exists_helperCall_conditional (scope : Scope) (test : Expression)
    (question : Token) (consequent : Expression) (colon : Token) (alternate : Expression) :
    let e : Expression := .conditional test question consequent colon alternate
    ∃ helper, e.emit scope = helperCall question.start helper (e.helperOperands scope) := by
  intro e
  rw [emit_conditional, helperOperands, deferredOperands, directOperands]
  split
  · exact ⟨.scopeSafeTernary, rfl⟩
  · exact ⟨.simpleTernary, rfl⟩

theorem Expression.exists_helperCall_coalesce (scope : Scope) (left : Expression)
    (operator : Token) (right : Expression) :
    let e : Expression := .coalesce left operator right
    ∃ helper, e.emit scope = helperCall operator.start helper (e.helperOperands scope) := by
  intro e
  rw [emit_coalesce, helperOperands, deferredOperands, directOperands]
  split
  · exact ⟨.scopeSafeCoalesce, rfl⟩
  · exact ⟨.simpleCoalesce, rfl⟩

theorem Expression.lined_helperOperands {e : Expression} (hflat : e.flattened? scope = none)
    (h : ∀ slot ∈ e.slots scope, slot.Lined starts 0)
    (hown : LineStarts.Within (Site.Starts ⟨scope, ownerLine?, .expression e⟩) starts) :
    ∀ pieces ∈ e.helperOperands scope, Lined starts pieces := by
  rw [helperOperands, List.forall_mem_append, List.forall_mem_map]
  refine ⟨fun operand hoperand => h _ (operand_mem_slots hflat hoperand), ?_⟩
  split
  · simp
  · rw [List.forall_mem_cons, List.forall_mem_map]
    exact ⟨Capture.lined_scopeObject _, lined_deferred h hown⟩

theorem Expression.lined_array {opening closing : Token} {elements : List Expression}
    (h : ∀ slot ∈ slots scope (.array opening elements closing), slot.Lined starts 1)
    (hown : LineStarts.Within
      (Site.Starts ⟨scope, ownerLine?, .expression (.array opening elements closing)⟩) starts) :
    Lined starts (emit scope (.array opening elements closing)) := by
  rw [emit]
  apply Layout.lined_array
  · intro item hitem
    refine ⟨hown _ _ _ (.item rfl hitem), ?_⟩
    rw [elementItems_eq_map] at hitem
    obtain ⟨e, he, rfl⟩ := List.mem_map.mp hitem
    exact h _ (List.mem_append_left _ (List.mem_cons_of_mem _ (List.mem_map_of_mem he)))
  · exact fun hne => hown _ _ _ (.bracket (b := ⟨opening, _, closing⟩) rfl hne)

theorem Expression.lined_record {opening closing : Token} {members : List Member}
    (h : ∀ slot ∈ slots scope (.record opening members closing), slot.Lined starts 1)
    (hown : LineStarts.Within
      (Site.Starts ⟨scope, ownerLine?, .expression (.record opening members closing)⟩) starts) :
    Lined starts (emit scope (.record opening members closing)) := by
  rw [emit, Layout.record_eq_array]
  apply Layout.lined_array
  · intro item hitem
    refine ⟨hown _ _ _ (.item rfl hitem), ?_⟩
    rw [memberItems_eq_map_outline] at hitem
    obtain ⟨m, hm, rfl⟩ := List.mem_map.mp hitem
    cases m with
    | comment c =>
      refine Comment.lined fun t ht => hown _ _ _ (.comment (c := c) ?_ ht)
      exact List.mem_filterMap.mpr ⟨_, hm, rfl⟩
    | pair key colon value =>
      have hvalue : Lined (starts.below 1) (value.emit scope) := by
        have hmem := List.mem_flatMap_of_mem (f := Member.slots scope) hm
          (by simp [Member.slots] : .operand scope value ∈ _)
        exact h _ (List.mem_append_left _ (List.mem_cons_of_mem _ hmem))
      exact (lined_cons rfl).mpr ((lined_cons rfl).mpr ((lined_cons rfl).mpr hvalue))
  · exact fun hne => hown _ _ _ (.bracket (b := ⟨opening, _, closing⟩) rfl hne)

theorem Expression.lined {e : Expression}
    (h : ∀ slot ∈ e.slots scope, slot.Lined starts (Tree.expression e).indents)
    (hown : LineStarts.Within (Site.Starts ⟨scope, ownerLine?, .expression e⟩) starts) :
    Lined starts (e.emit scope) := by
  cases e with
  | function f =>
    rw [emit, f.emit_eq_compound]
    refine Compound.lined rfl (fun front sec after hsections => ?_)
      (FunctionLiteral.lined_section (by simp) h)
    exact hown _ _ _ (.keyword rfl hsections)
  | comment c =>
    exact Comment.lined fun t ht => hown _ _ _ (.comment (List.mem_singleton_self c) ht)
  | array => exact lined_array h hown
  | record => exact lined_record h hown
  | member object dot name =>
    rw [emit_member]
    rw [slots] at h
    cases hflat : flattened? scope (.member object dot name) with
    | some piece =>
      obtain ⟨position, text, rfl⟩ := eq_written_of_flattened? hflat
      simp
    | none =>
      simp_all [Tree.indents]
  | conditional test question consequent colon alternate =>
    obtain ⟨helper, hcall⟩ :=
      exists_helperCall_conditional scope test question consequent colon alternate
    rw [hcall]
    exact lined_helperCall _ _ (lined_helperOperands rfl h hown)
  | coalesce left operator right =>
    obtain ⟨helper, hcall⟩ := exists_helperCall_coalesce scope left operator right
    rw [hcall]
    exact lined_helperCall _ _ (lined_helperOperands rfl h hown)
  | template opening parts closing =>
    refine Layout.lined_concatenation opening (lined_templateOperands fun e he => ?_)
    exact h _ (operand_mem_slots rfl (List.mem_filterMap.mpr ⟨_, he, rfl⟩))
  | call callee opening arguments closing =>
    have hcallee : Lined starts (callee.emit scope) :=
      h _ (operand_mem_slots rfl List.mem_cons_self)
    have harguments : Lined starts (separated ", " (emitArguments scope arguments)) :=
      lined_emitArguments fun e he =>
        h _ (operand_mem_slots rfl (List.mem_cons_of_mem callee he))
    simp [emit, hcallee, harguments]
  | callfunc receiver operator method opening arguments closing =>
    have hreceiver : Lined starts (receiver.emit scope) :=
      h _ (operand_mem_slots rfl List.mem_cons_self)
    have harguments : Lined starts (separated ", " (emitArguments scope arguments)) :=
      lined_emitArguments fun e he =>
        h _ (operand_mem_slots rfl (List.mem_cons_of_mem receiver he))
    rw [emit]
    split <;> simp [hreceiver, harguments]
  | construct keyword className opening arguments closing =>
    have harguments : Lined starts (separated ", " (emitArguments scope arguments)) :=
      lined_emitArguments fun e he => h _ (operand_mem_slots rfl he)
    simp [emit, harguments]
  | _ =>
    simp_all [slots, emit, Tree.indents, or_imp, forall_and]

theorem Assignment.lined {a : Assignment} (h : ∀ slot ∈ a.slots scope, slot.Lined starts 0) :
    Lined starts (a.emit scope) := by
  obtain ⟨name, operator, value⟩ := a
  simpa [slots, emit] using h

theorem lined_emitItems {items : List PrintItem}
    (h : ∀ slot ∈ items.flatMap (PrintItem.slots scope), slot.Lined starts 0) :
    Lined starts (separated " ; " (emitItems scope items)) := by
  apply lined_separated
  induction items with
  | nil => simp [emitItems]
  | cons item rest ih =>
    rw [List.flatMap_cons, List.forall_mem_append] at h
    obtain ⟨hitem, hrest⟩ := h
    cases item with
    | separator => exact ih hrest
    | expression e =>
      exact List.forall_mem_cons.mpr ⟨hitem _ (List.mem_singleton_self _), ih hrest⟩

theorem lined_body {statements : Body} (h : ∀ s ∈ statements, Lined starts (s.emit scope))
    (hfollower : ∀ blank front previous s back, statements = front ++ previous :: s :: back →
      starts blank 0 (s.emit scope)) :
    Lined starts (Layout.body (statementItems scope statements)) := by
  cases statements with
  | nil => trivial
  | cons first rest =>
    obtain ⟨hfirst, hrest⟩ := List.forall_mem_cons.mp h
    refine hfirst.append (Layout.lined_bodyItems _ ?_)
    rw [statementItems_eq_map, List.forall_mem_map]
    intro s hs
    obtain ⟨front, back, rfl⟩ := List.append_of_mem hs
    have hprevious := congrArg (· ++ s :: back)
      (List.dropLast_append_getLast (List.cons_ne_nil first front))
    exact ⟨fun blank => hfollower blank _ _ s back (by simpa using hprevious.symm), hrest s hs⟩

/-- The headers and blocks of a statement are parts of it. -/
theorem Statement.lined_sections {s : Statement}
    (h : ∀ slot ∈ s.slots scope, slot.Lined starts 0) {c : Compound}
    (hc : s.compound? scope = some c) : ∀ sec ∈ c.sections,
      Lined starts sec.header ∧ Lined starts (sec.body.emit scope sec.line) := by
  cases s with
  | branch first condition then? body elseIfs else? end? =>
    obtain rfl := Option.some.inj hc
    simp only [slots, List.forall_mem_append, List.forall_mem_cons, Slot.lined_block,
      Slot.lined_operand] at h
    obtain ⟨⟨⟨⟨-, hcondition, -⟩, hbody, hclauses⟩, helse⟩, -⟩ := h
    rw [List.forall_mem_append, List.forall_mem_cons, List.forall_mem_map, List.forall_mem_map]
    refine ⟨⟨⟨?_, hbody⟩, ?_⟩, ?_⟩
    · simp [conditionSection, hcondition]
    · intro clause hclause
      have hcondition : Lined starts (clause.condition.emit scope) :=
        hclauses (.operand scope clause.condition)
          (List.mem_flatMap_of_mem hclause (by simp [ElseIf.slots]))
      refine ⟨by simp [ElseIf.toSection, conditionSection, hcondition], hclauses
        (.block scope clause.range.start.line clause.body) ?_⟩
      exact List.mem_flatMap_of_mem hclause (by simp [ElseIf.slots])
    · intro clause hclause
      refine ⟨trivial, helse (.block scope clause.range.start.line clause.body) ?_⟩
      exact List.mem_flatMap_of_mem hclause (by simp [Else.slots])
  | forLoop first counter toToken limit step? body endToken =>
    obtain rfl := Option.some.inj hc
    simp only [slots, List.forall_mem_append, List.forall_mem_cons, Slot.lined_block,
      Slot.lined_operand] at h
    obtain ⟨⟨⟨-, hcounter⟩, -, hlimit, hstep⟩, hbody, -⟩ := h
    refine List.forall_mem_singleton.mpr ⟨?_, hbody⟩
    cases step? with
    | none => simp [Assignment.lined hcounter, hlimit]
    | some step =>
      have hamount : Lined starts (step.amount.emit scope) := by simpa [ForStep.slots] using hstep
      simp [Assignment.lined hcounter, hlimit, hamount]
  | forEach | whileLoop =>
    obtain rfl := Option.some.inj hc
    simp_all [slots]
  | tryCatch =>
    obtain rfl := Option.some.inj hc
    simp_all [slots]
  | function name f =>
    obtain rfl := Option.some.inj hc
    exact FunctionLiteral.lined_section (by simp) h
  | _ => cases hc

theorem Statement.isBreak_closing {s : Statement} {c : Compound} (hc : s.compound? scope = some c) :
    c.closing.isBreak = false := by
  cases s with
  | branch | forLoop | forEach | whileLoop | tryCatch | function =>
    obtain rfl := Option.some.inj hc
    simp [FunctionLiteral.compound]
  | _ => cases hc

theorem Statement.lined {s : Statement} (h : ∀ slot ∈ s.slots scope, slot.Lined starts 0)
    (hown : LineStarts.Within (Site.Starts ⟨scope, ownerLine?, .statement s⟩) starts) :
    Lined starts (s.emit scope) := by
  cases hcompound : s.compound? scope with
  | some c =>
    rw [emit_eq_compound hcompound]
    apply Compound.lined (isBreak_closing hcompound)
    · intro front sec after hsections
      exact hown _ _ _ (.keyword hcompound hsections)
    · exact lined_sections h hcompound
  | none =>
    cases s with
    | branch | forLoop | forEach | whileLoop | tryCatch | function => cases hcompound
    | comment c =>
      exact Comment.lined fun t ht => hown _ _ _ (.comment (List.mem_singleton_self c) ht)
    | assignment a => exact Assignment.lined h
    | print first items =>
      rw [slots, List.forall_mem_cons] at h
      rw [emit]
      split
      · simp
      · simp [lined_emitItems h.2]
    | returning first value? => cases value? <;> simp_all [slots, emit]
    | namespaceBlock first name body endToken =>
      apply lined_body
      · exact fun s hs => h _ (List.mem_map_of_mem hs)
      · intro blank front previous s back hbody
        subst hbody
        exact hown _ _ _ (.follower blank rfl)
    | _ => simp_all [slots, emit]

end Nodes

/-! ## Sites -/

namespace Site

variable {starts : LineStarts} {site : Site}

/-- The lines of a site start as it and its parts have them start. -/
theorem lined_of_parts (h : ∀ slot ∈ site.slots, slot.Lined starts site.tree.indents)
    (hown : LineStarts.Within site.Starts starts) :
    Lined starts site.emit := by
  obtain ⟨scope, ownerLine?, tree⟩ := site
  cases tree with
  | body statements =>
    apply lined_body
    · exact fun s hs => h _ (List.mem_map_of_mem hs)
    · intro blank front previous s back hbody
      subst hbody
      exact hown _ _ _ (.follower blank rfl)
  | block b =>
    obtain ⟨start, statements⟩ := b
    refine (Layout.lined_blockItems ownerLine? none ?_).shift
    rw [statementItems_eq_map, List.forall_mem_map]
    exact fun s hs => ⟨hown _ _ _ (.statement rfl hs), h _ (List.mem_map_of_mem hs)⟩
  | statement s => exact Statement.lined h hown
  | expression e => exact Expression.lined h hown

/-- What lines of the site start with, its parts included. -/
def lineStarts (site : Site) : LineStarts := fun blank indents item =>
  ∃ owner levels own, site.Lies owner levels ∧ owner.Starts blank own item ∧
    indents = own + levels

theorem lined (site : Site) : Lined site.lineStarts site.emit := by
  induction site using WellFounded.induction (measure fun site : Site => sizeOf site.tree).wf with
  | _ site ih =>
    apply lined_of_parts
    · intro slot hslot
      cases slot with
      | own => trivial
      | part part literals =>
        refine (ih part (site.allFit _ hslot).1).mono ?_
        rintro blank indents item ⟨owner, levels, own, hlies, hstarts, rfl⟩
        exact ⟨owner, _, own, .part hslot hlies, hstarts, Nat.add_assoc ..⟩
    · exact fun blank indents item hstarts => ⟨site, 0, indents, .self site, hstarts, rfl⟩

end Site

end Downlevel
