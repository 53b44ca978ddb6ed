import Downlevel.Proofs.CommentPlaces
import Downlevel.Proofs.Erasure
import Downlevel.Proofs.LineStarts

/-!
# Margins

The text for a tree keeps its margins: whatever starts a line stands as many levels to the right as
it lies below the tree. Statements stand one level below what they are in. The keywords behind
blocks, the ends of functions and closing brackets stand where the line began on which they are
opened, or would have begun.

Main statement: line breaks are followed by the indentation of the next item, statements of blocks
start lines, and so does whatever closes a block or a literal (`State.emit_starts_lines`).
-/

namespace Downlevel

open Piece (newLine nested)

/-! ## Constructs -/

namespace Layout

theorem blockItems_split (ownerLine? : Option Nat) (previous? : Option Range) (front : List Item)
    (item : Item) (back : List Item) :
    ∃ joined rest, (joined = true → item.isComment = true) ∧
      blockItems ownerLine? previous? (front ++ item :: back) =
        blockItems ownerLine? previous? front ++ (if joined then [.text " "] else newLine) ++
          item.pieces ++ rest := by
  induction front generalizing previous? with
  | nil => exact ⟨_, _, fun hjoined => (Bool.and_eq_true_iff.mp hjoined).1, rfl⟩
  | cons first front ih =>
    obtain ⟨joined, rest, hjoined, heq⟩ := ih (some first.range)
    refine ⟨joined, rest, hjoined, ?_⟩
    simp only [List.cons_append, blockItems, heq, List.append_assoc]

end Layout

/-- What is written for a block up to one of its statements. -/
theorem Block.exists_infix (scope : Scope) (ownerLine? : Option Nat) (start : Position)
    (front : List Statement) (s : Statement) (back : List Statement) :
    ∃ joined, (joined = true → s.isComment = true) ∧
      emit scope ownerLine? ⟨start, front⟩ ++
        nested ((if joined then [.text " "] else newLine) ++ s.emit scope) <:+:
      emit scope ownerLine? ⟨start, front ++ s :: back⟩ := by
  obtain ⟨joined, rest, hjoined, hsplit⟩ := Layout.blockItems_split ownerLine? none
    (front.map (Statement.item scope)) (s.item scope) (back.map (Statement.item scope))
  refine ⟨joined, fun h => (s.isComment_item _).symm.trans (hjoined h), ?_⟩
  have hemit (statements : List Statement) : emit scope ownerLine? ⟨start, statements⟩ =
      nested (Layout.blockItems ownerLine? none (statements.map (Statement.item scope))) :=
    congrArg (Layout.block ownerLine?) (statementItems_eq_map statements)
  rw [hemit, hemit, List.map_append, List.map_cons, hsplit, nested, nested, nested,
    ← List.map_append, List.append_assoc _ _ (Item.pieces _)]
  exact (List.prefix_append _ rest).isInfix.map _

theorem Site.emit_eq_bracketed {site : Site} {b : Bracketed} (h : site.bracketed? = some b) :
    site.emit = b.pieces := by
  obtain ⟨scope, ownerLine?, tree⟩ := site
  cases tree with
  | expression e =>
    cases e with
    | array =>
      obtain rfl := Option.some.inj h
      rfl
    | record opening members closing =>
      obtain rfl := Option.some.inj h
      exact Layout.record_eq_array opening (memberItems scope members) closing
    | _ => cases h
  | _ => cases h

theorem Bracketed.pieces_eq {b : Bracketed} (h : b.items ≠ []) :
    b.pieces = b.opening.piece :: nested (Layout.arrayItems b.opening.range b.items) ++ newLine ++
      [b.closing.piece] := by
  rw [pieces, Layout.array, List.isEmpty_eq_false_iff.mpr h]
  rfl

/-- A deferred operand is written with the end of its function literal behind it. -/
theorem Site.infix_functionEnd {site : Site} {operand : Expression}
    (h : operand ∈ site.deferredOperands) :
    nested (operand.emit site.scope) ++ newLine ++ [.text "end function"] <:+: site.emit := by
  obtain ⟨scope, ownerLine?, tree⟩ := site
  cases tree with
  | expression e =>
    obtain ⟨position, helper, test, hcall⟩ :=
      @Expression.emit_of_deferredOperands scope e (List.ne_nil_of_mem h)
    have hend := Capture.suffix_deferred (scope.captured e.deferredOperands) (operand.emit scope)
    show _ <:+: e.emit scope
    rw [hcall]
    refine hend.isInfix.trans (infix_helperCall position helper ?_)
    exact List.mem_cons_of_mem _ (List.mem_cons_of_mem _ (List.mem_map_of_mem h))
  | _ => cases h

theorem Compound.infix_next (scope : Scope) {c : Compound} {front : List Section} {sec : Section}
    {after : List Section} (h : c.sections = front ++ sec :: after) :
    sec.pieces scope ++ [sec.lineEnd, .indent 0, c.next after] <:+: c.pieces scope := by
  obtain ⟨rest, hrest⟩ := exists_next scope c after
  refine ⟨front.flatMap fun sec => sec.pieces scope ++ [sec.lineEnd, .indent 0], rest, ?_⟩
  rw [pieces, h, List.flatMap_append, List.flatMap_cons, List.append_assoc, List.append_assoc,
    List.append_assoc (List.flatMap _ front), List.append_assoc (_ ++ _), hrest]
  simp

/-! ## The text -/

namespace State

variable {s : State} {tree : Tree}

/-- In the text for the tree, what stands in the given site and what closes it starts a line. -/
structure StartsLines (s : State) (tree : Tree) (owner : Site) (levels : Nat) : Prop where
  /-- The blocks of a construct lie as deep as the construct. -/
  block : ∀ c sec, owner.compound? = some c → sec ∈ c.sections →
    (s.site tree).Lies ⟨owner.scope, some sec.line, .block sec.body⟩ levels
  /-- A statement of a block starts a line one level further down, except for comments that are
  joined to what is before them. -/
  statement : ∀ start front st back, owner.tree = .block ⟨start, front ++ st :: back⟩ →
    ∃ joined first last, (joined = true → st.isComment = true) ∧
      let here : State := { s with depth := s.depth + levels }
      let inside : State := { s with depth := s.depth + levels + 1 }
      (s.emit tree).1 = first ++
        here.render (Block.emit owner.scope owner.ownerLine? ⟨start, front⟩) ++
        (if joined then [.plain " "] else inside.lineStart false) ++
        inside.render (st.emit owner.scope) ++ last
  /-- The keyword behind a section starts a line, except where the options have it stand behind an
  empty block. -/
  keyword : ∀ c front sec after, owner.compound? = some c →
    c.sections = front ++ sec :: after →
    ∃ first last, let here : State := { s with depth := s.depth + levels }
      (s.emit tree).1 = first ++ here.render (sec.pieces owner.scope) ++
        (if sec.isOptional && sec.body.statements.isEmpty &&
            !s.options.newlineBeforeEmptyBlockEnd then
          [.plain (Piece.indentation s.options.indentUnit here.depth)]
        else here.lineStart false) ++ here.render [c.next after] ++ last
  /-- The closing bracket of a literal that is not empty starts a line. -/
  bracket : ∀ b, owner.bracketed? = some b → b.items ≠ [] →
    ∃ first last, let here : State := { s with depth := s.depth + levels }
      (s.emit tree).1 = first ++
        here.render (b.opening.piece :: nested (Layout.arrayItems b.opening.range b.items)) ++
        here.lineStart false ++ here.render [b.closing.piece] ++ last
  /-- The end of a function literal around a deferred operand starts a line. -/
  functionEnd : ∀ operand ∈ owner.deferredOperands,
    ∃ first last, let here : State := { s with depth := s.depth + levels }
      let inside : State := { s with depth := s.depth + levels + 1 }
      (s.emit tree).1 = first ++ inside.render (operand.emit owner.scope) ++
        here.lineStart false ++ .plain "end function" :: last

theorem render_newLine (s : State) : s.render newLine = s.lineStart false :=
  s.render_lineStart false

theorem render_indent (s : State) (blank : Bool) (levels : Nat) :
    .plain s.options.newLine.text ::
        s.render ((if blank then [.lineBreak] else []) ++ [.indent levels]) =
      State.lineStart { s with depth := s.depth + levels } blank := by
  cases blank <;>
    simp [render, Piece.renderAll, Piece.shift, Piece.render, lineStart, Nat.add_comm levels]

theorem render_lineEnd (s : State) (sec : Section) (next : Piece) :
    s.render [sec.lineEnd, .indent 0, next] =
      (if sec.isOptional && sec.body.statements.isEmpty &&
          !s.options.newlineBeforeEmptyBlockEnd then
        [.plain (Piece.indentation s.options.indentUnit s.depth)]
      else s.lineStart false) ++ s.render [next] := by
  show s.render ([_, _] ++ [next]) = _
  rw [render_append, Section.lineEnd]
  congr 1
  cases sec.isOptional && sec.body.statements.isEmpty with
  | false => simp [render, Piece.renderAll, Piece.shift, Piece.render, lineStart]
  | true =>
    cases hoption : s.options.newlineBeforeEmptyBlockEnd <;>
      simp [render, Piece.renderAll, Piece.shift, Piece.render, lineStart, hoption]

theorem startsLines {owner : Site} {levels : Nat} (hlies : (s.site tree).Lies owner levels) :
    s.StartsLines tree owner levels where
  block := by
    intro c sec hc hsec
    have hblock := hlies.trans (Site.lies_block hc hsec)
    rwa [Nat.zero_add] at hblock
  statement := by
    intro start front st back htree
    obtain ⟨scope, ownerLine?, _⟩ := owner
    cases htree
    obtain ⟨joined, hjoined, hinfix⟩ := Block.exists_infix scope ownerLine? start front st back
    obtain ⟨first, last, hemit⟩ := exists_render_of_infix hlies hinfix
    refine ⟨joined, first, last, hjoined, ?_⟩
    intro here inside
    have hstart : inside.render (if joined then [.text " "] else newLine) =
        if joined then [.plain " "] else inside.lineStart false := by
      cases joined
      · exact inside.render_newLine
      · rfl
    rw [hemit, render_append, render_nested, render_append, ← hstart]
    simp only [List.append_assoc, here, inside]
  keyword := by
    intro c front sec after hc hsections
    have hinfix := Compound.infix_next owner.scope hsections
    rw [← Site.emit_eq_compound hc] at hinfix
    obtain ⟨first, last, hemit⟩ := exists_render_of_infix hlies hinfix
    refine ⟨first, last, ?_⟩
    rw [hemit, render_append, render_lineEnd]
    simp only [List.append_assoc]
  bracket := by
    intro b hb hne
    obtain ⟨first, last, hemit⟩ := exists_render_of_infix hlies (List.infix_refl owner.emit)
    refine ⟨first, last, ?_⟩
    rw [hemit, Site.emit_eq_bracketed hb, b.pieces_eq hne, render_append, render_append,
      render_newLine]
    simp only [List.append_assoc]
  functionEnd := by
    intro operand hoperand
    obtain ⟨first, last, hemit⟩ :=
      exists_render_of_infix hlies (Site.infix_functionEnd hoperand)
    refine ⟨first, last, ?_⟩
    rw [hemit, render_append, render_append, render_nested, render_newLine]
    simp only [List.append_assoc]
    rfl

/-- The piece writes a line break. -/
def Breaks (s : State) (piece : Piece) : Prop :=
  piece = .lineBreak ∨ piece = .emptyBlockBreak ∧ s.options.newlineBeforeEmptyBlockEnd = true

theorem render_of_breaks {piece : Piece} (h : s.Breaks piece) :
    s.render [piece] = [.plain s.options.newLine.text] := by
  rcases h with rfl | ⟨rfl, hoption⟩
  · rfl
  · simp [render, Piece.renderAll, Piece.shift, Piece.render, hoption]

/-- Behind what is written for the pieces, the text for the tree goes on with the start of a line:
with something that a part of the tree has lines start with, indented as deep as it lies there. -/
def StartsLineBehind (s : State) (tree : Tree) (before : List Piece) : Prop :=
  ∃ owner levels blank own item rest, (s.site tree).Lies owner levels ∧
    owner.Starts blank own item ∧
    let here : State := { s with depth := s.depth + (own + levels) }
    (s.emit tree).1 = s.render before ++ here.lineStart blank ++ here.render item ++ rest

theorem startsLineBehind {before after : List Piece} {piece : Piece}
    (hpieces : s.pieces tree = before ++ piece :: after) (hbreaks : s.Breaks piece) :
    s.StartsLineBehind tree before := by
  have hlined : Lined (s.site tree).lineStarts (before ++ piece :: after) :=
    hpieces ▸ (s.site tree).lined
  have hbreak : piece.isBreak = true := by
    rcases hbreaks with rfl | ⟨rfl, -⟩ <;> rfl
  obtain ⟨blank, _, item, rest, ⟨owner, levels, own, hlies, hstarts, rfl⟩, hafter⟩ :=
    hlined.continues hbreak
  refine ⟨owner, levels, blank, own, item, s.render rest, hlies, hstarts, ?_⟩
  intro here
  have hitem : here.render item = s.render (item.map (Piece.shift (own + levels))) :=
    (Piece.renderAll_shift ..).symm
  have hemit : (s.emit tree).1 = s.render (before ++ ([piece] ++
      ((if blank then [.lineBreak] else []) ++ [.indent (own + levels)])) ++
      item.map (Piece.shift (own + levels)) ++ rest) := by
    show s.render (s.pieces tree) = _
    rw [hpieces, hafter]
    simp
  have hstart := s.render_indent blank (own + levels)
  rw [hemit, hitem, ← hstart, render_append, render_append, render_append,
    render_append s [piece], render_of_breaks hbreaks]
  rfl

/-- Every line break that emission writes is followed by an indentation, or by a second line break
and an indentation where a statement of a body stands behind another one. The indentation is that
of what comes next, which is something that the tree has lines start with. Statements of blocks,
keywords behind blocks, the ends of functions and closing brackets start lines, each as many levels
below the tree as it lies; only comments may be joined to what is before them, and only where the
options say so is there no line break behind an empty block. -/
theorem emit_starts_lines (s : State) (tree : Tree) :
    (∀ before piece after, s.pieces tree = before ++ piece :: after → s.Breaks piece →
      s.StartsLineBehind tree before) ∧
    ∀ owner levels, (s.site tree).Lies owner levels → s.StartsLines tree owner levels :=
  ⟨fun _ _ _ => startsLineBehind, fun _ _ => startsLines⟩

/-- The statement in `if x then` and the keyword behind it. -/
theorem emit_starts_lines_branch :
    let token (text : String) (line column : Nat) : Token :=
      .ofStart .identifier text ⟨line, column⟩
    let s : State := ⟨{}, .none, "", 0, [], {}⟩
    let body : Block := ⟨⟨0, 4⟩, [.keyword .stopProgram (token "stop" 1 2)]⟩
    let tree : Tree :=
      .statement (.branch (token "if" 0 0) (.identifier (token "x" 0 3)) none body [] none none)
    let header : List Piece :=
      [(token "if" 0 0).piece, .text " ", (token "x" 0 3).piece, .text " ", .text "then"]
    let block : Site := ⟨s.scope, some 0, .block body⟩
    s.pieces tree = header ++ .lineBreak :: [.indent 1, .written ⟨1, 2⟩ "stop", .lineBreak,
      .indent 0, .text "end if"] ∧ s.StartsLineBehind tree header ∧
    (s.site tree).Lies block 0 ∧ s.StartsLines tree block 0 := by
  intro token s body tree header block
  obtain ⟨hbreaks, hlies⟩ := emit_starts_lines s tree
  have hblock : (s.site tree).Lies block 0 :=
    (hlies _ 0 (.self _)).block _ _ rfl List.mem_cons_self
  exact ⟨rfl, hbreaks header .lineBreak _ rfl (.inl rfl), hblock, hlies block 0 hblock⟩

end State

end Downlevel
