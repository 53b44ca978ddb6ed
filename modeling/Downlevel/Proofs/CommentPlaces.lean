import Downlevel.Proofs.BlankLines
import Downlevel.Proofs.Levels
import Downlevel.Proofs.SourceOrder
import Downlevel.Proofs.WrittenTrees

/-!
# Where comments are written

Blocks, bodies and literals each look at other things to find out whether a comment stays on the
line of what is before it. In a tree in source order they all mean the same: the comment starts on
the line on which its predecessor ends. The test of a block against its owner's line, which is made
for every comment and not only for the first one, makes no difference then: a comment on that line
has its predecessor on that line, too.

Main statement: in a tree in source order a comment stays on the line of its predecessor exactly if
it starts on the line on which that ends (`State.emit_places_comments`).
-/

namespace Downlevel

open Piece (newLine nested)

/-! ## Sequences -/

/-- What a sequence stands in. -/
inductive Sequence.Kind where
  /-- The block of a section. -/
  | block (sec : Section)
  /-- A file or a namespace. -/
  | body
  /-- A literal with the given opening bracket. -/
  | literal (opening : Token)

/-- A sequence of items in which comments may stand. -/
structure Sequence where
  kind : Sequence.Kind
  items : List Item

namespace Sequence

/-- Everything that is written for the sequence, from what opens it on. -/
def pieces (q : Sequence) : List Piece :=
  match q.kind with
  | .block sec =>
    sec.keyword.piece :: sec.header ++ nested (Layout.blockItems sec.line none q.items)
  | .body => Layout.body q.items
  | .literal opening => opening.piece :: nested (Layout.arrayItems opening.range q.items)

/-- What opens the sequence; nothing opens a body. -/
def opening? (q : Sequence) : Option (List Piece) :=
  match q.kind with
  | .block sec => some (sec.keyword.piece :: sec.header)
  | .body => none
  | .literal opening => some [opening.piece]

/-- How many levels the items are below what opens the sequence. -/
def levels (q : Sequence) : Nat :=
  match q.kind with
  | .body => 0
  | _ => 1

/-- What is written behind an item before the separator. -/
def comma (q : Sequence) (item : Item) (rest : List Item) : List Piece :=
  match q.kind with
  | .literal _ => Layout.comma item rest
  | _ => []

/-- A comment in front of the given items documents a declaration of a body. -/
def documents (q : Sequence) (rest : List Item) : Bool :=
  match q.kind with
  | .body => rest.head?.any Item.isDeclaration
  | _ => false

/-- What separates a comment from its predecessor. -/
def separator (q : Sequence) (previous comment : Range) (rest : List Item) : List Piece :=
  if comment.start.line = previous.stop.line then [.text " "]
  else if q.documents rest then .lineBreak :: newLine else newLine

/-- A comment at the given range, as the first item, stays on the line of what opens the
sequence. -/
def opensWith (q : Sequence) (comment : Range) : Bool :=
  match q.kind with
  | .block sec => comment.meetsLine sec.keyword.start.line
  | .body => false
  | .literal opening => opening.range.touches comment

end Sequence

/-- The sequences that a node has. -/
def Node.sequences (scope : Scope) : Node → List Sequence
  | .body statements => [⟨.body, statements.map (Statement.item scope)⟩]
  | .statement s =>
    (s.compound? scope).toList.flatMap fun c => c.sections.map fun sec =>
      ⟨.block sec, sec.body.statements.map (Statement.item scope)⟩
  | .expression (.function f) =>
    (f.compound scope none).sections.map fun sec =>
      ⟨.block sec, sec.body.statements.map (Statement.item scope)⟩
  | .expression (.array opening elements _) =>
    [⟨.literal opening, elements.map fun e => e.outline.item (e.emit scope)⟩]
  | .expression (.record opening members _) =>
    [⟨.literal opening, members.map fun m => m.outline.item (m.pieces scope)⟩]
  | _ => []

/-! ## Source order -/

namespace Range

variable {a b : Range} {ranges before after : List Range}

theorem Sequential.infix (before after : List Range) (h : Sequential (before ++ ranges ++ after)) :
    Sequential ranges := by
  obtain ⟨hordered, hchain⟩ := h
  refine ⟨fun a ha => hordered a (by simp [ha]), ?_⟩
  exact (hchain.left_of_append).right_of_append

theorem line_le_of_le {p q : Position} (h : p ≤ q) : p.line ≤ q.line := by
  rw [Position.le_iff] at h
  omega

/-- Ranges that follow each other touch exactly if the second one starts on the line on which the
first one ends. -/
theorem touches_iff (ha : a.IsOrdered) (hb : b.IsOrdered) (h : a.stop ≤ b.start) :
    a.touches b = true ↔ b.start.line = a.stop.line := by
  have hstart := line_le_of_le ha
  have hstep := line_le_of_le h
  have hstop := line_le_of_le hb
  rw [touches, Bool.or_eq_true, beq_iff_eq, beq_iff_eq]
  omega

theorem touches_comm (a b : Range) : a.touches b = b.touches a := by
  rw [touches, touches, Bool.or_comm]

/-- A range that starts or ends on a line above starts on the line on which its predecessor ends. -/
theorem line_of_meetsLine {line : Nat} (ha : a.IsOrdered) (hb : b.IsOrdered) (h : a.stop ≤ b.start)
    (hline : line ≤ a.start.line) (hmeets : b.meetsLine line = true) :
    b.start.line = a.stop.line := by
  have hstart := line_le_of_le ha
  have hstep := line_le_of_le h
  have hstop := line_le_of_le hb
  rw [meetsLine, Bool.or_eq_true, beq_iff_eq, beq_iff_eq] at hmeets
  omega

theorem Sequential.consecutive (h : Sequential (before ++ a :: b :: after)) :
    a.IsOrdered ∧ b.IsOrdered ∧ a.stop ≤ b.start := by
  have hpair : Sequential [a, b] := Sequential.infix before after (by simpa using h)
  obtain ⟨hordered, hchain⟩ := hpair
  exact ⟨hordered a (by simp), hordered b (by simp), (List.isChain_cons_cons.mp hchain).1⟩

theorem Sequential.start_le (h : Sequential (before ++ a :: after)) (hb : b ∈ after) :
    a.start ≤ b.start := by
  have ha : a.start ≤ a.stop := h.1 a (by simp)
  have hpairwise := (List.pairwise_append.mp h.pairwise).2.1
  exact Std.le_trans ha ((List.pairwise_cons.mp hpairwise).1 b hb)

end Range

/-- A section opens on the line of its keyword, and its statements are in order behind that. -/
structure Section.Ordered (sec : Section) : Prop where
  line_eq : sec.line = sec.keyword.start.line
  statements : Range.Sequential (sec.body.statements.map Statement.range)
  start_le : ∀ s ∈ sec.body.statements, sec.keyword.start ≤ s.range.start

namespace Node.InOrder

variable {n : Node} {keyword : Token} {after : List Part}

theorem start_eq (h : n.InOrder) (hparts : n.parts = .token keyword :: after) {r : Range}
    (hr : n.range? = some r) : r.start = keyword.start := by
  have hspan := range?_eq_span? (h n (.self n))
  rw [hr, partRanges, hparts, List.filterMap_cons_some (Part.range?_token keyword)] at hspan
  cases hspan
  rfl

/-- The statements of a block behind a keyword. -/
theorem block_behind (h : n.InOrder) (before : List Part)
    (hparts : n.parts = before ++ .token keyword :: after) {b : Block} (hb : .block b ∈ after) :
    Range.Sequential (b.statements.map Statement.range) ∧
      ∀ s ∈ b.statements, keyword.start ≤ s.range.start := by
  have hmem : Part.block b ∈ n.parts := by simp [hparts, hb]
  have hblock : (Node.block b).InOrder := h.holds (holds_of_mem_parts hmem)
  have hsequential := hblock _ (.self _)
  have hkeyword : keyword.start ≤ b.range.start := by
    have hranges := h n (.self n)
    rw [partRanges, hparts, List.filterMap_append,
      List.filterMap_cons_some (Part.range?_token keyword)] at hranges
    exact hranges.start_le (List.mem_filterMap.mpr ⟨_, hb, rfl⟩)
  constructor
  · have hranges : (Node.block b).partRanges =
        [.point b.start] ++ b.statements.map Statement.range ++ [] := by
      simp [partRanges, parts, range?, Function.comp_def]
    rw [hranges] at hsequential
    exact Range.Sequential.infix _ _ hsequential
  · intro s hs
    have hpart : Part.node (.statement s) ∈ (Node.block b).parts := by simp [parts, hs]
    obtain ⟨r, hr, hcontains⟩ := contains_of_mem_parts hsequential hpart rfl
    cases hr
    exact Std.le_trans hkeyword (Range.contains_iff.mp hcontains).1

/-- A node that begins with a keyword and has a block behind it is a section in order. -/
theorem ordered {sec : Section} (h : n.InOrder)
    (hparts : n.parts = .token sec.keyword :: after) (hb : .block sec.body ∈ after) {r : Range}
    (hr : n.range? = some r) (hline : sec.line = r.start.line) : sec.Ordered where
  line_eq := by rw [hline, h.start_eq hparts hr]
  statements := (h.block_behind [] hparts hb).1
  start_le := (h.block_behind [] hparts hb).2

end Node.InOrder

theorem FunctionLiteral.ordered {f : FunctionLiteral} (h : (Node.function f).InOrder)
    (scope : Scope) (name? : Option Piece) : ∀ sec ∈ (f.compound scope name?).sections,
      sec.Ordered := by
  intro sec hsec
  obtain rfl := List.mem_singleton.mp hsec
  exact h.ordered rfl (by simp [toSection]) rfl rfl

theorem Statement.ordered {s : Statement} (h : (Node.statement s).InOrder) {scope : Scope}
    {c : Compound} (hc : s.compound? scope = some c) : ∀ sec ∈ c.sections, sec.Ordered := by
  intro sec hsec
  cases s with
  | branch first condition then? body elseIfs else? end? =>
    obtain rfl := Option.some.inj hc
    simp at hsec
    rcases hsec with rfl | ⟨clause, hclause, rfl⟩ | ⟨clause, hclause, rfl⟩
    · exact h.ordered rfl (by simp [conditionSection]) rfl rfl
    · have hchild : (Node.elseIf clause).InOrder :=
        h.child (by simp [Node.children, children, hclause])
      exact hchild.ordered rfl (by simp [ElseIf.toSection, conditionSection]) rfl rfl
    · have hchild : (Node.otherwise clause).InOrder :=
        h.child (by simp [Node.children, children, hclause])
      exact hchild.ordered rfl (by simp [Else.toSection]) rfl rfl
  | tryCatch first body catchToken exceptionName handler endToken =>
    obtain rfl := Option.some.inj hc
    simp at hsec
    rcases hsec with rfl | rfl
    · exact h.ordered rfl (by simp) rfl rfl
    · -- the handler opens behind the word `catch`, in the middle of the statement
      have hhandler := h.block_behind [.token first, .block body] rfl
        (List.mem_cons_of_mem (Part.token exceptionName) List.mem_cons_self)
      have hsequential : Range.Sequential ([first.range, body.range] ++ catchToken.range ::
          [exceptionName.range, handler.range, endToken.range]) := h _ (.self _)
      have hstart : catchToken.start ≤ exceptionName.start :=
        hsequential.start_le List.mem_cons_self
      exact ⟨congrArg Position.line (if_pos hstart), hhandler.1, hhandler.2⟩
  | function name f =>
    obtain rfl := Option.some.inj hc
    have hfunction : (Node.function f).InOrder := h.child List.mem_cons_self
    exact f.ordered hfunction scope _ sec hsec
  | forLoop | forEach | whileLoop =>
    obtain rfl := Option.some.inj hc
    obtain rfl := List.mem_singleton.mp hsec
    exact h.ordered rfl (by simp) rfl rfl
  | _ => cases hc

namespace Sequence

/-- The items are in order, and those of a block begin behind the start of its owner. -/
structure Ordered (q : Sequence) : Prop where
  sequential : Range.Sequential (q.items.map Item.range)
  line_eq : ∀ sec, q.kind = .block sec → sec.line = sec.keyword.start.line
  line_le : ∀ sec, q.kind = .block sec → ∀ item ∈ q.items, sec.line ≤ item.range.start.line

theorem ordered_block {sec : Section} (h : sec.Ordered) (scope : Scope) :
    Ordered ⟨.block sec, sec.body.statements.map (Statement.item scope)⟩ where
  sequential := by
    rw [List.map_map]
    exact h.statements
  line_eq := by
    rintro sec ⟨⟩
    exact h.line_eq
  line_le := by
    rintro sec ⟨⟩ item hitem
    obtain ⟨s, hs, rfl⟩ := List.mem_map.mp hitem
    rw [h.line_eq]
    exact Range.line_le_of_le (h.start_le s hs)

/-- Nothing but blocks looks at an owner. -/
theorem ordered_of_ne_block {q : Sequence} (hkind : ∀ sec, q.kind ≠ .block sec)
    (h : Range.Sequential (q.items.map Item.range)) : q.Ordered :=
  ⟨h, fun sec hsec => absurd hsec (hkind sec), fun sec hsec => absurd hsec (hkind sec)⟩

end Sequence

theorem Expression.range_outline (e : Expression) : e.outline.range = e.range := by
  cases e <;> rfl

theorem Member.range_outline (m : Member) : m.outline.range = m.range := by
  cases m <;> rfl

theorem Node.InOrder.sequences {n : Node} (h : n.InOrder) (scope : Scope) :
    ∀ q ∈ n.sequences scope, q.Ordered := by
  have hranges := h n (.self n)
  intro q hq
  cases n with
  | body statements =>
    obtain rfl := List.mem_singleton.mp hq
    apply Sequence.ordered_of_ne_block (by simp)
    have heq : (Node.body statements).partRanges = statements.map Statement.range := by
      simp [partRanges, parts, range?, Function.comp_def]
    rw [List.map_map]
    exact heq ▸ hranges
  | statement s =>
    obtain ⟨c, hc, hq⟩ := List.mem_flatMap.mp hq
    obtain ⟨sec, hsec, rfl⟩ := List.mem_map.mp hq
    exact Sequence.ordered_block (s.ordered h (Option.mem_toList.mp hc) sec hsec) scope
  | expression e =>
    cases e with
    | function f =>
      obtain ⟨sec, hsec, rfl⟩ := List.mem_map.mp hq
      have hfunction : (Node.function f).InOrder := h.child List.mem_cons_self
      exact Sequence.ordered_block (f.ordered hfunction scope none sec hsec) scope
    | array opening elements closing =>
      obtain rfl := List.mem_singleton.mp hq
      apply Sequence.ordered_of_ne_block (by simp)
      have heq : (Node.expression (.array opening elements closing)).partRanges =
          [opening.range] ++ elements.map Expression.range ++ [closing.range] := by
        simp [partRanges, parts, Expression.parts, Function.comp_def]
      have helements := Range.Sequential.infix _ _ (heq ▸ hranges)
      simpa [Function.comp_def, Expression.range_outline] using helements
    | record opening members closing =>
      obtain rfl := List.mem_singleton.mp hq
      apply Sequence.ordered_of_ne_block (by simp)
      have heq : (Node.expression (.record opening members closing)).partRanges =
          [opening.range] ++ members.map Member.range ++ [closing.range] := by
        simp [partRanges, parts, Expression.parts, range?, Function.comp_def]
      have hmembers := Range.Sequential.infix _ _ (heq ▸ hranges)
      simpa [Function.comp_def, Member.range_outline] using hmembers
    | _ => cases hq
  | _ => cases hq

/-! ## Pairs of items

What is written for an item and the comment behind it, with what separates them. -/

theorem infix_between {α : Type} (front first between second back : List α) :
    first ++ between ++ second <:+: front ++ first ++ (between ++ second ++ back) :=
  ⟨front, back, by simp only [List.append_assoc]⟩

theorem infix_nested (front pieces rest : List Piece) :
    front ++ nested pieces <:+: front ++ nested (pieces ++ rest) :=
  ⟨[], nested rest, by simp [nested]⟩

namespace Layout

theorem separator_comment (previous : Item) (c : Comment) (next? : Option Item) :
    separator previous c.item next? =
      if c.range.start.line = previous.range.stop.line then [.text " "]
      else if next?.any Item.isDeclaration then .lineBreak :: newLine else newLine := by
  have hcomment : c.item.isComment = true := rfl
  have hcode : c.item.isDeclaration = false := rfl
  by_cases hline : c.range.start.line = previous.range.stop.line
  · rw [if_pos hline, separator_same_line hline.symm]
  · have hbeq : (previous.range.stop.line == c.item.range.start.line) = false :=
      beq_eq_false_iff_ne.mpr (Ne.symm hline)
    rw [if_neg hline, separator, hcomment, hcode, hbeq, Bool.false_and, Bool.or_false,
      Bool.true_and, Bool.true_and]
    exact if_neg Bool.false_ne_true

theorem blockItems_pair (ownerLine? : Option Nat) (first? : Option Range) (before : List Item)
    (previous : Item) (c : Comment) (after : List Item) :
    previous.pieces ++ (if c.range.touches previous.range || ownerLine?.any c.range.meetsLine then
        [.text " "] else newLine) ++ c.pieces <:+:
      blockItems ownerLine? first? (before ++ previous :: c.item :: after) := by
  induction before generalizing first? with
  | nil =>
    rw [List.nil_append, blockItems, blockItems]
    exact infix_between ..
  | cons item before ih =>
    rw [List.cons_append, blockItems]
    exact (ih (some item.range)).trans (List.suffix_append _ _).isInfix

theorem bodyItems_pair (first : Item) (before : List Item) (previous : Item) (c : Comment)
    (after : List Item) :
    previous.pieces ++ separator previous c.item after.head? ++ c.pieces <:+:
      bodyItems first (before ++ previous :: c.item :: after) := by
  induction before generalizing first with
  | nil =>
    rw [List.nil_append, bodyItems, bodyItems]
    exact infix_between ..
  | cons item before ih =>
    rw [List.cons_append, bodyItems]
    exact (ih item).trans (List.suffix_append _ _).isInfix

theorem body_pair (before : List Item) (previous : Item) (c : Comment) (after : List Item) :
    previous.pieces ++ separator previous c.item after.head? ++ c.pieces <:+:
      body (before ++ previous :: c.item :: after) := by
  cases before with
  | nil =>
    rw [List.nil_append, body, bodyItems]
    exact infix_between [] ..
  | cons item before =>
    rw [List.cons_append, body]
    exact (bodyItems_pair item before previous c after).trans (List.suffix_append _ _).isInfix

theorem arrayItems_pair (first : Range) (before : List Item) (previous : Item) (c : Comment)
    (after : List Item) :
    previous.pieces ++ comma previous (c.item :: after) ++
        (if previous.range.touches c.range then [.text " "] else newLine) ++ c.pieces <:+:
      arrayItems first (before ++ previous :: c.item :: after) := by
  induction before generalizing first with
  | nil =>
    rw [List.nil_append, arrayItems, arrayItems, List.append_assoc _ previous.pieces,
      List.append_assoc _ (comma c.item after)]
    exact infix_between ..
  | cons item before ih =>
    rw [List.cons_append, arrayItems]
    exact (ih item.range).trans (List.suffix_append _ _).isInfix

end Layout

namespace Sequence

variable {q : Sequence} {before after : List Item} {previous : Item} {c : Comment}

/-- In source order all tests amount to the same. -/
theorem Ordered.infix_pair (h : q.Ordered)
    (hitems : q.items = before ++ previous :: c.item :: after) :
    (previous.pieces ++ q.comma previous (c.item :: after) ++
      q.separator previous.range c.range after ++ c.pieces).map (Piece.shift q.levels) <:+:
        q.pieces := by
  obtain ⟨hprevious, hc, hstep⟩ : previous.range.IsOrdered ∧ c.range.IsOrdered ∧
      previous.range.stop ≤ c.range.start := by
    have hsequential := h.sequential
    rw [hitems, List.map_append, List.map_cons, List.map_cons] at hsequential
    exact hsequential.consecutive
  have htouches := Range.touches_iff hprevious hc hstep
  obtain ⟨kind, items⟩ := q
  obtain rfl : items = _ := hitems
  cases kind with
  | block sec =>
    have hjoins : (c.range.touches previous.range || c.range.meetsLine sec.line) = true ↔
        c.range.start.line = previous.range.stop.line := by
      rw [Bool.or_eq_true, Range.touches_comm, htouches]
      constructor
      · rintro (hline | hmeets)
        · exact hline
        · have hle := h.line_le sec rfl previous (by simp)
          exact Range.line_of_meetsLine hprevious hc hstep hle hmeets
      · exact .inl
    have hpair := Layout.blockItems_pair (some sec.line) none before previous c after
    simp only [Option.any_some, hjoins] at hpair
    show (previous.pieces ++ [] ++ _ ++ c.pieces).map (Piece.shift 1) <:+:
      (sec.keyword.piece :: sec.header) ++ nested _
    rw [List.append_nil]
    exact (hpair.map _).trans (List.suffix_append _ _).isInfix
  | body =>
    have hpair := Layout.body_pair before previous c after
    rw [Layout.separator_comment] at hpair
    show (previous.pieces ++ [] ++ _ ++ c.pieces).map (Piece.shift 0) <:+: Layout.body _
    rw [List.append_nil, Piece.map_shift_zero]
    exact hpair
  | literal opening =>
    have hpair := Layout.arrayItems_pair opening.range before previous c after
    simp only [htouches] at hpair
    exact (hpair.map _).trans (List.suffix_append [opening.piece] _).isInfix

/-- In front of the first item stands what opens the sequence. -/
theorem Ordered.infix_first (h : q.Ordered) {opening : List Piece}
    (hopening : q.opening? = some opening) (hitems : q.items = c.item :: after) :
    opening ++ nested ((if q.opensWith c.range then [.text " "] else newLine) ++ c.pieces) <:+:
      q.pieces := by
  obtain ⟨kind, items⟩ := q
  obtain rfl : items = _ := hitems
  cases kind with
  | block sec =>
    cases hopening
    show _ ++ nested ((if c.range.meetsLine sec.keyword.start.line then _ else _) ++ _) <:+: _
    rw [← h.line_eq sec rfl]
    exact infix_nested ..
  | body => cases hopening
  | literal bracket =>
    cases hopening
    show [_] ++ nested ((if bracket.range.touches c.range then _ else _) ++ _) <:+:
      [_] ++ nested (Layout.arrayItems _ (c.item :: after))
    rw [Layout.arrayItems, List.append_assoc _ (Layout.comma c.item after)]
    exact infix_nested ..

end Sequence

/-! ## Sequences in the text -/

theorem Sequence.pieces_body (scope : Scope) (statements : Body) :
    Layout.body (statementItems scope statements) =
      pieces ⟨.body, statements.map (Statement.item scope)⟩ :=
  congrArg Layout.body (statementItems_eq_map statements)

theorem Section.pieces_eq (scope : Scope) (sec : Section) :
    sec.pieces scope =
      Sequence.pieces ⟨.block sec, sec.body.statements.map (Statement.item scope)⟩ := by
  obtain ⟨keyword, header, line, ⟨start, statements⟩, isOptional⟩ := sec
  have hitems : statementItems scope statements = statements.map (Statement.item scope) :=
    statementItems_eq_map statements
  rw [pieces, Block.emit, hitems]
  rfl

/-- The sequences of a site are written in it. -/
theorem Site.infix_sequence {site : Site} {q : Sequence}
    (hq : q ∈ site.tree.node.sequences site.scope) : q.pieces <:+: site.emit := by
  obtain ⟨scope, ownerLine?, tree⟩ := site
  cases tree with
  | body statements =>
    obtain rfl := List.mem_singleton.mp hq
    show _ <:+: Layout.body (statementItems scope statements)
    rw [Sequence.pieces_body]
  | block b => cases hq
  | statement s =>
    obtain ⟨c, hc, hq⟩ := List.mem_flatMap.mp hq
    obtain ⟨sec, hsec, rfl⟩ := List.mem_map.mp hq
    show _ <:+: s.emit scope
    rw [Statement.emit_eq_compound (Option.mem_toList.mp hc), ← sec.pieces_eq scope]
    exact Compound.infix_section hsec
  | expression e =>
    cases e with
    | function f =>
      obtain ⟨sec, hsec, rfl⟩ := List.mem_map.mp hq
      show _ <:+: f.emit scope none
      rw [f.emit_eq_compound, ← sec.pieces_eq scope]
      exact Compound.infix_section hsec
    | array opening elements closing =>
      obtain rfl := List.mem_singleton.mp hq
      show _ <:+: Expression.emit scope _
      rw [Expression.emit, elementItems_eq_map_outline, Layout.array, List.append_assoc]
      exact (List.prefix_append _ _).isInfix
    | record opening members closing =>
      obtain rfl := List.mem_singleton.mp hq
      show _ <:+: Expression.emit scope _
      rw [Expression.emit, memberItems_eq_map_outline, Layout.record_eq_array, Layout.array,
        List.append_assoc]
      exact (List.prefix_append _ _).isInfix
    | _ => cases hq

/-- Among the children only a namespace has a body. -/
theorem Node.eq_namespaceBlock_of_body_mem {statements : Body} {n : Node}
    (h : .body statements ∈ n.children) :
    ∃ keyword name endToken, n = .statement (.namespaceBlock keyword name statements endToken) := by
  cases n with
  | expression e => cases e <;> simp [children, Expression.children] at h
  | statement s => cases s <;> simp_all [children, Statement.children]
  | member a | part a | item a =>
    cases a <;>
      simp [children, Member.children, TemplatePart.children, PrintItem.children] at h
  | _ => simp [children, FunctionLiteral.header, Parameter.children] at h

/-- A body is the whole tree or stands in a namespace. -/
theorem Node.Holds.body_cases {statements : Body} {n : Node} (h : n.Holds (.body statements)) :
    n = .body statements ∨ ∃ keyword name endToken,
      n.Holds (.statement (.namespaceBlock keyword name statements endToken)) := by
  generalize hbody : Node.body statements = inner at h
  induction h with
  | self n => exact .inl rfl
  | @child n child inner hchild hrest ih =>
    right
    subst hbody
    rcases ih rfl with rfl | ⟨keyword, name, endToken, hholds⟩
    · obtain ⟨keyword, name, endToken, rfl⟩ := eq_namespaceBlock_of_body_mem hchild
      exact ⟨keyword, name, endToken, .self _⟩
    · exact ⟨keyword, name, endToken, .child hchild hholds⟩

namespace State

variable {s : State} {tree : Tree}

/-- The fragments that start a line, with a blank line before it or not. -/
def lineStart (s : State) (blank : Bool) : List Fragment :=
  (if blank then [.plain s.options.newLine.text] else []) ++
    [.plain s.options.newLine.text, .plain (Piece.indentation s.options.indentUnit s.depth)]

/-- In the text for the tree, the comments of the sequence stand on the lines that their places in
the source call for: a comment behind an item on the line of that item or on a line of its own, and
the first comment on the line of what opens the sequence or on a line of its own. -/
def PlacesComments (s : State) (tree : Tree) (q : Sequence) : Prop :=
  (∀ before previous c after, q.items = before ++ previous :: Comment.item c :: after →
    ∃ first depth last, let here : State := { s with depth }
      (s.emit tree).1 = first ++
        here.render (previous.pieces ++ q.comma previous (c.item :: after)) ++
        (if c.range.start.line = previous.range.stop.line then [.plain " "]
          else here.lineStart (q.documents after)) ++
        .mapped c.first.start s.source c.first.text :: last) ∧
  ∀ opening c after, q.opening? = some opening → q.items = Comment.item c :: after →
    ∃ first depth last, let inside : State := { s with depth := depth + 1 }
      (s.emit tree).1 = first ++ State.render { s with depth } opening ++
        (if q.opensWith c.range then [.plain " "] else inside.lineStart false) ++
        .mapped c.first.start s.source c.first.text :: last

theorem render_lineStart (s : State) (blank : Bool) :
    s.render (if blank then .lineBreak :: newLine else newLine) = s.lineStart blank := by
  cases blank <;> simp [render, Piece.renderAll, newLine, Piece.shift, Piece.render, lineStart]

theorem render_comment (s : State) (c : Comment) : ∃ lines,
    s.render c.pieces = .mapped c.first.start s.source c.first.text :: lines :=
  ⟨_, rfl⟩

theorem render_separator (s : State) (q : Sequence) (previous comment : Range) (rest : List Item) :
    s.render (q.separator previous comment rest) =
      if comment.start.line = previous.stop.line then [.plain " "]
      else s.lineStart (q.documents rest) := by
  rw [Sequence.separator]
  split
  · rfl
  · exact s.render_lineStart _

theorem placesComments_of_infix {site : Site} {count : Nat} {q : Sequence}
    (hsite : (s.site tree).Holds site count) (hordered : q.Ordered) (h : q.pieces <:+: site.emit) :
    s.PlacesComments tree q := by
  obtain ⟨levels, hlies⟩ := hsite.lies
  obtain ⟨depth, hrender⟩ : ∃ depth, ∀ pieces, pieces <:+: site.emit → ∃ first last,
      (s.emit tree).1 = first ++ State.render { s with depth } pieces ++ last :=
    ⟨s.depth + levels, fun _ => exists_render_of_infix hlies⟩
  constructor
  · intro before previous c after hitems
    obtain ⟨first, last, hemit⟩ := hrender _ ((hordered.infix_pair hitems).trans h)
    have hshift (pieces : List Piece) :
        State.render { s with depth } (pieces.map (Piece.shift q.levels)) =
          State.render { s with depth := depth + q.levels } pieces := Piece.renderAll_shift ..
    obtain ⟨lines, hlines⟩ := render_comment { s with depth := depth + q.levels } c
    refine ⟨first, depth + q.levels, lines ++ last, ?_⟩
    rw [hemit, hshift, render_append, render_append, render_separator, hlines]
    simp only [List.append_assoc, List.cons_append]
  · intro opening c after hopening hitems
    obtain ⟨first, last, hemit⟩ := hrender _ ((hordered.infix_first hopening hitems).trans h)
    obtain ⟨lines, hlines⟩ := render_comment { s with depth := depth + 1 } c
    refine ⟨first, depth, lines ++ last, ?_⟩
    have hstart : State.render { s with depth := depth + 1 }
        (if q.opensWith c.range then [.text " "] else newLine) =
          if q.opensWith c.range then [.plain " "]
          else State.lineStart { s with depth := depth + 1 } false := by
      split
      · rfl
      · exact render_lineStart _ false
    rw [hemit, render_append, render_nested, render_append, hstart, hlines]
    simp only [List.append_assoc, List.cons_append]

/-- In a tree in source order, a comment that stands behind another item of a sequence is written on
the line of that item, behind a space, if it starts on the line on which the item ends; otherwise it
starts a line. The first comment of a block is written on the line of its owner exactly if it starts
or ends on that line, and the first one of a literal exactly if it touches the opening bracket. -/
theorem emit_places_comments (s : State) (tree : Tree) (horder : tree.node.InOrder) {n : Node}
    (hn : tree.node.Holds n) :
    ∃ scope, ∀ q ∈ n.sequences scope, s.PlacesComments tree q := by
  have hproper {t : Tree} (ht : t.IsProper) (hholds : tree.node.Holds t.node) :
      ∃ scope, ∀ q ∈ t.node.sequences scope, s.PlacesComments tree q := by
    obtain ⟨site, count, hsite, rfl⟩ := (s.site tree).exists_holds ht hholds
    refine ⟨site.scope, fun q hq => ?_⟩
    have hordered := (horder.holds hholds).sequences site.scope q hq
    exact placesComments_of_infix hsite hordered (Site.infix_sequence hq)
  cases n with
  | statement st => exact hproper (t := .statement st) ⟨id, id⟩ hn
  | expression e =>
    cases e with
    | function f =>
      exact hproper (t := .expression (.function f)) ⟨id, Bool.false_ne_true⟩ hn
    | array opening elements closing =>
      exact hproper (t := .expression (.array opening elements closing)) ⟨id, Bool.false_ne_true⟩ hn
    | record opening members closing =>
      exact hproper (t := .expression (.record opening members closing)) ⟨id, Bool.false_ne_true⟩ hn
    | _ => exact ⟨s.scope, fun q hq => by cases hq⟩
  | body statements =>
    have hordered := (horder.holds hn).sequences
    rcases hn.body_cases with htree | ⟨keyword, name, endToken, hnamespace⟩
    · -- the file itself
      refine ⟨s.scope, fun q hq => ?_⟩
      have hq' : q ∈ (s.site tree).tree.node.sequences s.scope := htree ▸ hq
      exact placesComments_of_infix (.self _) (hordered _ q hq) (Site.infix_sequence hq')
    · obtain ⟨⟨scope, ownerLine?, _⟩, count, hsite, rfl⟩ := (s.site tree).exists_holds
        (t := .statement (.namespaceBlock keyword name statements endToken)) ⟨id, id⟩ hnamespace
      refine ⟨scope.inside name, fun q hq => ?_⟩
      apply placesComments_of_infix hsite (hordered _ q hq)
      obtain rfl := List.mem_singleton.mp hq
      show _ <:+: Layout.body (statementItems (scope.inside name) statements)
      rw [Sequence.pieces_body]
  | _ => exact ⟨s.scope, fun q hq => by cases hq⟩

/-- An array with a comment behind the opening bracket, one behind its element and one on a line of
its own. -/
theorem emit_places_comments_array :
    let comment (text : String) (line column : Nat) : Comment :=
      ⟨.ofStart .comment text ⟨line, column⟩, [], .element⟩
    let opening : Token := .ofStart .leftSquare "[" ⟨0, 0⟩
    let one : Token := .ofStart .integerLiteral "1" ⟨1, 2⟩
    let elements : List Expression :=
      [.comment (comment "' list" 0 2), .literal one, .comment (comment "' one" 1 4),
        .comment (comment "' end" 2 2)]
    let e : Expression := .array opening elements (.ofStart .rightSquare "]" ⟨3, 0⟩)
    let s : State := ⟨{}, .none, "", 0, [], {}⟩
    (Node.expression e).InOrder ∧
      s.PlacesComments (.expression e) ⟨.literal opening,
        [(comment "' list" 0 2).item, (Expression.literal one).outline.item [one.piece],
          (comment "' one" 1 4).item, (comment "' end" 2 2).item]⟩ := by
  intro comment opening one elements e s
  have hcomment : ∀ c ∈ [comment "' list" 0 2, comment "' one" 1 4, comment "' end" 2 2],
      (Node.expression (.comment c)).InOrder := by
    intro c hc
    have hline : Range.Sequential (Node.comment c).partRanges := by revert c; decide
    have hnode : (Node.expression (.comment c)).partRanges = (Node.comment c).partRanges := by
      revert c; decide
    have hlines : (Node.comment c).InOrder := Node.inOrder_iff.mpr ⟨hline, List.forall_mem_nil _⟩
    exact Node.inOrder_iff.mpr ⟨hnode ▸ hline, List.forall_mem_singleton.mpr hlines⟩
  have hone : (Node.expression (.literal one)).InOrder :=
    Node.inOrder_iff.mpr ⟨by decide, List.forall_mem_nil _⟩
  have horder : (Node.expression e).InOrder := by
    apply Node.inOrder_iff.mpr ⟨by decide, _⟩
    simp [Node.children, Expression.children, e, elements, hone, hcomment]
  obtain ⟨scope, hplaces⟩ := emit_places_comments s (.expression e) horder (.self _)
  exact ⟨horder, hplaces _ List.mem_cons_self⟩

end State

end Downlevel
