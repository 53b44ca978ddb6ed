import Mathlib.Tactic
import Downlevel.Tree.Node
import Downlevel.Tree.Stored

/-!
# A node covers its children

A node covers those of its parts that are listed for its kind, and whoever adds a kind has to list
every child. For one kind a child is missing: a function covers its keyword, its body and its
closing keyword, but neither its parameters nor its return type. In a tree in source order these lie
in between (`FunctionLiteral.containsHeader_of_between`), elsewhere they need not
(`Node.not_containsChildren_parameterBelow`). Every other node contains its children wherever its
tokens are, every range starts no later than it ends, and replacing parts of a function keeps this
(`Node.rangesSound_replaceAll`).
-/

namespace Downlevel

/-! ## Ranges -/

namespace Range

variable {a b c : Range} {ranges : List Range}

/-- The range starts no later than it ends. -/
def IsOrdered (r : Range) : Prop := r.start ≤ r.stop

instance (r : Range) : Decidable r.IsOrdered :=
  inferInstanceAs (Decidable (r.start ≤ r.stop))

theorem contains_iff : a.contains b = true ↔ a.start ≤ b.start ∧ b.stop ≤ a.stop := by
  simp [contains]

@[simp] theorem contains_refl (a : Range) : a.contains a = true :=
  contains_iff.mpr ⟨Std.le_refl _, Std.le_refl _⟩

theorem contains_trans (h : a.contains b = true) (hb : b.contains c = true) :
    a.contains c = true := by
  rw [contains_iff] at *
  exact ⟨Std.le_trans h.1 hb.1, Std.le_trans hb.2 h.2⟩

/-- Whatever contains an ordered range is ordered. -/
theorem IsOrdered.of_contains (h : a.contains b = true) (hb : b.IsOrdered) : a.IsOrdered := by
  obtain ⟨hstart, hstop⟩ := contains_iff.mp h
  exact Std.le_trans hstart (Std.le_trans hb hstop)

theorem isOrdered_point (p : Position) : (point p).IsOrdered := Std.le_refl p

@[simp] theorem contains_cover_right (a b : Range) : (a.cover b).contains b = true :=
  contains_iff.mpr ⟨Std.min_le_right, Std.right_le_max⟩

@[simp] theorem contains_cover_of_contains (h : a.contains c = true) (b : Range) :
    (a.cover b).contains c = true := by
  refine contains_trans ?_ h
  exact contains_iff.mpr ⟨Std.min_le_left, Std.left_le_max⟩

@[simp] theorem contains_coverList_of_contains (h : a.contains c = true) (ranges : List Range) :
    (a.coverList ranges).contains c = true := by
  induction ranges generalizing a with
  | nil => exact h
  | cons b rest ih => exact ih (contains_cover_of_contains h b)

@[simp] theorem contains_coverList_of_mem (h : c ∈ ranges) (a : Range) :
    (a.coverList ranges).contains c = true := by
  induction ranges generalizing a with
  | nil => cases h
  | cons b rest ih =>
    rcases List.mem_cons.mp h with rfl | hrest
    · exact contains_coverList_of_contains (contains_cover_right a c) rest
    · exact ih hrest (a.cover b)

theorem contains_cover (ha : a.contains b = true) (hc : a.contains c = true) :
    a.contains (b.cover c) = true := by
  rw [contains_iff] at *
  exact ⟨Std.le_min_iff.mpr ⟨ha.1, hc.1⟩, Std.max_le_iff.mpr ⟨ha.2, hc.2⟩⟩

theorem contains_coverList (hb : a.contains b = true)
    (hranges : ∀ c ∈ ranges, a.contains c = true) : a.contains (b.coverList ranges) = true := by
  induction ranges generalizing b with
  | nil => exact hb
  | cons c rest ih =>
    obtain ⟨hc, hrest⟩ := List.forall_mem_cons.mp hranges
    exact ih (contains_cover hb hc) hrest

/-- What contains all ranges contains what covers them. -/
theorem contains_of_coverAll? (hranges : ∀ c ∈ ranges, a.contains c = true)
    (h : coverAll? ranges = some b) : a.contains b = true := by
  cases ranges with
  | nil => cases h
  | cons c rest =>
    cases h
    obtain ⟨hc, hrest⟩ := List.forall_mem_cons.mp hranges
    exact contains_coverList hc hrest

end Range

/-! ### Ranges of lists -/

theorem argumentRanges_eq (list : List Expression) :
    argumentRanges list = list.map Expression.range := by
  induction list with
  | nil => rfl
  | cons e rest ih => rw [argumentRanges, ih, List.map_cons]

theorem memberRanges_eq (list : List Member) : memberRanges list = list.map Member.range := by
  induction list with
  | nil => rfl
  | cons m rest ih => rw [memberRanges, ih, List.map_cons]

theorem partRanges_eq (list : List TemplatePart) :
    partRanges list = list.map TemplatePart.range := by
  induction list with
  | nil => rfl
  | cons p rest ih => rw [partRanges, ih, List.map_cons]

theorem elseIfRanges_eq (list : List ElseIf) : elseIfRanges list = list.map ElseIf.range := by
  induction list with
  | nil => rfl
  | cons clause rest ih => rw [elseIfRanges, ih, List.map_cons]

theorem itemRanges_eq (list : List PrintItem) : itemRanges list = list.map PrintItem.range := by
  induction list with
  | nil => rfl
  | cons i rest ih => rw [itemRanges, ih, List.map_cons]

theorem statementRanges_eq (list : List Statement) :
    statementRanges list = list.map Statement.range := by
  induction list with
  | nil => rfl
  | cons s rest ih => rw [statementRanges, ih, List.map_cons]

/-! ## Children -/

/-- The nodes have their ranges within `r`, if they have one. -/
def Range.Covers (r : Range) (nodes : List Node) : Prop :=
  ∀ n ∈ nodes, ∀ inner, n.range? = some inner → r.contains inner = true

namespace Range

variable {r : Range}

@[simp] theorem covers_nil : r.Covers [] := by
  simp [Covers]

@[simp] theorem covers_cons {n : Node} {rest : List Node} :
    r.Covers (n :: rest) ↔
      (∀ inner, n.range? = some inner → r.contains inner = true) ∧ r.Covers rest :=
  List.forall_mem_cons

@[simp] theorem covers_append {nodes more : List Node} :
    r.Covers (nodes ++ more) ↔ r.Covers nodes ∧ r.Covers more :=
  List.forall_mem_append

@[simp] theorem covers_map {α : Type} {f : α → Node} {list : List α} :
    r.Covers (list.map f) ↔
      ∀ a ∈ list, ∀ inner, (f a).range? = some inner → r.contains inner = true :=
  List.forall_mem_map

end Range

theorem Expression.covers_children (e : Expression) : e.range.Covers e.children := by
  cases e with
  | call | callfunc | array | record | construct | template =>
    simp [range, children, Node.range?, argumentRanges_eq, memberRanges_eq, partRanges_eq]
    intro part hpart
    apply Range.contains_coverList_of_mem
    simp [List.mem_map_of_mem hpart]
  | _ => simp [range, children, Node.range?]

theorem Parameter.covers_children (p : Parameter) : p.range.Covers p.children := by
  obtain ⟨name, default?, type?⟩ := p
  cases default? <;> cases type? <;> simp [range, children, Node.range?]

theorem Statement.covers_children (s : Statement) : s.range.Covers s.children := by
  cases s with
  | branch first condition then? body elseIfs else? end? =>
    cases else? <;> simp [range, children, Node.range?, elseIfRanges_eq] <;>
    · intro clause hclause
      apply Range.contains_coverList_of_mem
      simp [List.mem_map_of_mem hclause]
  | forLoop first counter toToken limit step? body endToken =>
    cases step? <;> simp [range, children, Node.range?]
  | print first items =>
    simp [range, children, Node.range?, itemRanges_eq]
    intro item hitem
    apply Range.contains_coverList_of_mem
    exact List.mem_map_of_mem hitem
  | returning first value? => cases value? <;> simp [range, children, Node.range?]
  | namespaceBlock first name body endToken =>
    rw [range]
    simp only [children, Range.covers_cons, Range.covers_nil, and_true]
    constructor
    · rintro _ ⟨⟩
      simp
    · intro inner hinner
      apply Range.contains_of_coverAll? _ hinner
      intro part hpart
      apply Range.contains_coverList_of_mem
      simp [hpart]
  | _ => simp [range, children, Node.range?]

namespace DottedName

theorem range_toExpression (n : DottedName) : n.toExpression.range = n.range := by
  obtain ⟨root, links⟩ := n
  have hlinks (object : Expression) : (links.foldl
      (fun object link => Expression.member object link.dot link.name) object).range =
        object.range.coverList (links.map (·.name.range)) := by
    induction links generalizing object with
    | nil => rfl
    | cons link rest ih => exact ih (.member object link.dot link.name)
  exact hlinks (.identifier root)

end DottedName

namespace FunctionLiteral

theorem range_eq (f : FunctionLiteral) :
    f.range = (f.keyword.range.cover f.body.range).cover f.endToken.range := by
  cases f
  rfl

/-- The parameters and the return type lie within the range of the function. -/
def ContainsHeader (f : FunctionLiteral) : Prop := f.range.Covers f.header

/-- They do if they stand between the keyword and the closing keyword. -/
theorem containsHeader_of_between {f : FunctionLiteral}
    (h : ∀ part ∈ f.header, ∀ inner, part.range? = some inner →
      f.keyword.range.start ≤ inner.start ∧ inner.stop ≤ f.endToken.range.stop) :
    f.ContainsHeader := by
  intro part hpart inner hinner
  obtain ⟨hstart, hstop⟩ := h part hpart inner hinner
  have hkeyword : f.range.contains f.keyword.range = true := by simp [range_eq]
  have hend : f.range.contains f.endToken.range = true := by simp [range_eq]
  rw [Range.contains_iff] at hkeyword hend ⊢
  exact ⟨Std.le_trans hkeyword.1 hstart, Std.le_trans hstop hend.2⟩

end FunctionLiteral

namespace Node

variable {n : Node} {r : Range}

/-- The range of each child lies within the range of the node. -/
def ContainsChildren (n : Node) : Prop :=
  ∀ child ∈ n.children, ∀ inner, child.range? = some inner →
    ∃ outer, n.range? = some outer ∧ outer.contains inner = true

theorem containsChildren_iff (h : n.range? = some r) :
    n.ContainsChildren ↔ r.Covers n.children := by
  simp [ContainsChildren, Range.Covers, h]

theorem containsChildren_function_iff {f : FunctionLiteral} :
    (function f).ContainsChildren ↔ f.ContainsHeader := by
  rw [containsChildren_iff rfl, children, Range.covers_append]
  constructor
  · exact And.left
  · intro h
    refine ⟨h, ?_⟩
    simp [range?, FunctionLiteral.range_eq]

/-- Only a function may fail to contain its children. -/
theorem containsChildren_of_ne (h : ∀ f, n ≠ function f) : n.ContainsChildren := by
  cases n with
  | function f => exact absurd rfl (h f)
  | expression e => exact (containsChildren_iff rfl).mpr e.covers_children
  | statement s => exact (containsChildren_iff rfl).mpr s.covers_children
  | parameter p => exact (containsChildren_iff rfl).mpr p.covers_children
  | name n =>
    refine (containsChildren_iff rfl).mpr ?_
    simp [children, range?, n.range_toExpression]
  | member a | part a | item a | assignment a | elseIf a | otherwise a | step a =>
    refine (containsChildren_iff rfl).mpr ?_
    cases a <;>
      simp [children, Member.children, TemplatePart.children, PrintItem.children, range?,
        Member.range, TemplatePart.range, PrintItem.range, Assignment.range, ElseIf.range,
        Else.range, ForStep.range]
  | block b =>
    refine (containsChildren_iff rfl).mpr ?_
    obtain ⟨start, statements⟩ := b
    rw [children, Range.covers_map, Block.range, statementRanges_eq]
    rintro s hs _ ⟨⟩
    exact Range.contains_coverList_of_mem (List.mem_map_of_mem hs) _
  | body statements =>
    cases statements with
    | nil => simp [ContainsChildren, children]
    | cons first rest =>
      refine (containsChildren_iff rfl).mpr ?_
      rw [children, Range.covers_map, statementRanges_eq]
      rintro s hs _ ⟨⟩
      rcases List.mem_cons.mp hs with rfl | hrest
      · simp
      · exact Range.contains_coverList_of_mem (List.mem_map_of_mem hrest) _
  | typeClause | comment => simp [ContainsChildren, children]

/-! ## Order -/

/-- Every token at or below the node starts no later than it ends. -/
def TokensOrdered (n : Node) : Prop :=
  ∀ inner, n.Holds inner → ∀ t ∈ inner.tokens, t.range.IsOrdered

theorem TokensOrdered.child {child : Node} (h : n.TokensOrdered) (hchild : child ∈ n.children) :
    child.TokensOrdered :=
  fun inner hinner => h inner (.child hchild hinner)

theorem TokensOrdered.holds {inner : Node} (h : n.TokensOrdered) (hinner : n.Holds inner) :
    inner.TokensOrdered :=
  fun last hlast => h last (hinner.trans hlast)

/-- The range contains a token of the node or a child. -/
def Anchored (n : Node) (r : Range) : Prop :=
  (∃ t ∈ n.tokens, r.contains t.range = true) ∨
    ∃ child ∈ n.children, ∃ inner, child.range? = some inner ∧ r.contains inner = true

end Node

theorem Expression.anchored (e : Expression) : Node.Anchored (.expression e) e.range := by
  cases e <;> simp [Node.Anchored, Node.tokens, tokens, Node.children, children, range, Node.range?]

theorem Statement.anchored (s : Statement) : Node.Anchored (.statement s) s.range := by
  cases s with
  | branch first condition then? body elseIfs else? end? =>
    cases else? <;>
      simp [Node.Anchored, Node.tokens, tokens, Node.children, children, range, Node.range?]
  | forLoop first counter toToken limit step? body endToken =>
    cases step? <;>
      simp [Node.Anchored, Node.tokens, tokens, Node.children, children, range, Node.range?]
  | returning first value? =>
    cases value? <;>
      simp [Node.Anchored, Node.tokens, tokens, Node.children, children, range, Node.range?]
  | _ => simp [Node.Anchored, Node.tokens, tokens, Node.children, children, range, Node.range?]

namespace Node

variable {n : Node} {r : Range}

/-- Only a block may have neither a token nor a child: it has the place where it opens. -/
theorem anchored_of_ne (hr : n.range? = some r) (h : ∀ b, n ≠ block b) : n.Anchored r := by
  cases n with
  | block b => exact absurd rfl (h b)
  | expression e => cases hr; exact e.anchored
  | statement s => cases hr; exact s.anchored
  | body statements =>
    cases statements with
    | nil => cases hr
    | cons first rest =>
      refine .inr ⟨.statement first, List.mem_cons_self, first.range, rfl, ?_⟩
      cases hr
      simp
  | function a | assignment a | elseIf a | otherwise a | step a =>
    cases a
    cases hr
    simp [Anchored, tokens, FunctionLiteral.range, Assignment.range, ElseIf.range, Else.range,
      ForStep.range]
  | member a | part a | item a =>
    cases a <;> cases hr <;>
      simp [Anchored, tokens, children, Member.children, TemplatePart.children,
        PrintItem.children, range?, Member.range, TemplatePart.range, PrintItem.range]
  | parameter | typeClause | name | comment =>
    cases hr
    simp [Anchored, tokens, Parameter.range, TypeClause.range, DottedName.range, Comment.range,
      Comment.tokens]

theorem isOrdered_of_anchored (h : n.TokensOrdered) (hr : n.Anchored r)
    (hchildren : ∀ child ∈ n.children, ∀ inner, child.range? = some inner → inner.IsOrdered) :
    r.IsOrdered := by
  rcases hr with ⟨t, ht, hcontains⟩ | ⟨child, hchild, inner, hinner, hcontains⟩
  · exact .of_contains hcontains (h n (.self n) t ht)
  · exact .of_contains hcontains (hchildren child hchild inner hinner)

/-- A node whose tokens are in order has its own range in order. -/
theorem isOrdered_of_range? (h : n.TokensOrdered) (hr : n.range? = some r) : r.IsOrdered := by
  induction n using Node.induction generalizing r with
  | step n ih =>
    by_cases hblock : ∃ b, n = block b
    · obtain ⟨⟨start, statements⟩, rfl⟩ := hblock
      cases hr
      apply Range.IsOrdered.of_contains _ (Range.isOrdered_point start)
      simp [Block.range]
    · rw [not_exists] at hblock
      apply isOrdered_of_anchored h (anchored_of_ne hr hblock)
      intro child hchild inner hinner
      exact ih child hchild (h.child hchild) hinner

/-! ## The whole tree -/

/-- Ranges at and below the node start no later than they end, and they contain the ranges of the
children, except that the parameters and the return type of a function may lie outside of its
range. -/
structure RangesSound (n : Node) : Prop where
  isOrdered : ∀ inner, n.Holds inner → ∀ r, inner.range? = some r → r.IsOrdered
  containsChildren : ∀ inner, n.Holds inner →
    (inner.ContainsChildren ↔ ∀ f, inner = function f → f.ContainsHeader)
  containsBody : ∀ f, n.Holds (function f) → f.range.contains f.body.range = true

theorem rangesSound (h : n.TokensOrdered) : n.RangesSound where
  isOrdered inner hinner r hr := isOrdered_of_range? (h.holds hinner) hr
  containsChildren inner hinner := by
    constructor
    · rintro hchildren f rfl
      exact containsChildren_function_iff.mp hchildren
    · intro hheader
      by_cases hfunction : ∃ f, inner = function f
      · obtain ⟨f, rfl⟩ := hfunction
        exact containsChildren_function_iff.mpr (hheader f rfl)
      · rw [not_exists] at hfunction
        exact containsChildren_of_ne hfunction
  containsBody f hf := by simp [FunctionLiteral.range_eq]

end Node

/-! ## Replaced parts -/

namespace Node

variable {n : Node}

theorem tokensOrdered_iff :
    n.TokensOrdered ↔
      (∀ t ∈ n.tokens, t.range.IsOrdered) ∧ ∀ child ∈ n.children, child.TokensOrdered :=
  forall_holds_iff

theorem tokensOrdered_function_iff {f : FunctionLiteral} :
    (function f).TokensOrdered ↔
      (f.keyword.range.IsOrdered ∧ f.opening.range.IsOrdered ∧ f.closing.range.IsOrdered ∧
        f.endToken.range.IsOrdered) ∧
      (∀ part ∈ f.header, part.TokensOrdered) ∧ (block f.body).TokensOrdered := by
  rw [tokensOrdered_iff]
  simp [tokens, children, or_imp, forall_and]

end Node

/-- The tokens of the new part start no later than they end. -/
def Replacement.TokensOrdered : Replacement → Prop
  | .body newBody => (Node.block newBody).TokensOrdered
  | .endToken token => token.range.IsOrdered

namespace FunctionLiteral

variable {f : FunctionLiteral} {edits : List Replacement}

theorem tokensOrdered_replace {edit : Replacement} (h : (Node.function f).TokensOrdered)
    (hedit : edit.TokensOrdered) : (Node.function (f.replace edit)).TokensOrdered := by
  rw [Node.tokensOrdered_function_iff] at h ⊢
  obtain ⟨⟨hkeyword, hopening, hclosing, hend⟩, hheader, hbody⟩ := h
  cases edit with
  | body newBody => exact ⟨⟨hkeyword, hopening, hclosing, hend⟩, hheader, hedit⟩
  | endToken token => exact ⟨⟨hkeyword, hopening, hclosing, hedit⟩, hheader, hbody⟩

theorem tokensOrdered_replaceAll (h : (Node.function f).TokensOrdered)
    (hedits : ∀ edit ∈ edits, edit.TokensOrdered) :
    (Node.function (f.replaceAll edits)).TokensOrdered := by
  induction edits generalizing f with
  | nil => exact h
  | cons edit rest ih =>
    obtain ⟨hedit, hrest⟩ := List.forall_mem_cons.mp hedits
    exact ih (tokensOrdered_replace h hedit) hrest

end FunctionLiteral

/-! ### Stored ranges -/

/-- The stored range is the range of the function as it is now. -/
def StoredFunction.IsCurrent (f : StoredFunction) : Prop := f.range = f.literal.range

namespace StoredFunction

variable {f : StoredFunction}

theorem isCurrent_build (literal : FunctionLiteral) : (build literal).IsCurrent := rfl

theorem IsCurrent.replaceAll (h : f.IsCurrent) (edits : List Replacement) :
    (f.replaceAll edits).IsCurrent := by
  induction edits generalizing f with
  | nil => exact h
  | cons edit rest ih => exact ih (f := f.replace edit) rfl

theorem literal_replaceAll (f : StoredFunction) (edits : List Replacement) :
    (f.replaceAll edits).literal = f.literal.replaceAll edits := by
  induction edits generalizing f with
  | nil => rfl
  | cons edit rest ih => exact ih (f.replace edit)

end StoredFunction

/-- The stored ranges are those of the declaration and of its function as they are now. -/
structure StoredDeclaration.IsCurrent (d : StoredDeclaration) : Prop where
  function : d.function.IsCurrent
  range : d.range = d.statement.range

namespace StoredDeclaration

variable {d : StoredDeclaration}

theorem isCurrent_build (name : Token) {f : StoredFunction} (h : f.IsCurrent) :
    (build name f).IsCurrent where
  function := h
  range := by
    have hfunction : f.range = f.literal.range := h
    rw [statement, Statement.range]
    exact congrArg name.range.cover hfunction

theorem isCurrent_replace (d : StoredDeclaration) (edit : Replacement) :
    (d.replace edit).IsCurrent where
  function := rfl
  range := by
    rw [statement, Statement.range]
    rfl

theorem IsCurrent.replaceAll (h : d.IsCurrent) (edits : List Replacement) :
    (d.replaceAll edits).IsCurrent := by
  induction edits generalizing d with
  | nil => exact h
  | cons edit rest ih => exact ih (d.isCurrent_replace edit)

theorem statement_replaceAll (d : StoredDeclaration) (edits : List Replacement) :
    (d.replaceAll edits).statement =
      .function d.name (d.function.literal.replaceAll edits) := by
  induction edits generalizing d with
  | nil => rfl
  | cons edit rest ih => exact ih (d.replace edit)

end StoredDeclaration

namespace Node

variable {n : Node} {edits : List Replacement}

/-- Every tree whose tokens start no later than they end has sound ranges, and so has each of its
functions and declarations after parts have been replaced, with the ranges that they store. -/
theorem rangesSound_replaceAll (h : n.TokensOrdered)
    (hedits : ∀ edit ∈ edits, edit.TokensOrdered) :
    n.RangesSound ∧
    (∀ f, n.Holds (function f) →
      let replaced := (StoredFunction.build f).replaceAll edits
      replaced.IsCurrent ∧ (function replaced.literal).RangesSound) ∧
    ∀ name f, n.Holds (statement (.function name f)) →
      let replaced := (StoredDeclaration.build name (.build f)).replaceAll edits
      replaced.IsCurrent ∧ (statement replaced.statement).RangesSound := by
  refine ⟨rangesSound h, ?_, ?_⟩
  · intro f hf replaced
    refine ⟨(StoredFunction.isCurrent_build f).replaceAll edits, rangesSound ?_⟩
    rw [StoredFunction.literal_replaceAll]
    exact FunctionLiteral.tokensOrdered_replaceAll (h.holds hf) hedits
  · intro name f hf replaced
    have hcurrent : (StoredDeclaration.build name (.build f)).IsCurrent :=
      StoredDeclaration.isCurrent_build name (StoredFunction.isCurrent_build f)
    refine ⟨hcurrent.replaceAll edits, rangesSound ?_⟩
    rw [StoredDeclaration.statement_replaceAll]
    obtain ⟨hname, hfunction⟩ := tokensOrdered_iff.mp (h.holds hf)
    refine tokensOrdered_iff.mpr ⟨hname, ?_⟩
    intro child hchild
    obtain rfl := List.mem_singleton.mp hchild
    have hliteral : (function f).TokensOrdered := hfunction _ (List.mem_singleton_self _)
    exact FunctionLiteral.tokensOrdered_replaceAll hliteral hedits

/-- A function on two lines whose parameter `x` stands on a line below. -/
def parameterBelow : FunctionLiteral where
  keyword := .ofStart .functionKeyword "function" ⟨0, 0⟩
  opening := .ofStart .leftParen "(" ⟨0, 8⟩
  parameters := [⟨.ofStart .identifier "x" ⟨5, 0⟩, none, none⟩]
  closing := .ofStart .rightParen ")" ⟨0, 10⟩
  returnType? := none
  body := ⟨⟨0, 11⟩, []⟩
  endToken := .ofStart .endFunctionKeyword "end function" ⟨1, 0⟩

theorem tokensOrdered_parameterBelow : (function parameterBelow).TokensOrdered := by
  rw [tokensOrdered_function_iff]
  refine ⟨by decide, ?_, ?_⟩
  · intro part hpart
    obtain rfl := List.mem_singleton.mp hpart
    rw [tokensOrdered_iff]
    exact ⟨by decide, by simp [children, Parameter.children]⟩
  · rw [tokensOrdered_iff]
    simp [tokens, children, parameterBelow]

/-- Its range ends on the line above the parameter. -/
theorem not_containsChildren_parameterBelow :
    (function parameterBelow).TokensOrdered ∧ ¬ (function parameterBelow).ContainsChildren := by
  refine ⟨tokensOrdered_parameterBelow, ?_⟩
  intro hchildren
  obtain ⟨outer, houter, hcontains⟩ := hchildren
    (parameter ⟨.ofStart .identifier "x" ⟨5, 0⟩, none, none⟩) List.mem_cons_self _ rfl
  cases houter
  revert hcontains
  decide

/-- Once its closing keyword is replaced by one further down, its range contains the parameter. -/
theorem rangesSound_replaceAll_parameterBelow :
    let later : Replacement := .endToken (.ofStart .endFunctionKeyword "end function" ⟨6, 0⟩)
    (function parameterBelow).TokensOrdered ∧ later.TokensOrdered ∧
    let replaced := (StoredFunction.build parameterBelow).replaceAll [later]
    replaced.IsCurrent ∧ (function replaced.literal).RangesSound ∧
      (function replaced.literal).ContainsChildren := by
  intro later
  have hlater : later.TokensOrdered := by
    show Range.IsOrdered _
    decide
  have hedits : ∀ edit ∈ [later], edit.TokensOrdered := by simpa using hlater
  refine ⟨tokensOrdered_parameterBelow, hlater, ?_⟩
  obtain ⟨-, hfunctions, -⟩ := rangesSound_replaceAll tokensOrdered_parameterBelow hedits
  obtain ⟨hcurrent, hsound⟩ := hfunctions parameterBelow (.self _)
  refine ⟨hcurrent, hsound, (hsound.containsChildren _ (.self _)).mpr ?_⟩
  rintro f ⟨⟩
  apply FunctionLiteral.containsHeader_of_between
  intro part hpart inner hinner
  obtain rfl := List.mem_singleton.mp hpart
  cases hinner
  decide

end Node

end Downlevel
