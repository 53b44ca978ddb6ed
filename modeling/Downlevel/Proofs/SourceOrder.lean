import Downlevel.Proofs.Covering
import Downlevel.Tree.Part

/-!
# Trees in source order

Most nodes cover only some of their parts: an operator, a bracket or `then` is left out. In a tree
whose parts are in source order nothing is lost by that. A node covers its first part, its last part
and nothing but parts, so its range goes from the start of the one to the end of the other, and what
stands between lies within. Which part is the last one depends on what there is, such as `end if`,
`else` or a returned value; that is where the node kinds differ (`Statement.frames`).

Main statement: in source order every range is exact, and every node contains all tokens below it
(`Node.InOrder.range_exact`).
-/

namespace Downlevel

/-! ## Ranges in source order -/

namespace Range

variable {a b c r : Range} {ranges before after : List Range}

/-- Each range starts no later than it ends and ends no later than the next one starts. -/
def Sequential (ranges : List Range) : Prop :=
  (∀ a ∈ ranges, a.IsOrdered) ∧ ranges.IsChain fun a b => a.stop ≤ b.start

instance (ranges : List Range) : Decidable (Sequential ranges) :=
  inferInstanceAs (Decidable (_ ∧ _))

/-- From the start of the first range to the end of the last one. -/
def span? : List Range → Option Range
  | [] => none
  | first :: rest => some ⟨first.start, (rest.getLastD first).stop⟩

/-- All ranges of a sequence lie within its span. -/
theorem Sequential.contains_of_span? (h : Sequential ranges) (hspan : span? ranges = some r) :
    ∀ c ∈ ranges, r.contains c = true := by
  induction ranges generalizing r with
  | nil => cases hspan
  | cons first rest ih =>
    cases hspan
    obtain ⟨hordered, hchain⟩ := h
    obtain ⟨hfirst, hrest⟩ := List.forall_mem_cons.mp hordered
    cases rest with
    | nil => simp
    | cons next more =>
      obtain ⟨hstep, hchain⟩ := List.isChain_cons_cons.mp hchain
      have hspan := ih ⟨hrest, hchain⟩ rfl
      have hnext := contains_iff.mp (hspan next List.mem_cons_self)
      have hstart : first.start ≤ next.start := Std.le_trans hfirst hstep
      rw [List.getLastD_cons]
      intro c hc
      rcases List.mem_cons.mp hc with rfl | hc
      · refine contains_iff.mpr ⟨Std.le_refl _, ?_⟩
        exact Std.le_trans hstep (Std.le_trans (hrest next List.mem_cons_self) hnext.2)
      · obtain ⟨hcstart, hcstop⟩ := contains_iff.mp (hspan c hc)
        exact contains_iff.mpr ⟨Std.le_trans hstart hcstart, hcstop⟩

theorem Sequential.exists_span? (h : Sequential ranges) (hc : c ∈ ranges) :
    ∃ r, span? ranges = some r ∧ r.contains c = true := by
  cases ranges with
  | nil => cases hc
  | cons first rest => exact ⟨_, rfl, h.contains_of_span? rfl c hc⟩

/-- Any two ranges of a sequence are in order. -/
theorem Sequential.pairwise (h : Sequential ranges) :
    ranges.Pairwise fun a b => a.stop ≤ b.start := by
  induction ranges with
  | nil => exact .nil
  | cons first rest ih =>
    obtain ⟨hordered, hchain⟩ := h
    have hrest := ih ⟨(List.forall_mem_cons.mp hordered).2, hchain.tail⟩
    refine .cons ?_ hrest
    cases rest with
    | nil => simp
    | cons next more =>
      obtain ⟨hstep, -⟩ := List.isChain_cons_cons.mp hchain
      have hnext : next.start ≤ next.stop := hordered next (by simp)
      intro c hc
      rcases List.mem_cons.mp hc with rfl | hc
      · exact hstep
      · exact Std.le_trans hstep (Std.le_trans hnext ((List.pairwise_cons.mp hrest).1 c hc))

/-- The range contains the first and the last of the ranges, and it is no larger than they make
it. -/
structure Frames (r : Range) (ranges : List Range) : Prop where
  first : ∃ c ∈ ranges.head?, r.contains c = true
  last : ∀ c ∈ ranges.getLast?, r.contains c = true
  least : ∀ a : Range, (∀ c ∈ ranges, a.contains c = true) → a.contains r = true

/-- What frames a sequence is its span. -/
theorem Frames.eq_span? (h : r.Frames ranges) (hsequential : Sequential ranges) :
    some r = span? ranges := by
  cases ranges with
  | nil =>
    obtain ⟨c, ⟨⟩, -⟩ := h.first
  | cons first rest =>
    obtain ⟨_, ⟨⟩, hfirst⟩ := h.first
    have hlast : (first :: rest).getLast? = some (rest.getLastD first) := by
      rw [List.getLast?_cons, List.getLastD_eq_getLast?]
    obtain ⟨hstart, -⟩ := contains_iff.mp hfirst
    obtain ⟨-, hstop⟩ := contains_iff.mp (h.last _ hlast)
    obtain ⟨hstart', hstop'⟩ :=
      contains_iff.mp (h.least _ (hsequential.contains_of_span? rfl))
    have hstart : r.start = first.start := Std.le_antisymm hstart hstart'
    have hstop : r.stop = (rest.getLastD first).stop := Std.le_antisymm hstop' hstop
    rw [span?, ← hstart, ← hstop]

/-- It is enough that a range contains the first of the ranges and all of them at the end. -/
theorem Frames.of_append (hfirst : ∃ c ∈ (before ++ after).head?, r.contains c = true)
    (hafter : ∀ c ∈ after, r.contains c = true) (hne : after ≠ [])
    (hleast : ∀ a : Range, (∀ c ∈ before ++ after, a.contains c = true) → a.contains r = true) :
    r.Frames (before ++ after) where
  first := hfirst
  last c hc := by
    rw [List.getLast?_append_of_ne_nil before hne] at hc
    exact hafter c (List.mem_of_getLast? hc)
  least := hleast

/-- What covers all of the ranges frames them. -/
theorem Frames.of_coverList {first : Range} {rest : List Range} :
    (first.coverList rest).Frames (first :: rest) := by
  show (first.coverList rest).Frames ([] ++ (first :: rest))
  apply Frames.of_append
  · simp
  · intro c hc
    exact bounds_coverAll? rfl c hc
  · simp
  · intro a ha
    exact contains_coverList_iff.mpr (List.forall_mem_cons.mp ha)

end Range

/-! ## Every node frames its parts -/

theorem Expression.frames (e : Expression) : e.range.Frames (Node.expression e).partRanges where
  first := by
    cases e <;> simp [range, parts, Node.partRanges, Node.parts, Node.range?]
  last := by
    cases e <;> simp [range, parts, Node.partRanges, Node.parts, Node.range?, List.getLast?_cons]
  least a := by
    cases e <;>
      simp [range, parts, Node.partRanges, Node.parts, Node.range?, Range.contains_cover_iff,
        Range.contains_coverList_iff, argumentRanges_eq, memberRanges_eq, partRanges_eq, or_imp,
        forall_and] <;>
      grind

namespace FunctionLiteral

/-- Whatever contains the parts of a function contains its range. -/
theorem contains_of_contains_parts (name? : Option Token) (f : FunctionLiteral) {a : Range}
    (h : ∀ c ∈ (f.parts name?).filterMap Part.range?, a.contains c = true) :
    a.contains f.range = true := by
  have hkeyword : a.contains f.keyword.range = true := h _ (by simp [parts])
  have hbody : a.contains f.body.range = true := h _ (by simp [parts])
  have hend : a.contains f.endToken.range = true := h _ (by simp [parts])
  rw [range_eq]
  exact Range.contains_cover (Range.contains_cover hkeyword hbody) hend

/-- A range that contains that of a function contains its first and its last part. -/
theorem frames_parts (name? : Option Token) (f : FunctionLiteral) {r : Range}
    (hr : r.contains f.range = true)
    (hleast : ∀ a : Range, (∀ c ∈ (f.parts name?).filterMap Part.range?, a.contains c = true) →
      a.contains r = true) : r.Frames ((f.parts name?).filterMap Part.range?) where
  first := by
    have hkeyword : r.contains f.keyword.range = true :=
      Range.contains_trans hr (by simp [range_eq])
    simpa [parts] using hkeyword
  last := by
    have hend : r.contains f.endToken.range = true := Range.contains_trans hr (by simp [range_eq])
    simpa [parts, List.getLast?_cons] using hend
  least := hleast

end FunctionLiteral

namespace Statement

/-- The last part of a branch is one of those from the body on, whichever of them are there. -/
theorem frames_branch (first : Token) (condition : Expression) (then? : Option Token) (body : Block)
    (elseIfs : List ElseIf) (else? : Option Else) (end? : Option Token) :
    (branch first condition then? body elseIfs else? end?).range.Frames
      (Node.statement (.branch first condition then? body elseIfs else? end?)).partRanges := by
  let after := body.range :: elseIfs.map ElseIf.range ++
    else?.toList.map Else.range ++ end?.toList.map Token.range
  have hranges :
      (Node.statement (.branch first condition then? body elseIfs else? end?)).partRanges =
        (first.range :: condition.range :: then?.toList.map Token.range) ++ after := by
    simp [after, Node.partRanges, Node.parts, parts, Node.range?, Function.comp_def]
  have hrange : (branch first condition then? body elseIfs else? end?).range =
      first.range.coverList (condition.range :: after) := by
    cases else? <;> cases end? <;> simp [range, elseIfRanges_eq, after]
  rw [hranges, hrange]
  apply Range.Frames.of_append
  · simp
  · intro c hc
    exact Range.contains_coverList_of_mem (List.mem_cons_of_mem _ hc) _
  · simp [after]
  · intro a
    simp [Range.contains_coverList_iff]
    grind

theorem frames_print (first : Token) (items : List PrintItem) :
    (print first items).range.Frames (Node.statement (.print first items)).partRanges := by
  have hranges : (Node.statement (.print first items)).partRanges =
      first.range :: items.map PrintItem.range := by
    simp [Node.partRanges, Node.parts, parts, Node.range?, Function.comp_def]
  rw [hranges, range, itemRanges_eq]
  exact .of_coverList

theorem frames_namespaceBlock (first : Token) (name : DottedName) (body : Body)
    (endToken : Token) :
    (namespaceBlock first name body endToken).range.Frames
      (Node.statement (.namespaceBlock first name body endToken)).partRanges := by
  have hranges : (Node.statement (.namespaceBlock first name body endToken)).partRanges =
      (first.range :: name.range :: (Body.range? body).toList) ++ [endToken.range] := by
    cases hbody : Body.range? body <;>
      simp [Node.partRanges, Node.parts, parts, Node.range?, hbody]
  rw [hranges, range]
  apply Range.Frames.of_append
  · simp
  · simp
  · simp
  · intro a ha
    refine Range.contains_coverList_iff.mpr ⟨ha _ (by simp), ?_⟩
    rintro c (_ | ⟨_, _ | ⟨_, hc⟩⟩)
    · exact ha _ (by simp)
    · exact ha _ (by simp)
    · obtain ⟨inner, hinner, hcontains⟩ := Range.exists_coverAll?_of_mem hc
      have hbody : Body.range? body = some inner := hinner
      exact Range.contains_trans (ha inner (by simp [hbody])) hcontains

end Statement

theorem Statement.frames (s : Statement) : s.range.Frames (Node.statement s).partRanges := by
  cases s with
  | branch => exact frames_branch ..
  | print => exact frames_print ..
  | function name f =>
    -- The name is covered although it stands inside; so it is nothing but one more part.
    rw [range]
    apply f.frames_parts (some name) (Range.contains_cover_right _ _)
    intro a ha
    refine Range.contains_cover (ha name.range ?_) (f.contains_of_contains_parts _ ha)
    simp [FunctionLiteral.parts]
  | namespaceBlock => exact frames_namespaceBlock ..
  | returning first value? =>
    -- Without a value the keyword is the last part as well.
    cases value? <;> constructor <;>
      simp [range, Node.partRanges, Node.parts, parts, Range.contains_cover_iff]
  | forLoop first counter toToken limit step? body endToken =>
    cases step? <;> constructor <;>
      simp [range, Node.partRanges, Node.parts, parts, Node.range?,
        Range.contains_coverList_iff] <;>
      grind
  | _ =>
    constructor
    · simp [range, parts, Node.partRanges, Node.parts, Node.range?]
    · simp [range, parts, Node.partRanges, Node.parts, Node.range?, List.getLast?_cons]
    · simp [range, parts, Node.partRanges, Node.parts, Node.range?, Range.contains_cover_iff,
        Range.contains_coverList_iff] <;>
      grind

/-- The dots of a name stand between its identifiers, of which the last comes last. -/
theorem DottedName.frames (n : DottedName) : n.range.Frames (Node.name n).partRanges := by
  obtain ⟨root, links⟩ := n
  rcases List.eq_nil_or_concat' links with rfl | ⟨init, link, rfl⟩
  · exact .of_coverList
  · have hranges : (Node.name ⟨root, init ++ [link]⟩).partRanges =
        (root.range :: init.flatMap (fun link => [link.dot.range, link.name.range]) ++
          [link.dot.range]) ++ [link.name.range] := by
      simp [Node.partRanges, Node.parts, writtenParts, List.filterMap_flatMap]
    rw [hranges]
    apply Range.Frames.of_append
    · simp [range]
    · simp [range]
    · simp
    · intro a
      simp [range, Range.contains_coverList_iff]
      grind

namespace Node

theorem frames {n : Node} {r : Range} (hr : n.range? = some r) : r.Frames n.partRanges := by
  cases n with
  | expression e =>
    cases hr
    exact e.frames
  | statement s =>
    cases hr
    exact s.frames
  | function f =>
    cases hr
    apply f.frames_parts none (Range.contains_refl _)
    intro a ha
    exact f.contains_of_contains_parts none ha
  | block b =>
    cases hr
    obtain ⟨start, statements⟩ := b
    have hranges : (block ⟨start, statements⟩).partRanges =
        .point start :: statements.map Statement.range := by
      simp [partRanges, parts, range?, Function.comp_def]
    rw [hranges, Block.range, statementRanges_eq]
    exact .of_coverList
  | body statements =>
    have hranges : (body statements).partRanges = statements.map Statement.range := by
      simp [partRanges, parts, range?, Function.comp_def]
    rw [hranges]
    cases statements with
    | nil => cases hr
    | cons first rest =>
      cases hr
      rw [statementRanges_eq]
      exact .of_coverList
  | comment c =>
    cases hr
    have hranges : (comment c).partRanges = c.first.range :: c.others.map Token.range := by
      simp [partRanges, parts, Comment.tokens, Function.comp_def]
    rw [hranges]
    exact .of_coverList
  | parameter p =>
    cases hr
    have hranges : (parameter p).partRanges = p.name.range ::
        ((p.default?.map Expression.range).toList ++ (p.type?.map TypeClause.range).toList) := by
      obtain ⟨name, default?, type?⟩ := p
      cases default? <;> cases type? <;>
        simp [partRanges, parts, Parameter.parts, range?]
    rw [hranges]
    exact .of_coverList
  | name n =>
    cases hr
    exact n.frames
  | member a | part a | item a | assignment a | elseIf a | otherwise a | step a | typeClause a =>
    cases a
    all_goals
      cases hr
      constructor <;>
        simp [partRanges, parts, Member.parts, TemplatePart.parts, PrintItem.parts, range?,
          Member.range, TemplatePart.range, PrintItem.range, Assignment.range, ElseIf.range,
          Else.range, ForStep.range, TypeClause.range, List.getLast?_cons,
          Range.contains_cover_iff] <;>
        grind

end Node

/-! ## Trees in source order -/

namespace Node

variable {n inner : Node} {r : Range}

/-- The parts of the node, and of every node below it, are in source order. -/
def InOrder (n : Node) : Prop := ∀ inner, n.Holds inner → Range.Sequential inner.partRanges

theorem InOrder.child {child : Node} (h : n.InOrder) (hchild : child ∈ n.children) :
    child.InOrder :=
  fun inner hinner => h inner (.child hchild hinner)

theorem InOrder.holds (h : n.InOrder) (hinner : n.Holds inner) : inner.InOrder :=
  fun last hlast => h last (hinner.trans hlast)

theorem inOrder_iff :
    n.InOrder ↔ Range.Sequential n.partRanges ∧ ∀ child ∈ n.children, child.InOrder :=
  forall_holds_iff

/-- The range of a node goes from its first part to its last one. -/
theorem range?_eq_span? (h : Range.Sequential n.partRanges) :
    n.range? = Range.span? n.partRanges := by
  cases hr : n.range? with
  | some r => exact (frames hr).eq_span? h
  | none =>
    cases n with
    | body statements =>
      cases statements with
      | nil => rfl
      | cons first rest => cases hr
    | _ => cases hr

theorem contains_of_mem_parts (h : Range.Sequential n.partRanges) {part : Part} {a : Range}
    (hpart : part ∈ n.parts) (ha : part.range? = some a) :
    ∃ r, n.range? = some r ∧ r.contains a = true := by
  rw [range?_eq_span? h]
  exact h.exists_span? (List.mem_filterMap.mpr ⟨part, hpart, ha⟩)

/-- In source order a function contains its parameters and its return type, too. -/
theorem containsChildren_of_sequential (h : Range.Sequential n.partRanges) :
    n.ContainsChildren := by
  by_cases hfunction : ∃ f, n = function f
  · -- Parameters and return type are not covered. They stand between parts that are.
    obtain ⟨f, rfl⟩ := hfunction
    rw [containsChildren_function_iff]
    intro part hpart inner hinner
    have hmem : Part.node part ∈ (function f).parts := by
      rw [FunctionLiteral.header, List.mem_append, List.mem_map, List.mem_map] at hpart
      rcases hpart with ⟨p, hp, rfl⟩ | ⟨clause, hclause, rfl⟩ <;>
        simp_all [parts, FunctionLiteral.parts]
    obtain ⟨r, hr, hcontains⟩ := contains_of_mem_parts h hmem hinner
    cases hr
    exact hcontains
  · rw [not_exists] at hfunction
    exact containsChildren_of_ne hfunction

/-- A node contains every token below it. -/
theorem InOrder.contains_token (h : n.InOrder) (hinner : n.Holds inner) {t : Token}
    (ht : t ∈ inner.tokens) : ∃ r, n.range? = some r ∧ r.contains t.range = true := by
  induction hinner with
  | self n => exact contains_of_mem_parts (h n (.self n)) (token_mem_parts ht) rfl
  | child hchild _ ih =>
    obtain ⟨a, ha, hcontains⟩ := ih (h.child hchild) ht
    obtain ⟨r, hr, houter⟩ :=
      containsChildren_of_sequential (h _ (.self _)) _ hchild a ha
    exact ⟨r, hr, Range.contains_trans houter hcontains⟩

/-- In a tree in source order, the range of every node goes exactly from the start of its first part
to the end of its last one, and it contains all tokens of the node and of the nodes below it. -/
theorem InOrder.range_exact (h : n.InOrder) (hinner : n.Holds inner) :
    inner.range? = Range.span? inner.partRanges ∧
    ∀ lower, inner.Holds lower → ∀ t ∈ lower.tokens,
      ∃ r, inner.range? = some r ∧ r.contains t.range = true := by
  refine ⟨range?_eq_span? (h inner hinner), ?_⟩
  intro lower hlower t ht
  exact (h.holds hinner).contains_token hlower ht

/-- A declaration with a parameter on the line below its name. No range is made of the type of the
parameter but that of the parameter. -/
theorem InOrder.range_exact_declaration :
    let type : TypeClause := ⟨.ofStart .asKeyword "as" ⟨1, 2⟩, .ofStart .identifier "object" ⟨1, 5⟩⟩
    let p : Parameter := ⟨.ofStart .identifier "x" ⟨1, 0⟩, none, some type⟩
    let f : FunctionLiteral := {
      keyword := .ofStart .subKeyword "sub" ⟨0, 0⟩
      opening := .ofStart .leftParen "(" ⟨0, 8⟩
      parameters := [p]
      closing := .ofStart .rightParen ")" ⟨2, 0⟩
      returnType? := none
      body := ⟨⟨2, 1⟩, []⟩
      endToken := .ofStart .endSubKeyword "end sub" ⟨3, 0⟩ }
    let n : Node := .statement (.function (.ofStart .identifier "main" ⟨0, 4⟩) f)
    n.InOrder ∧ n.Holds (.typeClause type) ∧ n.range? = some ⟨⟨0, 0⟩, ⟨3, 7⟩⟩ ∧
      ∃ r, n.range? = some r ∧ r.contains type.asToken.range = true := by
  intro type p f n
  have htype : (Node.typeClause type).InOrder := inOrder_iff.mpr ⟨by decide, by simp [children]⟩
  have hbody : (Node.block f.body).InOrder := inOrder_iff.mpr ⟨by decide, by simp [children, f]⟩
  have hparameter : (Node.parameter p).InOrder :=
    inOrder_iff.mpr ⟨by decide, List.forall_mem_singleton.mpr htype⟩
  have hfunction : (Node.function f).InOrder :=
    inOrder_iff.mpr
      ⟨by decide, List.forall_mem_cons.mpr ⟨hparameter, List.forall_mem_singleton.mpr hbody⟩⟩
  have horder : n.InOrder :=
    inOrder_iff.mpr ⟨by decide, List.forall_mem_singleton.mpr hfunction⟩
  have hholds : n.Holds (.typeClause type) :=
    .child (List.mem_singleton_self _) <| .child List.mem_cons_self <|
      .child (List.mem_singleton_self _) (.self _)
  obtain ⟨hspan, htokens⟩ := horder.range_exact (.self n)
  exact ⟨horder, hholds, hspan.trans (by decide), htokens _ hholds _ List.mem_cons_self⟩

end Node

end Downlevel
